import Mathlib.Data.List.Forall2

/-! Runs of a labelled transition system, kept with the states they visit. A property of
steps that re-establishes an invariant is decided step by step along a whole run. -/
namespace LabelledRun

variable {σ ε ε' ρ : Type} {step good safe kind : σ → ε → σ → Prop} {invariant : σ → Prop}

/-- The labels and target states of consecutive steps, from a state on. -/
inductive Path (step : σ → ε → σ → Prop) : σ → List (ε × σ) → Prop
  | nil : Path step s []
  | cons : step s e t → Path step t rest → Path step s ((e,t) :: rest)

/-- A property of every step of a run. -/
def Every (property : σ → ε → σ → Prop) : σ → List (ε × σ) → Prop
  | _, [] => True
  | s, (e,t) :: rest => property s e t ∧ Every property t rest

/-- Two properties that agree where the invariant holds agree along a whole run, if one of
them carries the invariant on. -/
theorem Path.every_iff (path : Path step s steps) (initial : invariant s)
    (agree : ∀ s e t, invariant s → step s e t → (good s e t ↔ safe s e t))
    (carried : ∀ s e t, invariant s → step s e t → good s e t → invariant t) :
    Every good s steps ↔ Every safe s steps := by
  induction path with
  | nil => exact Iff.rfl
  | cons head _ ih =>
    have first := agree _ _ _ initial head
    constructor
    · rintro ⟨isGood,rest⟩
      exact ⟨first.mp isGood, (ih (carried _ _ _ initial head isGood)).mp rest⟩
    · rintro ⟨isSafe,rest⟩
      have isGood := first.mpr isSafe
      exact ⟨isGood, (ih (carried _ _ _ initial head isGood)).mpr rest⟩

/-- An invariant that every step preserves gives each step what follows from it. -/
theorem Path.every (path : Path step s steps) (initial : invariant s)
    (preserved : ∀ s e t, invariant s → step s e t → invariant t)
    (holds : ∀ s e t, invariant s → step s e t → good s e t) : Every good s steps := by
  induction path with
  | nil => trivial
  | cons head _ ih => exact ⟨holds _ _ _ initial head, ih (preserved _ _ _ initial head)⟩

/-- What a step with one property also has, every step of a run of such steps has. -/
theorem Path.mono (path : Path step s steps) (given : Every good s steps)
    (implies : ∀ s e t, step s e t → good s e t → safe s e t) : Every safe s steps := by
  induction path with
  | nil => trivial
  | cons head _ ih => exact ⟨implies _ _ _ head given.1, ih given.2⟩

/-- The states of a run, in order, with the one it starts from. -/
def states (s : σ) (steps : List (ε × σ)) : List σ := s :: steps.map Prod.snd

/-- An invariant holds in every state of a run. -/
theorem Path.states_invariant (path : Path step s steps) (initial : invariant s)
    (preserved : ∀ s e t, invariant s → step s e t → invariant t) :
    ∀ t ∈ states s steps, invariant t := by
  induction path with
  | nil =>
    intro t member
    rwa [List.mem_singleton.mp member]
  | cons head _ ih =>
    intro t member
    rcases List.mem_cons.mp member with rfl | member
    · exact initial
    · exact ih (preserved _ _ _ initial head) t member

/-- What is transitive relates every state of a run to all later ones if it relates the two
states of every step. -/
theorem pairwise_iff_every {related : σ → σ → Prop}
    (trans : ∀ a b c, related a b → related b c → related a c) (s : σ) (steps : List (ε × σ)) :
    (states s steps).Pairwise related ↔ Every (fun s _ t => related s t) s steps := by
  induction steps generalizing s with
  | nil => simp [states,Every]
  | cons step rest ih =>
    obtain ⟨e,t⟩ := step
    have tail : states s ((e,t) :: rest) = s :: states t rest := rfl
    rw [tail,List.pairwise_cons,ih t,Every]
    constructor
    · rintro ⟨first,later⟩
      exact ⟨first t (by simp [states]), later⟩
    · rintro ⟨first,later⟩
      refine ⟨?_,later⟩
      intro u member
      rcases List.mem_cons.mp member with rfl | member
      · exact first
      · have ordered := (ih t).mpr later
        exact trans s t u first (List.rel_of_pairwise_cons ordered member)

/-- The state in which a run ends. -/
def final : σ → List (ε × σ) → σ
  | s, [] => s
  | _, (_,t) :: rest => final t rest

theorem final_mem (s : σ) (steps : List (ε × σ)) : final s steps ∈ states s steps := by
  induction steps generalizing s with
  | nil => exact List.mem_singleton.mpr rfl
  | cons step rest ih => exact List.mem_cons_of_mem s (ih step.2)

/-- What relates every state to itself and to all later ones relates the first to the last. -/
theorem pairwise_final {related : σ → σ → Prop} (refl : ∀ a, related a a)
    (ordered : (states s steps).Pairwise related) : related s (final s steps) := by
  rcases List.mem_cons.mp (final_mem s steps) with same | later
  · rw [same]
    exact refl s
  · exact List.rel_of_pairwise_cons ordered later

theorem Path.append (first : Path step s steps) (second : Path step (final s steps) more) :
    Path step s (steps ++ more) ∧ final s (steps ++ more) = final (final s steps) more := by
  induction first with
  | nil => exact ⟨second,rfl⟩
  | cons head _ ih =>
    obtain ⟨rest,same⟩ := ih second
    exact ⟨.cons head rest, same⟩

theorem Path.of_append (path : Path step s (steps ++ more)) :
    Path step s steps ∧ Path step (final s steps) more := by
  induction steps generalizing s with
  | nil => exact ⟨.nil,path⟩
  | cons _ rest ih =>
    obtain _ | ⟨head,tail⟩ := path
    obtain ⟨first,second⟩ := ih tail
    exact ⟨.cons head first, second⟩

theorem final_append (s : σ) (steps more : List (ε × σ)) :
    final s (steps ++ more) = final (final s steps) more := by
  induction steps generalizing s with
  | nil => rfl
  | cons step rest ih => exact ih step.2

/-- What the steps of a run leave alone is the same at its end. -/
theorem Path.kept {value : σ → ρ} (path : Path step s steps) (given : Every good s steps)
    (keeps : ∀ s e t, step s e t → good s e t → value t = value s) :
    value (final s steps) = value s := by
  induction path with
  | nil => rfl
  | cons head _ ih => exact (ih given.2).trans (keeps _ _ _ head given.1)

/-- The last step of some kind in a run: it leads from `u` to `v`. -/
def LastStep (kind : σ → ε → σ → Prop) (s : σ) (steps : List (ε × σ)) (u v : σ) : Prop :=
  ∃ before e after, steps = before ++ (e,v) :: after ∧ final s before = u ∧ kind u e v ∧
    Every (fun s e t => ¬kind s e t) v after

theorem lastStep_cases (kind : σ → ε → σ → Prop) (s : σ) (steps : List (ε × σ)) :
    Every (fun s e t => ¬kind s e t) s steps ∨ ∃ u v, LastStep kind s steps u v := by
  induction steps generalizing s with
  | nil => exact Or.inl trivial
  | cons step rest ih =>
    obtain ⟨e,t⟩ := step
    rcases ih t with none | ⟨u,v,before,e',after,rfl,start,here,later⟩
    · by_cases first : kind s e t
      · exact Or.inr ⟨s, t, [], e, rest, rfl, rfl, first, none⟩
      · exact Or.inl ⟨first,none⟩
    · exact Or.inr ⟨u, v, (e,t) :: before, e', after, rfl, start, here, later⟩

/-- After the last step of a kind, what only steps of that kind change is as that step left it. -/
theorem LastStep.kept {value : σ → ρ} (last : LastStep kind s steps u v)
    (path : Path step s steps)
    (keeps : ∀ s e t, step s e t → ¬kind s e t → value t = value s) :
    value (final s steps) = value v ∧ ∃ e, step u e v := by
  obtain ⟨before,e,after,rfl,rfl,_,later⟩ := last
  obtain _ | ⟨head,tail⟩ := path.of_append.2
  rw [final_append]
  exact ⟨tail.kept later keeps, e, head⟩

/-- A window that every step moves on by one value shows the values of the last steps. -/
theorem Path.slides {window : σ → List ρ} {value : σ → ρ} (path : Path step s steps)
    (given : Every good s steps) (wide : window s ≠ [])
    (moves : ∀ s e t, step s e t → good s e t → window t = (window s).tail ++ [value t]) :
    window (final s steps) = (window s ++ steps.map fun step => value step.2).drop steps.length := by
  induction path with
  | nil => simp [final]
  | @cons s e t rest head _ ih =>
    obtain ⟨first,others,front⟩ := List.exists_cons_of_ne_nil wide
    have moved := moves _ _ _ head given.1
    rw [front,List.tail_cons] at moved
    have later := ih given.2 (by simp [moved])
    rw [moved] at later
    simpa [front,final] using later

/-- A run ends with its final state. -/
theorem states_getLast (s : σ) (steps : List (ε × σ)) :
    (states s steps).getLast? = some (final s steps) := by
  induction steps generalizing s with
  | nil => rfl
  | cons step rest ih =>
    have later := ih step.2
    rw [states] at later ⊢
    rw [List.map_cons,List.getLast?_cons_cons,later]
    rfl

/-- Some run leads from one state to the other. -/
def Reaches (step : σ → ε → σ → Prop) (s t : σ) : Prop :=
  ∃ steps, Path step s steps ∧ final s steps = t

theorem Reaches.single (e : ε) (head : step s e t) : Reaches step s t :=
  ⟨[(e,t)], .cons head .nil, rfl⟩

theorem Reaches.trans (first : Reaches step s t) (second : Reaches step t u) : Reaches step s u := by
  obtain ⟨steps,path,rfl⟩ := first
  obtain ⟨more,path',rfl⟩ := second
  exact ⟨steps ++ more, path.append path'⟩

/-- A system whose single steps are runs of another has runs of the other for its runs. -/
theorem Path.reaches {machine : σ → ε' → σ → Prop} (path : Path machine s steps)
    (simulated : ∀ s e t, machine s e t → Reaches step s t) : Reaches step s (final s steps) := by
  induction path with
  | nil => exact ⟨[], .nil, rfl⟩
  | cons head _ ih => exact (simulated _ _ _ head).trans ih

/-- Two systems in step: where every good step of one is answered by a step of the other that
relates the states again, every run of good steps is answered by a run of the same length. -/
theorem Path.simulated {τ : Type} {step' : τ → ε' → τ → Prop} {related : σ → τ → Prop} {s' : τ}
    (path : Path step s steps) (given : Every good s steps) (initial : related s s')
    (answered : ∀ s e t s', related s s' → step s e t → good s e t →
      ∃ e' t', step' s' e' t' ∧ related t t') :
    ∃ steps', Path step' s' steps' ∧ List.Forall₂ related (states s steps) (states s' steps') := by
  induction path generalizing s' with
  | nil => exact ⟨[], .nil, .cons initial .nil⟩
  | cons head _ ih =>
    obtain ⟨e',t',head',next⟩ := answered _ _ _ _ initial head given.1
    obtain ⟨rest,tail,all⟩ := ih given.2 next
    exact ⟨(e',t') :: rest, .cons head' tail, .cons initial all⟩

end LabelledRun
