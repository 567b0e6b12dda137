import Mathlib.Data.List.Basic

/-! Segments of a memory: sequences that stand at an address, and copies of sequences to
addresses. A copy leaves every segment that is apart from it. -/
namespace Segment

variable {β : Type} {m : Nat → β} {start start' : Nat} {data data' : List β}

/-- `data` copied to `start`. -/
def overlay (m : Nat → β) (start : Nat) (data : List β) : Nat → β := fun i =>
  if start ≤ i then data[i - start]?.getD (m i) else m i

/-- The segment of `size` elements from `start`. -/
def slice (m : Nat → β) (start size : Nat) : List β := (List.range size).map fun i => m (start + i)

def Holds (m : Nat → β) (start : Nat) (data : List β) : Prop :=
  ∀ i < data.length, data[i]? = some (m (start + i))

@[simp] theorem slice_length (m : Nat → β) (start size : Nat) : (slice m start size).length = size := by
  simp [slice]

theorem Holds.slice (holds : Holds m start data) : slice m start data.length = data := by
  apply List.ext_getElem? fun i => ?_
  by_cases inside : i < data.length
  · rw [holds i inside]
    simp [Segment.slice,inside]
  · simp [Segment.slice,inside]

theorem holds_slice (size : Nat) : Holds m start (slice m start size) := by
  intro i inside
  rw [slice_length] at inside
  simp [slice,inside]

theorem holds_nil : Holds m start [] := nofun

theorem holds_append :
    Holds m start (data ++ data') ↔ Holds m start data ∧ Holds m (start + data.length) data' := by
  constructor
  · intro both
    constructor
    · intro i inside
      have := both i (by simp; omega)
      rwa [List.getElem?_append_left inside] at this
    · intro i inside
      have := both (data.length + i) (by simp [inside])
      rwa [List.getElem?_append_right (by omega),Nat.add_sub_cancel_left,← Nat.add_assoc] at this
  · rintro ⟨first,second⟩ i inside
    rw [List.length_append] at inside
    by_cases before : i < data.length
    · rw [List.getElem?_append_left before]
      exact first i before
    · have := second (i - data.length) (by omega)
      rw [List.getElem?_append_right (by omega),this,
        show start + data.length + (i - data.length) = start + i by omega]

theorem overlay_outside (outside : i < start ∨ start + data.length ≤ i) :
    overlay m start data i = m i := by
  unfold overlay
  split
  next => rw [List.getElem?_eq_none (by omega),Option.getD_none]
  next => rfl

@[simp]
theorem overlay_nil : overlay m start [] = m := by
  funext i
  exact overlay_outside (by rw [List.length_nil]; omega)

theorem overlay_holds : Holds (overlay m start data) start data := by
  intro i inside
  simp [overlay,inside]

theorem overlay_zero : overlay m 0 data = fun i => data.getD i (m i) := by
  funext i
  simp [overlay]

/-- A copy changes nothing where its data are already. -/
theorem overlay_eq_iff : overlay m start data = m ↔ Holds m start data := by
  constructor
  · intro same
    rw [← same]
    exact overlay_holds
  · intro holds
    funext i
    by_cases inside : start ≤ i ∧ i < start + data.length
    · have here := holds (i - start) (by omega)
      rw [Nat.add_sub_cancel' inside.1] at here
      rw [overlay,if_pos inside.1,here,Option.getD_some]
    · exact overlay_outside (by omega)

theorem Holds.overlay (holds : Holds m start data)
    (apart : start + data.length ≤ start' ∨ start' + data'.length ≤ start) :
    Holds (overlay m start' data') start data := by
  intro i inside
  rw [holds i inside,overlay_outside (by omega)]

/-- A copy to the end of a segment prolongs it. -/
theorem Holds.extend (holds : Holds m start data) :
    Holds (Segment.overlay m (start + data.length) data') start (data ++ data') :=
  holds_append.mpr ⟨holds.overlay (.inl (Nat.le_refl _)),overlay_holds⟩

/-- A copy behind a copy. -/
theorem overlay_append :
    overlay (overlay m start data) (start + data.length) data' = overlay m start (data ++ data') := by
  funext i
  simp only [overlay]
  by_cases behind : start + data.length ≤ i
  · rw [if_pos behind,if_pos (by omega),if_pos (by omega),List.getElem?_append_right (by omega),
      List.getElem?_eq_none (show data.length ≤ i - start by omega),Option.getD_none,Nat.sub_add_eq]
  · rw [if_neg behind]
    split
    next => rw [List.getElem?_append_left (by omega)]
    next => rfl

def Apart (a b : Nat × List β) : Prop := a.1 + a.2.length ≤ b.1 ∨ b.1 + b.2.length ≤ a.1

/-- The copies one after the other. -/
def overlayAll (m : Nat → β) (copies : List (Nat × List β)) : Nat → β :=
  copies.foldl (fun m copy => overlay m copy.1 copy.2) m

theorem Holds.overlayAll {copies : List (Nat × List β)} (holds : Holds m start data)
    (apart : ∀ copy ∈ copies, Apart (start,data) copy) : Holds (overlayAll m copies) start data := by
  induction copies generalizing m with
  | nil => exact holds
  | cons copy copies ih =>
    rw [List.forall_mem_cons] at apart
    exact ih (holds.overlay apart.1) apart.2

/-- Copies that are apart from each other are all there in the end. -/
theorem overlayAll_holds {copies : List (Nat × List β)} (apart : copies.Pairwise Apart) :
    ∀ copy ∈ copies, Holds (overlayAll m copies) copy.1 copy.2 := by
  induction copies generalizing m with
  | nil => nofun
  | cons first copies ih =>
    rw [List.pairwise_cons] at apart
    rw [List.forall_mem_cons]
    exact ⟨overlay_holds.overlayAll apart.1,ih apart.2⟩

theorem overlayAll_outside {copies : List (Nat × List β)}
    (outside : ∀ copy ∈ copies, i < copy.1 ∨ copy.1 + copy.2.length ≤ i) :
    overlayAll m copies i = m i := by
  induction copies generalizing m with
  | nil => rfl
  | cons copy copies ih =>
    rw [List.forall_mem_cons] at outside
    exact (ih outside.2).trans (overlay_outside outside.1)

end Segment
