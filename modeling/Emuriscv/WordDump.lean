import Emuriscv.Inspection
import Emuriscv.Served
import Emuriscv.StringDump

/-! Which words the dumps of `monitor.c` show. Their loops compare an address of 32 bits with a bound
of type `size_t`: the address wraps where a bound of 64 bits does not, and a bound of 32 bits wraps
before the address does. -/
namespace Emuriscv.Monitor

/-- A run of the loop that ends, with the addresses of its iterations. -/
inductive Visits (body : State → Word → Except Stop State) (bound : Nat) :
    State → Word → List Word → State → Prop where
  | past (above : ¬address.toNat < bound) : Visits body bound s address [] s
  | visit (below : address.toNat < bound) (shown : body s address = .ok t)
      (rest : Visits body bound t (address + wordSize) visited u) :
      Visits body bound s address (address :: visited) u

/-- `start`, `start + 4`, ..., `start + 4 (n - 1)`. -/
def wordsFrom (start : Word) : Nat → List Word
  | 0 => []
  | n + 1 => start :: wordsFrom (start + wordSize) n

theorem mem_wordsFrom {start a : Word} {n : Nat} :
    a ∈ wordsFrom start n ↔ ∃ k < n, a = roundAddress start k := by
  induction n generalizing start with
  | zero => simp [wordsFrom]
  | succ n ih =>
    rw [wordsFrom,List.mem_cons,ih]
    constructor
    · rintro (rfl | ⟨k,small,rfl⟩)
      · exact ⟨0, Nat.succ_pos n, (roundAddress_zero a).symm⟩
      · exact ⟨k + 1, Nat.succ_lt_succ small, (roundAddress_succ ..).symm⟩
    · rintro ⟨_ | k,small,rfl⟩
      · exact Or.inl (roundAddress_zero start)
      · exact Or.inr ⟨k, Nat.lt_of_succ_lt_succ small, roundAddress_succ ..⟩

section Loop

variable {body : State → Word → Except Stop State} {bound : Nat}

/-- The iterations of a run that ends: the words from the first on, as long as they are below the
bound. -/
theorem visits_iff (s t : State) (start : Word) (n : Nat) :
    Visits body bound s start (wordsFrom start n) t ↔
      (∀ k < n, (roundAddress start k).toNat < bound) ∧ ¬(roundAddress start n).toNat < bound ∧
        (wordsFrom start n).foldlM body s = .ok t := by
  induction n generalizing s start with
  | zero =>
    rw [wordsFrom,roundAddress_zero]
    constructor
    · rintro (above | _)
      exact ⟨by simp, above, rfl⟩
    · rintro ⟨_,above,same⟩
      obtain rfl := Except.ok.inj same
      exact .past above
  | succ n ih =>
    rw [wordsFrom,List.foldlM_cons]
    constructor
    · intro visits
      cases visits with
      | visit below shown rest =>
        obtain ⟨inside,above,ran⟩ := (ih _ _).mp rest
        refine ⟨?_, by rwa [roundAddress_succ], by rwa [shown,ok_bind]⟩
        rintro (_ | k) small
        · rwa [roundAddress_zero]
        · rw [roundAddress_succ]
          exact inside k (Nat.lt_of_succ_lt_succ small)
    · rintro ⟨inside,above,ran⟩
      obtain ⟨u,shown,rest⟩ := bind_eq_ok.mp ran
      have first := inside 0 (Nat.succ_pos n)
      rw [roundAddress_zero] at first
      rw [roundAddress_succ] at above
      refine .visit first shown ((ih _ _).mpr ⟨fun k small => ?_, above, rest⟩)
      rw [← roundAddress_succ]
      exact inside (k + 1) (Nat.succ_lt_succ small)

/-- No run visits anything but the words from its first address on. -/
theorem Visits.words {s t : State} (visits : Visits body bound s start visited t) :
    visited = wordsFrom start visited.length := by
  induction visits with
  | past => rfl
  | visit _ _ _ ih => exact congrArg _ ih

/-- The addresses come again after `2 ^ 30` iterations, so that a longer run has no end. -/
theorem Visits.short {s t : State} (visits : Visits body bound s start visited t) :
    visited.length ≤ 2 ^ 30 := by
  have words := visits.words
  generalize visited.length = n at words ⊢
  subst words
  obtain ⟨inside,above,_⟩ := (visits_iff s t start n).mp visits
  by_contra long
  rw [← roundAddress_mod] at above
  exact above (inside _ (Nat.lt_trans (Nat.mod_lt n (by decide)) (Nat.lt_of_not_le long)))

theorem dumpLoop_iff (s t : State) (a : Word) (rounds : Nat) :
    dumpLoop body bound rounds s a = .ok t ↔
      ∃ visited, visited.length < rounds ∧ Visits body bound s a visited t := by
  induction rounds generalizing s a with
  | zero => simp [dumpLoop]
  | succ rounds ih =>
    rw [dumpLoop]
    split
    next below =>
      rw [bind_eq_ok]
      constructor
      · rintro ⟨u,shown,rest⟩
        obtain ⟨visited,length,visits⟩ := (ih u _).mp rest
        exact ⟨a :: visited, Nat.succ_lt_succ length, .visit below shown visits⟩
      · rintro ⟨visited,length,visits⟩
        cases visits with
        | past above => exact absurd below above
        | visit _ shown rest => exact ⟨_, shown, (ih _ _).mpr ⟨_, Nat.lt_of_succ_lt_succ length, rest⟩⟩
    next above =>
      constructor
      · intro same
        obtain rfl := Except.ok.inj same
        exact ⟨[], Nat.succ_pos rounds, .past above⟩
      · rintro ⟨visited,_,visits⟩
        cases visits with
        | past => rfl
        | visit below => exact absurd below above

/-- The rounds of the model are enough for every run that ends. -/
theorem dumpLoop_visits_iff (s t : State) (a : Word) :
    dumpLoop body bound (2 ^ 30 + 1) s a = .ok t ↔ ∃ visited, Visits body bound s a visited t := by
  rw [dumpLoop_iff]
  exact exists_congr fun visited => and_iff_right_of_imp fun visits => Nat.lt_succ_of_le visits.short

end Loop

theorem roundAddress_toNat (a : Word) (k : Nat) :
    (roundAddress a k).toNat = (a.toNat + 4 * k) % 2 ^ 32 := by
  simp [roundAddress,BitVec.toNat_add]

/-- The words that the condition of the loop lets through are the wanted ones as long as they do not
reach the end of the address space. -/
theorem below_dumpBound_iff (wide : sizeBits = 32 ∨ sizeBits = 64) (start : Word)
    (small : n < 2 ^ 30) :
    ((∀ k < n, (roundAddress start k).toNat < dumpBound sizeBits start n) ∧
        ¬(roundAddress start n).toNat < dumpBound sizeBits start n) ↔ start.toNat + 4 * n < 2 ^ 32 := by
  have low := start.isLt
  simp only [roundAddress_toNat,dumpBound]
  constructor
  · rintro ⟨inside,above⟩
    by_contra wraps
    rcases wide with rfl | rfl
    · have first := inside 0 (by omega)
      omega
    · omega
  · intro fits
    have bound : (start.toNat + n * 4) % 2 ^ sizeBits = start.toNat + 4 * n := by
      rcases wide with rfl | rfl <;> omega
    rw [bound]
    refine ⟨fun k below => ?_, ?_⟩ <;> omega

/-- The loop returns, and its iterations are at the `n` words from an address on. -/
def Shows (body : State → Word → Except Stop State) (sizeBits : Nat) (s : State) (start : Word)
    (n : Nat) (ran : Except Stop State) : Prop :=
  ∃ t, ran = .ok t ∧ Visits body (dumpBound sizeBits start n) s start (wordsFrom start n) t

section Shows

variable {body : State → Word → Except Stop State} {P : State → Word → Prop}
  (returns : ∀ s a, Returns (body s a) ↔ P s a)
  (keeps : ∀ s a t, body s a = .ok t → ∀ b, P t b ↔ P s b)

include returns keeps

theorem foldlM_returns_iff (addresses : List Word) (s : State) :
    Returns (addresses.foldlM body s) ↔ ∀ a ∈ addresses, P s a := by
  induction addresses generalizing s with
  | nil => exact iff_of_true (returns_ok s) (by simp)
  | cons first rest ih =>
    rw [List.foldlM_cons,returns_bind,List.forall_mem_cons]
    constructor
    · rintro ⟨t,shown,later⟩
      refine ⟨(returns s first).mp ⟨t,shown⟩, fun a here => ?_⟩
      rw [← keeps s first t shown]
      exact (ih t).mp later a here
    · rintro ⟨here,later⟩
      obtain ⟨t,shown⟩ := (returns s first).mpr here
      refine ⟨t, shown, (ih t).mpr fun a member => ?_⟩
      rw [keeps s first t shown]
      exact later a member

/-- What is left to the state is whether each of the words can be shown. -/
theorem shows_iff (wide : sizeBits = 32 ∨ sizeBits = 64) (s : State) (start : Word)
    (small : n < 2 ^ 30) :
    Shows body sizeBits s start n
        (dumpLoop body (dumpBound sizeBits start n) (2 ^ 30 + 1) s start) ↔
      start.toNat + 4 * n < 2 ^ 32 ∧ ∀ a ∈ wordsFrom start n, P s a := by
  rw [← foldlM_returns_iff returns keeps,← below_dumpBound_iff wide start small]
  constructor
  · rintro ⟨t,_,visits⟩
    obtain ⟨inside,above,ran⟩ := (visits_iff s t start n).mp visits
    exact ⟨⟨inside,above⟩, t, ran⟩
  · rintro ⟨⟨inside,above⟩,t,ran⟩
    have visits := (visits_iff s t start n).mpr ⟨inside,above,ran⟩
    exact ⟨t, (dumpLoop_visits_iff s t start).mpr ⟨_,visits⟩, visits⟩

/-- The loop returns if the words can be shown that come before one at or above the bound. -/
theorem dumpLoop_returns_iff (s : State) (start : Word) :
    Returns (dumpLoop body bound (2 ^ 30 + 1) s start) ↔
      ∃ n, bound ≤ (roundAddress start n).toNat ∧ ∀ k < n, P s (roundAddress start k) := by
  constructor
  · rintro ⟨t,ran⟩
    obtain ⟨visited,visits⟩ := (dumpLoop_visits_iff s t start).mp ran
    rw [visits.words] at visits
    obtain ⟨_,above,shown⟩ := (visits_iff s t start _).mp visits
    have all := (foldlM_returns_iff returns keeps _ s).mp ⟨t,shown⟩
    exact ⟨visited.length, Nat.le_of_not_lt above, fun k small => all _ (mem_wordsFrom.mpr ⟨k,small,rfl⟩)⟩
  · rintro ⟨n,above,all⟩
    have reaches : ∃ n, bound ≤ (roundAddress start n).toNat := ⟨n,above⟩
    have first : Nat.find reaches ≤ n := Nat.find_min' reaches above
    have below (k : Nat) (small : k < Nat.find reaches) : (roundAddress start k).toNat < bound :=
      Nat.lt_of_not_le (Nat.find_min reaches small)
    obtain ⟨t,shown⟩ := (foldlM_returns_iff returns keeps (wordsFrom start (Nat.find reaches)) s).mpr
      fun a member => by
        obtain ⟨k,small,rfl⟩ := mem_wordsFrom.mp member
        exact all k (small.trans_le first)
    have visits := (visits_iff s t start _).mpr ⟨below, Nat.not_lt_of_le (Nat.find_spec reaches), shown⟩
    exact ⟨t, (dumpLoop_visits_iff s t start).mpr ⟨_,visits⟩⟩

/-- A bound that no address reaches. -/
theorem dumpLoop_endless (high : 2 ^ 32 ≤ bound) (rounds : Nat) (s : State) (a : Word)
    (all : ∀ b, P s b) : dumpLoop body bound rounds s a = .error .diverges := by
  induction rounds generalizing s a with
  | zero => rfl
  | succ rounds ih =>
    obtain ⟨t,shown⟩ := (returns s a).mpr (all a)
    rw [dumpLoop,if_pos (Nat.lt_of_lt_of_le a.isLt high),shown,ok_bind]
    exact ih t _ fun b => (keeps s a t shown b).mpr (all b)

end Shows

/-- A virtual dump gets past the address: with the word there, or after a page fault. -/
def Answers (s : State) (a : Word) : Prop := arrival s a = .fault ∨ shownWord s a ≠ none

theorem answers_sight {s t : State} (same : SameSight s t) (a : Word) :
    Answers t a ↔ Answers s a := by
  have shown := same.shown a
  rw [Answers,Answers,same.fault,Ne,← Option.map_eq_none_iff,shown,Option.map_eq_none_iff]

theorem dumpOne_sight {s : State} (h : dumpOne s a = .ok t) : SameSight s t := by
  obtain ⟨l,looked,rest⟩ := bind_eq_ok.mp h
  obtain ⟨⟨value,u⟩,read,same⟩ := bind_eq_ok.mp rest
  obtain rfl := Except.ok.inj same
  exact (getMemoryTarget_sight looked).trans (readWord_sight read)

theorem dumpOne_returns_iff (s : State) (a : Word) : Returns (dumpOne s a) ↔ Answers s a := by
  cases arrived : arrival s a with
  | fault =>
    have harmless : ∀ look ∈ shownLooks a, look.Harmless s := by
      simp [shownLooks,Look.Harmless,arrived]
    rw [dumpOne_eq,performAll_harmless harmless]
    exact iff_of_true (returns_ok _) (Or.inl arrived)
  | lost =>
    obtain ⟨e,stops⟩ := arrival_lost arrived
    rw [dumpOne,stops]
    refine iff_of_false (not_returns_error e) ?_
    simp [Answers,shownWord,arrived]
  | reached p flagged =>
    obtain ⟨translation,translated,assigned,same,arrives⟩ := arrival_again arrived
    rw [← answers_sight same,dumpOne,
      getMemoryTarget_assigned translated assigned,ok_bind]
    dsimp only
    cases there : wordThere translation.state p with
    | none =>
      obtain ⟨e,stops⟩ := readWord_missing arrives there
      rw [stops]
      refine iff_of_false (not_returns_error e) ?_
      simp [Answers,shownWord,arrives,there]
    | some word =>
      rw [(readWord_there arrives).mpr ⟨there,rfl⟩]
      refine iff_of_true (returns_ok _) (Or.inr ?_)
      simp [shownWord,arrives,there]

/-- The body of the physical dump. -/
def dumpOnePhysical (s : State) (address : Word) : Except Stop State := do
  let _ ← readWordPhysical s address
  pure s

theorem dumpOnePhysical_returns_iff (s : State) (a : Word) :
    Returns (dumpOnePhysical s a) ↔ wordLocation s.memoryMap a ≠ none := by
  rw [dumpOnePhysical]
  cases located : wordLocation s.memoryMap a with
  | none =>
    rw [readWordPhysical_unlocated located]
    exact iff_of_false (not_returns_error _) (not_not.mpr rfl)
  | some p =>
    rw [readWordPhysical_located located]
    exact iff_of_true (returns_ok _) (Option.some_ne_none p)

theorem dumpOnePhysical_same {s : State} (h : dumpOnePhysical s a = .ok t) : t = s := by
  obtain ⟨_,_,same⟩ := bind_eq_ok.mp h
  exact (Except.ok.inj same).symm

/-- The three dumps show their words if and only if the last one ends before the top of the address
space, and each of them can be read. -/
theorem dumps_show_iff (wide : sizeBits = 32 ∨ sizeBits = 64) (s : State) (start : Word)
    (small : n < 2 ^ 30) :
    (Shows dumpOne sizeBits s start n (dumpMemoryVirtual sizeBits s start n) ↔
        start.toNat + 4 * n < 2 ^ 32 ∧ ∀ a ∈ wordsFrom start n, Answers s a) ∧
      (Shows dumpOne sizeBits s start n (disassembleWord sizeBits s start n) ↔
        start.toNat + 4 * n < 2 ^ 32 ∧ ∀ a ∈ wordsFrom start n, Answers s a) ∧
      (Shows dumpOnePhysical sizeBits s start n (dumpMemoryPhysical sizeBits s start n) ↔
        start.toNat + 4 * n < 2 ^ 32 ∧
          ∀ a ∈ wordsFrom start n, wordLocation s.memoryMap a ≠ none) := by
  have virtual := shows_iff dumpOne_returns_iff
    (fun s a t shown b => answers_sight (dumpOne_sight shown) b) wide s start small
  have physical := shows_iff dumpOnePhysical_returns_iff
    (fun s a t shown b => by rw [dumpOnePhysical_same shown]) wide s start small
  exact ⟨virtual,virtual,physical⟩

theorem aliasedPage_answers (a : Word) : Answers aliasedPage a := by
  obtain ⟨word,shown,_⟩ := Option.map_eq_some_iff.mp (not_not.mp (aliasedPage_open a))
  exact Or.inr (by simp [shown])

/-- Two words at the beginning of an address space that is mapped throughout. -/
theorem dumps_show_iff_first :
    Shows dumpOne 64 aliasedPage 0 2 (dumpMemoryVirtual 64 aliasedPage 0 2) :=
  (dumps_show_iff (Or.inr rfl) aliasedPage 0 (show 2 < 2 ^ 30 by decide)).1.mpr
    ⟨by decide, fun a _ => aliasedPage_answers a⟩

/-- `x fffffff0 4`, the last four words of the same address space. With a `size_t` of 64 bits the dump
has no end, and with one of 32 bits it shows nothing. -/
theorem lastWords_missed :
    dumpMemoryVirtual 64 aliasedPage 0xfffffff0 4 = .error .diverges ∧
      disassembleWord 64 aliasedPage 0xfffffff0 4 = .error .diverges ∧
      dumpMemoryVirtual 32 aliasedPage 0xfffffff0 4 = .ok aliasedPage ∧
      Visits dumpOne (dumpBound 32 0xfffffff0 4) aliasedPage 0xfffffff0 [] aliasedPage ∧
      ∀ sizeBits, sizeBits = 32 ∨ sizeBits = 64 →
        ¬Shows dumpOne sizeBits aliasedPage 0xfffffff0 4
          (dumpMemoryVirtual sizeBits aliasedPage 0xfffffff0 4) := by
  have endless : dumpLoop dumpOne (dumpBound 64 0xfffffff0 4) (2 ^ 30 + 1) aliasedPage 0xfffffff0 =
      .error .diverges :=
    dumpLoop_endless dumpOne_returns_iff
      (fun s a t shown b => answers_sight (dumpOne_sight shown) b) (by decide) _ _ _
      aliasedPage_answers
  have above : ¬(0xfffffff0 : Word).toNat < dumpBound 32 0xfffffff0 4 := by decide
  refine ⟨endless, endless, ?_, .past above, fun sizeBits wide shows => ?_⟩
  · rw [dumpMemoryVirtual,dumpLoop,if_neg above]
    rfl
  · obtain ⟨t,_,visits⟩ := shows
    obtain ⟨inside,past,_⟩ := (visits_iff _ t _ 4).mp visits
    have fits := (below_dumpBound_iff wide 0xfffffff0 (by decide)).mp ⟨inside,past⟩
    exact absurd fits (by decide)

end Emuriscv.Monitor
