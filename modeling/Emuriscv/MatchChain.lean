import Emuriscv.BitField

/-! A chain of tests on a machine word, each of the bits under a mask against a value. Where no
two tests accept one word, the order of the chain does not matter. -/
namespace MatchChain

variable {w : Nat} {α : Type}

structure Pattern (w : Nat) where
  mask : BitVec w
  value : BitVec w
  deriving DecidableEq

def Pattern.Accepts (pattern : Pattern w) (word : BitVec w) : Prop :=
  word &&& pattern.mask = pattern.value

instance (pattern : Pattern w) (word : BitVec w) : Decidable (pattern.Accepts word) :=
  inferInstanceAs (Decidable (_ = _))

/-- The values differ in a bit that both masks keep. -/
def Pattern.Apart (p q : Pattern w) : Prop := p.value &&& q.mask ≠ q.value &&& p.mask

instance (p q : Pattern w) : Decidable (p.Apart q) := inferInstanceAs (Decidable (_ ≠ _))

theorem Pattern.Apart.exclusive {p q : Pattern w} (apart : p.Apart q) (word : BitVec w) :
    ¬(p.Accepts word ∧ q.Accepts word) := by
  rintro ⟨first,second⟩
  unfold Accepts at first second
  apply apart
  rw [← first,← second]
  ac_rfl

/-- The demand that a field has a value. -/
structure Demand (w : Nat) where
  field : BitField.Field w
  value : BitVec field.len

def Demand.Met (demand : Demand w) (word : BitVec w) : Prop :=
  word.extractLsb' demand.field.lo demand.field.len = demand.value

instance (demand : Demand w) (word : BitVec w) : Decidable (demand.Met word) :=
  inferInstanceAs (Decidable (_ = _))

def Demand.pattern (demand : Demand w) : Pattern w :=
  ⟨demand.field.mask, demand.value.setWidth w <<< demand.field.lo⟩

/-- The test of several demands at once. -/
def patternOf : List (Demand w) → Pattern w
  | [] => ⟨0,0⟩
  | demand :: rest =>
    ⟨demand.pattern.mask ||| (patternOf rest).mask, demand.pattern.value ||| (patternOf rest).value⟩

theorem Demand.accepts_iff (demand : Demand w) (word : BitVec w) :
    demand.pattern.Accepts word ↔ demand.Met word := by
  have inside := demand.field.inside
  constructor
  · intro accepts
    apply BitVec.eq_of_getLsbD_eq
    intro i bound
    have bit := congrArg (BitVec.getLsbD · (demand.field.lo + i)) accepts
    simp only [pattern,BitVec.getLsbD_and,BitField.mask_bit,BitVec.getLsbD_shiftLeft,
      BitVec.getLsbD_setWidth] at bit
    rw [BitVec.getLsbD_extractLsb',decide_eq_true bound,Bool.true_and]
    have place : demand.field.lo + i < w := by omega
    have low : ¬demand.field.lo + i < demand.field.lo := by omega
    have short : i < w := by omega
    simpa [bound,place,low,short] using bit
  · intro met
    apply BitVec.eq_of_getLsbD_eq
    intro i bound
    simp only [pattern,BitVec.getLsbD_and,BitField.mask_bit,BitVec.getLsbD_shiftLeft,
      BitVec.getLsbD_setWidth,← show _ = demand.value from met,BitVec.getLsbD_extractLsb']
    by_cases low : demand.field.lo ≤ i
    · have place : demand.field.lo + (i - demand.field.lo) = i := by omega
      by_cases high : i < demand.field.lo + demand.field.len
      · have short : i - demand.field.lo < demand.field.len := by omega
        have short' : i - demand.field.lo < w := by omega
        have above : ¬i < demand.field.lo := by omega
        simp [low,high,short,short',above,place,bound]
      · have long : ¬i - demand.field.lo < demand.field.len := by omega
        simp [high,long]
    · simp [low,Nat.lt_of_not_le low]

/-- Every bit of a value lies under its mask. -/
def Pattern.Proper (pattern : Pattern w) : Prop := pattern.value &&& pattern.mask = pattern.value

instance (pattern : Pattern w) : Decidable pattern.Proper := inferInstanceAs (Decidable (_ = _))

theorem Pattern.proper_iff (pattern : Pattern w) : pattern.Proper ↔
    ∀ i, pattern.mask.getLsbD i = false → pattern.value.getLsbD i = false := by
  constructor
  · intro proper i outside
    rw [← proper,BitVec.getLsbD_and,outside,Bool.and_false]
  · intro outside
    apply BitVec.eq_of_getLsbD_eq
    intro i bound
    rw [BitVec.getLsbD_and]
    cases masked : pattern.mask.getLsbD i with
    | true => exact Bool.and_true _
    | false => rw [outside i masked,Bool.and_false]

theorem Demand.proper (demand : Demand w) : demand.pattern.Proper := by
  rw [Pattern.proper_iff]
  intro i outside
  have inside := demand.field.inside
  simp only [pattern,BitField.mask_bit,BitVec.getLsbD_shiftLeft,BitVec.getLsbD_setWidth,
    Bool.and_eq_false_iff,decide_eq_false_iff_not,Bool.not_eq_false'] at outside ⊢
  by_cases low : i < demand.field.lo
  · simp [low]
  · have beyond : demand.value.getLsbD (i - demand.field.lo) = false :=
      BitVec.getLsbD_of_ge _ _ (by omega)
    simp [beyond]

/-- Two tests on disjoint masks are one test on both. -/
theorem accepts_or {p q : Pattern w} (proper : p.Proper) (proper' : q.Proper)
    (apart : p.mask &&& q.mask = 0) (word : BitVec w) :
    (Pattern.mk (p.mask ||| q.mask) (p.value ||| q.value)).Accepts word ↔
      p.Accepts word ∧ q.Accepts word := by
  rw [Pattern.proper_iff] at proper proper'
  have disjoint (i : Nat) : (p.mask.getLsbD i && q.mask.getLsbD i) = false := by
    simpa using congrArg (BitVec.getLsbD · i) apart
  unfold Pattern.Accepts
  constructor
  · intro both
    constructor
    all_goals
      apply BitVec.eq_of_getLsbD_eq
      intro i bound
      have bit := congrArg (BitVec.getLsbD · i) both
      have here := disjoint i
      have off := proper i
      have off' := proper' i
      simp only [BitVec.getLsbD_and,BitVec.getLsbD_or] at bit ⊢
      cases first : p.mask.getLsbD i <;> cases second : q.mask.getLsbD i <;> simp_all
  · rintro ⟨first,second⟩
    dsimp only
    rw [BitVec.and_or_distrib_left,first,second]

theorem patternOf_proper (demands : List (Demand w)) : (patternOf demands).Proper := by
  induction demands with
  | nil => exact BitVec.and_zero
  | cons demand rest ih =>
    have first := demand.proper
    rw [Pattern.proper_iff] at first ih ⊢
    intro i outside
    simp only [patternOf,BitVec.getLsbD_or,Bool.or_eq_false_iff] at outside ⊢
    exact ⟨first i outside.1, ih i outside.2⟩

/-- Which bits are tested does not depend on the values. -/
theorem patternOf_mask (demands : List (Demand w)) :
    (patternOf demands).mask = (demands.map Demand.field).foldr (fun f mask => f.mask ||| mask) 0 := by
  induction demands with
  | nil => rfl
  | cons demand rest ih =>
    rw [patternOf,ih]
    rfl

theorem mask_and_mask {f g : BitField.Field w} (apart : f.Apart g) : f.mask &&& g.mask = 0 := by
  apply BitVec.eq_of_getLsbD_eq
  intro i bound
  unfold BitField.Field.Apart at apart
  rw [BitVec.getLsbD_and,BitField.mask_bit,BitField.mask_bit]
  simp
  omega

theorem patternOf_apart {demand : Demand w} {rest : List (Demand w)}
    (apart : ∀ other ∈ rest, demand.field.Apart other.field) :
    demand.pattern.mask &&& (patternOf rest).mask = 0 := by
  induction rest with
  | nil => exact BitVec.and_zero
  | cons other rest ih =>
    obtain ⟨first,later⟩ := List.forall_mem_cons.mp apart
    have disjoint : demand.pattern.mask &&& other.pattern.mask = 0 := mask_and_mask first
    rw [patternOf,BitVec.and_or_distrib_left,disjoint,ih later]
    exact BitVec.or_zero

/-- A test of fields that are apart is the demand that each has its value. -/
theorem patternOf_accepts_iff {demands : List (Demand w)}
    (apart : demands.Pairwise fun a b => a.field.Apart b.field) (word : BitVec w) :
    (patternOf demands).Accepts word ↔ ∀ demand ∈ demands, demand.Met word := by
  induction demands with
  | nil => simp [patternOf,Pattern.Accepts]
  | cons demand rest ih =>
    obtain ⟨first,later⟩ := List.pairwise_cons.mp apart
    rw [patternOf,accepts_or demand.proper (patternOf_proper rest) (patternOf_apart first) word,
      demand.accepts_iff,ih later,List.forall_mem_cons]

/-- The word with the bits under the mask as the pattern has them. -/
def Pattern.impose (pattern : Pattern w) (word : BitVec w) : BitVec w :=
  (word &&& ~~~pattern.mask) ||| pattern.value

theorem Pattern.impose_accepts {pattern : Pattern w} (proper : pattern.Proper) (word : BitVec w) :
    pattern.Accepts (pattern.impose word) := by
  unfold Accepts impose
  rw [BitVec.and_or_distrib_right,BitVec.and_assoc,proper]
  simp

theorem Pattern.impose_outside {pattern : Pattern w} (proper : pattern.Proper) (word : BitVec w) :
    pattern.impose word &&& ~~~pattern.mask = word &&& ~~~pattern.mask := by
  have under : pattern.value &&& ~~~pattern.mask = 0 := by
    rw [← proper,BitVec.and_assoc]
    simp
  rw [impose,BitVec.and_or_distrib_right,under,BitVec.and_assoc,BitVec.and_self]
  exact BitVec.or_zero

/-- A test that leaves a bit out accepts what one of the two tests of that bit accepts. -/
theorem accepts_bit {p : Pattern w} (proper : p.Proper) (i : Nat)
    (outside : p.mask &&& BitVec.twoPow w i = 0) (word : BitVec w) :
    p.Accepts word ↔ (Pattern.mk (p.mask ||| BitVec.twoPow w i) p.value).Accepts word ∨
      (Pattern.mk (p.mask ||| BitVec.twoPow w i) (p.value ||| BitVec.twoPow w i)).Accepts word := by
  have clear : (Pattern.mk (BitVec.twoPow w i) 0).Proper := BitVec.zero_and
  have set : (Pattern.mk (BitVec.twoPow w i) (BitVec.twoPow w i)).Proper := BitVec.and_self
  have first := accepts_or proper clear outside word
  have second := accepts_or proper set outside word
  have same : p.value ||| 0 = p.value := BitVec.or_zero
  dsimp only at first second
  rw [same] at first
  rw [first,second,← and_or_left]
  refine (and_iff_left ?_).symm
  unfold Pattern.Accepts
  rw [BitVec.and_twoPow]
  cases word.getLsbD i with
  | true => exact Or.inr (if_pos rfl)
  | false => exact Or.inl (if_neg (by decide))

/-- In a chain of exclusive tests the first that accepts is the only one. -/
theorem find?_eq_some_iff {test : α → Bool} {chain : List α}
    (exclusive : chain.Pairwise fun a b => ¬(test a ∧ test b)) :
    chain.find? test = some a ↔ a ∈ chain ∧ test a := by
  induction chain with
  | nil => simp
  | cons head rest ih =>
    obtain ⟨first,later⟩ := List.pairwise_cons.mp exclusive
    cases accepts : test head with
    | true =>
      rw [List.find?_cons_of_pos accepts,List.mem_cons]
      constructor
      · rintro ⟨⟩
        exact ⟨Or.inl rfl, accepts⟩
      · rintro ⟨rfl | member,accepts'⟩
        · rfl
        · exact absurd ⟨accepts,accepts'⟩ (first a member)
    | false =>
      rw [List.find?_cons_of_neg (by simp [accepts]),ih later,List.mem_cons]
      constructor
      · exact fun ⟨member,accepts'⟩ => ⟨Or.inr member, accepts'⟩
      · rintro ⟨rfl | member,accepts'⟩
        · simp [accepts] at accepts'
        · exact ⟨member,accepts'⟩

theorem find?_perm {test : α → Bool} {chain chain' : List α}
    (exclusive : chain.Pairwise fun a b => ¬(test a ∧ test b)) (order : chain.Perm chain') :
    chain'.find? test = chain.find? test := by
  have exclusive' := order.pairwise exclusive fun apart both => apart both.symm
  apply Option.ext
  intro a
  rw [find?_eq_some_iff exclusive,find?_eq_some_iff exclusive',order.mem_iff]

end MatchChain
