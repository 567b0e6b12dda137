import Emuriscv.Cpu
import Emuriscv.MatchChain

/-! The `INS_MATCH` chain as a table: no two entries accept one word, and every operation has
one entry. -/
namespace Emuriscv

open MatchChain

deriving instance DecidableEq for InsMatch

def InsMatch.pattern (entry : InsMatch) : Pattern 32 := ⟨entry.mask,entry.value⟩

theorem insMatches_apart : insMatches.Pairwise fun a b => a.pattern.Apart b.pattern := by
  decide +kernel

/-- At most one entry accepts a word. -/
theorem insMatches_exclusive (word : Word) :
    insMatches.Pairwise fun a b => ¬(a.pattern.Accepts word ∧ b.pattern.Accepts word) :=
  insMatches_apart.imp fun apart => apart.exclusive word

theorem insMatches_tests (word : Word) : insMatches.Pairwise fun a b =>
    ¬(decide (word &&& a.mask = a.value) = true ∧ decide (word &&& b.mask = b.value) = true) := by
  refine (insMatches_exclusive word).imp fun exclusive => ?_
  rintro ⟨first,second⟩
  exact exclusive ⟨of_decide_eq_true first, of_decide_eq_true second⟩

/-- The entry of an operation. -/
def Op.entry (op : Op) : InsMatch := (insMatches.find? (·.op = op)).getD ⟨0,0,op⟩

theorem entry_op : ∀ entry ∈ insMatches, entry.op.entry.mask = entry.mask ∧
    entry.op.entry.value = entry.value := by
  decide +kernel

theorem Op.entry_mem (op : Op) : op.entry ∈ insMatches ∧ op.entry.op = op := by
  cases op <;> decide +kernel

/-- An operation is selected by the words that its own entry accepts. -/
theorem decode_eq_some_iff : decode word = some op ↔ op.entry.pattern.Accepts word := by
  rw [decode,Option.map_eq_some_iff]
  constructor
  · rintro ⟨entry,found,rfl⟩
    obtain ⟨member,accepts⟩ := (find?_eq_some_iff (insMatches_tests word)).mp found
    obtain ⟨mask,value⟩ := entry_op entry member
    rw [Pattern.Accepts,InsMatch.pattern,mask,value]
    exact of_decide_eq_true accepts
  · intro accepts
    obtain ⟨member,same⟩ := op.entry_mem
    refine ⟨op.entry, ?_, same⟩
    exact (find?_eq_some_iff (insMatches_tests word)).mpr ⟨member, decide_eq_true accepts⟩

end Emuriscv
