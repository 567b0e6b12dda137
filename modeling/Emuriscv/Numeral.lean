import Mathlib.Tactic.Common
import Mathlib.Tactic.IntervalCases

/-! Numerals in a base of at most sixteen, written with the fewest digits and read back, and
signed decimals of a machine word. -/
namespace Numeral

abbrev Text := List Char

/-- The value of a digit, in either case. -/
def digit (c : Char) : Option Nat :=
  if '0' ≤ c ∧ c ≤ '9' then some (c.toNat - 48)
  else if 'a' ≤ c ∧ c ≤ 'f' then some (c.toNat - 87)
  else if 'A' ≤ c ∧ c ≤ 'F' then some (c.toNat - 55)
  else none

theorem digit_ascii (legible : digit c ≠ none) : 0 < c.toNat ∧ c.toNat < 128 := by
  have val : c.toNat = c.val.toNat := rfl
  simp only [digit,Char.le_def,UInt32.le_iff_toNat_le] at legible
  norm_num at legible
  grind

def append (base value : Nat) (c : Char) : Option Nat :=
  match digit c with
  | some d => if d < base then some (base * value + d) else none
  | none => none

def read (base : Nat) (text : Text) : Option Nat :=
  if text = [] then none else text.foldlM (append base) 0

def write (base n : Nat) : Text := Nat.toDigits base n

def writeUpper (base n : Nat) : Text := (Nat.toDigits base n).map Char.toUpper

/-- A way to put the digits, in lower or in upper case. -/
def Legible (put : Char → Char) : Prop := ∀ d, d < 16 → digit (put (Nat.digitChar d)) = some d

theorem legible_id : Legible id := by
  intro d bound
  interval_cases d <;> rfl

theorem legible_toUpper : Legible Char.toUpper := by
  intro d bound
  interval_cases d <;> rfl

section Legible

variable {put : Char → Char} {base : Nat}

theorem append_digitChar (legible : Legible put) (small : base ≤ 16) (value : Nat) (below : d < base) :
    append base value (put (Nat.digitChar d)) = some (base * value + d) := by
  rw [append,legible d (by omega)]
  exact if_pos below

/-- The last digit comes off the end. -/
theorem foldlM_toDigits (legible : Legible put) (two : 1 < base) (small : base ≤ 16) (n : Nat) :
    ((Nat.toDigits base n).map put).foldlM (append base) 0 = some n := by
  induction n using Nat.strongRecOn with
  | ind n ih =>
    rw [Nat.toDigits_eq_if two]
    split
    next single => simp [append_digitChar legible small 0 single]
    next long =>
      have smaller : n / base < n := Nat.div_lt_self (by omega) two
      have last := Nat.mod_lt n (show 0 < base by omega)
      simp [ih _ smaller,append_digitChar legible small _ last,Nat.div_add_mod]

theorem read_toDigits (legible : Legible put) (two : 1 < base) (small : base ≤ 16) (n : Nat) :
    read base ((Nat.toDigits base n).map put) = some n := by
  rw [read,if_neg (by simp)]
  exact foldlM_toDigits legible two small n

/-- A numeral has nothing but digits. -/
theorem digit_of_mem (legible : Legible put) (two : 1 < base) (small : base ≤ 16) (n : Nat) :
    ∀ c ∈ (Nat.toDigits base n).map put, digit c ≠ none := by
  induction n using Nat.strongRecOn with
  | ind n ih =>
    intro c member
    rw [Nat.toDigits_eq_if two] at member
    split at member
    next single =>
      simp only [List.map_cons,List.map_nil,List.mem_singleton] at member
      simp [member,legible n (by omega)]
    next long =>
      have smaller : n / base < n := Nat.div_lt_self (by omega) two
      have last := Nat.mod_lt n (show 0 < base by omega)
      rw [List.map_append,List.mem_append] at member
      rcases member with higher | lowest
      · exact ih _ smaller c higher
      · simp only [List.map_cons,List.map_nil,List.mem_singleton] at lowest
        simp [lowest,legible _ (show n % base < 16 by omega)]

end Legible

theorem read_write (two : 1 < base) (small : base ≤ 16) (n : Nat) :
    read base (write base n) = some n := by
  have trip := read_toDigits legible_id two small n
  rwa [List.map_id] at trip

theorem read_writeUpper (two : 1 < base) (small : base ≤ 16) (n : Nat) :
    read base (writeUpper base n) = some n := read_toDigits legible_toUpper two small n

theorem write_digits (two : 1 < base) (small : base ≤ 16) (n : Nat) :
    ∀ c ∈ write base n, digit c ≠ none := by
  have digits := digit_of_mem legible_id two small n
  rwa [List.map_id] at digits

theorem writeUpper_digits (two : 1 < base) (small : base ≤ 16) (n : Nat) :
    ∀ c ∈ writeUpper base n, digit c ≠ none := digit_of_mem legible_toUpper two small n

variable {w : Nat}

def writeSigned (value : BitVec w) : Text :=
  if value.msb then '-' :: write 10 (-value).toNat else write 10 value.toNat

end Numeral
