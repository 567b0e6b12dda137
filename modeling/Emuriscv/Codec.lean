import Mathlib.Data.List.OfFn
import Mathlib.Data.Fin.Tuple.Basic
import Mathlib.Tactic.IntervalCases

/-! Images of values as sequences, and readers that take a value back off the front of a
sequence. A reader that reads an image consumes exactly the image, so readers composed in
the order in which the images were put down never go out of step. -/
namespace Codec

variable {β α γ : Type}

/-- None when the sequence is too short, or is no image. -/
abbrev Reader (β α : Type) := StateT (List β) Option α

def Reads (read : Reader β α) (image : List β) (a : α) : Prop :=
  ∀ rest, read (image ++ rest) = some (a,rest)

theorem reads_pure (a : α) : Reads (pure a : Reader β α) [] a := fun _ => rfl

theorem Reads.bind {read : Reader β α} {f : α → Reader β γ} (first : Reads read image a)
    (second : Reads (f a) image' c) : Reads (read >>= f) (image ++ image') c := by
  intro rest
  calc (read >>= f) (image ++ image' ++ rest)
      = (read (image ++ (image' ++ rest))).bind fun p => f p.1 p.2 := by
        rw [List.append_assoc]
        rfl
    _ = f a (image' ++ rest) := by rw [first]; rfl
    _ = some (c,rest) := second rest

/-- A last step that reads nothing. -/
theorem Reads.map {read : Reader β α} (reads : Reads read image a) (f : α → γ) :
    Reads (read >>= fun a => pure (f a)) image (f a) := by
  simpa using reads.bind (f := fun a => pure (f a)) (reads_pure (f a))

/-- `n` elements as they stand. -/
def take (n : Nat) : Reader β (List β) := fun input =>
  if n ≤ input.length then some (input.take n,input.drop n) else none

theorem reads_take (image : List β) : Reads (take image.length) image image := by
  intro rest
  simp [take]

/-- `n` values in a row. -/
def table (read : Reader β α) : (n : Nat) → Reader β (Fin n → α)
  | 0 => pure nofun
  | n + 1 => do
    let first ← read
    let others ← table read n
    pure (Fin.cases first others)

theorem reads_table {read : Reader β α} {image : α → List β} (each : ∀ a, Reads read (image a) a) :
    (n : Nat) → (f : Fin n → α) → Reads (table read n) (List.ofFn fun i => image (f i)).flatten f
  | 0, f => by
    have only : f = nofun := funext nofun
    simpa [only,table] using reads_pure _
  | n + 1, f => by
    have split : (Fin.cases (f 0) fun i => f i.succ) = f := by
      funext i
      cases i using Fin.cases <;> rfl
    have others := (reads_table each n fun i => f i.succ).map
      fun others => (Fin.cases (f 0) others : Fin (n + 1) → α)
    rw [split] at others
    rw [List.ofFn_succ,List.flatten_cons]
    exact (each (f 0)).bind others

/-- The four bytes of a word, lowest first. -/
def little (value : BitVec 32) : List (BitVec 8) :=
  [value.setWidth 8, (value >>> 8).setWidth 8, (value >>> 16).setWidth 8, (value >>> 24).setWidth 8]

@[simp] theorem little_length (value : BitVec 32) : (little value).length = 4 := rfl

def readLittle : Reader (BitVec 8) (BitVec 32)
  | b0 :: b1 :: b2 :: b3 :: rest => some (b3 ++ b2 ++ b1 ++ b0,rest)
  | _ => none

theorem bytes_append (value : BitVec 32) :
    (value >>> 24).setWidth 8 ++ (value >>> 16).setWidth 8 ++ (value >>> 8).setWidth 8 ++
      value.setWidth 8 = value := by
  apply BitVec.eq_of_getLsbD_eq
  intro i bound
  simp only [BitVec.getLsbD_append,BitVec.getLsbD_setWidth,BitVec.getLsbD_ushiftRight]
  interval_cases i <;> simp

theorem reads_little (value : BitVec 32) : Reads readLittle (little value) value := by
  intro rest
  simp [little,readLittle,bytes_append]

/-- The four bytes of a word, highest first. -/
def big (value : BitVec 32) : List (BitVec 8) :=
  [(value >>> 24).setWidth 8, (value >>> 16).setWidth 8, (value >>> 8).setWidth 8, value.setWidth 8]

@[simp] theorem big_length (value : BitVec 32) : (big value).length = 4 := rfl

def readBig : Reader (BitVec 8) (BitVec 32)
  | b3 :: b2 :: b1 :: b0 :: rest => some (b3 ++ b2 ++ b1 ++ b0,rest)
  | _ => none

theorem reads_big (value : BitVec 32) : Reads readBig (big value) value := by
  intro rest
  simp [big,readBig,bytes_append]

end Codec
