import Mathlib.Algebra.Group.Nat.Defs
import Mathlib.Tactic.Common

/-! A flat memory of bytes with little-endian accesses of any width. Values are natural
numbers, of which a store keeps the low bytes. -/
namespace FlatMemory

abbrev Memory := Nat → BitVec 8

variable {m m' : Memory} {address address' width : Nat}

def load (m : Memory) (address : Nat) : Nat → Nat
  | 0 => 0
  | width + 1 => (m address).toNat + 256 * load m (address + 1) width

/-- Exactly the bytes from `address` to `address + width - 1` are replaced. -/
def store (m : Memory) (address width value : Nat) : Memory := fun i =>
  if address ≤ i ∧ i < address + width then BitVec.ofNat 8 (value / 256 ^ (i - address)) else m i

theorem load_congr (same : ∀ k, k < width → m (address + k) = m' (address' + k)) :
    load m address width = load m' address' width := by
  induction width generalizing address address' with
  | zero => rfl
  | succ width ih =>
    have first : m address = m' address' := same 0 (Nat.zero_lt_succ width)
    have rest : load m (address + 1) width = load m' (address' + 1) width := by
      apply ih
      intro k bound
      have next := same (k + 1) (Nat.succ_lt_succ bound)
      rwa [Nat.add_assoc,Nat.add_assoc,Nat.add_comm 1 k]
    simp only [load,first,rest]

theorem load_lt (m : Memory) (address width : Nat) : load m address width < 256 ^ width := by
  induction width generalizing address with
  | zero => simp [load]
  | succ width ih =>
    have byte := (m address).isLt
    have rest := ih (address + 1)
    rw [load,Nat.pow_succ]
    omega

/-- The two sides of an access that is moved to another address. -/
theorem store_congr (value : Nat) {i i' : Nat} (shift : address + i' = address' + i)
    (other : m i = m' i') : store m address width value i = store m' address' width value i' := by
  have inside : (address ≤ i ∧ i < address + width) ↔ (address' ≤ i' ∧ i' < address' + width) := by
    omega
  simp only [store,inside]
  split
  next within => rw [show i - address = i' - address' by omega]
  next => exact other

theorem store_outside (value : Nat) {i : Nat} (outside : ¬(address ≤ i ∧ i < address + width)) :
    store m address width value i = m i := if_neg outside

/-- An access sees nothing of a store to other bytes. -/
theorem load_store_apart (value : Nat) {width' : Nat}
    (apart : address' + width' ≤ address ∨ address + width ≤ address') :
    load (store m address width value) address' width' = load m address' width' := by
  apply load_congr
  intro k bound
  exact store_outside value (by omega)

/-- The value of a list of bytes, least significant first. -/
def ofBytes : List (BitVec 8) → Nat
  | [] => 0
  | byte :: rest => byte.toNat + 256 * ofBytes rest

/-- The low bytes of a value. -/
def toBytes (value : Nat) : Nat → List (BitVec 8)
  | 0 => []
  | width + 1 => BitVec.ofNat 8 value :: toBytes (value / 256) width

def bytesAt (m : Memory) (address : Nat) : Nat → List (BitVec 8)
  | 0 => []
  | width + 1 => m address :: bytesAt m (address + 1) width

/-- The bytes from an address on, replaced one after another. -/
def storeBytes (m : Memory) (address : Nat) : List (BitVec 8) → Memory
  | [] => m
  | byte :: rest => storeBytes (Function.update m address byte) (address + 1) rest

@[simp] theorem toBytes_length (value width : Nat) : (toBytes value width).length = width := by
  induction width generalizing value with
  | zero => rfl
  | succ width ih => simp [toBytes,ih]

@[simp] theorem bytesAt_length (m : Memory) (address width : Nat) :
    (bytesAt m address width).length = width := by
  induction width generalizing address with
  | zero => rfl
  | succ width ih => simp [bytesAt,ih]

theorem bytesAt_getElem? (m : Memory) (address width k : Nat) :
    (bytesAt m address width)[k]? = if k < width then some (m (address + k)) else none := by
  induction width generalizing address k with
  | zero => rfl
  | succ width ih =>
    cases k with
    | zero => rfl
    | succ k =>
      rw [bytesAt,List.getElem?_cons_succ,ih,Nat.add_assoc,Nat.add_comm 1 k]
      simp only [Nat.succ_lt_succ_iff]

theorem ofBytes_lt (bytes : List (BitVec 8)) : ofBytes bytes < 256 ^ bytes.length := by
  induction bytes with
  | nil => simp [ofBytes]
  | cons byte rest ih =>
    have bound := byte.isLt
    rw [ofBytes,List.length_cons,Nat.pow_succ]
    omega

theorem toBytes_ofBytes (bytes : List (BitVec 8)) : toBytes (ofBytes bytes) bytes.length = bytes := by
  induction bytes with
  | nil => rfl
  | cons byte rest ih =>
    have bound := byte.isLt
    have high : ofBytes (byte :: rest) / 256 = ofBytes rest := by
      rw [ofBytes]
      omega
    have low : BitVec.ofNat 8 (ofBytes (byte :: rest)) = byte := by
      apply BitVec.eq_of_toNat_eq
      rw [BitVec.toNat_ofNat,ofBytes]
      omega
    rw [List.length_cons,toBytes,high,low,ih]

/-- Only the low bytes count. -/
theorem toBytes_mod (value width : Nat) : toBytes (value % 256 ^ width) width = toBytes value width := by
  induction width generalizing value with
  | zero => rfl
  | succ width ih =>
    have whole : 256 ^ (width + 1) = 256 * 256 ^ width := by rw [Nat.pow_succ,Nat.mul_comm]
    have low : BitVec.ofNat 8 (value % 256 ^ (width + 1)) = BitVec.ofNat 8 value := by
      apply BitVec.eq_of_toNat_eq
      rw [BitVec.toNat_ofNat,BitVec.toNat_ofNat,whole]
      exact Nat.mod_mod_of_dvd value (Nat.dvd_mul_right 256 _)
    have high : value % 256 ^ (width + 1) / 256 = value / 256 % 256 ^ width := by
      rw [whole,Nat.mod_mul_right_div_self]
    rw [toBytes,toBytes,low,high,ih]

/-- Lists of one length are told apart by their value. -/
theorem ofBytes_inj {bytes bytes' : List (BitVec 8)} (length : bytes.length = bytes'.length)
    (same : ofBytes bytes = ofBytes bytes') : bytes = bytes' := by
  rw [← toBytes_ofBytes bytes,← toBytes_ofBytes bytes',same,length]

theorem load_eq_ofBytes (m : Memory) (address width : Nat) :
    load m address width = ofBytes (bytesAt m address width) := by
  induction width generalizing address with
  | zero => rfl
  | succ width ih => rw [load,ih,bytesAt,ofBytes]

theorem store_eq_storeBytes (m : Memory) (address width value : Nat) :
    store m address width value = storeBytes m address (toBytes value width) := by
  induction width generalizing m address value with
  | zero =>
    funext i
    exact store_outside value (by omega)
  | succ width ih =>
    rw [toBytes,storeBytes,← ih]
    funext i
    unfold store
    by_cases first : i = address
    · subst first
      rw [if_pos (by omega),if_neg (by omega),Function.update_self,Nat.sub_self,Nat.pow_zero,
        Nat.div_one]
    · rw [Function.update_of_ne first]
      by_cases inside : address + 1 ≤ i ∧ i < address + 1 + width
      · have split : i - address = i - (address + 1) + 1 := by omega
        rw [if_pos (by omega),if_pos inside,split,Nat.pow_succ,Nat.mul_comm,Nat.div_div_eq_div_mul]
      · rw [if_neg (by omega),if_neg inside]

/-- Bytes outside the block are untouched. -/
theorem storeBytes_outside {bytes : List (BitVec 8)} {i : Nat}
    (outside : ¬(address ≤ i ∧ i < address + bytes.length)) : storeBytes m address bytes i = m i := by
  induction bytes generalizing m address with
  | nil => rfl
  | cons byte rest ih =>
    rw [List.length_cons] at outside
    have apart : i ≠ address := by omega
    rw [storeBytes,ih (by omega),Function.update_of_ne apart]

/-- The first byte of a block is what was stored first. -/
theorem storeBytes_first (byte : BitVec 8) (rest : List (BitVec 8)) :
    storeBytes m address (byte :: rest) address = byte := by
  rw [storeBytes,storeBytes_outside (by omega),Function.update_self]

end FlatMemory
