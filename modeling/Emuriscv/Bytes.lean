import Emuriscv.Memory
import Mathlib.Tactic.IntervalCases

/-! Guest RAM as bytes and little-endian words. The sized accesses of `memory.c` read and
replace exactly the bytes of the word they name, provided all of them are in the buffer. -/
namespace Emuriscv

theorem load_eq (s : State) (buffer offset k : Nat) (inside : offset + k < s.bufferSize buffer) :
    s.load ⟨some buffer,offset⟩ k = .ok (s.ram buffer (offset + k)) := by
  simp only [State.load,if_pos inside]
  rfl

/-- One byte of guest RAM replaced. -/
def putByte (s : State) (buffer offset : Nat) (value : Byte) : State :=
  { s with ram := Function.update s.ram buffer (Function.update (s.ram buffer) offset value) }

@[simp] theorem putByte_bufferSize (s : State) (buffer offset : Nat) (value : Byte) (i : Nat) :
    (putByte s buffer offset value).bufferSize i = s.bufferSize i := rfl

theorem putByte_ram (s : State) (buffer offset : Nat) (value : Byte) (i j : Nat) :
    (putByte s buffer offset value).ram i j =
      if i = buffer ∧ j = offset then value else s.ram i j := by
  by_cases same : i = buffer
  · subst same
    by_cases at' : j = offset <;> simp [putByte,at']
  · simp [putByte,same]

theorem store_eq (s : State) (buffer offset k : Nat) (value : Byte)
    (inside : offset + k < s.bufferSize buffer) :
    s.store ⟨some buffer,offset⟩ k value = .ok (putByte s buffer (offset + k) value) := by
  simp only [State.store,if_pos inside]
  rfl

/-- `*p = value`, upper bytes first. -/
def putWord (s : State) (p : WordPtr) (value : Word) : State :=
  let s := putByte s p.buffer (p.offset + 3) (((value &&& 0xff000000) >>> 24).setWidth 8)
  let s := putByte s p.buffer (p.offset + 2) (((value &&& 0xff0000) >>> 16).setWidth 8)
  let s := putByte s p.buffer (p.offset + 1) (((value &&& 0xff00) >>> 8).setWidth 8)
  putByte s p.buffer (p.offset + 0) ((value &&& 0xff).setWidth 8)

@[simp] theorem putWord_memoryMap (s : State) (p : WordPtr) (value : Word) :
    (putWord s p value).memoryMap = s.memoryMap := by
  cases s
  rfl

@[simp] theorem putWord_csr (s : State) (p : WordPtr) (value : Word) :
    (putWord s p value).csr = s.csr := by
  cases s
  rfl

@[simp] theorem putWord_privilege (s : State) (p : WordPtr) (value : Word) :
    (putWord s p value).privilege = s.privilege := by
  cases s
  rfl

/-- Only `ram` is stored to. -/
theorem putWord_eq (s : State) (p : WordPtr) (value : Word) :
    putWord s p value = { s with ram := (putWord s p value).ram } := by
  cases s
  rfl

theorem readCommonRam_word (s : State) (p : WordPtr)
    (inside : p.offset + 3 < s.bufferSize p.buffer) :
    readCommonRam s ⟨some p.buffer,p.offset⟩ 2 = .ok (deref s p) := by
  have b0 := load_eq s p.buffer p.offset 0 (by omega)
  have b1 := load_eq s p.buffer p.offset 1 (by omega)
  have b2 := load_eq s p.buffer p.offset 2 (by omega)
  have b3 := load_eq s p.buffer p.offset 3 inside
  simp only [readCommonRam,b0,b1,b2,b3]
  rfl

theorem readCommonRam_outside (s : State) (buffer offset : Nat)
    (outside : ¬offset + 3 < s.bufferSize buffer) :
    readCommonRam s ⟨some buffer,offset⟩ 2 = .error .outOfBounds := by
  have cases (k : Nat) : (∃ b, s.load ⟨some buffer,offset⟩ k = .ok b) ∨
      s.load ⟨some buffer,offset⟩ k = .error .outOfBounds := by
    simp only [State.load]
    split <;> simp
  have last : s.load ⟨some buffer,offset⟩ 3 = .error .outOfBounds := by
    simp [State.load,outside]
  rcases cases 0 with ⟨b0,h0⟩ | h0 <;> rcases cases 1 with ⟨b1,h1⟩ | h1 <;>
    rcases cases 2 with ⟨b2,h2⟩ | h2 <;> simp [readCommonRam,h0,h1,h2,last]

theorem writeCommonRam_word (s : State) (p : WordPtr) (value : Word)
    (inside : p.offset + 3 < s.bufferSize p.buffer) :
    writeCommonRam s ⟨some p.buffer,p.offset⟩ value 2 = .ok (putWord s p value) := by
  have step (s' : State) (k : Nat) (b : Byte) (bound : k ≤ 3)
      (same : s'.bufferSize p.buffer = s.bufferSize p.buffer) :
      s'.store ⟨some p.buffer,p.offset⟩ k b = .ok (putByte s' p.buffer (p.offset + k) b) :=
    store_eq s' p.buffer p.offset k b (by omega)
  simp only [writeCommonRam]
  rw [step s 3 _ (by omega) rfl,ok_bind,step _ 2 _ (by omega) (by simp),ok_bind,
    step _ 1 _ (by omega) (by simp),ok_bind,step _ 0 _ (by omega) (by simp)]
  rfl

/-- The byte of a word that is stored at distance `k` from its address. -/
def byteOf (value : Word) (k : Nat) : Byte := (value >>> (8 * k)).setWidth 8

/-- A hart for concrete runs. The words fill the only RAM range from its start, where
`satp` also puts the root page table. -/
def guest (privilege : Word) (words : List Word) : State where
  pc := 0
  x := fun _ => 0
  csr := fun n => if n = csrSatp then 0x80080000 else 0
  mhartid := 0
  status := .running
  memoryMap := [⟨0x80000000, 0x10000, true, none, none⟩]
  instructionCounter := 0
  pendingTval := 0
  pendingException := 0
  hasPendingException := false
  privilege := privilege
  loadReservation := 0
  pcHistory := fun _ => 0
  ram := fun _ offset => byteOf (words.getD (offset / 4) 0) (offset % 4)
  vm := ⟨0,0,0,0⟩
  uart := ⟨fun _ => 0, 0, []⟩
  console := []
  traps := []

/-- `reset_mip` as its name has it. -/
abbrev clearingPlatform : Platform := ⟨fun mask mip => mip &&& ~~~mask⟩

theorem byteOf_masks (value : Word) :
    ((value &&& 0xff000000) >>> 24).setWidth 8 = byteOf value 3 ∧
    ((value &&& 0xff0000) >>> 16).setWidth 8 = byteOf value 2 ∧
    ((value &&& 0xff00) >>> 8).setWidth 8 = byteOf value 1 ∧
    (value &&& 0xff).setWidth 8 = byteOf value 0 := by
  refine ⟨?_,?_,?_,?_⟩
  all_goals
    apply BitVec.eq_of_getLsbD_eq
    intro i bound
    interval_cases i <;> simp [byteOf]

theorem putWord_ram (s : State) (p : WordPtr) (value : Word) (i j : Nat) :
    (putWord s p value).ram i j =
      if i = p.buffer ∧ p.offset ≤ j ∧ j < p.offset + 4 then byteOf value (j - p.offset)
      else s.ram i j := by
  obtain ⟨b3,b2,b1,b0⟩ := byteOf_masks value
  simp only [putWord,b3,b2,b1,b0,putByte_ram]
  by_cases same : i = p.buffer
  · by_cases inside : p.offset ≤ j ∧ j < p.offset + 4
    · obtain ⟨k,rfl⟩ := Nat.exists_eq_add_of_le inside.1
      have bound : k < 4 := by omega
      simp only [same,inside,true_and,and_self,if_true,Nat.add_sub_cancel_left,
        Nat.add_left_cancel_iff]
      interval_cases k <;> simp
    · have apart (k : Nat) (bound : k < 4) : j ≠ p.offset + k := by omega
      simp [inside,apart 1,apart 2,apart 3,show j ≠ p.offset from apart 0 (by omega)]
  · simp [same]

theorem byteOf_deref (s : State) (p : WordPtr) (k : Nat) (bound : k < 4) :
    byteOf (deref s p) k = s.ram p.buffer (p.offset + k) := by
  apply BitVec.eq_of_getLsbD_eq
  intro i low
  interval_cases k <;> interval_cases i <;> simp [byteOf,deref,wordAt]

theorem deref_bit (s : State) (p : WordPtr) (i : Nat) (bound : i < 32) :
    (deref s p).getLsbD i = (s.ram p.buffer (p.offset + i / 8)).getLsbD (i % 8) := by
  rw [← byteOf_deref s p (i / 8) (by omega),byteOf,BitVec.getLsbD_setWidth,BitVec.getLsbD_ushiftRight]
  rw [show 8 * (i / 8) + i % 8 = i by omega]
  simp [show i % 8 < 8 by omega]

/-- Words with the same bytes are equal. -/
theorem word_ext {a b : Word} (h : ∀ k < 4, byteOf a k = byteOf b k) : a = b := by
  apply BitVec.eq_of_getLsbD_eq
  intro i bound
  have bytes := congrArg (BitVec.getLsbD · (i % 8)) (h (i / 8) (by omega))
  simp only [byteOf,BitVec.getLsbD_setWidth,BitVec.getLsbD_ushiftRight,
    show i % 8 < 8 by omega,decide_true,Bool.true_and,show 8 * (i / 8) + i % 8 = i by omega] at bytes
  exact bytes

@[simp] theorem deref_putWord (s : State) (p : WordPtr) (value : Word) :
    deref (putWord s p value) p = value := by
  apply word_ext
  intro k bound
  rw [byteOf_deref _ _ _ bound,putWord_ram,if_pos (by omega),Nat.add_sub_cancel_left]

/-- Words in different buffers, or four bytes apart, do not overlap. -/
theorem deref_putWord_other (s : State) (p q : WordPtr) (value : Word)
    (apart : q.buffer = p.buffer → q.offset + 4 ≤ p.offset ∨ p.offset + 4 ≤ q.offset) :
    deref (putWord s p value) q = deref s q := by
  apply word_ext
  intro k bound
  rw [byteOf_deref _ _ _ bound,byteOf_deref _ _ _ bound,putWord_ram,if_neg]
  rintro ⟨same,low,high⟩
  have := apart same
  omega

/-- Storing the word that is there changes nothing. -/
theorem putWord_deref (s : State) (p : WordPtr) : putWord s p (deref s p) = s := by
  have ram : (putWord s p (deref s p)).ram = s.ram := by
    funext i j
    rw [putWord_ram]
    split
    next inside =>
      rw [byteOf_deref _ _ _ (by omega),inside.1,show p.offset + (j - p.offset) = j by omega]
    next outside => rfl
  calc putWord s p (deref s p) = { s with ram := (putWord s p (deref s p)).ram } := putWord_eq ..
    _ = s := by rw [ram]

/-- The last of two stores to one word counts. -/
theorem putWord_putWord (s : State) (p : WordPtr) (first second : Word) :
    putWord (putWord s p first) p second = putWord s p second := by
  have ram : (putWord (putWord s p first) p second).ram = (putWord s p second).ram := by
    funext i j
    simp only [putWord_ram]
    split <;> rfl
  calc putWord (putWord s p first) p second =
        { putWord s p first with ram := (putWord (putWord s p first) p second).ram } := putWord_eq ..
    _ = { s with ram := (putWord s p second).ram } := by rw [ram,putWord_eq s p first]
    _ = putWord s p second := (putWord_eq ..).symm

end Emuriscv
