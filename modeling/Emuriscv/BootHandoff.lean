import Emuriscv.CsrExchange
import Emuriscv.LinuxRun

/-! The five words that `write_bootloader` of `run_linux.c` puts into low RAM, and the steps that
execute them: the hand-off of the machine to the firmware. -/
namespace Emuriscv

open LabelledRun

/-- `phys_mem_get_ram_ptr`; NULL where no range covers the address. -/
def physMemGetRamPtr (map : MemoryMap) (paddr : Word) : Option HostPtr :=
  (getPhysMemRange map paddr).map fun range =>
    ⟨range.physMemPtr, (paddr - range.entry.address).toNat⟩

/-- `q[i] = value` for a `word*`, on a little-endian host. -/
def storeWord (s : State) (q : HostPtr) (i : Nat) (value : Word) : Except Stop State := do
  let s ← s.store q (4 * i) (byteOf value 0)
  let s ← s.store q (4 * i + 1) (byteOf value 1)
  let s ← s.store q (4 * i + 2) (byteOf value 2)
  s.store q (4 * i + 3) (byteOf value 3)

def writeBootloader (s : State) (ramPtr : HostPtr) (fdtAddr : Word) : Except Stop State := do
  let q : HostPtr := { ramPtr with offset := ramPtr.offset + bootloaderAddress.toNat }
  let s ← storeWord s q 0 (0x297 + ramBaseAddr - 0x1000)
  let s ← storeWord s q 1 0x597
  let s ← storeWord s q 2 ((0x58593 : Word) + (fdtAddr - 4) <<< 20)
  let s ← storeWord s q 3 0xf1402573
  storeWord s q 4 0x00028067

theorem storeWord_eq {s : State} {buffer offset : Nat} (i : Nat) (value : Word)
    (inside : offset + 4 * i + 3 < s.bufferSize buffer) :
    storeWord s ⟨some buffer,offset⟩ i value = .ok (putWord s ⟨buffer, offset + 4 * i⟩ value) := by
  have stored (t : State) (k : Nat) (b : Byte) (near : k ≤ 4 * i + 3)
      (same : t.bufferSize buffer = s.bufferSize buffer) :
      t.store ⟨some buffer,offset⟩ k b = .ok (putByte t buffer (offset + k) b) :=
    store_eq t buffer offset k b (by omega)
  rw [storeWord,stored s _ _ (by omega) rfl,ok_bind,stored _ _ _ (by omega) (by simp),ok_bind,
    stored _ _ _ (by omega) (by simp),ok_bind,stored _ _ _ (by omega) (by simp)]
  refine congrArg Except.ok ?_
  rw [putWord_eq]
  refine congrArg (fun ram => { s with ram := ram }) ?_
  funext j k
  rw [putWord_ram]
  change (putByte _ _ _ _).ram j k = _
  simp only [putByte_ram]
  by_cases same : j = buffer
  · by_cases within : offset + 4 * i ≤ k ∧ k < offset + 4 * i + 4
    · obtain ⟨d,rfl⟩ := Nat.exists_eq_add_of_le within.1
      have bound : d < 4 := by omega
      simp only [same,within,true_and,and_self,if_true,Nat.add_sub_cancel_left]
      interval_cases d <;> simp [Nat.add_assoc]
    · rw [if_neg (by omega),if_neg (by omega),if_neg (by omega),if_neg (by omega),
        if_neg fun both => within both.2]
  · simp [same]

/-- The words stand one after the other from `p` on. -/
def CodeAt (s : State) (p : WordPtr) (words : List Word) : Prop :=
  ∀ i (bound : i < words.length), deref s ⟨p.buffer, p.offset + 4 * i⟩ = words[i]

theorem CodeAt.congr {s t : State} (code : CodeAt s p words) (ram : t.ram = s.ram) :
    CodeAt t p words := by
  intro i bound
  rw [deref_congr ram]
  exact code i bound

theorem CodeAt.snoc {s : State} (code : CodeAt s p words) (value : Word) :
    CodeAt (putWord s ⟨p.buffer, p.offset + 4 * words.length⟩ value) p (words ++ [value]) := by
  intro i bound
  rw [List.length_append,List.length_singleton] at bound
  by_cases last : i = words.length
  · subst last
    rw [deref_putWord,List.getElem_concat_length rfl]
  · have before : i < words.length := by omega
    rw [deref_putWord_other _ _ _ _ fun _ => Or.inl (by simp only; omega),code i before,
      List.getElem_append_left before]

/-- `addi a1, a1, v`, with the address as `write_bootloader` puts it in. -/
def addiWord (v : Word) : Word := (0x58593 : Word) + v <<< 20

/-- The words that `write_bootloader` stores. -/
def bootloaderWords (fdtAddr : Word) : List Word :=
  [0x297 + ramBaseAddr - 0x1000, 0x597, addiWord (fdtAddr - 4), 0xf1402573, 0x00028067]

/-- Where they stand: low RAM is the second range of the map. -/
def bootloaderPtr : WordPtr := ⟨1, 0x1000⟩

theorem writeBootloader_stores {s : State} (map : s.memoryMap = linuxMemoryMap) (fdtAddr : Word) :
    ∃ t, writeBootloader s ⟨some 1,0⟩ fdtAddr = .ok t ∧ t = { s with ram := t.ram } ∧
      CodeAt t bootloaderPtr (bootloaderWords fdtAddr) ∧ ∀ i, i ≠ 1 → t.ram i = s.ram i := by
  have size : s.bufferSize 1 = 0x10000 := by
    rw [State.bufferSize,map]
    rfl
  have stored (t : State) (same : t.memoryMap = s.memoryMap) (i : Nat) (low : i < 5) (value : Word) :
      storeWord t ⟨some 1, 0 + bootloaderAddress.toNat⟩ i value =
        .ok (putWord t ⟨1, 0x1000 + 4 * i⟩ value) := by
    have start : 0 + bootloaderAddress.toNat = 0x1000 := rfl
    rw [start]
    refine storeWord_eq i value ?_
    rw [State.bufferSize,same,← State.bufferSize,size]
    omega
  have empty : CodeAt s bootloaderPtr [] := fun i bound => absurd bound (Nat.not_lt_zero i)
  rw [writeBootloader]
  dsimp only
  rw [stored s rfl 0 (by decide),ok_bind,stored _ (by simp) 1 (by decide),ok_bind,
    stored _ (by simp) 2 (by decide),ok_bind,stored _ (by simp) 3 (by decide),ok_bind,
    stored _ (by simp) 4 (by decide)]
  refine ⟨_, rfl, ?_, ((((empty.snoc _).snoc _).snoc _).snoc _).snoc _, ?_⟩
  · cases s
    rfl
  · intro i other
    funext j
    simp [putWord_ram,other]

section Address

variable (v : Word)

/-- The sum of the third word has no carries: the shifted address only meets zeros. -/
theorem addiWord_eq : addiWord v = (0x58593 : Word) ||| v <<< 20 := by
  apply add_eq_or 20
  · intro i high
    by_cases bound : i < 32
    · interval_cases i <;> rfl
    · exact BitVec.getLsbD_of_ge _ _ (Nat.le_of_not_lt bound)
  · intro i low
    simp [low]

theorem addiWord_bit (i : Nat) (bound : i < 32) :
    (addiWord v).getLsbD i =
      if i < 20 then (0x58593 : Word).getLsbD i else v.getLsbD (i - 20) := by
  rw [addiWord_eq,BitVec.getLsbD_or]
  by_cases low : i < 20
  · simp [low]
  · have zero : (0x58593 : Word).getLsbD i = false := by
      interval_cases i <;> rfl
    rw [zero,if_neg low]
    simp [low,bound,BitVec.getLsbD_eq_getElem (show i - 20 < 32 by omega)]

theorem decode_addiWord : decode (addiWord v) = some .addi := by
  have decoded : decode 0x58593 = some .addi := by decide
  refine (decode_same_iff decoded).mpr fun i tested => ?_
  have mask : Op.addi.entry.mask = 0x707f := by decide
  rw [mask] at tested
  have low : i < 20 := by
    by_contra high
    have above : (0x707f : Word).toNat < 2 ^ i :=
      Nat.lt_of_lt_of_le (by decide) (Nat.pow_le_pow_right (by decide) (Nat.le_of_not_lt high))
    exact absurd tested (by simpa [BitVec.getLsbD] using Nat.testBit_lt_two_pow above)
  rw [addiWord_bit v i (by omega),if_pos low]

/-- The address leaves the registers of the instruction alone. -/
theorem register_addiWord (lo : Nat) (fits : lo + 5 ≤ 20) :
    (addiWord v).extractLsb' lo 5 = (0x58593 : Word).extractLsb' lo 5 := by
  refine BitField.extract_eq_iff.mpr fun i _ below => ?_
  rw [addiWord_bit v i (by omega),if_pos (by omega)]

theorem iImm_addiWord : Rv32i.iImm (addiWord v) = (v.setWidth 12).signExtend 32 := by
  refine congrArg (BitVec.signExtend 32) ?_
  apply BitVec.eq_of_getLsbD_eq
  intro i bound
  rw [BitVec.getLsbD_extractLsb',addiWord_bit v _ (by omega),if_neg (by omega)]
  simp [bound]

end Address

/-- The sign extension of the twelve bits makes up for their wrap, on either side of it. -/
theorem bootAddress_eq (fdtAddr : Word) (low : 0x804 ≤ fdtAddr) (high : fdtAddr ≤ 0x1803) :
    0x1004 + ((fdtAddr - 4).setWidth 12).signExtend 32 = fdtAddr := by
  have below : 4 ≤ fdtAddr := BitVec.le_trans (by decide) low
  have offset : (fdtAddr - 4).toNat = fdtAddr.toNat - 4 := BitVec.toNat_sub_of_le below
  have first : 0x804 ≤ fdtAddr.toNat := low
  have last : fdtAddr.toNat ≤ 0x1803 := high
  apply BitVec.eq_of_toInt_eq
  have start : (0x1004 : Word).toInt = 0x1004 := rfl
  rw [BitVec.toInt_add,BitVec.toInt_signExtend_of_le (by decide),BitVec.toInt_setWidth,offset,start,
    BitVec.toInt_eq_toNat_cond]
  simp only [Int.bmod_def]
  omega

/-- A step that only moves registers and `pc` follows another. -/
theorem Retires.trans {s t u : State} {x y : RegisterIndex → Word} {pc pc' : Word}
    (first : Retires s t x pc) (second : Retires t u y pc') : Retires s u y pc' := by
  refine ⟨second.registers, second.pc, ?_, ?_⟩
  · intro number time cycle
    exact (second.csr number time cycle).trans (first.csr number time cycle)
  · rw [second.rest,first.rest]

/-- In front of word `i` of the boot loader, in M mode with nothing pending. -/
structure Booting (s : State) (fdtAddr : Word) (i : Nat) : Prop where
  machine : s.privilege = privM
  noException : s.hasPendingException = false
  map : s.memoryMap = linuxMemoryMap
  pc : s.pc = bootloaderAddress + BitVec.ofNat 32 (4 * i)
  code : CodeAt s bootloaderPtr (bootloaderWords fdtAddr)

theorem Booting.next (booting : Booting s fdtAddr i)
    (done : Retires s t x (bootloaderAddress + BitVec.ofNat 32 (4 * (i + 1)))) :
    Booting t fdtAddr (i + 1) := by
  refine ⟨?_, ?_, ?_, done.pc, booting.code.congr ?_⟩
  · rw [done.rest]
    exact booting.machine
  · rw [done.rest]
    exact booting.noException
  · rw [done.rest]
    exact booting.map
  · rw [done.rest]

section Step

variable [Platform] {s : State} {fdtAddr : Word} {i : Nat} {x : RegisterIndex → Word} {pc : Word}

/-- The step executes the word, for which its handler's effect is enough. -/
theorem Booting.step (booting : Booting s fdtAddr i) (here : (bootloaderWords fdtAddr)[i]? = some word)
    (decoded : decode word = some op)
    (ran : ∀ p, deref s p = word →
      execute op { s with pc := s.pc + 4 } p = .ok { s with x := x, pc := pc }) :
    ∃ t, emulateOp s = .ok t ∧ Retires s t x pc := by
  obtain ⟨bound,same⟩ := List.getElem?_eq_some_iff.mp here
  have held := (booting.code i bound).trans same
  have direct : ¬Walks s := fun walks => walks.1 booting.machine
  have located : wordLocation s.memoryMap s.pc =
      some ⟨bootloaderPtr.buffer, bootloaderPtr.offset + 4 * i⟩ := by
    rw [booting.map,booting.pc]
    have short : i < 5 := bound
    interval_cases i <;> decide
  rw [← held] at decoded
  have fetched := fetches_direct direct located decoded
  exact ⟨_, emulateOp_executed fetched (ran _ held), finishOp_retires booting.noException x pc⟩

theorem booting_transfer (booting : Booting s fdtAddr i)
    (here : (bootloaderWords fdtAddr)[i]? = some word) (decoded : decode word = some op)
    (transfers : op.transfer = some transfer) :
    ∃ t, emulateOp s = .ok t ∧
      Retires s t (transfer.registers s.x s.pc word) (transfer.target s.x s.pc word) := by
  refine booting.step here decoded fun p held => ?_
  have moved : s.pc + 4 - 4 = s.pc := BitVec.add_sub_cancel ..
  have read : deref { s with pc := s.pc + 4 } p = word := held
  rw [execute_transfer _ p transfers,read]
  dsimp only
  rw [moved]

/-- `auipc t0, jump_addr`. -/
theorem booting_jumpAddr (booting : Booting s fdtAddr 0) :
    ∃ t, emulateOp s = .ok t ∧ Retires s t (Rv32i.write s.x 5 ramBaseAddr) 0x1004 := by
  have decoded : decode (0x297 + ramBaseAddr - 0x1000) = some .auipc := by decide
  obtain ⟨t,stepped,done⟩ := booting_transfer booting rfl decoded rfl
  have pc : s.pc = 0x1000 := booting.pc
  rw [pc] at done
  exact ⟨t,stepped,done⟩

/-- `auipc a1, dtb`. -/
theorem booting_upper (booting : Booting s fdtAddr 1) :
    ∃ t, emulateOp s = .ok t ∧ Retires s t (Rv32i.write s.x 11 0x1004) 0x1008 := by
  have decoded : decode 0x597 = some .auipc := by decide
  obtain ⟨t,stepped,done⟩ := booting_transfer booting rfl decoded rfl
  have pc : s.pc = 0x1004 := booting.pc
  rw [pc] at done
  exact ⟨t,stepped,done⟩

/-- `addi a1, a1, dtb`. -/
theorem booting_lower (booting : Booting s fdtAddr 2) (base : s.x 11 = 0x1004)
    (low : 0x804 ≤ fdtAddr) (high : fdtAddr ≤ 0x1803) :
    ∃ t, emulateOp s = .ok t ∧ Retires s t (Rv32i.write s.x 11 fdtAddr) 0x100c := by
  have pc : s.pc = 0x1008 := booting.pc
  refine booting.step rfl (decode_addiWord _) fun p held => ?_
  have read : deref { s with pc := s.pc + 4 } p = addiWord (fdtAddr - 4) := held
  have rd : Rv32i.rd (addiWord (fdtAddr - 4)) = 11 := register_addiWord _ 7 (by decide)
  have rs1 : Rv32i.rs1 (addiWord (fdtAddr - 4)) = 11 := register_addiWord _ 15 (by decide)
  have sum : (Rv32i.Computation.immediate .add).result s.x (addiWord (fdtAddr - 4)) = fdtAddr := by
    rw [Rv32i.Computation.result,Rv32i.Arith.eval,rs1,base,iImm_addiWord]
    exact bootAddress_eq fdtAddr low high
  rw [execute_computation _ p rfl,read,setRdValue_eq,getRd_eq,read,rd,writeX_eq,pc]
  dsimp only
  rw [sum]
  rfl

/-- `csrr a0, mhartid`. -/
theorem booting_hartid (booting : Booting s fdtAddr 3) (zero : s.x 0 = 0) :
    ∃ t, emulateOp s = .ok t ∧ Retires s t (Rv32i.write s.x 10 (readCsr s csrMhartid)) 0x1010 := by
  have pc : s.pc = 0x100c := booting.pc
  have decoded : decode 0xf1402573 = some .csrrs := by decide
  refine booting.step rfl decoded fun p held => ?_
  have read : deref { s with pc := s.pc + 4 } p = 0xf1402573 := held
  have number : csrNumber { s with pc := s.pc + 4 } p = csrMhartid := by
    rw [csrNumber,read]
    decide
  -- the source register is `x0`, so the CSR is written with its own value
  have written : csrWritten .csrrs { s with pc := s.pc + 4 } p = readCsr s csrMhartid := by
    have apart : ¬(Rv32i.rd 0xf1402573 = Rv32i.rs1 0xf1402573 ∧ Rv32i.rd 0xf1402573 ≠ 0) := by decide
    have source : Rv32i.rs1 0xf1402573 = 0 := by decide
    rw [csrWritten,csrOperand_aliased _ _ _ (Or.inl rfl),read,if_neg apart,number,source]
    dsimp only
    rw [zero]
    exact BitVec.or_zero
  have same : Function.update s.csr csrMhartid (readCsr s csrMhartid) = s.csr :=
    Function.update_eq_self ..
  rw [execute_csr _ p rfl,csrHandler_eq,number,written,read,writeX_eq,getRd_eq,pc]
  dsimp only
  rw [same]
  rfl

/-- `jalr zero, t0, jump_addr`. -/
theorem booting_jump (booting : Booting s fdtAddr 4) (target : s.x 5 = ramBaseAddr) :
    ∃ t, emulateOp s = .ok t ∧ Retires s t s.x ramBaseAddr := by
  have decoded : decode 0x00028067 = some .jalr := by decide
  refine booting.step rfl decoded fun p held => congrArg Except.ok ?_
  have read : deref { s with pc := s.pc + 4 } p = 0x00028067 := held
  have rd : getRd 0x00028067 = 0 := by decide
  have rs1 : getRs1 0x00028067 = 5 := by decide
  have offset : getIImm 0x00028067 = 0 := by decide
  rw [Handler.jalr,getRs1Value,setRdValue,setReg,getReg,read,rd,rs1,offset,if_pos rfl]
  dsimp only
  rw [target]
  rfl

/-- The five steps in a row. -/
theorem booting_run (booting : Booting s fdtAddr 0) (zero : s.x 0 = 0) (low : 0x804 ≤ fdtAddr)
    (high : fdtAddr ≤ 0x1803) :
    ∃ steps, MachineRun s steps ∧ steps.length = 5 ∧ Retires s (final s steps)
      (Rv32i.write (Rv32i.write (Rv32i.write s.x 5 ramBaseAddr) 11 fdtAddr) 10
        (readCsr s csrMhartid)) ramBaseAddr := by
  obtain ⟨s1,step1,done1⟩ := booting_jumpAddr booting
  have booting1 := booting.next done1
  obtain ⟨s2,step2,done2⟩ := booting_upper booting1
  have booting2 := booting1.next done2
  obtain ⟨s3,step3,done3⟩ := booting_lower booting2 (by rw [done2.registers]; rfl) low high
  have booting3 := booting2.next done3
  obtain ⟨s4,step4,done4⟩ := booting_hartid booting3 (by
    rw [done3.registers,done2.registers,done1.registers]
    exact zero)
  have booting4 := booting3.next done4
  obtain ⟨s5,step5,done5⟩ := booting_jump booting4 (by
    rw [done4.registers,done3.registers,done2.registers,done1.registers]
    rfl)
  have whole := ((((done1.trans done2).trans done3).trans done4).trans done5)
  refine ⟨[((),s1),((),s2),((),s3),((),s4),((),s5)],
    .cons step1 (.cons step2 (.cons step3 (.cons step4 (.cons step5 .nil)))), rfl, ?_⟩
  have hartid : readCsr s3 csrMhartid = readCsr s csrMhartid :=
    ((done1.trans done2).trans done3).csr csrMhartid (by decide) (by decide)
  rw [done4.registers,done3.registers,done2.registers,done1.registers,hartid,Rv32i.write_write] at whole
  exact whole

/-- The hand-off: wherever the device tree is in reach, the words that `write_bootloader` stores
take five steps to the firmware, with the hart's number and the address in `a0` and `a1`. -/
theorem writeBootloader_handsOff (map : s.memoryMap = linuxMemoryMap)
    (ram : physMemGetRamPtr s.memoryMap 0 = some ramPtr) (machine : s.privilege = privM)
    (noException : s.hasPendingException = false) (pc : s.pc = bootloaderAddress) (zero : s.x 0 = 0)
    (low : 0x804 ≤ fdtAddr) (high : fdtAddr ≤ 0x1803) :
    ∃ t steps, writeBootloader s ramPtr fdtAddr = .ok t ∧ MachineRun t steps ∧ steps.length = 5 ∧
      Retires t (final t steps) (Rv32i.write (Rv32i.write (Rv32i.write s.x 5 ramBaseAddr) 11 fdtAddr)
        10 (readCsr s csrMhartid)) ramBaseAddr := by
  rw [map] at ram
  obtain rfl := Option.some.inj ram
  obtain ⟨t,stored,only,code,_⟩ := writeBootloader_stores map fdtAddr
  have booting : Booting t fdtAddr 0 := by
    rw [only]
    exact ⟨machine, noException, map, pc, code.congr rfl⟩
  have x : t.x = s.x := by rw [only]
  have hartid : readCsr t csrMhartid = readCsr s csrMhartid := by
    rw [only]
    rfl
  obtain ⟨steps,run,five,done⟩ := booting_run booting (by rw [x,zero]) low high
  rw [x,hartid] at done
  exact ⟨t, steps, stored, run, five, done⟩

end Step

/-- The machine that `run_linux` starts, with the device tree where `load_bios_and_kernel` puts it. -/
def handoffMachine : State :=
  { initializeStateLinux linuxMemoryMap (fun _ _ => 0) ⟨0,0,0,0⟩ ⟨fun _ => 0, 0, []⟩ with
    pc := bootloaderAddress }

theorem writeBootloader_handsOff_handoffMachine :
    ∃ t steps, writeBootloader handoffMachine ⟨some 1,0⟩ 0x1040 = .ok t ∧
      @MachineRun clearingPlatform t steps ∧ steps.length = 5 ∧
      Retires t (final t steps) (Rv32i.write (Rv32i.write (Rv32i.write handoffMachine.x 5 ramBaseAddr)
        11 0x1040) 10 (readCsr handoffMachine csrMhartid)) ramBaseAddr :=
  @writeBootloader_handsOff clearingPlatform handoffMachine 0x1040 ⟨some 1,0⟩ rfl (by decide) rfl rfl
    rfl rfl (by decide) (by decide)

end Emuriscv
