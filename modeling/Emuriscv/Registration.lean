import Emuriscv.LinuxRun
import Mathlib.Data.List.Induction

/-! Registration of memory ranges, as `memory_map.c` does it: a table of fixed length and the
number of its entries in use. The lists that stand for memory maps elsewhere are the entries in
use of such a table. -/
namespace Emuriscv

def physMemRangeMax : Nat := 32
def exitCannotAllocateVmMemory : Nat := 0x14

/-- An element of `phys_mem_range`, with its `phys_mem_ptr`; a buffer has the number of the
element that it was allocated for. -/
structure RangeSlot extends MemoryRange where
  physMemPtr : Option Nat
  deriving DecidableEq, Repr

/-- `struct MemoryMap`. -/
structure MapTable where
  nPhysMemRange : Nat
  physMemRange : Fin physMemRangeMax → RangeSlot

def blankSlot : RangeSlot := ⟨⟨0,0,false,none,none⟩,none⟩

/-- The table that `mallocz` returns. -/
def physMemMapInit : MapTable := ⟨0, fun _ => blankSlot⟩

/-- Stores to fields of an element. -/
def MapTable.modify (map : MapTable) (pr : Fin physMemRangeMax) (f : RangeSlot → RangeSlot) :
    MapTable :=
  { map with physMemRange := Function.update map.physMemRange pr (f (map.physMemRange pr)) }

/-- `&map->phys_mem_range[map->n_phys_mem_range++]`, about to be stored to. -/
def MapTable.next (map : MapTable) : Except Stop (Fin physMemRangeMax × MapTable) :=
  if inside : map.nPhysMemRange < physMemRangeMax then
    pure (⟨map.nPhysMemRange,inside⟩, { map with nPhysMemRange := map.nPhysMemRange + 1 })
  else throw .outOfBounds

def cpuRegisterDevice (s : MapTable) (addr size : Quadword) (readFunc : Option DeviceReadFunc)
    (writeFunc : Option DeviceWriteFunc) : Except Stop (Fin physMemRangeMax × MapTable) := do
  let (pr, s) ← s.next
  pure (pr, s.modify pr fun slot => { slot with
    address := addr.setWidth 32
    size := size.setWidth 32
    isRam := false
    readFunc := readFunc
    writeFunc := writeFunc })

def registerRamEntry (map : MapTable) (baseAddr size : Word) :
    Except Stop (Fin physMemRangeMax × MapTable) := do
  if map.nPhysMemRange + 1 > physMemRangeMax then throw (.exit exitTooManyMemoryRanges)
  else
    let (pr, map) ← map.next
    pure (pr, map.modify pr fun slot => { slot with
      size := size
      address := baseAddr
      isRam := true })

/-- `allocated` says whether `mallocz` found the memory. -/
def cpuRegisterRam (map : MapTable) (baseAddr size : Word) (allocated : Bool) :
    Except Stop (Fin physMemRangeMax × MapTable) := do
  let (range, map) ← registerRamEntry map baseAddr size
  if allocated then
    pure (range, map.modify range fun slot => { slot with physMemPtr := some range })
  else throw (.exit exitCannotAllocateVmMemory)

inductive RegisterCall where
  | ram (baseAddr size : Word) (allocated : Bool)
  | device (addr size : Quadword) (readFunc : Option DeviceReadFunc)
      (writeFunc : Option DeviceWriteFunc)
  deriving DecidableEq, Repr

def RegisterCall.baseArgument : RegisterCall → Nat
  | ram baseAddr _ _ => baseAddr.toNat
  | device addr _ _ _ => addr.toNat

def RegisterCall.sizeArgument : RegisterCall → Nat
  | ram _ size _ => size.toNat
  | device _ size _ _ => size.toNat

def RegisterCall.perform (map : MapTable) : RegisterCall → Except Stop MapTable
  | ram baseAddr size allocated => do
    let (_, map) ← cpuRegisterRam map baseAddr size allocated
    pure map
  | device addr size readFunc writeFunc => do
    let (_, map) ← cpuRegisterDevice map addr size readFunc writeFunc
    pure map

def registerAll (map : MapTable) (calls : List RegisterCall) : Except Stop MapTable :=
  calls.foldlM RegisterCall.perform map

/-- What a call leaves in its element. -/
def RegisterCall.slot (number : Nat) : RegisterCall → RangeSlot
  | ram baseAddr size _ => ⟨⟨baseAddr,size,true,none,none⟩, some number⟩
  | device addr size readFunc writeFunc =>
    ⟨⟨addr.setWidth 32,size.setWidth 32,false,readFunc,writeFunc⟩, none⟩

/-- The table after some calls: their elements in order, and the rest untouched. -/
def tableOf (calls : List RegisterCall) : MapTable :=
  ⟨calls.length, fun pr => match calls[pr.val]? with
    | some call => call.slot pr
    | none => blankSlot⟩

theorem tableOf_blank {calls : List RegisterCall} {pr : Fin physMemRangeMax}
    (beyond : calls.length ≤ pr.val) : (tableOf calls).physMemRange pr = blankSlot := by
  simp [tableOf,List.getElem?_eq_none beyond]

theorem tableOf_used {calls : List RegisterCall} {pr : Fin physMemRangeMax}
    (entry : calls[pr.val]? = some call) : (tableOf calls).physMemRange pr = call.slot pr := by
  simp [tableOf,entry]

/-- One more call stores its element after the others. -/
theorem tableOf_append {calls : List RegisterCall} (inside : calls.length < physMemRangeMax)
    (call : RegisterCall) : tableOf (calls ++ [call]) =
      ⟨calls.length + 1, Function.update (tableOf calls).physMemRange ⟨calls.length,inside⟩
        (call.slot calls.length)⟩ := by
  unfold tableOf
  congr 1
  · exact List.length_append
  funext pr
  by_cases last : pr = ⟨calls.length,inside⟩
  · subst last
    simp
  · have other : pr.val ≠ calls.length := fun same => last (Fin.ext same)
    rw [Function.update_of_ne last]
    rcases Nat.lt_or_gt_of_ne other with before | after
    · simp [List.getElem?_append_left before]
    · have beyond : (calls ++ [call]).length ≤ pr.val := by
        rw [List.length_append]
        exact after
      simp [List.getElem?_eq_none beyond,List.getElem?_eq_none (Nat.le_of_lt after)]

/-- Whether the memory that the call asks for is there. -/
def RegisterCall.allocated : RegisterCall → Bool
  | ram _ _ allocated => allocated
  | device .. => true

theorem next_inside {calls : List RegisterCall} (inside : calls.length < physMemRangeMax) :
    (tableOf calls).next =
      .ok (⟨calls.length,inside⟩, ⟨calls.length + 1, (tableOf calls).physMemRange⟩) :=
  dif_pos inside

theorem next_full {calls : List RegisterCall} (full : ¬calls.length < physMemRangeMax) :
    (tableOf calls).next = .error .outOfBounds :=
  dif_neg full

theorem perform_inside {calls : List RegisterCall} (inside : calls.length < physMemRangeMax)
    (call : RegisterCall) : call.perform (tableOf calls) =
      if call.allocated then .ok (tableOf (calls ++ [call]))
      else .error (.exit exitCannotAllocateVmMemory) := by
  have blank : (tableOf calls).physMemRange ⟨calls.length,inside⟩ = blankSlot :=
    tableOf_blank (Nat.le_refl _)
  rw [tableOf_append inside]
  cases call with
  | ram baseAddr size allocated =>
    have room : ¬(tableOf calls).nPhysMemRange + 1 > physMemRangeMax := Nat.not_lt.mpr inside
    simp only [RegisterCall.perform,cpuRegisterRam,registerRamEntry,if_neg room,next_inside inside,
      ok_bind,pure_eq_ok]
    cases allocated with
    | false => rfl
    | true => simp [MapTable.modify,blank,blankSlot,RegisterCall.allocated,RegisterCall.slot]
  | device addr size readFunc writeFunc =>
    simp [RegisterCall.perform,cpuRegisterDevice,next_inside inside,MapTable.modify,blank,
      blankSlot,RegisterCall.allocated,RegisterCall.slot]

/-- A full table: the RAM path looks at the count, and the device path does not. -/
theorem perform_full {calls : List RegisterCall} (full : ¬calls.length < physMemRangeMax)
    (call : RegisterCall) : call.perform (tableOf calls) = .error
      (match call with
        | .ram .. => .exit exitTooManyMemoryRanges
        | .device .. => .outOfBounds) := by
  cases call with
  | ram baseAddr size allocated =>
    have above : (tableOf calls).nPhysMemRange + 1 > physMemRangeMax := by
      have count : (tableOf calls).nPhysMemRange = calls.length := rfl
      omega
    simp only [RegisterCall.perform,cpuRegisterRam,registerRamEntry,if_pos above,throw_eq_error,
      error_bind]
  | device addr size readFunc writeFunc =>
    simp only [RegisterCall.perform,cpuRegisterDevice,next_full full,error_bind]

theorem registerAll_append (map : MapTable) (calls : List RegisterCall) (call : RegisterCall) :
    registerAll map (calls ++ [call]) = registerAll map calls >>= fun map => call.perform map := by
  simp only [registerAll,List.foldlM_append,List.foldlM_cons,List.foldlM_nil,bind_pure]

/-- All calls of a run that goes on have taken an element. -/
theorem registerAll_ok {calls : List RegisterCall} (ran : registerAll physMemMapInit calls = .ok map) :
    map = tableOf calls ∧ calls.length ≤ physMemRangeMax := by
  induction calls using List.reverseRecOn generalizing map with
  | nil => exact ⟨(Except.ok.inj ran).symm, Nat.zero_le _⟩
  | append_singleton calls call ih =>
    rw [registerAll_append] at ran
    obtain ⟨before,first,last⟩ := bind_eq_ok.mp ran
    obtain ⟨rfl,_⟩ := ih first
    by_cases inside : calls.length < physMemRangeMax
    · rw [perform_inside inside] at last
      split at last
      next =>
        refine ⟨(Except.ok.inj last).symm, ?_⟩
        rw [List.length_append]
        exact inside
      next => contradiction
    · rw [perform_full inside] at last
      contradiction

/-- The table records the calls: one element each, with the base and the size that were given. -/
structure Records (calls : List RegisterCall) (map : MapTable) : Prop where
  count : map.nPhysMemRange = calls.length
  bound : map.nPhysMemRange ≤ physMemRangeMax
  arguments : ∀ (pr : Fin physMemRangeMax) call, calls[pr.val]? = some call →
    (map.physMemRange pr).address.toNat = call.baseArgument ∧
      (map.physMemRange pr).size.toNat = call.sizeArgument

/-- A call is refused, or it adds its own element to the record and changes no other. -/
def Registers (before : List RegisterCall) (call : RegisterCall) (map : MapTable) : Prop :=
  (∃ code, call.perform map = .error (.exit code)) ∨
    ∃ map', call.perform map = .ok map' ∧ Records (before ++ [call]) map' ∧
      ∀ pr : Fin physMemRangeMax, pr.val < map.nPhysMemRange →
        map'.physMemRange pr = map.physMemRange pr

/-- What holds of every call that a sequence of calls on a new table reaches. -/
def EachCall (property : List RegisterCall → RegisterCall → MapTable → Prop)
    (calls : List RegisterCall) : Prop :=
  ∀ before call after map, calls = before ++ call :: after →
    registerAll physMemMapInit before = .ok map → property before call map

/-- A device finds an element left, and its arguments fit into 32 bits. -/
def RegisterCall.Fits (call : RegisterCall) (map : MapTable) : Prop :=
  match call with
  | ram .. => True
  | device addr size _ _ =>
    map.nPhysMemRange < physMemRangeMax ∧ addr.toNat < 2 ^ 32 ∧ size.toNat < 2 ^ 32

/-- The element holds the arguments of the call. -/
def RegisterCall.Kept (call : RegisterCall) : Prop :=
  ∀ number, (call.slot number).address.toNat = call.baseArgument ∧
    (call.slot number).size.toNat = call.sizeArgument

theorem narrow_iff (value : Quadword) : (value.setWidth 32).toNat = value.toNat ↔
    value.toNat < 2 ^ 32 := by
  rw [BitVec.toNat_setWidth]
  exact Nat.mod_eq_iff_lt (by decide)

theorem kept_iff {map : MapTable} {call : RegisterCall} (room : map.nPhysMemRange < physMemRangeMax) :
    call.Kept ↔ call.Fits map := by
  cases call with
  | ram => exact iff_of_true (fun _ => ⟨rfl,rfl⟩) trivial
  | device addr size _ _ =>
    constructor
    · intro kept
      exact ⟨room, (narrow_iff addr).mp (kept 0).1, (narrow_iff size).mp (kept 0).2⟩
    · rintro ⟨_,address,length⟩ number
      exact ⟨(narrow_iff addr).mpr address, (narrow_iff size).mpr length⟩

theorem records_tableOf {calls : List RegisterCall} (bound : calls.length ≤ physMemRangeMax)
    (kept : ∀ call ∈ calls, call.Kept) : Records calls (tableOf calls) := by
  refine ⟨rfl,bound,?_⟩
  intro pr call entry
  rw [tableOf_used entry]
  exact kept call (List.mem_of_getElem? entry) pr

theorem registers_of_fits {before : List RegisterCall}
    (kept : ∀ call ∈ before, call.Kept) (fits : RegisterCall.Fits call (tableOf before)) :
    Registers before call (tableOf before) := by
  by_cases inside : before.length < physMemRangeMax
  · cases allocated : call.allocated with
    | false =>
      exact Or.inl ⟨_, by rw [perform_inside inside,allocated,if_neg (by decide)]⟩
    | true =>
      refine Or.inr ⟨tableOf (before ++ [call]), ?_, ?_, ?_⟩
      · rw [perform_inside inside,allocated,if_pos rfl]
      · refine records_tableOf (by rw [List.length_append]; exact inside) ?_
        intro other member
        rcases List.mem_append.mp member with earlier | last
        · exact kept other earlier
        · rw [List.mem_singleton.mp last]
          exact (kept_iff inside).mpr fits
      · intro pr earlier
        rw [tableOf_append inside]
        refine Function.update_of_ne ?_ _ _
        rintro rfl
        exact Nat.lt_irrefl _ earlier
  · cases call with
    | ram => exact Or.inl ⟨_, perform_full inside _⟩
    | device => exact absurd fits.1 inside

theorem fits_of_registers {before : List RegisterCall}
    (registers : Registers before call (tableOf before)) : call.Fits (tableOf before) := by
  cases call with
  | ram => trivial
  | device addr size readFunc writeFunc =>
    by_cases inside : before.length < physMemRangeMax
    · rw [Registers,perform_inside inside] at registers
      rcases registers with ⟨code,refused⟩ | ⟨map',taken,records,_⟩
      · contradiction
      · obtain rfl := Except.ok.inj taken
        have entry : (before ++ [RegisterCall.device addr size readFunc writeFunc])[before.length]? =
            some (.device addr size readFunc writeFunc) := List.getElem?_concat_length
        obtain ⟨address,length⟩ := records.arguments ⟨before.length,inside⟩ _ entry
        rw [tableOf_used entry] at address length
        exact ⟨inside, (narrow_iff addr).mp address, (narrow_iff size).mp length⟩
    · rw [Registers,perform_full inside] at registers
      rcases registers with ⟨code,refused⟩ | ⟨map',taken,_⟩
      · exact absurd (Except.error.inj refused) (by simp)
      · contradiction

theorem registerAll_before (ran : registerAll map (before ++ rest) = .ok map') :
    ∃ between, registerAll map before = .ok between := by
  rw [registerAll,List.foldlM_append] at ran
  obtain ⟨between,first,_⟩ := bind_eq_ok.mp ran
  exact ⟨between,first⟩

/-- In a run whose device calls all fit, the elements hold what the calls were given. -/
theorem kept_of_fits {calls before : List RegisterCall}
    (fits : EachCall (fun _ call map => call.Fits map) calls) (split : calls = before ++ rest)
    (ran : registerAll physMemMapInit before = .ok map) : ∀ call ∈ before, call.Kept := by
  intro call member
  obtain ⟨first,later,rfl⟩ := List.append_of_mem member
  obtain ⟨between,reached⟩ := registerAll_before ran
  have bound := (registerAll_ok ran).2
  obtain ⟨rfl,_⟩ := registerAll_ok reached
  have room : (tableOf first).nPhysMemRange < physMemRangeMax := by
    rw [List.length_append,List.length_cons] at bound
    have count : (tableOf first).nPhysMemRange = first.length := rfl
    omega
  refine (kept_iff room).mpr (fits first call (later ++ rest) _ ?_ reached)
  rw [split,List.append_assoc,List.cons_append]

/-- Every call of a sequence is refused or recorded as it was given, exactly when every device
call that is reached finds an element left and has arguments of at most 32 bits. -/
theorem eachCall_registers_iff (calls : List RegisterCall) :
    EachCall Registers calls ↔ EachCall (fun _ call map => call.Fits map) calls := by
  constructor
  · intro registers before call after map split ran
    have registered := registers before call after map split ran
    obtain ⟨rfl,_⟩ := registerAll_ok ran
    exact fits_of_registers registered
  · intro fits before call after map split ran
    have kept := kept_of_fits fits split ran
    have here := fits before call after map split ran
    obtain ⟨rfl,_⟩ := registerAll_ok ran
    exact registers_of_fits kept here

/-- A device whose base does not fit is recorded at another address. -/
theorem device_truncated : ¬EachCall Registers [.device 0x100001000 16 none none] := by
  intro registers
  rcases registers [] _ [] _ rfl rfl with ⟨code,refused⟩ | ⟨map',taken,records,_⟩
  · contradiction
  · obtain rfl := Except.ok.inj taken
    exact absurd (records.arguments ⟨0, by decide⟩ _ rfl).1 (by decide)

/-- The entries in use, as a memory map. -/
def MapTable.entries (map : MapTable) : MemoryMap :=
  ((List.finRange physMemRangeMax).take map.nPhysMemRange).map fun pr =>
    (map.physMemRange pr).toMemoryRange

def RegisterCall.range (call : RegisterCall) : MemoryRange := (call.slot 0).toMemoryRange

theorem slot_range (call : RegisterCall) (number : Nat) :
    (call.slot number).toMemoryRange = call.range := by
  cases call <;> rfl

/-- The table lists the ranges in the order in which they were registered. -/
theorem registerAll_entries (ran : registerAll physMemMapInit calls = .ok map) :
    map.entries = calls.map RegisterCall.range := by
  obtain ⟨rfl,bound⟩ := registerAll_ok ran
  apply List.ext_getElem
  · simp [MapTable.entries,tableOf,bound]
  · intro i first second
    rw [List.length_map] at second
    have entry : calls[i]? = some calls[i] := List.getElem?_eq_getElem second
    have used : (tableOf calls).physMemRange ⟨i, Nat.lt_of_lt_of_le second bound⟩ =
        calls[i].slot i := tableOf_used entry
    simp [MapTable.entries,used,slot_range]

/-- The calls of `initialize_riscv_machine`. -/
def initializeCalls (ramAllocated lowRamAllocated : Bool) : List RegisterCall := [
  .ram ramBaseAddr vmMemorySize ramAllocated,
  .ram 0 lowRamSize lowRamAllocated,
  .device (htifBaseAddr.setWidth 64) (htifSize.setWidth 64) (some .htifRead) (some .htifWrite),
  .device (clintBaseAddr.setWidth 64) (clintSize.setWidth 64) (some .clintRead) (some .clintWrite),
  .device (uartBaseAddr.setWidth 64) (uartSize.setWidth 64) (some .uartRead) (some .uartWrite)]

/-- The machine starts with its five ranges, or not at all. -/
theorem initializeCalls_entries
    (ran : registerAll physMemMapInit (initializeCalls ramAllocated lowRamAllocated) = .ok map) :
    map.entries = linuxMemoryMap :=
  registerAll_entries ran

end Emuriscv
