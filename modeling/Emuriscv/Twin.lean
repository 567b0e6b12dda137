import Emuriscv.Lockstep
import Emuriscv.Snapshot
import Emuriscv.Translation

/-! Two machines with the same hart and the same RAM, whose ranges differ at most in their
device callbacks. The same access of the other tracks that of the one, as long as the callbacks
do. -/
namespace Emuriscv

open Lockstep

def MemoryRange.detach (range : MemoryRange) : MemoryRange :=
  { range with readFunc := none, writeFunc := none }

def RangePtr.detach (range : RangePtr) : RangePtr := ⟨range.index,range.entry.detach⟩

theorem getPhysMemRangeFrom_detach (paddr : Word) (i : Nat) (map : List MemoryRange) :
    getPhysMemRangeFrom paddr i (map.map MemoryRange.detach) =
      (getPhysMemRangeFrom paddr i map).map RangePtr.detach := by
  induction map generalizing i with
  | nil => rfl
  | cons range rest ih =>
    by_cases here : range.address ≤ paddr ∧ paddr < range.address + range.size
    · simp [getPhysMemRangeFrom,MemoryRange.detach,RangePtr.detach,here]
    · simpa [getPhysMemRangeFrom,MemoryRange.detach,here] using ih (i + 1)

/-- A pointer into the buffer of a RAM range, or NULL. -/
def RamPtr (map : MemoryMap) (p : HostPtr) : Prop :=
  ∀ buffer, p.base = some buffer → ∃ range, map[buffer]? = some range ∧ range.isRam = true

/-- The hart of `s` in the machine of `t`. -/
def graft (t s : State) : State :=
  { s with
    memoryMap := t.memoryMap
    ram := t.ram
    vm := t.vm
    uart := t.uart
    console := t.console
    traps := t.traps }

/-- The maps of the two machines, and what their devices have to do with each other. -/
structure Coupling where
  left : MemoryMap
  right : MemoryMap
  ranges : right.map MemoryRange.detach = left.map MemoryRange.detach
  devices : RiscVMachine → Uart → RiscVMachine → Uart → Prop

namespace Coupling

variable (c : Coupling)

structure Twin (s t : State) : Prop where
  hart : t = graft t s
  left : s.memoryMap = c.left
  right : t.memoryMap = c.right
  ram : ∀ i k, inRam c.left i k = true → t.ram i k = s.ram i k
  devices : c.devices s.vm s.uart t.vm t.uart

/-- The callbacks of the second machine track those of the first. -/
structure Sound [Platform] : Prop where
  read : ∀ {s t} {range range' : MemoryRange} {i : Nat}, c.Twin s t →
    c.left[i]? = some range → c.right[i]? = some range' → ∀ offset,
      Tracks Eq (callRead range.readFunc s offset) (callRead range'.readFunc t offset)
  write : ∀ {s t} {range range' : MemoryRange} {i : Nat}, c.Twin s t →
    c.left[i]? = some range → c.right[i]? = some range' → ∀ offset value,
      Tracks c.Twin (callWrite range.writeFunc s offset value)
        (callWrite range'.writeFunc t offset value)

variable {c} {s t : State}

/-- What leaves memory and map alone and does the same to both harts. -/
theorem Twin.next (twin : c.Twin s t) {u v : State} (hart : v = graft v u)
    (left : u.memoryMap = s.memoryMap) (right : v.memoryMap = t.memoryMap) (ram : u.ram = s.ram)
    (ram' : v.ram = t.ram) (devices : c.devices u.vm u.uart v.vm v.uart) : c.Twin u v := by
  refine ⟨hart,left.trans twin.left,right.trans twin.right,fun i k inside => ?_,devices⟩
  rw [ram,ram']
  exact twin.ram i k inside

/-- A change of the hart alone. -/
theorem Twin.map (twin : c.Twin s t) (f : State → State) (commutes : f (graft t s) = graft t (f s))
    (map : (f s).memoryMap = s.memoryMap) (ram : (f s).ram = s.ram) (vm : (f s).vm = s.vm)
    (uart : (f s).uart = s.uart) : c.Twin (f s) (f t) := by
  have other : f t = graft t (f s) := (congrArg f twin.hart).trans commutes
  rw [other]
  refine twin.next rfl map rfl ram rfl ?_
  rw [vm,uart]
  exact twin.devices

/-- Stores that agree in RAM. -/
theorem Twin.withRam (twin : c.Twin s t) {ram ram' : Nat → Nat → Byte}
    (agree : ∀ i k, inRam c.left i k = true → ram' i k = ram i k) :
    c.Twin { s with ram := ram } { t with ram := ram' } :=
  ⟨congrArg (fun u : State => { u with ram := ram' }) twin.hart,twin.left,twin.right,agree,
    twin.devices⟩

theorem Twin.range (twin : c.Twin s t) (i : Nat) :
    t.memoryMap[i]?.map MemoryRange.detach = s.memoryMap[i]?.map MemoryRange.detach := by
  rw [twin.left,twin.right,← List.getElem?_map,← List.getElem?_map,c.ranges]

theorem Twin.bufferSize (twin : c.Twin s t) (buffer : Nat) :
    t.bufferSize buffer = s.bufferSize buffer := by
  have same := congrArg (Option.map MemoryRange.size) (twin.range buffer)
  simp only [Option.map_map] at same
  unfold State.bufferSize
  cases h : s.memoryMap[buffer]? <;> cases h' : t.memoryMap[buffer]? <;>
    simp_all [MemoryRange.detach]

theorem RamPtr.inRam {map : MemoryMap} {p : HostPtr} (ptr : RamPtr map p) (base : p.base = some buffer)
    (same : s.memoryMap = map) (inside : k < s.bufferSize buffer) :
    inRam map buffer k = true := by
  obtain ⟨range,here,isRam⟩ := ptr buffer base
  rw [State.bufferSize,same,here] at inside
  simp [Emuriscv.inRam,here,isRam,inside]

theorem Twin.load (twin : c.Twin s t) {p : HostPtr} (ptr : RamPtr c.left p) (k : Nat) :
    t.load p k = s.load p k := by
  unfold State.load
  split
  next => rfl
  next buffer base =>
    rw [twin.bufferSize]
    split
    next inside => rw [twin.ram _ _ (RamPtr.inRam ptr base twin.left inside)]
    next => rfl

theorem Twin.store (twin : c.Twin s t) (p : HostPtr) (k : Nat) (value : Byte) :
    Tracks c.Twin (s.store p k value) (t.store p k value) := by
  unfold State.store
  split
  next => exact .error _ _
  next buffer base =>
    rw [twin.bufferSize]
    refine .ite _ (fun inside => .ok (twin.withRam fun i j here => ?_)) fun _ => .error _ _
    simp only [Function.update_apply]
    split
    next same =>
      subst same
      simp only [Function.update_apply]
      split
      next => rfl
      next => exact twin.ram i j here
    next => exact twin.ram i j here

theorem Twin.readCommonRam (twin : c.Twin s t) {p : HostPtr} (ptr : RamPtr c.left p) (sizeLog2 : Nat) :
    readCommonRam t p sizeLog2 = readCommonRam s p sizeLog2 := by
  simp only [Emuriscv.readCommonRam,twin.load ptr]

theorem Twin.writeCommonRam (twin : c.Twin s t) (p : HostPtr) (value : Word) (sizeLog2 : Nat) :
    Tracks c.Twin (writeCommonRam s p value sizeLog2) (writeCommonRam t p value sizeLog2) := by
  unfold Emuriscv.writeCommonRam
  dsimp only
  split
  next =>
    exact (twin.store p _ _).bind fun _ _ twin => (twin.store p _ _).bind fun _ _ twin =>
      (twin.store p _ _).bind fun _ _ twin => twin.store p _ _
  next => exact (twin.store p _ _).bind fun _ _ twin => twin.store p _ _
  next => exact twin.store p _ _
  next => exact .error _ _

variable (c) in
theorem lookup (paddr : Word) : (getPhysMemRange c.right paddr).map RangePtr.detach =
    (getPhysMemRange c.left paddr).map RangePtr.detach := by
  simp only [getPhysMemRange,← getPhysMemRangeFrom_detach,c.ranges]

variable (c) in
/-- What the two machines find at one address. -/
structure Targets (a b : Int × MemoryTarget) : Prop where
  status : b.1 = a.1
  ptr : b.2.ptr = a.2.ptr
  range : b.2.range.map RangePtr.detach = a.2.range.map RangePtr.detach
  left : ∀ range, a.2.range = some range → c.left[range.index]? = some range.entry
  right : ∀ range, b.2.range = some range → c.right[range.index]? = some range.entry
  ram : ∀ p, a.2.ptr = some p → RamPtr c.left p

theorem Twin.target (twin : c.Twin s t) (paddr : Word) :
    c.Targets (getMemoryTargetPhysical s paddr) (getMemoryTargetPhysical t paddr) := by
  have same := c.lookup paddr
  unfold getMemoryTargetPhysical
  rw [twin.left,twin.right]
  cases found : getPhysMemRange c.left paddr with
  | none =>
    rw [found] at same
    have missing : getPhysMemRange c.right paddr = none := by simpa using same
    rw [missing]
    exact ⟨rfl,rfl,rfl,nofun,nofun,nofun⟩
  | some range =>
    rw [found] at same
    obtain ⟨range',found',alike⟩ := Option.map_eq_some_iff.mp same
    obtain ⟨index,entry⟩ := RangePtr.mk.inj alike
    obtain ⟨address,_,isRam,_,_⟩ := MemoryRange.mk.inj entry
    have here := (getPhysMemRange_spec found).1
    have here' := (getPhysMemRange_spec found').1
    rw [found']
    constructor
    case status => rfl
    case ptr => simp only [RangePtr.physMemPtr,index,isRam,address]
    case range => exact congrArg some alike
    case left =>
      rintro _ ⟨⟩
      exact here
    case right =>
      rintro _ ⟨⟩
      exact here'
    case ram =>
      rintro _ ⟨⟩ buffer base
      simp only [RangePtr.physMemPtr] at base
      split at base
      next ram =>
        cases base
        exact ⟨_,here,ram⟩
      next => contradiction

theorem Twin.readWordPhysical (twin : c.Twin s t) (paddr : Word) :
    readWordPhysical t paddr = readWordPhysical s paddr := by
  have targets := twin.target paddr
  simp only [Emuriscv.readWordPhysical,MemoryTarget.pointer,targets.ptr]
  cases found : (getMemoryTargetPhysical s paddr).2.ptr with
  | none => rfl
  | some p =>
    simp only [pure_eq_ok,ok_bind]
    exact twin.readCommonRam (targets.ram p found) _

theorem Twin.writeWordPhysical (twin : c.Twin s t) (paddr value : Word) :
    Tracks c.Twin (writeWordPhysical s paddr value) (writeWordPhysical t paddr value) := by
  have targets := twin.target paddr
  simp only [Emuriscv.writeWordPhysical,MemoryTarget.pointer,targets.ptr]
  cases (getMemoryTargetPhysical s paddr).2.ptr with
  | none => exact .error _ _
  | some p =>
    simp only [pure_eq_ok,ok_bind]
    exact twin.writeCommonRam p value _

variable (c) in
structure Translations (a b : Translation) : Prop where
  result : b.result = a.result
  physicalAddress : b.physicalAddress = a.physicalAddress
  state : c.Twin a.state b.state

theorem Twin.csr (twin : c.Twin s t) : t.csr = s.csr := by
  rw [twin.hart]
  rfl

theorem Twin.privilege (twin : c.Twin s t) : t.privilege = s.privilege := by
  rw [twin.hart]
  rfl

theorem Twin.translateLevels (twin : c.Twin s t) (virtualAddress : Word) (accessType : AccessType)
    (left : Nat) (pteAddr : Word) :
    Tracks c.Translations (translateLevels s virtualAddress accessType left pteAddr)
      (translateLevels t virtualAddress accessType left pteAddr) := by
  induction left generalizing pteAddr with
  | zero => exact .ok ⟨rfl,rfl,twin⟩
  | succ left ih =>
    rw [Emuriscv.translateLevels,Emuriscv.translateLevels,twin.readWordPhysical]
    cases Emuriscv.readWordPhysical s (pteAddr + ((virtualAddress >>> (pageShift + 10 * left)) &&& 0x3ff) <<< 2) with
    | error stop => exact .error _ _
    | ok pte =>
      refine .ite _ (fun _ => .ok ⟨rfl,rfl,twin⟩) fun _ => .ite _ (fun _ => ih _) fun _ =>
        .ite _ (fun _ => .ok ⟨rfl,rfl,twin⟩) fun _ => ?_
      refine .ite _ (fun _ => ?_) fun _ => .ok ⟨rfl,rfl,twin⟩
      exact (twin.writeWordPhysical _ _).bind fun _ _ twin => .ok ⟨rfl,rfl,twin⟩

theorem Twin.translateAddress (twin : c.Twin s t) (virtualAddress : Word) (accessType : AccessType) :
    Tracks c.Translations (translateAddress s virtualAddress accessType)
      (translateAddress t virtualAddress accessType) := by
  simp only [Emuriscv.translateAddress,getMemoryMode,rootAddress,readCsr,twin.csr,twin.privilege]
  exact .ite _ (fun _ => .ok ⟨rfl,rfl,twin⟩) fun _ => .ite _ (fun _ => .ok ⟨rfl,rfl,twin⟩) fun _ =>
    .ite _ (fun _ => twin.translateLevels _ _ _ _) fun _ => .error _ _

variable (c) in
structure Lookups (a b : Lookup) : Prop where
  targets : c.Targets (a.status,a.target) (b.status,b.target)
  state : c.Twin a.state b.state

theorem Twin.getMemoryTarget (twin : c.Twin s t) (virtualAddress : Word) (accessType : AccessType) :
    Tracks c.Lookups (getMemoryTarget s virtualAddress accessType)
      (getMemoryTarget t virtualAddress accessType) := by
  refine (twin.translateAddress virtualAddress accessType).bind ?_
  rintro a b ⟨result,physicalAddress,state⟩
  rw [result,physicalAddress]
  refine .ite _ (fun _ => .ok ⟨⟨rfl,rfl,rfl,nofun,nofun,nofun⟩,?_⟩) fun _ => ?_
  · exact state.map (fun s => { s with
      pendingException := pageFaultCause accessType
      pendingTval := virtualAddress
      hasPendingException := true }) rfl rfl rfl rfl rfl
  · cases a.physicalAddress with
    | none => exact .error _ _
    | some paddr => exact .ok ⟨state.target paddr,state⟩

variable (c) in
/-- A value that was read, the same in both machines. -/
def Reading (a b : α × State) : Prop := b.1 = a.1 ∧ c.Twin a.2 b.2

/-- The target that both machines have found, in RAM or behind a callback of each. -/
theorem Targets.cases {a b : Int × MemoryTarget} (targets : c.Targets a b) :
    a.2.range = none ∧ b.2.range = none ∨
    ∃ range range', a.2.range = some range ∧ b.2.range = some range' ∧
      range'.entry.isRam = range.entry.isRam ∧ c.left[range.index]? = some range.entry ∧
      c.right[range.index]? = some range'.entry := by
  have same := targets.range
  cases found : a.2.range with
  | none =>
    rw [found] at same
    exact .inl ⟨rfl,by simpa using same⟩
  | some range =>
    rw [found] at same
    obtain ⟨range',found',alike⟩ := Option.map_eq_some_iff.mp same
    obtain ⟨index,entry⟩ := RangePtr.mk.inj alike
    have isRam := (MemoryRange.mk.inj entry).2.2.1
    have right := targets.right range' found'
    rw [index] at right
    exact .inr ⟨range,range',rfl,found',isRam,targets.left range found,right⟩

variable [Platform]

theorem Twin.readCommon (twin : c.Twin s t) (sound : c.Sound) (address : Word) (sizeLog2 : Nat) :
    Tracks c.Reading (readCommon s address sizeLog2) (readCommon t address sizeLog2) := by
  refine (twin.getMemoryTarget address .load).bind fun a b looked => ?_
  obtain ⟨targets,state⟩ := looked
  have status : b.status = a.status := targets.status
  have ptr : b.target.ptr = a.target.ptr := targets.ptr
  rw [status]
  refine .ite _ (fun _ => .ok ⟨rfl,state⟩) fun _ => ?_
  rcases targets.cases with ⟨missing,missing'⟩ | ⟨range,range',found,found',isRam,left,right⟩
  · dsimp only at missing missing'
    rw [missing,missing']
    exact .error _ _
  · dsimp only at found found'
    simp only [found,found',isRam,MemoryTarget.pointer,ptr]
    cases pointer : a.target.ptr with
    | none => exact .error _ _
    | some p =>
      simp only [pure_eq_ok,ok_bind]
      refine .ite _ (fun _ => ?_) fun _ => ?_
      · rw [state.readCommonRam (targets.ram p pointer)]
        exact (Tracks.refl _).bind fun _ _ same => .ok ⟨same.symm,state⟩
      · exact (sound.read state left right _).bind fun _ _ same => .ok ⟨same.symm,state⟩

theorem Twin.writeCommon (twin : c.Twin s t) (sound : c.Sound) (address value : Word)
    (sizeLog2 : Nat) :
    Tracks c.Twin (writeCommon s address value sizeLog2) (writeCommon t address value sizeLog2) := by
  refine (twin.getMemoryTarget address .store).bind fun a b looked => ?_
  obtain ⟨targets,state⟩ := looked
  have status : b.status = a.status := targets.status
  have ptr : b.target.ptr = a.target.ptr := targets.ptr
  rw [status]
  refine .ite _ (fun _ => .ok state) fun _ => ?_
  rcases targets.cases with ⟨missing,missing'⟩ | ⟨range,range',found,found',isRam,left,right⟩
  · dsimp only at missing missing'
    rw [missing,missing']
    exact .error _ _
  · dsimp only at found found'
    simp only [found,found',isRam,MemoryTarget.pointer,ptr]
    cases a.target.ptr with
    | none => exact .error _ _
    | some p =>
      simp only [pure_eq_ok,ok_bind]
      exact .ite _ (fun _ => state.writeCommonRam p value sizeLog2) fun _ =>
        sound.write state left right _ value

end Coupling

end Emuriscv
