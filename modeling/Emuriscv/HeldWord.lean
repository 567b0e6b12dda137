import Emuriscv.Memory

/-! Bytes outside guest RAM. No range has the buffer after the last one, so that no access of the
guest reaches it: what is held there stays, and nothing that the guest reads depends on it. -/
namespace Emuriscv

/-- These bytes in the buffer that belongs to no range. -/
def hold (bytes : Nat → Byte) (s : State) : State :=
  { s with ram := Function.update s.ram s.memoryMap.length bytes }

/-- Two sequences agree when their parts do. -/
theorem bind_map {m : α → α'} {n : β → β'} {x : Except Stop α} {y : Except Stop α'}
    {f : α → Except Stop β} {g : α' → Except Stop β'} (first : y = x.map m)
    (rest : ∀ a, x = .ok a → g (m a) = (f a).map n) : (y >>= g) = (x >>= f).map n := by
  subst first
  cases x with
  | error stop => rfl
  | ok a => exact rest a rfl

/-- The first part is the same. -/
theorem bind_rest {n : β → β'} {x : Except Stop α} {f : α → Except Stop β}
    {g : α → Except Stop β'} (rest : ∀ a, g a = (f a).map n) : (x >>= g) = (x >>= f).map n := by
  cases x with
  | error stop => rfl
  | ok a => exact rest a

theorem map_ite (condition : Prop) [Decidable condition] {m : α → α'} {x y : Except Stop α}
    {x' y' : Except Stop α'} (first : x' = x.map m) (second : y' = y.map m) :
    (if condition then x' else y') = (if condition then x else y).map m := by
  split
  next => exact first
  next => exact second

section Accesses

variable (bytes : Nat → Byte) (s : State)

theorem bufferSize_past : s.bufferSize s.memoryMap.length = 0 := by
  simp [State.bufferSize]

theorem load_hold (p : HostPtr) (k : Nat) : (hold bytes s).load p k = s.load p k := by
  unfold State.load
  split
  next => rfl
  next buffer _ =>
    by_cases past : buffer = s.memoryMap.length
    · have none (t : State) (same : t.memoryMap = s.memoryMap) :
          ¬p.offset + k < t.bufferSize buffer := by
        rw [State.bufferSize,same,past,← State.bufferSize,bufferSize_past]
        omega
      rw [if_neg (none s rfl),if_neg (none (hold bytes s) rfl)]
    · have kept : (hold bytes s).ram buffer = s.ram buffer := Function.update_of_ne past ..
      rw [kept]
      rfl

theorem store_hold (p : HostPtr) (k : Nat) (value : Byte) :
    (hold bytes s).store p k value = (s.store p k value).map (hold bytes) := by
  unfold State.store
  split
  next => rfl
  next buffer _ =>
    by_cases past : buffer = s.memoryMap.length
    · have none (t : State) (same : t.memoryMap = s.memoryMap) :
          ¬p.offset + k < t.bufferSize buffer := by
        rw [State.bufferSize,same,past,← State.bufferSize,bufferSize_past]
        omega
      rw [if_neg (none s rfl),if_neg (none (hold bytes s) rfl)]
      rfl
    · have kept : (hold bytes s).ram buffer = s.ram buffer := Function.update_of_ne past ..
      refine map_ite _ ?_ rfl
      rw [kept]
      simp only [hold,pure_eq_ok,Except.map,Function.update_comm past]

theorem readCommonRam_hold (p : HostPtr) (sizeLog2 : Nat) :
    readCommonRam (hold bytes s) p sizeLog2 = readCommonRam s p sizeLog2 := by
  simp only [readCommonRam,load_hold]

theorem writeCommonRam_hold (p : HostPtr) (value : Word) (sizeLog2 : Nat) :
    writeCommonRam (hold bytes s) p value sizeLog2 =
      (writeCommonRam s p value sizeLog2).map (hold bytes) := by
  unfold writeCommonRam
  dsimp only
  split
  next =>
    refine bind_map (store_hold ..) fun _ _ => bind_map (store_hold ..) fun _ _ => ?_
    exact bind_map (store_hold ..) fun _ _ => store_hold ..
  next => exact bind_map (store_hold ..) fun _ _ => store_hold ..
  next => exact store_hold ..
  next => rfl

def Translation.hold (t : Translation) : Translation := { t with state := Emuriscv.hold bytes t.state }

def Lookup.hold (l : Lookup) : Lookup := { l with state := Emuriscv.hold bytes l.state }

theorem readWordPhysical_hold (physicalAddress : Word) :
    readWordPhysical (hold bytes s) physicalAddress = readWordPhysical s physicalAddress := by
  simp only [readWordPhysical,readCommonRam_hold]
  rfl

theorem writeWordPhysical_hold (physicalAddress value : Word) :
    writeWordPhysical (hold bytes s) physicalAddress value =
      (writeWordPhysical s physicalAddress value).map (hold bytes) :=
  bind_rest fun p => writeCommonRam_hold bytes s p value sizeWord

theorem translateLevels_hold (virtualAddress : Word) (accessType : AccessType) (left : Nat)
    (pteAddr : Word) : translateLevels (hold bytes s) virtualAddress accessType left pteAddr =
      (translateLevels s virtualAddress accessType left pteAddr).map (Translation.hold bytes) := by
  induction left generalizing pteAddr with
  | zero => rfl
  | succ left ih =>
    rw [translateLevels,translateLevels,readWordPhysical_hold]
    refine bind_rest fun pte => map_ite _ rfl (map_ite _ (ih _) (map_ite _ rfl ?_))
    exact map_ite _ (bind_map (writeWordPhysical_hold ..) fun _ _ => rfl) rfl

theorem translateAddress_hold (virtualAddress : Word) (accessType : AccessType) :
    translateAddress (hold bytes s) virtualAddress accessType =
      (translateAddress s virtualAddress accessType).map (Translation.hold bytes) := by
  unfold translateAddress
  refine map_ite _ rfl (map_ite _ rfl (map_ite _ ?_ rfl))
  exact translateLevels_hold ..

theorem getMemoryTarget_hold (virtualAddress : Word) (accessType : AccessType) :
    getMemoryTarget (hold bytes s) virtualAddress accessType =
      (getMemoryTarget s virtualAddress accessType).map (Lookup.hold bytes) := by
  refine bind_map (translateAddress_hold ..) fun t _ => map_ite _ rfl ?_
  dsimp only [Translation.hold]
  cases t.physicalAddress <;> rfl

theorem callRead_hold (f : Option DeviceReadFunc) (offset : Word) :
    callRead f (hold bytes s) offset = callRead f s offset := by
  match f with
  | none => rfl
  | some .clintRead => rfl
  | some .htifRead => rfl
  | some .uartRead => rfl

theorem readCommon_hold (address : Word) (sizeLog2 : Nat) :
    readCommon (hold bytes s) address sizeLog2 =
      (readCommon s address sizeLog2).map (Prod.map id (hold bytes)) := by
  refine bind_map (getMemoryTarget_hold ..) fun l _ => map_ite _ rfl ?_
  dsimp only [Lookup.hold]
  cases l.target.range with
  | none => rfl
  | some range =>
    dsimp only
    simp only [readCommonRam_hold,callRead_hold]
    exact bind_rest fun _ => map_ite _ (bind_rest fun _ => rfl) (bind_rest fun _ => rfl)

variable [Platform]

theorem clintWrite_hold (offset value : Word) :
    clintWrite (hold bytes s) offset value = hold bytes (clintWrite s offset value) := by
  unfold clintWrite
  split
  next => rfl
  next => split <;> rfl

omit [Platform] in
theorem htifHandleCmd_hold :
    htifHandleCmd (hold bytes s) = (htifHandleCmd s).map (hold bytes) :=
  map_ite _ rfl (map_ite _ rfl (map_ite _ rfl rfl))

omit [Platform] in
theorem htifWrite_hold (offset value : Word) :
    htifWrite (hold bytes s) offset value = (htifWrite s offset value).map (hold bytes) :=
  map_ite _ rfl (map_ite _ (htifHandleCmd_hold bytes { s with vm := _ }) (map_ite _ rfl (map_ite _ rfl rfl)))

omit [Platform] in
theorem uartWrite_hold (offset value : Word) :
    uartWrite (hold bytes s) offset value = (uartWrite s offset value).map (hold bytes) := by
  unfold uartWrite
  dsimp only
  split
  next => exact map_ite _ (map_ite _ rfl rfl) rfl
  next => rfl

theorem callWrite_hold (f : Option DeviceWriteFunc) (offset value : Word) :
    callWrite f (hold bytes s) offset value = (callWrite f s offset value).map (hold bytes) := by
  match f with
  | none => rfl
  | some .clintWrite => exact congrArg Except.ok (clintWrite_hold ..)
  | some .htifWrite => exact htifWrite_hold ..
  | some .uartWrite => exact uartWrite_hold ..

theorem writeCommon_hold (address value : Word) (sizeLog2 : Nat) :
    writeCommon (hold bytes s) address value sizeLog2 =
      (writeCommon s address value sizeLog2).map (hold bytes) := by
  refine bind_map (getMemoryTarget_hold ..) fun l _ => map_ite _ rfl ?_
  dsimp only [Lookup.hold]
  cases l.target.range with
  | none => rfl
  | some range =>
    exact bind_rest fun _ => map_ite _ (writeCommonRam_hold ..) (callWrite_hold ..)

end Accesses

end Emuriscv
