import Emuriscv.Bytes
import Emuriscv.Codec

/-! The snapshots of `loadsave.c`, for files that open and transfers that are complete.
`sizeof(State)` covers the fields in their order; `width` bytes, the padding and the
`memory_map` pointer, stand between `status` and `instruction_counter`. -/
namespace Emuriscv

open Codec

/-- An array indexed by the values of an `n`-bit field. -/
def wordsImage (f : BitVec n → Word) : List Byte :=
  (List.ofFn fun i : Fin (2 ^ n) => little (f ⟨i⟩)).flatten

def readWords (n : Nat) : Reader Byte (BitVec n → Word) :=
  table readLittle (2 ^ n) >>= fun f => pure fun i => f i.toFin

theorem reads_words (f : BitVec n → Word) : Reads (readWords n) (wordsImage f) f :=
  (reads_table reads_little _ fun i => f ⟨i⟩).map _

def readStatus : Reader Byte Status := do
  let value ← readLittle
  if value = Status.running.toWord then pure .running
  else if value = Status.breakpoint.toWord then pure .breakpoint
  else if value = Status.exitTermination.toWord then pure .exitTermination
  else failure

theorem reads_status (status : Status) : Reads readStatus (little status.toWord) status := by
  intro rest
  cases status <;> rfl

/-- `has_pending_exception` is 0 or 1. -/
def flagWord (flag : Bool) : Word := if flag then 1 else 0

theorem reads_flag (flag : Bool) :
    Reads (readLittle >>= fun value => pure (value != 0)) (little (flagWord flag)) flag := by
  intro rest
  cases flag <;> rfl

def stateImage (gap : Fin width → Byte) (s : State) : List Byte :=
  List.flatten [
    little s.pc,
    wordsImage s.x,
    wordsImage s.csr,
    little s.mhartid,
    little s.status.toWord,
    List.ofFn gap,
    little s.instructionCounter,
    little s.pendingTval,
    little s.pendingException,
    little (flagWord s.hasPendingException),
    little s.privilege,
    little s.loadReservation,
    (List.ofFn fun i => little (s.pcHistory i)).flatten]

/-- `fread(state, sizeof(State), 1, f)`, after which `memory_map` is put back. -/
def readState (width : Nat) (oldState : State) : Reader Byte State := do
  let pc ← readLittle
  let x ← readWords 5
  let csr ← readWords 12
  let mhartid ← readLittle
  let status ← readStatus
  let _ ← take width
  let instructionCounter ← readLittle
  let pendingTval ← readLittle
  let pendingException ← readLittle
  let hasPendingException ← readLittle >>= fun value => pure (value != 0)
  let privilege ← readLittle
  let loadReservation ← readLittle
  let pcHistory ← table readLittle pcHistoryDepth
  pure { oldState with
    pc, x, csr, mhartid, status, instructionCounter, pendingTval, pendingException
    hasPendingException, privilege, loadReservation, pcHistory }

/-- The bytes of a range, from `phys_mem_ptr` on. -/
def rangeBytes (s : State) (buffer : Nat) (range : MemoryRange) : List Byte :=
  (List.range range.size.toNat).map (s.ram buffer)

/-- The loop of `save` over the ranges from position `i` on. -/
def saveRanges (s : State) : Nat → List MemoryRange → List Byte
  | _, [] => []
  | i, range :: ranges =>
    if !range.isRam then saveRanges s (i + 1) ranges
    else little range.address ++ (little range.size ++ (rangeBytes s i range ++
      saveRanges s (i + 1) ranges))

def save (gap : Fin width → Byte) (s : State) : List Byte :=
  stateImage gap s ++ saveRanges s 0 s.memoryMap

def fillBuffer (s : State) (buffer : Nat) (bytes : List Byte) : State :=
  { s with ram := Function.update s.ram buffer fun k => bytes.getD k (s.ram buffer k) }

/-- The loop of `load`. `range` is a copy, so `address` and `size` come back into the copy
only; more bytes than the buffer has are no result. -/
def loadRanges : Nat → List MemoryRange → State → Reader Byte State
  | _, [], s => pure s
  | i, range :: ranges, s =>
    if !range.isRam then loadRanges (i + 1) ranges s
    else do
      let _address ← readLittle
      let size ← readLittle
      let bytes ← take size.toNat
      if range.size < size then failure
      else loadRanges (i + 1) ranges (fillBuffer s i bytes)

def load (width : Nat) (oldState : State) : Reader Byte State := do
  let s ← readState width oldState
  loadRanges 0 s.memoryMap s

/-- The fields of `State` of `s`, with what the pointers of `oldState` reach. -/
def withFields (s oldState : State) : State :=
  { s with
    memoryMap := oldState.memoryMap
    ram := oldState.ram
    vm := oldState.vm
    uart := oldState.uart
    console := oldState.console
    traps := oldState.traps }

theorem readState_reads (gap : Fin width → Byte) (s oldState : State) :
    Reads (readState width oldState) (stateImage gap s) (withFields s oldState) := by
  have skipped : Reads (take width) (List.ofFn gap) (List.ofFn gap) := by
    simpa using reads_take (List.ofFn gap)
  simp only [stateImage,List.flatten_cons,List.flatten_nil]
  exact (reads_little s.pc).bind <| (reads_words s.x).bind <| (reads_words s.csr).bind <|
    (reads_little s.mhartid).bind <| (reads_status s.status).bind <| skipped.bind <|
    (reads_little s.instructionCounter).bind <| (reads_little s.pendingTval).bind <|
    (reads_little s.pendingException).bind <| (reads_flag s.hasPendingException).bind <|
    (reads_little s.privilege).bind <| (reads_little s.loadReservation).bind <|
    (reads_table reads_little _ s.pcHistory).bind <| reads_pure _

/-- A byte that one of the RAM ranges holds. -/
def inRam (ranges : List MemoryRange) (buffer offset : Nat) : Bool :=
  match ranges[buffer]? with
  | some range => range.isRam && decide (offset < range.size.toNat)
  | none => false

/-- The bytes of the ranges from position `i` on, taken over from `s`. -/
def withRanges (s : State) (i : Nat) (ranges : List MemoryRange) (t : State) : State :=
  { t with
    ram := fun j k => if i ≤ j ∧ inRam ranges (j - i) k then s.ram j k else t.ram j k }

theorem rangeBytes_length (s : State) (buffer : Nat) (range : MemoryRange) :
    (rangeBytes s buffer range).length = range.size.toNat := by
  simp [rangeBytes]

/-- The RAM of `withRanges`. -/
def mergeRam (saved : Nat → Nat → Byte) (i : Nat) (ranges : List MemoryRange)
    (ram : Nat → Nat → Byte) : Nat → Nat → Byte := fun j k =>
  if i ≤ j ∧ inRam ranges (j - i) k then saved j k else ram j k

/-- The first range, then the others. -/
theorem mergeRam_cons (saved : Nat → Nat → Byte) (i : Nat) (range : MemoryRange)
    (ranges : List MemoryRange) (ram : Nat → Nat → Byte) :
    mergeRam saved i (range :: ranges) ram =
      mergeRam saved (i + 1) ranges (if range.isRam then Function.update ram i fun k =>
        ((List.range range.size.toNat).map (saved i)).getD k (ram i k) else ram) := by
  funext j k
  rcases Nat.lt_trichotomy j i with before | rfl | after
  · have outside : ¬(i ≤ j ∧ inRam (range :: ranges) (j - i) k = true) := fun h => by omega
    have outside' : ¬(i + 1 ≤ j ∧ inRam ranges (j - (i + 1)) k = true) := fun h => by omega
    simp only [mergeRam,if_neg outside,if_neg outside']
    split
    next => exact (congrFun (Function.update_of_ne (by omega) ..) k).symm
    next => rfl
  · cases here : range.isRam
    · simp [mergeRam,inRam,here]
    · by_cases inside : k < range.size.toNat <;> simp [mergeRam,inRam,here,inside]
  · obtain ⟨d,rfl⟩ := Nat.exists_eq_add_of_lt after
    have back : i + d + 1 - (i + 1) = d := by omega
    have step : i + d + 1 - i = d + 1 := by omega
    split <;> simp [mergeRam,inRam,back,step,show i + d + 1 ≠ i by omega,
      show i ≤ i + d + 1 by omega]

theorem withRanges_cons (s : State) (i : Nat) (range : MemoryRange) (ranges : List MemoryRange)
    (t : State) :
    withRanges s i (range :: ranges) t =
      withRanges s (i + 1) ranges (if range.isRam then fillBuffer t i (rangeBytes s i range) else t) := by
  change { t with ram := mergeRam s.ram i (range :: ranges) t.ram } = _
  rw [mergeRam_cons]
  split <;> rfl

/-- The loops take the same ranges in the same order, whatever stands behind them. -/
theorem loadRanges_reads (s : State) (ranges : List MemoryRange) (i : Nat) (t : State) :
    Reads (loadRanges i ranges t) (saveRanges s i ranges) (withRanges s i ranges t) := by
  induction ranges generalizing i t with
  | nil =>
    have same : withRanges s i [] t = t := by
      simp [withRanges,inRam]
    rw [same]
    exact reads_pure t
  | cons range ranges ih =>
    rw [withRanges_cons]
    simp only [loadRanges,saveRanges]
    cases range.isRam
    · exact ih (i + 1) t
    · have bytes : Reads (take range.size.toNat) (rangeBytes s i range) (rangeBytes s i range) := by
        rw [← rangeBytes_length s i range]
        exact reads_take _
      refine (reads_little range.address).bind <| (reads_little range.size).bind <| bytes.bind ?_
      rw [if_neg (BitVec.lt_irrefl range.size)]
      exact ih (i + 1) _

/-- What `load` of a file saved from `s` makes of `oldState`. -/
def restore (s oldState : State) : State :=
  withRanges s 0 oldState.memoryMap (withFields s oldState)

theorem load_reads (gap : Fin width → Byte) (s oldState : State)
    (sameMap : oldState.memoryMap = s.memoryMap) :
    Reads (load width oldState) (save gap s) (restore s oldState) := by
  have ranges := loadRanges_reads s oldState.memoryMap 0 (withFields s oldState)
  have saved : save gap s = stateImage gap s ++ saveRanges s 0 oldState.memoryMap := by
    rw [save,sameMap]
  rw [saved]
  exact (readState_reads gap s oldState).bind ranges

/-- `restored` is `oldState` with every field of `State` but `memory_map`, and every byte of
every RAM range, taken over from `s`. -/
structure Restores (s oldState restored : State) : Prop where
  fields : restored = { s with
    memoryMap := oldState.memoryMap
    ram := restored.ram
    vm := oldState.vm
    uart := oldState.uart
    console := oldState.console
    traps := oldState.traps }
  ram : ∀ i range, s.memoryMap[i]? = some range → range.isRam = true →
    ∀ k < range.size.toNat, restored.ram i k = s.ram i k
  others : ∀ i k, inRam s.memoryMap i k = false → restored.ram i k = oldState.ram i k

theorem restore_restores {s oldState : State} (sameMap : oldState.memoryMap = s.memoryMap) :
    Restores s oldState (restore s oldState) where
  fields := rfl
  ram := by
    intro i range here isRam k inside
    simp [restore,withRanges,sameMap,inRam,here,isRam,inside]
  others := by
    intro i k outside
    simp [restore,withRanges,withFields,sameMap,outside]

/-- A file saved from `s` and loaded into a machine with the same ranges is consumed to its
last byte and brings back the fields and the RAM of `s`. -/
theorem load_save (gap : Fin width → Byte) (s later : State)
    (sameMap : later.memoryMap = s.memoryMap) :
    ∃ restored, Reads (load width later) (save gap s) restored ∧ Restores s later restored :=
  ⟨restore s later,load_reads gap s later sameMap,restore_restores sameMap⟩

/-- RAM, a device and RAM again. -/
def mixedMap : MemoryMap :=
  [⟨0x80000000, 0x10, true, none, none⟩,
    ⟨0x2000000, 0xc0000, false, some .clintRead, some .clintWrite⟩,
    ⟨0x90000000, 0x20, true, none, none⟩]

theorem load_save_mixedMap :
    ∃ restored,
      Reads (load 12 { guest privM [] with pc := 4, memoryMap := mixedMap })
        (save (fun _ : Fin 12 => 0) { guest privU [0x13, 0x73] with memoryMap := mixedMap }) restored ∧
      Restores { guest privU [0x13, 0x73] with memoryMap := mixedMap }
        { guest privM [] with pc := 4, memoryMap := mixedMap } restored :=
  load_save _ _ _ rfl

end Emuriscv
