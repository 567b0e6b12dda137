import Emuriscv.BootHandoff
import Emuriscv.Segment
import Emuriscv.Snapshot

/-! `load` of `loadsave.c` for every file, byte by byte: what `fread` gets goes over the live
`State` and the buffers, and how much belongs to a range is what the file says. -/
namespace Emuriscv

open Codec Segment

/-- The place of `memory_map` in a `State`: on a 64-bit host, 4 bytes of padding and 8 of the
pointer. -/
structure StateLayout where
  padding : Nat
  pointerSize : Nat

namespace StateLayout

variable (layout : StateLayout)

def width : Nat := layout.padding + layout.pointerSize

/-- `offsetof(State, memory_map)`. -/
def memoryMap : Nat := 4 + 32 * 4 + 4096 * 4 + 4 + 4 + layout.padding

/-- `sizeof(State)`. -/
def size : Nat := layout.memoryMap + layout.pointerSize + 6 * 4 + pcHistoryDepth * 4

def IsPointer (k : Nat) : Prop := layout.memoryMap ≤ k ∧ k < layout.memoryMap + layout.pointerSize

instance (k : Nat) : Decidable (layout.IsPointer k) := inferInstanceAs (Decidable (_ ∧ _))

end StateLayout

/-- The bytes of `*state`, and those that `phys_mem_ptr` of each range leads to. -/
structure HostMemory where
  object : Nat → Byte
  ram : Nat → Nat → Byte

/-- `fread` of `n` bytes: those that the file has left are stored. -/
def fread (dst : Nat → Byte) (n : Nat) (file : List Byte) : (Nat → Byte) × List Byte :=
  (overlay dst 0 (file.take n), file.drop n)

/-- `fread` into a `uint32_t`. -/
def freadWord (value : Word) (file : List Byte) : Word × List Byte :=
  let (bytes,file) := fread (fun i => (little value).getD i 0) 4 file
  (bytes 3 ++ bytes 2 ++ bytes 1 ++ bytes 0, file)

namespace HostMemory

/-- `fread(state, sizeof(State), 1, f)`, after which `memory_map` is put back. -/
def loadState (layout : StateLayout) (oldState : Nat → Byte) (file : List Byte) :
    (Nat → Byte) × List Byte :=
  let (state,file) := fread oldState layout.size file
  (overlay state layout.memoryMap (slice oldState layout.memoryMap layout.pointerSize), file)

/-- The loop. `range` is a copy, so the size that counts is the one in the file. -/
def loadRanges : Nat → List MemoryRange → (Nat → Nat → Byte) → List Byte →
    Except Stop (Nat → Nat → Byte)
  | _, [], ram, _ => pure ram
  | i, range :: ranges, ram, file =>
    if !range.isRam then loadRanges (i + 1) ranges ram file
    else
      let (_address,file) := freadWord range.address file
      let (size,file) := freadWord range.size file
      let (bytes,rest) := fread (ram i) size.toNat file
      if range.size.toNat < (file.take size.toNat).length then throw .outOfBounds
      else loadRanges (i + 1) ranges (Function.update ram i bytes) rest

/-- `load`. The stream of a file that does not open is NULL. -/
def load (layout : StateLayout) (map : MemoryMap) (m : HostMemory) :
    Option (List Byte) → Except Stop HostMemory
  | none => throw .nullPointer
  | some file => do
    let (object,file) := loadState layout m.object file
    let ram ← loadRanges 0 map m.ram file
    pure ⟨object,ram⟩

end HostMemory

/-- For each RAM range its base, its size and its bytes. -/
def ramImage (ram : Nat → Nat → Byte) : Nat → List MemoryRange → List Byte
  | _, [] => []
  | i, range :: ranges =>
    if !range.isRam then ramImage ram (i + 1) ranges
    else little range.address ++ (little range.size ++ ((List.range range.size.toNat).map (ram i) ++
      ramImage ram (i + 1) ranges))

structure SnapshotOf (layout : StateLayout) where
  object : List Byte
  ram : Nat → Nat → Byte
  complete : object.length = layout.size

namespace SnapshotOf

variable {layout : StateLayout}

/-- The snapshot as a file, for the ranges of a map. -/
def bytes (snapshot : SnapshotOf layout) (map : MemoryMap) : List Byte :=
  snapshot.object ++ ramImage snapshot.ram 0 map

/-- `after` is `before` with the fields of the snapshot but `memory_map`, and with its RAM. -/
structure Restored (snapshot : SnapshotOf layout) (map : MemoryMap) (before after : HostMemory) :
    Prop where
  fields : ∀ k < layout.size, ¬layout.IsPointer k → snapshot.object[k]? = some (after.object k)
  pointer : ∀ k, layout.IsPointer k → after.object k = before.object k
  ram : ∀ i k, inRam map i k = true → after.ram i k = snapshot.ram i k
  others : ∀ i k, inRam map i k = false → after.ram i k = before.ram i k

end SnapshotOf

/-- `load` returns, and a complete snapshot for the ranges of the map has been restored, or
nothing has changed. -/
def LoadsSafely (layout : StateLayout) (map : MemoryMap) (before : HostMemory)
    (file : Option (List Byte)) : Prop :=
  ∃ after, before.load layout map file = .ok after ∧
    (after = before ∨ ∃ (snapshot : SnapshotOf layout) (rest : List Byte),
      file = some (snapshot.bytes map ++ rest) ∧ snapshot.Restored map before after)

/-- The size that the file gives for a range. -/
def fileSize (range : MemoryRange) (file : List Byte) : Nat :=
  (freadWord range.size (file.drop 4)).1.toNat

/-- The bytes that the file has for a range. -/
def rangeData (range : MemoryRange) (file : List Byte) : List Byte :=
  (file.drop 8).take (fileSize range file)

def behindRange (range : MemoryRange) (file : List Byte) : List Byte :=
  (file.drop 8).drop (fileSize range file)

/-- What the file has for a range is not longer than the range, and is there already. -/
def Repeats (ram : Nat → Nat → Byte) : Nat → List MemoryRange → List Byte → Prop
  | _, [], _ => True
  | i, range :: ranges, file =>
    if !range.isRam then Repeats ram (i + 1) ranges file
    else (rangeData range file).length ≤ range.size.toNat ∧ Holds (ram i) 0 (rangeData range file) ∧
      Repeats ram (i + 1) ranges (behindRange range file)

/-- A file that starts with a complete snapshot for the ranges of the map, or that has, as far
as it goes, the bytes that are there already. -/
inductive SafeFile (layout : StateLayout) (map : MemoryMap) (m : HostMemory) : List Byte → Prop
  | complete (snapshot : SnapshotOf layout) (rest : List Byte) :
      SafeFile layout map m (snapshot.bytes map ++ rest)
  | same (file : List Byte)
      (object : ∀ k < layout.size, ¬layout.IsPointer k → ∀ b, file[k]? = some b → b = m.object k)
      (ranges : Repeats m.ram 0 map (file.drop layout.size)) : SafeFile layout map m file

namespace HostMemory

section Ranges

variable {range : MemoryRange} {ranges : List MemoryRange} {ram ram' : Nat → Nat → Byte}
variable {i : Nat} {file : List Byte}

theorem loadRanges_device (device : range.isRam = false) :
    loadRanges i (range :: ranges) ram file = loadRanges (i + 1) ranges ram file := by
  simp [loadRanges,device]

theorem loadRanges_ram (isRam : range.isRam = true) :
    loadRanges i (range :: ranges) ram file =
      if range.size.toNat < (rangeData range file).length then .error .outOfBounds
      else loadRanges (i + 1) ranges
        (Function.update ram i (overlay (ram i) 0 (rangeData range file))) (behindRange range file) := by
  have behind : (file.drop 4).drop 4 = file.drop 8 := List.drop_drop
  simp only [loadRanges,isRam,freadWord,fread,rangeData,behindRange,fileSize,behind]
  rfl

/-- The later ranges have later buffers. -/
theorem loadRanges_before (loaded : loadRanges i ranges ram file = .ok ram') {j : Nat}
    (before : j < i) : ram' j = ram j := by
  induction ranges generalizing i ram file with
  | nil =>
    cases loaded
    rfl
  | cons range ranges ih =>
    cases isRam : range.isRam
    · rw [loadRanges_device isRam] at loaded
      exact ih loaded (by omega)
    · rw [loadRanges_ram isRam] at loaded
      split at loaded
      next => cases loaded
      next =>
        rw [ih loaded (by omega),Function.update_of_ne (by omega)]

/-- The loop changes nothing exactly where the file repeats what is there. -/
theorem loadRanges_same_iff : loadRanges i ranges ram file = .ok ram ↔ Repeats ram i ranges file := by
  induction ranges generalizing i file with
  | nil => simp [loadRanges,Repeats]
  | cons range ranges ih =>
    cases isRam : range.isRam
    · rw [loadRanges_device isRam,ih]
      simp [Repeats,isRam]
    · rw [loadRanges_ram isRam]
      by_cases long : range.size.toNat < (rangeData range file).length
      · simp [Repeats,isRam,long]
      · have kept (holds : Holds (ram i) 0 (rangeData range file)) :
            Function.update ram i (overlay (ram i) 0 (rangeData range file)) = ram := by
          rw [overlay_eq_iff.mpr holds,Function.update_eq_self]
        simp only [if_neg long,Repeats,isRam]
        constructor
        · intro loaded
          have stored := loadRanges_before loaded (Nat.lt_succ_self i)
          rw [Function.update_self] at stored
          have holds := overlay_eq_iff.mp stored.symm
          rw [kept holds] at loaded
          exact ⟨Nat.not_lt.mp long,holds,ih.mp loaded⟩
        · rintro ⟨_,holds,others⟩
          rw [kept holds]
          exact ih.mpr others

theorem freadWord_little (value word : Word) (rest : List Byte) :
    freadWord value (little word ++ rest) = (word,rest) := by
  simp [freadWord,fread,overlay,little,bytes_append]

/-- Behind a matching header stand the bytes of the range. -/
theorem range_image (base : Word) {data : List Byte} (size : data.length = range.size.toNat)
    (rest : List Byte) :
    rangeData range (little base ++ (little range.size ++ (data ++ rest))) = data ∧
      behindRange range (little base ++ (little range.size ++ (data ++ rest))) = rest := by
  have behind : (little base ++ (little range.size ++ (data ++ rest))).drop 8 = data ++ rest := rfl
  have four : (little base ++ (little range.size ++ (data ++ rest))).drop 4 =
      little range.size ++ (data ++ rest) := rfl
  rw [rangeData,behindRange,fileSize,behind,four,freadWord_little,← size]
  exact ⟨List.take_left,List.drop_left⟩

/-- From a complete file every range is filled. -/
theorem loadRanges_image (saved : Nat → Nat → Byte) (rest : List Byte) :
    loadRanges i ranges ram (ramImage saved i ranges ++ rest) = .ok (mergeRam saved i ranges ram) := by
  induction ranges generalizing i ram with
  | nil =>
    have same : mergeRam saved i [] ram = ram := by
      funext j k
      simp [mergeRam,inRam]
    rw [same]
    rfl
  | cons range ranges ih =>
    rw [mergeRam_cons]
    cases isRam : range.isRam
    · rw [loadRanges_device isRam]
      simpa [ramImage,isRam] using ih
    · have size : ((List.range range.size.toNat).map (saved i)).length = range.size.toNat := by simp
      obtain ⟨data,behind⟩ := range_image range.address size (ramImage saved (i + 1) ranges ++ rest)
      have whole : ramImage saved i (range :: ranges) ++ rest = little range.address ++
          (little range.size ++ ((List.range range.size.toNat).map (saved i) ++
            (ramImage saved (i + 1) ranges ++ rest))) := by
        simp [ramImage,isRam]
      rw [loadRanges_ram isRam,whole,data,behind,if_neg (by omega),ih,overlay_zero]
      rfl

end Ranges

section State

variable {layout : StateLayout} {state : Nat → Byte} {file : List Byte}

theorem loadState_pointer {k : Nat} (isPointer : layout.IsPointer k) :
    (loadState layout state file).1 k = state k := by
  have inside : k - layout.memoryMap <
      (slice state layout.memoryMap layout.pointerSize).length := by
    rw [slice_length]
    exact Nat.sub_lt_left_of_lt_add isPointer.1 isPointer.2
  have there : (slice state layout.memoryMap layout.pointerSize)[k - layout.memoryMap]? =
      some ((loadState layout state file).1 (layout.memoryMap + (k - layout.memoryMap))) :=
    overlay_holds _ inside
  rw [holds_slice _ _ inside,Nat.add_sub_cancel' isPointer.1] at there
  exact (Option.some.inj there).symm

theorem loadState_field {k : Nat} (field : ¬layout.IsPointer k) :
    (loadState layout state file).1 k = if k < layout.size then file.getD k (state k) else state k := by
  have outside : k < layout.memoryMap ∨
      layout.memoryMap + (slice state layout.memoryMap layout.pointerSize).length ≤ k := by
    rw [slice_length]
    rw [StateLayout.IsPointer] at field
    omega
  have kept : (loadState layout state file).1 k = overlay state 0 (file.take layout.size) k :=
    overlay_outside outside
  rw [kept,overlay_zero]
  split
  next inside => simp [inside]
  next beyond => simp [beyond]

/-- The object stays as it is where the file has the same fields. -/
theorem loadState_same_iff : (loadState layout state file).1 = state ↔
    ∀ k < layout.size, ¬layout.IsPointer k → ∀ b, file[k]? = some b → b = state k := by
  constructor
  · intro same k inside field b here
    have at' := congrFun same k
    rw [loadState_field field,if_pos inside,List.getD_eq_getElem?_getD,here] at at'
    exact at'
  · intro same
    funext k
    by_cases isPointer : layout.IsPointer k
    · exact loadState_pointer isPointer
    rw [loadState_field isPointer]
    split
    next inside =>
      rw [List.getD_eq_getElem?_getD]
      cases here : file[k]? with
      | none => rfl
      | some b => exact same k inside isPointer b here
    next => rfl

end State

end HostMemory

section Load

variable {layout : StateLayout} {map : MemoryMap} {m : HostMemory}

theorem load_some (content : List Byte) : m.load layout map (some content) =
    HostMemory.loadRanges 0 map m.ram (content.drop layout.size) >>= fun ram =>
      pure ⟨(HostMemory.loadState layout m.object content).1, ram⟩ := rfl

theorem load_eq_ok_iff {content : List Byte} {after : HostMemory} :
    m.load layout map (some content) = .ok after ↔
      (HostMemory.loadState layout m.object content).1 = after.object ∧
        HostMemory.loadRanges 0 map m.ram (content.drop layout.size) = .ok after.ram := by
  rw [load_some]
  constructor
  · intro loaded
    obtain ⟨ram,ranges,ok⟩ := bind_eq_ok.mp loaded
    cases ok
    exact ⟨rfl,ranges⟩
  · rcases after with ⟨state,ram⟩
    rintro ⟨rfl,ranges⟩
    exact bind_eq_ok.mpr ⟨ram,ranges,rfl⟩

/-- A complete snapshot is restored, whatever stands behind it. -/
theorem load_snapshot (snapshot : SnapshotOf layout) (rest : List Byte) :
    ∃ after, m.load layout map (some (snapshot.bytes map ++ rest)) = .ok after ∧
      snapshot.Restored map m after := by
  have whole : snapshot.bytes map ++ rest = snapshot.object ++ (ramImage snapshot.ram 0 map ++ rest) :=
    List.append_assoc ..
  have behind : (snapshot.bytes map ++ rest).drop layout.size = ramImage snapshot.ram 0 map ++ rest := by
    rw [whole,← snapshot.complete,List.drop_left]
  refine ⟨⟨(HostMemory.loadState layout m.object (snapshot.bytes map ++ rest)).1,
    mergeRam snapshot.ram 0 map m.ram⟩, load_eq_ok_iff.mpr ⟨rfl, ?_⟩, ?_, ?_, ?_, ?_⟩
  · rw [behind]
    exact HostMemory.loadRanges_image snapshot.ram rest
  · intro k inside field
    have inside' : k < snapshot.object.length := by
      rw [snapshot.complete]
      exact inside
    have here : (snapshot.bytes map ++ rest)[k]? = snapshot.object[k]? := by
      rw [whole,List.getElem?_append_left inside']
    change _ = some ((HostMemory.loadState layout m.object _).1 k)
    rw [HostMemory.loadState_field field,if_pos inside,List.getD_eq_getElem?_getD,here,
      List.getElem?_eq_getElem inside',Option.getD_some]
  · intro k isPointer
    exact HostMemory.loadState_pointer isPointer
  · intro i k inside
    simp [mergeRam,inside]
  · intro i k outside
    simp [mergeRam,outside]

/-- Nothing has changed exactly if the file has what was there. -/
theorem load_same_iff {content : List Byte} : m.load layout map (some content) = .ok m ↔
    (∀ k < layout.size, ¬layout.IsPointer k → ∀ b, content[k]? = some b → b = m.object k) ∧
      Repeats m.ram 0 map (content.drop layout.size) := by
  rw [load_eq_ok_iff,HostMemory.loadState_same_iff,HostMemory.loadRanges_same_iff]

/-- `load` notices nothing: it takes the file as it is. -/
theorem loadsSafely_iff {file : Option (List Byte)} :
    LoadsSafely layout map m file ↔ ∃ content, file = some content ∧ SafeFile layout map m content := by
  constructor
  · rintro ⟨after,loaded,same | ⟨snapshot,rest,whole,_⟩⟩
    · cases file with
      | none => cases loaded
      | some content =>
        rw [same] at loaded
        obtain ⟨object,ranges⟩ := load_same_iff.mp loaded
        exact ⟨content, rfl, .same content object ranges⟩
    · exact ⟨_, whole, .complete snapshot rest⟩
  · rintro ⟨_,rfl,safe⟩
    cases safe with
    | complete snapshot rest =>
      obtain ⟨after,loaded,restored⟩ := load_snapshot (m := m) snapshot rest
      exact ⟨after, loaded, .inr ⟨snapshot, rest, rfl, restored⟩⟩
    | same content object ranges =>
      exact ⟨m, load_same_iff.mpr ⟨object,ranges⟩, .inl rfl⟩

end Load

section Saved

variable {layout : StateLayout}

/-- The memory of a process whose `State` is `s`. -/
def hostMemory (gap : Fin width → Byte) (s : State) : HostMemory :=
  ⟨fun k => (stateImage gap s).getD k 0,s.ram⟩

theorem littles_length (n : Nat) (f : Fin n → Word) :
    (List.ofFn fun i => little (f i)).flatten.length = n * 4 := by
  simp [List.length_flatten,Function.comp_def]

theorem wordsImage_length (f : BitVec n → Word) : (wordsImage f).length = 2 ^ n * 4 :=
  littles_length _ _

theorem stateImage_length (gap : Fin layout.width → Byte) (s : State) :
    (stateImage gap s).length = layout.size := by
  simp only [stateImage,List.flatten_cons,List.flatten_nil,List.length_append,wordsImage_length,
    littles_length,little_length,List.length_ofFn,List.length_nil,StateLayout.size,
    StateLayout.memoryMap]
  rw [StateLayout.width]
  omega

theorem ramImage_eq (s : State) (i : Nat) (ranges : List MemoryRange) :
    ramImage s.ram i ranges = saveRanges s i ranges := by
  induction ranges generalizing i with
  | nil => rfl
  | cons range ranges ih =>
    rw [ramImage,saveRanges,ih,rangeBytes]

def savedSnapshot (gap : Fin layout.width → Byte) (s : State) : SnapshotOf layout :=
  ⟨stateImage gap s, s.ram, stateImage_length gap s⟩

theorem savedSnapshot_bytes (gap : Fin layout.width → Byte) (s : State) :
    (savedSnapshot gap s).bytes s.memoryMap = save gap s := by
  rw [save,← ramImage_eq]
  rfl

/-- On a file that `save` has written, the bytes are those of `restore`. -/
theorem load_saved (gap gap' : Fin layout.width → Byte) (s later : State)
    (sameMap : later.memoryMap = s.memoryMap) (rest : List Byte) :
    ∃ after, (hostMemory gap' later).load layout later.memoryMap (some (save gap s ++ rest)) =
        .ok after ∧ after.ram = (restore s later).ram ∧
      (∀ k < layout.size, ¬layout.IsPointer k →
        after.object k = (hostMemory gap (restore s later)).object k) ∧
      ∀ k, layout.IsPointer k → after.object k = (hostMemory gap' later).object k := by
  obtain ⟨after,loaded,restored⟩ : ∃ after, (hostMemory gap' later).load layout later.memoryMap
      (some ((savedSnapshot gap s).bytes later.memoryMap ++ rest)) = .ok after ∧
        (savedSnapshot gap s).Restored later.memoryMap (hostMemory gap' later) after :=
    load_snapshot _ rest
  rw [sameMap,savedSnapshot_bytes,← sameMap] at loaded
  refine ⟨after, loaded, ?_, ?_, restored.pointer⟩
  · funext i k
    have merged : (restore s later).ram i k =
        if inRam later.memoryMap i k then s.ram i k else later.ram i k := by
      simp [restore,withRanges,withFields]
    rw [merged]
    split
    next inside => exact restored.ram i k inside
    next outside => exact restored.others i k (by simpa using outside)
  · intro k inside field
    have image : stateImage gap (restore s later) = stateImage gap s := rfl
    have there := restored.fields k inside field
    change (stateImage gap s)[k]? = _ at there
    change _ = (stateImage gap (restore s later)).getD k 0
    rw [image,List.getD_eq_getElem?_getD,there,Option.getD_some]

end Saved

/-- The size that a file gives is not compared with the range's. -/
theorem load_overrun {layout : StateLayout} {map : MemoryMap} {m : HostMemory} {range : MemoryRange}
    (isRam : range.isRam = true) {object data : List Byte} (complete : object.length = layout.size)
    (size : Word) (whole : data.length = size.toNat) (large : range.size < size) (base : Word) :
    m.load layout (range :: map) (some (object ++ (little base ++ (little size ++ data)))) =
      .error .outOfBounds := by
  have behind : (object ++ (little base ++ (little size ++ data))).drop layout.size =
      little base ++ (little size ++ data) := by
    rw [← complete,List.drop_left]
  have four : (little base ++ (little size ++ data)).drop 4 = little size ++ data := rfl
  have found : rangeData range (little base ++ (little size ++ data)) = data := by
    rw [rangeData,fileSize,four,HostMemory.freadWord_little,← whole]
    exact List.take_length
  have long : range.size.toNat < (rangeData range (little base ++ (little size ++ data))).length := by
    rw [found,whole]
    exact large
  have stopped : HostMemory.loadRanges 0 (range :: map) m.ram
      (little base ++ (little size ++ data)) = .error .outOfBounds := by
    rw [HostMemory.loadRanges_ram isRam,if_pos long]
  rw [load_some,behind,stopped]
  rfl

/-- A header for one byte more than RAM has, and the bytes for it. -/
def overlongSnapshot : List Byte :=
  List.replicate (StateLayout.size ⟨4,8⟩) 0 ++ (little ramBaseAddr ++ (little (vmMemorySize + 1) ++
    List.replicate (vmMemorySize + 1).toNat 0))

/-- A missing file, a file that is too long for RAM, and a file of one byte. -/
theorem load_harms :
    (hostMemory (fun _ : Fin 12 => 0) handoffMachine).load ⟨4,8⟩ linuxMemoryMap none =
        .error .nullPointer ∧
      (hostMemory (fun _ : Fin 12 => 0) handoffMachine).load ⟨4,8⟩ linuxMemoryMap
        (some overlongSnapshot) = .error .outOfBounds ∧
      ¬LoadsSafely ⟨4,8⟩ linuxMemoryMap (hostMemory (fun _ : Fin 12 => 0) handoffMachine) (some [1]) := by
  refine ⟨rfl, ?_, ?_⟩
  · exact load_overrun rfl List.length_replicate _ List.length_replicate (by decide) _
  · rintro ⟨after,loaded,same | ⟨snapshot,rest,whole,_⟩⟩
    · rw [same] at loaded
      have pc := (load_same_iff.mp loaded).1 0 (by decide) (by decide) 1 rfl
      exact absurd pc (by decide)
    · have lengths := congrArg List.length (Option.some.inj whole)
      have size : StateLayout.size ⟨4,8⟩ = 16592 := by decide
      rw [SnapshotOf.bytes,List.length_append,List.length_append,snapshot.complete,size] at lengths
      change 1 = _ at lengths
      omega

end Emuriscv
