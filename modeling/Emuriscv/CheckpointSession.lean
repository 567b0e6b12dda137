import Emuriscv.MonitorSession
import Emuriscv.PageIsolation
import Emuriscv.Rewinding
import Emuriscv.SnapshotFile

/-! A session with the monitor that saves and loads. A program that keeps to RAM is where it was
when the file was saved, in every bit, so that the lines of a session move back and forth on its run. -/
namespace Emuriscv

open Codec LabelledRun Segment

/-- Bytes behind the ranges, which the process does not have. -/
structure KeepsOutside (s t : State) : Prop where
  map : t.memoryMap = s.memoryMap
  ram : ∀ i k, inRam s.memoryMap i k = false → t.ram i k = s.ram i k

namespace KeepsOutside

variable {s t u : State}

theorem refl (s : State) : KeepsOutside s s := ⟨rfl, fun _ _ _ => rfl⟩

theorem trans (first : KeepsOutside s t) (second : KeepsOutside t u) : KeepsOutside s u := by
  refine ⟨second.map.trans first.map, fun i k outside => ?_⟩
  rw [second.ram i k (by rwa [first.map]),first.ram i k outside]

theorem of_ram (map : t.memoryMap = s.memoryMap) (ram : t.ram = s.ram) : KeepsOutside s t :=
  ⟨map, fun _ _ _ => by rw [ram]⟩

end KeepsOutside

section Extent

variable [Platform] {s t : State}

omit [Platform] in
theorem inRam_of_range {map : MemoryMap} {range : MemoryRange} (here : map[i]? = some range)
    (ram : range.isRam = true) (inside : k < range.size.toNat) : inRam map i k = true := by
  simp [inRam,here,ram,inside]

omit [Platform] in
theorem wordLocation_inRam {map : MemoryMap} (located : wordLocation map address = some p)
    (has : p.Has i k) : inRam map i k = true := by
  obtain ⟨range,found,ram,rfl,fits⟩ := wordLocation_some located
  obtain ⟨rfl,low,high⟩ := has
  obtain ⟨entry,_,_⟩ := getPhysMemRange_spec found
  dsimp only at low high fits
  exact inRam_of_range entry ram (by omega)

omit [Platform] in
theorem translateAddress_outside (translated : translateAddress s a accessType = .ok translation) :
    KeepsOutside s translation.state := by
  rcases translateAddress_ok translated with
    ⟨_,rfl⟩ | ⟨_,_,rfl⟩ | ⟨_,_,rfl⟩ | ⟨level,address,entry,_,leaf,rfl⟩
  · exact .refl s
  · exact .refl s
  · exact .refl s
  · obtain ⟨_,_,p,located,_⟩ := busWalk_leaf_located leaf
    dsimp only
    rw [markEntry_located located]
    refine ⟨putWord_memoryMap .., fun i k outside => (putWord_ram ..).trans (if_neg fun has => ?_)⟩
    rw [wordLocation_inRam located has] at outside
    contradiction

theorem Move.outside (move : Move s t) : KeepsOutside s t := by
  have map := move.setting.map
  cases move with
  | hart only =>
    refine .of_ram map ?_
    rw [only]
  | translated translated => exact translateAddress_outside translated
  | @stored a v range offset sizeLog2 value _ resolves ram size ran =>
    obtain ⟨_,_,translated,_,rfl,found,_⟩ := resolves.translated
    have before := translateAddress_outside translated
    refine before.trans ⟨map.trans before.map.symm, fun i k outside => ?_⟩
    obtain ⟨entry,_,_⟩ := getPhysMemRange_spec found
    have inside := (writeCommonRam_returns_iff _ _ _ value size).mp ⟨t,ran⟩
    rw [writeCommonRam_bytes _ _ _ value size inside] at ran
    rw [← Except.ok.inj ran]
    refine storeAt_outside ?_
    rintro ⟨rfl,_,high⟩
    rw [FlatMemory.toBytes_length] at high
    rw [before.map,inRam_of_range entry ram ?_] at outside
    · contradiction
    · rw [bufferSize_eq (before.map ▸ entry)] at inside
      omega
  | @device a v range offset value _ resolves device ran =>
    obtain ⟨_,_,translated,_,rfl,_⟩ := resolves.translated
    have before := translateAddress_outside translated
    refine before.trans (.of_ram ?_ (callWrite_frame ran).ram)
    rw [(callWrite_frame ran).rest]

theorem emulateOp_outside (stepped : emulateOp s = .ok t) : KeepsOutside s t := by
  obtain ⟨u,moves,settles⟩ := emulateOp_moves stepped
  have moved := moves.induct (P := KeepsOutside s) (.refl s) fun _ _ before move =>
    before.trans move.outside
  refine moved.trans (.of_ram ?_ ?_) <;> rw [settles]

end Extent

/-- `load` in a process whose `State` has `gap` between its fields. The file may have a number there
that is no status. -/
def loadFile (layout : StateLayout) (gap : Fin layout.width → Byte) (s : State)
    (file : Option (List Byte)) : Except Stop State := do
  let after ← (hostMemory gap s).load layout s.memoryMap file
  match readState layout.width s (slice after.object 0 layout.size) with
  | some (t,_) => pure { t with ram := after.ram }
  | none => throw .uninitialized

section Files

variable {layout : StateLayout} {s t : State}

theorem stateImage_split (layout : StateLayout) (s : State) :
    ∃ front back : List Byte, front.length + layout.padding = layout.memoryMap ∧
      ∀ gap : Fin layout.width → Byte, stateImage gap s = front ++ (List.ofFn gap ++ back) := by
  let front := [little s.pc, wordsImage s.x, wordsImage s.csr, little s.mhartid, little s.status.toWord]
  let back := [little s.instructionCounter, little s.pendingTval, little s.pendingException,
    little (flagWord s.hasPendingException), little s.privilege, little s.loadReservation,
    (List.ofFn fun i => little (s.pcHistory i)).flatten]
  refine ⟨front.flatten, back.flatten, ?_, fun gap => ?_⟩
  · simp only [front,List.flatten_cons,List.flatten_nil,List.length_append,wordsImage_length,
      little_length,List.length_nil,StateLayout.memoryMap]
    omega
  · change (front ++ List.ofFn gap :: back).flatten = _
    exact List.flatten_append.trans (congrArg _ List.flatten_cons)

/-- An object with the fields of a state is an image of the state. -/
theorem stateImage_of_fields {object : Nat → Byte} (gap : Fin layout.width → Byte)
    (fields : ∀ k < layout.size, ¬layout.IsPointer k → object k = (hostMemory gap s).object k) :
    ∃ gap' : Fin layout.width → Byte, slice object 0 layout.size = stateImage gap' s := by
  obtain ⟨front,back,place,split⟩ := stateImage_split layout s
  let gap' : Fin layout.width → Byte := fun i => object (front.length + i)
  have whole (g : Fin layout.width → Byte) := stateImage_length g s
  refine ⟨gap', List.ext_getElem? fun k => ?_⟩
  by_cases inside : k < layout.size
  · have there : (slice object 0 layout.size)[k]? = some (object k) := by simp [slice,inside]
    rw [there,split]
    by_cases between : front.length ≤ k ∧ k < front.length + layout.width
    · rw [List.getElem?_append_right between.1,
        List.getElem?_append_left (by rw [List.length_ofFn]; omega),List.getElem?_ofFn,dif_pos (by omega)]
      simp [gap',Nat.add_sub_cancel' between.1]
    · have field : ¬layout.IsPointer k := by
        rintro ⟨low,high⟩
        rw [StateLayout.width] at between
        omega
      have same : (front ++ (List.ofFn gap' ++ back))[k]? = (front ++ (List.ofFn gap ++ back))[k]? := by
        simp only [List.getElem?_append,List.length_ofFn]
        split
        next => rfl
        next behind => rw [if_neg (by omega),if_neg (by omega)]
      have stored : k < (stateImage gap s).length := by rwa [whole gap]
      rw [same,← split,fields k inside field]
      simp [hostMemory,stored]
  · rw [List.getElem?_eq_none (by simpa using inside),
      List.getElem?_eq_none (by rw [whole gap']; omega)]

/-- A file that has been saved brings back the fields and the ranges. -/
theorem loadFile_saved (gap gap' : Fin layout.width → Byte) (map : t.memoryMap = s.memoryMap) :
    loadFile layout gap' t (some (save gap s)) = .ok (restore s t) := by
  obtain ⟨after,loaded,ram,fields,_⟩ := load_saved gap gap' s t map []
  obtain ⟨gap'',image⟩ := stateImage_of_fields gap fields
  rw [List.append_nil] at loaded
  have read := readState_reads gap'' (restore s t) t []
  rw [List.append_nil] at read
  rw [loadFile,loaded,ok_bind,image,read]
  dsimp only
  rw [ram]
  rfl

/-- In a state that differs from the saved one in nothing that a file lacks, all of it is back. -/
theorem restore_same (outside : KeepsOutside s t) (vm : t.vm = s.vm) (uart : t.uart = s.uart)
    (console : t.console = s.console) (traps : t.traps = s.traps) : restore s t = s := by
  have ram : (restore s t).ram = s.ram := by
    funext i k
    simp only [restore,withRanges,withFields,Nat.zero_le,true_and,Nat.sub_zero,outside.map]
    split
    next => rfl
    next other => exact outside.ram i k (eq_false_of_ne_true other)
  have rest : restore s t = { s with
      memoryMap := t.memoryMap, ram := (restore s t).ram, vm := t.vm, uart := t.uart
      console := t.console, traps := t.traps } := rfl
  rw [rest,ram,outside.map,vm,uart,console,traps]

end Files

namespace Monitor

open Numeral Rewinding

/-- What the files hold. A name leads to one of them, or it cannot be opened; two names may lead to
one. -/
abbrev Disk (φ : Type) := φ → Option (List Byte)

section Session

variable (sizeBits : Nat) (symbols : List Symbol) {φ : Type} [DecidableEq φ] (place : Text → Option φ)
  (layout : StateLayout)

/-- `fopen`. Neither `save` nor `load` looks whether it has returned NULL. -/
def openFile (name : Text) : Except Stop φ :=
  match place name with
  | some file => pure file
  | none => throw .nullPointer

/-- `load` reads from the disk; what `save` writes is `Action.written`. -/
def diskFiles (gap : Fin layout.width → Byte) (disk : Disk φ) : Files where
  save name _ := do
    let _ ← openFile place name
    pure ()
  load name s := do
    let file ← openFile place name
    loadFile layout gap s (disk file)

/-- The disk after a line. -/
def Action.written (gap : Fin layout.width → Byte) (s : State) (disk : Disk φ) : Action → Disk φ
  | .save name =>
    match place name with
    | some file => Function.update disk file (some (Emuriscv.save gap s))
    | none => disk
  | _ => disk

variable [Platform] (gap : Nat → Fin layout.width → Byte)

/-- `run_monitor` on a disk, in that many rounds. What `State` has between its fields may be
another in every round. -/
def runMonitorDisk : Nat → State → Disk φ → Text → Except Stop (State × Disk φ × Text)
  | 0, _, _, _ => throw .diverges
  | rounds + 1, s, disk, input => do
    let files := diskFiles place layout (gap rounds) disk
    let (status, t, rest) ← runMonitorLoop sizeBits symbols files s input
    let disk :=
      match interpret sizeBits (lineOf input) with
      | .ok action => action.written place layout (gap rounds) s disk
      | .error _ => disk
    if status ≠ 0 then pure (t,disk,rest) else runMonitorDisk rounds t disk rest

def diskSession (s : State) (disk : Disk φ) (input : Text) : Except Stop (State × Disk φ × Text) :=
  runMonitorDisk sizeBits symbols place layout gap (input.length + 1) s disk input

/-- What a line is to the run of the program, if it can be anything. -/
def Action.turn : Action → Option (Turn φ)
  | .write .. => none
  | .step count => some (.advance count)
  | .save name => (place name).map .keep
  | .load name => (place name).map .back
  | _ => some .look

/-- What only looks can be carried out where the session is. -/
def Looks (s : State) (session : Session φ) (action : Action) : Prop :=
  action.turn place = some .look → ∀ u, stepLoop session.position s = .ok u →
    Returns (action.perform sizeBits symbols noFiles u)

/-- Every line that only looks can. -/
def AllLook (s : State) : Session φ → List Action → Prop
  | _, [] => True
  | session, action :: rest => Looks sizeBits symbols place s session action ∧
    ∀ turn next, action.turn place = some turn → turn.apply session = some next →
      AllLook s next rest

end Session

/-- The machine gets that far without translation, and nothing changes but hart and memory. -/
def Steady [Platform] (s : State) (limit : Nat) : Prop :=
  ∀ n ≤ limit, ∃ u, stepLoop n s = .ok u ∧ ¬Walks u ∧ Programmed s u

/-- The machine and the files are where the session says. -/
structure Stands [Platform] (s : State) (empty : Disk φ) (layout : StateLayout) (session : Session φ)
    (t : State) (disk : Disk φ) : Prop where
  here : stepLoop session.position s = .ok t
  kept : session.kept file = some k → ∃ u, ∃ gap : Fin layout.width → Byte,
    stepLoop k s = .ok u ∧ disk file = some (Emuriscv.save gap u)
  others : session.kept file = none → disk file = empty file

section Positions

variable [Platform] {sizeBits : Nat} {symbols : List Symbol} {φ : Type} [DecidableEq φ]
  {place : Text → Option φ} {layout : StateLayout} {s t u v : State} {empty disk : Disk φ}
  {session next : Session φ} {action : Action} {turn : Turn φ}

theorem stepLoop_outside (ran : stepLoop n s = .ok t) : KeepsOutside s t := by
  induction n generalizing s with
  | zero => exact Except.ok.inj ran ▸ .refl s
  | succ n ih =>
    obtain ⟨u,first,rest⟩ := bind_eq_ok.mp ran
    exact (emulateOp_outside first).trans (ih rest)

/-- Two states of the run differ in nothing that a file lacks. -/
theorem restore_reached (steady : Steady s limit) (below : m ≤ limit) (below' : n ≤ limit)
    (ran : stepLoop m s = .ok u) (ran' : stepLoop n s = .ok t) : restore u t = u := by
  obtain ⟨_,again,_,first⟩ := steady m below
  obtain ⟨_,again',_,second⟩ := steady n below'
  rw [← Except.ok.inj (ran.symm.trans again)] at first
  rw [← Except.ok.inj (ran'.symm.trans again')] at second
  have outside := stepLoop_outside ran
  have outside' := stepLoop_outside ran'
  refine restore_same ⟨outside'.map.trans outside.map.symm, fun i k none => ?_⟩ ?_ ?_ ?_ ?_
  · rw [outside.map] at none
    exact (outside'.ram i k none).trans (outside.ram i k none).symm
  all_goals rw [first.rest,second.rest]

omit [DecidableEq φ] in
theorem perform_noFiles (looks : action.turn place = some .look) (files : Files) :
    action.perform sizeBits symbols files t = action.perform sizeBits symbols noFiles t := by
  cases action <;> first | rfl | simp [Action.turn] at looks

omit [Platform] [DecidableEq φ] in
theorem Action.observes_of_look (looks : action.turn place = some .look) :
    action.Observes ∧ action.stepped = 0 := by
  cases action <;> simp [Action.turn,Action.Observes,Action.stepped] at looks ⊢

omit [Platform] [DecidableEq φ] in
theorem Action.turn_advance (turned : action.turn place = some (.advance count)) :
    action = .step count := by
  cases action <;> simp_all [Action.turn]

omit [Platform] [DecidableEq φ] in
theorem Action.turn_keep (turned : action.turn place = some (.keep file)) :
    ∃ name, action = .save name ∧ place name = some file := by
  cases action <;> simp_all [Action.turn]

omit [Platform] [DecidableEq φ] in
theorem Action.turn_back (turned : action.turn place = some (.back file)) :
    ∃ name, action = .load name ∧ place name = some file := by
  cases action <;> simp_all [Action.turn]

omit [DecidableEq φ] in
/-- What a line other than a look does. -/
theorem performs_iff (performed : action.perform sizeBits symbols files t = .ok u)
    (other : action.turn place ≠ some .look) (v : State) :
    action.perform sizeBits symbols files t = .ok v ↔
      Looks sizeBits symbols place s session action ∧ v = u := by
  rw [performed]
  constructor
  · intro same
    exact ⟨fun looks => absurd looks other, (Except.ok.inj same).symm⟩
  · rintro ⟨_,rfl⟩
    rfl

omit [DecidableEq φ] in
/-- A look leaves everything as it is. -/
theorem Stands.look (steady : Steady s limit) (within : session.Within limit)
    (stands : Stands s empty layout session t disk) (looks : action.turn place = some .look)
    (files : Files) (v : State) : action.perform sizeBits symbols files t = .ok v ↔
      Looks sizeBits symbols place s session action ∧ v = t := by
  obtain ⟨observes,still⟩ := Action.observes_of_look looks
  obtain ⟨_,ran,direct,_⟩ := steady _ within.position
  rw [Except.ok.inj (ran.symm.trans stands.here)] at direct
  have unmoved {v : State} (performed : action.perform sizeBits symbols files t = .ok v) : v = t := by
    have steps := observes.perform direct performed
    rw [still] at steps
    exact (Except.ok.inj steps).symm
  constructor
  · intro performed
    obtain rfl := unmoved performed
    refine ⟨fun _ u reached => ?_, rfl⟩
    rw [← Except.ok.inj (stands.here.symm.trans reached),← perform_noFiles looks files]
    exact ⟨_,performed⟩
  · rintro ⟨shown,rfl⟩
    obtain ⟨v,performed⟩ := shown looks _ stands.here
    rw [← perform_noFiles looks files] at performed
    rwa [unmoved performed] at performed

/-- A file holds the position at which it has been written. -/
theorem Stands.keep (stands : Stands s empty layout session t disk) (file : φ)
    (gap : Fin layout.width → Byte) :
    Stands s empty layout
      { session with kept := Function.update session.kept file (some session.position) } t
      (Function.update disk file (some (Emuriscv.save gap t))) := by
  refine ⟨stands.here, fun {other k} kept => ?_, fun {other} unkept => ?_⟩
  · dsimp only at kept
    rw [Function.update_apply] at kept ⊢
    split at kept
    next here =>
      rw [if_pos here,← Option.some.inj kept]
      exact ⟨t, gap, stands.here, rfl⟩
    next elsewhere =>
      rw [if_neg elsewhere]
      exact stands.kept kept
  · dsimp only at unkept
    rw [Function.update_apply] at unkept ⊢
    split at unkept
    next => contradiction
    next elsewhere =>
      rw [if_neg elsewhere]
      exact stands.others unkept

variable (sizeBits symbols) in
/-- A line takes the machine and the files where it takes the session. -/
theorem Stands.perform (steady : Steady s limit) (within : session.Within limit)
    (stands : Stands s empty layout session t disk) (turned : action.turn place = some turn)
    (applied : turn.apply session = some next) (below : next.position ≤ limit)
    (gap : Fin layout.width → Byte) :
    ∃ u, Stands s empty layout next u (action.written place layout gap t disk) ∧
      ∀ v, action.perform sizeBits symbols (diskFiles place layout gap disk) t = .ok v ↔
        Looks sizeBits symbols place s session action ∧ v = u := by
  cases turn with
  | look =>
    obtain rfl := Option.some.inj applied
    have written : action.written place layout gap t disk = disk := by
      cases action <;> first | rfl | simp [Action.turn] at turned
    rw [written]
    exact ⟨t, stands, stands.look steady within turned _⟩
  | advance count =>
    obtain rfl := Option.some.inj applied
    obtain rfl := Action.turn_advance turned
    obtain ⟨u,ran,_,_⟩ := steady _ below
    have steps : stepLoop count t = .ok u := by
      rw [stepLoop_add,stands.here] at ran
      exact ran
    exact ⟨u, ⟨ran, stands.kept, stands.others⟩, performs_iff steps (by simp [turned])⟩
  | keep file =>
    obtain rfl := Option.some.inj applied
    obtain ⟨name,rfl,here⟩ := Action.turn_keep turned
    have written : Action.written place layout gap t disk (.save name) =
        Function.update disk file (some (Emuriscv.save gap t)) := by rw [Action.written,here]
    have performed : (Action.save name).perform sizeBits symbols (diskFiles place layout gap disk) t =
        .ok t := by
      simp only [Action.perform,diskFiles,openFile,here]
      rfl
    rw [written]
    exact ⟨t, stands.keep file gap, performs_iff performed (by simp [turned])⟩
  | back file =>
    obtain ⟨k,kept,rfl⟩ := Option.map_eq_some_iff.mp applied
    obtain ⟨name,rfl,here⟩ := Action.turn_back turned
    obtain ⟨u,gap',ran,held⟩ := stands.kept kept
    have back := restore_reached steady below within.position ran stands.here
    have map := (stepLoop_outside stands.here).map.trans (stepLoop_outside ran).map.symm
    have performed : (Action.load name).perform sizeBits symbols (diskFiles place layout gap disk) t =
        .ok u := by
      simp only [Action.perform,diskFiles,openFile,here]
      change loadFile layout gap t (disk file) = _
      rw [held,loadFile_saved gap' gap map,back]
    exact ⟨u, ⟨ran, stands.kept, stands.others⟩, performs_iff performed (by simp [turned])⟩

theorem runMonitorDisk_eq {gap : Nat → Fin layout.width → Byte} (some : input ≠ [])
    (read : interpret sizeBits (lineOf input) = .ok action) (rounds : Nat) :
    runMonitorDisk sizeBits symbols place layout gap (rounds + 1) t disk input =
      action.perform sizeBits symbols (diskFiles place layout (gap rounds) disk) t >>= fun u =>
        let disk' := action.written place layout (gap rounds) t disk
        if action = .quit then pure (u,disk',(fgets 63 input).2)
        else runMonitorDisk sizeBits symbols place layout gap rounds u disk' (fgets 63 input).2 := by
  rw [runMonitorDisk]
  dsimp only
  rw [runMonitorLoop_eq sizeBits symbols _ t some read,read]
  cases action.perform sizeBits symbols (diskFiles place layout (gap rounds) disk) t with
  | error e => rfl
  | ok u =>
    by_cases quit : action = .quit
    · simp [Except.map,quit]
    · simp [Except.map,quit]

variable (sizeBits symbols) in
/-- A session goes where its lines take it. -/
theorem Stands.rounds (gap : Nat → Fin layout.width → Byte) {last : Session φ}
    (steady : Steady s limit) (typed : Typed sizeBits input actions rest)
    (turned : List.Forall₂ (fun action turn => action.turn place = some turn) actions turns)
    (within : session.Within limit) (stands : Stands s empty layout session t disk)
    (leads : Leads limit session turns last) {rounds : Nat} (enough : input.length < rounds) :
    ∃ u disk', Stands s empty layout last u disk' ∧ ∀ outcome,
      runMonitorDisk sizeBits symbols place layout gap rounds t disk input = .ok outcome ↔
        AllLook sizeBits symbols place s session actions ∧ outcome = (u,disk',rest) := by
  have single {t : State} {disk : Disk φ} (outcome : State × Disk φ × Text) (rest : Text) :
      Except.ok (ε := Stop) (t,disk,rest) = .ok outcome ↔ True ∧ outcome = (t,disk,rest) := by
    rw [Except.ok.injEq,true_and,eq_comm]
  induction typed generalizing rounds session t disk turns with
  | ended =>
    cases rounds with
    | zero => contradiction
    | succ rounds =>
      cases turned
      cases leads
      exact ⟨t, disk, stands, fun outcome => single outcome []⟩
  | @quit input some read =>
    cases rounds with
    | zero => contradiction
    | succ rounds =>
      cases turned
      cases leads
      refine ⟨t, disk, stands, fun outcome => ?_⟩
      rw [runMonitorDisk_eq some read]
      exact single outcome _
  | @line input action actions rest some read more _ ih =>
    cases rounds with
    | zero => contradiction
    | succ rounds =>
      cases turned with
      | @cons _ turn _ turns first turned =>
        cases leads with
        | cons applied below leads =>
          obtain ⟨u,there,performed⟩ :=
            stands.perform sizeBits symbols steady within first applied below (gap rounds)
          have shorter : (fgets 63 input).2.length < input.length := fgets_shorter 62 some
          obtain ⟨v,disk',last,ends⟩ := ih turned (within.apply applied below) there leads
            (show _ < rounds by omega)
          refine ⟨v, disk', last, fun outcome => ?_⟩
          rw [runMonitorDisk_eq some read,bind_eq_ok]
          simp only [performed,if_neg more,AllLook]
          constructor
          · rintro ⟨w,⟨looks,rfl⟩,ran⟩
            obtain ⟨rest,same⟩ := (ends outcome).mp ran
            refine ⟨⟨looks,fun turn' next' turned' applied' => ?_⟩,same⟩
            obtain rfl := Option.some.inj (first.symm.trans turned')
            obtain rfl := Option.some.inj (applied.symm.trans applied')
            exact rest
          · rintro ⟨⟨looks,rest⟩,same⟩
            exact ⟨u, ⟨looks,rfl⟩, (ends outcome).mpr ⟨rest _ _ first applied,same⟩⟩

end Positions

/-- A session on a program that runs without translation, with lines that show, step, save and load.
The program is in the end where the lines lead, the files hold it where it was when each of them was
last written, and the session ends so exactly if what it shows can be shown. -/
theorem diskSession_rewinds [Platform] {map : MemoryMap} (separate : Separate map)
    (refines : Refines (.bare map) h s) (quiet : Quiet s)
    (program : Path (Rv32ima.Step Encoded (InsideRam map)) h steps)
    (conforms : Every (fun h executed _ => Conforms h executed.1 executed.2) h steps)
    {φ : Type} [DecidableEq φ] {turns : List (Turn φ)} {last : Session φ} (symbols : List Symbol)
    (place : Text → Option φ) (layout : StateLayout) (gap : Nat → Fin layout.width → Byte) (disk : Disk φ)
    (typed : Typed sizeBits input actions rest)
    (turned : List.Forall₂ (fun action turn => action.turn place = some turn) actions turns)
    (leads : Leads steps.length .start turns last) :
    ∃ h' t disk', (states h steps)[last.position]? = some h' ∧ Refines (.bare map) h' t ∧
      Stands s disk layout last t disk' ∧ ∀ outcome,
        diskSession sizeBits symbols place layout gap s disk input = .ok outcome ↔
          AllLook sizeBits symbols place s .start actions ∧ outcome = (t,disk',rest) := by
  have reaches (n : Nat) (below : n ≤ steps.length) :=
    stepLoop_refines separate refines quiet program conforms below
  have steady : Steady s steps.length := by
    intro n below
    obtain ⟨_,u,_,ran,refines',programmed⟩ := reaches n below
    exact ⟨u, ran, refines'.memory.2.1, programmed⟩
  have within := Session.start_within (φ := φ) steps.length
  obtain ⟨t,disk',stands,ends⟩ := Stands.rounds sizeBits symbols gap steady typed turned within
    ⟨rfl, nofun, fun _ => rfl⟩ leads (Nat.lt_succ_self _)
  obtain ⟨h',u,there,ran,refines',_⟩ := reaches last.position (within.leads leads).position
  rw [Except.ok.inj (ran.symm.trans stands.here)] at refines'
  exact ⟨h', t, disk', there, refines', stands, ends⟩

/-- One instruction, a file, three instructions, back, and two instructions. -/
def rewindingSession : Text := "step 1\nsave a\nstep 3\nload a\nstep 2\nreg x5\nq\n".toList

def rewindingActions : List Action :=
  [.step 1, .save ['a'], .step 3, .load ['a'], .step 2, .reg ['x','5']]

theorem rewindingSession_typed : Typed 64 rewindingSession rewindingActions [] := by
  have first : interpret 64 (lineOf rewindingSession) = .ok (.step 1) := rfl
  have second : interpret 64 (lineOf "save a\nstep 3\nload a\nstep 2\nreg x5\nq\n".toList) =
      .ok (.save ['a']) := rfl
  have third : interpret 64 (lineOf "step 3\nload a\nstep 2\nreg x5\nq\n".toList) = .ok (.step 3) := rfl
  have fourth : interpret 64 (lineOf "load a\nstep 2\nreg x5\nq\n".toList) = .ok (.load ['a']) := rfl
  have fifth : interpret 64 (lineOf "step 2\nreg x5\nq\n".toList) = .ok (.step 2) := rfl
  have sixth : interpret 64 (lineOf "reg x5\nq\n".toList) = .ok (.reg ['x','5']) := rfl
  exact .line (by decide) first (by decide) (.line (by decide) second (by decide)
    (.line (by decide) third (by decide) (.line (by decide) fourth (by decide)
    (.line (by decide) fifth (by decide) (.line (by decide) sixth (by decide)
    (.quit (by decide) rfl))))))

/-- The session returns, with the machine where three instructions take the program. -/
theorem diskSession_rewinds_looping :
    ∃ h' t disk, (states loopingHart (followHart loopingHart loopingProgram))[3]? = some h' ∧
      Refines (.bare loopingMachine.memoryMap) h' t ∧
      @diskSession 64 [] Text _ some ⟨4,8⟩ clearingPlatform (fun _ _ => 0) loopingMachine (fun _ => none)
        rewindingSession = .ok (t,disk,[]) := by
  let _ : Platform := clearingPlatform
  obtain ⟨h',t,disk,there,carried,_,ends⟩ := diskSession_rewinds (guest_separate privM [])
    loopingMachine_refines ⟨rfl,rfl,rfl⟩ loopingProgram_runs ⟨trivial,trivial,trivial,trivial,trivial⟩ []
    some ⟨4,8⟩ (fun _ _ => 0) (fun _ => none)
    rewindingSession_typed
    (.cons rfl (.cons rfl (.cons rfl (.cons rfl (.cons rfl (.cons rfl .nil))))))
    (.cons rfl (by decide) (.cons rfl (by decide) (.cons rfl (by decide) (.cons rfl (by decide)
      (.cons rfl (by decide) (.cons rfl (by decide) .nil))))))
  refine ⟨h', t, disk, there, carried, (ends _).mpr ⟨?_,rfl⟩⟩
  simp [AllLook,Looks,rewindingActions,Action.turn,Action.perform,Returns]

end Monitor

end Emuriscv
