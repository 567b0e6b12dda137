import Emuriscv.FdtBlob

/-! The two buffers of the writer over sequences of calls: the words of the structure block and the
names of the strings block. Both only grow at their end. -/
namespace Emuriscv

open Codec Segment DeviceTree

inductive PutCall where
  | put32 (v : Word)
  | putData (data : List Byte)
  deriving DecidableEq

namespace PutCall

def run (s : FdtState) : PutCall → Except Stop FdtState
  | .put32 v => fdtPut32 s v
  | .putData data => fdtPutData s data

/-- The words of a call, the last one of data begun if not full. -/
def words : PutCall → Nat
  | .put32 _ => 1
  | .putData data => (data.length + 3) / 4

def image : PutCall → List Byte
  | .put32 v => big v
  | .putData data => padded data

/-- `len + 3` is an `int`. -/
def Fits : PutCall → Prop
  | .put32 _ => True
  | .putData data => data.length + 3 < 2 ^ 31

instance : DecidablePred Fits
  | .put32 _ => .isTrue trivial
  | .putData _ => inferInstanceAs (Decidable (_ < _))

theorem image_length (call : PutCall) : call.image.length = 4 * call.words := by
  cases call with
  | put32 => simp [image,words]
  | putData data =>
    simp only [image,words,padded,pad,List.length_append,List.length_replicate]
    omega

end PutCall

/-- Room for the words was made before they were written behind the others. -/
structure Appends (s t : FdtState) (words : List Byte) : Prop where
  ensured : t.tabSize = (fdtAllocLen s t.tabLen).tabSize
  room : t.tabLen ≤ t.tabSize
  length : 4 * t.tabLen = 4 * s.tabLen + words.length
  written : Holds t.tab (4 * s.tabLen).toNat words
  kept : ∀ i : Nat, i < 4 * s.tabLen ∨ 4 * t.tabLen ≤ i → t.tab i = s.tab i

theorem FdtState.put_appends {s : FdtState} (positive : 0 ≤ s.tabLen) {words : List Byte}
    (whole : words.length % 4 = 0) : Appends s (s.put words) words := by
  obtain ⟨size,alloc,enough,-⟩ := fdtAllocLen_eq s (s.tabLen + words.length / 4)
  have length : (s.put words).tabLen = s.tabLen + words.length / 4 := rfl
  refine ⟨rfl, ?_, ?_, overlay_holds, fun i outside => overlay_outside ?_⟩
  · simpa [put,alloc] using enough
  · omega
  · omega

theorem PutCall.run_eq {s : FdtState} (call : PutCall) (positive : 0 ≤ s.tabLen) (fits : call.Fits)
    (room : s.tabLen + call.words < 2 ^ 31) : call.run s = .ok (s.put call.image) := by
  cases call with
  | put32 v => exact fdtPut32_eq positive v room
  | putData data =>
    have length : (padded data).length = 4 * ((data.length + 3) / 4) := (putData data).image_length
    refine fdtPutData_eq positive data fits ?_
    simp only [words] at room
    omega

/-- What a sequence of calls leaves. -/
theorem putCalls_emit {s : FdtState} {body table : List Byte} (emitted : Emitted s body table)
    (calls : List PutCall) (fits : ∀ call ∈ calls, call.Fits)
    (small : s.tabLen + (calls.map PutCall.words).sum < 2 ^ 31) :
    ∃ t, calls.foldlM PutCall.run s = .ok t ∧
      t.tabLen = s.tabLen + (calls.map PutCall.words).sum ∧
      Emitted t (body ++ calls.flatMap PutCall.image) table := by
  induction calls generalizing s body with
  | nil => exact ⟨s, rfl, by simp, by simpa using emitted⟩
  | cons call calls ih =>
    obtain ⟨first,later⟩ := List.forall_mem_cons.mp fits
    have len := emitted.tabLen
    have image := call.image_length
    have whole : call.image.length % 4 = 0 := by omega
    rw [List.map_cons,List.sum_cons] at small
    have next : (s.put call.image).tabLen = s.tabLen + call.words := by
      simp only [FdtState.put]
      omega
    obtain ⟨t,runs,total,emitted⟩ := ih (emitted.put whole) later (by omega)
    refine ⟨t, ?_, ?_, ?_⟩
    · rw [List.foldlM_cons,call.run_eq (by omega) first (by omega),ok_bind,runs]
    · rw [total,next,List.map_cons,List.sum_cons]
      omega
    · rw [List.flatMap_cons,← List.append_assoc]
      exact emitted

/-- After every call of a sequence: what it has appended, and all that there is. -/
theorem putCalls_append (tab stringTable : Nat → Byte) (calls : List PutCall) (call : PutCall)
    (fits : ∀ each ∈ calls ++ [call], each.Fits)
    (small : ((calls ++ [call]).map PutCall.words).sum < 2 ^ 31) :
    ∃ s t, calls.foldlM PutCall.run (fdtInit tab stringTable) = .ok s ∧ call.run s = .ok t ∧
      Appends s t call.image ∧ t.tabLen = s.tabLen + call.words ∧
      Holds t.tab 0 ((calls ++ [call]).flatMap PutCall.image) := by
  rw [List.map_append,List.sum_append] at small
  simp only [List.map_cons,List.map_nil,List.sum_cons,List.sum_nil] at small
  have start : (fdtInit tab stringTable).tabLen = 0 := rfl
  obtain ⟨s,runs,total,emitted⟩ :=
    putCalls_emit (fdtInit_emitted tab stringTable) calls
      (fun each member => fits each (List.mem_append_left _ member)) (by omega)
  have image := call.image_length
  have ran := call.run_eq (s := s) (by omega) (fits call (by simp)) (by omega)
  have aligned : call.image.length % 4 = 0 := by omega
  have whole := emitted.put aligned
  have appends := s.put_appends (by omega) aligned
  refine ⟨s, _, runs, ran, appends, ?_, ?_⟩
  · have length := appends.length
    omega
  · simpa using whole.tab

/-- Five bytes take two words, and nothing takes none. -/
theorem putCalls_append_partial : ∃ s t,
    [.put32 3, .putData [1,2,3,4,5]].foldlM PutCall.run (fdtInit (fun _ => 0xff) fun _ => 0xff) = .ok s ∧
      PutCall.run s (.putData []) = .ok t ∧ t.tabLen = s.tabLen ∧
      Holds t.tab 0 [0,0,0,3,1,2,3,4,5,0,0,0] := by
  obtain ⟨s,t,runs,ran,_,length,holds⟩ := putCalls_append (fun _ => 0xff) (fun _ => 0xff)
    [.put32 3, .putData [1,2,3,4,5]] (.putData []) (by decide) (by decide)
  exact ⟨s, t, runs, ran, by simpa [PutCall.words] using length, holds⟩

/-- The calls one after the other, with the offsets that they return. -/
def fdtGetStringOffsets (s : FdtState) : List CString → Except Stop (List Int × FdtState)
  | [] => pure ([],s)
  | name :: names => do
    let (offset,s) ← fdtGetStringOffset s name
    let (offsets,s) ← fdtGetStringOffsets s names
    pure (offset :: offsets,s)

/-- The table with the names that are new, in the order of their first use. -/
def internAll (known : List Bytes) (names : List CString) : List Bytes :=
  names.foldl (fun known name => intern known name.chars) known

/-- The table holds every name that was asked for once, and each offset finds its name. -/
structure Interned (s : FdtState) (names : List CString) (offsets : List Int) : Prop where
  table : slice s.stringTable 0 s.stringTableLen.toNat = strings (internAll [] names)
  answered : offsets.length = names.length
  found : ∀ (i : Nat) (name : CString), names[i]? = some name →
    ∃ offset : Nat, offsets[i]? = some (offset : Int) ∧
      Holds s.stringTable offset name.bytes ∧ offset + name.bytes.length ≤ s.stringTableLen
  same : ∀ i j : Nat, i < names.length → j < names.length →
    (offsets[i]? = offsets[j]? ↔ names[i]? = names[j]?)

section Names

variable {s : FdtState} {body : List Byte} {known : List Bytes} {names : List CString}

theorem CString.ext_chars {name name' : CString} (same : name.chars = name'.chars) : name = name' := by
  cases name
  cases name'
  exact (CString.mk.injEq ..).mpr same

theorem internAll_extends (known : List Bytes) (names : List CString) : known <+: internAll known names := by
  induction names generalizing known with
  | nil => exact List.prefix_rfl
  | cons name names ih => exact (intern_extends known name.chars).trans (ih _)

theorem mem_internAll (here : name ∈ names) : name.chars ∈ internAll known names := by
  induction names generalizing known with
  | nil => cases here
  | cons first names ih =>
    rcases List.mem_cons.mp here with rfl | later
    · exact (internAll_extends _ names).subset (mem_intern known name.chars)
    · exact ih later

theorem strings_mono {names names' : List Bytes} (before : names <+: names') :
    (strings names).length ≤ (strings names').length := by
  obtain ⟨more,rfl⟩ := before
  simp

/-- The offset of a name is where the strings before it end. -/
theorem strings_split {names : List Bytes} (here : name ∈ names) :
    ∃ before after, strings names = before ++ (name ++ [0] ++ after) ∧
      before.length = offset names name := by
  induction names with
  | nil => cases here
  | cons first names ih =>
    by_cases same : first = name
    · exact ⟨[], strings names, by simp [same], by simp [offset,same]⟩
    · have later : name ∈ names := by simpa [Ne.symm same] using here
      obtain ⟨before,after,split,start⟩ := ih later
      refine ⟨first ++ 0 :: before, after, by simp [split], ?_⟩
      simp [offset,same,start]
      omega

theorem offset_inj {name name' : Bytes} (here : name ∈ known) (here' : name' ∈ known)
    (nulFree : ∀ n ∈ known, 0 ∉ n) (same : offset known name = offset known name') : name = name' := by
  have first := stringAt_offset here (nulFree name here)
  have second := stringAt_offset here' (nulFree name' here')
  rw [same,second] at first
  exact (Option.some.inj first).symm

/-- A call answers with the offset that the name has ever after. -/
theorem getStringOffsets_emit (emitted : Emitted s body (strings known))
    (nulFree : ∀ n ∈ known, 0 ∉ n) (names : List CString)
    (small : (strings (internAll known names)).length < 2 ^ 31) :
    ∃ t, fdtGetStringOffsets s names =
        .ok (names.map fun name => (offset (internAll known names) name.chars : Int),t) ∧
      Emitted t body (strings (internAll known names)) ∧ ∀ n ∈ internAll known names, 0 ∉ n := by
  induction names generalizing s known with
  | nil => exact ⟨s, rfl, emitted, nulFree⟩
  | cons name names ih =>
    have later : intern known name.chars <+: internAll known (name :: names) :=
      internAll_extends _ names
    have room := Nat.lt_of_le_of_lt (strings_mono later) small
    obtain ⟨s₁,first,emitted⟩ := fdtGetStringOffset_emits emitted nulFree name room
    obtain ⟨t,others,emitted,nulFree⟩ := ih emitted (intern_nulFree nulFree name.nulFree) small
    refine ⟨t, ?_, emitted, nulFree⟩
    have stays := offset_extends later (mem_intern known name.chars)
    rw [fdtGetStringOffsets,first,ok_bind]
    dsimp only
    rw [others,ok_bind,← stays]
    rfl

theorem Emitted.interned (names : List CString)
    (emitted : Emitted s body (strings (internAll [] names)))
    (nulFree : ∀ n ∈ internAll [] names, 0 ∉ n) :
    Interned s names (names.map fun name => (offset (internAll [] names) name.chars : Int)) where
  table := by
    rw [emitted.stringTableLen]
    exact emitted.stringTable.slice
  answered := List.length_map _
  found := by
    intro i name here
    have member : name.chars ∈ internAll [] names := mem_internAll (List.mem_of_getElem? here)
    obtain ⟨before,after,split,start⟩ := strings_split member
    have holds := emitted.stringTable
    have length := emitted.stringTableLen
    rw [split,holds_append,holds_append,Nat.zero_add,start] at holds
    refine ⟨_, by rw [List.getElem?_map,here]; rfl, holds.2.1, ?_⟩
    rw [length,split,← start]
    simp [CString.bytes]
  same := by
    intro i j bound bound'
    have member : names[i].chars ∈ internAll [] names := mem_internAll (List.getElem_mem bound)
    have member' : names[j].chars ∈ internAll [] names := mem_internAll (List.getElem_mem bound')
    rw [List.getElem?_map,List.getElem?_map,List.getElem?_eq_getElem bound,
      List.getElem?_eq_getElem bound']
    constructor
    · intro equal
      have offsets := Int.ofNat.inj (Option.some.inj equal)
      exact congrArg some (CString.ext_chars (offset_inj member member' nulFree offsets))
    · intro equal
      rw [Option.some.inj equal]

end Names

/-- While the table is smaller than 2 GiB, the calls answer as a table of names does, and what they
answered before stays right. -/
theorem getStringOffsets_intern (tab stringTable : Nat → Byte) (earlier later : List CString)
    (small : (strings (internAll [] (earlier ++ later))).length < 2 ^ 31) :
    ∃ offsets offsets' s t, fdtGetStringOffsets (fdtInit tab stringTable) earlier = .ok (offsets,s) ∧
      fdtGetStringOffsets s later = .ok (offsets',t) ∧ Interned s earlier offsets ∧
      Interned t (earlier ++ later) (offsets ++ offsets') := by
  have whole : internAll [] (earlier ++ later) = internAll (internAll [] earlier) later :=
    List.foldl_append
  have longer := internAll_extends (internAll [] earlier) later
  rw [whole] at small
  have room := Nat.lt_of_le_of_lt (strings_mono longer) small
  have fresh : Emitted (fdtInit tab stringTable) [] (strings []) := fdtInit_emitted tab stringTable
  obtain ⟨s,first,emitted,nulFree⟩ := getStringOffsets_emit fresh (by simp) earlier room
  obtain ⟨t,second,emitted',nulFree'⟩ := getStringOffsets_emit emitted nulFree later small
  refine ⟨_, _, s, t, first, second, emitted.interned earlier nulFree, ?_⟩
  rw [← whole] at emitted' nulFree'
  have interned := emitted'.interned (earlier ++ later) nulFree'
  have stays : (earlier.map fun name => (offset (internAll [] earlier) name.chars : Int)) =
      earlier.map fun name => (offset (internAll [] (earlier ++ later)) name.chars : Int) := by
    refine List.map_congr_left fun name here => ?_
    rw [whole,offset_extends longer (mem_internAll here)]
  rw [stays,← whole,← List.map_append]
  exact interned

/-- `reg` asked for again. -/
theorem getStringOffsets_intern_reg : ∃ offsets offsets' s t,
    fdtGetStringOffsets (fdtInit (fun _ => 0) fun _ => 0) [⟨[0x72,0x65,0x67],by decide⟩] =
        .ok (offsets,s) ∧
      fdtGetStringOffsets s [⟨[],by decide⟩,⟨[0x72,0x65,0x67],by decide⟩] = .ok (offsets',t) ∧
      slice t.stringTable 0 t.stringTableLen.toNat = [0x72,0x65,0x67,0,0] := by
  obtain ⟨offsets,offsets',s,t,first,second,_,interned⟩ := getStringOffsets_intern (fun _ => 0) (fun _ => 0)
    [⟨[0x72,0x65,0x67],by decide⟩] [⟨[],by decide⟩,⟨[0x72,0x65,0x67],by decide⟩] (by decide)
  exact ⟨offsets, offsets', s, t, first, second, interned.table⟩

/-- The size of a name that takes 2 GiB is negative as an `int`, and no room is made for it. -/
theorem getStringOffset_overruns (tab stringTable : Nat → Byte) {name : CString}
    (long : name.chars.length = 2 ^ 31 - 1) :
    fdtGetStringOffset (fdtInit tab stringTable) name = .error .outOfBounds := by
  have size : name.bytes.length = 2 ^ 31 := by simp [CString.bytes,long]
  have absent : findString (fdtInit tab stringTable) name 1 0 = .ok none := rfl
  have negative : int (name.chars.length + 1) = -2 ^ 31 := by
    rw [long]
    rfl
  have short : int (0 + -2 ^ 31) = -2 ^ 31 := rfl
  have overruns : copyInto stringTable 0 0 name.bytes = .error .outOfBounds := by
    rw [copyInto,if_neg (by omega)]
    rfl
  rw [fdtGetStringOffset]
  simp only [fdtInit] at absent ⊢
  simp only [Int.toNat_zero,Nat.zero_add,absent,ok_bind,negative,short]
  rw [if_neg (by decide),overruns]
  rfl

/-- 2 GiB with its NUL. -/
def longName : CString where
  chars := List.replicate (2 ^ 31 - 1) 1
  nulFree := fun member => absurd (List.eq_of_mem_replicate member) (by decide)

theorem longName_missed : ¬∃ offsets t,
    fdtGetStringOffsets (fdtInit (fun _ => 0) fun _ => 0) [longName] = .ok (offsets,t) := by
  rintro ⟨offsets,t,answered⟩
  have overruns : fdtGetStringOffset (fdtInit (fun _ => 0) fun _ => 0) longName = .error .outOfBounds :=
    getStringOffset_overruns _ _ List.length_replicate
  rw [fdtGetStringOffsets,overruns] at answered
  cases answered

end Emuriscv
