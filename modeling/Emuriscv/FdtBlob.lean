import Emuriscv.Fdt
import Emuriscv.FlatTree

/-! What the writer of `fdt.c` emits: each call appends the image of its token to the
structure block and, where a property name is new, the name to the strings block. -/
namespace Emuriscv

open Codec Segment DeviceTree

theorem int_eq {v : Int} (low : -2 ^ 31 ≤ v) (high : v < 2 ^ 31) : int v = v := by
  rw [int,Int.bmod_def]
  split <;> omega

theorem int_add {a b : Nat} (small : a + b < 2 ^ 31) : int ((a : Int) + b) = (a + b : Nat) := by
  rw [int_eq (by omega) (by omega)]
  push_cast
  rfl

theorem hostBytes_eq (v : Word) : hostBytes v = big v := by
  simp only [hostBytes,little,big,List.cons.injEq,and_true]
  refine ⟨?_,?_,?_,?_⟩
  all_goals
    apply BitVec.eq_of_getLsbD_eq
    intro i bound
    interval_cases i <;> simp [bswap32]

/-- The allocations hold the two blocks as far as they have been emitted. -/
structure Emitted (s : FdtState) (body table : List Byte) : Prop where
  tab : Holds s.tab 0 body
  tabLen : 4 * s.tabLen = body.length
  tabRoom : s.tabLen ≤ s.tabSize
  stringTable : Holds s.stringTable 0 table
  stringTableLen : s.stringTableLen = table.length
  stringTableRoom : s.stringTableLen ≤ s.stringTableSize

theorem fdtInit_emitted (tab stringTable : Nat → Byte) : Emitted (fdtInit tab stringTable) [] [] where
  tab := holds_nil
  tabLen := rfl
  tabRoom := Int.le_refl 0
  stringTable := holds_nil
  stringTableLen := rfl
  stringTableRoom := Int.le_refl 0

theorem maxInt_le (a b : Int) : a ≤ maxInt a b := by
  unfold maxInt
  split <;> omega

/-- Growing keeps what is there. -/
theorem fdtAllocLen_eq (s : FdtState) (len : Int) :
    ∃ size, fdtAllocLen s len = { s with tabSize := size } ∧ len ≤ size ∧ s.tabSize ≤ size := by
  unfold fdtAllocLen
  split
  next short =>
    have := maxInt_le len ((int (s.tabSize * 3)).tdiv 2)
    exact ⟨_,rfl,this,by omega⟩
  next => exact ⟨s.tabSize,rfl,by omega,Int.le_refl _⟩

theorem copyInto_eq {m : Nat → Byte} {size : Int} {data : List Byte} (offset : Nat)
    (inside : (offset : Int) + data.length ≤ size) :
    copyInto m size offset data = .ok (overlay m offset data) := by
  rw [copyInto,if_pos ⟨by omega,inside⟩]
  rfl

section Tab

variable {s : FdtState} {body table : List Byte}

/-- The state after whole words have been put behind the others. -/
def FdtState.put (s : FdtState) (words : List Byte) : FdtState :=
  { fdtAllocLen s (s.tabLen + words.length / 4) with
    tab := overlay s.tab (4 * s.tabLen).toNat words
    tabLen := s.tabLen + words.length / 4 }

theorem fdtPut32_eq (positive : 0 ≤ s.tabLen) (v : Word) (room : s.tabLen + 1 < 2 ^ 31) :
    fdtPut32 s v = .ok (s.put (big v)) := by
  have next : int (s.tabLen + 1) = s.tabLen + 1 := int_eq (by omega) room
  have one : ((big v).length : Int) / 4 = 1 := by simp
  obtain ⟨size,alloc,enough,-⟩ := fdtAllocLen_eq s (s.tabLen + 1)
  have start : ((4 * s.tabLen).toNat : Int) = 4 * s.tabLen := Int.toNat_of_nonneg (by omega)
  have copied : copyInto s.tab (4 * size) (4 * s.tabLen) (big v) =
      .ok (overlay s.tab (4 * s.tabLen).toNat (big v)) := by
    rw [← start]
    exact copyInto_eq _ (by simp; omega)
  simp only [fdtPut32,FdtState.put,one,next,alloc,hostBytes_eq,copied,ok_bind,pure_eq_ok]

theorem fdtPutData_eq (positive : 0 ≤ s.tabLen) (data : List Byte) (fits : data.length + 3 < 2 ^ 31)
    (room : s.tabLen + (padded data).length / 4 < 2 ^ 31) :
    fdtPutData s data = .ok (s.put (padded data)) := by
  have whole := padded_length data
  have size : (padded data).length = data.length + pad data.length := by simp [padded]
  have zeros : (-(data.length : Int) % 4).toNat = pad data.length := by
    unfold pad
    omega
  have words : (int (data.length + 3)).tdiv 4 = (padded data).length / 4 := by
    rw [int_eq (by omega) (by omega),Int.tdiv_eq_ediv_of_nonneg (by omega)]
    unfold pad at size
    omega
  have next : int (s.tabLen + (padded data).length / 4) = s.tabLen + (padded data).length / 4 :=
    int_eq (by omega) room
  obtain ⟨size',alloc,enough,-⟩ := fdtAllocLen_eq s (s.tabLen + (padded data).length / 4)
  have start : ((4 * s.tabLen).toNat : Int) = 4 * s.tabLen := Int.toNat_of_nonneg (by omega)
  have copied : copyInto s.tab (4 * size') (4 * s.tabLen) data =
      .ok (overlay s.tab (4 * s.tabLen).toNat data) := by
    rw [← start]
    exact copyInto_eq _ (by omega)
  have cleared : copyInto (overlay s.tab (4 * s.tabLen).toNat data) (4 * size')
      (4 * s.tabLen + data.length) (List.replicate (pad data.length) 0) =
      .ok (overlay s.tab (4 * s.tabLen).toNat (padded data)) := by
    rw [← start,← Nat.cast_add,padded,← overlay_append]
    exact copyInto_eq _ (by simp; omega)
  simp only [fdtPutData,FdtState.put,words,next,alloc,copied,zeros,cleared,ok_bind,pure_eq_ok]

/-- Whole words prolong the block. -/
theorem Emitted.put (emitted : Emitted s body table) {words : List Byte} (whole : words.length % 4 = 0) :
    Emitted (s.put words) (body ++ words) table := by
  have len := emitted.tabLen
  have start : (4 * s.tabLen).toNat = body.length := by omega
  obtain ⟨size,alloc,enough,-⟩ := fdtAllocLen_eq s (s.tabLen + words.length / 4)
  have longer : Holds _ _ (body ++ words) := emitted.tab.extend
  rw [Nat.zero_add] at longer
  rw [FdtState.put,alloc,start]
  refine ⟨longer,?_,enough,emitted.stringTable,emitted.stringTableLen,emitted.stringTableRoom⟩
  rw [List.length_append]
  push_cast
  omega

theorem fdtPut32_emits (emitted : Emitted s body table) (v : Word) (room : body.length + 4 < 2 ^ 31) :
    ∃ t, fdtPut32 s v = .ok t ∧ Emitted t (body ++ big v) table := by
  have len := emitted.tabLen
  exact ⟨_, fdtPut32_eq (by omega) v (by omega), emitted.put (by simp)⟩

theorem fdtPutData_emits (emitted : Emitted s body table) (data : List Byte)
    (room : body.length + (padded data).length < 2 ^ 31) :
    ∃ t, fdtPutData s data = .ok t ∧ Emitted t (body ++ padded data) table := by
  have len := emitted.tabLen
  have whole := padded_length data
  have longer := padded_le data
  exact ⟨_, fdtPutData_eq (by omega) data (by omega) (by omega), emitted.put whole⟩

end Tab

section Strings

theorem cString_eq {m : Nat → Byte} {chars : List Byte} (nulFree : 0 ∉ chars)
    (holds : Holds m pos (chars ++ [0])) (enough : chars.length < room) :
    cString m room pos = .ok chars := by
  induction chars generalizing room pos with
  | nil =>
    cases room with
    | zero => contradiction
    | succ room =>
      have nul : m pos = 0 := by simpa using (holds 0 (by simp)).symm
      rw [cString,if_pos nul]
      rfl
  | cons b chars ih =>
    cases room with
    | zero => contradiction
    | succ room =>
      rw [List.mem_cons,not_or] at nulFree
      have first : m pos = b := by simpa using (holds 0 (by simp)).symm
      have others : Holds m (pos + 1) (chars ++ [0]) := by
        have split : Holds m pos ([b] ++ (chars ++ [0])) := holds
        exact (holds_append.mp split).2
      have rest : cString m room (pos + 1) = .ok chars :=
        ih nulFree.2 others (by simpa using enough)
      rw [cString,first,if_neg (Ne.symm nulFree.1),rest]
      rfl

/-- The loop stands in front of the strings `after` and has passed `before`. -/
theorem findString_eq {s : FdtState} {before after : List Bytes} (name : CString)
    (table : Holds s.stringTable 0 (strings (before ++ after)))
    (len : s.stringTableLen = (strings (before ++ after)).length)
    (room : s.stringTableLen ≤ s.stringTableSize) (nulFree : ∀ n ∈ after, 0 ∉ n)
    (small : (strings (before ++ after)).length < 2 ^ 31) (enough : (strings after).length < fuel) :
    findString s name fuel (strings before).length = .ok (if name.chars ∈ after then
      some ((strings before).length + offset after name.chars : Nat) else none) := by
  induction after generalizing before fuel with
  | nil =>
    cases fuel with
    | zero => contradiction
    | succ fuel =>
      rw [List.append_nil] at len
      rw [findString,if_neg (by omega)]
      rfl
  | cons first after ih =>
    cases fuel with
    | zero => contradiction
    | succ fuel =>
      rw [List.forall_mem_cons] at nulFree
      have moved : before ++ first :: after = before ++ [first] ++ after := by simp
      have length : (strings (before ++ first :: after)).length =
          (strings before).length + (first.length + 1 + (strings after).length) := by
        simp
        omega
      have passed : (strings (before ++ [first])).length =
          (strings before).length + (first.length + 1) := by
        simp [strings]
      have here : Holds s.stringTable (strings before).length (first ++ [0]) := by
        have split : strings (before ++ first :: after) =
            strings before ++ ((first ++ [0]) ++ strings after) := by
          simp
        rw [split,holds_append,Nat.zero_add,holds_append] at table
        exact table.2.1
      have read : cString s.stringTable (s.stringTableSize - (strings before).length).toNat
          (strings before).length = .ok first := cString_eq nulFree.1 here (by omega)
      have next : int ((strings before).length + (first.length + 1)) =
          (strings (before ++ [first])).length := by
        rw [int_eq (by omega) (by omega),passed]
        push_cast
        rfl
      rw [findString,if_pos (by omega),Int.toNat_natCast,read,ok_bind]
      by_cases same : first = name.chars
      · simp [same,offset]
      · rw [strings_cons,List.length_append,List.length_cons] at enough
        rw [moved] at table len small
        have rest := ih table len nulFree.2 small (show (strings after).length < fuel by omega)
        rw [if_neg same,next,rest,passed]
        simp [offset,same,Ne.symm same,Int.add_assoc]

/-- A name that is not found goes behind the others; the table grows for it. -/
theorem fdtGetStringOffset_appends {s : FdtState} {names : List Bytes}
    (emitted : Emitted s body (strings names)) (name : CString)
    (room : (strings names).length + (name.chars.length + 1) < 2 ^ 31)
    (absent : findString s name (s.stringTableLen.toNat + 1) 0 = .ok none) :
    ∃ t, fdtGetStringOffset s name = .ok (((strings names).length : Nat),t) ∧
      Emitted t body (strings (names ++ [name.chars])) := by
  have len := emitted.stringTableLen
  have bytes : strings (names ++ [name.chars]) = strings names ++ name.bytes := by
    simp [strings,CString.bytes]
  have size : name.bytes.length = name.chars.length + 1 := by simp [CString.bytes]
  rw [fdtGetStringOffset,absent,ok_bind]
  have nameSize : int (name.chars.length + 1) = name.chars.length + 1 := int_eq (by omega) (by omega)
  have newLen : int (s.stringTableLen + (name.chars.length + 1)) =
      s.stringTableLen + (name.chars.length + 1) := int_eq (by omega) (by omega)
  simp only [nameSize,newLen]
  generalize grown : (if s.stringTableLen + (name.chars.length + 1) > s.stringTableSize then
    maxInt (s.stringTableLen + (name.chars.length + 1)) ((int (s.stringTableSize * 3)).tdiv 2)
    else s.stringTableSize) = newSize
  have enough : s.stringTableLen + (name.chars.length + 1) ≤ newSize := by
    have := maxInt_le (s.stringTableLen + (name.chars.length + 1))
      ((int (s.stringTableSize * 3)).tdiv 2)
    rw [← grown]
    split <;> omega
  have copied : copyInto s.stringTable newSize s.stringTableLen name.bytes =
      .ok (overlay s.stringTable (strings names).length name.bytes) := by
    rw [len]
    exact copyInto_eq _ (by omega)
  have prolonged : Holds _ _ (strings names ++ name.bytes) := emitted.stringTable.extend
  rw [Nat.zero_add,← bytes] at prolonged
  rw [copied,len]
  refine ⟨_,rfl,emitted.tab,emitted.tabLen,emitted.tabRoom,prolonged,?_,?_⟩
  · rw [bytes,List.length_append,size]
    push_cast
    rfl
  · rw [len] at enough
    exact enough

/-- The name is in the table afterwards, at the offset that is returned. -/
theorem fdtGetStringOffset_emits {s : FdtState} {names : List Bytes}
    (emitted : Emitted s body (strings names)) (nulFree : ∀ n ∈ names, 0 ∉ n) (name : CString)
    (room : (strings (intern names name.chars)).length < 2 ^ 31) :
    ∃ t, fdtGetStringOffset s name =
        .ok ((offset (intern names name.chars) name.chars : Nat),t) ∧
      Emitted t body (strings (intern names name.chars)) := by
  have len := emitted.stringTableLen
  have small : (strings names).length < 2 ^ 31 := by
    obtain ⟨more,whole⟩ := intern_extends names name.chars
    rw [← whole,strings_append,List.length_append] at room
    omega
  have start : findString s name (s.stringTableLen.toNat + 1) (strings []).length = _ :=
    findString_eq name emitted.stringTable len emitted.stringTableRoom nulFree small (by omega)
  have found : findString s name (s.stringTableLen.toNat + 1) 0 =
      .ok (if name.chars ∈ names then some (offset names name.chars : Nat) else none) := by
    simpa [strings] using start
  by_cases known : name.chars ∈ names
  · have same : intern names name.chars = names := if_pos known
    rw [fdtGetStringOffset,found,ok_bind,same,if_pos known]
    exact ⟨s,rfl,emitted⟩
  · have longer : intern names name.chars = names ++ [name.chars] := if_neg known
    rw [if_neg known] at found
    rw [longer,strings_append,List.length_append] at room
    rw [longer,offset_new known]
    exact fdtGetStringOffset_appends emitted name (by simpa [strings] using room) found

end Strings

section Calls

variable {s : FdtState} {body table : List Byte} {names : List Bytes}

theorem Emitted.count (emitted : Emitted s body table) (count : Int) :
    Emitted { s with openNodeCount := count } body table := by
  cases emitted
  constructor <;> assumption

theorem fdtBeginNode_emits (emitted : Emitted s body table) (name : CString)
    (room : body.length + (image names (.beginNode name.chars)).length < 2 ^ 31) :
    ∃ t, fdtBeginNode s name = .ok t ∧
      Emitted t (body ++ image names (.beginNode name.chars)) table := by
  simp only [image,List.length_append,big_length] at room
  obtain ⟨s₁,tag,emitted⟩ := fdtPut32_emits emitted tagBeginNode (by omega)
  obtain ⟨s₂,data,emitted⟩ := fdtPutData_emits emitted name.bytes (by
    simp only [List.length_append,big_length]
    exact (Nat.add_assoc ..).trans_lt room)
  refine ⟨{ s₂ with openNodeCount := int (s₂.openNodeCount + 1) },?_,?_⟩
  · simp only [fdtBeginNode,show fdtBeginNodeTag = tagBeginNode from rfl,tag,data,ok_bind,pure_eq_ok]
  · rw [List.append_assoc] at emitted
    exact emitted.count _

theorem fdtEndNode_emits (emitted : Emitted s body table)
    (room : body.length + (image names .endNode).length < 2 ^ 31) :
    ∃ t, fdtEndNode s = .ok t ∧ Emitted t (body ++ image names .endNode) table := by
  obtain ⟨t,tag,emitted⟩ := fdtPut32_emits emitted tagEndNode room
  refine ⟨{ t with openNodeCount := int (t.openNodeCount - 1) },?_,emitted.count _⟩
  simp only [fdtEndNode,show fdtEndNodeTag = tagEndNode from rfl,tag,ok_bind,pure_eq_ok]

theorem foldlM_fdtPut32_emits (emitted : Emitted s body table) (tab : List Word)
    (room : body.length + (tab.flatMap big).length < 2 ^ 31) :
    ∃ t, tab.foldlM fdtPut32 s = .ok t ∧ Emitted t (body ++ tab.flatMap big) table := by
  induction tab generalizing s body with
  | nil => exact ⟨s,rfl,by simpa using emitted⟩
  | cons v tab ih =>
    rw [List.flatMap_cons,List.length_append,big_length] at room
    obtain ⟨s₁,first,emitted⟩ := fdtPut32_emits emitted v (by omega)
    obtain ⟨t,others,emitted⟩ := ih emitted (by
      rw [List.length_append,big_length]
      omega)
    refine ⟨t,?_,by simpa using emitted⟩
    rw [List.foldlM_cons,first,ok_bind,others]

/-- The tag, the length and the name offset of a property. -/
theorem propHead_emits (emitted : Emitted s body (strings names)) (nulFree : ∀ n ∈ names, 0 ∉ n)
    (name : CString) (length : Nat) (room : body.length + 12 < 2 ^ 31)
    (roomTable : (strings (intern names name.chars)).length < 2 ^ 31) :
    ∃ t, (do
        let s ← fdtPut32 s fdtPropTag
        let s ← fdtPut32 s (.ofInt 32 length)
        let (offset,s) ← fdtGetStringOffset s name
        fdtPut32 s (.ofInt 32 offset)) = .ok t ∧
      Emitted t (body ++ (big tagProp ++ (big (.ofNat 32 length) ++
        big (.ofNat 32 (offset (intern names name.chars) name.chars)))))
        (strings (intern names name.chars)) := by
  obtain ⟨s₁,tag,emitted⟩ := fdtPut32_emits emitted tagProp (by omega)
  obtain ⟨s₂,size,emitted⟩ := fdtPut32_emits emitted (.ofNat 32 length) (by simp; omega)
  obtain ⟨s₃,place,emitted⟩ := fdtGetStringOffset_emits emitted nulFree name roomTable
  obtain ⟨t,last,emitted⟩ := fdtPut32_emits emitted
    (.ofNat 32 (offset (intern names name.chars) name.chars)) (by simp; omega)
  refine ⟨t,?_,by simpa using emitted⟩
  simp only [show fdtPropTag = tagProp from rfl,tag,size,place,last,ok_bind,BitVec.ofInt_natCast]

section Property

variable (emitted : Emitted s body (strings names)) (nulFree : ∀ n ∈ names, 0 ∉ n) (name : CString)
  (roomTable : (strings (intern names name.chars)).length < 2 ^ 31)
include emitted nulFree roomTable

theorem fdtProp_emits (data : List Byte)
    (room : body.length + (image (intern names name.chars) (.prop ⟨name.chars,data⟩)).length < 2 ^ 31) :
    ∃ t, fdtProp s name data = .ok t ∧
      Emitted t (body ++ image (intern names name.chars) (.prop ⟨name.chars,data⟩))
        (strings (intern names name.chars)) := by
  simp only [image,List.length_append,big_length] at room
  obtain ⟨s₁,head,emitted⟩ := propHead_emits emitted nulFree name data.length (by omega) roomTable
  obtain ⟨t,value,emitted⟩ := fdtPutData_emits emitted data (by
    simp only [List.length_append,big_length]
    omega)
  refine ⟨t,?_,by simpa [image] using emitted⟩
  rw [← value,← ok_bind s₁ fun s => fdtPutData s data,← head]
  simp only [fdtProp,bind_assoc]

theorem fdtPropTabU32_emits (tab : List Word)
    (room : body.length + (image (intern names name.chars)
      (.prop ⟨name.chars,tab.flatMap big⟩)).length < 2 ^ 31) :
    ∃ t, fdtPropTabU32 s name tab = .ok t ∧
      Emitted t (body ++ image (intern names name.chars) (.prop ⟨name.chars,tab.flatMap big⟩))
        (strings (intern names name.chars)) := by
  have length : (tab.flatMap big).length = tab.length * 4 := by simp
  have whole : padded (tab.flatMap big) = tab.flatMap big := by
    simp [padded,pad,length]
  simp only [image,List.length_append,big_length,whole] at room
  obtain ⟨s₁,head,emitted⟩ := propHead_emits emitted nulFree name (tab.length * 4) (by omega) roomTable
  obtain ⟨t,value,emitted⟩ := foldlM_fdtPut32_emits emitted tab (by
    simp only [List.length_append,big_length]
    omega)
  refine ⟨t,?_,by simpa [image,whole,length] using emitted⟩
  rw [← value,← ok_bind s₁ fun s => tab.foldlM fdtPut32 s,← head]
  simp only [fdtPropTabU32,bind_assoc]
  rfl

end Property

end Calls

inductive NodeCall where
  | beginNode (name : CString)
  | beginNodeNum (name : CString) (n : Quadword)
  deriving DecidableEq

inductive PropCall where
  | prop (propName : CString) (data : List Byte)
  | propTabU32 (propName : CString) (tab : List Word)
  | propU32 (propName : CString) (val : Word)
  | propTabU64 (propName : CString) (v0 : Quadword)
  | propTabU64_2 (propName : CString) (v0 v1 : Quadword)
  | propStr (propName str : CString)
  | propTabStr (propName : CString) (strs : List CString)
  deriving DecidableEq

/-- A call; its place in the sequence decides what tree is built. -/
abbrev FdtCall := Token NodeCall PropCall

def NodeCall.run (s : FdtState) : NodeCall → Except Stop FdtState
  | .beginNode name => fdtBeginNode s name
  | .beginNodeNum name n => fdtBeginNodeNum s name n

def PropCall.run (s : FdtState) : PropCall → Except Stop FdtState
  | .prop propName data => fdtProp s propName data
  | .propTabU32 propName tab => fdtPropTabU32 s propName tab
  | .propU32 propName val => fdtPropU32 s propName val
  | .propTabU64 propName v0 => fdtPropTabU64 s propName v0
  | .propTabU64_2 propName v0 v1 => fdtPropTabU64_2 s propName v0 v1
  | .propStr propName str => fdtPropStr s propName str
  | .propTabStr propName strs => fdtPropTabStr s propName strs

def runCall (s : FdtState) : FdtCall → Except Stop FdtState
  | .beginNode call => call.run s
  | .prop call => call.run s
  | .endNode => fdtEndNode s

/-- The name of the node that a call begins. -/
def NodeCall.name : NodeCall → List Byte
  | .beginNode name => name.chars
  | .beginNodeNum name n => (numberedName name n).chars

/-- The property that a call gives to the node: integers as big-endian words, strings with
their terminating NUL. -/
def PropCall.property : PropCall → Property
  | .prop propName data => ⟨propName.chars,data⟩
  | .propTabU32 propName tab => ⟨propName.chars,tab.flatMap big⟩
  | .propU32 propName val => ⟨propName.chars,big val⟩
  | .propTabU64 propName v0 => ⟨propName.chars,big (v0.extractLsb' 32 32) ++ big (v0.extractLsb' 0 32)⟩
  | .propTabU64_2 propName v0 v1 =>
    ⟨propName.chars,big (v0.extractLsb' 32 32) ++ big (v0.extractLsb' 0 32) ++
      big (v1.extractLsb' 32 32) ++ big (v1.extractLsb' 0 32)⟩
  | .propStr propName str => ⟨propName.chars,str.bytes⟩
  | .propTabStr propName strs => ⟨propName.chars,strs.flatMap CString.bytes⟩

/-- The token that a call stands for. -/
abbrev FdtCall.token (call : FdtCall) : Token Bytes Property := call.map NodeCall.name PropCall.property

theorem PropCall.nulFree (call : PropCall) : 0 ∉ call.property.name := by
  cases call <;> exact CString.nulFree _

theorem NodeCall.nulFree (call : NodeCall) : 0 ∉ call.name := by
  cases call <;> exact CString.nulFree _

section Run

variable {s : FdtState} {body : List Byte} {names : List Bytes}

theorem propRun_emits (emitted : Emitted s body (strings names)) (nulFree : ∀ n ∈ names, 0 ∉ n)
    (call : PropCall) (roomTable : (strings (intern names call.property.name)).length < 2 ^ 31)
    (room : body.length + (image (intern names call.property.name) (.prop call.property)).length
      < 2 ^ 31) :
    ∃ t, call.run s = .ok t ∧
      Emitted t (body ++ image (intern names call.property.name) (.prop call.property))
        (strings (intern names call.property.name)) := by
  have high (v : Quadword) : (v >>> 32).setWidth 32 = v.extractLsb' 32 32 := rfl
  have low (v : Quadword) : v.setWidth 32 = v.extractLsb' 0 32 := by simp [BitVec.extractLsb']
  cases call with
  | prop propName data => exact fdtProp_emits emitted nulFree propName roomTable data room
  | propTabU32 propName tab => exact fdtPropTabU32_emits emitted nulFree propName roomTable tab room
  | propU32 propName val =>
    have u32 := fdtPropTabU32_emits emitted nulFree propName roomTable [val]
    simp only [List.flatMap_cons,List.flatMap_nil,List.append_nil] at u32
    exact u32 room
  | propTabU64 propName v0 =>
    have u64 := fdtPropTabU32_emits emitted nulFree propName roomTable
      [v0.extractLsb' 32 32,v0.extractLsb' 0 32]
    simp only [List.flatMap_cons,List.flatMap_nil,List.append_nil] at u64
    simp only [PropCall.run,fdtPropTabU64,high,low]
    exact u64 room
  | propTabU64_2 propName v0 v1 =>
    have u64 := fdtPropTabU32_emits emitted nulFree propName roomTable
      [v0.extractLsb' 32 32,v0.extractLsb' 0 32,v1.extractLsb' 32 32,v1.extractLsb' 0 32]
    simp only [List.flatMap_cons,List.flatMap_nil,List.append_nil,← List.append_assoc] at u64
    simp only [PropCall.run,fdtPropTabU64_2,high,low]
    exact u64 room
  | propStr propName str => exact fdtProp_emits emitted nulFree propName roomTable str.bytes room
  | propTabStr propName strs =>
    simp only [PropCall.run,fdtPropTabStr,← List.flatMap_eq_foldl]
    exact fdtProp_emits emitted nulFree propName roomTable _ room

/-- What one call emits. -/
theorem runCall_emits (emitted : Emitted s body (strings names)) (nulFree : ∀ n ∈ names, 0 ∉ n)
    (call : FdtCall) (roomTable : (strings (learn names call.token)).length < 2 ^ 31)
    (room : body.length + (image (learn names call.token) call.token).length < 2 ^ 31) :
    ∃ t, runCall s call = .ok t ∧
      Emitted t (body ++ image (learn names call.token) call.token)
        (strings (learn names call.token)) := by
  cases call with
  | beginNode call =>
    cases call with
    | beginNode name => exact fdtBeginNode_emits emitted name room
    | beginNodeNum name n => exact fdtBeginNode_emits emitted (numberedName name n) room
  | prop call => exact propRun_emits emitted nulFree call roomTable room
  | endNode => exact fdtEndNode_emits emitted room

theorem learn_nulFree (nulFree : ∀ n ∈ names, 0 ∉ n) (call : FdtCall) :
    ∀ n ∈ learn names call.token, 0 ∉ n := by
  cases call with
  | prop call => exact intern_nulFree nulFree call.nulFree
  | beginNode | endNode => exact nulFree

theorem token_encodable (call : FdtCall)
    (room : (image (learn names call.token) call.token).length < 2 ^ 31) :
    Encodable (learn names call.token) call.token := by
  cases call with
  | beginNode call => exact call.nulFree
  | prop call =>
    refine ⟨call.nulFree,mem_intern names call.property.name,?_⟩
    have := padded_le call.property.value
    simp only [FdtCall.token,Token.map,image,List.length_append] at room
    omega
  | endNode => trivial

/-- What a sequence of calls emits: the tokens of the calls, and the property names in the
order of their first use. -/
theorem runCalls_emits (calls : List FdtCall) (emitted : Emitted s body (strings names))
    (nulFree : ∀ n ∈ names, 0 ∉ n)
    (roomTable : (strings (learnAll names (calls.map FdtCall.token))).length < 2 ^ 31)
    (room : body.length + ((calls.map FdtCall.token).flatMap
      (image (learnAll names (calls.map FdtCall.token)))).length < 2 ^ 31) :
    ∃ t, calls.foldlM runCall s = .ok t ∧
      Emitted t (body ++ (calls.map FdtCall.token).flatMap
          (image (learnAll names (calls.map FdtCall.token))))
        (strings (learnAll names (calls.map FdtCall.token))) ∧
      ∀ token ∈ calls.map FdtCall.token,
        Encodable (learnAll names (calls.map FdtCall.token)) token := by
  induction calls generalizing s body names with
  | nil => exact ⟨s,rfl,by simpa [learnAll] using emitted,by simp⟩
  | cons call calls ih =>
    have later := learnAll_extends (learn names call.token) (calls.map FdtCall.token)
    have whole : learnAll names (call.token :: calls.map FdtCall.token) =
      learnAll (learn names call.token) (calls.map FdtCall.token) := rfl
    have same := image_length (learn names call.token)
      (learnAll (learn names call.token) (calls.map FdtCall.token)) call.token
    rw [List.map_cons,whole] at room roomTable ⊢
    simp only [List.flatMap_cons,List.length_append] at room
    have small : (strings (learn names call.token)).length < 2 ^ 31 := by
      obtain ⟨more,split⟩ := later
      rw [← split,strings_append,List.length_append] at roomTable
      omega
    obtain ⟨s₁,first,emitted⟩ := runCall_emits emitted nulFree call small (by omega)
    obtain ⟨t,others,emitted,encodable⟩ := ih emitted (learn_nulFree nulFree call) roomTable (by
      rw [List.length_append]
      omega)
    have encodes : Encodable (learn names call.token) call.token := token_encodable call (by omega)
    refine ⟨t,?_,?_,?_⟩
    · rw [List.foldlM_cons,first,ok_bind,others]
    · rw [List.flatMap_cons,image_extends later encodes,← List.append_assoc]
      exact emitted
    · exact List.forall_mem_cons.mpr ⟨encodes.mono later,encodable⟩

end Run

end Emuriscv
