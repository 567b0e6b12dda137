import Emuriscv.FdtBlob

/-! The blob that `fdt_output` writes: the flattened tree of the calls. -/
namespace Emuriscv

open Codec Segment DeviceTree

theorem alignDst_eq (dst : Nat → Byte) (n k fuel : Nat) (aligned : (n + k) % 8 = 0) (short : k < 8)
    (small : n + k < 2 ^ 31) (enough : k < fuel) :
    alignDst fuel dst n = .ok (overlay dst n (List.replicate k 0),(n + k : Nat)) := by
  induction k generalizing dst n fuel with
  | zero =>
    cases fuel with
    | zero => contradiction
    | succ fuel =>
      have there : ¬(n : Int) % 8 ≠ 0 := by omega
      rw [alignDst,if_neg there,List.replicate_zero,overlay_nil]
      rfl
  | succ k ih =>
    cases fuel with
    | zero => contradiction
    | succ fuel =>
      have odd : (n : Int) % 8 ≠ 0 := by omega
      have next : int (n + 1) = (n + 1 : Nat) := int_eq (by omega) (by omega)
      have one : overlay (overlay dst n [0]) (n + 1) (List.replicate k 0) =
          overlay dst n (List.replicate (k + 1) 0) := overlay_append
      rw [alignDst,if_pos odd,next,Int.toNat_natCast,
        ih _ (n + 1) fuel (by omega) (by omega) (by omega) (by omega),one,Nat.add_right_comm n 1 k,
        Nat.add_assoc]

theorem alignDst_up8 (dst : Nat → Byte) (n : Nat) (small : up8 n < 2 ^ 31) :
    alignDst 8 dst n = .ok (overlay dst n (align8 n),(up8 n : Nat)) :=
  alignDst_eq dst n ((8 - n % 8) % 8) 8 (by omega) (by omega) small (by omega)

variable (names : List Bytes) (tokens : List (Token Bytes Property))

/-- The copies to `dst`, in the order in which `fdt_output` makes them. -/
def outputCopies : List (Nat × List Byte) := [
  (0,big fdtMagic), (20,big fdtVersion), (24,big 16), (28,big 0),
  (32,big (.ofNat 32 (strings names).length)), (36,big (.ofNat 32 (structImage names tokens).length)),
  (8,big 40), (headerSize,structImage names tokens),
  (headerSize + (structImage names tokens).length,align8 (headerSize + (structImage names tokens).length)),
  (16,big (.ofNat 32 (reserveOffset names tokens))),
  (reserveOffset names tokens,List.replicate 8 0), (reserveOffset names tokens + 8,List.replicate 8 0),
  (12,big (.ofNat 32 (stringsOffset names tokens))),
  (stringsOffset names tokens,strings names),
  (stringsOffset names tokens + (strings names).length,
    align8 (stringsOffset names tokens + (strings names).length)),
  (4,big (.ofNat 32 (flatSize names tokens)))]

theorem outputCopies_apart : (outputCopies names tokens).Pairwise Apart := by
  have body : reserveOffset names tokens = headerSize + (structImage names tokens).length +
      (align8 (headerSize + (structImage names tokens).length)).length := by
    simp [reserveOffset,up8,align8]
  have table : stringsOffset names tokens = reserveOffset names tokens + reservationSize := rfl
  have header : headerSize = 40 := rfl
  have reservation : reservationSize = 16 := rfl
  simp only [outputCopies,List.pairwise_cons,List.forall_mem_cons,Apart,big_length,
    List.length_replicate,List.not_mem_nil,IsEmpty.forall_iff,implies_true,and_true,
    List.Pairwise.nil]
  and_intros <;> omega

/-- The copies leave the flattened tree at `dst`. -/
theorem outputCopies_holds (dst : Nat → Byte) :
    Holds (overlayAll dst (outputCopies names tokens)) 0 (flatten names tokens) := by
  have copies := overlayAll_holds (m := dst) (outputCopies_apart names tokens)
  have body : headerSize + (structImage names tokens).length +
      (align8 (headerSize + (structImage names tokens).length)).length =
      reserveOffset names tokens := by
    simp [reserveOffset,up8,align8]
  have header : 4 + 4 + 4 + 4 + 4 + 4 + 4 + 4 + 4 + 4 = headerSize := rfl
  have table : reserveOffset names tokens + reservationSize = stringsOffset names tokens := rfl
  generalize overlayAll dst (outputCopies names tokens) = m at copies ⊢
  simp only [outputCopies,List.forall_mem_cons] at copies
  obtain ⟨magic,version,last,boot,sizeStrings,sizeStruct,offStruct,block,gap,offReserve,address,size,
    offStrings,strings,gap',total,-⟩ := copies
  have entry : Holds m (reserveOffset names tokens) (List.replicate reservationSize 0) := by
    have split : List.replicate reservationSize (0 : Byte) =
        List.replicate 8 0 ++ List.replicate 8 0 := rfl
    rw [split]
    exact holds_append.mpr ⟨address,size⟩
  simp only [flatten,Header.image,flatHeader,List.flatten_cons,List.flatten_nil,List.append_nil,
    holds_append,List.length_append,big_length,Nat.zero_add,header,List.length_replicate,← Nat.add_assoc,
    body,table]
  exact ⟨⟨magic,total,offStruct,offStrings,offReserve,version,last,boot,sizeStrings,sizeStruct⟩,
    block,gap,entry,strings,gap'⟩

variable {names tokens}

theorem copyFrom_eq {m : Nat → Byte} {data : List Byte} {size : Int} (holds : Holds m 0 data)
    (room : (data.length : Int) ≤ size) : copyFrom m size data.length = .ok data := by
  rw [copyFrom,if_pos room,Int.toNat_natCast,holds.slice]
  rfl

/-- What `fdt_output` returns and writes once the blocks are complete. -/
theorem fdtOutput_eq (emitted : Emitted s (tokens.flatMap (image names)) (strings names))
    (dst : Nat → Byte) (fits : flatSize names tokens < 2 ^ 31) :
    fdtOutput s dst = .ok (flatSize names tokens,overlayAll dst (outputCopies names tokens)) := by
  have inOrder : headerSize + (structImage names tokens).length ≤ reserveOffset names tokens ∧
      reserveOffset names tokens + reservationSize ≤ stringsOffset names tokens ∧
      stringsOffset names tokens + (strings names).length ≤ flatSize names tokens := by
    simp [reserveOffset,stringsOffset,flatSize,up8]
  obtain ⟨small₁,small₂,small₃⟩ : headerSize + (structImage names tokens).length < 2 ^ 31 ∧
      reserveOffset names tokens + reservationSize < 2 ^ 31 ∧
      stringsOffset names tokens + (strings names).length < 2 ^ 31 := by omega
  have body : (structImage names tokens).length =
      (tokens.flatMap (image names)).length + 4 := by
    simp [structImage]
  obtain ⟨t,tag,emitted⟩ := fdtPut32_emits emitted tagEnd (by omega)
  have emitted : Emitted t (structImage names tokens) (strings names) := emitted
  have len := emitted.tabLen
  have structSize : int (t.tabLen * 4) = (structImage names tokens).length := by
    rw [int_eq (by omega) (by omega)]
    omega
  have block := copyFrom_eq emitted.tab (show _ ≤ 4 * t.tabSize by
    have := emitted.tabRoom
    omega)
  have table := copyFrom_eq emitted.stringTable (emitted.stringTableLen ▸ emitted.stringTableRoom)
  have afterBlock : int (fdtHeaderSize + (structImage names tokens).length) =
      (headerSize + (structImage names tokens).length : Nat) := int_add small₁
  have afterReserve : int ((reserveOffset names tokens : Nat) + fdtReserveEntrySize) =
      (stringsOffset names tokens : Nat) := int_add small₂
  have afterTable : int ((stringsOffset names tokens : Nat) + (strings names).length) =
      (stringsOffset names tokens + (strings names).length : Nat) := int_add small₃
  have toReserve (dst : Nat → Byte) : alignDst 8 dst (headerSize + (structImage names tokens).length : Nat) =
      .ok (overlay dst (headerSize + (structImage names tokens).length)
        (align8 (headerSize + (structImage names tokens).length)),(reserveOffset names tokens : Nat)) :=
    alignDst_up8 dst _ ((Nat.le_add_right ..).trans_lt small₂)
  have toTotal (dst : Nat → Byte) : alignDst 8 dst (stringsOffset names tokens + (strings names).length : Nat) =
      .ok (overlay dst (stringsOffset names tokens + (strings names).length)
        (align8 (stringsOffset names tokens + (strings names).length)),(flatSize names tokens : Nat)) :=
    alignDst_up8 dst _ fits
  have first : BitVec.ofInt 32 fdtHeaderSize = 40 := by decide
  have start : fdtHeaderSize.toNat = headerSize := rfl
  simp only [fdtOutput,show fdtEndTag = tagEnd from rfl,tag,ok_bind,structSize,emitted.stringTableLen,
    block,table,afterBlock,hostBytes_eq,BitVec.ofInt_natCast,first,start]
  rw [toReserve,ok_bind]
  simp only [afterReserve,afterTable,Int.toNat_natCast,BitVec.ofInt_natCast]
  rw [toTotal,ok_bind]
  simp only [pure_eq_ok,BitVec.ofInt_natCast,overlayAll,outputCopies,List.foldl_cons,List.foldl_nil]

/-- Nothing behind the blob is written to. -/
theorem outputCopies_outside (dst : Nat → Byte) (behind : flatSize names tokens ≤ i) :
    overlayAll dst (outputCopies names tokens) i = dst i := by
  have inOrder : 40 + (structImage names tokens).length +
      (align8 (40 + (structImage names tokens).length)).length ≤ reserveOffset names tokens ∧
      reserveOffset names tokens + 16 ≤ stringsOffset names tokens ∧
      stringsOffset names tokens + (strings names).length +
        (align8 (stringsOffset names tokens + (strings names).length)).length ≤ flatSize names tokens := by
    simp [reserveOffset,stringsOffset,reservationSize,flatSize,headerSize,up8,align8]
  apply overlayAll_outside
  simp only [outputCopies,List.forall_mem_cons,big_length,List.length_replicate,headerSize,
    List.not_mem_nil,IsEmpty.forall_iff,implies_true,and_true]
  and_intros <;> omega

/-- Calls on a fresh state, then `fdt_output`: the flattened tokens of the calls. -/
theorem fdtCalls_output (calls : List FdtCall) (tab stringTable dst : Nat → Byte)
    (same : calls.map FdtCall.token = tokens)
    (fits : flatSize (learnAll [] tokens) tokens < 2 ^ 31) :
    (calls.foldlM runCall (fdtInit tab stringTable) >>= fun s => fdtOutput s dst) =
        .ok (flatSize (learnAll [] tokens) tokens,
          overlayAll dst (outputCopies (learnAll [] tokens) tokens)) ∧
      ∀ token ∈ tokens, Encodable (learnAll [] tokens) token := by
  obtain ⟨smallBody,smallTable⟩ : (tokens.flatMap (image (learnAll [] tokens))).length < 2 ^ 31 ∧
      (strings (learnAll [] tokens)).length < 2 ^ 31 := by
    simp only [flatSize,stringsOffset,reserveOffset,up8,structImage,List.length_append] at fits
    omega
  have fresh : Emitted (fdtInit tab stringTable) [] (strings []) := fdtInit_emitted tab stringTable
  obtain ⟨s,ran,emitted,encodable⟩ := runCalls_emits calls fresh (List.forall_mem_nil _)
    (by rwa [same]) (by rwa [same,List.length_nil,Nat.zero_add])
  rw [same] at emitted encodable
  rw [ran,ok_bind]
  exact ⟨fdtOutput_eq emitted dst fits, encodable⟩

/-- A well-nested sequence of calls on a fresh state, then `fdt_output`. -/
def runFdt (built : Tree NodeCall PropCall) (tab stringTable dst : Nat → Byte) :
    Except Stop (Int × (Nat → Byte)) := do
  let s ← built.tokens.foldlM runCall (fdtInit tab stringTable)
  fdtOutput s dst

/-- The size of the flattened tree. -/
def totalSize (built : Tree NodeCall PropCall) : Nat :=
  flatSize (learnAll [] (built.tokens.map FdtCall.token)) (built.tokens.map FdtCall.token)

/-- The calls that build a tree of less than 2^31 bytes succeed; the blob is well laid out and
a parser of version 17 reads that tree back. -/
theorem runFdt_roundtrip (built : Tree NodeCall PropCall) (small : totalSize built < 2 ^ 31)
    (tab stringTable dst : Nat → Byte) :
    ∃ (size : Nat) (out : Nat → Byte) (h : Header),
      runFdt built tab stringTable dst = .ok (size,out) ∧
      WellLaid (slice out 0 size) h ∧ h.totalSize.toNat = size ∧
      parse (slice out 0 size) = some (built.map NodeCall.name PropCall.property) ∧
      ∀ i, size ≤ i → out i = dst i := by
  generalize same : built.tokens.map FdtCall.token = tokens
  have fits : flatSize (learnAll [] tokens) tokens < 2 ^ 31 := by rwa [totalSize,same] at small
  have tokens_eq : tokens = (built.map NodeCall.name PropCall.property).tokens := by
    rw [← same,Tree.tokens_map]
  obtain ⟨output,encodable⟩ := fdtCalls_output built.tokens tab stringTable dst same fits
  have size := (outputCopies_holds (learnAll [] tokens) tokens dst).slice
  rw [flatten_length] at size
  refine ⟨flatSize (learnAll [] tokens) tokens,
    overlayAll dst (outputCopies (learnAll [] tokens) tokens),flatHeader (learnAll [] tokens) tokens,
    ?_,?_,?_,?_,fun i => outputCopies_outside dst⟩
  · exact output
  · rw [size]
    exact flatten_wellLaid (by omega)
  · exact (flatHeader_toNat (by omega)).1
  · rw [size,parse_flatten (by omega) encodable,tokens_eq,readTree_tokens]

/-- A root `r` with an empty property `p` and, below it, `c` with the property `q` twice. -/
def smallTree : Tree NodeCall PropCall where
  name := .beginNode ⟨[0x72], by decide⟩
  props := [.prop ⟨[0x70], by decide⟩ []]
  below := .node (.beginNodeNum ⟨[0x63], by decide⟩ 0x10)
    [.propU32 ⟨[0x71], by decide⟩ 5, .propTabStr ⟨[0x71], by decide⟩ [⟨[0x61], by decide⟩]] .nil .nil

theorem runFdt_roundtrip_smallTree :
    ∃ (size : Nat) (out : Nat → Byte) (h : Header),
      runFdt smallTree (fun _ => 0xcc) (fun _ => 0xcc) (fun _ => 0xff) = .ok (size,out) ∧
      WellLaid (slice out 0 size) h ∧ h.totalSize.toNat = size ∧
      parse (slice out 0 size) = some (smallTree.map NodeCall.name PropCall.property) ∧
      ∀ i, size ≤ i → out i = 0xff :=
  runFdt_roundtrip smallTree (by decide +kernel) _ _ _

end Emuriscv
