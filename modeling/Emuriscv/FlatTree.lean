import Emuriscv.DeviceTree

/-! The blocks of a flattened device tree: tokens as big-endian words and padded bytes,
property names as offsets into a table of strings, and the header that finds them. -/
namespace DeviceTree

open Codec

structure Property where
  name : Bytes
  value : Bytes
  deriving DecidableEq, Repr

/-- From a length to the next multiple of four. -/
def pad (length : Nat) : Nat := (4 - length % 4) % 4

def padded (data : Bytes) : Bytes := data ++ List.replicate (pad data.length) 0

def skipPad (length : Nat) : Reader (BitVec 8) Unit := take (pad length) >>= fun _ => pure ()

theorem reads_skipPad (length : Nat) :
    Reads (skipPad length) (List.replicate (pad length) 0) () := by
  have zeros := reads_take (List.replicate (pad length) (0 : BitVec 8))
  rw [List.length_replicate] at zeros
  exact zeros.map _

theorem padded_length (data : Bytes) : (padded data).length % 4 = 0 := by
  simp only [padded,pad,List.length_append,List.length_replicate]
  omega

theorem padded_le (data : Bytes) : data.length ≤ (padded data).length := by
  simp [padded]

/-- The bytes before the next NUL; the NUL is taken too. -/
def readString : Reader (BitVec 8) Bytes
  | [] => none
  | b :: rest => if b = 0 then some ([],rest) else (readString rest).map fun (s,rest) => (b :: s,rest)

theorem reads_string (name : Bytes) (nulFree : 0 ∉ name) : Reads readString (name ++ [0]) name := by
  intro rest
  induction name with
  | nil => rfl
  | cons b name ih =>
    simp only [List.mem_cons,not_or] at nulFree
    have others := ih nulFree.2
    simp only [List.cons_append,readString,if_neg (Ne.symm nulFree.1),others]
    rfl

section Strings

/-- A strings block. -/
def strings (names : List Bytes) : Bytes := names.flatMap (· ++ [0])

def stringAt (block : Bytes) (offset : Nat) : Option Bytes :=
  (readString (block.drop offset)).map Prod.fst

/-- Where a name stands in the block. -/
def offset : List Bytes → Bytes → Nat
  | [], _ => 0
  | first :: names, name => if first = name then 0 else first.length + 1 + offset names name

@[simp] theorem strings_cons (first : Bytes) (names : List Bytes) :
    strings (first :: names) = first ++ 0 :: strings names := by
  simp [strings]

@[simp] theorem strings_append (names more : List Bytes) :
    strings (names ++ more) = strings names ++ strings more := by
  simp [strings]

/-- A name that is there already is not added again. -/
def intern (names : List Bytes) (name : Bytes) : List Bytes :=
  if name ∈ names then names else names ++ [name]

theorem mem_intern (names : List Bytes) (name : Bytes) : name ∈ intern names name := by
  unfold intern
  split
  · assumption
  · simp

theorem intern_extends (names : List Bytes) (name : Bytes) : names <+: intern names name := by
  unfold intern
  split <;> simp

theorem intern_nulFree {names : List Bytes} {name : Bytes} (nulFree : ∀ n ∈ names, 0 ∉ n)
    (free : 0 ∉ name) : ∀ n ∈ intern names name, 0 ∉ n := by
  intro n member
  unfold intern at member
  split at member
  · exact nulFree n member
  · rcases List.mem_append.mp member with old | new
    · exact nulFree n old
    · rwa [List.mem_singleton.mp new]

theorem offset_extends {names names' : List Bytes} (before : names <+: names') (here : name ∈ names) :
    offset names' name = offset names name := by
  obtain ⟨more,rfl⟩ := before
  induction names with
  | nil => cases here
  | cons first names ih =>
    by_cases same : first = name
    · simp [offset,same]
    · have later : name ∈ names := by simpa [Ne.symm same] using here
      simp [offset,same,ih later]

theorem offset_new {names : List Bytes} (new : name ∉ names) :
    offset (names ++ [name]) name = (strings names).length := by
  induction names with
  | nil => simp [offset,strings]
  | cons first names ih =>
    rw [List.mem_cons,not_or] at new
    simp [offset,Ne.symm new.1,ih new.2]
    omega

theorem offset_lt {names : List Bytes} (here : name ∈ names) :
    offset names name < (strings names).length := by
  induction names with
  | nil => cases here
  | cons first names ih =>
    by_cases same : first = name
    · simp [offset,same]
    · have later : name ∈ names := by simpa [Ne.symm same] using here
      have := ih later
      simp [offset,same]
      omega

theorem stringAt_offset {names : List Bytes} (here : name ∈ names) (nulFree : 0 ∉ name) :
    stringAt (strings names) (offset names name) = some name := by
  induction names with
  | nil => cases here
  | cons first names ih =>
    by_cases same : first = name
    · subst same
      have read := reads_string first nulFree (strings names)
      simp only [List.append_assoc,List.cons_append,List.nil_append] at read
      rw [stringAt,offset,if_pos rfl,List.drop_zero,strings_cons,read]
      rfl
    · have later : name ∈ names := by simpa [Ne.symm same] using here
      have skip : (strings (first :: names)).drop (offset (first :: names) name) =
          (strings names).drop (offset names name) := by
        simp only [offset,same,if_false,strings_cons]
        rw [Nat.add_assoc,← List.drop_drop,List.drop_left,Nat.add_comm]
        rfl
      rw [stringAt,skip]
      exact ih later

end Strings

section Structure

def tagBeginNode : BitVec 32 := 1
def tagEndNode : BitVec 32 := 2
def tagProp : BitVec 32 := 3
def tagNop : BitVec 32 := 4
def tagEnd : BitVec 32 := 9

/-- What stands in a structure block. -/
inductive Lexeme where
  | token (t : Token Bytes Property)
  | nop
  | finish

def readLexeme (block : Bytes) : Reader (BitVec 8) Lexeme := do
  let tag ← readBig
  if tag = tagBeginNode then
    let name ← readString
    skipPad (name.length + 1)
    pure (.token (.beginNode name))
  else if tag = tagEndNode then pure (.token .endNode)
  else if tag = tagProp then
    let size ← readBig
    let nameOffset ← readBig
    let value ← take size.toNat
    skipPad size.toNat
    match stringAt block nameOffset.toNat with
    | some name => pure (.token (.prop ⟨name,value⟩))
    | none => failure
  else if tag = tagNop then pure .nop
  else if tag = tagEnd then pure .finish
  else failure

def readTokens (block : Bytes) : Nat → Reader (BitVec 8) (List (Token Bytes Property))
  | 0 => failure
  | fuel + 1 => do
    match ← readLexeme block with
    | .token t => readTokens block fuel >>= fun others => pure (t :: others)
    | .nop => readTokens block fuel
    | .finish => pure []

/-- The image of a token when the property names stand in the table `names`. -/
def image (names : List Bytes) : Token Bytes Property → Bytes
  | .beginNode name => big tagBeginNode ++ padded (name ++ [0])
  | .prop p =>
    big tagProp ++ (big (.ofNat 32 p.value.length) ++
      (big (.ofNat 32 (offset names p.name)) ++ padded p.value))
  | .endNode => big tagEndNode

/-- The tokens that have an image: no NUL in a name, property names in the table. -/
def Encodable (names : List Bytes) : Token Bytes Property → Prop
  | .beginNode name => 0 ∉ name
  | .prop p => 0 ∉ p.name ∧ p.name ∈ names ∧ p.value.length < 2 ^ 32
  | .endNode => True

theorem readLexeme_reads {names : List Bytes} {t : Token Bytes Property}
    (encodable : Encodable names t) (small : (strings names).length < 2 ^ 32) :
    Reads (readLexeme (strings names)) (image names t) (.token t) := by
  cases t with
  | beginNode name =>
    have zeros := (reads_skipPad (name.length + 1)).map
      fun _ => Lexeme.token (.beginNode name)
    have length : (name ++ [(0 : BitVec 8)]).length = name.length + 1 := by simp
    rw [image,padded,length]
    exact (reads_big tagBeginNode).bind ((reads_string name encodable).bind zeros)
  | endNode =>
    rw [image,← List.append_nil (big tagEndNode)]
    exact (reads_big tagEndNode).bind (reads_pure _)
  | prop p =>
    obtain ⟨nulFree,here,short⟩ := encodable
    have size : (BitVec.ofNat 32 p.value.length).toNat = p.value.length := by
      simpa using short
    have place : (BitVec.ofNat 32 (offset names p.name)).toNat = offset names p.name := by
      have := offset_lt here
      simp
      omega
    have zeros := (reads_skipPad p.value.length).map fun _ => Lexeme.token (.prop p)
    refine (reads_big tagProp).bind <| (reads_big _).bind <| (reads_big _).bind ?_
    rw [size,place,padded,stringAt_offset here nulFree]
    exact (reads_take p.value).bind zeros

theorem readTokens_reads {names : List Bytes} (tokens : List (Token Bytes Property)) (fuel : Nat)
    (encodable : ∀ t ∈ tokens, Encodable names t) (small : (strings names).length < 2 ^ 32)
    (enough : tokens.length < fuel) :
    Reads (readTokens (strings names) fuel) (tokens.flatMap (image names) ++ big tagEnd) tokens := by
  induction tokens generalizing fuel with
  | nil =>
    obtain ⟨fuel,rfl⟩ := Nat.exists_eq_add_of_lt enough
    intro rest
    rfl
  | cons t tokens ih =>
    obtain ⟨fuel,rfl⟩ := Nat.exists_eq_add_of_lt enough
    simp only [List.mem_cons,forall_eq_or_imp] at encodable
    have others := ih (tokens.length + 1 + fuel) encodable.2 (by omega)
    rw [List.flatMap_cons,List.append_assoc]
    have enough' : (t :: tokens).length + fuel + 1 = tokens.length + 1 + fuel + 1 := by
      simp
    rw [enough',readTokens]
    exact (readLexeme_reads encodable.1 small).bind (others.map _)

theorem image_pos (names : List Bytes) (t : Token Bytes Property) : 0 < (image names t).length := by
  cases t <;> simp [image]

theorem image_extends {names names' : List Bytes} {t : Token Bytes Property}
    (before : names <+: names') (encodable : Encodable names t) : image names' t = image names t := by
  cases t with
  | prop p => simp [image,offset_extends before encodable.2.1]
  | beginNode | endNode => rfl

/-- The structure block of a token sequence. -/
def structImage (names : List Bytes) (tokens : List (Token Bytes Property)) : Bytes :=
  tokens.flatMap (image names) ++ big tagEnd

theorem image_length (names names' : List Bytes) (t : Token Bytes Property) :
    (image names t).length = (image names' t).length := by
  cases t <;> simp [image]

theorem Encodable.mono {names names' : List Bytes} {t : Token Bytes Property}
    (encodable : Encodable names t) (before : names <+: names') : Encodable names' t := by
  cases t with
  | prop p => exact ⟨encodable.1,before.subset encodable.2.1,encodable.2.2⟩
  | beginNode | endNode => exact encodable

/-- The table after one more token. -/
def learn (names : List Bytes) : Token Bytes Property → List Bytes
  | .prop p => intern names p.name
  | .beginNode _ | .endNode => names

/-- The names in the order of their first use, behind those of `names`. -/
def learnAll (names : List Bytes) (tokens : List (Token Bytes Property)) : List Bytes :=
  tokens.foldl learn names

/-- A token with the length of its value only. -/
def outline : Token Bytes Property → Token Bytes (Bytes × Nat) :=
  Token.map id fun p => (p.name,p.value.length)

theorem image_outline (names names' : List Bytes) {t t' : Token Bytes Property}
    (same : outline t = outline t') : (image names t).length = (image names' t').length := by
  cases t <;> cases t' <;> simp_all [outline,Token.map,image,padded,pad]

theorem learnAll_outline (names : List Bytes) {tokens tokens' : List (Token Bytes Property)}
    (same : tokens.map outline = tokens'.map outline) : learnAll names tokens = learnAll names tokens' := by
  induction tokens generalizing names tokens' with
  | nil => rw [List.map_eq_nil_iff.mp same.symm]
  | cons t rest ih =>
    obtain ⟨t',rest',rfl,first,later⟩ := List.map_eq_cons_iff.mp same.symm
    have learned : learn names t = learn names t' := by
      cases t <;> cases t' <;> simp_all [outline,Token.map,learn]
    simp only [learnAll,List.foldl_cons,learned]
    exact ih _ later.symm

theorem learn_extends (names : List Bytes) (t : Token Bytes Property) : names <+: learn names t := by
  cases t with
  | prop p => exact intern_extends names p.name
  | beginNode | endNode => exact List.prefix_rfl

theorem learnAll_extends (names : List Bytes) (tokens : List (Token Bytes Property)) :
    names <+: learnAll names tokens := by
  induction tokens generalizing names with
  | nil => exact List.prefix_rfl
  | cons t tokens ih => exact (learn_extends names t).trans (ih _)

theorem tokens_le (names : List Bytes) (tokens : List (Token Bytes Property)) :
    tokens.length ≤ (tokens.flatMap (image names)).length := by
  induction tokens with
  | nil => simp
  | cons t tokens ih =>
    have := image_pos names t
    simp only [List.flatMap_cons,List.length_cons,List.length_append]
    omega

end Structure

section Blob

structure Header where
  magic : BitVec 32
  totalSize : BitVec 32
  offStruct : BitVec 32
  offStrings : BitVec 32
  offReserve : BitVec 32
  version : BitVec 32
  lastVersion : BitVec 32
  bootCpu : BitVec 32
  sizeStrings : BitVec 32
  sizeStruct : BitVec 32
  deriving DecidableEq, Repr

def headerSize : Nat := 40
def magicNumber : BitVec 32 := 0xd00dfeed
/-- The size of one reservation; a zero reservation ends the list. -/
def reservationSize : Nat := 16

def Header.image (h : Header) : Bytes :=
  List.flatten [big h.magic, big h.totalSize, big h.offStruct, big h.offStrings, big h.offReserve,
    big h.version, big h.lastVersion, big h.bootCpu, big h.sizeStrings, big h.sizeStruct]

@[simp] theorem Header.image_length (h : Header) : h.image.length = headerSize := rfl

def readHeader : Reader (BitVec 8) Header := do
  let magic ← readBig
  let totalSize ← readBig
  let offStruct ← readBig
  let offStrings ← readBig
  let offReserve ← readBig
  let version ← readBig
  let lastVersion ← readBig
  let bootCpu ← readBig
  let sizeStrings ← readBig
  let sizeStruct ← readBig
  pure { magic, totalSize, offStruct, offStrings, offReserve, version, lastVersion, bootCpu
         sizeStrings, sizeStruct }

theorem readHeader_reads (h : Header) : Reads readHeader h.image h := by
  simp only [Header.image,List.flatten_cons,List.flatten_nil]
  exact (reads_big _).bind <| (reads_big _).bind <| (reads_big _).bind <| (reads_big _).bind <|
    (reads_big _).bind <| (reads_big _).bind <| (reads_big _).bind <| (reads_big _).bind <|
    (reads_big _).bind <| (reads_big _).bind <| reads_pure _

structure Block where
  offset : Nat
  size : Nat
  deriving DecidableEq, Repr

def Block.bytes (b : Block) (blob : Bytes) : Bytes := (blob.drop b.offset).take b.size

def Block.Inside (b : Block) (total : Nat) : Prop := b.offset + b.size ≤ total

def Block.Apart (a b : Block) : Prop := a.offset + a.size ≤ b.offset ∨ b.offset + b.size ≤ a.offset

instance (b : Block) (total : Nat) : Decidable (b.Inside total) :=
  inferInstanceAs (Decidable (_ ≤ _))

def headerBlock : Block := ⟨0,headerSize⟩

def Header.structBlock (h : Header) : Block := ⟨h.offStruct.toNat,h.sizeStruct.toNat⟩

def Header.reserveBlock (h : Header) : Block := ⟨h.offReserve.toNat,reservationSize⟩

def Header.stringsBlock (h : Header) : Block := ⟨h.offStrings.toNat,h.sizeStrings.toNat⟩

def Header.blocks (h : Header) : List Block :=
  [headerBlock,h.structBlock,h.reserveBlock,h.stringsBlock]

/-- Accepted are blobs of version 17 whose blocks are aligned and inside, and whose structure
block holds one tree and nothing more. -/
def parse (blob : Bytes) : Option (Tree Bytes Property) := do
  let (h,_) ← readHeader blob
  guard (h.magic = magicNumber ∧ h.lastVersion.toNat ≤ 17 ∧ 17 ≤ h.version.toNat)
  guard (h.totalSize.toNat ≤ blob.length ∧ ∀ b ∈ h.blocks, b.Inside h.totalSize.toNat)
  guard (h.offStruct.toNat % 4 = 0 ∧ h.offReserve.toNat % 8 = 0)
  let block := h.structBlock.bytes blob
  let (tokens,rest) ← readTokens (h.stringsBlock.bytes blob) (block.length + 1) block
  guard (rest = [])
  readTree tokens

/-- The header describes blocks of the blob that are inside, apart and aligned; the
reservation block is the terminating entry alone. -/
structure WellLaid (blob : Bytes) (h : Header) : Prop where
  header : blob.take headerSize = h.image
  magic : h.magic = magicNumber
  version : h.version = 17
  lastVersion : h.lastVersion.toNat ≤ 17
  total : h.totalSize.toNat = blob.length
  inside : ∀ b ∈ h.blocks, b.Inside blob.length
  apart : h.blocks.Pairwise Block.Apart
  structAligned : h.offStruct.toNat % 4 = 0
  reserveAligned : h.offReserve.toNat % 8 = 0
  totalAligned : blob.length % 8 = 0
  reserved : h.reserveBlock.bytes blob = List.replicate reservationSize 0

theorem parse_of_wellLaid {names : List Bytes} {tokens : List (Token Bytes Property)}
    (laid : WellLaid blob h) (body : h.structBlock.bytes blob = structImage names tokens)
    (table : h.stringsBlock.bytes blob = strings names)
    (encodable : ∀ t ∈ tokens, Encodable names t) (small : (strings names).length < 2 ^ 32) :
    parse blob = readTree tokens := by
  have header : readHeader blob = some (h,blob.drop headerSize) := by
    have read := readHeader_reads h (blob.drop headerSize)
    rwa [← laid.header,List.take_append_drop] at read
  have enough : tokens.length < (structImage names tokens).length + 1 := by
    have := tokens_le names tokens
    simp only [structImage,List.length_append]
    omega
  have lexed := readTokens_reads tokens _ encodable small enough []
  rw [List.append_nil] at lexed
  have inside := laid.inside
  rw [← laid.total] at inside
  simp only [parse,header,body,table,Option.bind_eq_bind,Option.bind_some]
  rw [guard,if_pos ⟨laid.magic,laid.lastVersion,by rw [laid.version]; decide⟩,guard,
    if_pos ⟨laid.total.le,inside⟩,guard,if_pos ⟨laid.structAligned,laid.reserveAligned⟩]
  rw [← structImage] at lexed
  simp [lexed]

/-- The next multiple of eight. -/
def up8 (length : Nat) : Nat := length + (8 - length % 8) % 8

/-- Zeros up to it. -/
def align8 (length : Nat) : Bytes := List.replicate ((8 - length % 8) % 8) 0

variable (names : List Bytes) (tokens : List (Token Bytes Property))

def reserveOffset : Nat := up8 (headerSize + (structImage names tokens).length)

def stringsOffset : Nat := reserveOffset names tokens + reservationSize

def flatSize : Nat := up8 (stringsOffset names tokens + (strings names).length)

omit names tokens in
theorem structImage_outline (names names' : List Bytes) {tokens tokens' : List (Token Bytes Property)}
    (same : tokens.map outline = tokens'.map outline) :
    (structImage names tokens).length = (structImage names' tokens').length := by
  have body : (tokens.flatMap (image names)).length = (tokens'.flatMap (image names')).length := by
    induction tokens generalizing tokens' with
    | nil =>
      rw [List.map_eq_nil_iff.mp same.symm]
      rfl
    | cons t rest ih =>
      obtain ⟨t',rest',rfl,first,later⟩ := List.map_eq_cons_iff.mp same.symm
      simp [image_outline names names' first.symm,ih later.symm]
  simp [structImage,body]

omit names tokens in
/-- The size of a tree depends on its names and on how long its values are. -/
theorem flatSize_outline {tokens tokens' : List (Token Bytes Property)}
    (same : tokens.map outline = tokens'.map outline) :
    flatSize (learnAll [] tokens) tokens = flatSize (learnAll [] tokens') tokens' := by
  have body := structImage_outline (learnAll [] tokens') (learnAll [] tokens') same
  simp only [flatSize,stringsOffset,reserveOffset,learnAll_outline [] same,body]

def flatHeader : Header where
  magic := magicNumber
  totalSize := .ofNat 32 (flatSize names tokens)
  offStruct := .ofNat 32 headerSize
  offStrings := .ofNat 32 (stringsOffset names tokens)
  offReserve := .ofNat 32 (reserveOffset names tokens)
  version := 17
  lastVersion := 16
  bootCpu := 0
  sizeStrings := .ofNat 32 (strings names).length
  sizeStruct := .ofNat 32 (structImage names tokens).length

/-- Header, structure block, terminating reservation and strings block, in this order. -/
def flatten : Bytes :=
  List.flatten [(flatHeader names tokens).image, structImage names tokens,
    align8 (headerSize + (structImage names tokens).length), List.replicate reservationSize 0,
    strings names, align8 (stringsOffset names tokens + (strings names).length)]

theorem flatten_length : (flatten names tokens).length = flatSize names tokens := by
  simp [flatten,flatSize,stringsOffset,reserveOffset,up8,align8]
  omega

theorem block_bytes {b : Block} {blob before data after : Bytes}
    (split : blob = before ++ (data ++ after)) (start : b.offset = before.length)
    (size : b.size = data.length) : b.bytes blob = data := by
  simp [Block.bytes,split,start,size]

variable {names tokens}

section Fits

variable (fits : flatSize names tokens < 2 ^ 32)
include fits

theorem flatHeader_toNat :
    (flatHeader names tokens).totalSize.toNat = flatSize names tokens ∧
    (flatHeader names tokens).structBlock = ⟨headerSize,(structImage names tokens).length⟩ ∧
    (flatHeader names tokens).reserveBlock = ⟨reserveOffset names tokens,reservationSize⟩ ∧
    (flatHeader names tokens).stringsBlock = ⟨stringsOffset names tokens,(strings names).length⟩ := by
  have total : stringsOffset names tokens + (strings names).length < 2 ^ 32 := by
    simp only [flatSize,up8] at fits
    omega
  have body : headerSize + (structImage names tokens).length ≤ reserveOffset names tokens := by
    simp [reserveOffset,up8]
  have reserve : reserveOffset names tokens < stringsOffset names tokens := by
    simp [stringsOffset,reservationSize]
  simp only [flatHeader,Header.structBlock,Header.reserveBlock,Header.stringsBlock,
    BitVec.toNat_ofNat,Block.mk.injEq,Nat.mod_eq_of_lt fits,true_and,and_true]
  refine ⟨⟨?_,?_⟩,?_,?_,?_⟩ <;> apply Nat.mod_eq_of_lt <;> omega

theorem flatten_structBlock : (flatHeader names tokens).structBlock.bytes (flatten names tokens) =
    structImage names tokens := by
  rw [(flatHeader_toNat fits).2.1]
  exact block_bytes rfl rfl rfl

theorem flatten_reserveBlock : (flatHeader names tokens).reserveBlock.bytes (flatten names tokens) =
    List.replicate reservationSize 0 := by
  rw [(flatHeader_toNat fits).2.2.1]
  have split : flatten names tokens = ((flatHeader names tokens).image ++
      (structImage names tokens ++ align8 (headerSize + (structImage names tokens).length))) ++
      (List.replicate reservationSize 0 ++ (strings names ++
        align8 (stringsOffset names tokens + (strings names).length))) := by
    simp [flatten]
  refine block_bytes split ?_ (by simp)
  simp [reserveOffset,up8,align8]
  omega

theorem flatten_stringsBlock : (flatHeader names tokens).stringsBlock.bytes (flatten names tokens) =
    strings names := by
  rw [(flatHeader_toNat fits).2.2.2]
  have split : flatten names tokens = ((flatHeader names tokens).image ++
      (structImage names tokens ++ (align8 (headerSize + (structImage names tokens).length) ++
        List.replicate reservationSize 0))) ++
      (strings names ++ align8 (stringsOffset names tokens + (strings names).length)) := by
    simp [flatten]
  refine block_bytes split ?_ rfl
  simp [stringsOffset,reserveOffset,up8,align8]
  omega

theorem flatten_wellLaid : WellLaid (flatten names tokens) (flatHeader names tokens) := by
  obtain ⟨total,body,reserve,table⟩ := flatHeader_toNat fits
  have after : headerSize + (structImage names tokens).length ≤ reserveOffset names tokens := by
    simp [reserveOffset,up8]
  have last : stringsOffset names tokens + (strings names).length ≤ flatSize names tokens := by
    simp [flatSize,up8]
  have next : stringsOffset names tokens = reserveOffset names tokens + reservationSize := rfl
  constructor
  case header => rfl
  case magic => rfl
  case version => rfl
  case lastVersion => simp [flatHeader]
  case total => rw [total,flatten_length]
  case inside =>
    simp only [Header.blocks,body,reserve,table,headerBlock,flatten_length,List.forall_mem_cons,
      Block.Inside]
    refine ⟨?_,?_,?_,?_,by simp⟩ <;> omega
  case apart =>
    simp only [Header.blocks,body,reserve,table,headerBlock,Block.Apart,List.pairwise_cons,
      List.forall_mem_cons]
    refine ⟨⟨?_,?_,?_,by simp⟩,⟨?_,?_,by simp⟩,⟨?_,by simp⟩,by simp⟩ <;> omega
  case structAligned => simp [flatHeader,headerSize]
  case reserveAligned =>
    have offset : (flatHeader names tokens).offReserve.toNat = reserveOffset names tokens :=
      congrArg Block.offset reserve
    rw [offset,reserveOffset,up8]
    omega
  case totalAligned =>
    rw [flatten_length,flatSize,up8]
    omega
  case reserved => exact flatten_reserveBlock fits

/-- The parser undoes the flattening. -/
theorem parse_flatten (encodable : ∀ t ∈ tokens, Encodable names t) :
    parse (flatten names tokens) = readTree tokens := by
  have small : (strings names).length < 2 ^ 32 := by
    simp only [flatSize,up8] at fits
    omega
  exact parse_of_wellLaid (flatten_wellLaid fits) (flatten_structBlock fits)
    (flatten_stringsBlock fits) encodable small

end Fits

end Blob

end DeviceTree
