import Mathlib.Tactic.Common
import Mathlib.Tactic.IntervalCases

/-! The page-table walk of Sv32 over an arbitrary partial memory of 32-bit words.
Addresses are naturals truncated to a bus width, so that the 34-bit walk of the
architecture and the walk of a machine with a narrower bus are two instances. -/
namespace Sv32

abbrev Pte := BitVec 32

inductive Access where
  | read
  | write
  | execute
  deriving DecidableEq, Repr

/-- What a single entry is, before the level at which it stands is considered. -/
inductive Kind where
  | invalid
  | pointer
  | leaf
  deriving DecidableEq, Repr

namespace Pte

def valid (e : Pte) : Bool := e.getLsbD 0
def readable (e : Pte) : Bool := e.getLsbD 1
def writable (e : Pte) : Bool := e.getLsbD 2
def executable (e : Pte) : Bool := e.getLsbD 3
def user (e : Pte) : Bool := e.getLsbD 4
def accessed (e : Pte) : Bool := e.getLsbD 6
def dirty (e : Pte) : Bool := e.getLsbD 7
def ppn (e : Pte) : Nat := (e >>> 10).toNat

def kind (e : Pte) : Kind :=
  if !e.valid || (e.writable && !e.readable) then .invalid
  else if e.readable || e.executable then .leaf
  else .pointer

/-- The access and privilege check of the architecture on a leaf entry. -/
def permits (e : Pte) (access : Access) (userMode sum mxr : Bool) : Bool :=
  (match access with
    | .read => e.readable || (mxr && e.executable)
    | .write => e.writable
    | .execute => e.executable) &&
  (if userMode then e.user else !e.user || (sum && access != .execute))

/-- The entry after a walk has recorded an access in it. -/
def mark (e : Pte) (access : Access) : Pte :=
  e ||| (0x40 ||| (if access = .write then 0x80 else 0))

end Pte

inductive Outcome where
  | unmapped (level address : Nat)
  | invalid (level address : Nat) (entry : Pte)
  | dangling (address : Nat) (entry : Pte)
  | leaf (level address : Nat) (entry : Pte)
  deriving DecidableEq, Repr

/-- A pointer where no level is left. -/
def Outcome.Dangling (outcome : Outcome) : Prop :=
  ∃ address entry, outcome = .dangling address entry

/-- A leaf whose page is not aligned to the size its level gives it. -/
def Outcome.Misaligned (outcome : Outcome) : Prop :=
  ∃ level address entry, outcome = .leaf level address entry ∧ entry.ppn % 2 ^ (10 * level) ≠ 0

/-- The walk met an entry with V = 0, or with W = 1 and R = 0. -/
def Outcome.MeetsInvalid (outcome : Outcome) : Prop :=
  ∃ level address entry, outcome = .invalid level address entry

/-- The shapes that the architecture turns into a page fault. -/
def Outcome.Malformed (outcome : Outcome) : Prop :=
  outcome.MeetsInvalid ∨ outcome.Dangling ∨ outcome.Misaligned

def vpn (va : BitVec 32) (level : Nat) : Nat := va.toNat / 2 ^ (12 + 10 * level) % 2 ^ 10

def entryAddress (width : Nat) (va : BitVec 32) (level table : Nat) : Nat :=
  (table * 2 ^ 12 + 4 * vpn va level) % 2 ^ width

/-- Offset of an address inside the page that a leaf of this level maps. -/
def pageOffset (va : BitVec 32) (level : Nat) : Nat := va.toNat % 2 ^ (12 + 10 * level)

variable {width : Nat} {memory : Nat → Option Pte} {va : BitVec 32}

def visit (width : Nat) (memory : Nat → Option Pte) (va : BitVec 32) (level table : Nat)
    (next : Nat → Pte → Outcome) : Outcome :=
  let address := entryAddress width va level table
  match memory address with
  | none => .unmapped level address
  | some entry =>
    match entry.kind with
    | .invalid => .invalid level address entry
    | .leaf => .leaf level address entry
    | .pointer => next address entry

def walk (width : Nat) (memory : Nat → Option Pte) (va : BitVec 32) : Nat → Nat → Outcome
  | 0, table => visit width memory va 0 table .dangling
  | level + 1, table =>
    visit width memory va (level + 1) table fun _ entry => walk width memory va level entry.ppn

theorem visit_unmapped (h : memory (entryAddress width va level table) = none) :
    visit width memory va level table next =
      .unmapped level (entryAddress width va level table) := by
  simp [visit,h]

theorem visit_invalid (h : memory (entryAddress width va level table) = some entry)
    (kind : entry.kind = .invalid) : visit width memory va level table next =
      .invalid level (entryAddress width va level table) entry := by
  simp [visit,h,kind]

theorem visit_leaf (h : memory (entryAddress width va level table) = some entry)
    (kind : entry.kind = .leaf) : visit width memory va level table next =
      .leaf level (entryAddress width va level table) entry := by
  simp [visit,h,kind]

theorem visit_pointer (h : memory (entryAddress width va level table) = some entry)
    (kind : entry.kind = .pointer) : visit width memory va level table next =
      next (entryAddress width va level table) entry := by
  simp [visit,h,kind]

/-- A visit stops at its own entry or hands a pointer on. -/
theorem visit_cases (width : Nat) (memory : Nat → Option Pte) (va : BitVec 32) (level table : Nat) :
    memory (entryAddress width va level table) = none ∨
    ∃ entry, memory (entryAddress width va level table) = some entry ∧
      (entry.kind = .invalid ∨ entry.kind = .leaf ∨ entry.kind = .pointer) := by
  cases h : memory (entryAddress width va level table) with
  | none => exact Or.inl rfl
  | some entry => exact Or.inr ⟨entry, rfl, by cases entry.kind <;> simp⟩

/-- Where a leaf outcome comes from: the first visit, or the rest of the walk. -/
theorem walk_leaf_cases (level table : Nat)
    (h : walk width memory va level table = .leaf l address entry) :
    (l = level ∧ address = entryAddress width va level table ∧ memory address = some entry ∧
      entry.kind = .leaf) ∨
    ∃ below e, level = below + 1 ∧ memory (entryAddress width va level table) = some e ∧
      e.kind = .pointer ∧ walk width memory va below e.ppn = .leaf l address entry := by
  rcases visit_cases width memory va level table with none | ⟨e, read, kind | kind | kind⟩
  · cases level <;> simp [walk,visit_unmapped none] at h
  · cases level <;> simp [walk,visit_invalid read kind] at h
  · refine Or.inl ?_
    have here : Outcome.leaf level (entryAddress width va level table) e = .leaf l address entry := by
      cases level <;> rwa [walk,visit_leaf read kind] at h
    obtain ⟨rfl,rfl,rfl⟩ := Outcome.leaf.inj here
    exact ⟨rfl,rfl,read,kind⟩
  · cases level with
    | zero => simp [walk,visit_pointer read kind] at h
    | succ below =>
      rw [walk,visit_pointer read kind] at h
      exact Or.inr ⟨below,e,rfl,read,kind,h⟩

/-- A leaf outcome names an entry that memory holds and that is a leaf. -/
theorem walk_leaf_read (level table : Nat)
    (h : walk width memory va level table = .leaf l address entry) :
    memory address = some entry ∧ entry.kind = .leaf ∧ l ≤ level ∧
      ∃ t, address = entryAddress width va l t := by
  induction level generalizing table with
  | zero =>
    rcases walk_leaf_cases 0 table h with ⟨rfl,place,read,kind⟩ | ⟨below,e,zero,_⟩
    · exact ⟨read, kind, Nat.le_refl _, table, place⟩
    · contradiction
  | succ level ih =>
    rcases walk_leaf_cases (level + 1) table h with ⟨rfl,place,read,kind⟩ | ⟨below,e,same,_,_,rest⟩
    · exact ⟨read, kind, Nat.le_refl _, table, place⟩
    · obtain rfl := Nat.succ.inj same
      obtain ⟨read,kind,bound,place⟩ := ih _ rest
      exact ⟨read, kind, Nat.le_succ_of_le bound, place⟩

/-- Rewriting the leaf of a walk by another leaf leaves the path alone: a word that
served as a pointer on the path cannot be the word where the path ended. -/
theorem walk_rewrite_leaf {memory' : Nat → Option Pte} (level table : Nat)
    (h : walk width memory va level table = .leaf l address entry)
    (others : ∀ l t, entryAddress width va l t ≠ address →
      memory' (entryAddress width va l t) = memory (entryAddress width va l t))
    (rewritten : memory' address = some entry') (leaf : entry'.kind = .leaf) :
    walk width memory' va level table = .leaf l address entry' := by
  obtain ⟨final,kind,-⟩ := walk_leaf_read level table h
  -- the final entry is a leaf, so a pointer on the path is at another address
  have apart : ∀ l t e, memory (entryAddress width va l t) = some e → e.kind = .pointer →
      memory' (entryAddress width va l t) = some e := by
    intro l t e read pointer
    rw [others l t,read]
    intro same
    rw [same,final,Option.some.injEq] at read
    rw [read,pointer] at kind
    contradiction
  induction level generalizing table with
  | zero =>
    rcases walk_leaf_cases 0 table h with ⟨rfl,rfl,_⟩ | ⟨below,e,zero,_⟩
    · exact visit_leaf rewritten leaf
    · contradiction
  | succ level ih =>
    rcases walk_leaf_cases (level + 1) table h with ⟨rfl,rfl,_⟩ | ⟨below,e,same,read,pointer,rest⟩
    · exact visit_leaf rewritten leaf
    · obtain rfl := Nat.succ.inj same
      rw [walk,visit_pointer (apart _ _ _ read pointer) pointer]
      exact ih _ rest

theorem entryAddress_aligned (wide : 2 ≤ width) (level table : Nat) :
    entryAddress width va level table % 4 = 0 := by
  unfold entryAddress
  rw [Nat.mod_mod_of_dvd _ (Nat.pow_dvd_pow 2 wide)]
  omega

theorem walk_vpn {va' : BitVec 32} (level table : Nat)
    (same : ∀ l, l ≤ level → vpn va' l = vpn va l) :
    walk width memory va' level table = walk width memory va level table := by
  induction level generalizing table with
  | zero => simp [walk,visit,entryAddress,same 0]
  | succ level ih =>
    have below (t : Nat) : walk width memory va' level t = walk width memory va level t :=
      ih t fun l bound => same l (Nat.le_succ_of_le bound)
    simp [walk,visit,entryAddress,same (level + 1),below]

/-- The entries that a walk reads, pointer by pointer. -/
def Visits (width : Nat) (memory : Nat → Option Pte) (va : BitVec 32) : Nat → Nat → Nat → Prop
  | 0, table, address => address = entryAddress width va 0 table
  | level + 1, table, address => address = entryAddress width va (level + 1) table ∨
      ∃ e, memory (entryAddress width va (level + 1) table) = some e ∧ e.kind = .pointer ∧
        Visits width memory va level e.ppn address

theorem visits_aligned (wide : 2 ≤ width) (level table : Nat)
    (visits : Visits width memory va level table address) : address % 4 = 0 := by
  induction level generalizing table with
  | zero =>
    rw [visits]
    exact entryAddress_aligned wide 0 table
  | succ level ih =>
    rcases visits with place | ⟨e,_,_,rest⟩
    · rw [place]
      exact entryAddress_aligned wide _ table
    · exact ih _ rest

theorem walk_leaf_visits (level table : Nat)
    (h : walk width memory va level table = .leaf l address entry) :
    Visits width memory va level table address := by
  induction level generalizing table with
  | zero =>
    rcases walk_leaf_cases 0 table h with ⟨_,place,_⟩ | ⟨_,_,zero,_⟩
    · exact place
    · contradiction
  | succ level ih =>
    rcases walk_leaf_cases (level + 1) table h with ⟨_,place,_⟩ | ⟨below,e,same,read,pointer,rest⟩
    · exact Or.inl place
    · obtain rfl := Nat.succ.inj same
      exact Or.inr ⟨e, read, pointer, ih _ rest⟩

/-- A memory whose visited entries keep their kind and their page number is walked along the
same path. -/
theorem walk_follow {memory' : Nat → Option Pte} (level table : Nat)
    (h : walk width memory va level table = .leaf l address entry)
    (kept : ∀ x e, Visits width memory va level table x → memory x = some e →
      ∃ e', memory' x = some e' ∧ e'.kind = e.kind ∧ e'.ppn = e.ppn) :
    ∃ entry', memory' address = some entry' ∧
      walk width memory' va level table = .leaf l address entry' := by
  induction level generalizing table with
  | zero =>
    rcases walk_leaf_cases 0 table h with ⟨rfl,rfl,read,leaf⟩ | ⟨_,_,zero,_⟩
    · obtain ⟨entry',read',kind,_⟩ := kept _ _ rfl read
      exact ⟨entry', read', visit_leaf read' (kind.trans leaf)⟩
    · contradiction
  | succ level ih =>
    rcases walk_leaf_cases (level + 1) table h with ⟨rfl,rfl,read,leaf⟩ | ⟨below,e,same,read,pointer,rest⟩
    · obtain ⟨entry',read',kind,_⟩ := kept _ _ (Or.inl rfl) read
      exact ⟨entry', read', visit_leaf read' (kind.trans leaf)⟩
    · obtain rfl := Nat.succ.inj same
      obtain ⟨e',read',kind,ppn⟩ := kept _ _ (Or.inl rfl) read
      rw [walk,visit_pointer read' (kind.trans pointer),ppn]
      exact ih _ rest fun x e visits => kept x e (Or.inr ⟨_, read, pointer, visits⟩)

/-- A walk that never leaves mapped memory does not see address bits above it. -/
theorem walk_narrow {wide : Nat} (narrower : width ≤ wide)
    (below : ∀ a e, memory a = some e → a < 2 ^ width) (level table : Nat)
    (mapped : ∀ l a, walk wide memory va level table ≠ .unmapped l a) :
    walk width memory va level table = walk wide memory va level table := by
  have same (l t : Nat) (e : Pte) (read : memory (entryAddress wide va l t) = some e) :
      entryAddress width va l t = entryAddress wide va l t := by
    have bound := below _ _ read
    unfold entryAddress at bound ⊢
    rw [← Nat.mod_mod_of_dvd _ (Nat.pow_dvd_pow 2 narrower), Nat.mod_eq_of_lt bound]
  induction level generalizing table with
  | zero =>
    rcases visit_cases wide memory va 0 table with none | ⟨e, read, _⟩
    · exact absurd (visit_unmapped none) (mapped _ _)
    · simp [walk,visit,same _ _ _ read]
  | succ level ih =>
    rcases visit_cases wide memory va (level + 1) table with none | ⟨e, read, kind | kind | kind⟩
    · exact absurd (visit_unmapped none) (mapped _ _)
    · simp [walk,visit,same _ _ _ read,read,kind]
    · simp [walk,visit,same _ _ _ read,read,kind]
    · have read' : memory (entryAddress width va (level + 1) table) = some e := by
        rw [same _ _ _ read,read]
      rw [walk,walk,visit_pointer read' kind,visit_pointer read kind]
      refine ih _ fun l a h => mapped l a ?_
      rw [walk,visit_pointer read kind,h]

theorem valid_of_leaf {e : Pte} (leaf : e.kind = .leaf) : e.valid = true := by
  cases valid : e.valid with
  | true => rfl
  | false => simp [Pte.kind,valid] at leaf

@[simp] theorem mark_kind (e : Pte) (access : Access) : (e.mark access).kind = e.kind := by
  cases access <;> simp [Pte.mark,Pte.kind,Pte.valid,Pte.readable,Pte.writable,Pte.executable]

@[simp] theorem mark_ppn (e : Pte) (access : Access) : (e.mark access).ppn = e.ppn := by
  unfold Pte.ppn Pte.mark
  congr 1
  cases access <;> simp [BitVec.ushiftRight_or_distrib]

@[simp] theorem mark_mark (e : Pte) (access : Access) :
    (e.mark access).mark access = e.mark access := by
  simp [Pte.mark,BitVec.or_assoc]

/-- Recording a write covers what was recorded before. -/
@[simp] theorem mark_mark_write (e : Pte) (access : Access) :
    (e.mark access).mark .write = e.mark .write := by
  cases access <;> simp [Pte.mark,BitVec.or_assoc]

theorem mark_accessed (e : Pte) (access : Access) : (e.mark access).accessed = true := by
  cases access <;> simp [Pte.mark,Pte.accessed]

theorem mark_dirty (e : Pte) : (e.mark .write).dirty = true := by
  simp [Pte.mark,Pte.dirty]

/-- Recording an access touches the two flag bits and no other. -/
theorem mark_frame (e : Pte) (access : Access) (i : Nat) (h6 : i ≠ 6) (h7 : i ≠ 7) :
    (e.mark access).getLsbD i = e.getLsbD i := by
  have flags : (0x40 ||| (if access = .write then 0x80 else 0) : Pte).getLsbD i = false := by
    by_cases low : i < 8
    · interval_cases i <;> cases access <;> simp_all
    · apply Nat.testBit_lt_two_pow
      calc _ < 2 ^ 8 := by cases access <;> simp
        _ ≤ 2 ^ i := Nat.pow_le_pow_right (by omega) (by omega)
  simp only [Pte.mark,BitVec.getLsbD_or,flags,Bool.or_false]

/-- An access that does not write leaves D alone as well. -/
theorem mark_frame_clean (e : Pte) (access : Access) (clean : access ≠ .write) (i : Nat)
    (h6 : i ≠ 6) : (e.mark access).getLsbD i = e.getLsbD i := by
  by_cases dirty : i = 7
  · simp [dirty,Pte.mark,clean]
  · exact mark_frame e access i h6 dirty

/-- Recording a write changes nothing exactly where both flags are set. -/
theorem mark_write_eq_iff (e : Pte) :
    e.mark .write = e ↔ e.accessed = true ∧ e.dirty = true := by
  constructor
  · intro same
    rw [← same]
    exact ⟨mark_accessed e .write, mark_dirty e⟩
  · rintro ⟨accessed,dirty⟩
    apply BitVec.eq_of_getLsbD_eq
    intro i _
    by_cases h6 : i = 6
    · rw [h6]
      exact (mark_accessed e .write).trans accessed.symm
    · by_cases h7 : i = 7
      · rw [h7]
        exact (mark_dirty e).trans dirty.symm
      · exact mark_frame e .write i h6 h7

theorem mark_read_eq_iff (e : Pte) : e.mark .read = e ↔ e.accessed = true := by
  constructor
  · intro same
    rw [← same]
    exact mark_accessed e .read
  · intro accessed
    apply BitVec.eq_of_getLsbD_eq
    intro i _
    by_cases h6 : i = 6
    · rw [h6]
      exact (mark_accessed e .read).trans accessed.symm
    · exact mark_frame_clean e .read (by decide) i h6

/-- An outcome with the entry in it replaced by what it is read as. -/
def Outcome.map (f : Pte → Pte) : Outcome → Outcome
  | .unmapped level address => .unmapped level address
  | .invalid level address entry => .invalid level address (f entry)
  | .dangling address entry => .dangling address (f entry)
  | .leaf level address entry => .leaf level address (f entry)

section Alike

variable {memory' : Nat → Option Pte} {f : Pte → Pte} (kind : ∀ e, (f e).kind = e.kind)

include kind

theorem visit_map {next next' : Nat → Pte → Outcome} (level table : Nat)
    (same : (memory' (entryAddress width va level table)).map f =
      (memory (entryAddress width va level table)).map f)
    (further : ∀ a e e', f e' = f e → (next' a e').map f = (next a e).map f) :
    (visit width memory' va level table next').map f =
      (visit width memory va level table next).map f := by
  rcases visit_cases width memory va level table with none | ⟨e,read,which⟩
  · rw [none,Option.map_none,Option.map_eq_none_iff] at same
    rw [visit_unmapped none,visit_unmapped same]
  · rw [read,Option.map_some,Option.map_eq_some_iff] at same
    obtain ⟨e',read',alike⟩ := same
    have kinds : e'.kind = e.kind := by rw [← kind e',alike,kind]
    rcases which with which | which | which
    · rw [visit_invalid read which,visit_invalid read' (kinds.trans which)]
      simp [Outcome.map,alike]
    · rw [visit_leaf read which,visit_leaf read' (kinds.trans which)]
      simp [Outcome.map,alike]
    · rw [visit_pointer read which,visit_pointer read' (kinds.trans which)]
      exact further _ e e' alike

/-- Walks go the same way where their entries differ in nothing that a walk looks at. -/
theorem walk_map (ppn : ∀ e, (f e).ppn = e.ppn)
    (same : ∀ l t, (memory' (entryAddress width va l t)).map f =
      (memory (entryAddress width va l t)).map f) (level table : Nat) :
    (walk width memory' va level table).map f = (walk width memory va level table).map f := by
  induction level generalizing table with
  | zero =>
    refine visit_map kind 0 table (same 0 table) fun a e e' alike => ?_
    simp [Outcome.map,alike]
  | succ level ih =>
    refine visit_map kind (level + 1) table (same _ table) fun a e e' alike => ?_
    have tables : e'.ppn = e.ppn := by rw [← ppn e',alike,ppn]
    rw [tables]
    exact ih e.ppn

/-- It is enough that the entries that one of the walks visits are alike. -/
theorem walk_map_visits (ppn : ∀ e, (f e).ppn = e.ppn) (level table : Nat)
    (same : ∀ x, Visits width memory va level table x → (memory' x).map f = (memory x).map f) :
    (walk width memory' va level table).map f = (walk width memory va level table).map f := by
  induction level generalizing table with
  | zero =>
    refine visit_map kind 0 table (same _ rfl) fun a e e' alike => ?_
    simp [Outcome.map,alike]
  | succ level ih =>
    have here := same _ (Or.inl rfl)
    rcases visit_cases width memory va (level + 1) table with none | ⟨e, read, which | which | which⟩
    · rw [none,Option.map_none,Option.map_eq_none_iff] at here
      rw [walk,walk,visit_unmapped none,visit_unmapped here]
    all_goals
      rw [read,Option.map_some,Option.map_eq_some_iff] at here
      obtain ⟨e',read',alike⟩ := here
      have kinds : e'.kind = e.kind := by rw [← kind e',alike,kind]
    · rw [walk,walk,visit_invalid read which,visit_invalid read' (kinds.trans which)]
      simp [Outcome.map,alike]
    · rw [walk,walk,visit_leaf read which,visit_leaf read' (kinds.trans which)]
      simp [Outcome.map,alike]
    · have tables : e'.ppn = e.ppn := by rw [← ppn e',alike,ppn]
      rw [walk,walk,visit_pointer read which,visit_pointer read' (kinds.trans which),tables]
      exact ih _ fun x visits => same x (Or.inr ⟨e, read, which, visits⟩)

end Alike

end Sv32
