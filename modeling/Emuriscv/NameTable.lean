import Mathlib.Data.List.Forall2
import Mathlib.Data.List.Nodup
import Mathlib.Tactic.Common

/-! Tables that are looked up by name. Names are told apart by their characters, read as the
digits of a number: numbers are what evaluates fast. -/
namespace NameTable

variable {α : Type} {name : α → String} {table : List α}

/-- The first entry with this name. -/
def lookup (name : α → String) (table : List α) (text : List Char) : Option α :=
  table.find? fun entry => name entry = String.ofList text

/-- Where no two entries share a name, each is found by its own. -/
theorem lookup_name (distinct : (table.map name).Nodup) (member : entry ∈ table) :
    lookup name table (name entry).toList = some entry := by
  induction table with
  | nil => contradiction
  | cons head rest ih =>
    obtain ⟨first,later⟩ := List.nodup_cons.mp distinct
    rw [lookup,String.ofList_toList]
    rcases List.mem_cons.mp member with rfl | member
    · simp
    · have other : name head ≠ name entry := fun same => first (same ▸ List.mem_map_of_mem member)
      rw [List.find?_cons_of_neg (by simpa using other)]
      have found := ih later member
      rwa [lookup,String.ofList_toList] at found

theorem lookup_absent (absent : ∀ entry ∈ table, name entry ≠ other) :
    lookup name table other.toList = none := by
  rw [lookup,String.ofList_toList,List.find?_eq_none]
  simpa using absent

def code (text : List Char) : Nat := text.foldr (fun c n => 128 * n + c.toNat) 1

def distinct : List Nat → Bool
  | [] => true
  | n :: rest => rest.all (fun m => !Nat.beq n m) && distinct rest

theorem nodup_of_distinct {codes : List Nat} (apart : distinct codes = true) : codes.Nodup := by
  induction codes with
  | nil => exact List.nodup_nil
  | cons n rest ih =>
    rw [distinct,Bool.and_eq_true,List.all_eq_true] at apart
    refine List.nodup_cons.mpr ⟨fun member => ?_, ih apart.2⟩
    have self := apart.1 n member
    simp at self

/-- The names, character by character. -/
def Spelled (name : α → String) : List α → List (List Char) → Prop :=
  List.Forall₂ fun entry text => name entry = String.ofList text

/-- Every name has these characters only, and no other entry has it. -/
structure Legible (name : α → String) (table : List α) (plain : Char → Bool) : Prop where
  distinct : (table.map name).Nodup
  plain : ∀ entry ∈ table, ∀ c ∈ (name entry).toList, plain c = true

/-- A spelling of all names is enough: what is left to check is about numbers and characters. -/
theorem legible_of_spelled {plain : Char → Bool} (spelling : ∃ texts, Spelled name table texts ∧
    distinct (texts.map code) = true ∧ texts.all (·.all plain) = true) :
    Legible name table plain := by
  obtain ⟨texts,spelled,apart,characters⟩ := spelling
  have names : table.map name = texts.map String.ofList :=
    List.forall₂_eq_eq_eq ▸ List.forall₂_map_left_iff.mpr (List.forall₂_map_right_iff.mpr spelled)
  have different : texts.Nodup := (nodup_of_distinct apart).of_map code
  constructor
  case distinct =>
    rw [names]
    exact different.map fun _ _ => String.ofList_injective
  case plain =>
    intro entry member c inside
    obtain ⟨text,spelling,same⟩ := List.mem_map.mp (names ▸ List.mem_map_of_mem member)
    rw [← same,String.toList_ofList] at inside
    exact List.all_eq_true.mp (List.all_eq_true.mp characters text spelling) c inside

end NameTable
