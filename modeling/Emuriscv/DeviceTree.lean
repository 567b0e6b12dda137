import Emuriscv.Codec

/-! The flattened device tree, version 17: trees and their tokens, the structure and strings
blocks, the header, and a parser of whole blobs. -/
namespace DeviceTree

open Codec

abbrev Bytes := List (BitVec 8)

section Trees

variable {ν π ν' π' : Type}

/-- Nodes side by side, each with its properties and the nodes below it. -/
inductive Forest (ν π : Type) where
  | nil
  | node (name : ν) (props : List π) (below next : Forest ν π)
  deriving DecidableEq, Repr

structure Tree (ν π : Type) where
  name : ν
  props : List π
  below : Forest ν π
  deriving DecidableEq, Repr

inductive Token (ν π : Type) where
  | beginNode (name : ν)
  | prop (p : π)
  | endNode
  deriving DecidableEq, Repr

def Forest.tokens : Forest ν π → List (Token ν π)
  | .nil => []
  | .node name props below next =>
    .beginNode name :: (props.map .prop ++ (below.tokens ++ .endNode :: next.tokens))

def Tree.tokens (t : Tree ν π) : List (Token ν π) := (Forest.node t.name t.props t.below .nil).tokens

def Forest.map (f : ν → ν') (g : π → π') : Forest ν π → Forest ν' π'
  | .nil => .nil
  | .node name props below next => .node (f name) (props.map g) (below.map f g) (next.map f g)

def Tree.map (f : ν → ν') (g : π → π') (t : Tree ν π) : Tree ν' π' :=
  ⟨f t.name,t.props.map g,t.below.map f g⟩

def Token.map (f : ν → ν') (g : π → π') : Token ν π → Token ν' π'
  | .beginNode name => .beginNode (f name)
  | .prop p => .prop (g p)
  | .endNode => .endNode

theorem Forest.tokens_map (f : ν → ν') (g : π → π') (forest : Forest ν π) :
    (forest.map f g).tokens = forest.tokens.map (Token.map f g) := by
  induction forest with
  | nil => rfl
  | node name props below next below_ih next_ih =>
    simp [Forest.map,Forest.tokens,below_ih,next_ih,Token.map]

theorem Tree.tokens_map (f : ν → ν') (g : π → π') (t : Tree ν π) :
    (t.map f g).tokens = t.tokens.map (Token.map f g) :=
  Forest.tokens_map f g (.node t.name t.props t.below .nil)

/-- The properties at the front. -/
def readProps : List (Token ν π) → List π × List (Token ν π)
  | .prop p :: rest => (p :: (readProps rest).1,(readProps rest).2)
  | rest => ([],rest)

/-- The nodes at the front, up to a token that begins none. -/
def readForest : Nat → List (Token ν π) → Option (Forest ν π × List (Token ν π))
  | 0, _ => none
  | fuel + 1, .beginNode name :: rest =>
    let (props,rest) := readProps rest
    match readForest fuel rest with
    | some (below,.endNode :: rest) =>
      (readForest fuel rest).map fun (next,rest) => (.node name props below next,rest)
    | _ => none
  | _ + 1, rest => some (.nil,rest)

/-- One root and nothing after it. -/
def readTree (tokens : List (Token ν π)) : Option (Tree ν π) :=
  match readForest (tokens.length + 1) tokens with
  | some (.node name props below .nil,[]) => some ⟨name,props,below⟩
  | _ => none

theorem readProps_tokens (props : List π) (rest : List (Token ν π))
    (stop : ∀ p, rest.head? ≠ some (.prop p)) :
    readProps (props.map .prop ++ rest) = (props,rest) := by
  induction props with
  | nil =>
    cases rest with
    | nil => rfl
    | cons token rest =>
      cases token with
      | prop p => exact absurd rfl (stop p)
      | beginNode | endNode => rfl
  | cons p props ih => simp [readProps,ih]

theorem Forest.tokens_head (forest : Forest ν π) (rest : List (Token ν π)) (p : π)
    (stop : rest.head? ≠ some (.prop p)) : (forest.tokens ++ rest).head? ≠ some (.prop p) := by
  cases forest with
  | nil => exact stop
  | node => simp [Forest.tokens]

theorem readForest_tokens (forest : Forest ν π) (rest : List (Token ν π)) (fuel : Nat)
    (stop : ∀ name, rest.head? ≠ some (.beginNode name)) (enough : forest.tokens.length < fuel) :
    readForest fuel (forest.tokens ++ rest) = some (forest,rest) := by
  induction forest generalizing rest fuel with
  | nil =>
    obtain ⟨fuel,rfl⟩ := Nat.exists_eq_add_of_lt enough
    cases rest with
    | nil => rfl
    | cons token rest =>
      cases token with
      | beginNode name => exact absurd rfl (stop name)
      | prop | endNode => rfl
  | node name props below next below_ih next_ih =>
    obtain ⟨fuel,rfl⟩ := Nat.exists_eq_add_of_lt enough
    simp only [Forest.tokens,List.length_cons,List.length_append] at enough ⊢
    have head := readProps_tokens props (below.tokens ++ .endNode :: (next.tokens ++ rest))
      fun p => below.tokens_head _ p (by simp)
    simp only [List.append_assoc,List.cons_append] at *
    rw [readForest,head]
    simp only
    rw [below_ih _ _ (by simp) (by omega)]
    simp only
    rw [next_ih rest _ stop (by omega)]
    rfl

/-- The tokens of a tree are read back as that tree. -/
theorem readTree_tokens (t : Tree ν π) : readTree t.tokens = some t := by
  have read : readForest (t.tokens.length + 1) t.tokens =
      some (.node t.name t.props t.below .nil,[]) := by
    simpa [Tree.tokens] using readForest_tokens (.node t.name t.props t.below .nil) []
      (t.tokens.length + 1) (by simp) (Nat.lt_succ_self _)
  rw [readTree,read]

end Trees

end DeviceTree
