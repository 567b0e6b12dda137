import Mathlib.Logic.Function.Basic

/-! A run that can be taken back: how far it has come, and the positions that are kept under names.
The run itself does not appear; what it is at a position is up to the user. -/
namespace Rewinding

inductive Turn (φ : Type) where
  | look
  | advance (count : Nat)
  | keep (file : φ)
  | back (file : φ)

structure Session (φ : Type) where
  position : Nat
  kept : φ → Option Nat

namespace Session

variable {φ : Type}

def start : Session φ := ⟨0, fun _ => none⟩

/-- No position, present or kept, is beyond the limit. -/
structure Within (limit : Nat) (session : Session φ) : Prop where
  position : session.position ≤ limit
  kept : session.kept file = some k → k ≤ limit

theorem start_within (limit : Nat) : (start : Session φ).Within limit :=
  ⟨Nat.zero_le _, nofun⟩

end Session

variable {φ : Type} [DecidableEq φ]

/-- There is no way back to what has not been kept. -/
def Turn.apply (session : Session φ) : Turn φ → Option (Session φ)
  | .look => some session
  | .advance count => some { session with position := session.position + count }
  | .keep file =>
    some { session with kept := Function.update session.kept file (some session.position) }
  | .back file => (session.kept file).map fun position => { session with position }

/-- The turns lead from one session to another, never beyond the limit. -/
inductive Leads (limit : Nat) : Session φ → List (Turn φ) → Session φ → Prop
  | nil : Leads limit session [] session
  | cons (applied : turn.apply session = some next) (below : next.position ≤ limit)
      (rest : Leads limit next turns last) : Leads limit session (turn :: turns) last

section Steps

variable {session next last : Session φ} {turn : Turn φ}

theorem Session.Within.apply (within : session.Within limit)
    (applied : turn.apply session = some next) (below : next.position ≤ limit) :
    next.Within limit := by
  refine ⟨below, ?_⟩
  cases turn with
  | look =>
    cases applied
    exact within.kept
  | advance count =>
    cases applied
    exact within.kept
  | keep file =>
    cases applied
    intro other k kept
    dsimp only at kept
    rw [Function.update_apply] at kept
    split at kept
    next => exact Option.some.inj kept ▸ within.position
    next => exact within.kept kept
  | back file =>
    obtain ⟨position,_,rfl⟩ := Option.map_eq_some_iff.mp applied
    exact within.kept

theorem Session.Within.leads (within : session.Within limit)
    (leads : Leads limit session turns last) : last.Within limit := by
  induction leads with
  | nil => exact within
  | cons applied below _ ih => exact ih (within.apply applied below)

end Steps

end Rewinding
