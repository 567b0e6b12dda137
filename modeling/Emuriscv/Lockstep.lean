import Emuriscv.LabelledRun
import Mathlib.Data.List.Forall2

/-! Computations that track one another: whatever the first returns, the second returns
something related. Steps that track give runs that track, step for step. -/
namespace Lockstep

open LabelledRun

variable {ε α α' β β' : Type} {R : α → β → Prop} {S : α' → β' → Prop}

def Tracks (R : α → β → Prop) (x : Except ε α) (y : Except ε β) : Prop :=
  ∀ a, x = .ok a → ∃ b, y = .ok b ∧ R a b

theorem Tracks.ok (related : R a b) : Tracks (ε := ε) R (.ok a) (.ok b) := by
  intro a' same
  cases same
  exact ⟨b,rfl,related⟩

theorem Tracks.refl (x : Except ε α) : Tracks Eq x x := fun a returned => ⟨a,returned,rfl⟩

theorem Tracks.error (stop : ε) (y : Except ε β) : Tracks R (.error stop) y := nofun

/-- The second sequence tracks the first when its parts do. -/
theorem Tracks.bind {x : Except ε α} {y : Except ε β} {f : α → Except ε α'} {g : β → Except ε β'}
    (first : Tracks R x y) (rest : ∀ a b, R a b → Tracks S (f a) (g b)) :
    Tracks S (x >>= f) (y >>= g) := by
  cases x with
  | error stop => exact .error stop _
  | ok a =>
    obtain ⟨b,returned,related⟩ := first a rfl
    rw [returned]
    exact rest a b related

theorem Tracks.ite (condition : Prop) [Decidable condition] {x x' : Except ε α} {y y' : Except ε β}
    (first : condition → Tracks R x y) (second : ¬condition → Tracks R x' y') :
    Tracks R (if condition then x else x') (if condition then y else y') := by
  split
  next holds => exact first holds
  next fails => exact second fails

section Runs

variable {R : α → β → Prop} {good : α → Prop} {f : α → Except ε α} {g : β → Except ε β}

/-- The run that consists of the states a step function returns. -/
abbrev Run (f : α → Except ε α) : α → List (Unit × α) → Prop := Path fun s _ t => f s = .ok t

/-- A run whose every step is tracked is tracked as a whole. -/
theorem track_run (step : ∀ a b, R a b → good a → Tracks R (f a) (g b)) (run : Run f a steps)
    (all : Every (fun a _ _ => good a) a steps) (related : R a b) :
    ∃ steps', Run g b steps' ∧ List.Forall₂ (fun x y => R x.2 y.2) steps steps' := by
  induction run generalizing b with
  | nil => exact ⟨[],.nil,.nil⟩
  | cons taken rest ih =>
    obtain ⟨b',returned,related⟩ := step _ _ related all.1 _ taken
    obtain ⟨steps',run',states⟩ := ih all.2 related
    exact ⟨((),b') :: steps',.cons returned run',.cons related states⟩

end Runs

end Lockstep
