import Emuriscv.Decode

/-! The register file of `cpu.c`. A handler's `instruction` points into live guest RAM,
so every field it extracts is read again from the bytes that are there now. -/
namespace Emuriscv

def getReg (s : State) (index : RegisterIndex) : Word := s.x index

def setReg (s : State) (index : RegisterIndex) (value : Word) : State :=
  if index = 0 then s else { s with x := Function.update s.x index value }

def getRs1Value (s : State) (instruction : WordPtr) : Word :=
  getReg s (getRs1 (deref s instruction))

def getRs2Value (s : State) (instruction : WordPtr) : Word :=
  getReg s (getRs2 (deref s instruction))

def setRdValue (s : State) (instruction : WordPtr) (value : Word) : State :=
  setReg s (getRd (deref s instruction)) value

/-- The register file after a guarded write. -/
def writeX (x : RegisterIndex → Word) (index : RegisterIndex) (value : Word) :
    RegisterIndex → Word :=
  if index = 0 then x else Function.update x index value

theorem setReg_eq (s : State) (index : RegisterIndex) (value : Word) :
    setReg s index value = { s with x := writeX s.x index value } := by
  unfold setReg writeX
  split <;> rfl

theorem setRdValue_eq (s : State) (instruction : WordPtr) (value : Word) :
    setRdValue s instruction value =
      { s with x := writeX s.x (getRd (deref s instruction)) value } :=
  setReg_eq ..

/-- A guarded write is invisible exactly when it targets `x0` or repeats the old value. -/
theorem writeX_eq_self_iff (x : RegisterIndex → Word) (index : RegisterIndex) (value : Word) :
    writeX x index value = x ↔ index = 0 ∨ x index = value := by
  by_cases zero : index = 0
  · simp [writeX,zero]
  · rw [writeX,if_neg zero,Function.update_eq_self_iff,eq_comm]
    exact ⟨Or.inr, fun h => h.resolve_left zero⟩

/-- Only a write to `x0` hides the value. -/
theorem writeX_eq_iff (x : RegisterIndex → Word) (index : RegisterIndex) (a b : Word) :
    writeX x index a = writeX x index b ↔ index = 0 ∨ a = b := by
  by_cases zero : index = 0
  · simp [writeX,zero]
  · rw [writeX,writeX,if_neg zero,if_neg zero,(Function.update_injective x index).eq_iff]
    exact ⟨Or.inr, fun h => h.resolve_left zero⟩

end Emuriscv
