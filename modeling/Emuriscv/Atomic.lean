import Emuriscv.Memory
import Emuriscv.Register

/-! The A extension of `cpu_a.c`. No handler looks at the pending exception between its
two accesses or before it writes `rd`. -/
namespace Emuriscv.Handler

def lr (s : State) (instruction : WordPtr) : Except Stop State := do
  let address := getRs1Value s instruction
  let (value, s) ← readWord s address
  let s := setRdValue s instruction value
  pure { s with loadReservation := address }

variable [Platform]

/-- The macro `AMO_OP_W`. -/
def amoOpW (op : Word → Word → Word) (s : State) (instruction : WordPtr) : Except Stop State := do
  let address := getRs1Value s instruction
  let (value, s) ← readWord s address
  let originalValue := value
  let value := op value (getRs2Value s instruction)
  let s ← writeWord s address value
  pure (setRdValue s instruction originalValue)

def amoaddW := amoOpW (· + ·)
def amoandW := amoOpW (· &&& ·)
def amoorW := amoOpW (· ||| ·)
def amoxorW := amoOpW (· ^^^ ·)

def amoswapW (s : State) (instruction : WordPtr) : Except Stop State := do
  let address := getRs1Value s instruction
  let (value, s) ← readWord s address
  let s := setRdValue s instruction value
  let value := getRs2Value s instruction
  writeWord s address value

def sc (s : State) (instruction : WordPtr) : Except Stop State := do
  let address := getRs1Value s instruction
  let value := getRs2Value s instruction
  let s ← if s.loadReservation = address then do
      let s ← writeWord s address value
      pure (setRdValue s instruction 0)
    else pure (setRdValue s instruction 1)
  pure { s with loadReservation := -1 }

end Emuriscv.Handler
