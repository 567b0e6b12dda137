import Emuriscv.CsrExchange
import Emuriscv.HartRefinement
import Emuriscv.PrivilegedHart
import Emuriscv.TrapReturn

/-! Programs with system calls. A run of the hart with its three modes, through environment calls,
the handlers behind them and the returns, is a run of the machine. -/
namespace Emuriscv

open LabelledRun
open Rv32ima (Core Event Level CsrInstruction)

def exchangeOp : CsrInstruction → CsrOp
  | ⟨.write,false⟩ => .csrrw
  | ⟨.write,true⟩ => .csrrwi
  | ⟨.set,false⟩ => .csrrs
  | ⟨.set,true⟩ => .csrrsi
  | ⟨.clear,false⟩ => .csrrc
  | ⟨.clear,true⟩ => .csrrci

def returnMode : Level → ReturnMode
  | .supervisor => .supervisor
  | .machine => .machine

/-- The legal encodings. -/
def CoreEncoded : Event → Word → Prop
  | .instruction which, word => Encoded which word
  | .csr which, word =>
    ∃ op : Op, op.csrOp = some (exchangeOp which) ∧ (Instruction.handled op).Encodes word
  | .call, word => (Instruction.handled .ecall).Encodes word
  | .ret level, word => (Instruction.handled (returnMode level).op).Encodes word

/-- The state carries out the core. -/
structure Embodies (map : MemoryMap) (c : Core) (s : State) : Prop where
  mode : s.privilege = c.mode.code
  memoryMap : s.memoryMap = map
  pc : s.pc = c.hart.pc
  x : s.x = c.hart.x
  memory : Represents s c.hart.memory
  reservation : Reserves (.bare map) s c.hart.reservation
  csr : ∀ number, number ≠ csrTime → number ≠ csrCycle → readCsr s number = c.csr number
  aligned : 4 ∣ c.hart.pc.toNat
  quiet : Quiet s
  running : s.status = .running

section Embodies

variable {map : MemoryMap} {c : Core} {s u : State}

theorem Embodies.direct (embodies : Embodies map c s) (direct : c.Direct) : ¬Walks s := by
  rintro ⟨below,paged⟩
  rcases direct with ⟨machine,_⟩ | bare
  · rw [embodies.mode,machine] at below
    exact below rfl
  · refine paged ?_
    rw [getMemoryMode,embodies.csr csrSatp (by decide) (by decide)]
    apply BitVec.eq_of_getLsbD_eq
    intro i _
    rw [BitVec.getLsbD_ushiftRight]
    cases i with
    | zero => exact bare
    | succ i =>
      rw [BitVec.getLsbD_of_ge _ _ (by omega)]
      simp [satpModeBare]

theorem Embodies.refines (embodies : Embodies map c s) (direct : c.Direct) :
    Refines (.bare map) c.hart s :=
  ⟨embodies.pc, embodies.x, ⟨embodies.memoryMap, embodies.direct direct, embodies.memory⟩,
    embodies.reservation, embodies.aligned⟩

/-- The end of a step touches nothing that counts. -/
theorem Embodies.finish (embodies : Embodies map c u) : Embodies map c (finishOp u) := by
  have flag := embodies.quiet.flag
  rw [finishOp_quiet flag]
  refine ⟨embodies.mode, embodies.memoryMap, embodies.pc, embodies.x, embodies.memory, ?_, ?_,
    embodies.aligned, embodies.quiet.congr rfl rfl rfl, embodies.running⟩
  · exact embodies.reservation.congr rfl
  · intro number time cycle
    rw [retire_csr _ time cycle]
    exact embodies.csr number time cycle

theorem Embodies.fetches (embodies : Embodies map c s) (separate : Separate map) (direct : c.Direct)
    (inside : InsideRam map c.hart.pc 4) :
    ∃ p, deref s p = c.hart.wordAt c.hart.pc ∧ ∀ op, decode (c.hart.wordAt c.hart.pc) = some op →
      Fetches s (pastPc s) p op := by
  obtain ⟨p,located⟩ := InsideRam.word separate inside
  rw [← embodies.memoryMap] at located
  have word := embodies.memory.deref located
  rw [← embodies.pc] at located
  exact ⟨p, word, fun op decoded => fetches_direct (embodies.direct direct) located (word ▸ decoded)⟩

end Embodies

section Events

variable [Platform] {map : MemoryMap} {c c' : Core} {s u : State} {word : Word}

/-- A handler that leaves the core on leads a step there. -/
theorem Embodies.step (embodies : Embodies map c s) (separate : Separate map)
    (step : Core.Step CoreEncoded (InsideRam map) c (event,word) c')
    (decoded : decode word = some op)
    (ran : ∀ p, deref s p = word → ∃ u, execute op (pastPc s) p = .ok u ∧ Embodies map c' u) :
    ∃ t, emulateOp s = .ok t ∧ Embodies map c' t := by
  obtain ⟨p,here,fetches⟩ := embodies.fetches separate step.direct step.fetch
  rw [← step.word] at here fetches
  obtain ⟨u,handled,after⟩ := ran p here
  exact ⟨_, emulateOp_executed (fetches op decoded) handled, after.finish⟩

end Events

end Emuriscv
