import Gate.Lib.Alone
import Gate.Lib.Serial
import Gate.Spec.Edges

/-! Window rolls and late charges on one counter of the lease limiter (`packages/limiter/lease.go`): any
calls of `reset`, of `install` as `accept` makes it, and of `held.adjust`, interleaved instruction by
instruction, and the same calls one at a time. -/

namespace Gate

open Conc

namespace Lease

/-- What `accept` does with a window that may be newer than the current one. -/
def roll (fuel : ℕ) (c : CPtr) (win parentWin : ℤ) : Proc Unit := do
  let h ← loadCur c
  if h.win < win then
    let _ ← install fuel c h win parentWin
    return ()
  else return ()

end Lease

inductive CounterCall where
  | reset (req : Request) (nowMs : ℤ)
  | roll (win parentWin : ℤ)
  | adjust (h : HPtr) (delta : ℤ)
  deriving DecidableEq

def CounterCall.proc (c : CPtr) (maxDebt : ℤ) (fuel : ℕ) : CounterCall → Proc Unit
  | .reset req nowMs => Lease.reset fuel c req nowMs
  | .roll win parentWin => Lease.roll fuel c win parentWin
  | .adjust h delta => Lease.adjust fuel h delta maxDebt

/-- The effect of an instruction of these calls; they start no goroutines. -/
def execCall (dep : Deployment) (i : Instr) (ch : Choice) (w : World) : Option (i.Answer × World) :=
  (execInstr dep i ch w).map fun out => (out.1, out.2.1)

/-- An event starts a call, with a bound on the turns of its loops. -/
def counterSem (dep : Deployment) (c : CPtr) (maxDebt : ℤ) : Sem Instr.Answer World Choice (CounterCall × ℕ) :=
  starting (execCall dep) fun e => e.1.proc c maxDebt e.2

/-- The same with the choices left open, which these calls do not make. -/
def execAlone (dep : Deployment) (i : Instr) (w : World) : Option (i.Answer × World) := execCall dep i {} w

/-- The calls one at a time; alone, a loop needs one turn. -/
def serially (dep : Deployment) (c : CPtr) (maxDebt : ℤ) : List CounterCall → World → Option World
  | [], w => some w
  | call :: rest, w =>
    ((call.proc c maxDebt 1).follow (execAlone dep) w).bind fun out => serially dep c maxDebt rest out.2

/-- The calls that a run starts. -/
def startedCalls : List (Act Choice (CounterCall × ℕ)) → List CounterCall
  | [] => []
  | .env e :: rest => e.1 :: startedCalls rest
  | .run _ _ :: rest => startedCalls rest

/-- The balance of the current held. -/
def World.balance (w : World) (c : CPtr) : ℤ := w.tokens (w.cur c)

/-- A charge is of a held of the counter, and positive. -/
def CounterCall.OnCounter (c : CPtr) : CounterCall → Prop
  | .adjust h delta => h.c = c ∧ 0 < delta
  | .reset _ _ | .roll _ _ => True

instance (c : CPtr) : ∀ call : CounterCall, Decidable (call.OnCounter c)
  | .adjust _ _ => inferInstanceAs (Decidable (_ ∧ _))
  | .reset _ _ | .roll _ _ => isTrue trivial

def Instr.publishes : Instr → Option (CPtr × HPtr × HPtr)
  | .casCur c old next => some (c, old, next)
  | _ => none

def Instr.chargesHeld : Instr → Option (HPtr × ℤ)
  | .casTokens h old _ _ => some (h, old)
  | _ => none

/-- A held is published only with the debt that the one it replaces has at that moment, and a charge is
made only on the held that is current at that moment. -/
def debtCarried (c : CPtr) : Pool.Cond Instr World Choice (CounterCall × ℕ) where
  instr i _ w :=
    (∀ x ∈ i.publishes, w.cur x.1 = x.2.1 → w.tokens x.2.2 = min (w.tokens x.2.1) 0) ∧
      ∀ x ∈ i.chargesHeld, w.tokens x.1 = x.2 → w.cur x.1.c = x.1
  event e _ := e.1.OnCounter c

instance (c : CPtr) (i : Instr) (ch : Choice) (w : World) : Decidable ((debtCarried c).instr i ch w) :=
  inferInstanceAs (Decidable ((∀ x ∈ i.publishes, _) ∧ ∀ x ∈ i.chargesHeld, _))

instance (c : CPtr) (e : CounterCall × ℕ) (w : World) : Decidable ((debtCarried c).event e w) :=
  inferInstanceAs (Decidable (e.1.OnCounter c))

end Gate
