import Gate.Lib.Alone
import Gate.Spec.Blocks

/-! Denials that do not reach the hub. `Allow` runs from a state with nobody else at work, until
it returns or asks its singleflight group for a lease. -/

namespace Gate

open Conc

/-- Calls, lease fetches and settlements; nothing is drained or evicted. -/
def callsAndSettlements : Pool.Cond Instr World Choice Input where
  instr _ _ _ := True
  event e _ := match e with
    | .tick _ | .allow _ _ _ | .reserve _ _ _ | .settle _ _ _ | .serve _ _ _ => True
    | .sweep _ _ | .drain _ | .sweepLocal _ _ | .credit _ _ => False

instance (i : Instr) (ch : Choice) (w : World) : Decidable (callsAndSettlements.instr i ch w) := isTrue trivial

instance : ∀ e w, Decidable (callsAndSettlements.event e w)
  | .tick _, _ | .allow _ _ _, _ | .reserve _ _ _, _ | .settle _ _ _, _ | .serve _ _ _, _ => isTrue trivial
  | .sweep _ _, _ | .drain _, _ | .sweepLocal _ _, _ | .credit _ _, _ => isFalse id

def Instr.joins : Instr → Bool
  | .doChan _ _ => true
  | _ => false

def Instr.sends : Instr → Bool
  | .send _ _ => true
  | _ => false

/-- An instruction with the clock at `t`. Nobody is there to be waited for. -/
def alone (dep : Deployment) (t : ℤ) (i : Instr) (w : World) : Option (i.Answer × World) :=
  if i.waits then none else (execInstr dep i { value := t } w).map fun x => (x.1, x.2.1)

/-- `Allow` at the time `t`, until it returns or asks for a lease. -/
def allowAt (dep : Deployment) (edge fuel : ℕ) (req : Request) (t : ℤ) (w : World) :
    Option ((Except LimitErr Decision ⊕ Instr) × World) :=
  (Lease.allow (dep.lease edge) edge fuel req).upTo Instr.joins (alone dep t) w

/-- The guard's count does not leave room for the request. -/
def World.Full (w : World) (edge : ℕ) (req : Request) : Prop :=
  ∃ c, w.findCounter edge (stateKey req) = some c ∧ req.limit < w.cells (.consumed (w.cur c)) + max req.cost 1

/-- `Allow` at the time `t` ends in `w'`, denied by the guard. -/
def DeniedByGuard (dep : Deployment) (edge fuel : ℕ) (req : Request) (t : ℤ) (w w' : World) : Prop :=
  fixedWindow req = true ∧ w'.Full edge req ∧ ∃ d, allowAt dep edge fuel req t w = some (.inl (.ok d), w') ∧ d.allowed = false

/-- The key has a flight already, or the one that is started sends a request. -/
def World.AsksHub (dep : Deployment) (w : World) (c : CPtr) (req : Request) (t : ℤ) : Prop :=
  w.findFlight c.edge c.key = none →
    ∀ fuel, ∃ r w', (Lease.flight (dep.lease c.edge) fuel w.fresh c req).upTo Instr.sends (alone dep t)
      (w.addFlight ⟨w.fresh, c.edge, c.key⟩) = some (.inr (.send c.edge r), w')

/-- `Allow` at the time `t` is admitted or asks the hub. -/
def Progresses (dep : Deployment) (edge fuel : ℕ) (req : Request) (t : ℤ) (w : World) : Prop :=
  (∃ d w', allowAt dep edge fuel req t w = some (.inl (.ok d), w') ∧ d.allowed = true) ∨
    ∃ c r w', allowAt dep edge fuel req t w = some (.inr (.doChan c r), w') ∧ w'.AsksHub dep c r t

/-- What denies the request in this state is over some day. -/
def Temporary (dep : Deployment) (edge fuel : ℕ) (req : Request) (w : World) : Prop :=
  ∃ T, ∀ t, T ≤ t → Progresses dep edge fuel req t w

end Gate
