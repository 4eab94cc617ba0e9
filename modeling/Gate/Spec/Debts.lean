import Gate.Spec.Blocks
import Gate.Spec.Tokens

/-! Edges that settle after the fact: a request may turn out to cost more than was reserved, and
the difference is charged to the balance, down to a debt of `MaxDebt`. -/

namespace Gate

open Conc

/-- A request that draws on the quota with a debt of `M` allowed, or on something apart from it. -/
def Request.Owes (dep : Deployment) (q : Quota) (M : ℤ) (req : Request) : Prop :=
  req.Fits dep q ∧ (stateKey req = q.stateKey → req.maxDebt = M)

instance (dep : Deployment) (q : Quota) (M : ℤ) (req : Request) : Decidable (req.Owes dep q M) :=
  inferInstanceAs (Decidable (_ ∧ _))

/-- `E` edges reserve, settle and fetch leases; nothing is drained or evicted. -/
def settling (dep : Deployment) (q : Quota) (E : ℕ) (M : ℤ) : Pool.Cond Instr World Choice Input where
  instr _ _ _ := True
  event e _ := match e with
    | .allow edge _ req => edge < E ∧ req.Owes dep q M
    | .reserve edge _ checks => edge < E ∧ ∀ req ∈ checks, req.Owes dep q M
    | .tick _ | .settle _ _ _ | .serve _ _ _ => True
    | .sweep _ _ | .drain _ | .sweepLocal _ _ | .credit _ _ => False

instance (dep : Deployment) (q : Quota) (E : ℕ) (M : ℤ) (i : Instr) (ch : Choice) (w : World) :
    Decidable ((settling dep q E M).instr i ch w) := isTrue trivial

instance (dep : Deployment) (q : Quota) (E : ℕ) (M : ℤ) : ∀ e w, Decidable ((settling dep q E M).event e w)
  | .allow edge _ req, _ => inferInstanceAs (Decidable (edge < E ∧ req.Owes dep q M))
  | .reserve edge _ checks, _ => inferInstanceAs (Decidable (edge < E ∧ ∀ req ∈ checks, req.Owes dep q M))
  | .tick _, _ | .settle _ _ _, _ | .serve _ _ _, _ => isTrue trivial
  | .sweep _ _, _ | .drain _, _ | .sweepLocal _ _, _ | .credit _ _, _ => isFalse id

end Gate
