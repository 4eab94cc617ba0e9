import Gate.Lib.Tally
import Gate.Spec.Calls

/-! Quotas inside the budget of one org, and a record of what they were granted and gave back. The
record keeps the tokens of a child apart by the windows they were granted in, as a lease names them. -/

namespace Gate

open Tally

/-- An org's budget in a service and the fixed windows inside it, by the key the ledger keeps each under. -/
structure Family where
  scope : String
  service : String
  org : String
  budget : Spec
  quota : String → Spec
  named : org ≠ ""
  fixed : ∀ k, (quota k).algo.or = .fixedWindow
  limits : ∀ k, 0 ≤ (quota k).limit
  budgetLimit : 0 ≤ budget.limit

namespace Family

def budgetKey (f : Family) : String := Ref.parentKey ⟨f.scope, f.service, "", "", f.org⟩ .fixedWindow

def Child (f : Family) (r : Ref) (s : Spec) : Prop :=
  r.scope = f.scope ∧ r.service = f.service ∧ r.parent = f.org ∧ s = f.quota (r.key s.algo)

instance (f : Family) (r : Ref) (s : Spec) : Decidable (f.Child r s) := inferInstanceAs (Decidable (_ ∧ _))

end Family

/-- Tokens of one child from one window of its own and one of the org's. -/
structure Lot where
  key : String
  window : ℤ
  parentWindow : ℤ
  deriving DecidableEq

def Ret.lot (r : Ret) : Lot := ⟨r.ref.key r.spec.algo, r.windowID, r.parentWindowID⟩

/-- The items of a return that are applied: a bad one ends the call. -/
def givenBack : List Ret → List (Lot × ℤ)
  | [] => []
  | r :: rs => if r.spec.validate = .ok () then (r.lot, r.tokens) :: givenBack rs else []

structure Flow where
  mem : Mem
  /-- when the last call was made -/
  now : ℤ
  granted : List (Lot × ℤ)
  returned : List (Lot × ℤ)

namespace Flow

def new (now : ℤ) : Flow := ⟨.new, now, [], []⟩

/-- The tokens of a lot that have not come back. -/
def outstanding (s : Flow) (l : Lot) : ℤ := total (· = l) s.granted - total (· = l) s.returned

def giveBack (s : Flow) (x : Lot × ℤ) : Flow := { s with returned := s.returned ++ [x] }

/-- Each item is covered by what is outstanding when its turn comes. -/
def Covers (s : Flow) : List (Lot × ℤ) → Prop
  | [] => True
  | x :: xs => (0 ≤ x.2 ∧ x.2 ≤ s.outstanding x.1) ∧ (s.giveBack x).Covers xs

instance decidableCovers : ∀ (s : Flow) (xs : List (Lot × ℤ)), Decidable (s.Covers xs)
  | _, [] => isTrue trivial
  | s, x :: xs => have := decidableCovers (s.giveBack x) xs; inferInstanceAs (Decidable (_ ∧ _))

def exec (s : Flow) (c : LedgerCall) : Flow :=
  let r := s.mem.exec c
  match c.op, r.1 with
  | .grant _ ref spec _, .granted (.ok g) =>
    { s with mem := r.2, now := c.now,
             granted := s.granted ++ [(⟨ref.key spec.algo, g.windowID, g.parentWindowID⟩, g.granted)] }
  | .ret _ rs, _ => { s with mem := r.2, now := c.now, returned := s.returned ++ givenBack rs }
  | _, _ => { s with mem := r.2, now := c.now }

end Flow

/-- A call that grants to a child inside the budget, or gives back no more than is outstanding. -/
def Family.Allows (f : Family) (s : Flow) (c : LedgerCall) : Prop :=
  s.now ≤ c.now ∧ match c.op with
  | .grant _ ref spec args => f.Child ref spec ∧ args.parent = some f.budget ∧ args.regional = false
  | .ret dedupe rs => dedupe = "" ∧ (∀ r ∈ rs, f.Child r.ref r.spec ∧ r.parent = some f.budget) ∧ s.Covers (givenBack rs)
  | _ => False

instance (f : Family) (s : Flow) : ∀ c, Decidable (f.Allows s c)
  | ⟨_, .grant ..⟩ => inferInstanceAs (Decidable (_ ∧ _))
  | ⟨_, .ret ..⟩ => inferInstanceAs (Decidable (_ ∧ _))
  | ⟨_, .lend ..⟩ => isFalse And.right
  | ⟨_, .credit ..⟩ => isFalse And.right

def Family.step (f : Family) (s : Flow) (c : LedgerCall) : Option Flow := if f.Allows s c then some (s.exec c) else none

end Gate
