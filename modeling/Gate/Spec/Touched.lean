import Gate.Spec.Hub

/-! The ledger keys that a resolved lease can touch, in grants and returns. -/

namespace Gate

def edgesKey (base : String) : String := base ++ ":edges"

def Item.base (it : Item) : String := it.ref.key it.spec.algo

/-- The key of the budget around the quota. -/
def Item.orgBase (it : Item) : String := it.ref.parentKey .fixedWindow

/-- A key that a grant of the item or a return to it reads or writes, in whatever window, for
whatever edge and under whatever ID. -/
inductive Touches (it : Item) : String → Prop where
  | bucket (h : it.spec.algo.or = .tokenBucket) : Touches it it.base
  | window (h : it.spec.algo.or ≠ .tokenBucket) (w : ℤ) : Touches it (winKey it.base w)
  | alloc (h : it.args.regional = true) (w : ℤ) : Touches it (allocKey it.base w)
  | edges : Touches it (edgesKey it.base)
  | ret (cn : String) (r : ReturnLeasesRequest) (h : r.dedupe ≠ "") : Touches it (retKey it.base (returnDedupe cn r))
  | parent (h : it.ref.parent ≠ "") (hp : it.args.parent.isSome) (w : ℤ) : Touches it (winKey it.orgBase w)

/-- Two items inside one org's budget for one service. -/
structure SharedOrg (i j : Item) : Prop where
  nested : i.ref.parent ≠ ""
  parent : i.ref.parent = j.ref.parent
  scope : i.ref.scope = j.ref.scope
  service : i.ref.service = j.ref.service

/-- The items share the counter of their common budget and nothing else. -/
def KeysApart (i j : Item) : Prop :=
  ∀ key, Touches i key ∧ Touches j key ↔ SharedOrg i j ∧ ∃ w, key = winKey i.orgBase w

/-- The items name different quotas. -/
def Item.Differs (i j : Item) : Prop :=
  i.ref.scope ≠ j.ref.scope ∨ i.ref.service ≠ j.ref.service ∨ i.ref.limit ≠ j.ref.limit ∨
    i.ref.subject ≠ j.ref.subject ∨ ¬ (i.ref.parent = "" ↔ j.ref.parent = "")

end Gate
