import Gate.Spec.Mem

/-! Sequences of ledger calls. A call is made at a reading of the ledger's clock, in whole
milliseconds. -/

namespace Gate

inductive LedgerOp where
  | grant (ord : RangeOrder) (ref : Ref) (spec : Spec) (args : GrantArgs)
  | ret (dedupe : String) (returns : List Ret)
  | lend (ref : Ref) (spec : Spec) (base wid want margin : ℤ) (id : String)
  | credit (ref : Ref) (spec : Spec) (wid amount : ℤ) (id : String)

structure LedgerCall where
  now : ℤ
  op : LedgerOp

inductive LedgerReply where
  | granted (res : Except Err Grant)
  | returned (res : Except Err Unit)
  | lent (res : Except Err ℤ)
  | credited (res : Except Err Bool)

def Mem.exec (m : Mem) (c : LedgerCall) : LedgerReply × Mem :=
  match c.op with
  | .grant ord ref spec args => let (res, m) := m.grant ord c.now ref spec args; (.granted res, m)
  | .ret dedupe returns => let (res, m) := m.ret c.now dedupe returns; (.returned res, m)
  | .lend ref spec base wid want margin id =>
    let (res, m) := m.lend c.now c.now ref spec base wid want margin id; (.lent res, m)
  | .credit ref spec wid amount id => let (res, m) := m.creditAlloc c.now ref spec wid amount id; (.credited res, m)

/-- The ledger after a sequence of calls. -/
def Mem.after (m : Mem) (cs : List LedgerCall) : Mem := cs.foldl (fun m c => (m.exec c).2) m

/-- The clock never goes back. -/
def InOrder (cs : List LedgerCall) : Prop := cs.Pairwise fun c d => c.now ≤ d.now

instance : DecidablePred InOrder := fun cs => inferInstanceAs (Decidable (cs.Pairwise _))

/-- The tokens a call was granted on a ledger key. -/
def LedgerCall.tokens (key : String) (c : LedgerCall) : LedgerReply → ℤ
  | .granted (.ok g) =>
    match c.op with
    | .grant _ ref spec _ => if ref.key spec.algo = key then g.granted else 0
    | _ => 0
  | _ => 0

/-- When tokens of a ledger key were granted, and how many: one entry for each call. -/
def grantLog (key : String) : Mem → List LedgerCall → List (ℤ × ℤ)
  | _, [] => []
  | m, c :: cs => (c.now, c.tokens key (m.exec c).1) :: grantLog key (m.exec c).2 cs

/-- Grants only, and those on the quota's key are on its spec. -/
def LedgerCall.GrantsOn (ref : Ref) (spec : Spec) (c : LedgerCall) : Prop :=
  ∃ ord ref' spec' args, c.op = .grant ord ref' spec' args ∧ (ref'.key spec'.algo = ref.key spec.algo → spec' = spec)

/-- The quota's key keeps its spec, and loans are recorded under plain names, as `transferID` makes them. -/
def LedgerCall.KeepsSpec (ref : Ref) (spec : Spec) (c : LedgerCall) : Prop :=
  match c.op with
  | .grant _ r s _ => r.key s.algo = ref.key spec.algo → s = spec
  | .ret _ rs => ∀ r ∈ rs, r.ref.key r.spec.algo = ref.key spec.algo → r.spec = spec
  | .lend _ _ _ _ _ _ id => ':' ∉ id.toList ∧ '_' ∉ id.toList
  | .credit _ _ _ _ _ => True

end Gate
