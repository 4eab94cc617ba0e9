import Gate.Spec.Blocks
import Gate.Spec.Clocks

/-! Edges in front of a hub that answers as it pleases: any body for any request it was sent,
at any later time and as often as it likes. -/

namespace Gate

open Conc

inductive HubInput where
  | tick (d : ℤ)
  | allow (edge fuel : ℕ) (req : Request)
  /-- an answer to a lease request -/
  | answer (call : ℕ) (body : Except Code QuotaLeaseResponse)

def hubInput (dep : Deployment) : HubInput → World → Option (World × List (Proc Unit))
  | .tick d, w => some ({ w with time := w.time + d }, [])
  | .allow edge fuel req, w => some (w, [allowThread dep edge fuel req])
  | .answer i body, w => (w.calls[i]?).map fun c =>
      ({ w with replies := w.replies ++ [⟨i, c.body, body, w.time⟩] }, [])

def anyHub (dep : Deployment) : Sem Instr.Answer World Choice HubInput where
  exec := execInstr dep
  ext := hubInput dep

abbrev HubBlock := BlockAct Choice HubInput

def Edges.hubBlock (dep : Deployment) (p : Edges) (a : HubBlock) : Option Edges :=
  Pool.blockStep (anyHub dep) Instr.waits p a

/-- One edge and one fixed-window quota, of limit `L`. -/
def oneQuota (edge : ℕ) (key : String) (L : ℤ) : Pool.Cond Instr World Choice HubInput where
  instr _ _ _ := True
  event e _ := match e with
    | .allow edge' _ req => edge' = edge ∧ stateKey req = key ∧ req.limit = L ∧ fixedWindow req = true
    | _ => True

instance (edge : ℕ) (key : String) (L : ℤ) (i : Instr) (ch : Choice) (w : World) :
    Decidable ((oneQuota edge key L).instr i ch w) := isTrue trivial

instance (edge : ℕ) (key : String) (L : ℤ) : ∀ e w, Decidable ((oneQuota edge key L).event e w)
  | .allow edge' _ req, _ =>
    inferInstanceAs (Decidable (edge' = edge ∧ stateKey req = key ∧ req.limit = L ∧ fixedWindow req = true))
  | .tick _, _ | .answer _ _, _ => isTrue trivial

/-- Every clock reading is the time, which never goes back. -/
def inTime : Pool.Cond Instr World Choice HubInput where
  instr i ch w := i.readsClock → ch.value = w.time
  event e _ := match e with
    | .tick d => 0 ≤ d
    | _ => True

instance (i : Instr) (ch : Choice) (w : World) : Decidable (inTime.instr i ch w) :=
  inferInstanceAs (Decidable (i.readsClock → ch.value = w.time))

instance : ∀ e w, Decidable (inTime.event e w)
  | .tick d, _ => inferInstanceAs (Decidable (0 ≤ d))
  | .allow _ _ _, _ | .answer _ _, _ => isTrue trivial

/-- The calls are made one after the other: each finds every goroutine finished. -/
def oneByOne (p : Edges) : HubBlock → Prop
  | .env (.allow _ _ _) => ∀ th ∈ p.threads, th.rests (fun _ => false) = true
  | _ => True

instance (p : Edges) : ∀ a, Decidable (oneByOne p a)
  | .env (.allow _ _ _) => inferInstanceAs (Decidable (∀ th ∈ p.threads, th.rests (fun _ => false) = true))
  | .env (.tick _) | .env (.answer _ _) | .block _ _ => isTrue trivial

/-- What an event adds to the cost admitted under the window ID `W`. -/
def Event.admittedAs (W : ℤ) : Event → ℤ
  | .answer req (.ok d) => if d.allowed = true ∧ d.window = W then max req.cost 1 else 0
  | _ => 0

/-- The total cost of the admissions with `Decision.Window = W`. -/
def admittedAs (W : ℤ) (log : List Event) : ℤ := (log.map (Event.admittedAs W)).sum

/-- If the event is the creation of a held of the same counter with the same label as `h`, it is
the creation of `h`. -/
def Event.Sole (h : HPtr) : Event → Prop
  | .create h' _ => h'.c = h.c → h'.win = h.win → h' = h
  | _ => True

instance (h : HPtr) : ∀ e, Decidable (Event.Sole h e)
  | .create h' _ => inferInstanceAs (Decidable (h'.c = h.c → h'.win = h.win → h' = h))
  | .take _ _ _ _ | .adjust _ _ | .receive _ _ | .deposit _ _ | .withdraw _ _ | .post _ | .grant _ _ _ | .answer _ _ =>
    isTrue trivial

def Instr.banking : Instr → Option HPtr
  | .addTokens h _ => some h
  | _ => none

/-- Tokens are only banked in a held that shares its label with no other of its counter. -/
def soleHelds : Pool.Cond Instr World Choice HubInput where
  instr i _ w := ∀ h ∈ i.banking, (h.win = 0 → h = h.c.first) ∧ ∀ e ∈ w.log, e.Sole h
  event _ _ := True

instance (i : Instr) (ch : Choice) (w : World) : Decidable (soleHelds.instr i ch w) :=
  inferInstanceAs (Decidable (∀ h ∈ i.banking, (h.win = 0 → h = h.c.first) ∧ ∀ e ∈ w.log, e.Sole h))

instance (e : HubInput) (w : World) : Decidable (soleHelds.event e w) := isTrue trivial

end Gate
