import Gate.Lib.Alone
import Gate.Spec.Blocks

/-! What the instructions of the lease limiter do when nobody interrupts: which of them leave
the balances and the books alone, and how a held is replaced, drawn on, charged and
refilled. -/

namespace Gate

open Conc

/-- Identities only grow, and counters stay where they are. -/
structure World.Grows (w w' : World) : Prop where
  fresh : w.fresh ≤ w'.fresh
  counters : ∀ edge key c, w.findCounter edge key = some c → w'.findCounter edge key = some c

namespace World

theorem Grows.refl (w : World) : w.Grows w := ⟨le_rfl, fun _ _ _ h => h⟩

theorem Grows.trans {w w' w'' : World} (h : w.Grows w') (h' : w'.Grows w'') : w.Grows w'' :=
  ⟨h.fresh.trans h'.fresh, fun e k c hc => h'.counters e k c (h.counters e k c hc)⟩

/-- The same balances, books and messages. -/
structure Alike (w w' : World) : Prop where
  tokens : w'.tokens = w.tokens
  cur : w'.cur = w.cur
  table : w'.table = w.table
  consumed : ∀ h, w'.cells (.consumed h) = w.cells (.consumed h)
  calls : w'.calls = w.calls
  replies : w'.replies = w.replies
  reservations : w'.reservations = w.reservations
  ledger : w'.ledger = w.ledger
  log : w'.log = w.log
  fresh : w.fresh ≤ w'.fresh

theorem Alike.refl (w : World) : w.Alike w := ⟨rfl, rfl, rfl, fun _ => rfl, rfl, rfl, rfl, rfl, rfl, le_rfl⟩

theorem Alike.trans {w w' w'' : World} (h : w.Alike w') (h' : w'.Alike w'') : w.Alike w'' :=
  ⟨h'.tokens.trans h.tokens, h'.cur.trans h.cur, h'.table.trans h.table, fun x => (h'.consumed x).trans (h.consumed x),
    h'.calls.trans h.calls, h'.replies.trans h.replies, h'.reservations.trans h.reservations, h'.ledger.trans h.ledger,
    h'.log.trans h.log, h.fresh.trans h'.fresh⟩

theorem Alike.findCounter {w w' : World} (h : w.Alike w') (edge : ℕ) (key : String) :
    w'.findCounter edge key = w.findCounter edge key := by
  unfold World.findCounter
  rw [h.table]

theorem Alike.grows {w w' : World} (h : w.Alike w') : w.Grows w' :=
  ⟨h.fresh, fun edge key c hc => by rw [h.findCounter, hc]⟩

/-- The counter is the one its edge keeps for its key. -/
def Kept (w : World) (c : CPtr) : Prop := w.findCounter c.edge c.key = some c

theorem Kept.grows {w w' : World} {c : CPtr} (h : w.Kept c) (hg : w.Grows w') : w'.Kept c := hg.counters _ _ _ h

/-- The held of `c` is replaced by a new one, which takes over its debt. -/
def installed (w : World) (c : CPtr) (win parentWin : ℤ) : World :=
  { w with
    fresh := w.fresh + 1
    tokens := Function.update w.tokens ⟨c, w.fresh, win, parentWin⟩ (min (w.tokens (w.cur c)) 0)
    cur := Function.update w.cur c ⟨c, w.fresh, win, parentWin⟩
    log := .create ⟨c, w.fresh, win, parentWin⟩ w.time :: w.log }

end World

/-- The balance `b` after an adjustment. -/
def rechargeTo (b delta maxDebt : ℤ) : ℤ := if 0 < delta ∧ b - delta < -maxDebt then min b (-maxDebt) else b - delta

namespace World

/-- A take of `cost`, counted. -/
def drawn (w : World) (h : HPtr) (cost t exp : ℤ) : World :=
  (w.casTokens h (w.tokens h) (w.tokens h - cost) (.take cost t exp)).setCell (.consumed h) (w.cells (.consumed h) + cost)

def adjusted (w : World) (h : HPtr) (delta maxDebt : ℤ) : World :=
  (w.setCell (.consumed h) (w.cells (.consumed h) + delta)).casTokens h (w.tokens h) (rechargeTo (w.tokens h) delta maxDebt)
    (.adjust delta)

def deposited (w : World) (h : HPtr) (n : ℤ) : World := (w.setTokens h (w.tokens h + n)).record (.deposit h n)

end World

theorem World.grows_installed (w : World) (c : CPtr) (win parentWin : ℤ) : w.Grows (w.installed c win parentWin) :=
  ⟨Nat.le_succ _, fun _ _ _ h => h⟩

theorem World.grows_same {w w' : World} (hf : w'.fresh = w.fresh) (ht : w'.table = w.table) : w.Grows w' := by
  refine ⟨hf.ge, fun edge key c h => ?_⟩
  unfold World.findCounter at h ⊢
  rwa [ht]

theorem World.grows_drawn (w : World) (h : HPtr) (cost t exp : ℤ) : w.Grows (w.drawn h cost t exp) :=
  grows_same rfl rfl

theorem World.grows_addCounter (w : World) (c : CPtr) (n : ℤ) : w.Grows (w.addCounter c n) := by
  refine ⟨Nat.le_succ _, fun edge key c' h => ?_⟩
  unfold World.findCounter World.addCounter at *
  rw [List.find?_append, h]
  rfl

theorem World.consumed_addCounter (w : World) (c : CPtr) (n : ℤ) (h : HPtr) :
    (w.addCounter c n).cells (.consumed h) = w.cells (.consumed h) := by
  have hne : Cell.consumed h ≠ .leaseSize c := fun he => (nomatch he)
  exact Function.update_of_ne hne n w.cells

theorem World.kept_of_findCounter {w : World} {edge : ℕ} {key : String} {c : CPtr} (h : w.findCounter edge key = some c) :
    w.Kept c ∧ c.edge = edge ∧ c.key = key := by
  have hc := List.find?_some h
  simp only [Bool.and_eq_true, decide_eq_true_eq] at hc
  obtain ⟨he, hk⟩ := hc
  refine ⟨?_, he, hk⟩
  unfold World.Kept
  rw [he, hk]
  exact h

theorem World.kept_addCounter {w : World} {edge : ℕ} {req : Request} (h : w.findCounter edge (stateKey req) = none) (n : ℤ) :
    (w.addCounter ⟨edge, w.fresh, req.identity⟩ n).Kept ⟨edge, w.fresh, req.identity⟩ := by
  unfold World.Kept World.findCounter World.addCounter
  unfold World.findCounter at h
  rw [List.find?_append]
  have hkey : CPtr.key ⟨edge, w.fresh, req.identity⟩ = stateKey req := rfl
  simp [hkey, h]

/-- Not one of the guard's counts. -/
def Cell.counts : Cell → Bool
  | .consumed _ => true
  | _ => false

/-- Instructions that leave the balances and the books alone. -/
def Instr.quiet : Instr → Bool
  | .load _ | .loadTokens _ | .loadExpiry _ | .storeExpiry _ _ | .loadRate _ | .storeRate _ _ | .loadCur _ | .clock _
  | .rand _ | .window _ _ | .land _ _ _ => true
  | .store x _ | .add x _ | .swap x _ | .cas x _ _ => !x.counts
  | _ => false

theorem World.alike_setCell (w : World) {x : Cell} (hx : x.counts = false) (v : ℤ) : w.Alike (w.setCell x v) := by
  refine ⟨rfl, rfl, rfl, fun h => ?_, rfl, rfl, rfl, rfl, rfl, le_rfl⟩
  refine Function.update_of_ne ?_ _ _
  rintro rfl
  cases hx

theorem exec_quiet {dep : Deployment} {i : Instr} {ch : Choice} {w w' : World} {r : i.Answer} {new : List (Proc Unit)}
    (hi : i.quiet = true) (h : execInstr dep i ch w = some (r, w', new)) : w.Alike w' ∧ new = [] := by
  cases i with
  | load | loadTokens | loadExpiry | loadRate | loadCur | clock =>
    cases h
    exact ⟨.refl w, rfl⟩
  | storeExpiry | storeRate | land =>
    cases h
    exact ⟨⟨rfl, rfl, rfl, fun _ => rfl, rfl, rfl, rfl, rfl, rfl, le_rfl⟩, rfl⟩
  | store x v | add x v | swap x v =>
    cases h
    exact ⟨w.alike_setCell (by simpa [Instr.quiet] using hi) _, rfl⟩
  | cas x old new' =>
    simp only [execInstr] at h
    split at h
    · cases h
      exact ⟨w.alike_setCell (by simpa [Instr.quiet] using hi) _, rfl⟩
    · cases h
      exact ⟨.refl w, rfl⟩
  | rand n =>
    simp only [execInstr] at h
    split at h
    · cases h
      exact ⟨.refl w, rfl⟩
    · cases h
  | window edge key =>
    simp only [execInstr] at h
    split at h
    · cases h
      exact ⟨.refl w, rfl⟩
    · cases h
      exact ⟨⟨rfl, rfl, rfl, fun _ => rfl, rfl, rfl, rfl, rfl, rfl, Nat.le_succ _⟩, rfl⟩
  | _ => cases hi

/-- A program of such instructions. -/
def Quietly {α : Type} (p : Proc α) : Prop := p.Within (fun i => i.quiet = true) fun _ => True

theorem Quietly.bind {α β : Type} {p : Proc α} {f : α → Proc β} {A : β → Prop} (hp : Quietly p)
    (hf : ∀ a, (f a).Within (fun i => i.quiet = true) A) : (p >>= f).Within (fun i => i.quiet = true) A :=
  (Prog.within_bind p f _).mpr (hp.mono fun a _ => hf a)

theorem quietly_pure {α : Type} (a : α) : Quietly (pure a) := trivial

theorem quietly_exec {i : Instr} (hi : i.quiet = true) : Quietly (Prog.exec i) := ⟨hi, fun _ => trivial⟩

theorem quietly_load (x : Cell) : Quietly (load x) := quietly_exec rfl

theorem quietly_loadRate (c : CPtr) : Quietly (loadRate c) := quietly_exec rfl

theorem quietly_ite {α : Type} {b : Prop} [Decidable b] {p p' : Proc α} (hp : Quietly p) (hp' : Quietly p') :
    Quietly (if b then p else p') := by
  split
  · exact hp
  · exact hp'

/-- Instructions that concern the executing goroutine alone. -/
def Instr.local : Instr → Bool
  | .doChan _ _ | .await _ | .receive _ _ | .attempt _ | .goRenew _ _ => false
  | _ => true

theorem Instr.local_of_quiet {i : Instr} (h : i.quiet = true) : i.local = true := by
  cases i with
  | doChan | await | receive | attempt | goRenew => cases h
  | _ => rfl

/-- The goroutines of the logic execute their own instructions as the edges do, and count on
counters staying where they are. -/
structure Runs {C E : Type} (dep : Deployment) (f : C → Choice) (B : BlockLogic Instr.Answer World C E) : Prop where
  exec : ∀ i c w, i.local = true → B.sem.exec i c w = execInstr dep i (f c) w
  waits : ∀ i, i.local = true → B.waits i = false
  later : B.Later = World.Grows

section Rules

variable {C E : Type} {dep : Deployment} {f : C → Choice} {B : BlockLogic Instr.Answer World C E} {w : World} {α : Type}

/-- An instruction that starts nothing. -/
theorem Runs.step (hr : Runs dep f B) {i : Instr} (hi : i.local = true) {Q : i.Answer → World → Prop}
    (h : ∀ c r w' new, B.cond.instr i c w → execInstr dep i (f c) w = some (r, w', new) → w.Grows w' ∧ new = [] ∧ Q r w') :
    B.wp (Prog.exec i) Q w := by
  rw [BlockLogic.wp_exec (hr.waits i hi)]
  intro c r w' new hc hx
  rw [hr.exec i c w hi] at hx
  obtain ⟨hg, rfl, hQ⟩ := h c r w' new hc hx
  exact ⟨hr.later ▸ hg, fun _ hm => (nomatch hm), hQ⟩

/-- A program that leaves the balances and the books alone. -/
theorem Runs.quiet (hr : Runs dep f B) {p : Proc α} {A : α → Prop} (hp : p.Within (fun i => i.quiet = true) A)
    {Q : α → World → Prop} (h : ∀ a w', w.Alike w' → A a → Q a w') : B.wp p Q w := by
  induction p generalizing w with
  | ret a => exact h a w (.refl w) hp
  | spin => trivial
  | op i k ih =>
    have hi := Instr.local_of_quiet hp.1
    rw [BlockLogic.wp_op, if_neg (by simp [hr.waits i hi])]
    intro c r w' new _ hx
    rw [hr.exec i c w hi] at hx
    obtain ⟨ha, rfl⟩ := exec_quiet hp.1 hx
    exact ⟨hr.later ▸ ha.grows, fun _ hm => (nomatch hm),
      ih r (hp.2 r) fun a w'' ha' hA => h a w'' (ha.trans ha') hA⟩

theorem Runs.quietStep (hr : Runs dep f B) {i : Instr} (hi : i.quiet = true) {Q : i.Answer → World → Prop}
    (h : ∀ r w', w.Alike w' → Q r w') : B.wp (Prog.exec i) Q w :=
  hr.step (Instr.local_of_quiet hi) fun _ r w' _ _ hx =>
    ⟨(exec_quiet hi hx).1.grows, (exec_quiet hi hx).2, h r w' (exec_quiet hi hx).1⟩

/-- A cell may be set on the way. -/
theorem Runs.storeIf (hr : Runs dep f B) {b : Prop} [Decidable b] {x : Cell} (hx : x.counts = false) {v : ℤ} {p : Proc α}
    {Q : α → World → Prop} (h : ∀ w', w.Alike w' → B.wp p Q w') :
    B.wp (if b then (do Gate.store x v; p) else p) Q w := by
  split
  · rw [BlockLogic.wp_bind]
    exact hr.quietStep (by simp [Instr.quiet, hx]) fun _ w' ha => h w' ha
  · exact h w (.refl w)

theorem Runs.load (hr : Runs dep f B) {x : Cell} {Q : ℤ → World → Prop} (h : Q (w.cells x) w) : B.wp (load x) Q w :=
  hr.step rfl fun _ _ _ _ _ hx => by
    cases hx
    exact ⟨.refl w, rfl, h⟩

theorem Runs.store (hr : Runs dep f B) {x : Cell} {v : ℤ} {Q : Unit → World → Prop} (h : Q () (w.setCell x v)) :
    B.wp (store x v) Q w :=
  hr.step rfl fun _ _ _ _ _ hx => by
    cases hx
    exact ⟨⟨le_rfl, fun _ _ _ h => h⟩, rfl, h⟩

theorem Runs.add (hr : Runs dep f B) {x : Cell} {d : ℤ} {Q : ℤ → World → Prop}
    (h : Q (w.cells x + d) (w.setCell x (w.cells x + d))) : B.wp (add x d) Q w :=
  hr.step rfl fun _ _ _ _ _ hx => by
    cases hx
    exact ⟨⟨le_rfl, fun _ _ _ h => h⟩, rfl, h⟩

theorem Runs.cas (hr : Runs dep f B) {x : Cell} {old new : ℤ} {Q : Bool → World → Prop} (ho : w.cells x = old)
    (h : Q true (w.setCell x new)) : B.wp (cas x old new) Q w :=
  hr.step rfl fun _ _ _ _ _ hx => by
    simp only [execInstr, if_pos ho] at hx
    cases hx
    exact ⟨⟨le_rfl, fun _ _ _ h => h⟩, rfl, h⟩

theorem Runs.loadTokens (hr : Runs dep f B) {x : HPtr} {Q : ℤ → World → Prop} (h : Q (w.tokens x) w) :
    B.wp (loadTokens x) Q w :=
  hr.step rfl fun _ _ _ _ _ hx => by
    cases hx
    exact ⟨.refl w, rfl, h⟩

theorem Runs.storeTokens (hr : Runs dep f B) {x : HPtr} {v : ℤ} {Q : Unit → World → Prop} (h : Q () (w.setTokens x v)) :
    B.wp (storeTokens x v) Q w :=
  hr.step rfl fun _ _ _ _ _ hx => by
    cases hx
    exact ⟨⟨le_rfl, fun _ _ _ h => h⟩, rfl, h⟩

/-- Alone, a swap of the balance just read succeeds. -/
theorem Runs.casTokens (hr : Runs dep f B) {x : HPtr} {old new : ℤ} {note : Note} {Q : Bool → World → Prop}
    (ho : w.tokens x = old) (h : Q true (w.casTokens x old new note)) : B.wp (casTokens x old new note) Q w :=
  hr.step rfl fun _ _ _ _ _ hx => by
    simp only [execInstr, if_pos ho] at hx
    cases hx
    refine ⟨?_, rfl, h⟩
    unfold World.casTokens
    split <;> exact ⟨le_rfl, fun _ _ _ h => h⟩

theorem Runs.loadExpiry (hr : Runs dep f B) {x : HPtr} {Q : ℤ → World → Prop} (h : Q (w.expiresAt x) w) :
    B.wp (loadExpiry x) Q w :=
  hr.step rfl fun _ _ _ _ _ hx => by
    cases hx
    exact ⟨.refl w, rfl, h⟩

theorem Runs.loadCur (hr : Runs dep f B) {c : CPtr} {Q : HPtr → World → Prop} (h : Q (w.cur c) w) : B.wp (loadCur c) Q w :=
  hr.step rfl fun _ _ _ _ _ hx => by
    cases hx
    exact ⟨.refl w, rfl, h⟩

theorem Runs.casCur (hr : Runs dep f B) {c : CPtr} {old next : HPtr} {Q : Bool → World → Prop} (ho : w.cur c = old)
    (h : Q true { w with cur := Function.update w.cur c next }) : B.wp (casCur c old next) Q w :=
  hr.step rfl fun _ _ _ _ _ hx => by
    simp only [execInstr, if_pos ho] at hx
    cases hx
    exact ⟨⟨le_rfl, fun _ _ _ h => h⟩, rfl, h⟩

theorem Runs.newHeld (hr : Runs dep f B) {c : CPtr} {win parentWin : ℤ} {Q : HPtr → World → Prop}
    (h : Q ⟨c, w.fresh, win, parentWin⟩
      (({ w with fresh := w.fresh + 1 } : World).record (.create ⟨c, w.fresh, win, parentWin⟩ w.time))) :
    B.wp (newHeld c win parentWin) Q w :=
  hr.step rfl fun _ _ _ _ _ hx => by
    cases hx
    exact ⟨⟨Nat.le_succ _, fun _ _ _ h => h⟩, rfl, h⟩

theorem Runs.clock (hr : Runs dep f B) {edge : ℕ} {Q : ℤ → World → Prop} (h : ∀ t, Q t w) : B.wp (clock edge) Q w :=
  hr.step rfl fun _ _ _ _ _ hx => by
    cases hx
    exact ⟨.refl w, rfl, h _⟩

theorem Runs.addTokens (hr : Runs dep f B) {x : HPtr} {n : ℤ} {Q : ℤ → World → Prop}
    (h : ∀ c, B.cond.instr (.addTokens x n) c w → Q (w.tokens x + n) ((w.setTokens x (w.tokens x + n)).record (.deposit x n))) :
    B.wp (addTokens x n) Q w :=
  hr.step rfl fun c _ _ _ hc hx => by
    cases hx
    exact ⟨⟨le_rfl, fun _ _ _ h => h⟩, rfl, h c hc⟩

theorem Runs.send (hr : Runs dep f B) {edge : ℕ} {r : QuotaLeaseRequest} {Q : ℕ → World → Prop}
    (h : Q w.calls.length { w with calls := w.calls ++ [⟨edge, r⟩] }) : B.wp (send edge r) Q w :=
  hr.step rfl fun _ _ _ _ _ hx => by
    cases hx
    exact ⟨⟨le_rfl, fun _ _ _ h => h⟩, rfl, h⟩

theorem Runs.answered (hr : Runs dep f B) {req : Request} {res : Except LimitErr Decision} {Q : Unit → World → Prop}
    (h : Q () (w.record (.answer req res))) : B.wp (answered req res) Q w :=
  hr.step rfl fun _ _ _ _ _ hx => by
    cases hx
    exact ⟨⟨le_rfl, fun _ _ _ h => h⟩, rfl, h⟩

/-- Alone, `install` goes through at the first try. -/
theorem Runs.install (hr : Runs dep f B) (fuel : ℕ) {c : CPtr} {old : HPtr} {win parentWin : ℤ} {Q : HPtr → World → Prop}
    (ho : w.cur c = old) (h : Q ⟨c, w.fresh, win, parentWin⟩ (w.installed c win parentWin)) :
    B.wp (Lease.install fuel c old win parentWin) Q w := by
  subst ho
  unfold Lease.install
  rw [BlockLogic.wp_bind]
  refine hr.newHeld ?_
  cases fuel with
  | zero => trivial
  | succ fuel =>
    unfold Lease.installLoop
    rw [BlockLogic.wp_bind]
    refine hr.loadTokens ?_
    rw [BlockLogic.wp_bind]
    refine hr.storeTokens ?_
    rw [BlockLogic.wp_bind]
    exact hr.casCur rfl h

end Rules

end Gate
