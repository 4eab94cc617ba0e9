import Gate.Spec.LocalRun

/-! The lease limiter leaves the windows of the local limiter alone, and its decisions are not
theirs. -/

namespace Gate

open Conc

/-- A cell of the lease limiter. -/
@[simp] def Cell.leased : Cell → Bool
  | .windowID _ | .windowConsumed _ | .windowSeen _ => false
  | .resetAt _ | .hubRemaining _ | .retryAt _ | .leaseSize _ | .lastGrant _ | .renewing _ | .lastSeen _
  | .spent _ | .sampledAt _ | .consumed _ | .backoffUntil _ | .returnSeq _ => true

/-- An instruction that is not about the local limiter's windows. -/
def Instr.remote : Instr → Bool
  | .load x | .store x _ | .add x _ | .cas x _ _ => x.leased
  | .window _ _ => false
  | _ => true

theorem localStep_remote {i : Instr} (h : i.remote = true) (g : LocalState) : localStep i g = none := by
  unfold localStep
  split
  all_goals first | rfl | cases h

/-- A program of the lease limiter whose answers meet `Q`. -/
def Apart {α : Type} (p : Proc α) (Q : α → Prop) : Prop := p.Within (fun i => i.remote = true) Q

theorem always_apart {wid : String → ℤ} {Inv : LocalState → Prop} {α : Type} {p : Proc α} {A : α → Prop}
    {Q : α → LocalState → Prop} {g : LocalState} (hp : Apart p A) (hi : Inv g) (hQ : ∀ a, A a → Q a g) :
    (localRuns wid).always Inv p Q g := by
  refine Logic.always_within (fun i g r g' hr hpost => ?_) hp hi hQ
  have h := hpost.2
  rw [localStep_remote hr] at h
  exact h

section
variable {α β : Type}

theorem Apart.mono {Q Q' : α → Prop} {p : Proc α} (hp : Apart p Q) (h : ∀ a, Q a → Q' a) : Apart p Q' :=
  Prog.Within.mono h hp

@[simp] theorem apart_pure (a : α) (Q : α → Prop) : Apart (pure a) Q ↔ Q a := Iff.rfl

@[simp] theorem apart_spin (Q : α → Prop) : Apart .spin Q ↔ True := Iff.rfl

@[simp] theorem apart_bind (p : Proc α) (f : α → Proc β) (Q : β → Prop) :
    Apart (p >>= f) Q ↔ Apart p fun a => Apart (f a) Q := Prog.within_bind p f Q

@[simp] theorem apart_ite (b : Prop) [Decidable b] (p p' : Proc α) (Q : α → Prop) :
    Apart (if b then p else p') Q ↔ if b then Apart p Q else Apart p' Q := Prog.within_ite b p p' Q

theorem apart_exec {i : Instr} (h : i.remote = true) (Q : i.Answer → Prop) :
    Apart (Prog.exec i) Q ↔ ∀ r, Q r := ⟨fun hp => hp.2, fun hq => ⟨h, hq⟩⟩

@[simp] theorem apart_load (x : Cell) (Q : ℤ → Prop) : Apart (load x) Q ↔ x.leased = true ∧ ∀ r, Q r := Iff.rfl

@[simp] theorem apart_store (x : Cell) (v : ℤ) (Q : Unit → Prop) :
    Apart (store x v) Q ↔ x.leased = true ∧ Q () := ⟨fun hp => ⟨hp.1, hp.2 ()⟩, fun hp => ⟨hp.1, fun _ => hp.2⟩⟩

@[simp] theorem apart_add (x : Cell) (d : ℤ) (Q : ℤ → Prop) :
    Apart (add x d) Q ↔ x.leased = true ∧ ∀ r, Q r := Iff.rfl

@[simp] theorem apart_cas (x : Cell) (old new : ℤ) (Q : Bool → Prop) :
    Apart (cas x old new) Q ↔ x.leased = true ∧ ∀ r, Q r := Iff.rfl

@[simp] theorem apart_loadTokens (h : HPtr) (Q : ℤ → Prop) : Apart (loadTokens h) Q ↔ ∀ r, Q r :=
  apart_exec (i := .loadTokens h) rfl Q

@[simp] theorem apart_storeTokens (h : HPtr) (v : ℤ) (Q : Unit → Prop) : Apart (storeTokens h v) Q ↔ Q () :=
  ⟨fun hp => hp.2 (), fun hq => ⟨rfl, fun _ => hq⟩⟩

@[simp] theorem apart_casTokens (h : HPtr) (old new : ℤ) (note : Note) (Q : Bool → Prop) :
    Apart (casTokens h old new note) Q ↔ ∀ r, Q r := apart_exec (i := .casTokens h old new note) rfl Q

@[simp] theorem apart_loadExpiry (h : HPtr) (Q : ℤ → Prop) : Apart (loadExpiry h) Q ↔ ∀ r, Q r :=
  apart_exec (i := .loadExpiry h) rfl Q

@[simp] theorem apart_loadCur (c : CPtr) (Q : HPtr → Prop) : Apart (loadCur c) Q ↔ ∀ r, Q r :=
  apart_exec (i := .loadCur c) rfl Q

@[simp] theorem apart_casCur (c : CPtr) (old new : HPtr) (Q : Bool → Prop) :
    Apart (casCur c old new) Q ↔ ∀ r, Q r := apart_exec (i := .casCur c old new) rfl Q

@[simp] theorem apart_newHeld (c : CPtr) (win parentWin : ℤ) (Q : HPtr → Prop) :
    Apart (newHeld c win parentWin) Q ↔ ∀ r, Q r := apart_exec (i := .newHeld c win parentWin) rfl Q

@[simp] theorem apart_clock (edge : ℕ) (Q : ℤ → Prop) : Apart (clock edge) Q ↔ ∀ r, Q r :=
  apart_exec (i := .clock edge) rfl Q

@[simp] theorem apart_getCounter (edge : ℕ) (size : ℤ) (req : Request) (Q : CPtr → Prop) :
    Apart (getCounter edge size req) Q ↔ ∀ r, Q r := apart_exec (i := .counter edge size req) rfl Q

@[simp] theorem apart_doChan (c : CPtr) (req : Request) (Q : ℕ → Prop) :
    Apart (doChan c req) Q ↔ ∀ r, Q r := apart_exec (i := .doChan c req) rfl Q

@[simp] theorem apart_await (flight : ℕ) (Q : Except LimitErr ℤ → Prop) :
    Apart (await flight) Q ↔ ∀ r, Q r := apart_exec (i := .await flight) rfl Q

@[simp] theorem apart_goRenew (c : CPtr) (req : Request) (Q : Unit → Prop) :
    Apart (goRenew c req) Q ↔ Q () := ⟨fun hp => hp.2 (), fun hq => ⟨rfl, fun _ => hq⟩⟩

end

namespace Lease

theorem apart_counter (o : LeaseOptions) (edge : ℕ) (req : Request) : Apart (counter o edge req) fun _ => True := by
  simp [counter]

theorem apart_installLoop (c : CPtr) (next : HPtr) (fuel : ℕ) (old : HPtr) :
    Apart (installLoop c next fuel old) fun _ => True := by
  induction fuel generalizing old with
  | zero => trivial
  | succ fuel ih => simp [installLoop, ih]

theorem apart_reset (fuel : ℕ) (c : CPtr) (req : Request) (nowMs : ℤ) :
    Apart (reset fuel c req nowMs) fun _ => True := by
  have hi := fun next old => apart_installLoop c next fuel old
  simp [reset, install, hi]

theorem apart_resetTime (c : CPtr) (req : Request) (now : ℤ) : Apart (resetTime c req now) fun _ => True := by
  simp [resetTime]

theorem apart_take (fuel : ℕ) (h : HPtr) (cost nowMs : ℤ) : Apart (take fuel h cost nowMs) fun _ => True := by
  have hd : Apart (dropExpired h fuel) fun _ => True := by
    induction fuel with
    | zero => trivial
    | succ fuel ih => simp [dropExpired, ih]
  have hs : ∀ exp, Apart (spend h cost nowMs exp fuel) fun _ => True := by
    intro exp
    clear hd
    induction fuel with
    | zero => trivial
    | succ fuel ih => simp [spend, ih]
  simp [take, hd, hs]

theorem apart_overLimit (req : Request) (h : HPtr) : Apart (overLimit req h) fun _ => True := by
  simp [overLimit]

theorem apart_fetch (c : CPtr) (req : Request) : Apart (fetch c req) fun _ => True := by
  simp [fetch]

theorem apart_refill (fuel : ℕ) (c : CPtr) (req : Request) (n : ℕ) (h : HPtr) (left : ℤ) :
    Apart (refill fuel c req n h left) fun _ => True := by
  induction n generalizing h left with
  | zero => trivial
  | succ n ih =>
    simp only [refill, apart_ite, apart_pure, apart_bind]
    split
    · trivial
    · refine (apart_fetch c req).mono fun res _ => ?_
      cases res with
      | error e => trivial
      | ok granted =>
        simp only [apart_ite, apart_pure, apart_bind, apart_loadCur, apart_clock]
        split
        · trivial
        · intro h
          refine (apart_overLimit req h).mono fun b _ => ?_
          split
          · trivial
          · exact fun nowMs => (apart_take fuel h req.cost nowMs).mono fun left _ => ih h left

theorem apart_waiting (c : CPtr) (nowMs : ℤ) : Apart (waiting c nowMs) fun _ => True := by
  simp [waiting]

theorem apart_renewIfLow (o : LeaseOptions) (c : CPtr) (req : Request) (h : HPtr) (nowMs left : ℤ) :
    Apart (renewIfLow o c req h nowMs left) fun _ => True := by
  simp [renewIfLow, renew]

theorem apart_denied (c : CPtr) (req : Request) (nowMs : ℤ) {d : Decision} (hd : d.window? = none) :
    Apart (denied c req nowMs d) fun d => d.window? = none := by
  simp only [denied, apart_bind]
  refine (apart_resetTime c req nowMs).mono fun resetAt _ => ?_
  simp only [apart_load, apart_pure]
  exact ⟨rfl, fun _ => hd⟩

theorem apart_admitted (o : LeaseOptions) (c : CPtr) (req : Request) (h : HPtr) (nowMs left : ℤ) (d : Decision) :
    Apart (admitted o c req h nowMs left d) fun d => d.window? = none := by
  simp only [admitted, apart_bind, apart_add]
  refine ⟨rfl, fun _ => ⟨rfl, fun _ => ?_⟩⟩
  refine (apart_renewIfLow o c req h nowMs left).mono fun _ _ => ?_
  refine (apart_resetTime c req nowMs).mono fun _ _ => ?_
  simp only [apart_load, apart_pure]
  exact ⟨rfl, fun _ => rfl⟩

/-- The lease limiter's decisions are not the local limiter's. -/
def Foreign (res : Except LimitErr Decision) : Prop := ∀ d, res = .ok d → d.window? = none

theorem apart_allow (o : LeaseOptions) (edge fuel : ℕ) (req : Request) : Apart (allow o edge fuel req) Foreign := by
  simp only [allow, apart_bind, apart_clock]
  intro nowMs
  refine (apart_counter o edge _).mono fun c _ => ?_
  simp only [allowOn, apart_bind, apart_store]
  refine ⟨rfl, ?_⟩
  refine (apart_reset fuel c _ nowMs).mono fun _ _ => ?_
  refine (apart_resetTime c _ nowMs).mono fun resetAt _ => ?_
  refine (apart_waiting c nowMs).mono fun wait _ => ?_
  simp only [apart_loadCur]
  intro h
  refine (apart_overLimit _ h).mono fun b _ => ?_
  simp only [apart_ite, apart_pure, apart_bind]
  split
  · rintro d ⟨⟩
    rfl
  refine (apart_take fuel h _ nowMs).mono fun left _ => ?_
  refine (apart_refill fuel c _ _ h left).mono fun res _ => ?_
  cases res with
  | error e => exact fun d hd => nomatch hd
  | ok out =>
    obtain ⟨h, left⟩ := out
    simp only [apart_ite, apart_pure, apart_bind]
    split
    · refine (apart_denied c _ nowMs rfl).mono fun d hd => ?_
      rintro d' ⟨⟩
      exact hd
    · refine (apart_admitted o c _ h nowMs left _).mono fun d hd => ?_
      rintro d' ⟨⟩
      exact hd

theorem apart_adjust (fuel : ℕ) (h : HPtr) (delta maxDebt : ℤ) : Apart (adjust fuel h delta maxDebt) fun _ => True := by
  have hr : ∀ target, Apart (recharge target delta maxDebt fuel) fun _ => True := by
    intro target
    induction fuel with
    | zero => trivial
    | succ fuel ih => simp [recharge, ih]
  simp [adjust, adjustOn, hr]

end Lease

end Gate
