import Gate.Spec.Tokens

/-! A protocol for the goroutines of the lease limiter. It says what each instruction may be
executed with and what the goroutine knows afterwards: how an answer travels from the
network into a balance, where the balances that `giveBack` takes out go, which clock reading
a take acts on, and where the windows of new balances come from. The programs follow it
whatever the other goroutines do; the proofs about the limiter build on this alone. -/

namespace Gate

open Conc

/-- Where a goroutine is between asking the hub and banking the answer. -/
inductive Phase where
  | idle
  /-- a request is out, sent when the clock had reached `lo` -/
  | sent (call : ℕ) (r : QuotaLeaseRequest) (lo : ℤ)
  | answered (r : QuotaLeaseRequest) (resp : QuotaLeaseResponse) (lo : ℤ)
  /-- the expiry of `h` is set, its tokens are not yet added -/
  | armed (h : HPtr) (exp : ℤ) (r : QuotaLeaseRequest) (resp : QuotaLeaseResponse)

/-- What a goroutine has and knows. -/
structure Know where
  /-- the latest clock reading -/
  lo : ℤ
  phase : Phase
  /-- balances taken out and not yet posted -/
  bag : List (HPtr × ℤ)
  /-- balances whose window is known to have begun -/
  seen : List HPtr
  /-- balances tokens were taken from -/
  taken : List HPtr
  /-- the flight it runs, until the flight lands -/
  slot : Option Flight := none

/-- Knowledge only grows, and grows silently: the phase, the bag and the flight stay. -/
structure Know.Le (g g' : Know) : Prop where
  lo : g.lo ≤ g'.lo
  phase : g'.phase = g.phase
  bag : g'.bag = g.bag
  slot : g'.slot = g.slot
  seen : g.seen ⊆ g'.seen
  taken : g.taken ⊆ g'.taken

instance : Preorder Know where
  le := Know.Le
  le_refl g := ⟨le_rfl, rfl, rfl, rfl, fun _ h => h, fun _ h => h⟩
  le_trans _ _ _ h h' := ⟨h.lo.trans h'.lo, h'.phase.trans h.phase, h'.bag.trans h.bag, h'.slot.trans h.slot,
    fun _ hx => h'.seen (h.seen hx), fun _ hx => h'.taken (h.taken hx)⟩

/-- A window a new balance of `c` may be given: one already begun, or the one an answer names. -/
def Know.Begun (g : Know) (c : CPtr) (win : ℤ) : Prop :=
  (∃ h ∈ g.seen, h.c = c ∧ h.win = win) ∨
    ∃ r resp lo, g.phase = .answered r resp lo ∧ c.key = r.stateKey ∧ win = resp.windowId

/-- The goroutine runs the flight for the counter `c`. -/
def Know.Flying (g : Know) (c : CPtr) : Prop := ∃ f, g.slot = some f ∧ f.edge = c.edge ∧ f.key = c.key

/-- The answer in hand may be banked in `h`, to last until `exp`. -/
def Know.Bankable (g : Know) (h : HPtr) (exp : ℤ) : Prop :=
  ∃ r resp lo, g.phase = .answered r resp lo ∧ g.Flying h.c ∧ h.c.key = r.stateKey ∧ 0 < resp.grantedTokens ∧
    (0 < resp.expiresInMs → h.win = resp.windowId ∧ ∃ sent ≤ lo, exp = sent + resp.expiresInMs)

/-- What a run promises: which requests are made, what a balance, an expiry and a clock
reading can be, and which adjustments happen. -/
structure Regime where
  fits : Request → Prop
  balance : ℤ → Prop
  expiry : HPtr → ℤ → Prop
  reading : ℤ → Prop
  charge : ℤ → Prop
  fits_identity : ∀ req, fits req → fits req.identity
  fits_cost : ∀ req n, fits req → fits { req with cost := n }

/-- A request together with the counter it is charged to. -/
def Regime.Charged (R : Regime) (c : CPtr) (req : Request) : Prop := R.fits req ∧ c.key = stateKey req

/-- A take from `h` on the reading `t`, after seeing the expiry `exp`, is in order. -/
structure Regime.Takeable (R : Regime) (g : Know) (h : HPtr) (t exp : ℤ) : Prop where
  seen : h ∈ g.seen
  lo : t ≤ g.lo
  reading : R.reading t
  expiry : R.expiry h exp
  alive : exp ≤ 0 ∨ t < exp

variable (R : Regime)

def protocolPre : Instr → Know → Prop
  | .storeTokens _ v, _ => ∃ b, R.balance b ∧ v = min b 0
  | .addTokens h n, g => ∃ exp r resp, g.phase = .armed h exp r resp ∧ n = resp.grantedTokens
  | .casTokens h old new (.take cost t exp), g =>
    new = old - cost ∧ 0 ≤ new ∧ 0 < cost ∧ R.Takeable g h t exp
  | .casTokens _ old new .expire, _ => 0 < old ∧ new = 0
  | .casTokens h old new (.adjust delta), g =>
    R.charge delta ∧ (delta < 0 → h ∈ g.taken ∧ new = old - delta) ∧ (0 < delta → new ≤ old) ∧ delta ≠ 0
  | .storeExpiry h exp, g => g.Bankable h exp
  | .casCur c _ new, g => new.c = c ∧ new ∈ g.seen
  | .newHeld c win _, g => g.Begun c win
  | .counter _ _ req, _ => R.fits req
  | .doChan c req, _ => R.Charged c req
  | .goRenew c req, _ => R.Charged c req
  | .send _ r, g => g.phase = .idle ∧ ∃ o req size rate, R.fits req ∧ r = Lease.leaseRequest o req size rate
  | .receive call r, g => ∃ lo, g.phase = .sent call r lo
  | .land id _ _, g => ∃ f, g.slot = some f ∧ f.id = id
  | .post _ r, g => r.dedupe ≠ "" ∧ ∃ l : List (HPtr × ℤ), l.Sublist g.bag ∧
      r.returns = l.map (fun x => Lease.leaseReturn x.1 x.2) ∧ ∀ x ∈ l, R.fits x.1.c.req
  | .reserved r, g => ∀ d ∈ r.results, ∀ h, d.adj = some (.held h) → h ∈ g.taken
  | _, _ => True

def protocolPost : (i : Instr) → Know → i.Answer → Know → Prop
  | .loadTokens _, g, (v : ℤ), g' => R.balance v ∧ g' = g
  | .addTokens _ _, g, _, g' => g' = { g with phase := .idle }
  | .swapTokens h, g, (v : ℤ), g' => R.balance v ∧ g' = { g with bag := g.bag ++ [(h, v)] }
  | .casTokens h _ _ (.take _ _ _), g, (b : Bool), g' =>
    g' = { g with taken := if b then h :: g.taken else g.taken }
  | .storeExpiry h exp, g, _, g' =>
    ∃ r resp lo, g.phase = .answered r resp lo ∧ g' = { g with phase := .armed h exp r resp }
  | .loadExpiry h, g, (v : ℤ), g' => R.expiry h v ∧ g' = g
  | .loadCur c, g, h, g' => h.c = c ∧ g' = { g with seen := h :: g.seen }
  | .newHeld c win _, g, h, g' => h.c = c ∧ h.win = win ∧ g' = { g with seen := h :: g.seen }
  | .clock _, g, (v : ℤ), g' => R.reading v ∧ g' = { g with lo := max g.lo v }
  | .counter _ _ req, g, c, g' => R.fits c.req ∧ c.key = stateKey req ∧ g' = g
  | .counters _, g, (cs : List CPtr), g' => (∀ c ∈ cs, R.fits c.req) ∧ g' = g
  | .send _ r, g, call, g' => g' = { g with phase := .sent call r g.lo }
  | .receive _ _, g, Except.error (_ : Code), g' => g' = { g with phase := .idle }
  | .receive call r, g, Except.ok (resp : QuotaLeaseResponse), g' =>
    ∃ lo, g.phase = .sent call r lo ∧ g' = { g with phase := .answered r resp lo }
  | .post _ _, g, _, g' => g' = { g with bag := [] }
  | .land _ _ _, g, _, g' => g' = { g with phase := .idle, slot := none }
  | _, g, _, g' => g' = g

def protocol : Logic Instr.Answer Know := ⟨protocolPre R, protocolPost R⟩

/-! The rules, instruction by instruction. -/

section Rules

variable {R} {g : Know}

theorem wp_plain {i : Instr} {Q : i.Answer → Know → Prop} (hpre : protocolPre R i g)
    (hpost : ∀ r g', protocolPost R i g r g' ↔ g' = g) :
    (protocol R).wp (Prog.exec i) Q g ↔ ∀ r, Q r g := by
  constructor
  · exact fun h r => h.2 r g ((hpost r g).mpr rfl)
  · refine fun h => ⟨hpre, fun r g' hg => ?_⟩
    rw [(hpost r g').mp hg]
    exact h r

@[simp] theorem wp_load {x : Cell} {Q : ℤ → Know → Prop} :
    (protocol R).wp (load x) Q g ↔ ∀ v, Q v g := wp_plain trivial fun _ _ => Iff.rfl

@[simp] theorem wp_store {x : Cell} {v : ℤ} {Q : Unit → Know → Prop} :
    (protocol R).wp (store x v) Q g ↔ Q () g :=
  ⟨fun h => h.2 () g rfl, fun h => ⟨trivial, fun _ _ hg => by rw [hg]; exact h⟩⟩

@[simp] theorem wp_add {x : Cell} {d : ℤ} {Q : ℤ → Know → Prop} :
    (protocol R).wp (add x d) Q g ↔ ∀ v, Q v g := wp_plain trivial fun _ _ => Iff.rfl

@[simp] theorem wp_swap {x : Cell} {v : ℤ} {Q : ℤ → Know → Prop} :
    (protocol R).wp (swap x v) Q g ↔ ∀ v, Q v g := wp_plain trivial fun _ _ => Iff.rfl

@[simp] theorem wp_cas {x : Cell} {old new : ℤ} {Q : Bool → Know → Prop} :
    (protocol R).wp (cas x old new) Q g ↔ ∀ b, Q b g := wp_plain trivial fun _ _ => Iff.rfl

@[simp] theorem wp_loadExpiry {h : HPtr} {Q : ℤ → Know → Prop} :
    (protocol R).wp (loadExpiry h) Q g ↔ ∀ v, R.expiry h v → Q v g :=
  ⟨fun hw v hv => hw.2 v _ ⟨hv, rfl⟩, fun hw => ⟨trivial, fun v _ hg => by rw [hg.2]; exact hw v hg.1⟩⟩

@[simp] theorem wp_loadRate {c : CPtr} {Q : ℚ → Know → Prop} :
    (protocol R).wp (loadRate c) Q g ↔ ∀ v, Q v g := wp_plain trivial fun _ _ => Iff.rfl

@[simp] theorem wp_storeRate {c : CPtr} {v : ℚ} {Q : Unit → Know → Prop} :
    (protocol R).wp (storeRate c v) Q g ↔ Q () g :=
  ⟨fun h => h.2 () g rfl, fun h => ⟨trivial, fun _ _ hg => by rw [hg]; exact h⟩⟩

@[simp] theorem wp_rand {n : ℤ} {Q : ℤ → Know → Prop} :
    (protocol R).wp (rand n) Q g ↔ ∀ v, Q v g := wp_plain trivial fun _ _ => Iff.rfl

@[simp] theorem wp_await {id : ℕ} {Q : Except LimitErr ℤ → Know → Prop} :
    (protocol R).wp (await id) Q g ↔ ∀ v, Q v g := wp_plain trivial fun _ _ => Iff.rfl

@[simp] theorem wp_land {id : ℕ} {c : CPtr} {res : Except LimitErr ℤ} {Q : Unit → Know → Prop} :
    (protocol R).wp (land id c res) Q g ↔
      (∃ f, g.slot = some f ∧ f.id = id) ∧ Q () { g with phase := .idle, slot := none } :=
  ⟨fun h => ⟨h.1, h.2 () _ rfl⟩, fun h => ⟨h.1, fun _ _ hg => by rw [hg]; exact h.2⟩⟩

@[simp] theorem wp_attempt {msg : ℕ} {Q : Bool → Know → Prop} :
    (protocol R).wp (attempt msg) Q g ↔ ∀ b, Q b g := wp_plain trivial fun _ _ => Iff.rfl

@[simp] theorem wp_clock {edge : ℕ} {Q : ℤ → Know → Prop} :
    (protocol R).wp (clock edge) Q g ↔ ∀ v, R.reading v → Q v { g with lo := max g.lo v } :=
  ⟨fun hw v hv => hw.2 v _ ⟨hv, rfl⟩, fun hw => ⟨trivial, fun v _ hg => by rw [hg.2]; exact hw v hg.1⟩⟩

@[simp] theorem wp_loadTokens {h : HPtr} {Q : ℤ → Know → Prop} :
    (protocol R).wp (loadTokens h) Q g ↔ ∀ v, R.balance v → Q v g :=
  ⟨fun hw v hv => hw.2 v _ ⟨hv, rfl⟩, fun hw => ⟨trivial, fun v _ hg => by rw [hg.2]; exact hw v hg.1⟩⟩

@[simp] theorem wp_loadCur {c : CPtr} {Q : HPtr → Know → Prop} :
    (protocol R).wp (loadCur c) Q g ↔ ∀ h, h.c = c → Q h { g with seen := h :: g.seen } :=
  ⟨fun hw h hc => hw.2 h _ ⟨hc, rfl⟩, fun hw => ⟨trivial, fun h _ hg => by rw [hg.2]; exact hw h hg.1⟩⟩

@[simp] theorem wp_storeTokens {h : HPtr} {v : ℤ} {Q : Unit → Know → Prop} :
    (protocol R).wp (storeTokens h v) Q g ↔ (∃ b, R.balance b ∧ v = min b 0) ∧ Q () g :=
  ⟨fun hw => ⟨hw.1, hw.2 () g rfl⟩, fun hw => ⟨hw.1, fun _ _ hg => by rw [hg]; exact hw.2⟩⟩

@[simp] theorem wp_casCur {c : CPtr} {old new : HPtr} {Q : Bool → Know → Prop} :
    (protocol R).wp (casCur c old new) Q g ↔ (new.c = c ∧ new ∈ g.seen) ∧ ∀ b, Q b g :=
  ⟨fun hw => ⟨hw.1, fun b => hw.2 b g rfl⟩, fun hw => ⟨hw.1, fun b _ hg => by rw [hg]; exact hw.2 b⟩⟩

@[simp] theorem wp_newHeld {c : CPtr} {win parentWin : ℤ} {Q : HPtr → Know → Prop} :
    (protocol R).wp (newHeld c win parentWin) Q g ↔
      g.Begun c win ∧ ∀ h, h.c = c → h.win = win → Q h { g with seen := h :: g.seen } :=
  ⟨fun hw => ⟨hw.1, fun h hc hwin => hw.2 h _ ⟨hc, hwin, rfl⟩⟩,
    fun hw => ⟨hw.1, fun h _ hg => by rw [hg.2.2]; exact hw.2 h hg.1 hg.2.1⟩⟩

@[simp] theorem wp_take {h : HPtr} {old new cost t exp : ℤ} {Q : Bool → Know → Prop} :
    (protocol R).wp (casTokens h old new (.take cost t exp)) Q g ↔
      (new = old - cost ∧ 0 ≤ new ∧ 0 < cost ∧ R.Takeable g h t exp) ∧
        ∀ b : Bool, Q b { g with taken := if b then h :: g.taken else g.taken } :=
  ⟨fun hw => ⟨hw.1, fun b => hw.2 b _ rfl⟩, fun hw => ⟨hw.1, fun b _ hg => by rw [hg]; exact hw.2 b⟩⟩

@[simp] theorem wp_expire {h : HPtr} {old new : ℤ} {Q : Bool → Know → Prop} :
    (protocol R).wp (casTokens h old new .expire) Q g ↔ (0 < old ∧ new = 0) ∧ ∀ b, Q b g :=
  ⟨fun hw => ⟨hw.1, fun b => hw.2 b _ rfl⟩, fun hw => ⟨hw.1, fun b _ hg => by rw [hg]; exact hw.2 b⟩⟩

@[simp] theorem wp_adjust {h : HPtr} {old new delta : ℤ} {Q : Bool → Know → Prop} :
    (protocol R).wp (casTokens h old new (.adjust delta)) Q g ↔
      (R.charge delta ∧ (delta < 0 → h ∈ g.taken ∧ new = old - delta) ∧ (0 < delta → new ≤ old) ∧
        delta ≠ 0) ∧ ∀ b, Q b g :=
  ⟨fun hw => ⟨hw.1, fun b => hw.2 b _ rfl⟩, fun hw => ⟨hw.1, fun b _ hg => by rw [hg]; exact hw.2 b⟩⟩

@[simp] theorem wp_doChan {c : CPtr} {req : Request} {Q : ℕ → Know → Prop} :
    (protocol R).wp (doChan c req) Q g ↔ R.Charged c req ∧ ∀ id, Q id g :=
  ⟨fun hw => ⟨hw.1, fun b => hw.2 b _ rfl⟩, fun hw => ⟨hw.1, fun b _ hg => by rw [hg]; exact hw.2 b⟩⟩

@[simp] theorem wp_goRenew {c : CPtr} {req : Request} {Q : Unit → Know → Prop} :
    (protocol R).wp (goRenew c req) Q g ↔ R.Charged c req ∧ Q () g :=
  ⟨fun hw => ⟨hw.1, hw.2 () g rfl⟩, fun hw => ⟨hw.1, fun _ _ hg => by rw [hg]; exact hw.2⟩⟩

@[simp] theorem wp_storeExpiry {h : HPtr} {exp : ℤ} {Q : Unit → Know → Prop} :
    (protocol R).wp (storeExpiry h exp) Q g ↔ g.Bankable h exp ∧
      ∀ r resp lo, g.phase = .answered r resp lo → Q () { g with phase := .armed h exp r resp } :=
  ⟨fun hw => ⟨hw.1, fun r resp lo hp => hw.2 () _ ⟨r, resp, lo, hp, rfl⟩⟩,
    fun hw => ⟨hw.1, fun _ _ ⟨r, resp, lo, hp, hg⟩ => by rw [hg]; exact hw.2 r resp lo hp⟩⟩

@[simp] theorem wp_addTokens {h : HPtr} {n : ℤ} {Q : ℤ → Know → Prop} :
    (protocol R).wp (addTokens h n) Q g ↔
      (∃ exp r resp, g.phase = .armed h exp r resp ∧ n = resp.grantedTokens) ∧
        ∀ v, Q v { g with phase := .idle } :=
  ⟨fun hw => ⟨hw.1, fun b => hw.2 b _ rfl⟩, fun hw => ⟨hw.1, fun b _ hg => by rw [hg]; exact hw.2 b⟩⟩

@[simp] theorem wp_swapTokens {h : HPtr} {Q : ℤ → Know → Prop} :
    (protocol R).wp (swapTokens h) Q g ↔ ∀ v, R.balance v → Q v { g with bag := g.bag ++ [(h, v)] } :=
  ⟨fun hw v hv => hw.2 v _ ⟨hv, rfl⟩, fun hw => ⟨trivial, fun v _ hg => by rw [hg.2]; exact hw v hg.1⟩⟩

@[simp] theorem wp_send {edge : ℕ} {r : QuotaLeaseRequest} {Q : ℕ → Know → Prop} :
    (protocol R).wp (send edge r) Q g ↔
      (g.phase = .idle ∧ ∃ o req size rate, R.fits req ∧ r = Lease.leaseRequest o req size rate) ∧
        ∀ call, Q call { g with phase := .sent call r g.lo } :=
  ⟨fun hw => ⟨hw.1, fun b => hw.2 b _ rfl⟩, fun hw => ⟨hw.1, fun b _ hg => by rw [hg]; exact hw.2 b⟩⟩

theorem wp_receive {call : ℕ} {r : QuotaLeaseRequest} {lo : ℤ}
    {Q : Except Code QuotaLeaseResponse → Know → Prop} (hp : g.phase = .sent call r lo)
    (herr : ∀ code, Q (.error code) { g with phase := .idle })
    (hok : ∀ resp, Q (.ok resp) { g with phase := .answered r resp lo }) :
    (protocol R).wp (receive call r) Q g := by
  refine ⟨⟨lo, hp⟩, fun ans g' hg => ?_⟩
  cases ans with
  | error code => rw [show g' = _ from hg]; exact herr code
  | ok resp =>
    obtain ⟨lo', hp', rfl⟩ := hg
    rw [hp] at hp'
    cases hp'
    exact hok resp

@[simp] theorem wp_post {edge : ℕ} {r : ReturnLeasesRequest} {Q : ℕ → Know → Prop} :
    (protocol R).wp (post edge r) Q g ↔ protocolPre R (.post edge r) g ∧ ∀ msg, Q msg { g with bag := [] } :=
  ⟨fun hw => ⟨hw.1, fun b => hw.2 b _ rfl⟩, fun hw => ⟨hw.1, fun b _ hg => by rw [hg]; exact hw.2 b⟩⟩

@[simp] theorem wp_getCounter {edge : ℕ} {n : ℤ} {req : Request} {Q : CPtr → Know → Prop} :
    (protocol R).wp (getCounter edge n req) Q g ↔
      R.fits req ∧ ∀ c, R.fits c.req → c.key = stateKey req → Q c g :=
  ⟨fun hw => ⟨hw.1, fun c hf hk => hw.2 c _ ⟨hf, hk, rfl⟩⟩,
    fun hw => ⟨hw.1, fun c _ hg => by rw [hg.2.2]; exact hw.2 c hg.1 hg.2.1⟩⟩

@[simp] theorem wp_rangeCounters {edge : ℕ} {Q : List CPtr → Know → Prop} :
    (protocol R).wp (rangeCounters edge) Q g ↔ ∀ cs, (∀ c ∈ cs, R.fits c.req) → Q cs g :=
  ⟨fun hw v hv => hw.2 v _ ⟨hv, rfl⟩, fun hw => ⟨trivial, fun v _ hg => by rw [hg.2]; exact hw v hg.1⟩⟩

@[simp] theorem wp_getWindow {edge : ℕ} {key : String} {Q : WPtr → Know → Prop} :
    (protocol R).wp (getWindow edge key) Q g ↔ ∀ w, Q w g := wp_plain trivial fun _ _ => Iff.rfl

@[simp] theorem wp_rangeWindows {edge : ℕ} {Q : List WPtr → Know → Prop} :
    (protocol R).wp (rangeWindows edge) Q g ↔ ∀ ws, Q ws g := wp_plain trivial fun _ _ => Iff.rfl

@[simp] theorem wp_deleteCounter {c : CPtr} {Q : Unit → Know → Prop} :
    (protocol R).wp (deleteCounter c) Q g ↔ Q () g :=
  ⟨fun h => h.2 () g rfl, fun h => ⟨trivial, fun _ _ hg => by rw [hg]; exact h⟩⟩

@[simp] theorem wp_deleteWindow {w : WPtr} {Q : Unit → Know → Prop} :
    (protocol R).wp (deleteWindow w) Q g ↔ Q () g :=
  ⟨fun h => h.2 () g rfl, fun h => ⟨trivial, fun _ _ hg => by rw [hg]; exact h⟩⟩

@[simp] theorem wp_answered {req : Request} {res : Except LimitErr Decision} {Q : Unit → Know → Prop} :
    (protocol R).wp (answered req res) Q g ↔ Q () g :=
  ⟨fun h => h.2 () g rfl, fun h => ⟨trivial, fun _ _ hg => by rw [hg]; exact h⟩⟩

@[simp] theorem wp_reserved {r : Reservation} {Q : Unit → Know → Prop} :
    (protocol R).wp (reserved r) Q g ↔
      (∀ d ∈ r.results, ∀ h, d.adj = some (.held h) → h ∈ g.taken) ∧ Q () g :=
  ⟨fun hw => ⟨hw.1, hw.2 () g rfl⟩, fun hw => ⟨hw.1, fun _ _ hg => by rw [hg]; exact hw.2⟩⟩

end Rules

end Gate
