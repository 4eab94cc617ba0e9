import Gate.Proofs.LeaseSafety
import Gate.Spec.Clocks

/-! How long a token lasts, on clocks that agree. An answer's lifetime is measured from the
ledger's clock and added to the reading before the request was sent, so it never reaches
past the window it was granted in. -/

namespace Gate

open Conc

/-- An answer given at `served`, which expires with its window at the latest. -/
structure Quota.Timed (q : Quota) (resp : QuotaLeaseResponse) (served : ℤ) : Prop where
  window : resp.windowId = served.tdiv (windowMs q.spec)
  pos : 0 < resp.expiresInMs
  le : served + resp.expiresInMs ≤ (resp.windowId + 1) * windowMs q.spec

/-- An enclosing quota only shortens a lease. -/
theorem nest_expires (m : Mem) (inp : GrantInput) (ms : Measure) (now : ℤ)
    (hp : inp.parentKey ≠ "" → 0 < inp.pwin) (h0 : 0 < ms.expires) :
    0 < (m.nest inp ms now).expires ∧ (m.nest inp ms now).expires ≤ ms.expires := by
  unfold Mem.nest
  split
  · exact ⟨h0, le_rfl⟩
  · rename_i h
    refine ⟨lt_min h0 ?_, min_le_left _ _⟩
    linarith [Windows.lt_end (hp h) now]

theorem Leased.timed {env : HubEnv} {cfg : GatewayConfig} {r : QuotaLeaseRequest} {m m' : Mem} {now : ℤ}
    {resp : QuotaLeaseResponse} {it : Item} {args : GrantArgs} {inp : GrantInput} {g : Grant} {q : Quota}
    (hl : Leased env cfg r m now resp m' it args inp g) (hq : q.spec.algo.or ≠ .tokenBucket)
    (hs : it.spec = q.spec) : q.Timed resp now := by
  have halgo : inp.algo ≠ .tokenBucket := by rw [hl.prepared.algo, hs]; exact hq
  have hwin : inp.win = windowMs q.spec := by rw [hl.prepared.win, hs]
  have hms : m.measure inp now = m.measureWindow inp now := measure_window halgo
  have hend : (m.measureWindow inp now).expires = (now.tdiv inp.win + 1) * inp.win - now := rfl
  have hpos := Windows.lt_end (hwin ▸ windowMs_pos q.spec) now
  obtain ⟨h0, hle⟩ := nest_expires m inp (m.measureWindow inp now) now hl.prepared.pwin
    (by rw [hend]; linarith)
  have hexp : resp.expiresInMs = (m.nest inp (m.measureWindow inp now) now).expires := by
    rw [hl.resp, ← hms]
    simp only [grantResponse, hl.granted.expires, milliseconds_mul]
  have hwid : resp.windowId = now.tdiv inp.win := by
    rw [hl.resp]
    simp only [grantResponse, hl.granted.wid, hms]
    rfl
  refine ⟨hwin ▸ hwid, hexp ▸ h0, ?_⟩
  rw [hexp, hwid, ← hwin]
  rw [hend] at hle
  linarith

section

variable (q : Quota) (off : ℤ)

/-- An expiry that a balance of the quota can have: unset, or within its window. -/
def Quota.Lasts (h : HPtr) (exp : ℤ) : Prop :=
  h.c.key = q.stateKey → exp ≤ 0 ∨ exp ≤ (h.win + 1) * windowMs q.spec + off

/-- What of the state grows with time. -/
structure Past where
  time : ℤ
  replies : List Reply
  log : List Event

def World.past (w : World) : Past := ⟨w.time, w.replies, w.log⟩

/-- The window of a balance had begun when the balance was created; the first one of a
counter has window zero. -/
def Quota.Started (w : Past) (h : HPtr) : Prop :=
  h.c.key = q.stateKey → h.win * windowMs q.spec ≤ 0 ∨
    ∃ now, Event.create h now ∈ w.log ∧ h.win * windowMs q.spec ≤ now ∧ now ≤ w.time

def lifeRegime (dep : Deployment) : Regime where
  fits := Request.Draws dep q
  balance _ := True
  expiry := q.Lasts off
  reading v := 0 ≤ v - off
  charge _ := True
  fits_identity _ h := h
  fits_cost _ _ h := h

/-- What a goroutine knows about time. -/
structure Know.Timely (w : Past) (g : Know) : Prop where
  lo : g.lo ≤ w.time + off
  seen : ∀ h ∈ g.seen, q.Started w h
  sent : ∀ call r lo, g.phase = .sent call r lo →
    lo ≤ w.time + off ∧ ∀ rep ∈ w.replies, rep.call = call → lo ≤ rep.served + off
  answered : ∀ r resp lo, g.phase = .answered r resp lo → r.stateKey = q.stateKey →
    ∃ served, 0 ≤ served ∧ served ≤ w.time ∧ lo ≤ served + off ∧ q.Timed resp served

structure Timely (w : World) (gs : List Know) : Prop where
  time : 0 ≤ w.time
  expiry : ∀ h, q.Lasts off h (w.expiresAt h)
  cur : ∀ c, q.Started w.past (w.cur c)
  replies : ∀ rep ∈ w.replies, 0 ≤ rep.served ∧ rep.served ≤ w.time ∧
    ∀ resp, rep.body = .ok resp → rep.req.stateKey = q.stateKey → q.Timed resp rep.served
  spent : ∀ x ∈ takes w.log, x.h.c.key = q.stateKey → (x.t - off).tdiv (windowMs q.spec) = x.h.win
  shares : ∀ g ∈ gs, g.Timely q off w.past

end

section

variable {dep : Deployment} {q : Quota} {off : ℤ} {past past' : Past} {w w' : World} {gs gs' : List Know} {t : ℕ} {g : Know}

/-- Time has gone on, nothing was struck from the record, and what was answered since was
answered since. -/
structure Past.Later (w w' : Past) : Prop where
  time : w.time ≤ w'.time
  log : w.log ⊆ w'.log
  replies : ∀ rep ∈ w'.replies, rep ∈ w.replies ∨ w.time ≤ rep.served

theorem Past.Later.note (past : Past) (e : Event) : past.Later { past with log := e :: past.log } :=
  ⟨le_rfl, List.subset_cons_self _ _, fun _ h => .inl h⟩

theorem Quota.Started.later {h : HPtr} (hs : q.Started past h) (hl : past.Later past') : q.Started past' h := by
  intro hk
  rcases hs hk with h0 | ⟨now, hc, hb, hn⟩
  · exact .inl h0
  · exact .inr ⟨now, hl.log hc, hb, hn.trans hl.time⟩

/-- The window has begun by now. -/
theorem Quota.Started.begun {h : HPtr} (hs : q.Started past h) (hk : h.c.key = q.stateKey) (h0 : 0 ≤ past.time) :
    h.win * windowMs q.spec ≤ past.time := by
  rcases hs hk with h1 | ⟨now, -, hb, hn⟩
  · exact h1.trans h0
  · exact hb.trans hn

theorem Know.Timely.later (hg : g.Timely q off past) (hl : past.Later past') : g.Timely q off past' where
  lo := hg.lo.trans (by linarith [hl.time])
  seen h hh := (hg.seen h hh).later hl
  sent call r lo hp := by
    obtain ⟨h₁, h₂⟩ := hg.sent call r lo hp
    refine ⟨h₁.trans (by linarith [hl.time]), fun rep hr hc => ?_⟩
    rcases hl.replies rep hr with hr | hr
    · exact h₂ rep hr hc
    · linarith
  answered r resp lo hp hk := by
    obtain ⟨served, h0, h1, h2, h3⟩ := hg.answered r resp lo hp hk
    exact ⟨served, h0, h1.trans hl.time, h2, h3⟩

/-- A step that changes no expiry, installs no balance, gets no answer and takes nothing. -/
theorem Timely.quiet (hi : Timely q off w gs) (hl : w.past.Later w'.past) (he : w'.expiresAt = w.expiresAt)
    (hc : w'.cur = w.cur) (hr : w'.replies ⊆ w.replies) (ht : takes w'.log = takes w.log)
    (hs : ∀ g ∈ gs', g.Timely q off w'.past) : Timely q off w' gs' where
  time := hi.time.trans hl.time
  expiry := he ▸ hi.expiry
  cur c := by
    rw [hc]
    exact (hi.cur c).later hl
  replies rep hrep := by
    obtain ⟨h0, h1, h2⟩ := hi.replies rep (hr hrep)
    exact ⟨h0, h1.trans hl.time, h2⟩
  spent := ht ▸ hi.spent
  shares := hs

theorem Timely.all_later (hi : Timely q off w gs) (hl : w.past.Later past) : ∀ g ∈ gs, g.Timely q off past :=
  fun g hg => (hi.shares g hg).later hl

/-- An event other than a take goes on record. -/
theorem Timely.note (hi : Timely q off w gs) (e : Event) (he : e.taken = none) (h : HPtr) (v : ℤ) :
    Timely q off ((w.setTokens h v).record e) gs := by
  have hl := Past.Later.note w.past e
  refine hi.quiet hl rfl rfl (List.Subset.refl _) ?_ (hi.all_later hl)
  simp [takes, World.record, World.setTokens, he]

theorem tdiv_eq_of_inside {win v x : ℤ} (hw : 0 < win) (h0 : 0 ≤ x) (hs : v * win ≤ x) (he : x < (v + 1) * win) :
    x.tdiv win = v := by
  rw [Int.tdiv_eq_ediv_of_nonneg h0]
  refine le_antisymm (Int.lt_add_one_iff.mp ?_) ((Int.le_ediv_iff_mul_le hw).mpr hs)
  exact (Int.ediv_lt_iff_lt_mul hw).mpr he

/-- A take that saw an expiry and read the clock after the balance was created falls into
the balance's window. -/
theorem Timely.inside (hi : Timely q off w gs) (hg : g ∈ gs) {h : HPtr} {now exp : ℤ}
    (ht : (lifeRegime q off dep).Takeable g h now exp) (hk : h.c.key = q.stateKey) (h0 : 0 < exp)
    (hc : ∀ e ∈ w.log, e.CreatedBy h (now - off)) : (now - off).tdiv (windowMs q.spec) = h.win := by
  have hr : 0 ≤ now - off := ht.reading
  refine tdiv_eq_of_inside (windowMs_pos q.spec) hr ?_ ?_
  · rcases (hi.shares g hg).seen h ht.seen hk with h1 | ⟨made, hm, hb, -⟩
    · exact h1.trans hr
    · exact hb.trans (hc _ hm rfl)
  · have halive := ht.alive.resolve_left (not_le.mpr h0)
    have hlast := (ht.expiry hk).resolve_left (not_le.mpr h0)
    linarith

/-- Banking an answer sets an expiry within the window. -/
theorem Timely.lasts (hi : Timely q off w gs) (hg : g ∈ gs) {h : HPtr} {exp : ℤ} (hb : g.Bankable h exp) :
    q.Lasts off h exp := by
  intro hk
  obtain ⟨r, resp, lo, hp, -, hkr, -, hwin⟩ := hb
  obtain ⟨served, -, -, hlo, ht⟩ := (hi.shares g hg).answered r resp lo hp (hkr ▸ hk)
  obtain ⟨hw, sent, hs, rfl⟩ := hwin ht.pos
  right
  rw [hw]
  linarith [ht.le]

/-- A new balance's window has begun. -/
theorem Timely.begun (hi : Timely q off w gs) (hg : g ∈ gs) {c : CPtr} {win : ℤ} (hb : g.Begun c win)
    (hk : c.key = q.stateKey) : win * windowMs q.spec ≤ w.time := by
  rcases hb with ⟨h, hh, rfl, rfl⟩ | ⟨r, resp, lo, hp, hkr, rfl⟩
  · exact ((hi.shares g hg).seen h hh).begun hk hi.time
  · obtain ⟨served, h0, h1, -, ht⟩ := (hi.shares g hg).answered r resp lo hp (hkr ▸ hk)
    rw [ht.window]
    exact (Windows.start_le (windowMs_pos q.spec) h0).trans h1

theorem Timely.serve (hi : Timely q off w gs) (hq : q.spec.algo.or ≠ .tokenBucket)
    (hb : Base (lifeRegime q off dep) w) {i : ℕ} {c : Call} (hc : c ∈ w.calls) (ord : RangeOrder) :
    Timely q off (w.serve dep i c w.time ord) gs := by
  obtain ⟨o, req, size, rate, hf, hbody⟩ := hb.calls c hc
  have hf' : q.Draws c.body.stateKey (resolve dep.env dep.cfg c.body.scope c.body.serviceId c.body.apiKey
      c.body.limitId c.body.tierId c.body.org) := by
    rw [hbody]
    exact hf
  have hcases := requestQuotaLease_cases dep.env dep.cfg (dep.cn c.edge) w.ledger ord w.time c.body
  unfold World.serve
  dsimp only
  have hl : ∀ (body : Except Code QuotaLeaseResponse) (log : List Event), w.log ⊆ log →
      w.past.Later ⟨w.time, w.replies ++ [⟨i, c.body, body, w.time⟩], log⟩ :=
    fun body log hlog => ⟨le_rfl, hlog, forall_mem_snoc (fun _ h => .inl h) (.inr le_rfl)⟩
  rcases hcases with ⟨code, h⟩ | ⟨resp, m', it, args, inp, g, h, hles⟩
  · rw [h]
    have hl' := hl (.error code) w.log (List.Subset.refl _)
    refine ⟨hi.time, hi.expiry, fun c => (hi.cur c).later hl', ?_, hi.spent, hi.all_later hl'⟩
    exact forall_mem_snoc hi.replies ⟨hi.time, le_rfl, fun _ h => (by cases h)⟩
  · rw [h]
    have hl' := hl (.ok resp) (.grant c.body resp w.time :: w.log) (List.subset_cons_self _ _)
    refine ⟨hi.time, hi.expiry, fun c => (hi.cur c).later hl', ?_, hi.spent, hi.all_later hl'⟩
    refine forall_mem_snoc hi.replies ⟨hi.time, le_rfl, ?_⟩
    rintro _ ⟨⟩ hk
    rw [hles.resolved] at hf'
    exact hles.timed hq (hf' hk)

theorem Know.Timely.fresh (h0 : 0 ≤ past.time) (taken : List HPtr) (slot : Option Flight) :
    Know.Timely q off past ⟨off, .idle, [], [], taken, slot⟩ :=
  ⟨by linarith, by simp, fun _ _ _ h => (by cases h), fun _ _ _ h => (by cases h)⟩

/-- A goroutine goes on with the same clock readings and balances seen. -/
theorem Know.Timely.idle (hg : g.Timely q off past) {bag : List (HPtr × ℤ)} {taken : List HPtr}
    {slot : Option Flight} : Know.Timely q off past ⟨g.lo, .idle, bag, g.seen, taken, slot⟩ :=
  ⟨hg.lo, hg.seen, fun _ _ _ h => (by cases h), fun _ _ _ h => (by cases h)⟩

/-- The premises of a run: clocks that agree, requests that draw on the quota, and the
condition on takes. -/
def timely (dep : Deployment) (q : Quota) (off : ℤ) : Pool.Cond Instr World Choice Input :=
  ((steady off).and (requesting (Request.Draws dep q))).and (checkedTakes q off)

instance (dep : Deployment) (q : Quota) (off : ℤ) (i : Instr) (ch : Choice) (w : World) :
    Decidable ((timely dep q off).instr i ch w) :=
  inferInstanceAs (Decidable (Pool.Cond.instr (Pool.Cond.and _ _) i ch w))

instance (dep : Deployment) (q : Quota) (off : ℤ) (e : Input) (w : World) :
    Decidable ((timely dep q off).event e w) :=
  inferInstanceAs (Decidable (Pool.Cond.event (Pool.Cond.and _ _) e w))

theorem timely_obey (dep : Deployment) (off : ℤ) (hq : q.spec.algo.or ≠ .tokenBucket) :
    Obeys dep (lifeRegime q off dep) (timely dep q off) (Timely q off) where
  same {w w' gs} hs hi := by
    have hp : w'.past = w.past := by simp only [World.past, hs.time, hs.replies, hs.log]
    exact ⟨hs.time ▸ hi.time, hs.expiresAt ▸ hi.expiry, by rw [hp, hs.cur]; exact hi.cur,
      by rw [hs.replies, hs.time]; exact hi.replies, hs.log ▸ hi.spent, hp ▸ hi.shares⟩
  balance _ _ := trivial
  expiry h hi := hi.expiry h
  spawn slot hi := ⟨_, rfl, rfl, { hi with shares := forall_mem_snoc hi.shares (.fresh hi.time [] slot) }⟩
  land hi hg := by
    have hs := hi.shares _ (List.mem_of_getElem? hg)
    exact { hi with shares := forall_mem_set hi.shares _ hs.idle }
  clock edge ch hi hg hc := by
    have hv : ch.value = _ + off := hc.1.1 rfl
    have hs := hi.shares _ (List.mem_of_getElem? hg)
    refine ⟨by simp [lifeRegime, hv, hi.time], ?_⟩
    exact { hi with shares := forall_mem_set hi.shares _ { hs with lo := max_le hs.lo hv.le } }
  loadCur c hi hg := by
    have hs := hi.shares _ (List.mem_of_getElem? hg)
    refine { hi with shares := forall_mem_set hi.shares _ { hs with seen := ?_ } }
    exact List.forall_mem_cons.mpr ⟨hi.cur c, hs.seen⟩
  newHeld {w gs t g} c win parentWin hi hg hb := by
    have hm := List.mem_of_getElem? hg
    have hl := Past.Later.note w.past (.create ⟨c, w.fresh, win, parentWin⟩ w.time)
    have hs := (hi.shares _ hm).later hl
    refine hi.quiet hl rfl rfl (List.Subset.refl _) rfl ?_
    refine forall_mem_set (hi.all_later hl) _ { hs with seen := ?_ }
    refine List.forall_mem_cons.mpr ⟨fun hk => .inr ⟨w.time, List.mem_cons_self, ?_, le_rfl⟩, hs.seen⟩
    exact hi.begun hm hb hk
  casCur {w gs t g} c new hi hg hn := by
    refine ⟨hi.time, hi.expiry, ?_, hi.replies, hi.spent, hi.shares⟩
    refine (Function.forall_update_iff w.cur fun _ h => q.Started w.past h).mpr ⟨?_, fun c _ => hi.cur c⟩
    exact (hi.shares _ (List.mem_of_getElem? hg)).seen new hn
  storeTokens h b hi _ := { hi with }
  take {w gs t g} h cost now exp ch hi hg hc _ _ ht := by
    have hm := List.mem_of_getElem? hg
    have hl := Past.Later.note w.past (.take h cost now w.time)
    have hs := (hi.shares _ hm).later hl
    refine ⟨hi.time, hi.expiry, fun c => (hi.cur c).later hl, hi.replies, ?_,
      forall_mem_set (hi.all_later hl) _ { hs with }⟩
    refine List.forall_mem_cons.mpr ⟨fun hk => ?_, hi.spent⟩
    obtain ⟨h0, hcr⟩ := hc.2 _ rfl hk rfl
    exact hi.inside hm ht hk h0 hcr
  expire h hi _ := { hi with }
  adjust h new delta hi _ _ _ _ _ := hi.note _ rfl h new
  storeExpiry {w gs t g} h exp r resp lo ch hi hg _ _ hb _ := by
    have hm := List.mem_of_getElem? hg
    have hs := hi.shares _ hm
    refine ⟨hi.time, ?_, hi.cur, hi.replies, hi.spent, forall_mem_set hi.shares _ { hs with
      sent := fun _ _ _ h => (by cases h), answered := fun _ _ _ h => (by cases h) }⟩
    exact (Function.forall_update_iff w.expiresAt (q.Lasts off)).mpr ⟨hi.lasts hm hb, fun h _ => hi.expiry h⟩
  deposit h exp r resp hi hg _ := by
    have hs := hi.shares _ (List.mem_of_getElem? hg)
    exact Timely.note { hi with shares := forall_mem_set hi.shares _ hs.idle } _ rfl h _
  withdraw {w gs t g} h hi hg := by
    have hs := hi.shares _ (List.mem_of_getElem? hg)
    have hi' : Timely q off w (gs.set t { g with bag := g.bag ++ [(h, w.tokens h)] }) :=
      { hi with shares := forall_mem_set hi.shares _ { hs with } }
    exact hi'.note _ rfl h _
  send {w gs t g} edge r hb hi hg _ _ := by
    have hs := hi.shares _ (List.mem_of_getElem? hg)
    refine { hi with shares := forall_mem_set hi.shares _ { hs with
      sent := ?_, answered := fun _ _ _ h => (by cases h) } }
    rintro _ _ _ ⟨⟩
    -- nobody has answered a call that is only now being made
    exact ⟨hs.lo, fun rep hr hc => absurd (hb.replies rep hr).1 (by rw [hc]; exact lt_irrefl _)⟩
  receive {w gs t g} call r lo i rep resp _ hi hg hp hrep hcall hr hbody := by
    have hm := List.mem_of_getElem? hrep
    have hl : w.past.Later (w.receive i r (.ok resp)).past :=
      ⟨le_rfl, List.subset_cons_self _ _, fun _ h => .inl (List.mem_of_mem_eraseIdx h)⟩
    have hs := (hi.shares _ (List.mem_of_getElem? hg))
    refine hi.quiet hl rfl rfl (List.eraseIdx_subset) rfl ?_
    refine forall_mem_set (hi.all_later hl) _ { hs.later hl with
      sent := fun _ _ _ h => (by cases h), answered := ?_ }
    rintro _ _ _ ⟨⟩ hk
    obtain ⟨h0, h1, h2⟩ := hi.replies rep hm
    exact ⟨rep.served, h0, h1, (hs.sent call r lo hp).2 rep hm hcall, h2 resp hbody (hr ▸ hk)⟩
  refused {w gs t g} call r lo i rep code hi hg _ _ _ _ _ := by
    have hl : w.past.Later (w.receive i r (.error code)).past :=
      ⟨le_rfl, List.Subset.refl _, fun _ h => .inl (List.mem_of_mem_eraseIdx h)⟩
    have hs := (hi.shares _ (List.mem_of_getElem? hg)).later hl
    exact hi.quiet hl rfl rfl (List.eraseIdx_subset) rfl (forall_mem_set (hi.all_later hl) _ hs.idle)
  lost call r lo hi hg _ := by
    have hs := hi.shares _ (List.mem_of_getElem? hg)
    exact { hi with shares := forall_mem_set hi.shares _ hs.idle }
  post {w gs t g} edge r hi hg _ := by
    have hl := Past.Later.note w.past (.post r)
    have hs := (hi.shares _ (List.mem_of_getElem? hg)).later hl
    exact hi.quiet hl rfl rfl (List.Subset.refl _) rfl (forall_mem_set (hi.all_later hl) _ { hs with })
  answer {w gs} req res hi := by
    have hl := Past.Later.note w.past (.answer req res)
    exact hi.quiet hl rfl rfl (List.Subset.refl _) rfl (hi.all_later hl)
  reserved _ hi _ _ := { hi with }
  fitsAllow _ _ _ h := h.1.2
  fitsReserve _ _ _ h := ⟨fun _ _ => trivial, h.1.2⟩
  tick {w gs} d hi hc := by
    have hd : 0 ≤ d := hc.1.1
    have hl : w.past.Later { w.past with time := w.time + d } :=
      ⟨by simpa [World.past] using hd, List.Subset.refl _, fun _ h => .inl h⟩
    exact hi.quiet hl rfl rfl (List.Subset.refl _) rfl (hi.all_later hl)
  settle i actual fuel r hi _ _ := by
    refine ⟨fun _ _ _ => trivial, ⟨off, .idle, [], [], tickets r.results, none⟩, rfl,
      fun d hd => ticketed_tickets hd, ?_⟩
    exact { hi with shares := forall_mem_snoc hi.shares (.fresh hi.time _ none) }
  serve i c now ord hb hi hc hcall := by
    have hn : now = _ := hc.1.1
    rw [hn]
    exact hi.serve hq hb (List.mem_of_getElem? hcall) ord
  credit _ _ _ _ hi _ _ := { hi with }

theorem timely_init (off : ℤ) {time : ℤ} (h0 : 0 ≤ time) (m : Mem) : Timely q off (World.init time m) [] where
  time := h0
  expiry _ _ := .inl le_rfl
  cur _ _ := .inl (by simp [World.init, CPtr.first])
  replies := by simp [World.init]
  spent := by simp [World.init, takes]
  shares := by simp

end

/-- In every run on clocks that agree up to a constant, in which whoever takes a token had
found an expiry set and had read the clock since the balance was created: a token labelled
with a window is taken while the ledger's clock is inside that window. -/
theorem tokens_taken_inside_window (dep : Deployment) (q : Quota) (hq : q.spec.algo.or ≠ .tokenBucket)
    (off time : ℤ) (h0 : 0 ≤ time) (m : Mem) (acts : List EdgeAct) (p : Edges)
    (ha : Along (Edges.step dep) (Pool.Meets (timely dep q off)) (Edges.init time m) acts)
    (hr : runAll (Edges.step dep) (Edges.init time m) acts = some p) :
    ∀ x ∈ takes p.shared.log, x.h.c.key = q.stateKey → (x.t - off).tdiv (windowMs q.spec) = x.h.win := by
  obtain ⟨gs, -, hi⟩ := (timely_obey dep off hq).run (timely_init off h0 m) ha hr
  exact hi.spent

namespace Sample

/-- An answer granted in window 5 arrives in window 6. -/
def lateReply : List EdgeAct :=
  [.env (.tick 100)] ++ firstAllow ++
  -- low on tokens, the second request starts a renewal, which the hub serves at 5950
  [.env (.tick 800), .env (.allow 0 3 (request 8))] ++ steps 22 2 5900 ++ steps 3 3 5900 ++ steps 8 4 5900 ++
  [.env (.tick 50), .env (.serve 1 5950 order), .env (.tick 52)] ++
  -- in window 6, a request resets the counter and finds the expiry of the new balance unset
  [.env (.allow 0 3 (request 1))] ++ steps 17 5 6002 ++
  -- the answer is banked there, under the old label, and the request takes one of its tokens
  steps 7 4 6002 ++ steps 2 5 6002

end Sample

open Sample in
/-- A token of window 5 is taken in window 6. -/
theorem late_reply_taken_outside_window :
    Along (Edges.step dep) (Pool.Meets ((steady 0).and (requesting (Request.Draws dep quota))))
      (Edges.init 5000 Mem.new) lateReply ∧
    ∃ p, runAll (Edges.step dep) (Edges.init 5000 Mem.new) lateReply = some p ∧
      ∃ x ∈ takes p.shared.log, x.h.c.key = quota.stateKey ∧ x.h.win = 5 ∧ x.t = 6002 ∧ x.now = 6002 ∧
        x.t.tdiv (windowMs quota.spec) = 6 := by
  refine ⟨by decide +kernel, ?_⟩
  have hn : (runAll (Edges.step dep) (Edges.init 5000 Mem.new) lateReply).map (fun p : Edges => decide
      (∃ x ∈ takes p.shared.log, x.h.c.key = quota.stateKey ∧ x.h.win = 5 ∧ x.t = 6002 ∧ x.now = 6002 ∧
        x.t.tdiv (windowMs quota.spec) = 6)) = some true := by decide +kernel
  obtain ⟨p, hr, hp⟩ := Option.map_eq_some_iff.mp hn
  exact ⟨p, hr, of_decide_eq_true hp⟩

open Sample in
theorem tokens_taken_inside_window_first_allow :
    ∃ p, runAll (Edges.step dep) (Edges.init 5100 Mem.new) firstAllow = some p ∧
      (takes p.shared.log).map (fun x => (x.h.win, x.t)) = [(5, 5100)] ∧
      ∀ x ∈ takes p.shared.log, x.h.c.key = quota.stateKey →
        (x.t - 0).tdiv (windowMs quota.spec) = x.h.win := by
  have hn : (runAll (Edges.step dep) (Edges.init 5100 Mem.new) firstAllow).map
      (fun p : Edges => (takes p.shared.log).map fun x => (x.h.win, x.t)) = some [(5, 5100)] := by decide +kernel
  obtain ⟨p, hr, hp⟩ := Option.map_eq_some_iff.mp hn
  exact ⟨p, hr, hp, tokens_taken_inside_window dep quota (by decide) 0 5100 (by decide) Mem.new firstAllow p
    (by decide +kernel) hr⟩

end Gate
