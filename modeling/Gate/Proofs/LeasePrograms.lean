import Gate.Proofs.LeaseLogic

/-! The lease limiter's programs follow the protocol. -/

namespace Gate

open Conc

variable {R : Regime}

theorem Know.le_lo (g : Know) (v : ℤ) : g ≤ { g with lo := max g.lo v } :=
  ⟨le_max_left _ _, rfl, rfl, rfl, fun _ h => h, fun _ h => h⟩

theorem Know.le_seen (g : Know) (h : HPtr) : g ≤ { g with seen := h :: g.seen } :=
  ⟨le_rfl, rfl, rfl, rfl, fun _ hx => List.mem_cons_of_mem _ hx, fun _ hx => hx⟩

theorem Know.le_taken (g : Know) (h : HPtr) : g ≤ { g with taken := h :: g.taken } :=
  ⟨le_rfl, rfl, rfl, rfl, fun _ hx => hx, fun _ hx => List.mem_cons_of_mem _ hx⟩

namespace Lease

theorem moves_installLoop (c : CPtr) (next : HPtr) (hc : next.c = c) (fuel : ℕ) (old : HPtr) :
    (protocol R).Moves (fun g => next ∈ g.seen) (installLoop c next fuel old)
      fun h g => h.c = c ∧ h ∈ g.seen := by
  induction fuel generalizing old with
  | zero => exact fun _ _ => trivial
  | succ fuel ih =>
    intro g hn
    simp only [installLoop, Logic.wp_bind, wp_loadTokens, wp_storeTokens, wp_casCur, Logic.wp_ite,
      wp_loadCur, Logic.wp_pure]
    intro balance hb
    refine ⟨⟨balance, hb, rfl⟩, ⟨hc, hn⟩, fun b => ?_⟩
    split
    · exact ⟨le_rfl, hc, hn⟩
    · intro h hhc
      have hle := Know.le_seen g h
      split
      · exact ⟨hle, hhc, List.mem_cons_self⟩
      · refine (ih h).wp (hle.seen hn) ?_
        exact fun a g' hg ha => ⟨hle.trans hg, ha⟩

theorem moves_install (fuel : ℕ) (c : CPtr) (old : HPtr) (win parentWin : ℤ) :
    (protocol R).Moves (fun g => g.Begun c win) (install fuel c old win parentWin)
      fun h g => h.c = c ∧ h ∈ g.seen := by
  intro g hw
  simp only [install, Logic.wp_bind, wp_newHeld]
  refine ⟨hw, fun h hc _ => ?_⟩
  refine (moves_installLoop c h hc fuel old).wp List.mem_cons_self ?_
  exact fun a g' hg ha => ⟨(Know.le_seen g h).trans hg, ha⟩

theorem moves_reset (fuel : ℕ) (c : CPtr) (req : Request) (nowMs : ℤ) :
    (protocol R).Moves (fun _ => True) (reset fuel c req nowMs) fun _ _ => True := by
  intro g _
  simp only [reset, Logic.wp_bind, wp_load, Logic.wp_ite, wp_cas, wp_store, wp_loadCur, Logic.wp_pure]
  intro resetAt
  split
  · exact ⟨le_rfl, trivial⟩
  · intro b
    split
    · split
      · exact ⟨le_rfl, trivial⟩
      · intro old hc
        have hle := Know.le_seen g old
        refine (moves_install fuel c old old.win old.parentWin).wp
          (.inl ⟨old, List.mem_cons_self, hc, rfl⟩) ?_
        exact fun a g' hg _ => ⟨hle.trans hg, trivial⟩
    · exact ⟨le_rfl, trivial⟩

theorem moves_dropExpired (h : HPtr) (fuel : ℕ) :
    (protocol R).Moves (fun _ => True) (dropExpired h fuel) fun left _ => left < 0 := by
  induction fuel with
  | zero => exact fun _ _ => trivial
  | succ fuel ih =>
    intro g _
    simp only [dropExpired, Logic.wp_bind, wp_loadTokens, Logic.wp_ite, wp_expire, Logic.wp_pure]
    intro cur _
    split
    · exact ⟨le_rfl, by decide⟩
    · rename_i hcur
      refine ⟨⟨lt_of_not_ge hcur, trivial⟩, fun b => ?_⟩
      split
      · exact ⟨le_rfl, by decide⟩
      · exact ih g trivial

theorem moves_spend (h : HPtr) {cost : ℤ} (hcost : 0 < cost) (t exp : ℤ) (fuel : ℕ) :
    (protocol R).Moves (fun g => R.Takeable g h t exp) (spend h cost t exp fuel)
      fun left g => 0 ≤ left → h ∈ g.taken := by
  induction fuel with
  | zero => exact fun _ _ => trivial
  | succ fuel ih =>
    intro g ht
    simp only [spend, Logic.wp_bind, wp_loadTokens, Logic.wp_ite, wp_take, Logic.wp_pure]
    intro cur _
    split
    · exact ⟨le_rfl, fun h => absurd h (by decide)⟩
    · rename_i hcur
      refine ⟨⟨trivial, sub_nonneg.mpr (le_of_not_gt hcur), hcost, ht⟩, fun b => ?_⟩
      cases b with
      | true => exact ⟨Know.le_taken g h, fun _ => List.mem_cons_self⟩
      | false => exact ih g ht

theorem moves_take (fuel : ℕ) (h : HPtr) {cost : ℤ} (hcost : 0 < cost) {t : ℤ} (hr : R.reading t) :
    (protocol R).Moves (fun g => h ∈ g.seen ∧ t ≤ g.lo) (take fuel h cost t)
      fun left g => 0 ≤ left → h ∈ g.taken := by
  intro g ht
  simp only [take, Logic.wp_bind, wp_loadExpiry, Logic.wp_ite]
  intro exp hx
  split
  · refine (moves_dropExpired h fuel).wp trivial ?_
    exact fun left g' hg hl => ⟨hg, fun h0 => absurd h0 (not_le.mpr hl)⟩
  · rename_i hexp
    exact moves_spend h hcost t exp fuel g ⟨ht.1, ht.2, hr, hx, by omega⟩

theorem moves_recharge (target : HPtr) {delta : ℤ} (maxDebt : ℤ) (hc : R.charge delta) (h0 : delta ≠ 0)
    (fuel : ℕ) :
    (protocol R).Moves (fun g => delta < 0 → target ∈ g.taken) (recharge target delta maxDebt fuel)
      fun _ _ => True := by
  induction fuel with
  | zero => exact fun _ _ => trivial
  | succ fuel ih =>
    intro g ht
    simp only [recharge, Logic.wp_bind, wp_loadTokens, wp_adjust, Logic.wp_ite, Logic.wp_pure]
    intro cur _
    refine ⟨⟨hc, fun hd => ⟨ht hd, ?_⟩, fun hd => ?_, h0⟩, fun b => ?_⟩
    · rw [if_neg fun h => absurd h.1 (not_lt.mpr hd.le)]
    · split
      · exact min_le_left _ _
      · omega
    · split
      · exact ⟨le_rfl, trivial⟩
      · exact ih g ht

theorem moves_adjust (fuel : ℕ) (h : HPtr) {delta : ℤ} (maxDebt : ℤ) (hc : R.charge delta) (h0 : delta ≠ 0) :
    (protocol R).Moves (fun g => h ∈ g.taken) (adjust fuel h delta maxDebt) fun _ _ => True := by
  intro g ht
  simp only [adjust, adjustOn, Logic.wp_bind, wp_loadCur, Logic.wp_ite, wp_add, Logic.wp_pure]
  intro cur _
  have hle := Know.le_seen g cur
  split
  · intro _
    refine (moves_recharge h maxDebt hc h0 fuel).wp (fun _ => hle.taken ht) ?_
    exact fun _ g' hg _ => ⟨hle.trans hg, trivial⟩
  · split
    · exact ⟨hle, trivial⟩
    · rename_i hd
      intro _
      refine (moves_recharge cur maxDebt hc h0 fuel).wp (fun h => absurd h hd) ?_
      exact fun _ g' hg _ => ⟨hle.trans hg, trivial⟩

theorem moves_observe (c : CPtr) (nowMs : ℤ) :
    (protocol R).Moves (fun _ => True) (observe c nowMs) fun _ _ => True := by
  intro g _
  simp only [observe, Logic.wp_bind, wp_loadRate, wp_load, Logic.wp_ite, wp_store, wp_swap, wp_storeRate,
    Logic.wp_pure]
  intro rate last
  split
  · exact ⟨le_rfl, trivial⟩
  · split
    · exact ⟨le_rfl, trivial⟩
    · exact fun _ => ⟨le_rfl, trivial⟩

theorem moves_expiry (o : LeaseOptions) (c : CPtr) (sentMs : ℤ) (resp : QuotaLeaseResponse) :
    (protocol R).Moves (fun _ => True) (expiry o c sentMs resp)
      fun exp _ => 0 < resp.expiresInMs → exp = sentMs + resp.expiresInMs := by
  intro g _
  simp only [expiry, Logic.wp_ite, Logic.wp_pure, Logic.wp_bind, wp_clock, wp_load]
  split
  · exact ⟨le_rfl, fun _ => trivial⟩
  · rename_i h
    exact fun now _ _ => ⟨Know.le_lo g now, fun h' => absurd h' h⟩

section Accept

variable {o : LeaseOptions} {c : CPtr} {h : HPtr} {sentMs lo : ℤ} {r : QuotaLeaseRequest}
  {resp : QuotaLeaseResponse} {g : Know}

theorem wp_acceptTokens (hp : g.phase = .answered r resp lo) (hf : g.Flying h.c) (hk : h.c.key = r.stateKey)
    (hwin : 0 < resp.expiresInMs → h.win = resp.windowId) (hs : sentMs ≤ lo) :
    (protocol R).wp (acceptTokens o c h sentMs resp) (fun _ g' => g'.slot = g.slot) g := by
  simp only [acceptTokens, Logic.wp_bind, wp_store, Logic.wp_ite, wp_clock, wp_rand, Logic.wp_pure,
    implies_true]
  split
  · trivial
  split
  · trivial
  · rename_i hg
    refine (moves_expiry o c sentMs resp).wp trivial fun exp g' hle hexp => ?_
    have hp' := hle.phase.trans hp
    have hf' : g'.Flying h.c := by
      rw [Know.Flying, hle.slot]
      exact hf
    simp only [wp_storeExpiry, wp_addTokens]
    refine ⟨⟨r, resp, lo, hp', hf', hk, lt_of_not_ge hg, fun h0 => ⟨hwin h0, sentMs, hs, hexp h0⟩⟩, ?_⟩
    intro r' resp' lo' hp''
    rw [hp'] at hp''
    cases hp''
    exact ⟨⟨exp, r, resp, rfl, rfl⟩, fun _ => hle.slot⟩

theorem wp_acceptWindow (hp : g.phase = .answered r resp lo) (hf : g.Flying h.c) (hk : h.c.key = r.stateKey)
    (hwin : h.win = resp.windowId) (hs : sentMs ≤ lo) :
    (protocol R).wp (acceptWindow o c h sentMs resp) (fun _ g' => g'.slot = g.slot) g := by
  unfold acceptWindow
  split
  · simp only [Logic.wp_bind, wp_store]
    exact wp_acceptTokens hp hf hk (fun _ => hwin) hs
  · exact wp_acceptTokens hp hf hk (fun _ => hwin) hs

theorem wp_accept (fuel : ℕ) (req : Request) (hp : g.phase = .answered r resp lo) (hf : g.Flying c)
    (hk : c.key = r.stateKey) (hs : sentMs ≤ lo) :
    (protocol R).wp (accept o fuel c req sentMs resp) (fun _ g' => g'.slot = g.slot) g := by
  simp only [accept, Logic.wp_bind, wp_loadCur]
  intro h hc
  have hk' : h.c.key = r.stateKey := hc ▸ hk
  have hp' : Know.phase { g with seen := h :: g.seen } = .answered r resp lo := hp
  have hf' : Know.Flying { g with seen := h :: g.seen } h.c := by rw [hc]; exact hf
  split
  · simp only [Logic.wp_ite, Logic.wp_pure, Logic.wp_bind]
    split
    · trivial
    split
    · refine (moves_install fuel c h resp.windowId resp.parentWindowId).wp (.inr ⟨r, resp, lo, hp, hk, rfl⟩) ?_
      intro h' g' hle hh
      split
      · exact hle.slot
      · rename_i hwin
        have hf'' : g'.Flying h'.c := by
          rw [Know.Flying, hle.slot, hh.1]
          exact hf
        have hw := wp_acceptWindow (R := R) (o := o) (c := c) (hle.phase.trans hp) hf'' (hh.1 ▸ hk)
          (not_not.mp hwin) hs
        exact (protocol R).wp_mono (fun _ _ h => h.trans hle.slot) hw
    · exact wp_acceptWindow hp' hf' hk' (by omega) hs
  · rename_i hold
    have hwin : 0 < resp.expiresInMs → h.win = resp.windowId := fun h0 => absurd (.inl h0) hold
    split
    · exact wp_acceptTokens hp' hf' hk' hwin hs
    · simp only [Logic.wp_bind, wp_load]
      intro resetAt
      split
      · simp only [Logic.wp_bind, wp_store]
        exact wp_acceptTokens hp' hf' hk' hwin hs
      · exact wp_acceptTokens hp' hf' hk' hwin hs

end Accept

/-- A flight follows the protocol from an idle start. -/
theorem wp_flight {o : LeaseOptions} {fuel id : ℕ} {c : CPtr} {req : Request} {g : Know}
    (hreq : R.Charged c req) (hp : g.phase = .idle) (hf : g.slot = some ⟨id, c.edge, c.key⟩) :
    (protocol R).wp (flight o fuel id c req) (fun _ _ => True) g := by
  simp only [flight, Logic.wp_bind, wp_clock, wp_load, wp_send, wp_land]
  intro sentMs _ size
  have hs : sentMs ≤ max g.lo sentMs := le_max_right _ _
  refine (moves_observe c sentMs).wp trivial fun rate g' hle _ => ?_
  refine ⟨⟨hle.phase.trans hp, o, req, size, rate, hreq.1, rfl⟩, fun call => ?_⟩
  have hf' : g'.slot = some ⟨id, c.edge, c.key⟩ := hle.slot.trans hf
  have hland : ∃ f, g'.slot = some f ∧ f.id = id := ⟨_, hf', rfl⟩
  refine wp_receive rfl (fun code => ?_) fun resp => ?_
  · simp only [conclude, Logic.wp_ite, Logic.wp_bind, wp_clock, wp_store, Logic.wp_pure, and_true]
    split
    · exact fun _ _ => hland
    · exact hland
  · simp only [conclude, Logic.wp_bind, Logic.wp_pure, and_true]
    refine (protocol R).wp_mono (fun _ g'' h => ?_)
      (wp_accept fuel req rfl ⟨_, hf', rfl, rfl⟩ hreq.2 (hs.trans hle.lo))
    rw [h]
    exact hland

theorem moves_fetch {c : CPtr} {req : Request} (hreq : R.Charged c req) :
    (protocol R).Moves (fun _ => True) (fetch c req) fun _ _ => True := by
  intro g _
  simp only [fetch, Logic.wp_bind, wp_clock, wp_load, Logic.wp_ite, Logic.wp_pure, wp_doChan, wp_await]
  intro now _ backoff
  have hle := Know.le_lo g now
  split
  · exact ⟨hle, trivial⟩
  · exact ⟨hreq, fun _ _ => ⟨hle, trivial⟩⟩

theorem moves_renew {c : CPtr} {req : Request} (hreq : R.Charged c req) :
    (protocol R).Moves (fun _ => True) (renew c req) fun _ _ => True := by
  intro g _
  simp only [renew, Logic.wp_bind, wp_load, Logic.wp_ite, Logic.wp_pure, wp_cas, wp_goRenew]
  intro retryAt
  split
  · exact ⟨le_rfl, trivial⟩
  · intro b
    split
    · exact ⟨hreq, le_rfl, trivial⟩
    · exact ⟨le_rfl, trivial⟩

theorem wp_renewal {c : CPtr} {req : Request} {g : Know} (hreq : R.Charged c req) :
    (protocol R).wp (renewal c req) (fun _ _ => True) g := by
  simp only [renewal, Logic.wp_bind, wp_store]
  exact (moves_fetch hreq).wp trivial fun _ _ _ _ => trivial

theorem moves_overLimit (req : Request) (h : HPtr) :
    (protocol R).Moves (fun _ => True) (overLimit req h) fun _ _ => True := by
  intro g _
  simp only [overLimit, Logic.wp_ite, Logic.wp_bind, wp_load, Logic.wp_pure]
  split
  · exact fun _ => ⟨le_rfl, trivial⟩
  · exact ⟨le_rfl, trivial⟩

/-- What `refill` ends with: a balance left on `h` means `h` was taken from. -/
def Refilled (g : Know) : Except LimitErr (HPtr × ℤ) → Prop
  | .error _ => True
  | .ok (h, left) => 0 ≤ left → h ∈ g.taken

theorem moves_refill (fuel : ℕ) {c : CPtr} {req : Request} (hreq : R.Charged c req) (hcost : 0 < req.cost)
    (n : ℕ) (h : HPtr) (left : ℤ) :
    (protocol R).Moves (fun g => 0 ≤ left → h ∈ g.taken) (refill fuel c req n h left)
      fun res g => Refilled g res := by
  induction n generalizing h left with
  | zero => exact fun g ht => ⟨le_rfl, ht⟩
  | succ n ih =>
    intro g ht
    simp only [refill, Logic.wp_ite, Logic.wp_pure, Logic.wp_bind]
    split
    · exact ⟨le_rfl, ht⟩
    rename_i hleft
    refine (moves_fetch hreq).wp trivial fun res g₁ h₁ _ => ?_
    cases res with
    | error e => exact ⟨h₁, trivial⟩
    | ok granted =>
      simp only [Logic.wp_ite, Logic.wp_pure, Logic.wp_bind, wp_loadCur, wp_clock]
      split
      · exact ⟨h₁, fun h0 => absurd h0 hleft⟩
      intro h' _
      have h₂ := h₁.trans (Know.le_seen g₁ h')
      refine (moves_overLimit req h').wp trivial fun full g₃ h₃ _ => ?_
      split
      · exact ⟨h₂.trans h₃, fun h0 => absurd h0 hleft⟩
      intro now hnow
      have h₄ := (h₂.trans h₃).trans (Know.le_lo g₃ now)
      refine (moves_take fuel h' hcost hnow).wp ⟨h₃.seen List.mem_cons_self, le_max_right _ _⟩ ?_
      intro left' g₅ h₅ ht'
      refine (ih h' left').wp ht' fun res g₆ h₆ hr => ?_
      exact ⟨(h₄.trans h₅).trans h₆, hr⟩

theorem moves_resetTime (c : CPtr) (req : Request) (now : ℤ) :
    (protocol R).Moves (fun _ => True) (resetTime c req now) fun _ _ => True := by
  intro g _
  simp only [resetTime, Logic.wp_bind, wp_load, Logic.wp_pure]
  exact fun _ => ⟨le_rfl, trivial⟩

theorem moves_waiting (c : CPtr) (now : ℤ) :
    (protocol R).Moves (fun _ => True) (waiting c now) fun _ _ => True := by
  intro g _
  simp only [waiting, Logic.wp_bind, wp_load, Logic.wp_ite, Logic.wp_pure, wp_cas]
  intro retryAt
  split
  · split
    · exact ⟨le_rfl, trivial⟩
    · exact fun _ => ⟨le_rfl, trivial⟩
  · exact ⟨le_rfl, trivial⟩

/-- A decision hands out a balance to adjust only if the request was charged to it. -/
def Ticketed (g : Know) (d : Decision) : Prop := ∀ h, d.adj = some (.held h) → h ∈ g.taken

theorem Ticketed.mono {g g' : Know} {d : Decision} (h : Ticketed g d) (hle : g ≤ g') : Ticketed g' d :=
  fun x hx => hle.taken (h x hx)

theorem moves_denied (c : CPtr) (req : Request) (now : ℤ) (d : Decision) (hd : d.adj = none) :
    (protocol R).Moves (fun _ => True) (denied c req now d) fun d' _ => d'.adj = none := by
  intro g _
  simp only [denied, Logic.wp_bind, wp_load, Logic.wp_pure]
  refine (moves_resetTime c req now).wp trivial fun _ g' hg _ => ?_
  exact fun _ => ⟨hg, hd⟩

theorem moves_renewIfLow (o : LeaseOptions) {c : CPtr} {req : Request} (hreq : R.Charged c req) (h : HPtr)
    (now left : ℤ) : (protocol R).Moves (fun _ => True) (renewIfLow o c req h now left) fun _ _ => True := by
  intro g _
  simp only [renewIfLow, Logic.wp_bind, wp_load, wp_loadExpiry, Logic.wp_ite, Logic.wp_pure]
  intro lastGrant exp _ reset
  split
  · exact moves_renew hreq g trivial
  · exact ⟨le_rfl, trivial⟩

theorem moves_admitted (o : LeaseOptions) {c : CPtr} {req : Request} (hreq : R.Charged c req) (h : HPtr)
    (now left : ℤ) (d : Decision) :
    (protocol R).Moves (fun g => h ∈ g.taken) (admitted o c req h now left d) fun d' g => Ticketed g d' := by
  intro g ht
  simp only [admitted, Logic.wp_bind, wp_add, wp_load, Logic.wp_pure]
  intro _ _
  refine (moves_renewIfLow o hreq h now left).wp trivial fun _ g₁ h₁ _ => ?_
  refine (moves_resetTime c req now).wp trivial fun _ g₂ h₂ _ => ?_
  refine fun remaining => ⟨h₁.trans h₂, fun x hx => ?_⟩
  cases hx
  exact h₂.taken (h₁.taken ht)

/-- What `Allow` ends with. -/
def Answered (g : Know) : Except LimitErr Decision → Prop
  | .error _ => True
  | .ok d => Ticketed g d

theorem ticketed_of_none {g : Know} {d : Decision} (h : d.adj = none) : Ticketed g d := by
  intro x hx
  rw [h] at hx
  cases hx

theorem moves_allowOn (o : LeaseOptions) (fuel : ℕ) {c : CPtr} {req : Request} (hreq : R.Charged c req)
    (hcost : 0 < req.cost) {now : ℤ} (hr : R.reading now) :
    (protocol R).Moves (fun g => now ≤ g.lo) (allowOn o fuel c req now) fun res g => Answered g res := by
  intro g hnow
  simp only [allowOn, Logic.wp_bind, wp_store, wp_loadCur]
  refine (moves_reset fuel c req now).wp trivial fun _ g₁ h₁ _ => ?_
  refine (moves_resetTime c req now).wp trivial fun resetAt g₂ h₂ _ => ?_
  refine (moves_waiting c now).wp trivial fun wait g₃ h₃ _ => ?_
  intro h _
  have h₄ := ((h₁.trans h₂).trans h₃).trans (Know.le_seen g₃ h)
  refine (moves_overLimit req h).wp trivial fun full g₅ h₅ _ => ?_
  simp only [Logic.wp_ite, Logic.wp_pure, Logic.wp_bind]
  split
  · exact ⟨h₄.trans h₅, ticketed_of_none rfl⟩
  have hseen : h ∈ g₅.seen := h₅.seen List.mem_cons_self
  refine (moves_take fuel h hcost hr).wp ⟨hseen, hnow.trans (h₄.trans h₅).lo⟩ fun left g₆ h₆ ht => ?_
  refine (moves_refill fuel hreq hcost _ h left).wp ht fun res g₇ h₇ hres => ?_
  have h₈ := ((h₄.trans h₅).trans h₆).trans h₇
  cases res with
  | error e => exact ⟨h₈, trivial⟩
  | ok hl =>
    obtain ⟨h', left'⟩ := hl
    simp only [Logic.wp_ite, Logic.wp_bind, Logic.wp_pure]
    split
    · refine (moves_denied c req now _ rfl).wp trivial fun d g₉ h₉ hd => ?_
      exact ⟨h₈.trans h₉, ticketed_of_none hd⟩
    · rename_i hleft
      refine (moves_admitted o hreq h' now left' _).wp (hres (not_lt.mp hleft)) fun d g₉ h₉ hd => ?_
      exact ⟨h₈.trans h₉, hd⟩

theorem moves_counter (o : LeaseOptions) (edge : ℕ) {req : Request} (hreq : R.fits req) :
    (protocol R).Moves (fun _ => True) (counter o edge req) fun c _ => R.Charged c req := by
  intro g _
  simp only [counter, Logic.wp_bind, wp_getCounter]
  refine ⟨hreq, fun c _ hk => ?_⟩
  split
  · simp only [Logic.wp_bind, wp_store, Logic.wp_pure]
    exact ⟨le_rfl, hreq, hk⟩
  · exact ⟨le_rfl, hreq, hk⟩

theorem moves_allow (o : LeaseOptions) (edge fuel : ℕ) {req : Request} (hreq : R.fits req) :
    (protocol R).Moves (fun _ => True) (allow o edge fuel req) fun res g => Answered g res := by
  intro g _
  simp only [allow, Logic.wp_bind, wp_clock]
  intro now hnow
  have h₁ := Know.le_lo g now
  refine (moves_counter o edge (R.fits_cost req _ hreq)).wp trivial fun c g₂ h₂ hc => ?_
  have hcost : 0 < max req.cost 1 := lt_of_lt_of_le one_pos (le_max_right _ _)
  refine (moves_allowOn o fuel hc hcost hnow).wp ((le_max_right _ _).trans h₂.lo) fun res g₃ h₃ hr => ?_
  exact ⟨(h₁.trans h₂).trans h₃, hr⟩

/-- The returns collected so far are a selection from the bag. -/
def Collected (R : Regime) (bag : List (HPtr × ℤ)) (acc : List LeaseReturn) : Prop :=
  ∃ l : List (HPtr × ℤ), l.Sublist bag ∧ acc = l.map (fun x => leaseReturn x.1 x.2) ∧
    ∀ x ∈ l, R.fits x.1.c.req

theorem Collected.skip {bag : List (HPtr × ℤ)} {acc : List LeaseReturn} (h : Collected R bag acc)
    (x : HPtr × ℤ) : Collected R (bag ++ [x]) acc := by
  obtain ⟨l, hl, ha, hf⟩ := h
  exact ⟨l, hl.trans (List.sublist_append_left _ _), ha, hf⟩

theorem Collected.take {bag : List (HPtr × ℤ)} {acc : List LeaseReturn} (h : Collected R bag acc)
    {x : HPtr × ℤ} (hx : R.fits x.1.c.req) :
    Collected R (bag ++ [x]) (acc ++ [leaseReturn x.1 x.2]) := by
  obtain ⟨l, hl, rfl, hf⟩ := h
  refine ⟨l ++ [x], hl.append (List.Sublist.refl _), by simp, fun y hy => ?_⟩
  rcases List.mem_append.mp hy with hy | hy
  · exact hf y hy
  · rw [List.mem_singleton.mp hy]
    exact hx

theorem wp_collect (now : ℤ) (cs : List CPtr) (hcs : ∀ c ∈ cs, R.fits c.req) (acc : List LeaseReturn)
    {g : Know} (hacc : Collected R g.bag acc) :
    (protocol R).wp (collect now cs acc) (fun acc' g' => Collected R g'.bag acc') g := by
  induction cs generalizing acc g with
  | nil => exact hacc
  | cons c cs ih =>
    simp only [collect, Logic.wp_bind, wp_loadCur, wp_swapTokens, wp_loadExpiry, Logic.wp_ite]
    intro h hc n _ exp _
    have hcs' : ∀ c ∈ cs, R.fits c.req := fun c' hc' => hcs c' (List.mem_cons_of_mem _ hc')
    have hfit : R.fits h.c.req := hc ▸ hcs c List.mem_cons_self
    split
    · rw [if_pos rfl]
      exact ih hcs' _ (hacc.skip (h, n))
    · split
      · exact ih hcs' _ (hacc.skip (h, n))
      · exact ih hcs' _ (hacc.take hfit)

theorem wp_deliver (msg n : ℕ) {g : Know} : (protocol R).wp (deliver msg n) (fun _ _ => True) g := by
  induction n with
  | zero => trivial
  | succ n ih =>
    simp only [deliver, Logic.wp_bind, wp_attempt, Logic.wp_ite, Logic.wp_pure]
    intro b
    split
    · trivial
    · exact ih

theorem wp_giveBack (o : LeaseOptions) (bootID : String) (edge : ℕ) (cs : List CPtr)
    (hcs : ∀ c ∈ cs, R.fits c.req) {g : Know} :
    (protocol R).wp (giveBack o bootID edge cs) (fun _ _ => True) g := by
  simp only [giveBack, Logic.wp_ite, Logic.wp_pure, Logic.wp_bind, wp_clock]
  split
  · trivial
  intro now _
  refine (protocol R).wp_mono ?_ (wp_collect now cs hcs [] ⟨[], ?_, rfl, by simp⟩)
  · intro acc g' hacc
    split
    · trivial
    · simp only [wp_add, wp_post]
      refine fun seq => ⟨⟨?_, hacc⟩, fun msg => wp_deliver msg 3⟩
      intro he
      have := congrArg String.length he
      simp at this
  · exact List.nil_sublist _

theorem moves_idle (cutoff : ℤ) (cs acc : List CPtr) (hcs : ∀ c ∈ cs, R.fits c.req)
    (hacc : ∀ c ∈ acc, R.fits c.req) :
    (protocol R).Moves (fun _ => True) (idle cutoff cs acc) fun gone _ => ∀ c ∈ gone, R.fits c.req := by
  induction cs generalizing acc with
  | nil => exact fun g _ => ⟨le_rfl, hacc⟩
  | cons c cs ih =>
    intro g _
    have hcs' : ∀ c ∈ cs, R.fits c.req := fun c' hc' => hcs c' (List.mem_cons_of_mem _ hc')
    simp only [idle, Logic.wp_bind, wp_load, Logic.wp_ite, wp_deleteCounter]
    intro seen
    split
    · exact ih acc hcs' hacc g trivial
    intro renewing
    split
    · exact ih acc hcs' hacc g trivial
    · refine ih _ hcs' (fun c' hc' => ?_) g trivial
      rcases List.mem_append.mp hc' with hc' | hc'
      · exact hacc c' hc'
      · rw [List.mem_singleton.mp hc']
        exact hcs c List.mem_cons_self

theorem wp_sweep (o : LeaseOptions) (bootID : String) (edge : ℕ) (cutoff : ℤ) {g : Know} :
    (protocol R).wp (sweep o bootID edge cutoff) (fun _ _ => True) g := by
  simp only [sweep, Logic.wp_bind, wp_rangeCounters]
  intro cs hcs
  refine (moves_idle cutoff cs [] hcs (by simp)).wp trivial fun gone g' _ hgone => ?_
  exact wp_giveBack o bootID edge gone hgone

theorem wp_drain (o : LeaseOptions) (bootID : String) (edge : ℕ) {g : Know} :
    (protocol R).wp (drain o bootID edge) (fun _ _ => True) g := by
  simp only [drain, Logic.wp_bind, wp_rangeCounters]
  exact fun cs hcs => wp_giveBack o bootID edge cs hcs

end Lease

/-! The local limiter touches no lease. -/

namespace Local

theorem moves_roll (w : WPtr) (period now : ℤ) :
    (protocol R).Moves (fun _ => True) (roll w period now) fun _ _ => True := by
  intro g _
  simp only [roll, Logic.wp_bind, wp_store, Logic.wp_ite, Logic.wp_pure, wp_load, wp_cas]
  split
  · exact ⟨le_rfl, trivial⟩
  intro prev
  split
  · exact ⟨le_rfl, trivial⟩
  · intro b
    split <;> exact ⟨le_rfl, trivial⟩

theorem moves_allow (edge : ℕ) (req : Request) :
    (protocol R).Moves (fun _ => True) (allow edge req) fun d _ => ∀ h, d.adj ≠ some (.held h) := by
  intro g _
  simp only [allow, Logic.wp_bind, wp_getWindow, wp_clock]
  intro w now _
  refine (moves_roll w req.window now).wp trivial fun stop g₁ h₁ _ => ?_
  have h₂ := (Know.le_lo g now).trans h₁
  simp only [wp_add, Logic.wp_ite, Logic.wp_bind, wp_load, Logic.wp_pure]
  intro used
  split
  · exact fun _ _ => ⟨h₂, fun h => by simp [Decision.zero]⟩
  · exact fun gen => ⟨h₂, fun h => by simp⟩

theorem moves_adjust (w : WPtr) (gen delta : ℤ) :
    (protocol R).Moves (fun _ => True) (adjust w gen delta) fun _ _ => True := by
  intro g _
  simp only [adjust, Logic.wp_bind, wp_load, Logic.wp_ite, wp_add, Logic.wp_pure]
  intro id
  split
  · exact fun _ => ⟨le_rfl, trivial⟩
  · exact ⟨le_rfl, trivial⟩

theorem wp_evict (cutoff : ℤ) (ws : List WPtr) {g : Know} :
    (protocol R).wp (evict cutoff ws) (fun _ _ => True) g := by
  induction ws with
  | nil => trivial
  | cons w ws ih =>
    simp only [evict, Logic.wp_bind, wp_load, Logic.wp_ite, wp_deleteWindow, ih, ite_self, implies_true]

theorem wp_sweep (edge : ℕ) (cutoff : ℤ) {g : Know} :
    (protocol R).wp (sweep edge cutoff) (fun _ _ => True) g := by
  simp only [sweep, Logic.wp_bind, wp_rangeWindows]
  exact fun ws => wp_evict cutoff ws

end Local

/-! Reservations. -/

open Lease (Ticketed Answered ticketed_of_none)

theorem moves_fallbackAllow (o : LeaseOptions) (edge fuel : ℕ) (rule : Request → Option Request)
    {req : Request} (hreq : R.fits req) :
    (protocol R).Moves (fun _ => True) (fallbackAllow o edge fuel rule req) fun res g => Answered g res := by
  intro g _
  simp only [fallbackAllow, Logic.wp_bind]
  refine (Lease.moves_allow o edge fuel hreq).wp trivial fun res g₁ h₁ hr => ?_
  rcases res with (_ | _ | _) | d
  · cases rule req with
    | none => exact ⟨h₁, trivial⟩
    | some sreq =>
      simp only [Logic.wp_bind, Logic.wp_pure]
      refine (Local.moves_allow edge sreq).wp trivial fun d g₂ h₂ hd => ?_
      exact ⟨h₁.trans h₂, fun h hx => absurd hx (hd h)⟩
  · exact ⟨h₁, trivial⟩
  · exact ⟨h₁, trivial⟩
  · exact ⟨h₁, hr⟩

theorem moves_adjust (fuel : ℕ) (d : Decision) {delta : ℤ} (hc : delta ≠ 0 → R.charge delta) :
    (protocol R).Moves (fun g => Ticketed g d) (d.adjust fuel delta) fun _ _ => True := by
  intro g hd
  unfold Decision.adjust
  split
  · exact ⟨le_rfl, trivial⟩
  rename_i h0
  split
  · exact ⟨le_rfl, trivial⟩
  · rename_i h hx
    exact Lease.moves_adjust fuel h d.maxDebt (hc h0) h0 g (hd h hx)
  · exact Local.moves_adjust _ _ _ g trivial

/-- Refunding the charges made keeps every decision's ticket. -/
theorem moves_rollback (hr : ∀ d < 0, R.charge d) (fuel : ℕ) (ds : List Decision) (cs : List ℤ)
    (hcs : ∀ c ∈ cs, 0 < c) :
    (protocol R).Moves (fun g => ∀ d ∈ ds, Ticketed g d) (rollback fuel ds cs)
      fun ds' g => ∀ d ∈ ds', Ticketed g d := by
  induction ds generalizing cs with
  | nil => exact fun g h => ⟨le_rfl, h⟩
  | cons d ds ih =>
    cases cs with
    | nil => exact fun g h => ⟨le_rfl, h⟩
    | cons c cs =>
      intro g hds
      have hc : R.charge (-c) := hr _ (neg_lt_zero.mpr (hcs c List.mem_cons_self))
      have hcs' : ∀ c ∈ cs, 0 < c := fun x hx => hcs x (List.mem_cons_of_mem _ hx)
      have hd := hds d List.mem_cons_self
      have hds' : ∀ d ∈ ds, Ticketed g d := fun x hx => hds x (List.mem_cons_of_mem _ hx)
      simp only [rollback, Logic.wp_ite, Logic.wp_bind, Logic.wp_pure]
      split
      · refine (moves_adjust fuel d fun _ => hc).wp hd fun _ g₁ h₁ _ => ?_
        refine (ih cs hcs').wp (fun x hx => (hds' x hx).mono h₁) fun ds' g₂ h₂ hds₂ => ?_
        refine ⟨h₁.trans h₂, List.forall_mem_cons.mpr ⟨?_, hds₂⟩⟩
        exact hd.mono (h₁.trans h₂)
      · refine (ih cs hcs').wp hds' fun ds' g₂ h₂ hds₂ => ?_
        exact ⟨h₂, List.forall_mem_cons.mpr ⟨hd.mono h₂, hds₂⟩⟩

/-- Every decision of a reservation has its ticket, and every cost is positive. -/
structure Reserved (g : Know) (r : Reservation) : Prop where
  tickets : ∀ d ∈ r.results, Ticketed g d
  costs : ∀ c ∈ r.costs, 0 < c

theorem ticketed_zero (g : Know) : Ticketed g Decision.zero := ticketed_of_none rfl

theorem forall_mem_set {A : Type} {P : A → Prop} {l : List A} (h : ∀ x ∈ l, P x) (t : ℕ) {a : A} (ha : P a) :
    ∀ x ∈ l.set t a, P x := by
  intro x hx
  rcases List.mem_or_eq_of_mem_set hx with hx | rfl
  · exact h x hx
  · exact ha

theorem forall_mem_snoc {A : Type} {P : A → Prop} {l : List A} {a : A} (hl : ∀ x ∈ l, P x) (ha : P a) :
    ∀ x ∈ l ++ [a], P x := by
  intro x hx
  rcases List.mem_append.mp hx with hx | hx
  · exact hl x hx
  · rw [List.mem_singleton.mp hx]
    exact ha

theorem tickets_pad {g : Know} {r : Reservation} (checks : List Request)
    (h : ∀ d ∈ r.results, Ticketed g d) : ∀ d ∈ (r.pad checks).results, Ticketed g d := by
  intro d hd
  rcases List.mem_append.mp hd with hd | hd
  · exact h d hd
  · rw [List.eq_of_mem_replicate hd]
    exact ticketed_zero g

theorem moves_reserveFrom (hrefund : ∀ d < 0, R.charge d)
    {allow : Request → Proc (Except LimitErr Decision)} (fuel : ℕ) (checks rest : List Request)
    (hallow : ∀ req ∈ rest, (protocol R).Moves (fun _ => True) (allow req) fun res g => Answered g res)
    (r : Reservation) :
    (protocol R).Moves (fun g => Reserved g r) (reserveFrom allow fuel checks rest r)
      fun out g => ∀ d ∈ out.1.results, Ticketed g d := by
  induction rest generalizing r with
  | nil => exact fun g hr => ⟨le_rfl, hr.tickets⟩
  | cons req rest ih =>
    intro g hr
    have ih' := ih fun x hx => hallow x (List.mem_cons_of_mem _ hx)
    have hcost : 0 < max req.cost 1 := lt_of_lt_of_le one_pos (le_max_right _ _)
    simp only [reserveFrom, Logic.wp_bind]
    refine (hallow req List.mem_cons_self).wp trivial fun res g₁ h₁ hres => ?_
    have ht : ∀ d ∈ r.results, Ticketed g₁ d := fun d hd => (hr.tickets d hd).mono h₁
    cases res with
    | error e =>
      simp only [Logic.wp_ite, Logic.wp_bind, Logic.wp_pure]
      split
      · refine (ih' _).wp ⟨forall_mem_snoc ht (ticketed_zero g₁), forall_mem_snoc hr.costs hcost⟩ ?_
        exact fun out g₂ h₂ ho => ⟨h₁.trans h₂, ho⟩
      · refine (moves_rollback hrefund fuel r.results r.costs hr.costs).wp ht fun ds g₂ h₂ hds => ?_
        exact ⟨h₁.trans h₂, tickets_pad checks hds⟩
    | ok d =>
      have ht' : ∀ x ∈ r.results ++ [d], Ticketed g₁ x := forall_mem_snoc ht hres
      have hc' : ∀ c ∈ r.costs ++ [max req.cost 1], 0 < c := forall_mem_snoc hr.costs hcost
      simp only [Logic.wp_ite, Logic.wp_bind, Logic.wp_pure]
      split
      · exact (ih' _).wp ⟨ht', hc'⟩ fun out g₂ h₂ ho => ⟨h₁.trans h₂, ho⟩
      split
      · exact (ih' _).wp ⟨ht', hc'⟩ fun out g₂ h₂ ho => ⟨h₁.trans h₂, ho⟩
      · refine (moves_rollback hrefund fuel r.results r.costs hr.costs).wp ht fun ds g₂ h₂ hds => ?_
        have hres' : Ticketed g₁ d := hres
        exact ⟨h₁.trans h₂, tickets_pad checks (forall_mem_snoc hds (hres'.mono h₂))⟩

theorem moves_settle (fuel : ℕ) (actual : ℤ) (ds : List Decision) (cs : List ℤ)
    (hcs : ∀ c ∈ cs, max actual 0 - c ≠ 0 → R.charge (max actual 0 - c)) :
    (protocol R).Moves (fun g => ∀ d ∈ ds, Ticketed g d) (settle fuel actual ds cs) fun _ _ => True := by
  induction ds generalizing cs with
  | nil => exact fun g _ => ⟨le_rfl, trivial⟩
  | cons d ds ih =>
    cases cs with
    | nil => exact fun g _ => ⟨le_rfl, trivial⟩
    | cons c cs =>
      intro g hds
      have ih' := ih cs fun x hx => hcs x (List.mem_cons_of_mem _ hx)
      have hds' : ∀ d ∈ ds, Ticketed g d := fun x hx => hds x (List.mem_cons_of_mem _ hx)
      simp only [settle, Logic.wp_ite, Logic.wp_bind]
      split
      · refine (moves_adjust fuel d (hcs c List.mem_cons_self)).wp (hds d List.mem_cons_self) ?_
        intro _ g₁ h₁ _
        refine ih'.wp (fun x hx => (hds' x hx).mono h₁) ?_
        exact fun _ g₂ h₂ _ => ⟨h₁.trans h₂, trivial⟩
      · exact ih' g hds'

/-! The goroutines that outside calls start. -/

theorem wp_allowThread (dep : Deployment) (edge fuel : ℕ) {req : Request} (hreq : R.fits req) {g : Know} :
    (protocol R).wp (allowThread dep edge fuel req) (fun _ _ => True) g := by
  simp only [allowThread, Logic.wp_bind, wp_answered]
  exact (Lease.moves_allow _ edge fuel hreq).wp trivial fun _ _ _ _ => trivial

theorem wp_reserveThread (dep : Deployment) (edge fuel : ℕ) {checks : List Request}
    (hrefund : ∀ d < 0, R.charge d) (hreq : ∀ req ∈ checks, R.fits req) {g : Know} :
    (protocol R).wp (reserveThread dep edge fuel checks) (fun _ _ => True) g := by
  simp only [reserveThread, reserve, Logic.wp_bind, wp_reserved, and_true]
  refine (moves_reserveFrom hrefund fuel checks checks (fun req hr => ?_) Reservation.start).wp
    ⟨by simp [Reservation.start], by simp [Reservation.start]⟩ fun out g' _ ho => ho
  exact moves_fallbackAllow _ edge fuel dep.rule (hreq req hr)

end Gate
