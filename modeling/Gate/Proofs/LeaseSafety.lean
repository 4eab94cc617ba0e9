import Gate.Lib.Accounts
import Gate.Sanity.Quota
import Gate.Proofs.LeaseSteps

/-! Safety of the lease protocol for a windowed quota. For each window, the ledger's counter
covers what was admitted from the window, net of refunds, and every token of the window
that is still somewhere: in a balance, in a goroutine's hands, in a reply or in a return
not yet credited. The counter never passes the limit. -/

namespace Gate

open Conc Accounts

/-- Requests share the quota or are apart from it, nobody is in debt, and adjustments refund. -/
def safeRegime (dep : Deployment) (q : Quota) : Regime where
  fits := Request.Fits dep q
  balance b := 0 ≤ b
  expiry _ _ := True
  reading _ := True
  charge d := d < 0
  fits_identity _ h := h
  fits_cost _ _ h := h

section

variable (q : Quota) (win : ℤ)

/-- The tokens of the window in a goroutine's answer. -/
def Phase.tokens : Phase → ℤ
  | .answered r resp _ => q.granted win r resp
  | .armed h _ _ resp => if q.Label win h then resp.grantedTokens else 0
  | _ => 0

def bagTokens (bag : List (HPtr × ℤ)) : ℤ := (bag.map fun x => if q.Label win x.1 then x.2 else 0).sum

def Know.tokens (g : Know) : ℤ := g.phase.tokens q win + bagTokens q win g.bag

/-- A goroutine has no negative amounts in hand, and can rely on its answer. -/
structure Know.Solid (g : Know) : Prop where
  bag : ∀ x ∈ g.bag, 0 ≤ x.2
  answered : ∀ r resp lo, g.phase = .answered r resp lo → q.Sound r resp
  armed : ∀ h exp r resp, g.phase = .armed h exp r resp → 0 ≤ resp.grantedTokens

/-- The goroutines' hands together hold at most `n` tokens of the window. -/
structure Shares (gs : List Know) (n : ℤ) : Prop where
  solid : ∀ g ∈ gs, g.Solid q
  sum : (gs.map (Know.tokens q win)).sum ≤ n

/-- What is not in a balance. -/
def World.elsewhere (dep : Deployment) (w : World) : ℤ :=
  q.netAdmitted win w.log + q.inHands win w.log + q.inReplies win w.replies +
    q.inReturns win dep w.ledger w.posts

/-- The books of one window. -/
structure Books (dep : Deployment) (w : World) (gs : List Know) : Prop where
  nonneg : ∀ h, 0 ≤ w.tokens h
  shares : Shares q win gs (q.inHands win w.log)
  replies : ∀ r ∈ w.replies, ∀ resp, r.body = .ok resp → q.Sound r.req resp
  posts : ∀ p ∈ w.posts, ∀ x ∈ p.body.returns, 0 ≤ x.tokens
  book : Within (q.Label win) w.tokens (w.elsewhere q win dep) (w.ledger.used q.key win)
  used : ∀ v, 0 ≤ w.ledger.used q.key v ∧ w.ledger.used q.key v ≤ q.spec.limit

end

section

variable {dep : Deployment} {q : Quota} {win : ℤ}

/-! Hands. -/

theorem Shares.set {gs : List Know} {n n' : ℤ} {t : ℕ} {g g' : Know} (h : Shares q win gs n)
    (hg : gs[t]? = some g) (hs : g'.Solid q) (ht : g'.tokens q win - g.tokens q win ≤ n' - n) :
    Shares q win (gs.set t g') n' := by
  refine ⟨forall_mem_set h.solid t hs, ?_⟩
  rw [Accounts.sum_map_set _ hg]
  linarith [h.sum]

/-- What a goroutine learns does not change what it has. -/
theorem Shares.learn {gs : List Know} {n : ℤ} {t : ℕ} {g g' : Know} (h : Shares q win gs n)
    (hg : gs[t]? = some g) (hp : g'.phase = g.phase) (hb : g'.bag = g.bag) : Shares q win (gs.set t g') n := by
  have hs := h.solid g (List.mem_of_getElem? hg)
  refine h.set hg ⟨hb ▸ hs.bag, hp ▸ hs.answered, hp ▸ hs.armed⟩ ?_
  simp [Know.tokens, hp, hb]

theorem Shares.spawn {gs : List Know} {n : ℤ} (h : Shares q win gs n) (taken : List HPtr)
    (slot : Option Flight) : Shares q win (gs ++ [⟨0, .idle, [], [], taken, slot⟩]) n := by
  refine ⟨forall_mem_snoc h.solid ⟨by simp, fun _ _ _ h => (by cases h), fun _ _ _ _ h => (by cases h)⟩, ?_⟩
  simpa [Know.tokens, Phase.tokens, bagTokens] using h.sum

theorem Know.Solid.phase_nonneg {g : Know} (h : g.Solid q) : 0 ≤ g.phase.tokens q win := by
  unfold Phase.tokens
  split
  · rename_i r resp lo hp
    unfold Quota.granted
    split
    · exact (h.answered r resp lo hp).1
    · exact le_rfl
  · rename_i x exp r resp hp
    split
    · exact h.armed x exp r resp hp
    · exact le_rfl
  · exact le_rfl

theorem Know.Solid.tokens_nonneg {g : Know} (h : g.Solid q) : 0 ≤ g.tokens q win := by
  refine add_nonneg h.phase_nonneg (List.sum_nonneg fun y hy => ?_)
  obtain ⟨x, hx, rfl⟩ := List.mem_map.mp hy
  split
  · exact h.bag x hx
  · exact le_rfl

/-- A goroutine gives up its answer. -/
theorem Shares.drop {gs : List Know} {n : ℤ} {t : ℕ} {g : Know} {slot : Option Flight} (h : Shares q win gs n)
    (hg : gs[t]? = some g) : Shares q win (gs.set t { g with phase := .idle, slot := slot }) n := by
  have hs := h.solid g (List.mem_of_getElem? hg)
  refine h.set hg ⟨hs.bag, fun _ _ _ h => (by cases h), fun _ _ _ _ h => (by cases h)⟩ ?_
  have hp : 0 ≤ g.phase.tokens q win := hs.phase_nonneg
  have h0 : Phase.tokens q win .idle = 0 := rfl
  simp only [Know.tokens, h0]
  linarith

theorem Shares.nonneg {gs : List Know} {n : ℤ} (h : Shares q win gs n) : 0 ≤ n := by
  refine le_trans (List.sum_nonneg fun y hy => ?_) h.sum
  obtain ⟨g, hg, rfl⟩ := List.mem_map.mp hy
  exact (h.solid g hg).tokens_nonneg

/-! The record. -/

section Record

variable (w : World) (e : Event) (h : HPtr) (v : ℤ)

theorem netAdmitted_cons (log : List Event) :
    q.netAdmitted win (e :: log) = q.net win e + q.netAdmitted win log := by
  simp [Quota.netAdmitted]

theorem inHands_cons (log : List Event) : q.inHands win (e :: log) = q.hand win e + q.inHands win log := by
  simp [Quota.inHands]

theorem elsewhere_record :
    (w.record e).elsewhere q win dep = q.net win e + q.hand win e + w.elsewhere q win dep := by
  simp only [World.elsewhere, World.record, netAdmitted_cons, inHands_cons]
  ring

theorem elsewhere_setTokens : (w.setTokens h v).elsewhere q win dep = w.elsewhere q win dep := rfl

end Record

theorem Books.same {w w' : World} {gs : List Know} (hs : w.Same w') (hi : Books q win dep w gs) :
    Books q win dep w' gs := by
  have hel : w'.elsewhere q win dep = w.elsewhere q win dep := by
    simp only [World.elsewhere, hs.log, hs.replies, hs.posts, hs.ledger]
  exact ⟨hs.tokens ▸ hi.nonneg, hs.log ▸ hi.shares, hs.replies ▸ hi.replies, hs.posts ▸ hi.posts,
    by rw [hel, hs.tokens, hs.ledger]; exact hi.book, hs.ledger ▸ hi.used⟩

/-- A balance changes, with the change on record or the tokens gone. -/
theorem Books.move {w : World} {gs gs' : List Know} (hi : Books q win dep w gs) (h : HPtr) {v : ℤ} (e : Event)
    (hv : 0 ≤ v) (hs : Shares q win gs' (q.hand win e + q.inHands win w.log))
    (hin : q.Label win h → q.net win e + q.hand win e + v ≤ w.tokens h)
    (hout : ¬q.Label win h → q.net win e + q.hand win e ≤ 0) :
    Books q win dep ((w.setTokens h v).record e) gs' := by
  refine ⟨fun x => ?_, ?_, hi.replies, hi.posts, ?_, hi.used⟩
  · by_cases hx : x = h
    · subst hx
      simpa [World.setTokens, World.record] using hv
    · simpa [World.setTokens, World.record, hx] using hi.nonneg x
  · rw [← inHands_cons] at hs
    exact hs
  · rw [elsewhere_record, elsewhere_setTokens]
    change Within (q.Label win) (Function.update w.tokens h v) _ (w.ledger.used q.key win)
    by_cases hl : q.Label win h
    · exact hi.book.update hl hv (by linarith [hin hl])
    · exact (hi.book.update_not hl v).mono (by linarith [hout hl])

/-- A balance is given up. -/
theorem Books.drop {w : World} {gs : List Know} (hi : Books q win dep w gs) (h : HPtr) :
    Books q win dep (w.setTokens h 0) gs := by
  refine ⟨fun x => ?_, hi.shares, hi.replies, hi.posts, ?_, hi.used⟩
  · by_cases hx : x = h
    · subst hx
      simp [World.setTokens]
    · simpa [World.setTokens, hx] using hi.nonneg x
  · rw [elsewhere_setTokens]
    by_cases hl : q.Label win h
    · exact hi.book.update hl le_rfl (by linarith [hi.nonneg h])
    · exact hi.book.update_not hl 0

/-! The network. -/

theorem inReplies_snoc (l : List Reply) (r : Reply) :
    q.inReplies win (l ++ [r]) = q.inReplies win l + q.grantedIn win r.req r.body := by
  simp [Quota.inReplies]

theorem inReplies_erase (q : Quota) (win : ℤ) {l : List Reply} {i : ℕ} {r : Reply} (h : l[i]? = some r) :
    q.inReplies win (l.eraseIdx i) = q.inReplies win l - q.grantedIn win r.req r.body := by
  exact Accounts.sum_map_eraseIdx (fun r => q.grantedIn win r.req r.body) h

theorem returnedIn_nonneg {r : ReturnLeasesRequest} (h : ∀ x ∈ r.returns, 0 ≤ x.tokens) :
    0 ≤ q.returnedIn win r := by
  refine List.sum_nonneg fun y hy => ?_
  obtain ⟨x, hx, rfl⟩ := List.mem_map.mp hy
  unfold Quota.returned
  split
  · exact h x hx
  · exact le_rfl

theorem returned_le_returnedIn {r : ReturnLeasesRequest} (h : ∀ x ∈ r.returns, 0 ≤ x.tokens)
    {x : LeaseReturn} (hx : x ∈ r.returns) : q.returned win x ≤ q.returnedIn win r := by
  refine List.single_le_sum (fun y hy => ?_) _ (List.mem_map_of_mem hx)
  obtain ⟨z, hz, rfl⟩ := List.mem_map.mp hy
  unfold Quota.returned
  split
  · exact h z hz
  · exact le_rfl

theorem leaseReturn_stateKey (h : HPtr) (n : ℤ) : (Lease.leaseReturn h n).stateKey = h.c.key := rfl

/-- What is posted came out of the bag. -/
theorem returnedIn_le_bag {r : ReturnLeasesRequest} {l bag : List (HPtr × ℤ)} (hl : l.Sublist bag)
    (hr : r.returns = l.map fun x => Lease.leaseReturn x.1 x.2) (hb : ∀ x ∈ bag, 0 ≤ x.2) :
    q.returnedIn win r ≤ bagTokens q win bag := by
  have he : q.returnedIn win r = bagTokens q win l := by
    unfold Quota.returnedIn bagTokens
    rw [hr, List.map_map]
    rfl
  rw [he]
  refine List.Sublist.sum_le_sum (hl.map _) fun y hy => ?_
  obtain ⟨x, hx, rfl⟩ := List.mem_map.mp hy
  split
  · exact hb x hx
  · exact le_rfl

/-- Lowering one term of a sum and raising none lowers the sum by as much. -/
theorem sum_map_lower {A : Type} {f f' : A → ℤ} {l : List A} {p : A} {d : ℤ} (hp : p ∈ l)
    (hle : ∀ x ∈ l, f' x ≤ f x) (hd : f' p + d ≤ f p) : (l.map f').sum + d ≤ (l.map f).sum := by
  induction l with
  | nil => cases hp
  | cons a l ih =>
    have ha := hle a List.mem_cons_self
    have hl : ∀ x ∈ l, f' x ≤ f x := fun x hx => hle x (List.mem_cons_of_mem _ hx)
    simp only [List.map_cons, List.sum_cons]
    rcases List.mem_cons.mp hp with rfl | hp
    · have := List.sum_le_sum hl
      linarith
    · linarith [ih hp hl]

theorem returnDedupe_ne_empty (cn : String) {r : ReturnLeasesRequest} (h : r.dedupe ≠ "") :
    returnDedupe cn r ≠ "" := by
  rw [returnDedupe, if_neg h]
  intro he
  have := congrArg String.length he
  simp at this

/-- A return the ledger has seen stays seen. -/
theorem inReturn_le {m m' : Mem} (hd : ∀ k, m.deduped k = true → m'.deduped k = true) {p : Post}
    (hp : ∀ x ∈ p.body.returns, 0 ≤ x.tokens) : q.inReturn win dep m' p ≤ q.inReturn win dep m p := by
  unfold Quota.inReturn
  split
  · split
    · exact le_rfl
    · exact returnedIn_nonneg hp
  · rename_i h'
    rw [if_neg fun h => h' (hd _ h)]

/-- Crediting a return takes it off the network. -/
theorem inReturns_credit {m m' : Mem} {posts : List Post} {p : Post} (hp : p ∈ posts)
    (hpos : ∀ p ∈ posts, ∀ x ∈ p.body.returns, 0 ≤ x.tokens)
    (hmade : ∀ x ∈ p.body.returns,
      q.Fits x.stateKey (resolve dep.env dep.cfg x.scope x.serviceId x.apiKey x.limitId x.tierId x.org))
    (hc : q.Credited m (returnDedupe (dep.cn p.edge) p.body)
      (p.body.returns.filterMap (resolveReturn dep.env dep.cfg)) m') :
    q.inReturns win dep m' posts - m'.used q.key win ≤ q.inReturns win dep m posts - m.used q.key win := by
  have hle : ∀ x ∈ posts, q.inReturn win dep m' x ≤ q.inReturn win dep m x :=
    fun x hx => inReturn_le hc.deduped (hpos x hx)
  unfold Quota.inReturns
  rcases hc.credit with hsame | ⟨h₁, h₂, r, hr, hm, hcr⟩
  · rw [hsame win]
    linarith [List.sum_le_sum hle]
  · obtain ⟨x, hx, hres⟩ := List.mem_filterMap.mp hr
    have hx' : (if win = r.windowID then r.tokens else 0) ≤ q.returnedIn win p.body := by
      rcases resolveReturn_mine_or_other hres (hpos p hp x hx) (hmade x hx) with ⟨-, hk, hwid, htok⟩ | ho
      · refine le_trans (le_of_eq ?_) (returned_le_returnedIn (hpos p hp) hx)
        simp [Quota.returned, hk, hwid, htok, eq_comm]
      · exact absurd (by rw [hm.1, hm.2.1]; rfl) ho.1
    have hlow := sum_map_lower hp hle (d := if win = r.windowID then r.tokens else 0)
      (by simpa [Quota.inReturn, h₁, h₂] using hx')
    linarith [hcr win]

theorem Books.credit (hw : q.Windowed) {w : World} {gs : List Know} (hb : Base (safeRegime dep q) w)
    (hi : Books q win dep w gs) {p : Post} (hp : p ∈ w.posts) (now : ℤ) :
    Books q win dep
      { w with ledger := (returnLeases dep.env dep.cfg (dep.cn p.edge) w.ledger now p.body).2 } gs := by
  obtain ⟨hd, hret⟩ := hb.posts p hp
  have hmade : ∀ x ∈ p.body.returns,
      q.Fits x.stateKey (resolve dep.env dep.cfg x.scope x.serviceId x.apiKey x.limitId x.tierId x.org) := by
    intro x hx
    obtain ⟨h, n, hf, rfl⟩ := hret x hx
    exact hf
  have hc : q.Credited w.ledger (returnDedupe (dep.cn p.edge) p.body)
      (p.body.returns.filterMap (resolveReturn dep.env dep.cfg))
      (returnLeases dep.env dep.cfg (dep.cn p.edge) w.ledger now p.body).2 := by
    refine ret_credited hw (returnDedupe_ne_empty _ hd) now _ (fun r hr => ?_) _ fun v => (hi.used v).1
    obtain ⟨x, hx, hres⟩ := List.mem_filterMap.mp hr
    rcases resolveReturn_mine_or_other hres (hi.posts p hp x hx) (hmade x hx) with h | h
    · exact .inl h.1
    · exact .inr h
  refine ⟨hi.nonneg, hi.shares, hi.replies, hi.posts, hi.book.mono ?_, fun v => ⟨hc.nonneg v, ?_⟩⟩
  · have hret : q.inReturns win dep _ w.posts - _ ≤ _ := inReturns_credit hp hi.posts hmade hc
    simp only [World.elsewhere]
    linarith
  · exact (hc.le v).trans (hi.used v).2

theorem Books.serve (hw : q.Windowed) {w : World} {gs : List Know} (hb : Base (safeRegime dep q) w)
    (hi : Books q win dep w gs) {i : ℕ} {c : Call} (hc : c ∈ w.calls) (now : ℤ) (ord : RangeOrder) :
    Books q win dep (w.serve dep i c now ord) gs := by
  obtain ⟨o, req, size, rate, hf, hbody⟩ := hb.calls c hc
  have hf' : q.Fits c.body.stateKey (resolve dep.env dep.cfg c.body.scope c.body.serviceId c.body.apiKey
      c.body.limitId c.body.tierId c.body.org) := by
    rw [hbody]
    exact hf
  have hs := requestQuotaLease_served hw (dep.cn c.edge) (fun v => (hi.used v).1) ord now hf'
  unfold World.serve
  dsimp only
  generalize requestQuotaLease dep.env dep.cfg (dep.cn c.edge) w.ledger ord now c.body = out at hs ⊢
  obtain ⟨body, m⟩ := out
  dsimp only at hs ⊢
  -- the counter grows by what the answer carries
  have hbook : Books q win dep { w with ledger := m, replies := w.replies ++ [⟨i, c.body, body, now⟩] } gs := by
    refine ⟨hi.nonneg, hi.shares, forall_mem_snoc hi.replies fun resp h => hs.sound resp h, hi.posts,
      hi.book.mono ?_, fun v => ⟨?_, hs.le v (hi.used v).2⟩⟩
    · have hone : q.inReturn win dep m = q.inReturn win dep w.ledger := by
        funext p
        simp only [Quota.inReturn, hs.deduped]
      have hret : q.inReturns win dep m w.posts = q.inReturns win dep w.ledger w.posts := by
        simp only [Quota.inReturns, hone]
      have hused := hs.used win
      simp only [World.elsewhere, inReplies_snoc, hret]
      linarith
    · rw [hs.used v]
      refine add_nonneg (hi.used v).1 ?_
      cases body with
      | error code => exact le_rfl
      | ok resp =>
        simp only [Quota.grantedIn, Quota.granted]
        split
        · exact (hs.sound resp rfl).1
        · exact le_rfl
  cases body with
  | error code => exact hbook
  | ok resp =>
    refine ⟨hbook.nonneg, ?_, hbook.replies, hbook.posts, ?_, hbook.used⟩
    · have := hbook.shares
      rwa [← zero_add (q.inHands win _)] at this
    · change Within (q.Label win) w.tokens _ (m.used q.key win)
      rw [elsewhere_record]
      simpa only [Quota.net, Quota.hand, zero_add] using hbook.book

/-- An event that moves no tokens. -/
theorem Books.note {w : World} {gs gs' : List Know} (hi : Books q win dep w gs) (e : Event)
    (hn : q.net win e = 0) (hh : q.hand win e = 0) (hs : Shares q win gs' (q.inHands win w.log)) :
    Books q win dep (w.record e) gs' := by
  refine ⟨hi.nonneg, ?_, hi.replies, hi.posts, ?_, hi.used⟩
  · rw [World.record, inHands_cons, hh, zero_add]
    exact hs
  · change Within (q.Label win) w.tokens _ (w.ledger.used q.key win)
    rw [elsewhere_record, hn, hh, zero_add, zero_add]
    exact hi.book

/-- Setting the expiry does not change whose tokens the answer carries. -/
theorem tokens_armed (win : ℤ) {g : Know} (hs : g.Solid q) {h : HPtr} {exp lo : ℤ} {r : QuotaLeaseRequest}
    {resp : QuotaLeaseResponse} (hp : g.phase = .answered r resp lo) (hb : g.Bankable h exp) :
    Phase.tokens q win (.armed h exp r resp) = g.phase.tokens q win ∧ 0 ≤ resp.grantedTokens := by
  obtain ⟨r', resp', lo', hp', -, hk, h0, hwin⟩ := hb
  rw [hp] at hp'
  cases hp'
  have hsound := hs.answered r resp lo hp
  refine ⟨?_, hsound.1⟩
  rw [hp]
  simp only [Phase.tokens, Quota.granted, Quota.Label, hk]
  by_cases hq : r.stateKey = q.stateKey
  · rw [(hwin (hsound.2 hq)).1]
  · simp [hq]

theorem bagTokens_snoc (bag : List (HPtr × ℤ)) (h : HPtr) (n : ℤ) :
    bagTokens q win (bag ++ [(h, n)]) = bagTokens q win bag + if q.Label win h then n else 0 := by
  simp [bagTokens]

theorem Books.withdraw {w : World} {gs : List Know} {t : ℕ} {g : Know} (hi : Books q win dep w gs)
    (hg : gs[t]? = some g) (h : HPtr) :
    Books q win dep ((w.setTokens h 0).record (.withdraw h (w.tokens h)))
      (gs.set t { g with bag := g.bag ++ [(h, w.tokens h)] }) := by
  have hs := hi.shares.solid g (List.mem_of_getElem? hg)
  refine hi.move h _ le_rfl ?_ (fun hl => ?_) fun hl => ?_
  · refine hi.shares.set hg ⟨forall_mem_snoc hs.bag (hi.nonneg h), hs.answered, hs.armed⟩ ?_
    simp only [Know.tokens, bagTokens_snoc, Quota.hand]
    linarith
  · simp [Quota.net, Quota.hand, hl]
  · simp [Quota.net, Quota.hand, hl]

theorem Books.deposit {w : World} {gs : List Know} {t : ℕ} {g : Know} {h : HPtr} {exp : ℤ}
    {r : QuotaLeaseRequest} {resp : QuotaLeaseResponse} (hi : Books q win dep w gs)
    (hg : gs[t]? = some g) (hp : g.phase = .armed h exp r resp) :
    Books q win dep
      ((w.setTokens h (w.tokens h + resp.grantedTokens)).record (.deposit h resp.grantedTokens))
      (gs.set t { g with phase := .idle }) := by
  have hs := hi.shares.solid g (List.mem_of_getElem? hg)
  have h0 := hs.armed h exp r resp hp
  refine hi.move h _ (add_nonneg (hi.nonneg h) h0) ?_ (fun hl => ?_) fun hl => ?_
  · refine hi.shares.set hg ⟨hs.bag, fun _ _ _ h => (by cases h), fun _ _ _ _ h => (by cases h)⟩ ?_
    simp only [Know.tokens, hp, Phase.tokens, Quota.hand]
    split <;> linarith
  · simp [Quota.net, Quota.hand, hl]
  · simp [Quota.net, Quota.hand, hl]

/-- An answer goes from the network into a goroutine's hands. -/
theorem Books.receive {w : World} {gs : List Know} {t : ℕ} {g : Know} {call i : ℕ} {r : QuotaLeaseRequest}
    {lo : ℤ} {rep : Reply} {resp : QuotaLeaseResponse} (hi : Books q win dep w gs)
    (hg : gs[t]? = some g) (hp : g.phase = .sent call r lo) (hrep : w.replies[i]? = some rep)
    (hr : rep.req = r) (hbody : rep.body = .ok resp) :
    Books q win dep (w.receive i r (.ok resp)) (gs.set t { g with phase := .answered r resp lo }) := by
  have hs := hi.shares.solid g (List.mem_of_getElem? hg)
  have hsound : q.Sound r resp := hr ▸ hi.replies rep (List.mem_of_getElem? hrep) resp hbody
  have hout := inReplies_erase q win hrep
  rw [hr, hbody] at hout
  refine ⟨hi.nonneg, ?_, fun x hx => hi.replies x (List.mem_of_mem_eraseIdx hx), hi.posts, ?_, hi.used⟩
  · simp only [World.receive, World.record, inHands_cons]
    refine hi.shares.set hg ⟨hs.bag, ?_, fun _ _ _ _ h => (by cases h)⟩ ?_
    · rintro _ _ _ ⟨⟩
      exact hsound
    · simp only [Know.tokens, hp, Phase.tokens, Quota.hand]
      linarith
  · simp only [World.receive, elsewhere_record]
    refine hi.book.mono ?_
    change _ - w.ledger.used q.key win ≤ _
    simp only [World.elsewhere, hout, Quota.net, Quota.hand, Quota.grantedIn]
    linarith

/-- A refusal carries nothing. -/
theorem Books.refused {w : World} {gs gs' : List Know} {i : ℕ} {r : QuotaLeaseRequest} {rep : Reply}
    {code : Code} (hi : Books q win dep w gs) (hs : Shares q win gs' (q.inHands win w.log))
    (hrep : w.replies[i]? = some rep) (hbody : rep.body = .error code) :
    Books q win dep (w.receive i r (.error code)) gs' := by
  have hout := inReplies_erase q win hrep
  rw [hbody] at hout
  refine ⟨hi.nonneg, hs, fun x hx => hi.replies x (List.mem_of_mem_eraseIdx hx), hi.posts, ?_, hi.used⟩
  refine hi.book.mono ?_
  change _ - w.ledger.used q.key win ≤ _
  simp only [World.elsewhere, World.receive, hout, Quota.grantedIn]
  linarith

/-- A return goes from a goroutine's bag onto the network. -/
theorem Books.post {w : World} {gs : List Know} {t : ℕ} {g : Know} {edge : ℕ} {r : ReturnLeasesRequest}
    (hi : Books q win dep w gs) (hg : gs[t]? = some g)
    (hpre : protocolPre (safeRegime dep q) (.post edge r) g) :
    Books q win dep (({ w with posts := w.posts ++ [⟨edge, r⟩] } : World).record (.post r))
      (gs.set t { g with bag := [] }) := by
  obtain ⟨-, l, hl, hr, -⟩ := hpre
  have hs := hi.shares.solid g (List.mem_of_getElem? hg)
  have hle : q.returnedIn win r ≤ bagTokens q win g.bag := returnedIn_le_bag hl hr hs.bag
  have hpos : ∀ x ∈ r.returns, 0 ≤ x.tokens := by
    intro x hx
    rw [hr] at hx
    obtain ⟨y, hy, rfl⟩ := List.mem_map.mp hx
    exact hs.bag y (hl.subset hy)
  refine ⟨hi.nonneg, ?_, hi.replies, forall_mem_snoc hi.posts hpos, ?_, hi.used⟩
  · simp only [World.record, inHands_cons]
    refine hi.shares.set hg ⟨by simp, hs.answered, hs.armed⟩ ?_
    simp only [Know.tokens, Quota.hand, bagTokens, List.map_nil, List.sum_nil] at hle ⊢
    linarith
  · simp only [elsewhere_record]
    refine hi.book.mono ?_
    change _ - w.ledger.used q.key win ≤ _
    have hone : q.inReturn win dep w.ledger ⟨edge, r⟩ ≤ q.returnedIn win r := by
      unfold Quota.inReturn
      split
      · exact returnedIn_nonneg hpos
      · exact le_rfl
    simp only [World.elsewhere, Quota.net, Quota.hand, Quota.inReturns, List.map_append, List.sum_append,
      List.map_cons, List.map_nil, List.sum_cons, List.sum_nil]
    linarith

/-- The balances a list of decisions may adjust. -/
def tickets (ds : List Decision) : List HPtr :=
  ds.filterMap fun d => match d.adj with
    | some (.held h) => some h
    | _ => none

theorem ticketed_tickets {ds : List Decision} {d : Decision} (hd : d ∈ ds) {lo : ℤ} {seen : List HPtr} :
    Lease.Ticketed ⟨lo, .idle, [], seen, tickets ds, none⟩ d := by
  intro h hx
  exact List.mem_filterMap.mpr ⟨d, hd, by rw [hx]⟩

/-- Every step keeps the books. -/
theorem books_obey (win : ℤ) (hw : q.Windowed) :
    Obeys dep (safeRegime dep q) (sharedQuota dep q) (Books q win dep) where
  same hs hi := hi.same hs
  balance h hi := hi.nonneg h
  expiry _ _ := trivial
  spawn slot hi := ⟨⟨0, .idle, [], [], [], slot⟩, rfl, rfl, { hi with shares := hi.shares.spawn [] slot }⟩
  land hi hg := { hi with shares := hi.shares.drop hg }
  clock _ _ hi hg _ := ⟨trivial, { hi with shares := hi.shares.learn hg rfl rfl }⟩
  loadCur _ hi hg := { hi with shares := hi.shares.learn hg rfl rfl }
  newHeld _ _ _ hi hg _ := hi.note _ rfl rfl (hi.shares.learn hg rfl rfl)
  casCur _ _ hi _ _ := ⟨hi.nonneg, hi.shares, hi.replies, hi.posts, hi.book, hi.used⟩
  storeTokens h b hi hb := by
    rw [min_eq_right hb]
    exact hi.drop h
  take h cost now exp ch hi hg _ h0 _ _ := by
    refine hi.move h _ h0 ?_ (fun hl => ?_) fun hl => ?_
    · rw [show q.hand win (.take h cost now _) = 0 from rfl, zero_add]
      exact hi.shares.learn hg rfl rfl
    · simp [Quota.net, Quota.hand, hl]
    · simp [Quota.net, Quota.hand, hl]
  expire h hi _ := hi.drop h
  adjust h new delta hi hg hc hneg _ _ := by
    obtain ⟨-, rfl⟩ := hneg hc
    have hd : delta < 0 := hc
    refine hi.move h _ (by linarith [hi.nonneg h]) ?_ (fun hl => ?_) fun hl => ?_
    · simpa [Quota.hand] using hi.shares
    · simp [Quota.net, Quota.hand, hl]
    · simp [Quota.net, Quota.hand, hl]
  storeExpiry h exp r resp lo ch hi hg _ hp hb _ := by
    have hs := hi.shares.solid _ (List.mem_of_getElem? hg)
    obtain ⟨ht, h0⟩ := tokens_armed win hs hp hb
    refine ⟨hi.nonneg, hi.shares.set hg ⟨hs.bag, fun _ _ _ h => (by cases h), ?_⟩ ?_, hi.replies, hi.posts,
      hi.book, hi.used⟩
    · rintro _ _ _ _ ⟨⟩
      exact h0
    · simp [Know.tokens, ht]
  deposit h exp r resp hi hg hp := hi.deposit hg hp
  withdraw h hi hg := hi.withdraw hg h
  send edge r _ hi hg hp _ := by
    have hs := hi.shares.solid _ (List.mem_of_getElem? hg)
    refine ⟨hi.nonneg, hi.shares.set hg ⟨hs.bag, fun _ _ _ h => (by cases h), fun _ _ _ _ h => (by cases h)⟩ ?_,
      hi.replies, hi.posts, hi.book, hi.used⟩
    simp [Know.tokens, Phase.tokens, hp]
  receive call r lo i rep resp _ hi hg hp hrep _ hr hbody := hi.receive hg hp hrep hr hbody
  refused call r lo i rep code hi hg hp hrep _ _ hbody := by
    have hs := hi.shares.solid _ (List.mem_of_getElem? hg)
    refine hi.refused (hi.shares.set hg ⟨hs.bag, fun _ _ _ h => (by cases h), fun _ _ _ _ h => (by cases h)⟩ ?_)
      hrep hbody
    simp [Know.tokens, Phase.tokens, hp]
  lost call r lo hi hg hp := by
    have hs := hi.shares.solid _ (List.mem_of_getElem? hg)
    refine ⟨hi.nonneg, hi.shares.set hg ⟨hs.bag, fun _ _ _ h => (by cases h), fun _ _ _ _ h => (by cases h)⟩ ?_,
      hi.replies, hi.posts, hi.book, hi.used⟩
    simp [Know.tokens, Phase.tokens, hp]
  post edge r hi hg hpre := hi.post hg hpre
  answer req res hi := hi.note _ rfl rfl hi.shares
  reserved _ hi _ _ := ⟨hi.nonneg, hi.shares, hi.replies, hi.posts, hi.book, hi.used⟩
  fitsAllow _ _ _ h := h
  fitsReserve _ _ _ h := ⟨fun _ hd => hd, h⟩
  tick _ hi _ := ⟨hi.nonneg, hi.shares, hi.replies, hi.posts, hi.book, hi.used⟩
  settle i actual fuel r hi hc hr := by
    refine ⟨fun c hx h0 => ?_, ⟨0, .idle, [], [], tickets r.results, none⟩, rfl, fun d hd => ticketed_tickets hd,
      ⟨hi.nonneg, hi.shares.spawn _ none, hi.replies, hi.posts, hi.book, hi.used⟩⟩
    have : max actual 0 ≤ c := hc (r, false) hr c hx
    exact lt_of_le_of_ne (by linarith) h0
  serve i c now ord hb hi _ hc := hi.serve hw hb (List.mem_of_getElem? hc) now ord
  credit i p now hb hi _ hp := hi.credit hw hb (List.mem_of_getElem? hp) now

theorem books_init (hw : q.Windowed) (time : ℤ) : Books q win dep (World.init time Mem.new) [] where
  nonneg _ := le_rfl
  shares := ⟨by simp, le_rfl⟩
  replies := by simp [World.init]
  posts := by simp [World.init]
  book := within_zero (by simp [World.elsewhere, World.init, Quota.netAdmitted, Quota.inHands,
    Quota.inReplies, Quota.inReturns, Mem.used, Mem.new, Mem.getInt])
  used _ := ⟨le_rfl, hw.2.le⟩

theorem inReplies_nonneg {l : List Reply} (h : ∀ r ∈ l, ∀ resp, r.body = .ok resp → q.Sound r.req resp) :
    0 ≤ q.inReplies win l := by
  refine List.sum_nonneg fun y hy => ?_
  obtain ⟨r, hr, rfl⟩ := List.mem_map.mp hy
  unfold Quota.grantedIn Quota.granted
  split
  · rename_i resp hbody
    split
    · exact (h r hr resp hbody).1
    · exact le_rfl
  · exact le_rfl

theorem inReturns_nonneg {m : Mem} {l : List Post} (h : ∀ p ∈ l, ∀ x ∈ p.body.returns, 0 ≤ x.tokens) :
    0 ≤ q.inReturns win dep m l := by
  refine List.sum_nonneg fun y hy => ?_
  obtain ⟨p, hp, rfl⟩ := List.mem_map.mp hy
  unfold Quota.inReturn
  split
  · exact le_rfl
  · exact returnedIn_nonneg (h p hp)

end

namespace Sample

def env : HubEnv where
  matchPattern _ _ := true
  tier _ _ := some "t"
  owner _ _ := none
  orgID := id
  score _ _ := 0
  region := none

def service : ServiceConfig where
  serviceID := "svc"
  tiers := [⟨"t", 100, .fixedWindow, 0⟩]
  safetyTier := none
  authType := ""
  limits := []
  org := none
  lease := ⟨"fixed", 0, 0, 0⟩
  global := none

def cfg : GatewayConfig := ⟨[⟨"v1", second, [service]⟩], [], ""⟩

def dep : Deployment where
  env := env
  cfg := cfg
  opts _ := ⟨10, 20, 0, 0, ""⟩
  bootID _ := "boot"
  cn _ := ""
  rule _ := none

def request (cost : ℤ) : Request where
  scope := "v1"
  service := "svc"
  limitID := ""
  key := "key"
  tier := ""
  org := ""
  limit := 100
  cost := cost
  window := second
  algo := .fixedWindow
  leaseSize := 0
  shadow := false
  maxDebt := 0

def quota : Quota := ⟨⟨"v1", "svc", "", "key", ""⟩, ⟨.fixedWindow, 100, second, 0⟩⟩

def order : RangeOrder := ⟨id, perm_in_place⟩

/-- `n` steps of the goroutine `t`, with the clock at `now`. -/
def steps (n t : ℕ) (now : ℤ) : List EdgeAct := List.replicate n (.run t { value := now, fuel := 3 })

/-- A first request finds no tokens, fetches a lease and is admitted. -/
def firstAllow : List EdgeAct :=
  [.env (.allow 0 3 (request 1))] ++ steps 13 0 5100 ++ steps 7 1 5100 ++ [.env (.serve 0 5100 order)] ++
    steps 12 1 5100 ++ steps 15 0 5100

end Sample

end Gate
