import Gate.Proofs.TokenLife

/-! What tokens of a certain age can pay for. Fix a moment `a` and a later one `b`. As long as
no expiry is moved across `a` while there are tokens under it, what is admitted from `a` to
`b` comes out of leases granted by `b` that had not run out at `a`. -/

namespace Gate

open Conc Accounts

section

variable (mine : String → Prop) [DecidablePred mine] (a b : ℤ)

/-- A balance of ours that lasts beyond `a`. -/
def Lasting (expiresAt : HPtr → ℤ) (h : HPtr) : Prop := mine h.c.key ∧ a < expiresAt h

/-- The tokens in a goroutine's answer that will last beyond `a`. -/
def Phase.leased : Phase → ℤ
  | .answered r resp lo => if mine r.stateKey ∧ a < lo + resp.expiresInMs then resp.grantedTokens else 0
  | .armed h exp _ resp => if mine h.c.key ∧ a < exp then resp.grantedTokens else 0
  | _ => 0

def Reply.leased (r : Reply) : ℤ :=
  match r.body with
  | .ok resp => if mine r.req.stateKey ∧ a < r.served + resp.expiresInMs then resp.grantedTokens else 0
  | .error _ => 0

/-- What a goroutine knows about the age of its tokens. -/
structure Know.Aged (time : ℤ) (replies : List Reply) (expiresAt : HPtr → ℤ) (g : Know) : Prop where
  lo : g.lo ≤ time
  sent : ∀ call r lo, g.phase = .sent call r lo →
    lo ≤ time ∧ ∀ rep ∈ replies, rep.call = call → lo ≤ rep.served
  answered : ∀ r resp lo, g.phase = .answered r resp lo →
    0 ≤ resp.grantedTokens ∧ (mine r.stateKey → 0 < resp.expiresInMs)
  armed : ∀ h exp r resp, g.phase = .armed h exp r resp →
    expiresAt h = exp ∧ 0 ≤ resp.grantedTokens ∧ g.Flying h.c

/-- What was admitted, and what goroutines and replies hold. -/
def aside (log : List Event) (gs : List Know) (replies : List Reply) : ℤ :=
  admittedIn mine a b log + (gs.map fun g => g.phase.leased mine a).sum + (replies.map (Reply.leased mine a)).sum

/-- The books of the leases that last beyond `a`. -/
structure Aged (w : World) (gs : List Know) : Prop where
  nonneg : ∀ h, 0 ≤ w.tokens h
  replies : ∀ rep ∈ w.replies, rep.served ≤ w.time ∧ ∀ resp, rep.body = .ok resp →
    0 ≤ resp.grantedTokens ∧ (mine rep.req.stateKey → 0 < resp.expiresInMs)
  shares : ∀ g ∈ gs, g.Aged mine w.time w.replies w.expiresAt
  book : w.time ≤ b → Within (Lasting mine a w.expiresAt) w.tokens (aside mine a b w.log gs w.replies)
    (leasedIn mine a b w.log)
  spent : admittedIn mine a b w.log ≤ leasedIn mine a b w.log

end

/-- Lifetimes are at least a millisecond: only a token bucket's is configured. -/
def Item.Lasting (it : Item) : Prop :=
  it.spec.algo.or = .tokenBucket → it.args.horizon ≤ 0 ∨ millisecond ≤ it.args.horizon

instance (it : Item) : Decidable it.Lasting := inferInstanceAs (Decidable (_ → _))

theorem Leased.lasting {env : HubEnv} {cfg : GatewayConfig} {r : QuotaLeaseRequest} {m m' : Mem} {now : ℤ}
    {resp : QuotaLeaseResponse} {it : Item} {args : GrantArgs} {inp : GrantInput} {g : Grant}
    (hl : Leased env cfg r m now resp m' it args inp g) (hlast : it.Lasting) : 0 < resp.expiresInMs := by
  have hexp : resp.expiresInMs = (m.nest inp (m.measure inp now) now).expires := by
    rw [hl.resp]
    simp only [grantResponse, hl.granted.expires, milliseconds_mul]
  rw [hexp]
  refine (nest_expires m inp _ now hl.prepared.pwin ?_).1
  unfold Mem.measure
  split
  · rename_i halgo
    have hh := hlast (hl.prepared.algo ▸ halgo)
    simp only [Mem.measureBucket, hl.prepared.ttl, hl.horizon, milliseconds, second, millisecond] at hh ⊢
    split
    · rw [Int.tdiv_eq_ediv_of_nonneg (by omega)]
      omega
    · decide
  · have hw : 0 < inp.win := hl.prepared.win ▸ windowMs_pos _
    simp only [Mem.measureWindow]
    linarith [Windows.lt_end hw now]

section

variable {mine : String → Prop} [DecidablePred mine] {a b : ℤ}

/-! The record. -/

theorem admittedIn_cons {e : Event} (he : e.taken = none) (log : List Event) :
    admittedIn mine a b (e :: log) = admittedIn mine a b log := by
  simp [admittedIn, takes, he]

theorem admittedIn_take (h : HPtr) (cost t now : ℤ) (log : List Event) :
    admittedIn mine a b (.take h cost t now :: log) =
      (if mine h.c.key ∧ a ≤ t ∧ t ≤ b then cost else 0) + admittedIn mine a b log := by
  simp [admittedIn, takes, Event.taken]

theorem leasedIn_cons (e : Event) (log : List Event) :
    leasedIn mine a b (e :: log) = e.leased mine a b + leasedIn mine a b log := by
  simp [leasedIn]

/-! Goroutines. -/

section Know

variable {time time' : ℤ} {replies replies' : List Reply} {expiresAt : HPtr → ℤ} {g : Know}

theorem Know.Aged.phase_nonneg (h : g.Aged mine time replies expiresAt) : 0 ≤ g.phase.leased mine a := by
  unfold Phase.leased
  split
  · rename_i r resp lo hp
    split
    · exact (h.answered r resp lo hp).1
    · exact le_rfl
  · rename_i x exp r resp hp
    split
    · exact (h.armed x exp r resp hp).2.1
    · exact le_rfl
  · exact le_rfl

omit [DecidablePred mine] in
theorem Know.Aged.later (h : g.Aged mine time replies expiresAt) (ht : time ≤ time')
    (hr : ∀ rep ∈ replies', rep ∈ replies ∨ time ≤ rep.served) : g.Aged mine time' replies' expiresAt where
  lo := h.lo.trans ht
  sent call r lo hp := by
    obtain ⟨h₁, h₂⟩ := h.sent call r lo hp
    refine ⟨h₁.trans ht, fun rep hrep hc => ?_⟩
    rcases hr rep hrep with hold | hnew
    · exact h₂ rep hold hc
    · exact h₁.trans hnew
  answered := h.answered
  armed := h.armed

omit [DecidablePred mine] in
theorem Know.Aged.idle (h : g.Aged mine time replies expiresAt) {bag : List (HPtr × ℤ)} {seen taken : List HPtr}
    {slot : Option Flight} : Know.Aged mine time replies expiresAt ⟨g.lo, .idle, bag, seen, taken, slot⟩ :=
  ⟨h.lo, fun _ _ _ h => (by cases h), fun _ _ _ h => (by cases h), fun _ _ _ _ h => (by cases h)⟩

omit [DecidablePred mine] in
theorem Know.Aged.fresh {lo : ℤ} (h : lo ≤ time) (slot : Option Flight) :
    Know.Aged mine time replies expiresAt ⟨lo, .idle, [], [], [], slot⟩ :=
  ⟨h, fun _ _ _ h => (by cases h), fun _ _ _ h => (by cases h), fun _ _ _ _ h => (by cases h)⟩

end Know

variable {w : World} {gs gs' : List Know} {t : ℕ} {g : Know}

theorem Aged.hands_nonneg (hi : Aged mine a b w gs) : 0 ≤ (gs.map fun g => g.phase.leased mine a).sum := by
  refine List.sum_nonneg fun y hy => ?_
  obtain ⟨g, hg, rfl⟩ := List.mem_map.mp hy
  exact (hi.shares g hg).phase_nonneg

theorem Aged.replies_nonneg (hi : Aged mine a b w gs) : 0 ≤ (w.replies.map (Reply.leased mine a)).sum := by
  refine List.sum_nonneg fun y hy => ?_
  obtain ⟨rep, hrep, rfl⟩ := List.mem_map.mp hy
  unfold Reply.leased
  split
  · rename_i resp hbody
    split
    · exact ((hi.replies rep hrep).2 resp hbody).1
    · exact le_rfl
  · exact le_rfl

/-- A goroutine moves on, with no more in its answer than before. -/
theorem Aged.learn (hi : Aged mine a b w gs) (hg : gs[t]? = some g) {g' : Know}
    (hs : g'.Aged mine w.time w.replies w.expiresAt)
    (hp : g'.phase.leased mine a ≤ g.phase.leased mine a) : Aged mine a b w (gs.set t g') where
  nonneg := hi.nonneg
  replies := hi.replies
  shares := forall_mem_set hi.shares t hs
  book hb := by
    refine (hi.book hb).mono ?_
    rw [aside, Accounts.sum_map_set _ hg, aside]
    linarith
  spent := hi.spent

theorem Aged.spawn (hi : Aged mine a b w gs) {g' : Know} (hs : g'.Aged mine w.time w.replies w.expiresAt)
    (hp : g'.phase = .idle) : Aged mine a b w (gs ++ [g']) where
  nonneg := hi.nonneg
  replies := hi.replies
  shares := forall_mem_snoc hi.shares hs
  book hb := by
    refine (hi.book hb).mono ?_
    simp [aside, hp, Phase.leased]
  spent := hi.spent

/-- A balance is given up. -/
theorem Aged.drop (hi : Aged mine a b w gs) (h : HPtr) : Aged mine a b (w.setTokens h 0) gs where
  nonneg := (Function.forall_update_iff w.tokens fun _ v => 0 ≤ v).mpr ⟨le_rfl, fun x _ => hi.nonneg x⟩
  replies := hi.replies
  shares := hi.shares
  book hb := by
    change Within _ (Function.update w.tokens h 0) (aside mine a b w.log gs w.replies) _
    by_cases hl : Lasting mine a w.expiresAt h
    · exact (hi.book hb).update hl le_rfl (by linarith [hi.nonneg h])
    · exact (hi.book hb).update_not hl 0
  spent := hi.spent

/-- An event that is neither a take nor a lease goes on record. -/
theorem Aged.note (hi : Aged mine a b w gs) (e : Event) (he : e.taken = none) (hl : e.leased mine a b = 0) :
    Aged mine a b (w.record e) gs where
  nonneg := hi.nonneg
  replies := hi.replies
  shares := hi.shares
  book hb := by
    simp only [World.record, aside, admittedIn_cons he, leasedIn_cons, hl, zero_add]
    exact hi.book hb
  spent := by
    simp only [World.record, admittedIn_cons he, leasedIn_cons, hl, zero_add]
    exact hi.spent

/-- As long as `b` has not passed, what was admitted is covered. -/
theorem Aged.spent_of_book {tokens expiresAt : HPtr → ℤ} {log : List Event} {replies : List Reply}
    (hb : Within (Lasting mine a expiresAt) tokens (aside mine a b log gs replies) (leasedIn mine a b log))
    (hh : 0 ≤ (gs.map fun g => g.phase.leased mine a).sum)
    (hr : 0 ≤ (replies.map (Reply.leased mine a)).sum) : admittedIn mine a b log ≤ leasedIn mine a b log := by
  have := hb.le
  rw [aside] at this
  linarith

/-- A take at the current time from a balance that has not expired. -/
theorem Aged.take (hi : Aged mine a b w gs) (hg : gs[t]? = some g) {h : HPtr} {cost now : ℤ}
    (h0 : 0 ≤ w.tokens h - cost) (hcost : 0 < cost)
    (ht : mine h.c.key → now = w.time ∧ now < w.expiresAt h) :
    Aged mine a b ((w.setTokens h (w.tokens h - cost)).record (.take h cost now w.time))
      (gs.set t { g with taken := h :: g.taken }) := by
  have hs := hi.shares g (List.mem_of_getElem? hg)
  have hshares := forall_mem_set hi.shares t (show Know.Aged mine w.time w.replies w.expiresAt
    { g with taken := h :: g.taken } from { hs with })
  have hsum := Accounts.sum_map_set (fun g : Know => g.phase.leased mine a) hg { g with taken := h :: g.taken }
  have hbook : w.time ≤ b → Within (Lasting mine a w.expiresAt)
      (Function.update w.tokens h (w.tokens h - cost))
      (aside mine a b (.take h cost now w.time :: w.log) (gs.set t { g with taken := h :: g.taken }) w.replies)
      (leasedIn mine a b (.take h cost now w.time :: w.log)) := by
    intro hb
    have hold := hi.book hb
    rw [leasedIn_cons, aside, admittedIn_take, hsum]
    rw [aside] at hold
    simp only [Event.leased, zero_add, sub_self, add_zero]
    by_cases hl : Lasting mine a w.expiresAt h
    · refine hold.update hl h0 ?_
      split <;> linarith
    · -- the balance has run out by `a`, so the take was before
      have hn : ¬(mine h.c.key ∧ a ≤ now ∧ now ≤ b) := fun hc =>
        hl ⟨hc.1, lt_of_le_of_lt hc.2.1 (ht hc.1).2⟩
      rw [if_neg hn, zero_add]
      exact hold.update_not hl _
  refine ⟨?_, hi.replies, hshares, hbook, ?_⟩
  · exact (Function.forall_update_iff w.tokens fun _ v => 0 ≤ v).mpr ⟨h0, fun x _ => hi.nonneg x⟩
  by_cases hb : w.time ≤ b
  · refine Aged.spent_of_book (hbook hb) ?_ hi.replies_nonneg
    rw [hsum]
    linarith [hi.hands_nonneg]
  · change admittedIn mine a b (.take h cost now w.time :: w.log) ≤
      leasedIn mine a b (.take h cost now w.time :: w.log)
    have hn : ¬(mine h.c.key ∧ a ≤ now ∧ now ≤ b) := fun hc => hb ((ht hc.1).1 ▸ hc.2.2)
    rw [admittedIn_take, if_neg hn, leasedIn_cons, zero_add]
    simpa only [Event.leased, zero_add] using hi.spent

/-- An expiry is set, and moved across `a` only when there are no tokens under it. -/
theorem Aged.arm (hi : Aged mine a b w gs) (hg : gs[t]? = some g) {h : HPtr} {exp lo : ℤ}
    {r : QuotaLeaseRequest} {resp : QuotaLeaseResponse} (hp : g.phase = .answered r resp lo)
    (hb : g.Bankable h exp) (halone : ∀ t' g', gs[t']? = some g' → g'.Flying h.c → t' = t)
    (hkeep : mine h.c.key → w.expiresAt h ≤ a → a < exp → w.tokens h ≤ 0) :
    Aged mine a b { w with expiresAt := Function.update w.expiresAt h exp }
      (gs.set t { g with phase := .armed h exp r resp }) := by
  have hs := hi.shares g (List.mem_of_getElem? hg)
  obtain ⟨r', resp', lo', hp', hfly, hk, hpos, hwin⟩ := hb
  rw [hp] at hp'
  cases hp'
  obtain ⟨h0, hlast⟩ := hs.answered r resp lo hp
  have hle : Phase.leased mine a (.armed h exp r resp) ≤ g.phase.leased mine a := by
    rw [hp]
    simp only [Phase.leased]
    by_cases hc : mine h.c.key ∧ a < exp
    · have hm : mine r.stateKey := hk ▸ hc.1
      obtain ⟨-, sent, hsent, rfl⟩ := hwin (hlast hm)
      rw [if_pos hc, if_pos ⟨hm, by linarith [hc.2]⟩]
    · rw [if_neg hc]
      split
      · exact h0
      · exact le_rfl
  refine ⟨hi.nonneg, hi.replies, ?_, fun htime => ?_, hi.spent⟩
  · refine forall_mem_set (fun x hx => ?_) t ⟨hs.lo, fun _ _ _ h => (by cases h), fun _ _ _ h => (by cases h), ?_⟩
    · -- nobody else is about to add to this balance
      have hxs := hi.shares x hx
      refine ⟨hxs.lo, hxs.sent, hxs.answered, fun h' exp' r' resp' hx' => ?_⟩
      obtain ⟨h₁, h₂, h₃⟩ := hxs.armed h' exp' r' resp' hx'
      refine ⟨?_, h₂, h₃⟩
      by_cases hh : h' = h
      · subst hh
        obtain ⟨i, hi'⟩ := List.getElem?_of_mem hx
        obtain rfl := halone i x hi' h₃
        rw [hg] at hi'
        cases hi'
        rw [hp] at hx'
        cases hx'
      · exact (Function.update_of_ne hh _ _).trans h₁
    · rintro _ _ _ _ ⟨⟩
      exact ⟨Function.update_self _ _ _, h0, hfly⟩
  · have hold := hi.book htime
    have hmono : Within (Lasting mine a w.expiresAt) w.tokens
        (aside mine a b w.log (gs.set t { g with phase := .armed h exp r resp }) w.replies)
        (leasedIn mine a b w.log) := by
      refine hold.mono ?_
      rw [aside, Accounts.sum_map_set _ hg, aside]
      linarith
    have hP : ∀ y, Lasting mine a (Function.update w.expiresAt h exp) y → Lasting mine a w.expiresAt y ∨ y = h := by
      intro y hy
      by_cases hyh : y = h
      · exact .inr hyh
      · exact .inl ⟨hy.1, by simpa [Function.update_of_ne hyh] using hy.2⟩
    by_cases hc : mine h.c.key ∧ w.expiresAt h ≤ a ∧ a < exp
    · exact hmono.insert hP (hkeep hc.1 hc.2.1 hc.2.2)
    · refine hmono.imp fun y hy => (hP y hy).elim id fun hyh => ?_
      subst hyh
      have hexp : a < exp := by simpa using hy.2
      exact ⟨hy.1, not_le.mp fun hle => hc ⟨hy.1, hle, hexp⟩⟩

/-- The tokens of an answer are added to the balance they were meant for. -/
theorem Aged.deposit (hi : Aged mine a b w gs) (hg : gs[t]? = some g) {h : HPtr} {exp : ℤ}
    {r : QuotaLeaseRequest} {resp : QuotaLeaseResponse} (hp : g.phase = .armed h exp r resp) :
    Aged mine a b
      ((w.setTokens h (w.tokens h + resp.grantedTokens)).record (.deposit h resp.grantedTokens))
      (gs.set t { g with phase := .idle }) := by
  have hs := hi.shares g (List.mem_of_getElem? hg)
  obtain ⟨hexp, h0, -⟩ := hs.armed h exp r resp hp
  have hn : 0 ≤ w.tokens h + resp.grantedTokens := add_nonneg (hi.nonneg h) h0
  refine Aged.note (w := w.setTokens h (w.tokens h + resp.grantedTokens))
    ⟨?_, hi.replies, forall_mem_set hi.shares t hs.idle, fun hb => ?_, hi.spent⟩ (.deposit h _) rfl rfl
  · exact (Function.forall_update_iff w.tokens fun _ v => 0 ≤ v).mpr ⟨hn, fun x _ => hi.nonneg x⟩
  · have hold := hi.book hb
    rw [aside] at hold
    change Within _ (Function.update w.tokens h _) (aside mine a b w.log _ w.replies) (leasedIn mine a b w.log)
    have hidle : Phase.leased mine a .idle = 0 := rfl
    rw [aside, Accounts.sum_map_set _ hg, hp, hidle,
      show Phase.leased mine a (.armed h exp r resp) = if _ then _ else _ from rfl]
    by_cases hl : Lasting mine a w.expiresAt h
    · refine hold.update hl hn ?_
      rw [if_pos ⟨hl.1, hexp ▸ hl.2⟩]
      linarith
    · refine (hold.update_not hl _).mono ?_
      rw [if_neg fun hc => hl ⟨hc.1, hexp ▸ hc.2⟩]
      linarith

/-- An answer is no older for having been delivered. -/
theorem Aged.receive (hi : Aged mine a b w gs) (hg : gs[t]? = some g) {call i : ℕ} {r : QuotaLeaseRequest}
    {lo : ℤ} {rep : Reply} {resp : QuotaLeaseResponse} (hp : g.phase = .sent call r lo)
    (hrep : w.replies[i]? = some rep) (hcall : rep.call = call) (hr : rep.req = r) (hbody : rep.body = .ok resp) :
    Aged mine a b (w.receive i r (.ok resp)) (gs.set t { g with phase := .answered r resp lo }) := by
  have hm := List.mem_of_getElem? hrep
  have hs := hi.shares g (List.mem_of_getElem? hg)
  have hlo : lo ≤ rep.served := (hs.sent call r lo hp).2 rep hm hcall
  have hans := (hi.replies rep hm).2 resp hbody
  rw [hr] at hans
  have hsub : ∀ x ∈ w.replies.eraseIdx i, x ∈ w.replies := fun x hx => List.mem_of_mem_eraseIdx hx
  have hlater : ∀ g ∈ gs, g.Aged mine w.time (w.replies.eraseIdx i) w.expiresAt :=
    fun g hg => (hi.shares g hg).later le_rfl fun x hx => .inl (hsub x hx)
  refine Aged.note (w := { w with replies := w.replies.eraseIdx i })
    ⟨hi.nonneg, fun x hx => hi.replies x (hsub x hx), forall_mem_set hlater t ?_, fun hb => ?_, hi.spent⟩
    (.receive r resp) rfl rfl
  · refine ⟨hs.lo, fun _ _ _ h => (by cases h), ?_, fun _ _ _ _ h => (by cases h)⟩
    rintro _ _ _ ⟨⟩
    exact hans
  · refine (hi.book hb).mono ?_
    have hle : Phase.leased mine a (.answered r resp lo) ≤ rep.leased mine a := by
      simp only [Phase.leased, Reply.leased, hbody, hr]
      by_cases hc : mine r.stateKey ∧ a < lo + resp.expiresInMs
      · rw [if_pos hc, if_pos ⟨hc.1, by linarith [hc.2]⟩]
      · rw [if_neg hc]
        split
        · exact hans.1
        · exact le_rfl
    have h0 : g.phase.leased mine a = 0 := by rw [hp]; rfl
    rw [aside, Accounts.sum_map_set _ hg, Accounts.sum_map_eraseIdx _ hrep, aside, h0]
    linarith

/-- A refusal carries nothing. -/
theorem Aged.refused (hi : Aged mine a b w gs) {i : ℕ} {rep : Reply} {code : Code}
    (hrep : w.replies[i]? = some rep) (hbody : rep.body = .error code) :
    Aged mine a b { w with replies := w.replies.eraseIdx i } gs where
  nonneg := hi.nonneg
  replies x hx := hi.replies x (List.mem_of_mem_eraseIdx hx)
  shares g hg := (hi.shares g hg).later le_rfl fun x hx => .inl (List.mem_of_mem_eraseIdx hx)
  book hb := by
    refine (hi.book hb).mono ?_
    have h0 : rep.leased mine a = 0 := by simp only [Reply.leased, hbody]
    rw [aside, Accounts.sum_map_eraseIdx _ hrep, aside, h0, sub_zero]
  spent := hi.spent

/-- The hub answers at the current time. -/
theorem Aged.answer (hi : Aged mine a b w gs) (i : ℕ) (r : QuotaLeaseRequest) (resp : QuotaLeaseResponse)
    (m : Mem) (h0 : 0 ≤ resp.grantedTokens) (hlast : mine r.stateKey → 0 < resp.expiresInMs) :
    Aged mine a b (({ w with ledger := m, replies := w.replies ++ [⟨i, r, .ok resp, w.time⟩] } : World).record
      (.grant r resp w.time)) gs := by
  have hnew : ∀ x ∈ w.replies ++ [⟨i, r, .ok resp, w.time⟩], x ∈ w.replies ∨ w.time ≤ x.served :=
    forall_mem_snoc (fun _ h => .inl h) (.inr le_rfl)
  have hadm : admittedIn mine a b (.grant r resp w.time :: w.log) = admittedIn mine a b w.log :=
    admittedIn_cons rfl w.log
  have hlease : 0 ≤ Event.leased mine a b (.grant r resp w.time) := by
    simp only [Event.leased]
    split
    · exact h0
    · exact le_rfl
  refine ⟨hi.nonneg, forall_mem_snoc hi.replies ⟨le_rfl, ?_⟩,
    fun g hg => (hi.shares g hg).later le_rfl hnew, fun hb => (hi.book hb).mono ?_, ?_⟩
  · rintro _ ⟨⟩
    exact ⟨h0, hlast⟩
  · have hle : Reply.leased mine a ⟨i, r, .ok resp, w.time⟩ ≤ Event.leased mine a b (.grant r resp w.time) := by
      have hb' : w.time ≤ b := hb
      simp only [Reply.leased, Event.leased]
      by_cases hc : mine r.stateKey ∧ a < w.time + resp.expiresInMs
      · rw [if_pos hc, if_pos ⟨hc.1, hc.2, hb'⟩]
      · rw [if_neg hc, if_neg fun h => hc ⟨h.1, h.2.1⟩]
    simp only [World.record, aside, hadm, leasedIn_cons, List.map_append, List.sum_append, List.map_cons,
      List.map_nil, List.sum_cons, List.sum_nil]
    linarith
  · change admittedIn mine a b (.grant r resp w.time :: w.log) ≤ leasedIn mine a b (.grant r resp w.time :: w.log)
    rw [hadm, leasedIn_cons]
    linarith [hi.spent]

/-! Runs. -/

/-- What is made of a request depends on its state key and on how the hub resolves it. -/
def ageRegime (dep : Deployment) (Q : String → Except Code Item → Prop) : Regime where
  fits req := Q (stateKey req) (dep.resolveRequest req)
  balance b := 0 ≤ b
  expiry _ _ := True
  reading _ := True
  charge _ := False
  fits_identity _ h := h
  fits_cost _ _ h := h

/-- Clocks agree, only `Allow` runs, requests are as `Q` has them, takes are current, and
expiries are set as `keep` has it. -/
def aging (dep : Deployment) (Q : String → Except Code Item → Prop) (mine : String → Prop)
    (keep : World → HPtr → ℤ → Prop) : Pool.Cond Instr World Choice Input :=
  ((steady 0).and allowing).and ((requesting fun req => Q (stateKey req) (dep.resolveRequest req)).and
    ((currentTakes mine).and (arming mine keep)))

instance (dep : Deployment) (Q : String → Except Code Item → Prop) [∀ k res, Decidable (Q k res)]
    (mine : String → Prop) [DecidablePred mine] (keep : World → HPtr → ℤ → Prop)
    [∀ w h exp, Decidable (keep w h exp)] (i : Instr) (ch : Choice) (w : World) :
    Decidable ((aging dep Q mine keep).instr i ch w) :=
  inferInstanceAs (Decidable (Pool.Cond.instr (Pool.Cond.and _ _) i ch w))

instance (dep : Deployment) (Q : String → Except Code Item → Prop) [∀ k res, Decidable (Q k res)]
    (mine : String → Prop) (keep : World → HPtr → ℤ → Prop) (e : Input) (w : World) :
    Decidable ((aging dep Q mine keep).event e w) :=
  inferInstanceAs (Decidable (Pool.Cond.event (Pool.Cond.and _ _) e w))

theorem Aged.serve {dep : Deployment} {Q : String → Except Code Item → Prop} (hi : Aged mine a b w gs)
    (hQ : ∀ k it, Q k (.ok it) → mine k → it.Lasting) (hb : Base (ageRegime dep Q) w) {i : ℕ} {c : Call}
    (hc : c ∈ w.calls) (ord : RangeOrder) : Aged mine a b (w.serve dep i c w.time ord) gs := by
  obtain ⟨o, req, size, rate, hf, hbody⟩ := hb.calls c hc
  have hf' : Q c.body.stateKey (resolve dep.env dep.cfg c.body.scope c.body.serviceId c.body.apiKey
      c.body.limitId c.body.tierId c.body.org) := by
    rw [hbody]
    exact hf
  unfold World.serve
  dsimp only
  rcases requestQuotaLease_cases dep.env dep.cfg (dep.cn c.edge) w.ledger ord w.time c.body with
    ⟨code, h⟩ | ⟨resp, m', it, args, inp, g, h, hles⟩
  · rw [h]
    have hnew : ∀ x ∈ w.replies ++ [⟨i, c.body, .error code, w.time⟩], x ∈ w.replies ∨ w.time ≤ x.served :=
      forall_mem_snoc (fun _ h => .inl h) (.inr le_rfl)
    refine ⟨hi.nonneg, forall_mem_snoc hi.replies ⟨le_rfl, fun _ h => (by cases h)⟩,
      fun g hg => (hi.shares g hg).later le_rfl hnew, fun hb => (hi.book hb).mono ?_, hi.spent⟩
    simp [aside, Reply.leased]
  · rw [h]
    rw [hles.resolved] at hf'
    refine hi.answer i c.body resp m' ?_ fun hm => hles.lasting (hQ _ it hf' hm)
    rw [hles.resp]
    exact hles.granted.nonneg

theorem aged_obey (dep : Deployment) {Q : String → Except Code Item → Prop}
    {keep : World → HPtr → ℤ → Prop} (b : ℤ) (hQ : ∀ k it, Q k (.ok it) → mine k → it.Lasting)
    (hkeep : ∀ w h exp, keep w h exp → w.expiresAt h ≤ a → a < exp → w.tokens h ≤ 0) :
    Obeys dep (ageRegime dep Q) (aging dep Q mine keep) (Aged mine a b) where
  same {w w' gs} hs hi := by
    refine ⟨hs.tokens ▸ hi.nonneg, by rw [hs.replies, hs.time]; exact hi.replies,
      by rw [hs.replies, hs.time, hs.expiresAt]; exact hi.shares, ?_, hs.log ▸ hi.spent⟩
    rw [hs.time, hs.expiresAt, hs.tokens, hs.log, hs.replies]
    exact hi.book
  balance h hi := hi.nonneg h
  expiry _ _ := trivial
  spawn {w gs} slot hi := ⟨⟨w.time, .idle, [], [], [], slot⟩, rfl, rfl, hi.spawn (.fresh le_rfl slot) rfl⟩
  land hi hg := by
    have hs := hi.shares _ (List.mem_of_getElem? hg)
    exact hi.learn hg hs.idle hs.phase_nonneg
  clock edge ch hi hg hc := by
    have hv : ch.value = _ + 0 := hc.1.1 rfl
    have hs := hi.shares _ (List.mem_of_getElem? hg)
    exact ⟨trivial, hi.learn hg { hs with lo := max_le hs.lo (by linarith) } le_rfl⟩
  loadCur c hi hg := hi.learn hg { hi.shares _ (List.mem_of_getElem? hg) with } le_rfl
  newHeld {w gs t g} c win parentWin hi hg _ := by
    have hi' := hi.note (.create ⟨c, w.fresh, win, parentWin⟩ w.time) rfl rfl
    exact hi'.learn hg { hi.shares _ (List.mem_of_getElem? hg) with } le_rfl
  casCur _ _ hi _ _ := { hi with }
  storeTokens h v hi hv := by
    rw [min_eq_right hv]
    exact hi.drop h
  take h cost now exp ch hi hg hc h0 h1 _ := hi.take hg h0 h1 fun hm => hc.2.2.1 _ rfl hm rfl
  expire h hi _ := hi.drop h
  adjust _ _ _ _ _ hc := absurd hc id
  storeExpiry {w gs t g} h exp r resp lo ch hi hg hc hp hb halone :=
    hi.arm hg hp hb halone fun hm => hkeep w h exp (hc.2.2.2 (h, exp) rfl hm)
  deposit h exp r resp hi hg hp := hi.deposit hg hp
  withdraw {w gs t g} h hi hg := by
    have hi' := (hi.drop h).note (.withdraw h (w.tokens h)) rfl rfl
    exact hi'.learn hg { hi.shares _ (List.mem_of_getElem? hg) with } le_rfl
  send {w gs t g} edge r hb hi hg hp _ := by
    have hs := hi.shares g (List.mem_of_getElem? hg)
    have h0 : g.phase.leased mine a = 0 := by rw [hp]; rfl
    have hi' : Aged mine a b { w with calls := w.calls ++ [⟨edge, r⟩] } gs := { hi with }
    refine hi'.learn hg ⟨hs.lo, ?_, fun _ _ _ h => (by cases h), fun _ _ _ _ h => (by cases h)⟩ h0.ge
    rintro _ _ _ ⟨⟩
    exact ⟨hs.lo, fun rep hr hc => absurd (hb.replies rep hr).1 (by rw [hc]; exact lt_irrefl _)⟩
  receive call r lo i rep resp _ hi hg hp hrep hcall hr hbody := hi.receive hg hp hrep hcall hr hbody
  refused call r lo i rep code hi hg hp hrep _ _ hbody := by
    have hi' := hi.refused hrep hbody
    have hs := hi'.shares _ (List.mem_of_getElem? hg)
    exact hi'.learn hg hs.idle hs.phase_nonneg
  lost call r lo hi hg hp := by
    have hs := hi.shares _ (List.mem_of_getElem? hg)
    exact hi.learn hg hs.idle hs.phase_nonneg
  post {w gs t g} edge r hi hg _ := by
    have hi₁ : Aged mine a b { w with posts := w.posts ++ [⟨edge, r⟩] } gs := { hi with }
    have hi₂ := hi₁.note (.post r) rfl rfl
    exact hi₂.learn hg { hi.shares _ (List.mem_of_getElem? hg) with } le_rfl
  answer req res hi := hi.note _ rfl rfl
  reserved _ hi _ _ := { hi with }
  fitsAllow _ _ _ h := h.2.1
  fitsReserve _ _ _ h := absurd h.1.2 id
  tick {w gs} d hi hc := by
    have hd : 0 ≤ d := hc.1.1
    have ht : w.time ≤ w.time + d := by linarith
    refine ⟨hi.nonneg, fun rep hr => ?_, fun g hg => (hi.shares g hg).later ht fun _ h => .inl h,
      fun hb => hi.book (ht.trans hb), hi.spent⟩
    exact ⟨(hi.replies rep hr).1.trans ht, (hi.replies rep hr).2⟩
  settle _ _ _ _ _ h := absurd h.1.2 id
  serve i c now ord hb hi hc hcall := by
    have hn : now = _ := hc.1.1
    rw [hn]
    exact hi.serve hQ hb (List.mem_of_getElem? hcall) ord
  credit _ _ _ _ _ h := absurd h.1.2 id

theorem aged_init (time : ℤ) (m : Mem) : Aged mine a b (World.init time m) [] where
  nonneg _ := le_rfl
  replies := by simp [World.init]
  shares := by simp
  book _ := within_zero (by simp [aside, World.init, admittedIn, takes, leasedIn])
  spent := by simp [World.init, admittedIn, takes, leasedIn]

/-- What is admitted from `a` to `b` comes out of leases granted by `b` that last beyond `a`. -/
theorem admitted_le_leased {dep : Deployment} {Q : String → Except Code Item → Prop}
    {keep : World → HPtr → ℤ → Prop} {time : ℤ} {m : Mem} {acts : List EdgeAct} {p : Edges}
    (hQ : ∀ k it, Q k (.ok it) → mine k → it.Lasting)
    (hkeep : ∀ w h exp, keep w h exp → w.expiresAt h ≤ a → a < exp → w.tokens h ≤ 0)
    (ha : Along (Edges.step dep) (Pool.Meets (aging dep Q mine keep)) (Edges.init time m) acts)
    (hr : runAll (Edges.step dep) (Edges.init time m) acts = some p) (b : ℤ) :
    admittedIn mine a b p.shared.log ≤ leasedIn mine a b p.shared.log := by
  obtain ⟨gs, -, hi⟩ := (aged_obey dep b hQ hkeep).run (aged_init time m) ha hr
  exact hi.spent

end

/-! What holds of the ledger and the record alone. -/

def Event.isGrant : Event → Bool
  | .grant _ _ _ => true
  | _ => false

/-- Requests are as `Q` has them; nothing else is promised. -/
def ledgerRegime (dep : Deployment) (Q : String → Except Code Item → Prop) : Regime where
  fits req := Q (stateKey req) (dep.resolveRequest req)
  balance _ := True
  expiry _ _ := True
  reading _ := True
  charge _ := True
  fits_identity _ h := h
  fits_cost _ _ h := h

/-- A fact about the ledger and the leases on record has to survive the hub's answers only. -/
theorem ledger_obey {dep : Deployment} {Q : String → Except Code Item → Prop} {mine : String → Prop}
    {keep : World → HPtr → ℤ → Prop} {J : Mem → List Event → Prop}
    (hnote : ∀ m log e, e.isGrant = false → J m log → J m (e :: log))
    (hserve : ∀ {m log now r resp m' it args inp g}, Q r.stateKey (.ok it) →
      Leased dep.env dep.cfg r m now resp m' it args inp g → J m log → J m' (.grant r resp now :: log)) :
    Obeys dep (ledgerRegime dep Q) (aging dep Q mine keep) fun w _ => J w.ledger w.log where
  same hs hi := by
    rw [hs.ledger, hs.log]
    exact hi
  balance _ _ := trivial
  expiry _ _ := trivial
  spawn slot hi := ⟨⟨0, .idle, [], [], [], slot⟩, rfl, rfl, hi⟩
  land hi _ := hi
  clock _ _ hi _ _ := ⟨trivial, hi⟩
  loadCur _ hi _ := hi
  newHeld _ _ _ hi _ _ := hnote _ _ _ rfl hi
  casCur _ _ hi _ _ := hi
  storeTokens _ _ hi _ := hi
  take _ _ _ _ _ hi _ _ _ _ _ := hnote _ _ _ rfl hi
  expire _ hi _ := hi
  adjust _ _ _ hi _ _ _ _ _ := hnote _ _ _ rfl hi
  storeExpiry _ _ _ _ _ _ hi _ _ _ _ _ := hi
  deposit _ _ _ _ hi _ _ := hnote _ _ _ rfl hi
  withdraw _ hi _ := hnote _ _ _ rfl hi
  send _ _ _ hi _ _ _ := hi
  receive _ _ _ _ _ _ _ hi _ _ _ _ _ _ := hnote _ _ _ rfl hi
  refused _ _ _ _ _ _ hi _ _ _ _ _ _ := hi
  lost _ _ _ hi _ _ := hi
  post _ _ hi _ _ := hnote _ _ _ rfl hi
  answer _ _ hi := hnote _ _ _ rfl hi
  reserved _ hi _ _ := hi
  fitsAllow _ _ _ h := h.2.1
  fitsReserve _ _ _ h := absurd h.1.2 id
  tick _ hi _ := hi
  settle _ _ _ _ _ h := absurd h.1.2 id
  serve {w gs} i c now ord hb hi _ hcall := by
    obtain ⟨o, req, size, rate, hf, hbody⟩ := hb.calls c (List.mem_of_getElem? hcall)
    have hf' : Q c.body.stateKey (resolve dep.env dep.cfg c.body.scope c.body.serviceId c.body.apiKey
        c.body.limitId c.body.tierId c.body.org) := by
      rw [hbody]
      exact hf
    unfold World.serve
    rcases requestQuotaLease_cases dep.env dep.cfg (dep.cn c.edge) w.ledger ord now c.body with
      ⟨code, h⟩ | ⟨resp, m', it, args, inp, g, h, hles⟩
    · simp only [h]
      exact hi
    · simp only [h]
      exact hserve (hles.resolved ▸ hf') hles hi
  credit _ _ _ _ _ h := absurd h.1.2 id

end Gate
