import Gate.Sanity.LeaseBlocks

/-! The lease limiter in blocks. The methods are followed once, for any property of the state
that the effects of a block keep: a counter appears, a held is replaced, a balance expires,
is drawn on, charged or refilled, an answer arrives. `BlockInv.Sound` lists the effects. -/

namespace Gate

open Conc

/-- A property of the state, with its forms in the middle of a block. -/
structure BlockInv where
  /-- the requests an edge makes -/
  fits : ℕ → Request → Prop
  /-- the debt an adjustment of the counter may leave -/
  ticket : CPtr → ℤ → Prop
  holds : World → Prop
  /-- with the answer to a request in hand -/
  answered : CPtr → QuotaLeaseRequest → QuotaLeaseResponse → World → Prop
  /-- with a take from the held that is not yet reported -/
  taken : Request → HPtr → World → Prop

namespace BlockInv

variable (J : BlockInv)

/-- A request together with the counter it is charged to. -/
structure Charged (c : CPtr) (req : Request) (w : World) : Prop where
  fits : J.fits c.edge req
  key : c.key = stateKey req
  kept : w.Kept c

/-- A decision that may be adjusted later. -/
def Ticket (d : Decision) (w : World) : Prop := ∀ h, d.adj = some (.held h) → w.Kept h.c ∧ J.ticket h.c d.maxDebt

variable {J}

theorem Charged.grows {c : CPtr} {req : Request} {w w' : World} (h : J.Charged c req w) (hg : w.Grows w') :
    J.Charged c req w' := ⟨h.fits, h.key, h.kept.grows hg⟩

theorem Ticket.grows {d : Decision} {w w' : World} (h : J.Ticket d w) (hg : w.Grows w') : J.Ticket d w' :=
  fun x hx => ⟨(h x hx).1.grows hg, (h x hx).2⟩

end BlockInv

/-- The effects of a block on what is kept. -/
structure BlockInv.Sound {C E : Type} (J : BlockInv) (cond : Pool.Cond Instr World C E) : Prop where
  fits_cost : ∀ {edge req} n, J.fits edge req → J.fits edge { req with cost := n }
  ticketed : ∀ {c : CPtr} {req : Request}, J.fits c.edge req → c.key = stateKey req → 0 < req.cost →
    J.ticket c (if req.maxDebt ≤ 0 then req.cost else req.maxDebt)
  cur_c : ∀ {w} c, J.holds w → (w.cur c).c = c
  alike : ∀ {w w'}, J.holds w → w.Alike w' → J.holds w'
  answered_alike : ∀ {c r resp w w'}, J.answered c r resp w → w.Alike w' → J.answered c r resp w'
  taken_alike : ∀ {req h w w'}, J.taken req h w → w.Alike w' → J.taken req h w'
  counter : ∀ {w edge req} n, J.holds w → J.fits edge req → w.findCounter edge (stateKey req) = none →
    J.holds (w.addCounter ⟨edge, w.fresh, req.identity⟩ n)
  reset : ∀ {w c} parentWin, J.holds w → w.Kept c → J.holds (w.installed c (w.cur c).win parentWin)
  expire : ∀ {w c}, J.holds w → w.Kept c → 0 < w.tokens (w.cur c) → J.holds (w.setTokens (w.cur c) 0)
  take : ∀ {w c req} t exp, J.holds w → J.Charged c req w → 0 < req.cost → req.cost ≤ w.tokens (w.cur c) →
    (fixedWindow req = true → w.cells (.consumed (w.cur c)) + req.cost ≤ req.limit) →
    J.taken req (w.cur c) (w.drawn (w.cur c) req.cost t exp)
  untaken : ∀ {req h w}, J.taken req h w → J.holds w
  reported : ∀ {w h req d}, J.taken { req with cost := max req.cost 1 } h w → d.allowed = true → d.window = h.win →
    J.holds (w.record (.answer req (.ok d)))
  deny : ∀ {w res} req, J.holds w → (∀ d, res = .ok d → d.allowed = false) → J.holds (w.record (.answer req res))
  send : ∀ {w : World} {edge req} o size rate, J.holds w → J.fits edge req →
    J.holds { w with calls := w.calls ++ [⟨edge, Lease.leaseRequest o req size rate⟩] }
  refuse : ∀ {w : World} i, J.holds w → J.holds { w with replies := w.replies.eraseIdx i }
  receive : ∀ {w c req i rep resp o size rate}, J.holds w → J.Charged c req w → w.replies[i]? = some rep →
    rep.req = Lease.leaseRequest o req size rate → rep.body = .ok resp → J.answered c rep.req resp (w.receive i rep.req (.ok resp))
  roll : ∀ {w c r resp}, J.answered c r resp w → w.Kept c → (w.cur c).win < resp.windowId →
    J.answered c r resp (w.installed c resp.windowId resp.parentWindowId)
  drop : ∀ {w c r resp}, J.answered c r resp w → J.holds w
  deposit : ∀ {w c r resp ch}, J.answered c r resp w → w.Kept c → 0 < resp.grantedTokens →
    (0 < resp.expiresInMs ∨ 0 < resp.resetInMs → (w.cur c).win = resp.windowId) →
    cond.instr (.addTokens (w.cur c) resp.grantedTokens) ch w → J.holds (w.deposited (w.cur c) resp.grantedTokens)

/-- The goroutines an edge starts. -/
inductive Starting (dep : Deployment) (J : BlockInv) : Proc Unit → World → Prop where
  | flight {w : World} {c : CPtr} {req : Request} (fuel id : ℕ) (h : J.Charged c req w) :
    Starting dep J (Lease.flight (dep.lease c.edge) fuel id c req) w
  | renewal {w : World} {c : CPtr} {req : Request} (h : J.Charged c req w) : Starting dep J (Lease.renewal c req) w
  | allow {w : World} {edge : ℕ} {req : Request} (fuel : ℕ) (h : J.fits edge req) : Starting dep J (allowThread dep edge fuel req) w

/-- The logic follows edges in blocks, and keeps `J`. -/
structure InBlocks {E : Type} (dep : Deployment) (J : BlockInv) (B : BlockLogic Instr.Answer World Choice E) : Prop where
  exec : B.sem.exec = execInstr dep
  waits : B.waits = Instr.waits
  inv : B.Inv = J.holds
  later : B.Later = World.Grows
  starts : ∀ th w, Starting dep J th w → B.Starts th w
  sound : J.Sound B.cond

section Follow

variable {E : Type} {dep : Deployment} {J : BlockInv} {B : BlockLogic Instr.Answer World Choice E} {w : World}

theorem InBlocks.runs (hb : InBlocks dep J B) : Runs dep (fun c => c) B := by
  refine ⟨fun i c w _ => by rw [hb.exec], fun i hi => ?_, hb.later⟩
  rw [hb.waits]
  cases i with
  | doChan | await | receive | attempt | goRenew => cases hi
  | _ => rfl

/-- An instruction at which a goroutine waits. -/
theorem InBlocks.wait (hb : InBlocks dep J B) {i : Instr} (hi : i.waits = true) {Q : i.Answer → World → Prop} (hw : J.holds w)
    (h : ∀ w₁ c r w' new, J.holds w₁ → w.Grows w₁ → execInstr dep i c w₁ = some (r, w', new) →
      w₁.Grows w' ∧ new = [] ∧ Q r w') : B.wp (Prog.exec i) Q w := by
  rw [BlockLogic.wp_wait (by rw [hb.waits]; exact hi), hb.inv, hb.later]
  refine ⟨hw, fun w₁ hw₁ hg c r w' new _ hx => ?_⟩
  rw [hb.exec] at hx
  obtain ⟨hg', rfl, hQ⟩ := h w₁ c r w' new hw₁ hg hx
  exact ⟨hb.later ▸ hg', fun _ hm => (nomatch hm), hQ⟩

theorem InBlocks.await (hb : InBlocks dep J B) {id : ℕ} {Q : Except LimitErr ℤ → World → Prop} (hw : J.holds w)
    (h : ∀ res w', J.holds w' → w.Grows w' → Q res w') : B.wp (await id) Q w := by
  refine hb.wait rfl hw fun w₁ c r w' new hw₁ hg hx => ?_
  simp only [execInstr] at hx
  split at hx
  · obtain ⟨res, -, he⟩ := Option.map_eq_some_iff.mp hx
    cases he
    exact ⟨.refl _, rfl, h _ _ hw₁ hg⟩
  · cases hx
    exact ⟨.refl _, rfl, h _ _ hw₁ hg⟩

theorem InBlocks.doChan (hb : InBlocks dep J B) {c : CPtr} {req : Request} {Q : ℕ → World → Prop} (hc : J.Charged c req w)
    (h : ∀ id w', w.Alike w' → Q id w') : B.wp (doChan c req) Q w := by
  have hwait : B.waits (.doChan c req) = false := by
    rw [hb.waits]
    rfl
  refine (BlockLogic.wp_exec hwait Q w).mpr fun ch r w' new _ hx => ?_
  rw [hb.exec] at hx
  simp only [execInstr] at hx
  rw [hb.later]
  split at hx
  · cases hx
    exact ⟨.refl w, fun _ hm => absurd hm List.not_mem_nil, h _ _ (.refl w)⟩
  · cases hx
    have ha : w.Alike (w.addFlight ⟨w.fresh, c.edge, c.key⟩) :=
      ⟨rfl, rfl, rfl, fun _ => rfl, rfl, rfl, rfl, rfl, rfl, Nat.le_succ _⟩
    refine ⟨ha.grows, fun th hm => ?_, h _ _ ha⟩
    rw [List.mem_singleton.mp hm]
    exact hb.starts _ _ (.flight _ _ (hc.grows ha.grows))

theorem InBlocks.goRenew (hb : InBlocks dep J B) {c : CPtr} {req : Request} {Q : Unit → World → Prop} (hc : J.Charged c req w)
    (h : Q () w) : B.wp (goRenew c req) Q w := by
  have hwait : B.waits (.goRenew c req) = false := by
    rw [hb.waits]
    rfl
  refine (BlockLogic.wp_exec hwait Q w).mpr fun ch r w' new _ hx => ?_
  rw [hb.exec] at hx
  cases hx
  refine ⟨hb.later ▸ .refl w, fun th hm => ?_, h⟩
  rw [List.mem_singleton.mp hm]
  exact hb.starts _ _ (.renewal hc)

/-- A program that leaves the balances and the books alone keeps what is kept. -/
theorem InBlocks.still (hb : InBlocks dep J B) {α : Type} {p : Proc α} {A : α → Prop}
    (hp : p.Within (fun i => i.quiet = true) A) (hw : J.holds w) {Q : α → World → Prop}
    (h : ∀ a w', J.holds w' → w.Grows w' → A a → Q a w') : B.wp p Q w :=
  hb.runs.quiet hp fun a w' ha hA => h a w' (hb.sound.alike hw ha) ha.grows hA

theorem InBlocks.reset (hb : InBlocks dep J B) (fuel : ℕ) {c : CPtr} (req : Request) (now : ℤ) (hw : J.holds w) (hk : w.Kept c)
    {Q : Unit → World → Prop} (h : ∀ w', J.holds w' → w.Grows w' → Q () w') : B.wp (Lease.reset fuel c req now) Q w := by
  have hr := hb.runs
  unfold Lease.reset
  rw [BlockLogic.wp_bind]
  refine hr.load ?_
  split
  · exact h w hw (.refl w)
  · rw [BlockLogic.wp_bind]
    refine hr.cas rfl ?_
    rw [if_pos rfl, BlockLogic.wp_bind]
    refine hr.store ?_
    have ha : w.Alike ((w.setCell (.resetAt c) 0).setCell (.retryAt c) 0) := (w.alike_setCell rfl _).trans (World.alike_setCell _ rfl _)
    generalize hw₁ : (w.setCell (.resetAt c) 0).setCell (.retryAt c) 0 = w₁ at ha ⊢
    have h₁ := hb.sound.alike hw ha
    split
    · exact h w₁ h₁ ha.grows
    · rw [BlockLogic.wp_bind]
      refine hr.loadCur ?_
      rw [BlockLogic.wp_bind]
      refine hr.install fuel rfl ?_
      refine hr.store ?_
      have h₂ := hb.sound.reset (w₁.cur c).parentWin h₁ (hk.grows ha.grows)
      have ha₂ := World.alike_setCell (w₁.installed c (w₁.cur c).win (w₁.cur c).parentWin) (x := .hubRemaining c) rfl 0
      exact h _ (hb.sound.alike h₂ ha₂) ((ha.grows.trans (w₁.grows_installed _ _ _)).trans ha₂.grows)

theorem InBlocks.overLimit (hb : InBlocks dep J B) {req : Request} {x : HPtr} {Q : Bool → World → Prop}
    (h : ∀ b, (b = false → fixedWindow req = true → w.cells (.consumed x) + req.cost ≤ req.limit) → Q b w) :
    B.wp (Lease.overLimit req x) Q w := by
  unfold Lease.overLimit
  split
  · rw [BlockLogic.wp_bind]
    refine hb.runs.load (h _ fun hd _ => ?_)
    simpa using hd
  · rename_i hf
    exact h _ fun _ hf' => absurd hf' hf

theorem InBlocks.take (hb : InBlocks dep J B) (fuel : ℕ) {c : CPtr} {x : HPtr} (hx : w.cur c = x) {cost : ℤ} (t : ℤ)
    (hw : J.holds w) (hk : w.Kept c) {Q : ℤ → World → Prop} (hmiss : ∀ w', J.holds w' → w.Grows w' → Q (-1) w')
    (htake : ∀ exp, cost ≤ w.tokens x →
      Q (w.tokens x - cost) (w.casTokens x (w.tokens x) (w.tokens x - cost) (.take cost t exp))) :
    B.wp (Lease.take fuel x cost t) Q w := by
  have hr := hb.runs
  unfold Lease.take
  rw [BlockLogic.wp_bind]
  refine hr.loadExpiry ?_
  split
  · cases fuel with
    | zero => trivial
    | succ fuel =>
      unfold Lease.dropExpired
      rw [BlockLogic.wp_bind]
      refine hr.loadTokens ?_
      split
      · exact hmiss w hw (.refl w)
      · rename_i hpos
        rw [BlockLogic.wp_bind]
        refine hr.casTokens rfl ?_
        subst hx
        exact hmiss _ (hb.sound.expire hw hk (by omega)) (World.grows_same rfl rfl)
  · cases fuel with
    | zero => trivial
    | succ fuel =>
      unfold Lease.spend
      rw [BlockLogic.wp_bind]
      refine hr.loadTokens ?_
      split
      · exact hmiss w hw (.refl w)
      · rename_i hle
        rw [BlockLogic.wp_bind]
        refine hr.casTokens rfl ?_
        exact htake _ (by omega)

theorem InBlocks.fetch (hb : InBlocks dep J B) {c : CPtr} {req : Request} (hw : J.holds w) (hc : J.Charged c req w)
    {Q : Except LimitErr ℤ → World → Prop} (h : ∀ res w', J.holds w' → w.Grows w' → Q res w') :
    B.wp (Lease.fetch c req) Q w := by
  have hr := hb.runs
  unfold Lease.fetch
  rw [BlockLogic.wp_bind]
  refine hr.clock fun now => ?_
  rw [BlockLogic.wp_bind]
  refine hr.load ?_
  split
  · exact h _ w hw (.refl w)
  · rw [BlockLogic.wp_bind]
    refine hb.doChan hc fun id w₁ ha => ?_
    exact hb.await (hb.sound.alike hw ha) fun res w' hw' hg => h res w' hw' (ha.grows.trans hg)

/-- A take that `Allow` has yet to count. -/
def BlockInv.Spent (J : BlockInv) (c : CPtr) (req : Request) (x : HPtr) (w' : World) : Prop :=
  ∃ (w : World) (t exp : ℤ), J.holds w ∧ J.Charged c req w ∧ w.cur c = x ∧ req.cost ≤ w.tokens x ∧
    (fixedWindow req = true → w.cells (.consumed x) + req.cost ≤ req.limit) ∧
    w' = w.casTokens x (w.tokens x) (w.tokens x - req.cost) (.take req.cost t exp)

/-- Where the loop of `Allow` stands: it has taken, or has too few tokens. -/
def BlockInv.Refilled (J : BlockInv) (c : CPtr) (req : Request) (x : HPtr) (left : ℤ) (w : World) : Prop :=
  (left < 0 ∧ J.holds w) ∨ (0 ≤ left ∧ J.Spent c req x w)

theorem InBlocks.takeRefilled (hb : InBlocks dep J B) (fuel : ℕ) {c : CPtr} {req : Request} (t : ℤ) (hw : J.holds w)
    (hc : J.Charged c req w) (hguard : fixedWindow req = true → w.cells (.consumed (w.cur c)) + req.cost ≤ req.limit)
    {Q : ℤ → World → Prop} (h : ∀ left w', J.Refilled c req (w.cur c) left w' → w.Grows w' → Q left w') :
    B.wp (Lease.take fuel (w.cur c) req.cost t) Q w := by
  refine hb.take fuel rfl t hw hc.kept (fun w' hw' hg => h _ w' (.inl ⟨by decide, hw'⟩) hg) fun exp hle => ?_
  exact h _ _ (.inr ⟨by omega, w, t, exp, hw, hc, rfl, hle, hguard, rfl⟩) (World.grows_same rfl rfl)

theorem InBlocks.refill (hb : InBlocks dep J B) (fuel : ℕ) {c : CPtr} {req : Request} (n : ℕ) (x : HPtr) (left : ℤ)
    (hx : J.Refilled c req x left w) (hc : J.Charged c req w) {Q : Except LimitErr (HPtr × ℤ) → World → Prop}
    (herr : ∀ e w', J.holds w' → w.Grows w' → Q (.error e) w')
    (hok : ∀ x left w', J.Refilled c req x left w' → w.Grows w' → Q (.ok (x, left)) w') :
    B.wp (Lease.refill fuel c req n x left) Q w := by
  have hr := hb.runs
  -- turn by turn: before a turn the loop has taken or has too few tokens
  induction n generalizing w x left with
  | zero => exact hok x left w hx (.refl w)
  | succ n ih =>
    unfold Lease.refill
    rcases hx with ⟨hleft, hw⟩ | ⟨hleft, hs⟩
    · rw [if_neg (by omega), BlockLogic.wp_bind]
      refine hb.fetch hw hc fun res w₁ hw₁ hg₁ => ?_
      cases res with
      | error e => exact herr e w₁ hw₁ hg₁
      | ok granted =>
        dsimp only
        split
        · exact hok x left w₁ (.inl ⟨hleft, hw₁⟩) hg₁
        · rw [BlockLogic.wp_bind]
          refine hr.loadCur ?_
          rw [BlockLogic.wp_bind]
          refine hb.overLimit fun b hguard => ?_
          split
          · exact hok _ left w₁ (.inl ⟨hleft, hw₁⟩) hg₁
          · rename_i hb'
            rw [BlockLogic.wp_bind]
            refine hr.clock fun t => ?_
            rw [BlockLogic.wp_bind]
            refine hb.takeRefilled fuel t hw₁ (hc.grows hg₁) (hguard (by simpa using hb')) fun left' w₂ hx₂ hg₂ => ?_
            exact ih _ left' hx₂ (hc.grows (hg₁.trans hg₂)) (fun e w' hw' hg => herr e w' hw' ((hg₁.trans hg₂).trans hg))
              fun x' l w' hx' hg => hok x' l w' hx' ((hg₁.trans hg₂).trans hg)
    · rw [if_pos hleft]
      exact hok x left w (.inr ⟨hleft, hs⟩) (.refl w)

theorem InBlocks.renewIfLow (hb : InBlocks dep J B) (o : LeaseOptions) {c : CPtr} {req : Request} (x : HPtr) (now left : ℤ)
    (hc : J.Charged c req w) {Q : Unit → World → Prop} (h : ∀ w', w.Alike w' → Q () w') :
    B.wp (Lease.renewIfLow o c req x now left) Q w := by
  have hr := hb.runs
  unfold Lease.renewIfLow
  rw [BlockLogic.wp_bind]
  refine hr.load ?_
  rw [BlockLogic.wp_bind]
  refine hr.loadExpiry ?_
  rw [BlockLogic.wp_bind]
  refine hr.load ?_
  dsimp only
  split
  · unfold Lease.renew
    rw [BlockLogic.wp_bind]
    refine hr.load ?_
    split
    · exact h w (.refl w)
    · rw [BlockLogic.wp_bind]
      refine hr.quietStep rfl fun b w' ha => ?_
      split
      · exact hb.goRenew (hc.grows ha.grows) (h w' ha)
      · exact h w' ha
  · exact h w (.refl w)

/-- What `Allow` has done when it returns. -/
def BlockInv.Answer (J : BlockInv) (c : CPtr) (req : Request) (res : Except LimitErr Decision) (w : World) : Prop :=
  ((∀ d, res = .ok d → d.allowed = false ∧ d.adj = none) ∧ J.holds w) ∨
    ∃ d x, res = .ok d ∧ d.allowed = true ∧ d.adj = some (.held x) ∧ x.c = c ∧ d.window = x.win ∧
      d.maxDebt = (if req.maxDebt ≤ 0 then req.cost else req.maxDebt) ∧ J.taken req x w

theorem InBlocks.admitted (hb : InBlocks dep J B) (o : LeaseOptions) {c : CPtr} {req : Request} {x : HPtr} (now left : ℤ)
    (d : Decision) (hcost : 0 < req.cost) (hs : J.Spent c req x w) {Q : Decision → World → Prop}
    (h : ∀ d w', J.Answer c req (.ok d) w' → w.Grows w' → Q d w') : B.wp (Lease.admitted o c req x now left d) Q w := by
  have hr := hb.runs
  obtain ⟨w₀, t, exp, hw₀, hc₀, rfl, hle, hguard, rfl⟩ := hs
  have htaken := hb.sound.take t exp hw₀ hc₀ hcost hle hguard
  unfold Lease.admitted
  rw [BlockLogic.wp_bind]
  refine hr.add ?_
  rw [BlockLogic.wp_bind]
  refine hr.add ?_
  have ha := World.alike_setCell (w₀.drawn (w₀.cur c) req.cost t exp) (x := .spent c) rfl
    ((w₀.drawn (w₀.cur c) req.cost t exp).cells (.spent c) + req.cost)
  have hc : J.Charged c req _ := hc₀.grows ((World.grows_drawn w₀ (w₀.cur c) req.cost t exp).trans ha.grows)
  rw [BlockLogic.wp_bind]
  refine hb.renewIfLow o _ now left hc fun w₁ ha₁ => ?_
  rw [BlockLogic.wp_bind]
  have hquiet : Quietly (Lease.resetTime c req now) := (quietly_exec rfl).bind fun _ => quietly_pure _
  refine hr.quiet hquiet fun resetAt w₂ ha₂ _ => ?_
  rw [BlockLogic.wp_bind]
  refine hr.load ?_
  refine h _ w₂ (.inr ⟨_, _, rfl, rfl, rfl, hb.sound.cur_c c hw₀, rfl, rfl, ?_⟩) ?_
  · exact hb.sound.taken_alike (hb.sound.taken_alike (hb.sound.taken_alike htaken ha) ha₁) ha₂
  · refine World.Grows.trans ?_ ((ha₁.trans ha₂).grows)
    exact World.grows_same rfl rfl

theorem InBlocks.allowOn (hb : InBlocks dep J B) (o : LeaseOptions) (fuel : ℕ) {c : CPtr} {req : Request} (now : ℤ)
    (hcost : 0 < req.cost) (hw : J.holds w) (hc : J.Charged c req w) {Q : Except LimitErr Decision → World → Prop}
    (h : ∀ res w', J.Answer c req res w' → w.Grows w' → Q res w') : B.wp (Lease.allowOn o fuel c req now) Q w := by
  have hr := hb.runs
  have hnone : ∀ {d : Decision} {w'}, d.allowed = false → d.adj = none → J.holds w' → w.Grows w' → Q (.ok d) w' :=
    fun {d w'} hd ha hw' hg => h _ w' (.inl ⟨fun d' he => by cases he; exact ⟨hd, ha⟩, hw'⟩) hg
  unfold Lease.allowOn
  rw [BlockLogic.wp_bind]
  refine hr.store ?_
  have ha := w.alike_setCell (x := .lastSeen c) rfl now
  rw [BlockLogic.wp_bind]
  refine hb.reset fuel req now (hb.sound.alike hw ha) (hc.kept.grows ha.grows) fun w₁ hw₁ hg₁ => ?_
  replace hg₁ := ha.grows.trans hg₁
  rw [BlockLogic.wp_bind]
  have hresetTime : Quietly (Lease.resetTime c req now) := (quietly_exec rfl).bind fun _ => quietly_pure _
  refine hb.still hresetTime hw₁ fun resetAt w₂ hw₂ hg₂ _ => ?_
  replace hg₂ := hg₁.trans hg₂
  dsimp only
  rw [BlockLogic.wp_bind]
  have hwaiting : Quietly (Lease.waiting c now) := by
    refine (quietly_load _).bind fun retryAt => ?_
    refine quietly_ite (quietly_ite (quietly_pure _) ?_) (quietly_pure _)
    exact (quietly_exec rfl).bind fun _ => quietly_pure _
  refine hb.still hwaiting hw₂ fun wait w₃ hw₃ hg₃ _ => ?_
  replace hg₃ := hg₂.trans hg₃
  rw [BlockLogic.wp_bind]
  refine hr.loadCur ?_
  rw [BlockLogic.wp_bind]
  refine hb.overLimit fun b hguard => ?_
  split
  · exact hnone rfl rfl hw₃ hg₃
  · rename_i hb'
    rw [BlockLogic.wp_bind]
    refine hb.takeRefilled fuel now hw₃ (hc.grows hg₃) (hguard (by simpa using hb')) fun left w₄ hx₄ hg₄ => ?_
    replace hg₄ := hg₃.trans hg₄
    rw [BlockLogic.wp_bind]
    refine hb.refill fuel _ _ left hx₄ (hc.grows hg₄) (fun e w' hw' hg => ?_) fun x left' w₅ hx₅ hg₅ => ?_
    · exact h _ w' (.inl ⟨fun d he => (nomatch he), hw'⟩) (hg₄.trans hg)
    · replace hg₅ := hg₄.trans hg₅
      dsimp only
      rcases hx₅ with ⟨hleft, hw₅⟩ | ⟨hleft, hs⟩
      · rw [if_pos hleft, BlockLogic.wp_bind]
        have hdenied : ∀ d : Decision, d.allowed = false → d.adj = none →
            (Lease.denied c req now d).Within (fun i => i.quiet = true) fun d' => d'.allowed = false ∧ d'.adj = none :=
          fun d hd ha => ⟨rfl, fun _ => ⟨rfl, fun _ => ⟨hd, ha⟩⟩⟩
        exact hb.still (hdenied _ rfl rfl) hw₅ fun d w' hw' hg hd => hnone hd.1 hd.2 hw' (hg₅.trans hg)
      · rw [if_neg (by omega), BlockLogic.wp_bind]
        exact hb.admitted o now left' _ hcost hs fun d w' hd hg => h _ w' hd (hg₅.trans hg)

theorem InBlocks.counter (hb : InBlocks dep J B) (o : LeaseOptions) {edge : ℕ} {req : Request} (hw : J.holds w)
    (hf : J.fits edge req) {Q : CPtr → World → Prop}
    (h : ∀ c w', J.holds w' → J.Charged c req w' → w.Grows w' → Q c w') : B.wp (Lease.counter o edge req) Q w := by
  have hr := hb.runs
  have hget : ∀ {Q : CPtr → World → Prop}, (∀ c w', J.holds w' → J.Charged c req w' → w.Grows w' → Q c w') →
      B.wp (getCounter edge o.leaseSize req) Q w := by
    intro Q h
    refine hr.step (i := .counter edge o.leaseSize req) rfl fun _ _ w' new _ hx => ?_
    simp only [execInstr] at hx
    split at hx
    · rename_i hfind
      cases hx
      obtain ⟨hk, he, hkey⟩ := World.kept_of_findCounter hfind
      exact ⟨.refl w, rfl, h _ w hw ⟨he ▸ hf, hkey, hk⟩ (.refl w)⟩
    · rename_i hfind
      cases hx
      have hg := w.grows_addCounter ⟨edge, w.fresh, req.identity⟩ o.leaseSize
      exact ⟨hg, rfl, h _ _ (hb.sound.counter _ hw hf hfind) ⟨hf, rfl, World.kept_addCounter hfind _⟩ hg⟩
  unfold Lease.counter
  rw [BlockLogic.wp_bind]
  refine hget fun c w₁ hw₁ hc hg => ?_
  exact hr.storeIf rfl fun w' ha => h c w' (hb.sound.alike hw₁ ha) (hc.grows ha.grows) (hg.trans ha.grows)

theorem InBlocks.allow (hb : InBlocks dep J B) (o : LeaseOptions) (edge fuel : ℕ) {req : Request} (hw : J.holds w)
    (hf : J.fits edge req) {Q : Except LimitErr Decision → World → Prop}
    (h : ∀ c res w', J.Charged c { req with cost := max req.cost 1 } w' →
      J.Answer c { req with cost := max req.cost 1 } res w' → w.Grows w' → Q res w') :
    B.wp (Lease.allow o edge fuel req) Q w := by
  unfold Lease.allow
  dsimp only
  rw [BlockLogic.wp_bind]
  refine hb.runs.clock fun now => ?_
  rw [BlockLogic.wp_bind]
  refine hb.counter o hw (hb.sound.fits_cost _ hf) fun c w₁ hw₁ hc hg => ?_
  refine hb.allowOn o fuel now (lt_of_lt_of_le one_pos (le_max_right _ _)) hw₁ hc fun res w' ha hg' => ?_
  exact h c res w' (hc.grows hg') ha (hg.trans hg')

theorem InBlocks.allowThread (hb : InBlocks dep J B) (edge fuel : ℕ) {req : Request} (hw : J.holds w) (hf : J.fits edge req) :
    B.wp (allowThread dep edge fuel req) (fun _ => B.Inv) w := by
  unfold Gate.allowThread
  rw [BlockLogic.wp_bind]
  refine hb.allow _ edge fuel hw hf fun c res w' hc ha _ => hb.runs.answered ?_
  rw [hb.inv]
  rcases ha with ⟨hd, hw'⟩ | ⟨d, x, rfl, hd, -, -, hwin, -, htaken⟩
  · exact hb.sound.deny req hw' fun d he => (hd d he).1
  · exact hb.sound.reported htaken hd hwin

theorem InBlocks.renewal (hb : InBlocks dep J B) {c : CPtr} {req : Request} (hw : J.holds w) (hc : J.Charged c req w) :
    B.wp (Lease.renewal c req) (fun _ => B.Inv) w := by
  unfold Lease.renewal
  rw [BlockLogic.wp_bind]
  refine hb.fetch hw hc fun res w₁ hw₁ _ => hb.runs.store ?_
  rw [hb.inv]
  exact hb.sound.alike hw₁ (w₁.alike_setCell rfl _)

/-! Answers. -/

theorem InBlocks.acceptTokens (hb : InBlocks dep J B) (o : LeaseOptions) {c : CPtr} {x : HPtr} (hx : w.cur c = x) (sentMs : ℤ)
    {r : QuotaLeaseRequest} {resp : QuotaLeaseResponse} (ha : J.answered c r resp w) (hk : w.Kept c)
    (hwin : 0 < resp.expiresInMs ∨ 0 < resp.resetInMs → x.win = resp.windowId) {Q : ℤ → World → Prop}
    (h : ∀ n w', J.holds w' → w.Grows w' → Q n w') : B.wp (Lease.acceptTokens o c x sentMs resp) Q w := by
  have hr := hb.runs
  have hs := hb.sound
  unfold Lease.acceptTokens
  rw [BlockLogic.wp_bind]
  refine hr.store ?_
  have h₁ := w.alike_setCell (x := .hubRemaining c) rfl resp.remainingGlobal
  have ha₁ := hs.answered_alike ha h₁
  split
  · refine hr.quiet (A := fun _ => True) ?_ fun n w' ha' _ =>
      h n w' (hs.drop (hs.answered_alike ha₁ ha')) (h₁.trans ha').grows
    exact (quietly_exec rfl).bind fun _ => (quietly_exec rfl).bind fun _ => (quietly_exec rfl).bind fun _ => quietly_pure _
  · split
    · exact h _ _ (hs.drop ha₁) h₁.grows
    · rename_i hpos
      rw [BlockLogic.wp_bind]
      have hexpiry : Quietly (Lease.expiry o c sentMs resp) :=
        quietly_ite (quietly_pure _) ((quietly_exec rfl).bind fun _ => (quietly_exec rfl).bind fun _ => quietly_pure _)
      refine hr.quiet hexpiry fun exp w₂ h₂ _ => ?_
      rw [BlockLogic.wp_bind]
      refine hr.quietStep rfl fun _ w₃ h₃ => ?_
      have h₁₃ := (h₁.trans h₂).trans h₃
      have ha₃ := hs.answered_alike (hs.answered_alike ha₁ h₂) h₃
      have hx₃ : w₃.cur c = x := by rw [h₁₃.cur, hx]
      rw [BlockLogic.wp_bind]
      refine hr.addTokens fun ch hch => ?_
      subst hx₃
      have hdep := hs.deposit ha₃ (hk.grows h₁₃.grows) (by omega) hwin hch
      rw [BlockLogic.wp_bind]
      refine hr.store ?_
      have h₄ := (w₃.deposited (w₃.cur c) resp.grantedTokens).alike_setCell (x := .lastGrant c) rfl resp.grantedTokens
      refine h _ _ (hs.alike hdep h₄) (h₁₃.grows.trans ?_)
      exact World.grows_same rfl rfl

theorem InBlocks.acceptWindow (hb : InBlocks dep J B) (o : LeaseOptions) {c : CPtr} {x : HPtr} (hx : w.cur c = x) (sentMs : ℤ)
    {r : QuotaLeaseRequest} {resp : QuotaLeaseResponse} (ha : J.answered c r resp w) (hk : w.Kept c)
    (hwin : x.win = resp.windowId) {Q : ℤ → World → Prop} (h : ∀ n w', J.holds w' → w.Grows w' → Q n w') :
    B.wp (Lease.acceptWindow o c x sentMs resp) Q w := by
  unfold Lease.acceptWindow
  refine hb.runs.storeIf rfl fun w₁ h₁ => ?_
  refine hb.acceptTokens o (by rw [h₁.cur, hx]) sentMs (hb.sound.answered_alike ha h₁) (hk.grows h₁.grows) (fun _ => hwin) ?_
  exact fun n w' hw' hg => h n w' hw' (h₁.grows.trans hg)

theorem InBlocks.accept (hb : InBlocks dep J B) (o : LeaseOptions) (fuel : ℕ) {c : CPtr} (req : Request) (sentMs : ℤ)
    {r : QuotaLeaseRequest} {resp : QuotaLeaseResponse} (ha : J.answered c r resp w) (hk : w.Kept c)
    {Q : ℤ → World → Prop} (h : ∀ n w', J.holds w' → w.Grows w' → Q n w') : B.wp (Lease.accept o fuel c req sentMs resp) Q w := by
  have hr := hb.runs
  unfold Lease.accept
  rw [BlockLogic.wp_bind]
  refine hr.loadCur ?_
  split
  · split
    · exact h _ w (hb.sound.drop ha) (.refl w)
    · split
      · rename_i hlt
        rw [BlockLogic.wp_bind]
        refine hr.install fuel rfl ?_
        have hg := w.grows_installed c resp.windowId resp.parentWindowId
        rw [if_neg (by simp)]
        exact hb.acceptWindow o (Function.update_self _ _ _) sentMs (hb.sound.roll ha hk hlt) (hk.grows hg) rfl
          fun n w' hw' hg' => h n w' hw' (hg.trans hg')
      · exact hb.acceptWindow o rfl sentMs ha hk (by omega) h
  · rename_i hold
    split
    · exact hb.acceptTokens o rfl sentMs ha hk (fun hc => absurd hc hold) h
    · rename_i stop _
      rw [BlockLogic.wp_bind]
      refine hr.load ?_
      refine hr.storeIf rfl fun w₁ h₁ => ?_
      exact hb.acceptTokens o (by rw [h₁.cur]) sentMs (hb.sound.answered_alike ha h₁) (hk.grows h₁.grows)
        (fun hc => absurd hc hold) fun n w' hw' hg => h n w' hw' (h₁.grows.trans hg)

theorem InBlocks.flight (hb : InBlocks dep J B) (o : LeaseOptions) (fuel id : ℕ) {c : CPtr} {req : Request} (hw : J.holds w)
    (hc : J.Charged c req w) : B.wp (Lease.flight o fuel id c req) (fun _ => B.Inv) w := by
  have hr := hb.runs
  have hs := hb.sound
  unfold Lease.flight
  rw [BlockLogic.wp_bind]
  refine hr.clock fun sentMs => ?_
  rw [BlockLogic.wp_bind]
  refine hr.load ?_
  rw [BlockLogic.wp_bind]
  have hobserve : Quietly (Lease.observe c sentMs) := by
    refine (quietly_loadRate c).bind fun rate => (quietly_load _).bind fun last => quietly_ite ?_ (quietly_ite (quietly_pure _) ?_)
    · exact (quietly_exec rfl).bind fun _ => (quietly_exec rfl).bind fun _ => quietly_pure _
    · exact (quietly_exec rfl).bind fun _ => (quietly_exec rfl).bind fun _ => (quietly_exec rfl).bind fun _ => quietly_pure _
  refine hb.still hobserve hw fun rate w₁ hw₁ hg₁ _ => ?_
  rw [BlockLogic.wp_bind]
  refine hr.send ?_
  have hw₂ := hs.send o (w.cells (.leaseSize c)) rate hw₁ hc.fits
  have hg₂ : w₁.Grows { w₁ with calls := w₁.calls ++ [⟨c.edge, Lease.leaseRequest o req (w.cells (.leaseSize c)) rate⟩] } :=
    World.grows_same rfl rfl
  rw [BlockLogic.wp_bind]
  refine hb.wait rfl hw₂ fun w₃ ch r w₄ new hw₃ hg₃ hx => ?_
  have hc₃ := hc.grows ((hg₁.trans hg₂).trans hg₃)
  have hland : ∀ {res : Except LimitErr ℤ} {w'}, J.holds w' → B.wp (Gate.land id c res) (fun _ => B.Inv) w' := by
    intro res w' hw'
    refine hr.quietStep rfl fun _ w'' ha => ?_
    rw [hb.inv]
    exact hs.alike hw' ha
  have hfail : ∀ {w'} (code : Code), J.holds w' → B.wp (do
      let res ← Lease.conclude o fuel c req sentMs (.error code)
      Gate.land id c res) (fun _ => B.Inv) w' := by
    intro w' code hw'
    rw [BlockLogic.wp_bind]
    refine hb.still (A := fun _ => True) ?_ hw' fun res w'' hw'' _ _ => hland hw''
    exact quietly_ite ((quietly_exec rfl).bind fun _ => (quietly_exec rfl).bind fun _ => quietly_pure _) (quietly_pure _)
  simp only [execInstr] at hx
  split at hx
  · split at hx
    · rename_i rep hrep
      split at hx
      · rename_i heq
        cases hx
        refine ⟨?_, rfl, ?_⟩
        · cases hbody : rep.body with
          | error code => exact World.grows_same rfl rfl
          | ok resp => exact World.grows_same rfl rfl
        · cases hbody : rep.body with
          | error code => exact hfail code (hs.refuse _ hw₃)
          | ok resp =>
            have hans := hs.receive hw₃ hc₃ hrep heq.2 hbody
            rw [heq.2] at hans
            rw [BlockLogic.wp_bind]
            unfold Lease.conclude
            rw [BlockLogic.wp_bind]
            exact hb.accept o fuel req sentMs hans (hc₃.kept.grows (World.grows_same rfl rfl)) fun n w' hw' _ => hland hw'
      · cases hx
    · cases hx
  · cases hx
    exact ⟨.refl w₃, rfl, hfail _ hw₃⟩

theorem InBlocks.ready (hb : InBlocks dep J B) {th : Proc Unit} (hs : Starting dep J th w) : B.Ready th w := by
  intro w₁ hw₁ hg
  rw [hb.inv] at hw₁
  rw [hb.later] at hg
  cases hs with
  | flight fuel id hc => exact hb.flight _ fuel id hw₁ (hc.grows hg)
  | renewal hc => exact hb.renewal hw₁ (hc.grows hg)
  | allow fuel hf => exact hb.allowThread _ fuel hw₁ hf

end Follow

/-! Reservations. -/

/-- The effects of settlements. -/
structure BlockInv.Settles (J : BlockInv) : Prop where
  adjust : ∀ {w c maxDebt} delta, J.holds w → w.Kept c → J.ticket c maxDebt → J.holds (w.adjusted (w.cur c) delta maxDebt)
  reserve : ∀ {w : World} {r : Reservation}, J.holds w → (∀ d ∈ r.results, J.Ticket d w) →
    J.holds { w with reservations := w.reservations ++ [(r, false)] }

section Settle

variable {E : Type} {dep : Deployment} {J : BlockInv} {B : BlockLogic Instr.Answer World Choice E} {w : World}

theorem InBlocks.adjust (hb : InBlocks dep J B) (hs : J.Settles) (fuel : ℕ) {x : HPtr} (delta : ℤ) {maxDebt : ℤ} (hw : J.holds w)
    (hk : w.Kept x.c) (ht : J.ticket x.c maxDebt) {Q : Unit → World → Prop} (h : ∀ w', J.holds w' → w.Grows w' → Q () w') :
    B.wp (Lease.adjust fuel x delta maxDebt) Q w := by
  have hr := hb.runs
  have hon : B.wp (Lease.adjustOn fuel (w.cur x.c) delta maxDebt) Q w := by
    unfold Lease.adjustOn
    rw [BlockLogic.wp_bind]
    refine hr.add ?_
    cases fuel with
    | zero => trivial
    | succ fuel =>
      unfold Lease.recharge
      rw [BlockLogic.wp_bind]
      refine hr.loadTokens ?_
      rw [BlockLogic.wp_bind]
      refine hr.casTokens rfl ?_
      exact h _ (hs.adjust delta hw hk ht) (World.grows_same rfl rfl)
  unfold Lease.adjust
  rw [BlockLogic.wp_bind]
  refine hr.loadCur ?_
  split
  · rename_i hcur
    rwa [hcur] at hon
  · split
    · exact h w hw (.refl w)
    · exact hon

theorem InBlocks.adjustDecision (hb : InBlocks dep J B) (hs : J.Settles) (fuel : ℕ) {d : Decision} (delta : ℤ) (hw : J.holds w)
    (ht : J.Ticket d w) {Q : Unit → World → Prop} (h : ∀ w', J.holds w' → w.Grows w' → Q () w') :
    B.wp (d.adjust fuel delta) Q w := by
  unfold Decision.adjust
  split
  · exact h w hw (.refl w)
  · split
    · exact h w hw (.refl w)
    · rename_i x hadj
      exact hb.adjust hs fuel delta hw (ht x hadj).1 (ht x hadj).2 h
    · refine hb.still (A := fun _ => True) ?_ hw fun _ w' hw' hg _ => h w' hw' hg
      refine (quietly_load _).bind fun id => ?_
      exact quietly_ite ((quietly_exec rfl).bind fun _ => quietly_pure _) (quietly_pure _)

theorem InBlocks.rollback (hb : InBlocks dep J B) (hs : J.Settles) (fuel : ℕ) (ds : List Decision) (cs : List ℤ) (hw : J.holds w)
    (ht : ∀ d ∈ ds, J.Ticket d w) {Q : List Decision → World → Prop}
    (h : ∀ ds' w', J.holds w' → w.Grows w' → (∀ d ∈ ds', J.Ticket d w') → Q ds' w') : B.wp (rollback fuel ds cs) Q w := by
  induction ds generalizing w cs Q with
  | nil =>
    unfold Gate.rollback
    exact h [] w hw (.refl w) ht
  | cons d ds ih =>
    cases cs with
    | nil => exact h (d :: ds) w hw (.refl w) ht
    | cons cost cs =>
      unfold Gate.rollback
      have hd := ht d List.mem_cons_self
      split
      · rw [BlockLogic.wp_bind]
        refine hb.adjustDecision hs fuel _ hw hd fun w₁ hw₁ hg₁ => ?_
        rw [BlockLogic.wp_bind]
        refine ih cs hw₁ (fun d' hm => (ht d' (List.mem_cons_of_mem _ hm)).grows hg₁) fun ds' w' hw' hg ht' => ?_
        refine h _ w' hw' (hg₁.trans hg) ?_
        rw [List.forall_mem_cons]
        exact ⟨hd.grows (hg₁.trans hg), ht'⟩
      · rw [BlockLogic.wp_bind]
        refine ih cs hw (fun d' hm => ht d' (List.mem_cons_of_mem _ hm)) fun ds' w' hw' hg ht' => ?_
        refine h _ w' hw' hg ?_
        rw [List.forall_mem_cons]
        exact ⟨hd.grows hg, ht'⟩

theorem ticket_none {d : Decision} (hd : ∀ x, d.adj ≠ some (.held x)) (w : World) : J.Ticket d w :=
  fun x hx => absurd hx (hd x)

theorem InBlocks.fallbackAllow (hb : InBlocks dep J B) (o : LeaseOptions) (edge fuel : ℕ) (rule : Request → Option Request)
    {req : Request} (hw : J.holds w) (hf : J.fits edge req) {Q : Except LimitErr Decision → World → Prop}
    (h : ∀ res w', J.holds w' → w.Grows w' → (∀ d, res = .ok d → J.Ticket d w') → Q res w') :
    B.wp (fallbackAllow o edge fuel rule req) Q w := by
  have hs := hb.sound
  unfold Gate.fallbackAllow
  rw [BlockLogic.wp_bind]
  refine hb.allow o edge fuel hw hf fun c res w₁ hc ha hg₁ => ?_
  rcases ha with ⟨hd, hw₁⟩ | ⟨d, x, rfl, -, hadj, hxc, -, hdebt, htaken⟩
  · cases res with
    | ok d =>
      refine h _ w₁ hw₁ hg₁ fun d' he => ?_
      cases he
      refine ticket_none (fun x hx => ?_) w₁
      rw [(hd d rfl).2] at hx
      cases hx
    | error e =>
      have hfail : ∀ e', Q (.error e') w₁ := fun e' => h _ w₁ hw₁ hg₁ fun d he => (nomatch he)
      cases e with
      | unavailable =>
        dsimp only
        split
        · exact hfail _
        · rename_i sreq _
          rw [BlockLogic.wp_bind]
          have hroll : ∀ p now, Quietly (Local.roll p sreq.window now) := by
            intro p now
            refine (quietly_exec rfl).bind fun _ => ?_
            refine quietly_ite (quietly_pure _) ((quietly_load _).bind fun prev => quietly_ite (quietly_pure _) ?_)
            refine (quietly_exec rfl).bind fun (b : Bool) => ?_
            exact quietly_ite ((quietly_exec rfl).bind fun _ => quietly_pure _) (quietly_pure _)
          have hlocal : (Local.allow edge sreq).Within (fun i => i.quiet = true) fun d => ∀ x, d.adj ≠ some (.held x) := by
            refine (quietly_exec (i := .window edge (stateKey sreq)) rfl).bind fun p => ?_
            refine (quietly_exec (i := .clock edge) rfl).bind fun now => (hroll p now).bind fun stop => ?_
            refine (quietly_exec (i := .add (.windowConsumed p) (max sreq.cost 1)) rfl).bind fun (used : ℤ) => ?_
            refine (Prog.within_ite (sreq.limit < used) _ _ _).mpr ?_
            split
            · exact (quietly_exec rfl).bind fun _ => (quietly_load _).bind fun _ => fun x hx => (nomatch hx)
            · exact (quietly_load _).bind fun _ => fun x hx => (nomatch hx)
          refine hb.still hlocal hw₁ fun d w₂ hw₂ hg₂ hd => ?_
          refine h _ w₂ hw₂ (hg₁.trans hg₂) fun d' he => ?_
          cases he
          exact ticket_none hd w₂
      | rejected => exact hfail _
      | canceled => exact hfail _
  · refine h _ w₁ (hs.untaken htaken) hg₁ fun d' he => ?_
    cases he
    intro y hy
    rw [hadj] at hy
    cases hy
    rw [hxc, hdebt]
    exact ⟨hc.kept, hs.ticketed hc.fits hc.key (lt_of_lt_of_le one_pos (le_max_right _ _))⟩

theorem InBlocks.reserveFrom (hb : InBlocks dep J B) (hs : J.Settles) (edge fuel : ℕ) (checks : List Request) (rest : List Request)
    (hf : ∀ req ∈ rest, J.fits edge req) {r : Reservation} (hw : J.holds w) (ht : ∀ d ∈ r.results, J.Ticket d w)
    {Q : Reservation × Option LimitErr → World → Prop}
    (h : ∀ out w', J.holds w' → (∀ d ∈ out.1.results, J.Ticket d w') → Q out w') :
    B.wp (Gate.reserveFrom (Gate.fallbackAllow (dep.lease edge) edge fuel dep.rule) fuel checks rest r) Q w := by
  have hzero : ∀ w', J.Ticket Decision.zero w' := ticket_none fun x hx => (nomatch hx)
  have hpad : ∀ {r : Reservation} {w'}, (∀ d ∈ r.results, J.Ticket d w') → ∀ d ∈ (r.pad checks).results, J.Ticket d w' := by
    intro r w' ht' d hm
    rcases List.mem_append.mp hm with hm | hm
    · exact ht' d hm
    · rw [List.eq_of_mem_replicate hm]
      exact hzero w'
  have hsnoc : ∀ {ds : List Decision} {d : Decision} {w'}, (∀ d ∈ ds, J.Ticket d w') → J.Ticket d w' →
      ∀ d' ∈ ds ++ [d], J.Ticket d' w' := by
    intro ds d w' hds hd d' hm
    rcases List.mem_append.mp hm with hm | hm
    · exact hds d' hm
    · rw [List.mem_singleton.mp hm]
      exact hd
  -- check by check: the decisions so far are tickets
  induction rest generalizing w r with
  | nil => exact h _ w hw ht
  | cons req rest ih =>
    have ih' := fun {w : World} {r : Reservation} => ih (w := w) (r := r) fun x hx => hf x (List.mem_cons_of_mem _ hx)
    unfold Gate.reserveFrom
    dsimp only
    rw [BlockLogic.wp_bind]
    refine hb.fallbackAllow _ edge fuel _ hw (hf req List.mem_cons_self) fun res w₁ hw₁ hg₁ hres => ?_
    have ht₁ : ∀ d ∈ r.results, J.Ticket d w₁ := fun d hm => (ht d hm).grows hg₁
    cases res with
    | error e =>
      dsimp only
      split
      · exact ih' hw₁ (hsnoc ht₁ (hzero w₁))
      · rw [BlockLogic.wp_bind]
        exact hb.rollback hs fuel _ _ hw₁ ht₁ fun ds w' hw' _ hds => h _ w' hw' (hpad hds)
    | ok d =>
      have hd := hsnoc ht₁ (hres d rfl)
      dsimp only
      split
      · exact ih' hw₁ hd
      · split
        · exact ih' hw₁ hd
        · rw [BlockLogic.wp_bind]
          refine hb.rollback hs fuel _ _ hw₁ ht₁ fun ds w' hw' hg hds => h _ w' hw' (hpad ?_)
          exact hsnoc hds ((hres d rfl).grows hg)

theorem InBlocks.reserveThread (hb : InBlocks dep J B) (hs : J.Settles) (edge fuel : ℕ) {checks : List Request}
    (hf : ∀ req ∈ checks, J.fits edge req) (hw : J.holds w) : B.wp (reserveThread dep edge fuel checks) (fun _ => B.Inv) w := by
  unfold Gate.reserveThread
  rw [BlockLogic.wp_bind]
  refine hb.reserveFrom hs edge fuel checks checks hf hw (fun d hm => absurd hm List.not_mem_nil) fun out w' hw' ht => ?_
  refine hb.runs.step rfl fun _ _ _ _ _ hx => ?_
  cases hx
  refine ⟨World.grows_same rfl rfl, rfl, ?_⟩
  rw [hb.inv]
  exact hs.reserve hw' ht

theorem InBlocks.settle (hb : InBlocks dep J B) (hs : J.Settles) (fuel : ℕ) (actual : ℤ) (ds : List Decision) (cs : List ℤ)
    (hw : J.holds w) (ht : ∀ d ∈ ds, J.Ticket d w) : B.wp (settle fuel actual ds cs) (fun _ => B.Inv) w := by
  induction ds generalizing w cs with
  | nil =>
    unfold Gate.settle
    rw [hb.inv]
    exact hw
  | cons d ds ih =>
    cases cs with
    | nil =>
      unfold Gate.settle
      rw [hb.inv]
      exact hw
    | cons cost cs =>
      have htail : ∀ d' ∈ ds, J.Ticket d' w := fun d' hm => ht d' (List.mem_cons_of_mem _ hm)
      unfold Gate.settle
      split
      · rw [BlockLogic.wp_bind]
        refine hb.adjustDecision hs fuel _ hw (ht d List.mem_cons_self) fun w₁ hw₁ hg₁ => ?_
        exact ih cs hw₁ fun d' hm => (htail d' hm).grows hg₁
      · exact ih cs hw htail

/-- The goroutines of an edge that also reserves and settles. -/
inductive Settling (dep : Deployment) (J : BlockInv) : Proc Unit → World → Prop where
  | starting {th : Proc Unit} {w : World} (h : Starting dep J th w) : Settling dep J th w
  | reserve {w : World} {edge : ℕ} {checks : List Request} (fuel : ℕ) (h : ∀ req ∈ checks, J.fits edge req) :
    Settling dep J (reserveThread dep edge fuel checks) w
  | settle {w : World} {results : List Decision} (fuel : ℕ) (actual : ℤ) (costs : List ℤ) (h : ∀ d ∈ results, J.Ticket d w) :
    Settling dep J (settle fuel actual results costs) w

theorem InBlocks.settling (hb : InBlocks dep J B) (hs : J.Settles) {th : Proc Unit} (h : Settling dep J th w) : B.Ready th w := by
  cases h with
  | starting h => exact hb.ready h
  | reserve fuel hf =>
    intro w₁ hw₁ _
    rw [hb.inv] at hw₁
    exact hb.reserveThread hs _ fuel hf hw₁
  | settle fuel actual costs ht =>
    intro w₁ hw₁ hg
    rw [hb.inv] at hw₁
    rw [hb.later] at hg
    exact hb.settle hs fuel actual _ costs hw₁ fun d hd => (ht d hd).grows hg

end Settle

end Gate
