import Gate.Proofs.DebtBound
import Gate.Spec.Denials

/-! Is a denial by the guard temporary? It is if the counter knows when its window ends: then it
resets, and the held it starts with has counted nothing. Without that time nothing but the
hub's answer changes the count, and the guard lets no call get to the hub. -/

namespace Gate

open Conc

/-! What the calls keep: a held that is yet to be created has counted nothing. -/

/-- The counts belong to helds that exist. -/
structure World.Orderly (w : World) : Prop where
  cur_c : ∀ c, (w.cur c).c = c
  cur_id : ∀ c, (w.cur c).id < w.fresh
  unused : ∀ h, w.fresh ≤ h.id → w.cells (.consumed h) = 0
  tickets : ∀ r ∈ w.reservations, ∀ d ∈ r.1.results, ∀ h, d.adj = some (.held h) → w.Kept h.c

section Orderly

variable {dep : Deployment} {w w' : World}

theorem World.Orderly.change (h : w.Orderly) (hg : w.Grows w') (hcur : ∀ c, (w'.cur c).c = c ∧ (w'.cur c).id < w'.fresh)
    (hcount : ∀ x : HPtr, w.fresh ≤ x.id → w'.cells (.consumed x) = w.cells (.consumed x))
    (hres : w'.reservations = w.reservations) : w'.Orderly := by
  refine ⟨fun c => (hcur c).1, fun c => (hcur c).2, fun x hx => ?_, fun r hr d hd x hx => ?_⟩
  · rw [hcount x (hg.fresh.trans hx)]
    exact h.unused x (hg.fresh.trans hx)
  · rw [hres] at hr
    exact (h.tickets r hr d hd x hx).grows hg

/-- Nothing that is kept has changed. -/
theorem World.Orderly.same (h : w.Orderly) (hg : w.Grows w') (hcur : w'.cur = w.cur)
    (hcount : ∀ x : HPtr, w.fresh ≤ x.id → w'.cells (.consumed x) = w.cells (.consumed x))
    (hres : w'.reservations = w.reservations) : w'.Orderly := by
  refine h.change hg (fun c => ?_) hcount hres
  rw [hcur]
  exact ⟨h.cur_c c, (h.cur_id c).trans_le hg.fresh⟩

theorem World.Orderly.alike (h : w.Orderly) (ha : w.Alike w') : w'.Orderly :=
  h.same ha.grows ha.cur (fun x _ => ha.consumed x) ha.reservations

theorem World.Orderly.installed (h : w.Orderly) (c : CPtr) (win parentWin : ℤ) : (w.installed c win parentWin).Orderly := by
  refine h.change (w.grows_installed c win parentWin) (fun c' => ?_) (fun _ _ => rfl) rfl
  by_cases hc : c' = c
  · subst hc
    have hcur : (w.installed c' win parentWin).cur c' = ⟨c', w.fresh, win, parentWin⟩ := Function.update_self _ _ _
    rw [hcur]
    exact ⟨rfl, Nat.lt_succ_self _⟩
  · have hcur : (w.installed c win parentWin).cur c' = w.cur c' := Function.update_of_ne hc _ _
    rw [hcur]
    exact ⟨h.cur_c c', (h.cur_id c').trans (Nat.lt_succ_self _)⟩

/-- The current held is not a held yet to be created. -/
theorem World.Orderly.cur_ne (h : w.Orderly) (c : CPtr) {x : HPtr} (hx : w.fresh ≤ x.id) : Cell.consumed x ≠ .consumed (w.cur c) := by
  rintro ⟨⟩
  exact absurd (h.cur_id c) (Nat.not_lt.mpr hx)

/-- What the calls keep, for any requests. -/
def orderInv : BlockInv where
  fits _ _ := True
  ticket _ _ := True
  holds := World.Orderly
  answered _ _ _ := World.Orderly
  taken _ _ := World.Orderly

theorem orderInv_sound : orderInv.Sound callsAndSettlements where
  fits_cost _ _ := trivial
  ticketed _ _ _ := trivial
  cur_c c h := h.cur_c c
  alike h ha := h.alike ha
  answered_alike h ha := h.alike ha
  taken_alike h ha := h.alike ha
  counter {w _ _} n h _ _ := World.Orderly.same h (w.grows_addCounter _ _) rfl (fun x _ => w.consumed_addCounter _ n x) rfl
  reset _ h _ := World.Orderly.installed h _ _ _
  expire h _ _ := World.Orderly.same h (World.grows_same rfl rfl) rfl (fun _ _ => rfl) rfl
  take {w c _} _ _ h _ _ _ _ :=
    World.Orderly.same h (w.grows_drawn _ _ _ _) rfl (fun _ hx => Function.update_of_ne (h.cur_ne c hx) _ _) rfl
  untaken h := h
  reported h _ _ := World.Orderly.same h (World.grows_same rfl rfl) rfl (fun _ _ => rfl) rfl
  deny _ h _ := World.Orderly.same h (World.grows_same rfl rfl) rfl (fun _ _ => rfl) rfl
  send _ _ _ h _ := World.Orderly.same h (World.grows_same rfl rfl) rfl (fun _ _ => rfl) rfl
  refuse _ h := World.Orderly.same h (World.grows_same rfl rfl) rfl (fun _ _ => rfl) rfl
  receive h _ _ _ _ := World.Orderly.same h (World.grows_same rfl rfl) rfl (fun _ _ => rfl) rfl
  roll h _ _ := World.Orderly.installed h _ _ _
  drop h := h
  deposit h _ _ _ _ := World.Orderly.same h (World.grows_same rfl rfl) rfl (fun _ _ => rfl) rfl

theorem orderInv_settles : orderInv.Settles where
  adjust {_ c _} _ h _ _ :=
    World.Orderly.same h (World.grows_same rfl rfl) rfl (fun _ hx => Function.update_of_ne (h.cur_ne c hx) _ _) rfl
  reserve {w r} h ht := by
    refine ⟨h.cur_c, h.cur_id, h.unused, fun r' hr' d hd => ?_⟩
    rcases List.mem_append.mp hr' with hr' | hr'
    · exact h.tickets r' hr' d hd
    · rw [List.mem_singleton.mp hr'] at hd
      exact fun x hx => (ht d hd x hx).1

def orderLogic (dep : Deployment) : BlockLogic Instr.Answer World Choice Input where
  sem := sem dep
  cond := callsAndSettlements
  waits := Instr.waits
  Inv := World.Orderly
  Later := World.Grows
  Starts := Settling dep orderInv

theorem orderLogic_inBlocks (dep : Deployment) : InBlocks dep orderInv (orderLogic dep) :=
  ⟨rfl, rfl, rfl, rfl, fun _ _ h => .starting h, orderInv_sound⟩

theorem orderLogic_sound (dep : Deployment) : (orderLogic dep).Sound where
  refl := World.Grows.refl
  trans _ _ _ h h' := h.trans h'
  starts _ _ h := (orderLogic_inBlocks dep).settling orderInv_settles h
  event e w w' new hw hm hx := by
    cases e with
    | tick d =>
      cases hx
      have ha : w.Alike { w with time := w.time + d } := ⟨rfl, rfl, rfl, fun _ => rfl, rfl, rfl, rfl, rfl, rfl, le_rfl⟩
      exact ⟨World.Orderly.alike hw ha, ha.grows, fun _ hth => (nomatch hth)⟩
    | allow edge fuel req =>
      cases hx
      refine ⟨hw, .refl w, fun th hth => ?_⟩
      rw [List.mem_singleton.mp hth]
      exact .starting (.allow fuel trivial)
    | reserve edge fuel checks =>
      cases hx
      refine ⟨hw, .refl w, fun th hth => ?_⟩
      rw [List.mem_singleton.mp hth]
      exact .reserve fuel fun _ _ => trivial
    | settle i actual fuel =>
      simp only [orderLogic, sem, execInput, World.settle] at hx
      split at hx
      · rename_i r hr
        split at hx
        · cases hx
          have ht := hw.tickets (r, false) (List.mem_of_getElem? hr)
          refine ⟨⟨hw.cur_c, hw.cur_id, hw.unused, fun r' hr' => ?_⟩, World.grows_same rfl rfl, fun th hth => ?_⟩
          · rcases List.mem_or_eq_of_mem_set hr' with hr' | hr'
            · exact hw.tickets r' hr'
            · rw [hr']
              exact ht
          · rw [List.mem_singleton.mp hth]
            exact .settle fuel actual r.costs fun d hd x hx => ⟨ht d hd x hx, trivial⟩
        · cases hx
      · cases hx
    | serve i now ord =>
      obtain ⟨c, -, he⟩ := Option.map_eq_some_iff.mp hx
      cases he
      have hsame : (w.serve dep i c now ord).fresh = w.fresh ∧ (w.serve dep i c now ord).table = w.table ∧
          (w.serve dep i c now ord).cur = w.cur ∧ (w.serve dep i c now ord).cells = w.cells ∧
          (w.serve dep i c now ord).reservations = w.reservations := by
        unfold World.serve
        dsimp only
        split <;> exact ⟨rfl, rfl, rfl, rfl, rfl⟩
      obtain ⟨hf, ht, hcur, hcells, hres⟩ := hsame
      have hg := World.grows_same hf ht
      exact ⟨World.Orderly.same hw hg hcur (fun x _ => by rw [hcells]) hres, hg, fun _ hth => (nomatch hth)⟩
    | sweep | drain | sweepLocal | credit => exact absurd hm id

theorem orderly_init (time : ℤ) (m : Mem) : (World.init time m).Orderly :=
  ⟨fun _ => rfl, fun _ => Nat.one_pos, fun _ _ => rfl, fun _ hr => absurd hr List.not_mem_nil⟩

/-- Whatever `Allow` does alone keeps it too. -/
theorem World.Orderly.allowAt (h : w.Orderly) {edge fuel : ℕ} {req : Request} {t : ℤ} {res : Except LimitErr Decision}
    (hx : allowAt dep edge fuel req t w = some (.inl res, w')) : w'.Orderly := by
  have hb := orderLogic_inBlocks dep
  have hwp : (orderLogic dep).wp (Lease.allow (dep.lease edge) edge fuel req) (fun _ => World.Orderly) w := by
    refine hb.allow _ edge fuel h trivial fun c res w₁ _ ha _ => ?_
    rcases ha with ⟨-, h₁⟩ | ⟨_, _, -, -, -, -, -, -, h₁⟩
    · exact h₁
    · exact h₁
  refine BlockLogic.wp_upTo (fun i s r s' hi => ?_) hwp hx
  unfold alone at hi
  split at hi
  · cases hi
  · rename_i hw
    obtain ⟨⟨r', s₁, new⟩, hx', he⟩ := Option.map_eq_some_iff.mp hi
    cases he
    exact ⟨Bool.eq_false_iff.mpr hw, _, new, trivial, hx'⟩

end Orderly

/-! `Allow` alone, step by step. -/

section Steps

variable {dep : Deployment} {t : ℤ} {w : World} {stop : Instr → Bool}

/-- One instruction of a program that runs alone. -/
theorem alone_step {i : Instr} {r : i.Answer} {w' : World} {new : List (Proc Unit)} (hs : stop i = false) (hw : i.waits = false)
    (hx : execInstr dep i { value := t } w = some (r, w', new)) :
    (Prog.exec i : Proc i.Answer).upTo stop (alone dep t) w = some (.inl r, w') := by
  refine Prog.upTo_exec hs ?_
  unfold alone
  rw [if_neg (by simp [hw]), hx]
  rfl

theorem load_alone {x : Cell} (hs : stop (.load x) = false) :
    (load x).upTo stop (alone dep t) w = some (.inl (w.cells x), w) := alone_step hs rfl rfl

theorem store_alone {x : Cell} {v : ℤ} (hs : stop (.store x v) = false) :
    (store x v).upTo stop (alone dep t) w = some (.inl (), w.setCell x v) := alone_step hs rfl rfl

theorem cas_alone {x : Cell} {old new : ℤ} (hs : stop (.cas x old new) = false) (hx : w.cells x = old) :
    (cas x old new).upTo stop (alone dep t) w = some (.inl true, w.setCell x new) := alone_step hs rfl (if_pos hx)

theorem loadCur_alone {c : CPtr} (hs : stop (.loadCur c) = false) :
    (loadCur c).upTo stop (alone dep t) w = some (.inl (w.cur c), w) := alone_step hs rfl rfl

theorem casCur_alone {c : CPtr} {old next : HPtr} (hs : stop (.casCur c old next) = false) (ho : w.cur c = old) :
    (casCur c old next).upTo stop (alone dep t) w = some (.inl true, { w with cur := Function.update w.cur c next }) :=
  alone_step hs rfl (if_pos ho)

theorem loadTokens_alone {h : HPtr} (hs : stop (.loadTokens h) = false) :
    (loadTokens h).upTo stop (alone dep t) w = some (.inl (w.tokens h), w) := alone_step hs rfl rfl

theorem clock_alone {edge : ℕ} (hs : stop (.clock edge) = false) :
    (clock edge).upTo stop (alone dep t) w = some (.inl t, w) := alone_step hs rfl rfl

variable (dep t)

/-- What the calls of a counter leave alone until the guard has been asked. -/
structure World.Still (w w' : World) (c : CPtr) : Prop where
  cur : w'.cur = w.cur
  tokens : w'.tokens = w.tokens
  fresh : w'.fresh = w.fresh
  resetAt : w'.cells (.resetAt c) = w.cells (.resetAt c)
  backoff : w'.cells (.backoffUntil c.edge) = w.cells (.backoffUntil c.edge)
  consumed : ∀ h, w'.cells (.consumed h) = w.cells (.consumed h)

theorem World.Still.refl (w : World) (c : CPtr) : w.Still w c := ⟨rfl, rfl, rfl, rfl, rfl, fun _ => rfl⟩

theorem World.Still.trans {w w' w'' : World} {c : CPtr} (h : w.Still w' c) (h' : w'.Still w'' c) : w.Still w'' c :=
  ⟨h'.cur.trans h.cur, h'.tokens.trans h.tokens, h'.fresh.trans h.fresh, h'.resetAt.trans h.resetAt, h'.backoff.trans h.backoff,
    fun x => (h'.consumed x).trans (h.consumed x)⟩

theorem World.still_setCell (w : World) (c : CPtr) {x : Cell} (v : ℤ) (hr : x ≠ .resetAt c) (hb : x ≠ .backoffUntil c.edge)
    (hx : x.counts = false) : w.Still (w.setCell x v) c :=
  ⟨rfl, rfl, rfl, Function.update_of_ne hr.symm _ _, Function.update_of_ne hb.symm _ _, (w.alike_setCell hx v).consumed⟩

theorem counter_alone (o : LeaseOptions) {edge : ℕ} {req : Request} {c : CPtr} (hc : w.findCounter edge (stateKey req) = some c) :
    ∃ w₁, (Lease.counter o edge req).upTo Instr.joins (alone dep t) w = some (.inl c, w₁) ∧ w.Still w₁ c := by
  have hget : (getCounter edge o.leaseSize req).upTo Instr.joins (alone dep t) w = some (.inl c, w) := by
    have hx : execInstr dep (.counter edge o.leaseSize req) { value := t } w = some (c, w, []) := by
      simp only [execInstr, hc]
      rfl
    exact alone_step rfl rfl hx
  unfold Lease.counter
  rw [Prog.upTo_bind hget]
  split
  · refine ⟨_, Prog.upTo_bind (store_alone rfl), w.still_setCell c _ ?_ ?_ rfl⟩ <;> simp
  · exact ⟨w, rfl, .refl w c⟩

theorem resetTime_alone (c : CPtr) (req : Request) (now : ℤ) :
    ∃ r, (Lease.resetTime c req now).upTo Instr.joins (alone dep t) w = some (.inl r, w) :=
  ⟨_, Prog.upTo_bind (load_alone rfl)⟩

theorem overLimit_alone {req : Request} (hf : fixedWindow req = true) (h : HPtr) :
    (Lease.overLimit req h).upTo Instr.joins (alone dep t) w =
      some (.inl (decide (req.limit < w.cells (.consumed h) + req.cost)), w) := by
  unfold Lease.overLimit
  rw [if_pos hf]
  exact Prog.upTo_bind (load_alone rfl)

theorem waiting_alone (c : CPtr) (now : ℤ) :
    ∃ b w₁, (Lease.waiting c now).upTo Instr.joins (alone dep t) w = some (.inl b, w₁) ∧ w.Still w₁ c ∧
      (w.cells (.retryAt c) ≤ 0 → b = false) := by
  unfold Lease.waiting
  rw [Prog.upTo_bind (load_alone rfl)]
  split
  · rename_i hpos
    split
    · exact ⟨true, w, rfl, .refl w c, fun h => absurd hpos (by omega)⟩
    · refine ⟨false, _, Prog.upTo_bind (cas_alone rfl rfl), w.still_setCell c _ ?_ ?_ rfl, fun _ => rfl⟩ <;> exact nofun
  · exact ⟨false, w, rfl, .refl w c, fun _ => rfl⟩

/-- A counter that does not know its window's end is not reset. -/
theorem reset_alone_none (fuel : ℕ) (c : CPtr) (req : Request) (now : ℤ) (h : w.cells (.resetAt c) ≤ 0) :
    (Lease.reset fuel c req now).upTo Instr.joins (alone dep t) w = some (.inl (), w) := by
  unfold Lease.reset
  rw [Prog.upTo_bind (load_alone rfl), if_pos (.inl h)]
  rfl

theorem install_alone (fuel : ℕ) (c : CPtr) (win parentWin : ℤ) :
    (Lease.install (fuel + 1) c (w.cur c) win parentWin).upTo Instr.joins (alone dep t) w =
      some (.inl ⟨c, w.fresh, win, parentWin⟩, w.installed c win parentWin) := by
  have hnew : (newHeld c win parentWin).upTo Instr.joins (alone dep t) w = some (.inl ⟨c, w.fresh, win, parentWin⟩,
      ({ w with fresh := w.fresh + 1 } : World).record (.create ⟨c, w.fresh, win, parentWin⟩ w.time)) := alone_step rfl rfl rfl
  unfold Lease.install
  rw [Prog.upTo_bind hnew]
  unfold Lease.installLoop
  rw [Prog.upTo_bind (loadTokens_alone rfl)]
  refine (Prog.upTo_bind (alone_step rfl rfl rfl)).trans ?_
  have hcas : (casCur c (w.cur c) ⟨c, w.fresh, win, parentWin⟩).upTo Instr.joins (alone dep t)
      ((({ w with fresh := w.fresh + 1 } : World).record (.create ⟨c, w.fresh, win, parentWin⟩ w.time)).setTokens
        ⟨c, w.fresh, win, parentWin⟩ (min (w.tokens (w.cur c)) 0)) =
      some (.inl true, w.installed c win parentWin) := casCur_alone rfl rfl
  exact Prog.upTo_bind hcas

/-- A counter whose window is over starts anew. -/
theorem reset_alone (fuel : ℕ) {c : CPtr} {req : Request} {now : ℤ} (hpos : 0 < w.cells (.resetAt c))
    (hnow : w.cells (.resetAt c) ≤ now) (halgo : req.algo ≠ .tokenBucket) :
    ∃ w₁ win parentWin, (Lease.reset (fuel + 1) c req now).upTo Instr.joins (alone dep t) w = some (.inl (), w₁) ∧
      w₁.cur c = ⟨c, w.fresh, win, parentWin⟩ ∧ w₁.tokens (w₁.cur c) ≤ 0 ∧ w₁.cells (.retryAt c) = 0 ∧
      w₁.cells (.backoffUntil c.edge) = w.cells (.backoffUntil c.edge) ∧
      ∀ h, w₁.cells (.consumed h) = w.cells (.consumed h) := by
  unfold Lease.reset
  rw [Prog.upTo_bind (load_alone rfl), if_neg (by omega), Prog.upTo_bind (cas_alone rfl rfl), if_pos rfl,
    Prog.upTo_bind (store_alone rfl), if_neg halgo, Prog.upTo_bind (loadCur_alone rfl), Prog.upTo_bind (install_alone dep t fuel c _ _)]
  refine ⟨_, (w.cur c).win, (w.cur c).parentWin, store_alone rfl, Function.update_self _ _ _, ?_, ?_, ?_, fun h => ?_⟩
  · have hcur : (((w.setCell (.resetAt c) 0).setCell (.retryAt c) 0).installed c (w.cur c).win (w.cur c).parentWin).cur c =
        ⟨c, w.fresh, (w.cur c).win, (w.cur c).parentWin⟩ := Function.update_self _ _ _
    simp only [World.setCell] at hcur ⊢
    rw [hcur]
    simp [World.installed]
  · simp [World.setCell, World.installed]
  · simp [World.setCell, World.installed]
  · simp [World.setCell, World.installed]

/-- A balance that does not cover the cost is not drawn on. -/
theorem take_alone (fuel : ℕ) {h : HPtr} {cost : ℤ} (now : ℤ) (hempty : w.tokens h ≤ 0) (hcost : 0 < cost) :
    (Lease.take (fuel + 1) h cost now).upTo Instr.joins (alone dep t) w = some (.inl (-1), w) := by
  unfold Lease.take
  rw [Prog.upTo_bind (show (loadExpiry h).upTo Instr.joins (alone dep t) w = some (.inl (w.expiresAt h), w) from
    alone_step rfl rfl rfl)]
  split
  · unfold Lease.dropExpired
    rw [Prog.upTo_bind (loadTokens_alone rfl), if_pos hempty]
    rfl
  · unfold Lease.spend
    rw [Prog.upTo_bind (loadTokens_alone rfl), if_pos (by omega)]
    rfl

/-- Without tokens and outside of the backoff, a lease is asked for. -/
theorem refill_alone (fuel n : ℕ) (c : CPtr) (req : Request) (h : HPtr) {left : ℤ} (hleft : left < 0)
    (hback : w.cells (.backoffUntil c.edge) ≤ t) :
    (Lease.refill fuel c req (n + 1) h left).upTo Instr.joins (alone dep t) w = some (.inr (.doChan c req), w) := by
  have hfetch : (Lease.fetch c req).upTo Instr.joins (alone dep t) w = some (.inr (.doChan c req), w) := by
    unfold Lease.fetch
    rw [Prog.upTo_bind (clock_alone rfl), Prog.upTo_bind (load_alone rfl), if_neg (by omega)]
    exact Prog.upTo_bind_stop (Prog.upTo_exec_stop rfl)
  unfold Lease.refill
  rw [if_neg (by omega)]
  exact Prog.upTo_bind_stop hfetch

theorem observe_alone (c : CPtr) (now : ℤ) :
    ∃ rate w₁, (Lease.observe c now).upTo Instr.sends (alone dep t) w = some (.inl rate, w₁) := by
  have hrate : (loadRate c).upTo Instr.sends (alone dep t) w = some (.inl (w.rates c), w) := alone_step rfl rfl rfl
  unfold Lease.observe
  rw [Prog.upTo_bind hrate, Prog.upTo_bind (load_alone rfl)]
  split
  · rw [Prog.upTo_bind (store_alone rfl), Prog.upTo_bind (store_alone rfl)]
    exact ⟨_, _, rfl⟩
  · dsimp only
    by_cases hsoon : (now - w.cells (.sampledAt c)) * millisecond < rateMinSample
    · rw [if_pos hsoon]
      exact ⟨_, _, rfl⟩
    · rw [if_neg hsoon]
      have hswap : (swap (.spent c) 0).upTo Instr.sends (alone dep t) w =
          some (.inl (w.cells (.spent c)), w.setCell (.spent c) 0) := alone_step rfl rfl rfl
      rw [Prog.upTo_bind hswap, Prog.upTo_bind (store_alone rfl)]
      exact ⟨_, _, Prog.upTo_bind (alone_step (i := .storeRate _ _) rfl rfl rfl)⟩

/-- A flight asks the hub. -/
theorem flight_alone (o : LeaseOptions) (fuel id : ℕ) (c : CPtr) (req : Request) :
    ∃ r w₁, (Lease.flight o fuel id c req).upTo Instr.sends (alone dep t) w = some (.inr (.send c.edge r), w₁) := by
  unfold Lease.flight
  rw [Prog.upTo_bind (clock_alone rfl), Prog.upTo_bind (load_alone rfl)]
  obtain ⟨rate, w₁, hobserve⟩ := observe_alone dep t (w := w) c t
  rw [Prog.upTo_bind hobserve]
  exact ⟨_, w₁, Prog.upTo_bind_stop (Prog.upTo_exec_stop rfl)⟩

theorem asksHub (w : World) (c : CPtr) (req : Request) (t : ℤ) : w.AsksHub dep c req t :=
  fun _ fuel => flight_alone dep t _ fuel _ c req

end Steps

section Guard

variable {dep : Deployment} {edge fuel : ℕ} {req : Request} {w : World} {c : CPtr} {t : ℤ}

/-- Without the end of its window, a full counter denies. -/
theorem allowOn_denied (o : LeaseOptions) (hf : fixedWindow req = true)
    (hfull : req.limit < w.cells (.consumed (w.cur c)) + req.cost) (hreset : w.cells (.resetAt c) ≤ 0) :
    ∃ d w', (Lease.allowOn o fuel c req t).upTo Instr.joins (alone dep t) w = some (.inl (.ok d), w') ∧ d.allowed = false := by
  unfold Lease.allowOn
  rw [Prog.upTo_bind (store_alone rfl)]
  have hstill₁ : w.Still (w.setCell (.lastSeen c) t) c := w.still_setCell c t nofun nofun rfl
  generalize w.setCell (.lastSeen c) t = w₁ at hstill₁ ⊢
  rw [Prog.upTo_bind (reset_alone_none dep t _ _ _ _ (by rw [hstill₁.resetAt]; exact hreset))]
  obtain ⟨r, hresetTime⟩ := resetTime_alone dep t (w := w₁) c req t
  rw [Prog.upTo_bind hresetTime]
  obtain ⟨b, w₂, hwaiting, hstill₂, -⟩ := waiting_alone dep t (w := w₁) c t
  replace hstill₂ := hstill₁.trans hstill₂
  dsimp only
  rw [Prog.upTo_bind hwaiting, Prog.upTo_bind (loadCur_alone rfl), Prog.upTo_bind (overLimit_alone dep t hf _),
    if_pos (by rw [hstill₂.cur, hstill₂.consumed]; exact decide_eq_true hfull)]
  exact ⟨_, w₂, rfl, rfl⟩

/-- At the end of its window a counter resets, and the next call asks for a lease. -/
theorem allowOn_asks (o : LeaseOptions) (hunused : ∀ h : HPtr, w.fresh ≤ h.id → w.cells (.consumed h) = 0) (hf : fixedWindow req = true)
    (hcost : 0 < req.cost) (hfits : req.cost ≤ req.limit) (hreset : 0 < w.cells (.resetAt c)) (ht : w.cells (.resetAt c) ≤ t)
    (hback : w.cells (.backoffUntil c.edge) ≤ t) :
    ∃ w', (Lease.allowOn o (fuel + 1) c req t).upTo Instr.joins (alone dep t) w = some (.inr (.doChan c req), w') := by
  have halgo : req.algo ≠ .tokenBucket := by
    intro ha
    simp [fixedWindow, ha] at hf
  unfold Lease.allowOn
  rw [Prog.upTo_bind (store_alone rfl)]
  have hstill₁ : w.Still (w.setCell (.lastSeen c) t) c := w.still_setCell c t nofun nofun rfl
  generalize w.setCell (.lastSeen c) t = w₁ at hstill₁ ⊢
  rw [← hstill₁.resetAt] at hreset ht
  obtain ⟨w₂, win, parentWin, hres, hcur₂, htokens₂, hretry₂, hback₂, hcons₂⟩ :=
    reset_alone dep t fuel hreset ht halgo
  rw [Prog.upTo_bind hres]
  obtain ⟨r, hresetTime⟩ := resetTime_alone dep t (w := w₂) c req t
  rw [Prog.upTo_bind hresetTime]
  obtain ⟨b, w₃, hwaiting, hstill₃, hb⟩ := waiting_alone dep t (w := w₂) c t
  obtain rfl := hb hretry₂.le
  dsimp only
  -- the held that is current now has counted nothing and holds nothing
  have hcons₃ : w₃.cells (.consumed (w₃.cur c)) = 0 := by
    rw [hstill₃.cur, hcur₂, hstill₃.consumed, hcons₂, hstill₁.consumed]
    exact hunused _ hstill₁.fresh.ge
  have htokens₃ : w₃.tokens (w₃.cur c) ≤ 0 := by
    rw [hstill₃.cur, hstill₃.tokens]
    exact htokens₂
  have hback₃ : w₃.cells (.backoffUntil c.edge) ≤ t := by
    rw [hstill₃.backoff, hback₂, hstill₁.backoff]
    exact hback
  rw [Prog.upTo_bind hwaiting, Prog.upTo_bind (loadCur_alone rfl), Prog.upTo_bind (overLimit_alone dep t hf _), hcons₃,
    if_neg (by simp only [zero_add, decide_eq_true_eq, not_lt]; exact hfits), Prog.upTo_bind (take_alone dep t fuel t htokens₃ hcost)]
  exact ⟨w₃, Prog.upTo_bind_stop (refill_alone dep t _ 63 c req _ (by decide) hback₃)⟩

/-- `Allow` comes to its counter. -/
theorem allowAt_counter (dep : Deployment) (fuel : ℕ) (t : ℤ) (hc : w.findCounter edge (stateKey req) = some c) :
    ∃ w₁, allowAt dep edge fuel req t w = (Lease.allowOn (dep.lease edge) fuel c { req with cost := max req.cost 1 } t).upTo
      Instr.joins (alone dep t) w₁ ∧ w.Still w₁ c := by
  have hc' : w.findCounter edge (stateKey { req with cost := max req.cost 1 }) = some c := hc
  obtain ⟨w₁, hcounter, hstill⟩ := counter_alone dep t (dep.lease edge) hc'
  unfold allowAt Lease.allow
  dsimp only
  rw [Prog.upTo_bind (clock_alone rfl), Prog.upTo_bind hcounter]
  exact ⟨w₁, rfl, hstill⟩

theorem denied_at (dep : Deployment) (fuel : ℕ) (hf : fixedWindow req = true) (hc : w.findCounter edge (stateKey req) = some c)
    (hfull : req.limit < w.cells (.consumed (w.cur c)) + max req.cost 1) (hreset : w.cells (.resetAt c) ≤ 0) (t : ℤ) :
    ∃ d w', allowAt dep edge fuel req t w = some (.inl (.ok d), w') ∧ d.allowed = false := by
  obtain ⟨w₁, hallow, hstill⟩ := allowAt_counter dep fuel t hc
  rw [hallow]
  refine allowOn_denied (dep.lease edge) hf ?_ (hstill.resetAt ▸ hreset)
  rw [hstill.cur, hstill.consumed]
  exact hfull

/-- Nothing gets a counter out of that. -/
theorem not_temporary (hf : fixedWindow req = true) (hc : w.findCounter edge (stateKey req) = some c)
    (hfull : req.limit < w.cells (.consumed (w.cur c)) + max req.cost 1) (hreset : w.cells (.resetAt c) ≤ 0) :
    ¬ Temporary dep edge fuel req w := by
  rintro ⟨T, hT⟩
  obtain ⟨d, w₁, hd, hfalse⟩ := denied_at dep fuel hf hc hfull hreset T
  rcases hT T le_rfl with ⟨d', w', hd', htrue⟩ | ⟨c', r, w', hd', -⟩
  · rw [hd] at hd'
    cases hd'
    rw [hfalse] at htrue
    cases htrue
  · rw [hd] at hd'
    cases hd'

theorem progresses_at (ho : w.Orderly) (hf : fixedWindow req = true) (hfits : max req.cost 1 ≤ req.limit)
    (hc : w.findCounter edge (stateKey req) = some c) (hreset : 0 < w.cells (.resetAt c)) (ht : w.cells (.resetAt c) ≤ t)
    (hback : w.cells (.backoffUntil edge) ≤ t) : Progresses dep edge (fuel + 1) req t w := by
  have hedge : c.edge = edge := (World.kept_of_findCounter hc).2.1
  obtain ⟨w₁, hallow, hstill⟩ := allowAt_counter dep (fuel + 1) t hc
  have hunused : ∀ h : HPtr, w₁.fresh ≤ h.id → w₁.cells (.consumed h) = 0 := by
    intro h hh
    rw [hstill.consumed]
    exact ho.unused h (hstill.fresh ▸ hh)
  have hasks : ∃ w', (Lease.allowOn (dep.lease edge) (fuel + 1) c { req with cost := max req.cost 1 } t).upTo Instr.joins (alone dep t)
      w₁ = some (.inr (.doChan c { req with cost := max req.cost 1 }), w') := by
    refine allowOn_asks _ hunused hf (lt_of_lt_of_le one_pos (le_max_right _ _)) hfits ?_ ?_ ?_
    · rwa [hstill.resetAt]
    · rwa [hstill.resetAt]
    · rwa [hstill.backoff, hedge]
  obtain ⟨w', hasks⟩ := hasks
  exact .inr ⟨c, _, w', hallow.trans hasks, asksHub dep w' c _ t⟩

end Guard

/-- Calls, lease fetches and settlements in any order and at any time, on any edges and quotas. If
the guard of an edge then denies a request that costs at most its limit, the denial is temporary
exactly if the counter knows when its window ends. -/
theorem guard_denial_temporary_iff (dep : Deployment) (time : ℤ) (m : Mem) {acts : List EdgeBlock} {p : Edges}
    (hok : Along (Edges.block dep) (Pool.MeetsBlock (sem dep) callsAndSettlements) (Edges.init time m) acts)
    (hrun : runAll (Edges.block dep) (Edges.init time m) acts = some p) {edge fuel : ℕ} {req : Request} (hfuel : 0 < fuel)
    (hfits : max req.cost 1 ≤ req.limit) {t : ℤ} {w : World} {c : CPtr} (hdenied : DeniedByGuard dep edge fuel req t p.shared w)
    (hc : w.findCounter edge (stateKey req) = some c) :
    Temporary dep edge fuel req w ↔ 0 < w.cells (.resetAt c) := by
  have hinit : (orderLogic dep).Rested (Edges.init time m) :=
    ⟨orderly_init time m, fun _ hth => absurd hth List.not_mem_nil⟩
  obtain ⟨hp, -⟩ := BlockLogic.rested_run (orderLogic_sound dep) hinit hok hrun
  obtain ⟨hf, ⟨c', hc', hfull⟩, d, hallow, -⟩ := hdenied
  obtain rfl : c' = c := Option.some.inj (hc'.symm.trans hc)
  have hw := World.Orderly.allowAt hp hallow
  constructor
  · intro htemp
    by_contra hreset
    exact not_temporary hf hc hfull (by omega) htemp
  · intro hreset
    obtain ⟨n, rfl⟩ := Nat.exists_eq_succ_of_ne_zero hfuel.ne'
    refine ⟨max (w.cells (.resetAt c')) (w.cells (.backoffUntil edge)), fun t' ht' => ?_⟩
    exact progresses_at hw hf hfits hc hreset ((le_max_left _ _).trans ht') ((le_max_right _ _).trans ht')

namespace Sample

/-- The answer of an `Allow` of cost 1, if it is a decision, and the count and the window's end of
its counter afterwards. -/
def answerOf (x : (Except LimitErr Decision ⊕ Instr) × World) : Option Bool × Option (ℤ × ℤ) :=
  (match x.1 with
    | .inl (.ok d) => some d.allowed
    | _ => none,
    (x.2.findCounter 0 (stateKey (request 1))).map fun c => (x.2.cells (.consumed (x.2.cur c)), x.2.cells (.resetAt c)))

/-- Read off an evaluation: the guard has denied. -/
theorem deniedByGuard_of_answerOf {t n r : ℤ} {w : World} (hn : 100 < n + 1)
    (h : (allowAt dep 0 3 (request 1) t w).map answerOf = some (some false, some (n, r))) :
    ∃ w' c, DeniedByGuard dep 0 3 (request 1) t w w' ∧ w'.findCounter 0 (stateKey (request 1)) = some c ∧
      w'.cells (.consumed (w'.cur c)) = n ∧ w'.cells (.resetAt c) = r := by
  obtain ⟨⟨out, w'⟩, hallow, hx⟩ := Option.map_eq_some_iff.mp h
  obtain ⟨hout, hcounter⟩ := Prod.mk.inj hx
  obtain ⟨c, hc, hcells⟩ := Option.map_eq_some_iff.mp hcounter
  obtain ⟨hcount, hreset⟩ := Prod.mk.inj hcells
  dsimp only at hout
  split at hout
  · rename_i d
    refine ⟨w', c, ⟨by decide, ⟨c, hc, ?_⟩, d, hallow, Option.some.inj hout⟩, hc, hcount, hreset⟩
    rw [hcount]
    exact hn
  · cases hout

/-- A block in which the hub is not reached. -/
def lostBlock (n t : ℕ) (now : ℤ) : EdgeBlock := .block t (List.replicate n { value := now, fuel := 3, ok := false })

/-- A reservation of 5 is made from a lease. When the window is over a call resets the counter, but
its own lease request fails. Then the reservation is settled, at 200. -/
def stranded : List EdgeBlock :=
  [.env (.reserve 0 3 [onCredit 5]), edgeBlock 13 0 5100, edgeBlock 7 1 5100, .env (.serve 0 5100 order),
    edgeBlock 12 1 5100, edgeBlock 15 0 5100, .env (.allow 0 3 (request 1)), edgeBlock 21 2 6100, edgeBlock 8 3 6100,
    lostBlock 4 3 6100, edgeBlock 2 2 6100, .env (.settle 0 200 3), edgeBlock 4 4 6100]

end Sample

open Sample in
/-- The settlement is charged to the new held: a count of 195 of 100 and no end of the window. The
edge denies the quota from then on, and never asks the hub again. -/
theorem stranded_forever :
    ∃ p w, runAll (Edges.block dep) (Edges.init 5100 Mem.new) stranded = some p ∧
      Along (Edges.block dep) (Pool.MeetsBlock (sem dep) callsAndSettlements) (Edges.init 5100 Mem.new) stranded ∧
      DeniedByGuard dep 0 3 (request 1) 7000 p.shared w ∧ ¬ Temporary dep 0 3 (request 1) w := by
  have heval : (runAll (Edges.block dep) (Edges.init 5100 Mem.new) stranded).map
      (fun p => (allowAt dep 0 3 (request 1) 7000 p.shared).map answerOf) = some (some (some false, some (195, 0))) := by
    decide +kernel
  obtain ⟨p, hrun, hp⟩ := Option.map_eq_some_iff.mp heval
  obtain ⟨w, c, hdenied, hc, hcount, hreset⟩ := deniedByGuard_of_answerOf (by decide) hp
  refine ⟨p, w, hrun, by decide +kernel, hdenied, ?_⟩
  exact not_temporary (by decide) hc (by rw [hcount]; decide) hreset.le

open Sample in
/-- Settled within its window, the charge is gone when the window is over. -/
theorem guard_denial_temporary_overrun :
    ∃ p w, runAll (Edges.block dep) (Edges.init 5100 Mem.new) overrun = some p ∧
      DeniedByGuard dep 0 3 (request 1) 5200 p.shared w ∧ Temporary dep 0 3 (request 1) w := by
  have heval : (runAll (Edges.block dep) (Edges.init 5100 Mem.new) overrun).map
      (fun p => (allowAt dep 0 3 (request 1) 5200 p.shared).map answerOf) = some (some (some false, some (200, 6000))) := by
    decide +kernel
  obtain ⟨p, hrun, hp⟩ := Option.map_eq_some_iff.mp heval
  obtain ⟨w, c, hdenied, hc, -, hreset⟩ := deniedByGuard_of_answerOf (by decide) hp
  refine ⟨p, w, hrun, hdenied, ?_⟩
  refine (guard_denial_temporary_iff dep 5100 Mem.new (by decide +kernel) hrun (by decide) (by decide) hdenied hc).mpr ?_
  rw [hreset]
  decide

end Gate
