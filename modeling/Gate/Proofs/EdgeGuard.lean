import Gate.Proofs.LeaseBlocks
import Gate.Proofs.LeaseSafety
import Gate.Spec.AnyHub

/-! The guard of an edge against a hub that grants too much. The guard counts per held, and the
hub's answers choose the labels. A label is admitted from by one held at most, as long as no
tokens are banked in a held that shares its label with another; the held's count then
bounds the label. -/

namespace Gate

open Conc

section Guard

variable (edge : ℕ) (key : String) (L : ℤ)

/-- The held exists: its counter started with it, or it was created. -/
def World.Exists (w : World) (h : HPtr) : Prop := h = h.c.first ∨ ∃ t, .create h t ∈ w.log

/-- Tokens were banked in the held. -/
def World.Banked (w : World) (h : HPtr) : Prop := ∃ n, .deposit h n ∈ w.log

/-- The counts bound what was admitted. -/
structure Guarding (w : World) : Prop where
  cur_c : ∀ c, (w.cur c).c = c
  cur_id : ∀ c, (w.cur c).id < w.fresh
  cur_exists : ∀ c, w.Exists (w.cur c)
  unused : ∀ h, w.fresh ≤ h.id → w.cells (.consumed h) = 0
  count : ∀ h, 0 ≤ w.cells (.consumed h) ∧ w.cells (.consumed h) ≤ L
  funded : ∀ h, 0 < w.tokens h → w.Banked h
  banked : ∀ h, w.Banked h → w.Kept h.c ∧ h.c.edge = edge ∧ h.c.key = key ∧ w.Exists h
  once : ∀ h h', w.Banked h → w.Banked h' → h.win = h'.win → h = h'
  admitted : ∀ W, admittedAs W w.log ≤ 0 ∨ ∃ h, w.Banked h ∧ h.win = W ∧ admittedAs W w.log ≤ w.cells (.consumed h)

variable {edge key L} {w w' : World}

/-- Events that neither bank tokens nor admit. -/
def Event.Silent (e : Event) : Prop := (∀ h n, e ≠ .deposit h n) ∧ ∀ W, e.admittedAs W = 0

theorem admittedAs_append (W : ℤ) (new log : List Event) (h : ∀ e ∈ new, e.Silent) :
    admittedAs W (new ++ log) = admittedAs W log := by
  induction new with
  | nil => rfl
  | cons e new ih =>
    have he := (h e List.mem_cons_self).2 W
    have ih' := ih fun x hx => h x (List.mem_cons_of_mem _ hx)
    simp only [admittedAs, List.cons_append, List.map_cons, List.sum_cons, he, zero_add] at ih' ⊢
    exact ih'

/-- What a change has to leave alone, if it only adds silent events. -/
theorem Guarding.change (h : Guarding edge key L w) (new : List Event) (hg : w.Grows w') (hlog : w'.log = new ++ w.log)
    (hnew : ∀ e ∈ new, e.Silent) (hcur : ∀ c, (w'.cur c).c = c ∧ (w'.cur c).id < w'.fresh ∧ w'.Exists (w'.cur c))
    (hcount : ∀ x, w'.cells (.consumed x) = w.cells (.consumed x)) (htokens : ∀ x, w'.tokens x ≤ 0 ∨ w'.tokens x = w.tokens x) :
    Guarding edge key L w' := by
  have hsub : ∀ e ∈ w.log, e ∈ w'.log := fun e he => hlog ▸ List.mem_append_right _ he
  have hbank : ∀ x, w'.Banked x ↔ w.Banked x := by
    refine fun x => ⟨fun ⟨n, hn⟩ => ?_, fun ⟨n, hn⟩ => ⟨n, hsub _ hn⟩⟩
    rw [hlog] at hn
    rcases List.mem_append.mp hn with hn | hn
    · exact absurd rfl ((hnew _ hn).1 x n)
    · exact ⟨n, hn⟩
  constructor
  · exact fun c => (hcur c).1
  · exact fun c => (hcur c).2.1
  · exact fun c => (hcur c).2.2
  · intro x hx
    rw [hcount]
    exact h.unused x (hg.fresh.trans hx)
  · intro x
    rw [hcount]
    exact h.count x
  · intro x hx
    rw [hbank]
    rcases htokens x with h0 | he
    · omega
    · exact h.funded x (he ▸ hx)
  · intro x hx
    obtain ⟨hk, he, hkey, hex⟩ := h.banked x ((hbank x).mp hx)
    exact ⟨hk.grows hg, he, hkey, hex.imp_right fun ⟨t, ht⟩ => ⟨t, hsub _ ht⟩⟩
  · exact fun x y hx hy => h.once x y ((hbank x).mp hx) ((hbank y).mp hy)
  · intro W
    rw [hlog, admittedAs_append W new w.log hnew]
    refine (h.admitted W).imp_right fun ⟨x, hx, hwin, hle⟩ => ⟨x, (hbank x).mpr hx, hwin, ?_⟩
    rwa [hcount]

theorem Guarding.alike (h : Guarding edge key L w) (ha : w.Alike w') : Guarding edge key L w' := by
  refine h.change [] ha.grows ha.log (fun _ hm => (nomatch hm)) (fun c => ?_) ha.consumed fun x => .inr ?_
  · rw [ha.cur]
    refine ⟨h.cur_c c, (h.cur_id c).trans_le ha.fresh, (h.cur_exists c).imp_right fun ⟨t, ht⟩ => ⟨t, ?_⟩⟩
    rwa [ha.log]
  · rw [ha.tokens]

/-- A new held admits nothing yet. -/
theorem Guarding.installed (h : Guarding edge key L w) (c : CPtr) (win parentWin : ℤ) :
    Guarding edge key L (w.installed c win parentWin) := by
  refine h.change [.create ⟨c, w.fresh, win, parentWin⟩ w.time] (w.grows_installed c win parentWin) rfl ?_
    (fun c' => ?_) (fun _ => rfl) fun x => ?_
  · rw [List.forall_mem_singleton]
    exact ⟨fun _ _ he => (nomatch he), fun _ => rfl⟩
  · by_cases hc : c' = c
    · subst hc
      have hcur : (w.installed c' win parentWin).cur c' = ⟨c', w.fresh, win, parentWin⟩ := Function.update_self _ _ _
      rw [hcur]
      exact ⟨rfl, Nat.lt_succ_self _, .inr ⟨w.time, List.mem_cons_self⟩⟩
    · have hcur : (w.installed c win parentWin).cur c' = w.cur c' := Function.update_of_ne hc _ _
      rw [hcur]
      exact ⟨h.cur_c c', (h.cur_id c').trans (Nat.lt_succ_self _),
        (h.cur_exists c').imp_right fun ⟨t, ht⟩ => ⟨t, List.mem_cons_of_mem _ ht⟩⟩
  · by_cases hx : x = ⟨c, w.fresh, win, parentWin⟩
    · left
      rw [hx, World.installed]
      dsimp only
      rw [Function.update_self]
      exact min_le_right _ _
    · exact .inr (Function.update_of_ne hx _ _)

/-- The guard has passed a take from the held: its count covers the take, ahead of the answer. -/
structure GuardTaken (edge : ℕ) (key : String) (L : ℤ) (req : Request) (h : HPtr) (w : World) : Prop where
  guarding : Guarding edge key L w
  banked : w.Banked h
  ahead : admittedAs h.win w.log + req.cost ≤ w.cells (.consumed h)

theorem Guarding.take (h : Guarding edge key L w) {c : CPtr} {cost : ℤ} (t exp : ℤ) (hcost : 0 < cost)
    (hle : cost ≤ w.tokens (w.cur c)) (hguard : w.cells (.consumed (w.cur c)) + cost ≤ L) :
    Guarding edge key L (w.drawn (w.cur c) cost t exp) ∧ (w.drawn (w.cur c) cost t exp).Banked (w.cur c) ∧
      admittedAs (w.cur c).win (w.drawn (w.cur c) cost t exp).log + cost ≤
        (w.drawn (w.cur c) cost t exp).cells (.consumed (w.cur c)) := by
  have hbank := h.funded (w.cur c) (by omega)
  generalize hx : w.cur c = x at *
  have hown : (w.drawn x cost t exp).cells (.consumed x) = w.cells (.consumed x) + cost := Function.update_self _ _ _
  have hcell : ∀ y, y ≠ x → (w.drawn x cost t exp).cells (.consumed y) = w.cells (.consumed y) := by
    intro y hy
    refine Function.update_of_ne ?_ _ _
    rintro ⟨⟩
    exact hy rfl
  have hlog : (w.drawn x cost t exp).log = .take x cost t w.time :: w.log := rfl
  have hadm : ∀ W, admittedAs W (w.drawn x cost t exp).log = admittedAs W w.log := fun W => by
    rw [hlog]
    exact (List.sum_cons).trans (zero_add _)
  have hmem : ∀ e ∈ w.log, e ∈ (w.drawn x cost t exp).log := fun e he => List.mem_cons_of_mem _ he
  have hbanks : ∀ y, (w.drawn x cost t exp).Banked y ↔ w.Banked y := by
    refine fun y => ⟨fun ⟨n, hn⟩ => ?_, fun ⟨n, hn⟩ => ⟨n, hmem _ hn⟩⟩
    rcases List.mem_cons.mp hn with he | hn
    · cases he
    · exact ⟨n, hn⟩
  have hexists : ∀ {y}, w.Exists y → (w.drawn x cost t exp).Exists y := fun hy => hy.imp_right fun ⟨t', ht⟩ => ⟨t', hmem _ ht⟩
  have hgrows := w.grows_drawn x cost t exp
  have hcount := h.count x
  refine ⟨⟨h.cur_c, h.cur_id, fun c' => hexists (h.cur_exists c'), fun y hy => ?_, fun y => ?_, fun y hy => ?_, fun y hy => ?_,
    fun y z hy hz => h.once y z ((hbanks y).mp hy) ((hbanks z).mp hz), fun W => ?_⟩, (hbanks x).mpr hbank, ?_⟩
  · have hne : y ≠ x := by
      rintro rfl
      have := h.cur_id c
      rw [hx] at this
      exact absurd hy (by exact Nat.not_le.mpr this)
    rw [hcell y hne]
    exact h.unused y hy
  · by_cases hy : y = x
    · rw [hy, hown]
      omega
    · rw [hcell y hy]
      exact h.count y
  · rw [hbanks]
    by_cases hyx : y = x
    · rw [hyx]
      exact hbank
    · have htok : (w.drawn x cost t exp).tokens y = w.tokens y := Function.update_of_ne hyx _ _
      exact h.funded y (htok ▸ hy)
  · obtain ⟨hk, he, hkey, hex⟩ := h.banked y ((hbanks y).mp hy)
    exact ⟨hk.grows hgrows, he, hkey, hexists hex⟩
  · rw [hadm]
    refine (h.admitted W).imp_right fun ⟨y, hy, hwin, hle'⟩ => ⟨y, (hbanks y).mpr hy, hwin, ?_⟩
    by_cases hyx : y = x
    · rw [hyx, hown]
      rw [hyx] at hle'
      omega
    · rwa [hcell y hyx]
  · rw [hadm, hown]
    rcases h.admitted x.win with h0 | ⟨y, hy, hwin, hle'⟩
    · omega
    · rw [h.once y x hy hbank hwin] at hle'
      omega

theorem GuardTaken.alike {req : Request} {h : HPtr} (ht : GuardTaken edge key L req h w) (ha : w.Alike w') :
    GuardTaken edge key L req h w' := by
  refine ⟨ht.guarding.alike ha, ?_, ?_⟩
  · obtain ⟨n, hn⟩ := ht.banked
    exact ⟨n, ha.log ▸ hn⟩
  · rw [ha.log, ha.consumed]
    exact ht.ahead

/-- Tokens are banked in a held with a label of its own. -/
theorem Guarding.deposit (h : Guarding edge key L w) {c : CPtr} (hk : w.Kept c) (hedge : c.edge = edge) (hkey : c.key = key)
    (hfirst : (w.cur c).win = 0 → w.cur c = (w.cur c).c.first) (hsole : ∀ e ∈ w.log, e.Sole (w.cur c)) (n : ℤ) :
    Guarding edge key L (w.deposited (w.cur c) n) := by
  have hc := h.cur_c c
  have hex := h.cur_exists c
  generalize w.cur c = x at *
  have hmem : ∀ e ∈ w.log, e ∈ (w.deposited x n).log := fun e he => List.mem_cons_of_mem _ he
  have hbanks : ∀ y, (w.deposited x n).Banked y → y = x ∨ w.Banked y := by
    rintro y ⟨m, hm⟩
    rcases List.mem_cons.mp hm with he | hm
    · cases he
      exact .inl rfl
    · exact .inr ⟨m, hm⟩
  have hkeep : ∀ {y}, w.Banked y → (w.deposited x n).Banked y := fun ⟨m, hm⟩ => ⟨m, hmem _ hm⟩
  have hexists : ∀ {y}, w.Exists y → (w.deposited x n).Exists y := fun hy => hy.imp_right fun ⟨t, ht⟩ => ⟨t, hmem _ ht⟩
  have hadm : ∀ W, admittedAs W (w.deposited x n).log = admittedAs W w.log := fun W => (List.sum_cons).trans (zero_add _)
  -- an older banked held with the label of `x` is `x`
  have hsame : ∀ {y}, w.Banked y → y.win = x.win → y = x := by
    intro y hy hwin
    obtain ⟨hky, hey, hkeyy, hexy⟩ := h.banked y hy
    have hyc : y.c = x.c := by
      have h₁ : some y.c = some c := by
        rw [← hky, ← hk, hey, hkeyy, hedge, hkey]
      rw [Option.some.inj h₁, hc]
    rcases hexy with hf | ⟨t, ht⟩
    · have h0 : x.win = 0 := by
        rw [← hwin, hf]
        rfl
      rw [hf, hyc, ← hfirst h0]
    · exact hsole _ ht hyc hwin
  refine ⟨h.cur_c, h.cur_id, fun c' => hexists (h.cur_exists c'), h.unused, h.count, fun y hy => ?_, fun y hy => ?_,
    fun y z hy hz hwin => ?_, fun W => ?_⟩
  · by_cases hyx : y = x
    · rw [hyx]
      exact ⟨n, List.mem_cons_self⟩
    · have htok : (w.deposited x n).tokens y = w.tokens y := Function.update_of_ne hyx _ _
      exact hkeep (h.funded y (htok ▸ hy))
  · rcases hbanks y hy with rfl | hy
    · rw [hc]
      exact ⟨hk, hedge, hkey, hexists hex⟩
    · obtain ⟨h₁, h₂, h₃, h₄⟩ := h.banked y hy
      exact ⟨h₁, h₂, h₃, hexists h₄⟩
  · rcases hbanks y hy with hyx | hy' <;> rcases hbanks z hz with hzx | hz'
    · rw [hyx, hzx]
    · rw [hyx, hsame hz' (by rw [← hwin, hyx])]
    · rw [hzx, hsame hy' (by rw [hwin, hzx])]
    · exact h.once y z hy' hz' hwin
  · rw [hadm]
    exact (h.admitted W).imp_right fun ⟨y, hy, hwin, hle⟩ => ⟨y, hkeep hy, hwin, hle⟩

/-- The answer to an admitted call. -/
theorem GuardTaken.reported {req : Request} {h : HPtr} {d : Decision}
    (ht : GuardTaken edge key L { req with cost := max req.cost 1 } h w) (hd : d.allowed = true) (hwin : d.window = h.win) :
    Guarding edge key L (w.record (.answer req (.ok d))) := by
  have hg := ht.guarding
  have hmem : ∀ e ∈ w.log, e ∈ (w.record (.answer req (.ok d))).log := fun e he => List.mem_cons_of_mem _ he
  have hbanks : ∀ y, (w.record (.answer req (.ok d))).Banked y ↔ w.Banked y := by
    refine fun y => ⟨fun ⟨n, hn⟩ => ?_, fun ⟨n, hn⟩ => ⟨n, hmem _ hn⟩⟩
    rcases List.mem_cons.mp hn with he | hn
    · cases he
    · exact ⟨n, hn⟩
  have hexists : ∀ {y}, w.Exists y → (w.record (.answer req (.ok d))).Exists y :=
    fun hy => hy.imp_right fun ⟨t, ht⟩ => ⟨t, hmem _ ht⟩
  have hadm : ∀ W, admittedAs W (w.record (.answer req (.ok d))).log =
      (if h.win = W then max req.cost 1 else 0) + admittedAs W w.log := by
    intro W
    refine List.sum_cons.trans ?_
    simp only [Event.admittedAs, hd, hwin, true_and]
    rfl
  refine ⟨hg.cur_c, hg.cur_id, fun c => hexists (hg.cur_exists c), hg.unused, hg.count, fun y hy => (hbanks y).mpr (hg.funded y hy),
    fun y hy => ?_, fun y z hy hz => hg.once y z ((hbanks y).mp hy) ((hbanks z).mp hz), fun W => ?_⟩
  · obtain ⟨h₁, h₂, h₃, h₄⟩ := hg.banked y ((hbanks y).mp hy)
    exact ⟨h₁, h₂, h₃, hexists h₄⟩
  · rw [hadm]
    split
    · rename_i hW
      refine .inr ⟨h, (hbanks h).mpr ht.banked, hW, ?_⟩
      have := ht.ahead
      rw [hW] at this
      dsimp only at this
      linarith [show (w.record (.answer req (.ok d))).cells (.consumed h) = w.cells (.consumed h) from rfl]
    · rw [zero_add]
      exact (hg.admitted W).imp_right fun ⟨y, hy, hy', hle⟩ => ⟨y, (hbanks y).mpr hy, hy', hle⟩

/-- The guard's invariant, with its forms inside a block. -/
def guardInv (edge : ℕ) (key : String) (L : ℤ) : BlockInv where
  fits e req := e = edge ∧ stateKey req = key ∧ req.limit = L ∧ fixedWindow req = true
  ticket _ _ := True
  holds := Guarding edge key L
  answered c _ _ w := Guarding edge key L w ∧ c.edge = edge ∧ c.key = key
  taken := GuardTaken edge key L

theorem guardInv_sound : (guardInv edge key L).Sound ((oneQuota edge key L).and soleHelds) where
  fits_cost _ h := h
  ticketed _ _ _ := trivial
  cur_c c h := h.cur_c c
  alike h ha := h.alike ha
  answered_alike h ha := ⟨h.1.alike ha, h.2⟩
  taken_alike h ha := h.alike ha
  counter {w e req} n h _ _ := by
    refine Guarding.change h [] (w.grows_addCounter _ _) rfl (fun _ hm => (nomatch hm)) (fun c => ?_) (fun x => ?_) fun _ => .inr rfl
    · exact ⟨h.cur_c c, (h.cur_id c).trans (Nat.lt_succ_self _), h.cur_exists c⟩
    · exact w.consumed_addCounter _ n x
  reset parentWin h _ := h.installed _ _ _
  expire {w c} h _ _ := by
    refine Guarding.change h [] (World.grows_same rfl rfl) rfl (fun _ hm => (nomatch hm))
      (fun c' => ⟨h.cur_c c', h.cur_id c', h.cur_exists c'⟩) (fun _ => rfl) fun x => ?_
    by_cases hx : x = w.cur c
    · rw [hx]
      exact .inl (Function.update_self _ _ _).le
    · exact .inr (Function.update_of_ne hx _ _)
  take t exp h hc hcost hle hguard := by
    have hfits := hc.fits
    obtain ⟨h₁, h₂, h₃⟩ := Guarding.take h t exp hcost hle (hfits.2.2.1 ▸ hguard hfits.2.2.2)
    exact ⟨h₁, h₂, h₃⟩
  untaken h := h.guarding
  reported h hd hwin := h.reported hd hwin
  deny {w res} req h hd := by
    refine Guarding.change h [.answer req res] (World.grows_same rfl rfl) rfl ?_ (fun c => ?_) (fun _ => rfl) fun _ => .inr rfl
    · rw [List.forall_mem_singleton]
      refine ⟨fun _ _ he => (nomatch he), fun W => ?_⟩
      cases res with
      | error e => rfl
      | ok d => simp [Event.admittedAs, hd d rfl]
    · exact ⟨h.cur_c c, h.cur_id c, (h.cur_exists c).imp_right fun ⟨t, ht⟩ => ⟨t, List.mem_cons_of_mem _ ht⟩⟩
  send o size rate h _ := by
    refine Guarding.change h [] (World.grows_same rfl rfl) rfl (fun _ hm => (nomatch hm))
      (fun c => ⟨h.cur_c c, h.cur_id c, h.cur_exists c⟩) (fun _ => rfl) fun _ => .inr rfl
  refuse i h := by
    refine Guarding.change h [] (World.grows_same rfl rfl) rfl (fun _ hm => (nomatch hm))
      (fun c => ⟨h.cur_c c, h.cur_id c, h.cur_exists c⟩) (fun _ => rfl) fun _ => .inr rfl
  receive {w c req i rep resp o size rate} h hc hrep hreq hbody := by
    refine ⟨Guarding.change h [.receive rep.req resp] (World.grows_same rfl rfl) rfl ?_ (fun c' => ?_) (fun _ => rfl) fun _ => .inr rfl,
      hc.fits.1, hc.key.trans hc.fits.2.1⟩
    · rw [List.forall_mem_singleton]
      exact ⟨fun _ _ he => (nomatch he), fun _ => rfl⟩
    · exact ⟨h.cur_c c', h.cur_id c', (h.cur_exists c').imp_right fun ⟨t, ht⟩ => ⟨t, List.mem_cons_of_mem _ ht⟩⟩
  roll h _ _ := ⟨h.1.installed _ _ _, h.2⟩
  drop h := h.1
  deposit h hk _ _ hch := h.1.deposit hk h.2.1 h.2.2 (hch.2 _ rfl).1 (hch.2 _ rfl).2 _

/-- The edge's goroutines, in blocks, in front of any hub. -/
def guardLogic (dep : Deployment) (edge : ℕ) (key : String) (L : ℤ) : BlockLogic Instr.Answer World Choice HubInput where
  sem := anyHub dep
  cond := (oneQuota edge key L).and soleHelds
  waits := Instr.waits
  Inv := Guarding edge key L
  Later := World.Grows
  Starts := Starting dep (guardInv edge key L)

theorem guardLogic_inBlocks (dep : Deployment) : InBlocks dep (guardInv edge key L) (guardLogic dep edge key L) :=
  ⟨rfl, rfl, rfl, rfl, fun _ _ h => h, guardInv_sound⟩

theorem guardLogic_sound (dep : Deployment) : (guardLogic dep edge key L).Sound where
  refl := World.Grows.refl
  trans _ _ _ h h' := h.trans h'
  starts _ _ h := (guardLogic_inBlocks dep).ready h
  event e w w' new hw hm hx := by
    cases e with
    | tick d =>
      cases hx
      have ha : w.Alike { w with time := w.time + d } := ⟨rfl, rfl, rfl, fun _ => rfl, rfl, rfl, rfl, rfl, rfl, le_rfl⟩
      exact ⟨Guarding.alike hw ha, ha.grows, fun _ hth => (nomatch hth)⟩
    | allow e fuel req =>
      cases hx
      refine ⟨hw, .refl w, fun th hth => ?_⟩
      rw [List.mem_singleton.mp hth]
      exact .allow fuel hm.1
    | answer i body =>
      obtain ⟨c, -, he⟩ := Option.map_eq_some_iff.mp hx
      cases he
      refine ⟨?_, World.grows_same rfl rfl, fun _ hth => (nomatch hth)⟩
      exact Guarding.change hw [] (World.grows_same rfl rfl) rfl (fun _ hm => (nomatch hm))
        (fun c => ⟨hw.cur_c c, hw.cur_id c, hw.cur_exists c⟩) (fun _ => rfl) fun _ => .inr rfl

theorem guarding_init (hL : 0 ≤ L) (time : ℤ) (m : Mem) : Guarding edge key L (World.init time m) where
  cur_c _ := rfl
  cur_id _ := Nat.one_pos
  cur_exists _ := .inl rfl
  unused _ _ := rfl
  count _ := ⟨le_rfl, hL⟩
  funded _ h := absurd h (lt_irrefl 0)
  banked _ h := absurd h.choose_spec List.not_mem_nil
  once _ _ h := absurd h.choose_spec List.not_mem_nil
  admitted _ := .inl le_rfl

end Guard

/-- One edge and one fixed-window quota of limit `L`, in front of a hub that answers as it
pleases. If tokens are only banked in helds that share their label with no other, the cost
admitted under a window ID is at most `L`. -/
theorem edge_guard_holds (dep : Deployment) (edge : ℕ) (key : String) {L : ℤ} (hL : 0 ≤ L) (time : ℤ) (m : Mem)
    {acts : List HubBlock} {p : Edges}
    (hok : Along (Edges.hubBlock dep) (Pool.MeetsBlock (anyHub dep) ((oneQuota edge key L).and soleHelds)) (Edges.init time m) acts)
    (hrun : runAll (Edges.hubBlock dep) (Edges.init time m) acts = some p) (W : ℤ) : admittedAs W p.shared.log ≤ L := by
  have hinit : (guardLogic dep edge key L).Rested (Edges.init time m) :=
    ⟨guarding_init hL time m, fun _ hth => absurd hth List.not_mem_nil⟩
  have hrest := BlockLogic.rested_run (guardLogic_sound dep) hinit hok hrun
  rcases hrest.1.admitted W with h0 | ⟨h, -, -, hle⟩
  · omega
  · exact hle.trans (hrest.1.count h).2

namespace Sample

/-- A lease of 200 tokens for the window 5, for a second. -/
def bigLease : Except Code QuotaLeaseResponse := .ok ⟨200, 1, 0, 5, 1000, 1000, 1, 0, 100, false, 0⟩

/-- A block of `n` instructions of the goroutine `t`, with the clock at `now`. -/
def hubBlock (n t : ℕ) (now : ℤ) : HubBlock := .block t (List.replicate n { value := now, fuel := 3 })

/-- A call that finds no tokens and is admitted once the hub has answered. -/
def leasedCall (t call : ℕ) (now : ℤ) (start answered : ℕ × ℕ) : List HubBlock :=
  [.env (.allow 0 3 (request 60)), hubBlock start.1 t now, hubBlock start.2 (t + 1) now, .env (.answer call bigLease),
    hubBlock answered.1 (t + 1) now, hubBlock answered.2 t now]

/-- Two such calls. At the second, the window the hub gave is over and the hub names it again. -/
def twoLeases : List HubBlock :=
  leasedCall 0 0 5100 (13, 7) (12, 15) ++ [.env (.tick 2000)] ++ leasedCall 2 1 7100 (21, 8) (8, 15)

end Sample

open Sample in
/-- A limit of 100, and 120 admitted as window 5: the reset starts a new count under the old label. -/
theorem reset_starts_label_anew :
    ∃ p, runAll (Edges.hubBlock dep) (Edges.init 5100 Mem.new) twoLeases = some p ∧
      Along (Edges.hubBlock dep) (Pool.MeetsBlock (anyHub dep) ((oneQuota 0 (stateKey (request 60)) 100).and inTime))
        (Edges.init 5100 Mem.new) twoLeases ∧
      Along (Edges.hubBlock dep) oneByOne (Edges.init 5100 Mem.new) twoLeases ∧ admittedAs 5 p.shared.log = 120 := by
  have heval : (runAll (Edges.hubBlock dep) (Edges.init 5100 Mem.new) twoLeases).map
      (fun p => admittedAs 5 p.shared.log) = some 120 := by decide +kernel
  obtain ⟨p, hrun, hp⟩ := Option.map_eq_some_iff.mp heval
  exact ⟨p, hrun, by decide +kernel, by decide +kernel, hp⟩

open Sample in
theorem edge_guard_holds_first_lease :
    ∃ p, runAll (Edges.hubBlock dep) (Edges.init 5100 Mem.new) (leasedCall 0 0 5100 (13, 7) (12, 15)) = some p ∧
      admittedAs 5 p.shared.log = 60 ∧ admittedAs 5 p.shared.log ≤ 100 := by
  have heval : (runAll (Edges.hubBlock dep) (Edges.init 5100 Mem.new) (leasedCall 0 0 5100 (13, 7) (12, 15))).map
      (fun p => admittedAs 5 p.shared.log) = some 60 := by decide +kernel
  obtain ⟨p, hrun, hp⟩ := Option.map_eq_some_iff.mp heval
  exact ⟨p, hrun, hp, edge_guard_holds dep 0 (stateKey (request 60)) (by decide) 5100 Mem.new (by decide +kernel) hrun 5⟩

end Gate
