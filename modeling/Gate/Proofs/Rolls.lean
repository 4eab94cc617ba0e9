import Gate.Proofs.LeaseSafety
import Gate.Proofs.RollLogic

/-! Do window rolls and late charges linearise? `install` reads the debt it carries before it publishes
the new held, and `adjust` looks up the current held before it charges it. A charge that falls between
the two is lost: neither order of the calls gives the balance. If every roll carries the debt of its
moment and every charge is made on the held of its moment, the steps that take effect give the order;
the calls that take no effect come last. -/

namespace Gate

open Conc

namespace Rolling

/-- The calls that have their place in the order. -/
def countedCalls (ks : List Core) : List CounterCall := (ks.filter (·.counted)).map (·.call)

section Counted

variable {ks : List Core} {t : ℕ} {k k' : Core}

theorem countedCalls_set_open (hk : ks[t]? = some k) (hopen : k.counted = false) (hopen' : k'.counted = false) :
    countedCalls (ks.set t k') = countedCalls ks := by
  induction ks generalizing t with
  | nil => simp at hk
  | cons a ks ih =>
    cases t with
    | zero =>
      obtain rfl : a = k := by simpa using hk
      simp [countedCalls, hopen, hopen']
    | succ t =>
      have h : countedCalls (ks.set t k') = countedCalls ks := ih (by simpa using hk)
      simp only [countedCalls] at h
      simp only [countedCalls, List.set_cons_succ, List.filter_cons]
      split <;> simp [h]

/-- A call that gets its place comes last. -/
theorem countedCalls_set (hk : ks[t]? = some k) (hopen : k.counted = false) (hcounted : k'.counted = true)
    (hcall : k'.call = k.call) : (countedCalls ks ++ [k.call]).Perm (countedCalls (ks.set t k')) := by
  induction ks generalizing t with
  | nil => simp at hk
  | cons a ks ih =>
    cases t with
    | zero =>
      obtain rfl : a = k := by simpa using hk
      simp [countedCalls, hopen, hcounted, hcall]
    | succ t =>
      have h : (countedCalls ks ++ [k.call]).Perm (countedCalls (ks.set t k')) := ih (by simpa using hk)
      simp only [countedCalls] at h
      simp only [countedCalls, List.set_cons_succ, List.filter_cons]
      split
      · simpa using h
      · exact h

end Counted

def cores (gs : List Share) : List Core := gs.map (·.core)

section Cores

variable {gs : List Share} {t : ℕ} {g g' : Share}

theorem getElem?_cores (hg : gs[t]? = some g) : (cores gs)[t]? = some g.core := by simp [cores, hg]

theorem cores_set (gs : List Share) (t : ℕ) (g' : Share) : cores (gs.set t g') = (cores gs).set t g'.core := List.map_set

theorem cores_set_self (hg : gs[t]? = some g) (hcore : g'.core = g.core) : cores (gs.set t g') = cores gs := map_set_self hg hcore

end Cores

/-! The invariant. -/

section Invariant

variable (dep : Deployment) (c : CPtr) (maxDebt : ℤ) (w₀ : World)

/-- What a goroutine knows stays true. -/
def Knows (w : World) (g : Share) : Prop :=
  (g.late = true → w.cells (.resetAt c) = 0 ∧ 0 < w₀.cells (.resetAt c)) ∧ (g.rolled = true → w.cur c ≠ w₀.cur c)

/-- A held that is not yet published belongs to one call. -/
structure Heap (w : World) (gs : List Share) : Prop where
  counter : (w.cur c).c = c
  window : (w₀.cur c).win ≤ (w.cur c).win
  cur : (w.cur c).id < w.fresh
  first : (w₀.cur c).id < w.fresh
  own : ∀ g ∈ gs, ∀ h, g.next = some h → h.id < w.fresh ∧ h ≠ w₀.cur c ∧ h ≠ w.cur c
  apart : ∀ (t t' : ℕ) (g g' : Share) (h : HPtr), gs[t]? = some g → gs[t']? = some g' → g.next = some h → g'.next = some h → t = t'
  knows : ∀ g ∈ gs, Knows c w₀ w g

/-- Nobody has put the reset time back, or one call has. -/
def OneReset (w : World) (ks : List Core) : Prop :=
  (w.cells (.resetAt c) = w₀.cells (.resetAt c) ∧ ∀ k ∈ ks, k.won = false) ∨
    (w.cells (.resetAt c) = 0 ∧ 0 < w₀.cells (.resetAt c) ∧
      ∃ t < ks.length, ∀ (t' : ℕ) (k : Core), ks[t']? = some k → (k.won = true ↔ t' = t))

/-- Before the first roll the reset time of the calls in order is 0 when the call that puts it back has
its place. -/
def BeforeRoll (ws w : World) (ks : List Core) : Prop :=
  w.cur c = w₀.cur c ∧ ws.cur c = w₀.cur c ∧
    ((ws.cells (.resetAt c) = w₀.cells (.resetAt c) ∧ ∀ k ∈ ks, k.won = true → k.counted = false) ∨
      (ws.cells (.resetAt c) = 0 ∧ ∃ k ∈ ks, k.won = true ∧ k.counted = true))

/-- After it there is nothing left to drop. -/
def AfterRoll (w : World) : Prop := w.cur c ≠ w₀.cur c ∧ w.balance c ≤ 0

/-- The calls that have their place give, in their order, the balance. -/
structure Ordered (order : List CounterCall) (ws w : World) (ks : List Core) : Prop where
  perm : order.Perm (countedCalls ks)
  ran : serially dep c maxDebt order w₀ = some ws
  balance : ws.balance c = w.balance c
  phase : BeforeRoll c w₀ ws w ks ∨ AfterRoll c w₀ w

structure Linear (w : World) (gs : List Share) : Prop where
  heap : Heap c w₀ w gs
  oneReset : OneReset c w₀ w (cores gs)
  resets : ∀ g ∈ gs, g.core.won = true → ∃ req nowMs, g.core.call = .reset req nowMs
  ordered : ∃ order ws, Ordered dep c maxDebt w₀ order ws w (cores gs)

end Invariant

section Steps

variable {dep : Deployment} {c : CPtr} {maxDebt : ℤ} {w₀ w w' : World} {gs : List Share} {t : ℕ} {g g' : Share}

/-! The heap. -/

theorem Heap.world (h : Heap c w₀ w gs) (hcur : w'.cur c = w.cur c) (hfresh : w'.fresh = w.fresh)
    (hcells : w'.cells (.resetAt c) = w.cells (.resetAt c) ∨ (w'.cells (.resetAt c) = 0 ∧ 0 < w₀.cells (.resetAt c))) :
    Heap c w₀ w' gs where
  counter := by rw [hcur]; exact h.counter
  window := by rw [hcur]; exact h.window
  cur := by rw [hcur, hfresh]; exact h.cur
  first := by rw [hfresh]; exact h.first
  own := by rw [hcur, hfresh]; exact h.own
  apart := h.apart
  knows := by
    intro g hg
    refine ⟨fun hlate => ?_, fun hrolled => hcur ▸ (h.knows g hg).2 hrolled⟩
    rcases hcells with heq | hzero
    · rw [heq]
      exact (h.knows g hg).1 hlate
    · exact hzero

/-- A goroutine learns something, or gives up its held. -/
theorem Heap.share (h : Heap c w₀ w gs) (hg : gs[t]? = some g) (hnext : ∀ x, g'.next = some x → g.next = some x)
    (hknows : Knows c w₀ w g') : Heap c w₀ w (gs.set t g') where
  counter := h.counter
  window := h.window
  cur := h.cur
  first := h.first
  own := by
    intro x hx
    rcases List.mem_or_eq_of_mem_set hx with hx | rfl
    · exact h.own x hx
    · exact fun y hy => h.own g (List.mem_of_getElem? hg) y (hnext y hy)
  apart := by
    have hback : ∀ (i : ℕ) (x : Share) (y : HPtr), (gs.set t g')[i]? = some x → x.next = some y → ∃ x', gs[i]? = some x' ∧ x'.next = some y := by
      intro i x y hi hx
      rcases getElem?_set_cases hi with ⟨rfl, rfl⟩ | ⟨-, hi⟩
      · exact ⟨g, hg, hnext y hx⟩
      · exact ⟨x, hi, hx⟩
    intro i j x x' y hi hj hx hx'
    obtain ⟨x₁, hi₁, hx₁⟩ := hback i x y hi hx
    obtain ⟨x₂, hj₂, hx₂⟩ := hback j x' y hj hx'
    exact h.apart i j x₁ x₂ y hi₁ hj₂ hx₁ hx₂
  knows := by
    intro x hx
    rcases List.mem_or_eq_of_mem_set hx with hx | rfl
    · exact h.knows x hx
    · exact hknows

/-- A new held is nobody else's. -/
theorem Heap.newHeld (h : Heap c w₀ w gs) (hg : gs[t]? = some g) {x : HPtr} (hx : x.id = w.fresh) (hcur : w'.cur c = w.cur c)
    (hfresh : w'.fresh = w.fresh + 1) (hcells : w'.cells = w.cells) : Heap c w₀ w' (gs.set t { g with next := some x }) where
  counter := by rw [hcur]; exact h.counter
  window := by rw [hcur]; exact h.window
  cur := by
    have := h.cur
    rw [hcur]
    omega
  first := by
    have := h.first
    omega
  own := by
    intro y hy z hz
    rw [hcur]
    rcases List.mem_or_eq_of_mem_set hy with hy | rfl
    · obtain ⟨hlt, hne⟩ := h.own y hy z hz
      exact ⟨by omega, hne⟩
    · obtain rfl : x = z := by simpa using hz
      refine ⟨by omega, ?_, ?_⟩
      · rintro rfl
        exact absurd h.first (by omega)
      · rintro rfl
        exact absurd h.cur (by omega)
  apart := by
    have hold : ∀ y ∈ gs, y.next ≠ some x := fun y hy hyx => absurd (h.own y hy x hyx).1 (by omega)
    intro i j y y' z hi hj hy hy'
    rcases getElem?_set_cases hi with ⟨rfl, rfl⟩ | ⟨-, hi₁⟩ <;> rcases getElem?_set_cases hj with ⟨rfl, rfl⟩ | ⟨-, hj₁⟩
    · rfl
    · exact absurd (hy'.trans hy.symm) (hold y' (List.mem_of_getElem? hj₁))
    · exact absurd (hy.trans hy'.symm) (hold y (List.mem_of_getElem? hi₁))
    · exact h.apart i j y y' z hi₁ hj₁ hy hy'
  knows := by
    intro y hy
    rw [Knows, hcur, hcells]
    rcases List.mem_or_eq_of_mem_set hy with hy | rfl
    · exact h.knows y hy
    · exact h.knows g (List.mem_of_getElem? hg)

/-- A published held is nobody's any more. -/
theorem Heap.publish (h : Heap c w₀ w gs) (hg : gs[t]? = some g) {x : HPtr} (hx : g.next = some x) (hc : x.c = c)
    (hwin : (w.cur c).win ≤ x.win) (hcur : w'.cur c = x) (hfresh : w'.fresh = w.fresh) (hcells : w'.cells = w.cells)
    (hnone : g'.next = none) (hlate : g'.late = g.late) : Heap c w₀ w' (gs.set t g') := by
  have hmem := List.mem_of_getElem? hg
  obtain ⟨hlt, hfirst, -⟩ := h.own g hmem x hx
  refine ⟨?_, ?_, ?_, ?_, ?_, ?_, ?_⟩
  · rw [hcur, hc]
  · rw [hcur]
    exact h.window.trans hwin
  · rw [hcur, hfresh]
    exact hlt
  · rw [hfresh]
    exact h.first
  · intro y hy z hz
    obtain ⟨j, hj⟩ := List.mem_iff_getElem?.mp hy
    rcases getElem?_set_cases hj with ⟨rfl, rfl⟩ | ⟨hne, hj⟩
    · rw [hnone] at hz
      cases hz
    · obtain ⟨hzlt, hzfirst, -⟩ := h.own y (List.mem_of_getElem? hj) z hz
      rw [hcur, hfresh]
      refine ⟨hzlt, hzfirst, ?_⟩
      rintro rfl
      exact hne (h.apart j t y g z hj hg hz hx)
  · have hback : ∀ (i : ℕ) (y : Share) (z : HPtr), (gs.set t g')[i]? = some y → y.next = some z → gs[i]? = some y := by
      intro i y z hi hy
      rcases getElem?_set_cases hi with ⟨rfl, rfl⟩ | ⟨-, hi⟩
      · rw [hnone] at hy
        cases hy
      · exact hi
    exact fun i j y y' z hi hj hy hy' => h.apart i j y y' z (hback i y z hi hy) (hback j y' z hj hy') hy hy'
  · intro y hy
    rw [Knows, hcur, hcells]
    rcases List.mem_or_eq_of_mem_set hy with hy | rfl
    · exact ⟨(h.knows y hy).1, fun _ => hfirst⟩
    · exact ⟨fun hl => (h.knows g hmem).1 (hlate ▸ hl), fun _ => hfirst⟩

/-! The order. -/

section Order

variable {ks : List Core} {k k' : Core} {order : List CounterCall} {ws : World}

theorem OneReset.set (h : OneReset c w₀ w ks) (hcells : w'.cells (.resetAt c) = w.cells (.resetAt c)) (hk : ks[t]? = some k)
    (hwon : k'.won = k.won) : OneReset c w₀ w' (ks.set t k') := by
  rcases h with ⟨hat, hno⟩ | ⟨hat, hpos, i, hi, hone⟩
  · refine .inl ⟨hcells.trans hat, fun x hx => ?_⟩
    rcases List.mem_or_eq_of_mem_set hx with hx | rfl
    · exact hno x hx
    · exact hwon.trans (hno k (List.mem_of_getElem? hk))
  · refine .inr ⟨hcells.trans hat, hpos, i, by simpa using hi, fun j x hj => ?_⟩
    rcases getElem?_set_cases hj with ⟨rfl, rfl⟩ | ⟨-, hj⟩
    · rw [hwon]
      exact hone j k hk
    · exact hone j x hj

/-- With the reset time as it was at first, nobody has put it back. -/
theorem OneReset.nobody (h : OneReset c w₀ w ks) (hat : w.cells (.resetAt c) = w₀.cells (.resetAt c)) (hpos : 0 < w₀.cells (.resetAt c)) :
    ∀ k ∈ ks, k.won = false := by
  rcases h with ⟨-, hno⟩ | ⟨hzero, -, -⟩
  · exact hno
  · omega

/-- The call that has put the reset time back is the only one. -/
theorem OneReset.only (h : OneReset c w₀ w ks) (hk : ks[t]? = some k) (hwon : k.won = true) :
    0 < w₀.cells (.resetAt c) ∧ ∀ x ∈ ks, x.won = true → x = k := by
  rcases h with ⟨-, hno⟩ | ⟨-, hpos, i, -, hone⟩
  · exact absurd hwon (by simp [hno k (List.mem_of_getElem? hk)])
  · refine ⟨hpos, fun x hx hxw => ?_⟩
    obtain ⟨j, hj⟩ := List.mem_iff_getElem?.mp hx
    have hji : j = t := ((hone j x hj).mp hxw).trans ((hone t k hk).mp hwon).symm
    subst hji
    exact Option.some.inj (hj.symm.trans hk)

theorem Ordered.world (h : Ordered dep c maxDebt w₀ order ws w ks) (hcur : w'.cur c = w.cur c) (hbal : w'.balance c = w.balance c) :
    Ordered dep c maxDebt w₀ order ws w' ks where
  perm := h.perm
  ran := h.ran
  balance := h.balance.trans hbal.symm
  phase := by
    rw [BeforeRoll, AfterRoll, hcur, hbal]
    exact h.phase

/-- A call takes effect: it comes last. -/
theorem Ordered.snoc (h : Ordered dep c maxDebt w₀ order ws w ks) (hk : ks[t]? = some k) (hopen : k.counted = false)
    (hcounted : k'.counted = true) {call : CounterCall} (hcall : k.call = call) (hcall' : k'.call = call)
    (hends : CallEnds dep c maxDebt call (fun ws' => ws'.balance c = w'.balance c ∧
      (BeforeRoll c w₀ ws' w' (ks.set t k') ∨ AfterRoll c w₀ w')) ws) :
    ∃ order' ws', Ordered dep c maxDebt w₀ order' ws' w' (ks.set t k') := by
  obtain ⟨ws', hran, hbal, hphase⟩ := serially_snoc h.ran hends
  refine ⟨order ++ [call], ws', (h.perm.append_right _).trans ?_, hran, hbal, hphase⟩
  rw [← hcall]
  exact countedCalls_set hk hopen hcounted (hcall'.trans hcall.symm)

/-- A bucket's reset takes effect when it puts the reset time back. -/
theorem Ordered.bucket (h : Ordered dep c maxDebt w₀ order ws w ks) (hk : ks[t]? = some k) (hopen : k.counted = false)
    (hno : ∀ x ∈ ks, x.won = false) {req : Request} {nowMs : ℤ} (hcall : k.call = .reset req nowMs) (hreq : req.algo = .tokenBucket)
    (hpos : 0 < w₀.cells (.resetAt c)) (hnow : w₀.cells (.resetAt c) ≤ nowMs) (hcur : w'.cur c = w.cur c)
    (hbal : w'.balance c = w.balance c) :
    ∃ order' ws', Ordered dep c maxDebt w₀ order' ws' w' (ks.set t { k with won := true, counted := true }) := by
  refine h.snoc hk hopen rfl hcall hcall ?_
  rcases h.phase with ⟨hfirst, hwfirst, hat | ⟨-, x, hx, hxw, -⟩⟩ | ⟨hne, hle⟩
  · refine (reset_bucket (hat.1 ▸ hpos) (hat.1 ▸ hnow) hreq).mono fun ws' ⟨hc', hb', hz⟩ => ?_
    have hmem := List.mem_set (List.getElem?_eq_some_iff.mp hk).1 ({ k with won := true, counted := true } : Core)
    refine ⟨hb'.trans (h.balance.trans hbal.symm), .inl ⟨hcur.trans hfirst, hc'.trans hwfirst, .inr ⟨hz, ?_⟩⟩⟩
    exact ⟨{ k with won := true, counted := true }, hmem, rfl, rfl⟩
  · exact absurd hxw (by simp [hno x hx])
  · refine (quiet_ends (fun _ _ heq => by cases heq) (h.balance.le.trans hle)).mono fun ws' hb' => ?_
    exact ⟨hb'.trans (h.balance.trans hbal.symm), .inr ⟨hcur ▸ hne, hbal.le.trans hle⟩⟩

/-- Another reset takes effect later. -/
theorem Ordered.opens (h : Ordered dep c maxDebt w₀ order ws w ks) (hk : ks[t]? = some k) (hopen : k.counted = false)
    (hno : ∀ x ∈ ks, x.won = false) (hcur : w'.cur c = w.cur c) (hbal : w'.balance c = w.balance c) :
    Ordered dep c maxDebt w₀ order ws w' (ks.set t { k with won := true, counted := false }) := by
  refine ⟨?_, h.ran, h.balance.trans hbal.symm, ?_⟩
  · rw [countedCalls_set_open hk hopen rfl]
    exact h.perm
  rcases h.phase with ⟨hfirst, hwfirst, hat | ⟨-, x, hx, hxw, -⟩⟩ | ⟨hne, hle⟩
  · refine .inl ⟨hcur.trans hfirst, hwfirst, .inl ⟨hat.1, fun x hx hxw => ?_⟩⟩
    rcases List.mem_or_eq_of_mem_set hx with hx | rfl
    · exact hat.2 x hx hxw
    · rfl
  · exact absurd hxw (by simp [hno x hx])
  · exact .inr ⟨hcur ▸ hne, hbal.le.trans hle⟩

/-- A charge takes effect when it is made on the current held. -/
theorem Ordered.charge (h : Ordered dep c maxDebt w₀ order ws w ks) (hk : ks[t]? = some k) (hopen : k.counted = false)
    (hwon : k.won = false) {x : HPtr} {delta : ℤ} (hcall : k.call = .adjust x delta) (hx : x.c = c) (hd : 0 < delta)
    (hcur : w'.cur c = w.cur c) (hbal : w'.balance c = afterCharge maxDebt (w.balance c) delta) :
    ∃ order' ws', Ordered dep c maxDebt w₀ order' ws' w' (ks.set t { k with counted := true }) := by
  refine h.snoc hk hopen rfl hcall hcall ?_
  refine (adjust_ends hx hd ws).mono fun ws' ⟨hc', hb', hz⟩ => ⟨by rw [hb', hbal, h.balance], ?_⟩
  rcases h.phase with ⟨hfirst, hwfirst, hreset⟩ | ⟨hne, hle⟩
  · refine .inl ⟨hcur.trans hfirst, hc'.trans hwfirst, ?_⟩
    rw [hz]
    refine hreset.imp (fun ⟨hat, hall⟩ => ⟨hat, fun y hy hyw => ?_⟩) fun ⟨hat, y, hy, hyw, hyc⟩ => ⟨hat, y, ?_, hyw, hyc⟩
    · rcases List.mem_or_eq_of_mem_set hy with hy | rfl
      · exact hall y hy hyw
      · exact absurd hyw (by simp [hwon])
    · refine mem_set_of_ne hk hy ?_
      rintro rfl
      exact absurd hyc (by simp [hopen])
  · exact .inr ⟨hcur ▸ hne, hbal.le.trans (afterCharge_nonpos hd hle)⟩

/-- The first roll, alone after the calls that have taken effect. -/
theorem Ordered.rolls_last (h : Ordered dep c maxDebt w₀ order ws w ks) (hbefore : BeforeRoll c w₀ ws w ks) (hk : ks[t]? = some k)
    (hopen : k.counted = false) (hone : OneReset c w₀ w ks) (hrolls : k.Rolls c w₀) :
    CallEnds dep c maxDebt k.call (fun ws' => ws'.balance c = min (w.balance c) 0) ws := by
  obtain ⟨-, hwfirst, hreset⟩ := hbefore
  rw [← h.balance]
  cases hcall : k.call with
  | adjust x delta => simp [Core.Rolls, hcall] at hrolls
  | roll win parentWin =>
    rw [Core.Rolls, hcall] at hrolls
    exact roll_ends (hwfirst ▸ hrolls)
  | reset req nowMs =>
    rw [Core.Rolls, hcall] at hrolls
    obtain ⟨hwon, hreq, hnow⟩ := hrolls
    obtain ⟨hpos, honly⟩ := hone.only hk hwon
    have hat : ws.cells (.resetAt c) = w₀.cells (.resetAt c) := by
      rcases hreset with ⟨hat, -⟩ | ⟨-, y, hy, hyw, hyc⟩
      · exact hat
      · rw [honly y hy hyw, hopen] at hyc
        cases hyc
    exact reset_rolls (hat ▸ hpos) (hat ▸ hnow) hreq

/-- A roll takes effect when it is the first to publish a held; a later one has nothing to drop. -/
theorem Ordered.roll (h : Ordered dep c maxDebt w₀ order ws w ks) (hk : ks[t]? = some k) (hopen : k.counted = false)
    (hone : OneReset c w₀ w ks) (hrolls : k.Rolls c w₀) (hcur : w'.cur c ≠ w₀.cur c) (hbal : w'.balance c = min (w.balance c) 0) :
    ∃ counted order' ws', Ordered dep c maxDebt w₀ order' ws' w' (ks.set t { k with counted := counted }) := by
  have hafter : AfterRoll c w₀ w' := ⟨hcur, hbal.le.trans (min_le_right _ _)⟩
  rcases h.phase with hbefore | ⟨-, hle⟩
  · refine ⟨true, h.snoc hk hopen rfl rfl rfl ?_⟩
    exact (h.rolls_last hbefore hk hopen hone hrolls).mono fun ws' hb' => ⟨hb'.trans hbal.symm, .inr hafter⟩
  · refine ⟨false, order, ws, ?_, h.ran, ?_, .inr hafter⟩
    · rw [countedCalls_set_open hk hopen rfl]
      exact h.perm
    · rw [h.balance, hbal, min_eq_left hle]

end Order

/-! The instructions. -/

theorem Linear.world (h : Linear dep c maxDebt w₀ w gs) (hcur : w'.cur c = w.cur c) (hfresh : w'.fresh = w.fresh)
    (hcells : w'.cells (.resetAt c) = w.cells (.resetAt c)) (hbal : w'.balance c = w.balance c) : Linear dep c maxDebt w₀ w' gs where
  heap := h.heap.world hcur hfresh (.inl hcells)
  oneReset := by
    rw [OneReset, hcells]
    exact h.oneReset
  resets := h.resets
  ordered := by
    obtain ⟨order, ws, ho⟩ := h.ordered
    exact ⟨order, ws, ho.world hcur hbal⟩

theorem Linear.setCell (h : Linear dep c maxDebt w₀ w gs) {x : Cell} (hx : x ≠ .resetAt c) (v : ℤ) :
    Linear dep c maxDebt w₀ (w.setCell x v) gs := h.world rfl rfl (Function.update_of_ne hx.symm ..) rfl

theorem Linear.resets_set (h : Linear dep c maxDebt w₀ w gs)
    (hg' : g'.core.won = true → ∃ req nowMs, g'.core.call = .reset req nowMs) :
    ∀ x ∈ gs.set t g', x.core.won = true → ∃ req nowMs, x.core.call = .reset req nowMs := by
  intro x hx
  rcases List.mem_or_eq_of_mem_set hx with hx | rfl
  · exact h.resets x hx
  · exact hg'

/-- A goroutine learns something. -/
theorem Linear.share (h : Linear dep c maxDebt w₀ w gs) (hg : gs[t]? = some g) (hcore : g'.core = g.core)
    (hnext : ∀ x, g'.next = some x → g.next = some x) (hknows : Knows c w₀ w g') : Linear dep c maxDebt w₀ w (gs.set t g') where
  heap := h.heap.share hg hnext hknows
  oneReset := by
    rw [cores_set_self hg hcore]
    exact h.oneReset
  resets := by
    apply h.resets_set
    rw [hcore]
    exact h.resets g (List.mem_of_getElem? hg)
  ordered := by
    rw [cores_set_self hg hcore]
    exact h.ordered

theorem Linear.same (h : Linear dep c maxDebt w₀ w gs) (hg : gs[t]? = some g) : Linear dep c maxDebt w₀ w (gs.set t g) :=
  h.share hg rfl (fun _ hx => hx) (h.heap.knows g (List.mem_of_getElem? hg))

theorem Linear.newHeld (h : Linear dep c maxDebt w₀ w gs) (hg : gs[t]? = some g) {x : HPtr} (hx : x.id = w.fresh)
    (hcur : w'.cur = w.cur) (hfresh : w'.fresh = w.fresh + 1) (hcells : w'.cells = w.cells) (htokens : w'.tokens = w.tokens) :
    Linear dep c maxDebt w₀ w' (gs.set t { g with next := some x }) := by
  have hcores : cores (gs.set t { g with next := some x }) = cores gs := cores_set_self hg rfl
  refine ⟨h.heap.newHeld hg hx (congrFun hcur c) hfresh hcells, ?_, h.resets_set (h.resets g (List.mem_of_getElem? hg)), ?_⟩
  · rw [hcores, OneReset, hcells]
    exact h.oneReset
  · rw [hcores]
    obtain ⟨order, ws, ho⟩ := h.ordered
    exact ⟨order, ws, ho.world (congrFun hcur c) (by rw [World.balance, World.balance, hcur, htokens])⟩

/-- A reset puts the reset time back. -/
theorem Linear.win (h : Linear dep c maxDebt w₀ w gs) (hg : gs[t]? = some g) (hat : w.cells (.resetAt c) = w₀.cells (.resetAt c))
    (hpos : 0 < w₀.cells (.resetAt c)) (hopen : g.core.counted = false) {req : Request} {nowMs : ℤ}
    (hcall : g.core.call = .reset req nowMs) (hnow : w₀.cells (.resetAt c) ≤ nowMs) :
    Linear dep c maxDebt w₀ (w.setCell (.resetAt c) 0)
      (gs.set t { g with core := { g.core with won := true, counted := g.core.isBucket } }) := by
  have hk := getElem?_cores hg
  have hno := h.oneReset.nobody hat hpos
  have hzero : (w.setCell (.resetAt c) 0).cells (.resetAt c) = 0 := Function.update_self ..
  have hheap : Heap c w₀ (w.setCell (.resetAt c) 0) gs := h.heap.world rfl rfl (.inr ⟨hzero, hpos⟩)
  refine ⟨hheap.share hg (fun _ hx => hx) (hheap.knows g (List.mem_of_getElem? hg)), ?_, ?_, ?_⟩
  · rw [cores_set]
    refine .inr ⟨hzero, hpos, t, by simpa using (List.getElem?_eq_some_iff.mp hk).1, fun j x hj => ?_⟩
    rcases getElem?_set_cases hj with ⟨rfl, rfl⟩ | ⟨hne, hj⟩
    · simp
    · simp [hno x (List.mem_of_getElem? hj), hne]
  · exact h.resets_set fun _ => ⟨req, nowMs, hcall⟩
  · rw [cores_set]
    obtain ⟨order, ws, ho⟩ := h.ordered
    by_cases hreq : req.algo = .tokenBucket
    · have hb : g.core.isBucket = true := by simp [Core.isBucket, hcall, hreq]
      rw [hb]
      exact ho.bucket hk hopen hno hcall hreq hpos hnow rfl rfl
    · have hb : g.core.isBucket = false := by simp [Core.isBucket, hcall, hreq]
      rw [hb]
      exact ⟨order, ws, ho.opens hk hopen hno rfl rfl⟩

/-- A charge is made on the current held. -/
theorem Linear.charge (h : Linear dep c maxDebt w₀ w gs) (hg : gs[t]? = some g) (hopen : g.core.counted = false) {x : HPtr} {delta : ℤ}
    (hcall : g.core.call = .adjust x delta) (hx : x.c = c) (hd : 0 < delta) (note : Note) :
    Linear dep c maxDebt w₀ (w.casTokens (w.cur c) (w.balance c) (afterCharge maxDebt (w.balance c) delta) note)
      (gs.set t { g with core := { g.core with counted := true } }) := by
  have hk := getElem?_cores hg
  have hmem := List.mem_of_getElem? hg
  have hwon : g.core.won = false := by
    by_contra hwon
    obtain ⟨req, nowMs, hreset⟩ := h.resets g hmem (by simpa using hwon)
    rw [hcall] at hreset
    cases hreset
  generalize hw' : w.casTokens (w.cur c) (w.balance c) (afterCharge maxDebt (w.balance c) delta) note = w'
  have hcur : w'.cur = w.cur := by rw [← hw', cur_casTokens]
  have hcells : w'.cells = w.cells := by rw [← hw', cells_casTokens]
  have hfresh : w'.fresh = w.fresh := by rw [← hw', fresh_casTokens]
  have hbal : w'.balance c = afterCharge maxDebt (w.balance c) delta := by
    rw [World.balance, hcur, ← hw', tokens_casTokens, Function.update_self]
  have hheap : Heap c w₀ w' gs := h.heap.world (congrFun hcur c) hfresh (.inl (by rw [hcells]))
  refine ⟨hheap.share hg (fun _ hx => hx) (hheap.knows g hmem), ?_, ?_, ?_⟩
  · rw [cores_set]
    exact h.oneReset.set (by rw [hcells]) hk rfl
  · exact h.resets_set (h.resets g hmem)
  · rw [cores_set]
    obtain ⟨order, ws, ho⟩ := h.ordered
    exact ho.charge hk hopen hwon hcall hx hd (congrFun hcur c) hbal

/-- A held is published with the debt of the one it replaces. -/
theorem Linear.publish (h : Linear dep c maxDebt w₀ w gs) (hg : gs[t]? = some g) {x : HPtr} (hx : g.next = some x) (hc : x.c = c)
    (hwin : (w.cur c).win ≤ x.win) (hopen : g.core.counted = false) (hrolls : g.core.Rolls c w₀)
    (hdebt : w.tokens x = min (w.balance c) 0) :
    ∃ counted, Linear dep c maxDebt w₀ { w with cur := Function.update w.cur c x }
      (gs.set t { core := { g.core with counted := counted }, late := g.late, rolled := true, next := none }) := by
  have hk := getElem?_cores hg
  have hmem := List.mem_of_getElem? hg
  generalize hw' : ({ w with cur := Function.update w.cur c x } : World) = w'
  have hcur : w'.cur c = x := by
    rw [← hw']
    exact Function.update_self ..
  have hcells : w'.cells = w.cells := by rw [← hw']
  have hfresh : w'.fresh = w.fresh := by rw [← hw']
  have hbal : w'.balance c = min (w.balance c) 0 := by
    rw [World.balance, hcur, ← hw']
    exact hdebt
  have hne : w'.cur c ≠ w₀.cur c := by
    rw [hcur]
    exact (h.heap.own g hmem x hx).2.1
  obtain ⟨order, ws, ho⟩ := h.ordered
  obtain ⟨counted, order', ws', ho'⟩ := ho.roll hk hopen h.oneReset hrolls hne hbal
  refine ⟨counted, h.heap.publish hg hx hc hwin hcur hfresh hcells rfl rfl, ?_, ?_, ?_⟩
  · rw [cores_set]
    exact h.oneReset.set (by rw [hcells]) hk rfl
  · exact h.resets_set (h.resets g hmem)
  · rw [cores_set]
    exact ⟨order', ws', ho'⟩

/-- Any instruction of any call. -/
theorem linear_exec {i : Instr} {ch : Choice} {r : i.Answer} (h : Linear dep c maxDebt w₀ w gs) (hg : gs[t]? = some g)
    (hpre : pre c maxDebt w₀ i g) (hcond : (debtCarried c).instr i ch w) (hex : execCall dep i ch w = some (r, w')) :
    ∃ g', post c w₀ i g r g' ∧ g'.core.call = g.core.call ∧ Linear dep c maxDebt w₀ w' (gs.set t g') := by
  have hmem := List.mem_of_getElem? hg
  have hlearn : w.cells (.resetAt c) = 0 ∧ 0 < w₀.cells (.resetAt c) → Linear dep c maxDebt w₀ w (gs.set t { g with late := true }) :=
    fun hlate => h.share hg rfl (fun _ hx => hx) ⟨fun _ => hlate, (h.heap.knows g hmem).2⟩
  cases i with
  | load x =>
    obtain rfl : x = .resetAt c := hpre
    cases hex
    rcases h.oneReset with ⟨hat, -⟩ | ⟨hzero, hpos, -⟩
    · exact ⟨g, .inl ⟨hat, rfl⟩, rfl, h.same hg⟩
    · exact ⟨_, .inr ⟨hzero, rfl⟩, rfl, hlearn ⟨hzero, hpos⟩⟩
  | cas x old new =>
    obtain ⟨rfl, rfl, hold, hpos, -, hopen, req, nowMs, hcall, hnow⟩ := hpre
    by_cases heq : w.cells (.resetAt c) = old
    · simp only [execCall, execInstr, if_pos heq, Option.map_some, Option.some.injEq] at hex
      cases hex
      exact ⟨_, rfl, rfl, h.win hg (heq.trans hold) (hold ▸ hpos) hopen hcall (hold ▸ hnow)⟩
    · simp only [execCall, execInstr, if_neg heq, Option.map_some, Option.some.injEq] at hex
      cases hex
      refine ⟨_, rfl, rfl, hlearn ?_⟩
      rcases h.oneReset with ⟨hat, -⟩ | ⟨hzero, hpos', -⟩
      · exact absurd (hat.trans hold.symm) heq
      · exact ⟨hzero, hpos'⟩
  | store x v =>
    have hx : x ≠ .resetAt c := by
      rcases hpre with rfl | rfl <;> simp
    cases hex
    exact ⟨g, rfl, rfl, (h.setCell hx v).same hg⟩
  | add x d =>
    obtain ⟨y, rfl⟩ := hpre
    cases hex
    exact ⟨g, rfl, rfl, (h.setCell (by simp) _).same hg⟩
  | loadTokens x =>
    cases hex
    exact ⟨g, rfl, rfl, h.same hg⟩
  | storeTokens x v =>
    -- the held is not published, so the balance stays
    have hne : w.cur c ≠ x := ((h.heap.own g hmem x hpre).2.2).symm
    cases hex
    exact ⟨g, rfl, rfl, Linear.same (h.world rfl rfl rfl (Function.update_of_ne hne ..)) hg⟩
  | casTokens x old new note =>
    obtain ⟨hc, hopen, y, delta, hcall, hy, hd, rfl⟩ := hpre
    by_cases heq : w.tokens x = old
    · simp only [execCall, execInstr, if_pos heq, Option.map_some, Option.some.injEq] at hex
      cases hex
      have hcur : w.cur c = x := hc ▸ hcond.2 (x, old) rfl heq
      obtain rfl : w.balance c = old := by rw [World.balance, hcur, heq]
      rw [← hcur]
      exact ⟨_, rfl, rfl, h.charge hg hopen hcall hy hd note⟩
    · simp only [execCall, execInstr, if_neg heq, Option.map_some, Option.some.injEq] at hex
      cases hex
      exact ⟨g, rfl, rfl, h.same hg⟩
  | loadCur c' =>
    obtain rfl : c' = c := hpre
    cases hex
    refine ⟨_, ⟨h.heap.counter, h.heap.window, rfl⟩, rfl, h.share hg rfl (fun _ hx => hx) ⟨(h.heap.knows g hmem).1, fun hrolled => ?_⟩⟩
    rcases Bool.or_eq_true_iff.mp hrolled with hrolled | hne
    · exact (h.heap.knows g hmem).2 hrolled
    · exact of_decide_eq_true hne
  | casCur c' old new =>
    obtain ⟨rfl, hnext, hc, hwin, hopen, hrolls⟩ := hpre
    by_cases heq : w.cur c' = old
    · subst heq
      simp only [execCall, execInstr, if_true, Option.map_some, Option.some.injEq] at hex
      cases hex
      obtain ⟨counted, hlin⟩ := h.publish hg hnext hc hwin hopen hrolls (hcond.1 (c', w.cur c', new) rfl rfl)
      refine ⟨_, ?_, ?_, hlin⟩
      · exact ⟨rfl, rfl, rfl, rfl, rfl⟩
      · rfl
    · simp only [execCall, execInstr, if_neg heq, Option.map_some, Option.some.injEq] at hex
      cases hex
      exact ⟨g, rfl, rfl, h.same hg⟩
  | newHeld c' win parentWin =>
    obtain ⟨rfl, -⟩ := hpre
    cases hex
    exact ⟨_, ⟨rfl, rfl, rfl⟩, rfl, h.newHeld hg rfl rfl rfl rfl rfl⟩
  | _ => exact hpre.elim

/-- A call that starts. -/
theorem Heap.start (h : Heap c w₀ w gs) (call : CounterCall) : Heap c w₀ w (gs ++ [.start call]) where
  counter := h.counter
  window := h.window
  cur := h.cur
  first := h.first
  own := by
    intro x hx y hy
    rcases List.mem_append.mp hx with hx | hx
    · exact h.own x hx y hy
    · cases List.mem_singleton.mp hx
      cases hy
  apart := by
    have hback : ∀ (i : ℕ) (x : Share) (y : HPtr), (gs ++ [.start call])[i]? = some x → x.next = some y → gs[i]? = some x := by
      intro i x y hi hx
      rcases lt_or_ge i gs.length with hlt | hge
      · rwa [List.getElem?_append_left hlt] at hi
      · rw [List.getElem?_append_right hge] at hi
        cases List.mem_singleton.mp (List.mem_of_getElem? hi)
        cases hx
    exact fun i j x x' y hi hj hx hx' => h.apart i j x x' y (hback i x y hi hx) (hback j x' y hj hx') hx hx'
  knows := by
    intro x hx
    rcases List.mem_append.mp hx with hx | hx
    · exact h.knows x hx
    · cases List.mem_singleton.mp hx
      exact ⟨nofun, nofun⟩

theorem OneReset.start {ks : List Core} (h : OneReset c w₀ w ks) (call : CounterCall) : OneReset c w₀ w (ks ++ [⟨call, false, false⟩]) := by
  rcases h with ⟨hat, hno⟩ | ⟨hat, hpos, i, hi, hone⟩
  · refine .inl ⟨hat, fun x hx => ?_⟩
    rcases List.mem_append.mp hx with hx | hx
    · exact hno x hx
    · cases List.mem_singleton.mp hx
      rfl
  · refine .inr ⟨hat, hpos, i, by simp; omega, fun j x hj => ?_⟩
    rcases lt_or_ge j ks.length with hlt | hge
    · rw [List.getElem?_append_left hlt] at hj
      exact hone j x hj
    · rw [List.getElem?_append_right hge] at hj
      cases List.mem_singleton.mp (List.mem_of_getElem? hj)
      have hne : j ≠ i := by omega
      simp [hne]

theorem Ordered.start {ks : List Core} {order : List CounterCall} {ws : World} (h : Ordered dep c maxDebt w₀ order ws w ks)
    (call : CounterCall) : Ordered dep c maxDebt w₀ order ws w (ks ++ [⟨call, false, false⟩]) where
  perm := by simpa [countedCalls] using h.perm
  ran := h.ran
  balance := h.balance
  phase := by
    rcases h.phase with ⟨hfirst, hwfirst, hreset⟩ | hafter
    · refine .inl ⟨hfirst, hwfirst, hreset.imp (fun ⟨hat, hall⟩ => ⟨hat, fun x hx hxw => ?_⟩) fun ⟨hat, x, hx, hxw⟩ => ?_⟩
      · rcases List.mem_append.mp hx with hx | hx
        · exact hall x hx hxw
        · cases List.mem_singleton.mp hx
          rfl
      · exact ⟨hat, x, List.mem_append_left _ hx, hxw⟩
    · exact .inr hafter

theorem Linear.start (h : Linear dep c maxDebt w₀ w gs) (call : CounterCall) : Linear dep c maxDebt w₀ w (gs ++ [.start call]) := by
  have hcores : cores (gs ++ [.start call]) = cores gs ++ [⟨call, false, false⟩] := List.map_append
  refine ⟨h.heap.start call, ?_, fun x hx hxw => ?_, ?_⟩
  · rw [hcores]
    exact h.oneReset.start call
  · rcases List.mem_append.mp hx with hx | hx
    · exact h.resets x hx hxw
    · cases List.mem_singleton.mp hx
      cases hxw
  · rw [hcores]
    obtain ⟨order, ws, ho⟩ := h.ordered
    exact ⟨order, ws, ho.start call⟩

end Steps

/-! Whole runs. -/

section Runs

variable {dep : Deployment} {c : CPtr} {maxDebt : ℤ} {w₀ : World}

/-- The calls so far. -/
def Tracks (dep : Deployment) (c : CPtr) (maxDebt : ℤ) (w₀ : World) (calls : List CounterCall) (w : World) (gs : List Share) : Prop :=
  Linear dep c maxDebt w₀ w gs ∧ gs.map (·.core.call) = calls

theorem tracks_exec (calls : List CounterCall) :
    Pool.ExecOkTo (counterSem dep c maxDebt) (debtCarried c) (logic c maxDebt w₀) (Share.Settled c w₀) (Tracks dep c maxDebt w₀ calls) := by
  rintro i ch w gs t g r w' new hg ⟨hlin, rfl⟩ hcond hpre hex
  obtain ⟨out, hout, heq⟩ := Option.map_eq_some_iff.mp hex
  cases heq
  obtain ⟨g', hpost, hcall, hlin'⟩ := linear_exec hlin hg hpre hcond hout
  refine ⟨g', [], hpost, .nil, ?_⟩
  rw [List.append_nil]
  exact ⟨hlin', map_set_self hg hcall⟩

theorem tracks_run {acts : List (Act Choice (CounterCall × ℕ))} {p p' : Pool Instr.Answer World} {calls : List CounterCall}
    (hp : p.HoldsTo (logic c maxDebt w₀) (Share.Settled c w₀) (Tracks dep c maxDebt w₀ calls))
    (hok : Along (Pool.step (counterSem dep c maxDebt)) (Pool.Meets (debtCarried c)) p acts)
    (hrun : runAll (Pool.step (counterSem dep c maxDebt)) p acts = some p') :
    p'.HoldsTo (logic c maxDebt w₀) (Share.Settled c w₀) (Tracks dep c maxDebt w₀ (calls ++ startedCalls acts)) := by
  induction acts generalizing p calls with
  | nil =>
    obtain rfl : p = p' := by simpa [runAll] using hrun
    rw [startedCalls, List.append_nil]
    exact hp
  | cons a acts ih =>
    obtain ⟨p₁, hstep, hrest⟩ := runAll_cons hrun
    cases a with
    | run t ch => exact ih (Pool.holdsTo_run (tracks_exec calls) hp hok.1 hstep) (hok.next hstep) hrest
    | env e =>
      have hp₁ : p₁.HoldsTo (logic c maxDebt w₀) (Share.Settled c w₀) (Tracks dep c maxDebt w₀ (calls ++ [e.1])) := by
        obtain ⟨gs, hcov, hlin, rfl⟩ := hp
        cases hstep
        refine ⟨gs ++ [.start e.1], Pool.forall₂_append hcov (.cons (wp_proc hok.1 e.2) .nil), hlin.start e.1, ?_⟩
        rw [List.map_append]
        rfl
      have h := ih hp₁ (hok.next hstep) hrest
      rwa [List.append_assoc] at h

section Ends

variable {w : World} {gs : List Share} (h : Linear dep c maxDebt w₀ w gs) (hset : ∀ g ∈ gs, g.Settled c w₀)

include hset

theorem no_charge_open : ∀ g ∈ gs, g.core.counted = false → ∀ x delta, g.core.call ≠ .adjust x delta := by
  intro g hg hopen x delta hcall
  have hs := hset g hg
  rw [Share.Settled, hcall] at hs
  exact Bool.false_ne_true (hopen.symm.trans hs)

include h

/-- If the window was never rolled, the call that put the reset time back has its place. -/
theorem Linear.won_counted (hcur : w.cur c = w₀.cur c) : ∀ g ∈ gs, g.core.won = true → g.core.counted = true := by
  intro g hg hwon
  obtain ⟨req, nowMs, hcall⟩ := h.resets g hg hwon
  have hs := hset g hg
  rw [Share.Settled, hcall] at hs
  rcases hs.1 hwon with hcounted | hrolled
  · exact hcounted
  · exact absurd hcur ((h.heap.knows g hg).2 hrolled)

/-- If the window was never rolled, a call without its place has nothing to do. -/
theorem Linear.open_idle {ws : World} (hbefore : BeforeRoll c w₀ ws w (cores gs)) {g : Share} (hg : g ∈ gs) (hopen : g.core.counted = false) :
    CallEnds dep c maxDebt g.core.call (fun w' => w' = ws) ws := by
  obtain ⟨hcur, hwcur, hreset⟩ := hbefore
  have hrolled : g.rolled ≠ true := fun hr => (h.heap.knows g hg).2 hr hcur
  have hs := hset g hg
  rw [Share.Settled] at hs
  cases hcall : g.core.call with
  | adjust x delta => exact absurd hcall (no_charge_open hset g hg hopen x delta)
  | roll win parentWin =>
    rw [hcall] at hs
    apply roll_idle
    rw [hwcur]
    exact hs.resolve_left hrolled
  | reset req nowMs =>
    rw [hcall] at hs
    apply reset_idle
    have hwon : g.core.won ≠ true := fun hwon =>
      Bool.false_ne_true (hopen.symm.trans (h.won_counted hset hcur g hg hwon))
    rcases hs.2.resolve_left hwon with hlate | hnever
    · -- somebody has put the reset time back, and has its place
      have hzero := (h.heap.knows g hg).1 hlate
      rcases hreset with ⟨-, hall⟩ | ⟨hz, -⟩
      · rcases h.oneReset with ⟨hat, -⟩ | ⟨-, -, i, hi, hone⟩
        · omega
        · have hk : (cores gs)[i]? = some (cores gs)[i] := List.getElem?_eq_getElem hi
          have hw := (hone i _ hk).mpr rfl
          obtain ⟨g', hg', heq⟩ := List.mem_map.mp (List.mem_of_getElem? hk)
          have hc := hall _ (List.mem_of_getElem? hk) hw
          rw [← heq] at hw hc
          exact absurd (hc.symm.trans (h.won_counted hset hcur g' hg' hw)) Bool.false_ne_true
      · exact .inl hz.le
    · rcases hreset with ⟨hat, -⟩ | ⟨hz, -⟩
      · rw [hat]
        exact hnever
      · exact .inl hz.le

/-- When every call has ended, those that took no effect come last. -/
theorem Linear.ends : ∃ order, order.Perm (gs.map (·.core.call)) ∧
    ∃ w', serially dep c maxDebt order w₀ = some w' ∧ w'.balance c = w.balance c := by
  obtain ⟨order, ws, ho⟩ := h.ordered
  let rest := ((cores gs).filter (!·.counted)).map (·.call)
  have hperm : (order ++ rest).Perm (gs.map (·.core.call)) := by
    calc (order ++ rest).Perm (countedCalls (cores gs) ++ rest) := ho.perm.append_right _
      _ = ((cores gs).filter (·.counted) ++ (cores gs).filter (!·.counted)).map (·.call) := List.map_append.symm
      (_ : List CounterCall).Perm ((cores gs).map (·.call)) := (List.filter_append_perm _ _).map _
      _ = gs.map (·.core.call) := List.map_map
  have hopen : ∀ call ∈ rest, ∃ g ∈ gs, g.core.counted = false ∧ g.core.call = call := by
    intro call hcall
    obtain ⟨k, hk, rfl⟩ := List.mem_map.mp hcall
    obtain ⟨hk, hc⟩ := List.mem_filter.mp hk
    obtain ⟨g, hg, rfl⟩ := List.mem_map.mp hk
    exact ⟨g, hg, by simpa using hc, rfl⟩
  suffices hrest : ∃ w', serially dep c maxDebt rest ws = some w' ∧ w'.balance c = ws.balance c by
    obtain ⟨w', hran, hbal⟩ := hrest
    refine ⟨order ++ rest, hperm, w', ?_, hbal.trans ho.balance⟩
    rw [serially_append, ho.ran, Option.bind_some, hran]
  rcases ho.phase with hbefore | ⟨-, hle⟩
  · refine ⟨ws, serially_idle fun call hcall => ?_, rfl⟩
    obtain ⟨g, hg, hc, rfl⟩ := hopen call hcall
    exact h.open_idle hset hbefore hg hc
  · refine serially_quiet (fun call hcall => ?_) (ho.balance.le.trans hle)
    obtain ⟨g, hg, hc, rfl⟩ := hopen call hcall
    exact no_charge_open hset g hg hc

end Ends

theorem Linear.first (hc : (w₀.cur c).c = c) (hfresh : (w₀.cur c).id < w₀.fresh) : Linear dep c maxDebt w₀ w₀ [] where
  heap := ⟨hc, le_rfl, hfresh, hfresh, by simp, by simp, by simp⟩
  oneReset := .inl ⟨rfl, by simp [cores]⟩
  resets := by simp
  ordered := ⟨[], w₀, .refl _, rfl, rfl, .inl ⟨rfl, rfl, .inl ⟨rfl, by simp [cores]⟩⟩⟩

end Runs

end Rolling

/-- If every roll carries the debt of its moment and every charge is made on the held of its moment, the
balance when all calls have ended is that of the calls one at a time, in some order. -/
theorem rolls_linearise (dep : Deployment) (c : CPtr) (maxDebt : ℤ) (w₀ : World) (hc : (w₀.cur c).c = c) (hfresh : (w₀.cur c).id < w₀.fresh)
    (acts : List (Act Choice (CounterCall × ℕ))) (p : Pool Instr.Answer World)
    (hok : Along (Pool.step (counterSem dep c maxDebt)) (Pool.Meets (debtCarried c)) ⟨w₀, []⟩ acts)
    (hrun : runAll (Pool.step (counterSem dep c maxDebt)) ⟨w₀, []⟩ acts = some p) (hdone : ∀ th ∈ p.threads, th = .ret ()) :
    ∃ order, order.Perm (startedCalls acts) ∧
      ∃ w', serially dep c maxDebt order w₀ = some w' ∧ w'.balance c = p.shared.balance c := by
  have hstart : Pool.HoldsTo (Rolling.logic c maxDebt w₀) (Rolling.Share.Settled c w₀) (Rolling.Tracks dep c maxDebt w₀ []) ⟨w₀, []⟩ :=
    ⟨[], .nil, Rolling.Linear.first hc hfresh, rfl⟩
  obtain ⟨gs, hcov, hlin, hcalls⟩ := Rolling.tracks_run hstart hok hrun
  have hset : ∀ g ∈ gs, g.Settled c w₀ := by
    intro g hg
    obtain ⟨t, ht⟩ := List.mem_iff_getElem?.mp hg
    obtain ⟨th, hth, hwp⟩ := Pool.forall₂_get hcov.flip ht
    cases hdone th (List.mem_of_getElem? hth)
    exact hwp
  rw [List.nil_append] at hcalls
  rw [← hcalls]
  exact hlin.ends hset

namespace Sample

def rolled : CPtr := ⟨0, 1, request 1⟩

/-- A counter that holds 3 tokens. -/
def threeHeld : World := (World.init 5100 Mem.new).setTokens rolled.first 3

def counterSteps (n t : ℕ) : List (Act Choice (CounterCall × ℕ)) := List.replicate n (.run t {})

/-- A roll and a charge of 5. -/
def rollAndCharge : List (Act Choice (CounterCall × ℕ)) := [.env (.roll 1 0, 1), .env (.adjust rolled.first 5, 1)]

/-- The charge is made after the roll has read the debt, and before it publishes the new held. -/
def chargeInRoll : List (Act Choice (CounterCall × ℕ)) := rollAndCharge ++ counterSteps 4 0 ++ counterSteps 4 1 ++ counterSteps 1 0

/-- The charge finds the held that the roll publishes. -/
def chargeAfterRoll : List (Act Choice (CounterCall × ℕ)) := rollAndCharge ++ counterSteps 5 0 ++ counterSteps 4 1

end Sample

open Sample in
theorem rolls_linearise_charge_after_roll :
    ∃ p, runAll (Pool.step (counterSem dep rolled 10)) ⟨threeHeld, []⟩ chargeAfterRoll = some p ∧ p.shared.balance rolled = -5 ∧
      ∃ order, order.Perm (startedCalls chargeAfterRoll) ∧
        ∃ w', serially dep rolled 10 order threeHeld = some w' ∧ w'.balance rolled = p.shared.balance rolled := by
  have heval : (runAll (Pool.step (counterSem dep rolled 10)) ⟨threeHeld, []⟩ chargeAfterRoll).map
      (fun p => (p.shared.balance rolled, decide (∀ th ∈ p.threads, th = .ret ()))) = some (-5, true) := by decide +kernel
  obtain ⟨p, hrun, hp⟩ := Option.map_eq_some_iff.mp heval
  obtain ⟨hbal, hdone⟩ := Prod.mk.inj hp
  exact ⟨p, hrun, hbal, rolls_linearise dep rolled 10 threeHeld rfl (by decide) chargeAfterRoll p (by decide +kernel) hrun
    (of_decide_eq_true hdone)⟩

open Sample in
/-- The charge is lost: the balance is 0, but one at a time the calls leave -5 or -2. -/
theorem charge_lost_in_roll :
    ∃ p, runAll (Pool.step (counterSem dep rolled 10)) ⟨threeHeld, []⟩ chargeInRoll = some p ∧ (∀ th ∈ p.threads, th = .ret ()) ∧
      (∀ call ∈ startedCalls chargeInRoll, call.OnCounter rolled) ∧ p.shared.balance rolled = 0 ∧
      ∀ order, order.Perm (startedCalls chargeInRoll) →
        ∀ w', serially dep rolled 10 order threeHeld = some w' → w'.balance rolled ≠ p.shared.balance rolled := by
  have heval : (runAll (Pool.step (counterSem dep rolled 10)) ⟨threeHeld, []⟩ chargeInRoll).map
      (fun p => (p.shared.balance rolled, decide (∀ th ∈ p.threads, th = .ret ()))) = some (0, true) := by decide +kernel
  have hserial : ∀ order ∈ (startedCalls chargeInRoll).permutations',
      (serially dep rolled 10 order threeHeld).map (·.balance rolled) ≠ some 0 := by decide +kernel
  obtain ⟨p, hrun, hp⟩ := Option.map_eq_some_iff.mp heval
  obtain ⟨hbal, hdone⟩ := Prod.mk.inj hp
  refine ⟨p, hrun, of_decide_eq_true hdone, by decide, hbal, fun order hperm w' hw' heq => ?_⟩
  apply hserial order (List.mem_permutations'.mpr hperm)
  rw [hw', Option.map_some, heq, hbal]

end Gate
