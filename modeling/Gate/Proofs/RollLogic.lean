import Gate.Sanity.Rolls

/-! What a goroutine knows of its call on the counter, and that `reset`, `install` and `adjust` keep to
it. A charge ends only when it is made. A roll or a reset also ends when somebody else has rolled the
window or put the reset time back. -/

namespace Gate

open Conc

namespace Rolling

/-- `counted`: the call has its place in the order. `won`: it has put the reset time back. -/
structure Core where
  call : CounterCall
  counted : Bool
  won : Bool

/-- `late`: somebody has put the reset time back. `rolled`: the first held is no longer current. `next`: the
held that the call may publish. -/
structure Share where
  core : Core
  late : Bool
  rolled : Bool
  next : Option HPtr

def Share.start (call : CounterCall) : Share := ⟨⟨call, false, false⟩, false, false, none⟩

def Core.isBucket (k : Core) : Bool :=
  match k.call with
  | .reset req _ => req.algo = .tokenBucket
  | .roll _ _ | .adjust _ _ => false

variable (c : CPtr) (maxDebt : ℤ) (w₀ : World)

/-- The call rolls the window, if it is the first to do so. -/
def Core.Rolls (k : Core) : Prop :=
  match k.call with
  | .reset req nowMs => k.won = true ∧ req.algo ≠ .tokenBucket ∧ w₀.cells (.resetAt c) ≤ nowMs
  | .roll win _ => (w₀.cur c).win < win
  | .adjust _ _ => False

/-- The call may end: a charge only when it is made, a roll and a reset also when there is nothing to do. -/
def Share.Settled (g : Share) : Prop :=
  match g.core.call with
  | .adjust _ _ => g.core.counted = true
  | .roll win _ => g.rolled = true ∨ win ≤ (w₀.cur c).win
  | .reset _ nowMs => (g.core.won = true → g.core.counted = true ∨ g.rolled = true) ∧
      (g.core.won = true ∨ g.late = true ∨ w₀.cells (.resetAt c) ≤ 0 ∨ nowMs < w₀.cells (.resetAt c))

def pre (i : Instr) (g : Share) : Prop :=
  match i with
  | .load x => x = .resetAt c
  | .cas x old new => x = .resetAt c ∧ new = 0 ∧ old = w₀.cells (.resetAt c) ∧ 0 < old ∧ g.core.won = false ∧
      g.core.counted = false ∧ ∃ req nowMs, g.core.call = .reset req nowMs ∧ old ≤ nowMs
  | .store x _ => x = .retryAt c ∨ x = .hubRemaining c
  | .add x _ => ∃ h, x = .consumed h
  | .loadTokens _ => True
  | .storeTokens h _ => g.next = some h
  | .casTokens h old new _ => h.c = c ∧ g.core.counted = false ∧
      ∃ h' delta, g.core.call = .adjust h' delta ∧ h'.c = c ∧ 0 < delta ∧ new = afterCharge maxDebt old delta
  | .loadCur c' => c' = c
  | .casCur c' old new => c' = c ∧ g.next = some new ∧ new.c = c ∧ old.win ≤ new.win ∧ g.core.counted = false ∧ g.core.Rolls c w₀
  | .newHeld c' _ _ => c' = c ∧ g.next = none
  | _ => False

/-- The reset time is the first one, or 0 when somebody has put it back. -/
def afterLoad (g : Share) (r : ℤ) (g' : Share) : Prop :=
  (r = w₀.cells (.resetAt c) ∧ g' = g) ∨ (r = 0 ∧ g' = { g with late := true })

/-- A bucket's reset has its place in the order now. -/
def afterCas (g g' : Share) : Bool → Prop
  | true => g' = { g with core := { g.core with won := true, counted := g.core.isBucket } }
  | false => g' = { g with late := true }

def afterCasTokens (g g' : Share) : Bool → Prop
  | true => g' = { g with core := { g.core with counted := true } }
  | false => g' = g

def afterLoadCur (g : Share) (r : HPtr) (g' : Share) : Prop :=
  r.c = c ∧ (w₀.cur c).win ≤ r.win ∧ g' = { g with rolled := g.rolled || decide (r ≠ w₀.cur c) }

/-- The first roll has its place in the order now. -/
def afterCasCur (g g' : Share) : Bool → Prop
  | true => g'.core.call = g.core.call ∧ g'.core.won = g.core.won ∧ g'.late = g.late ∧ g'.rolled = true ∧ g'.next = none
  | false => g' = g

def afterNewHeld (win : ℤ) (g : Share) (r : HPtr) (g' : Share) : Prop := r.c = c ∧ r.win = win ∧ g' = { g with next := some r }

def post : (i : Instr) → Share → i.Answer → Share → Prop
  | .load _, g, r, g' => afterLoad c w₀ g r g'
  | .cas _ _ _, g, r, g' => afterCas g g' r
  | .casTokens _ _ _ _, g, r, g' => afterCasTokens g g' r
  | .loadCur _, g, r, g' => afterLoadCur c w₀ g r g'
  | .casCur _ _ _, g, r, g' => afterCasCur g g' r
  | .newHeld _ win _, g, r, g' => afterNewHeld c win g r g'
  | _, g, _, g' => g' = g

def logic : Logic Instr.Answer Share := ⟨pre c maxDebt w₀, post c w₀⟩

/-! The programs keep to the rules. -/

section Programs

variable {c maxDebt w₀} {α : Type} {g : Share}

variable {Q : α → Share → Prop}

theorem wp_load {f : ℤ → Proc α} (h : ∀ r g', afterLoad c w₀ g r g' → (logic c maxDebt w₀).wp (f r) Q g') :
    (logic c maxDebt w₀).wp (load (.resetAt c) >>= f) Q g := ⟨rfl, h⟩

theorem wp_cas {old : ℤ} {f : Bool → Proc α} (hpre : pre c maxDebt w₀ (.cas (.resetAt c) old 0) g)
    (ht : (logic c maxDebt w₀).wp (f true) Q { g with core := { g.core with won := true, counted := g.core.isBucket } })
    (hf : (logic c maxDebt w₀).wp (f false) Q { g with late := true }) :
    (logic c maxDebt w₀).wp (cas (.resetAt c) old 0 >>= f) Q g := by
  refine ⟨hpre, fun (r : Bool) g' hpost => ?_⟩
  cases r with
  | true =>
    obtain rfl : g' = _ := hpost
    exact ht
  | false =>
    obtain rfl : g' = _ := hpost
    exact hf

theorem wp_store {x : Cell} {v : ℤ} {f : Unit → Proc α} (hx : x = .retryAt c ∨ x = .hubRemaining c)
    (h : (logic c maxDebt w₀).wp (f ()) Q g) : (logic c maxDebt w₀).wp (store x v >>= f) Q g := by
  refine ⟨hx, fun r g' hpost => ?_⟩
  obtain rfl : g' = g := hpost
  exact h

theorem wp_add {h : HPtr} {d : ℤ} {f : ℤ → Proc α} (hf : ∀ r, (logic c maxDebt w₀).wp (f r) Q g) :
    (logic c maxDebt w₀).wp (add (.consumed h) d >>= f) Q g := by
  refine ⟨⟨h, rfl⟩, fun r g' hpost => ?_⟩
  obtain rfl : g' = g := hpost
  exact hf r

theorem wp_loadTokens {h : HPtr} {f : ℤ → Proc α} (hf : ∀ v, (logic c maxDebt w₀).wp (f v) Q g) :
    (logic c maxDebt w₀).wp (loadTokens h >>= f) Q g := by
  refine ⟨trivial, fun v g' hpost => ?_⟩
  obtain rfl : g' = g := hpost
  exact hf v

theorem wp_storeTokens {h : HPtr} {v : ℤ} {f : Unit → Proc α} (hnext : g.next = some h) (hf : (logic c maxDebt w₀).wp (f ()) Q g) :
    (logic c maxDebt w₀).wp (storeTokens h v >>= f) Q g := by
  refine ⟨hnext, fun r g' hpost => ?_⟩
  obtain rfl : g' = g := hpost
  exact hf

theorem wp_casTokens {h : HPtr} {old new : ℤ} {note : Note} {f : Bool → Proc α} (hpre : pre c maxDebt w₀ (.casTokens h old new note) g)
    (ht : (logic c maxDebt w₀).wp (f true) Q { g with core := { g.core with counted := true } })
    (hf : (logic c maxDebt w₀).wp (f false) Q g) : (logic c maxDebt w₀).wp (casTokens h old new note >>= f) Q g := by
  refine ⟨hpre, fun (r : Bool) g' hpost => ?_⟩
  cases r with
  | true =>
    obtain rfl : g' = _ := hpost
    exact ht
  | false =>
    obtain rfl : g' = g := hpost
    exact hf

theorem wp_loadCur {f : HPtr → Proc α} (h : ∀ r : HPtr, r.c = c → (w₀.cur c).win ≤ r.win →
      (logic c maxDebt w₀).wp (f r) Q { g with rolled := g.rolled || decide (r ≠ w₀.cur c) }) :
    (logic c maxDebt w₀).wp (loadCur c >>= f) Q g := by
  refine ⟨rfl, fun (r : HPtr) g' hpost => ?_⟩
  obtain ⟨hc, hwin, rfl⟩ : afterLoadCur c w₀ g r g' := hpost
  exact h r hc hwin

theorem wp_casCur {old new : HPtr} {f : Bool → Proc α} (hpre : pre c maxDebt w₀ (.casCur c old new) g)
    (ht : ∀ g', g'.core.call = g.core.call → g'.core.won = g.core.won → g'.rolled = true → (logic c maxDebt w₀).wp (f true) Q g')
    (hf : (logic c maxDebt w₀).wp (f false) Q g) : (logic c maxDebt w₀).wp (casCur c old new >>= f) Q g := by
  refine ⟨hpre, fun (r : Bool) g' hpost => ?_⟩
  cases r with
  | true =>
    obtain ⟨hcall, hwon, -, hrolled, -⟩ : afterCasCur g g' true := hpost
    exact ht g' hcall hwon hrolled
  | false =>
    obtain rfl : g' = g := hpost
    exact hf

theorem wp_newHeld {win parentWin : ℤ} {f : HPtr → Proc α} (hnone : g.next = none)
    (h : ∀ r : HPtr, r.c = c → r.win = win → (logic c maxDebt w₀).wp (f r) Q { g with next := some r }) :
    (logic c maxDebt w₀).wp (newHeld c win parentWin >>= f) Q g := by
  refine ⟨⟨rfl, hnone⟩, fun (r : HPtr) g' hpost => ?_⟩
  obtain ⟨hc, hwin, rfl⟩ : afterNewHeld c win g r g' := hpost
  exact h r hc hwin

theorem wp_recharge {target h : HPtr} {delta : ℤ} (ht : target.c = c) (hc : h.c = c) (hd : 0 < delta)
    (hcall : g.core.call = .adjust h delta) (hopen : g.core.counted = false) (fuel : ℕ) :
    (logic c maxDebt w₀).wp (Lease.recharge target delta maxDebt fuel) (fun _ g' => g'.Settled c w₀) g := by
  induction fuel with
  | zero => trivial
  | succ fuel ih =>
    rw [Lease.recharge]
    refine wp_loadTokens fun v => wp_casTokens ⟨ht, hopen, h, delta, hcall, hc, hd, rfl⟩ ?_ ih
    simp [Share.Settled, hcall]

theorem wp_adjust {h : HPtr} {delta : ℤ} (hc : h.c = c) (hd : 0 < delta) (fuel : ℕ) :
    (logic c maxDebt w₀).wp (Lease.adjust fuel h delta maxDebt) (fun _ g' => g'.Settled c w₀) (.start (.adjust h delta)) := by
  have hon : ∀ (g : Share) (target : HPtr), target.c = c → g.core = (Share.start (.adjust h delta)).core →
      (logic c maxDebt w₀).wp (Lease.adjustOn fuel target delta maxDebt) (fun _ g' => g'.Settled c w₀) g := by
    intro g target ht hg
    rw [Lease.adjustOn]
    refine wp_add fun _ => wp_recharge ht hc hd ?_ ?_ fuel
    · rw [hg]
      rfl
    · rw [hg]
      rfl
  rw [Lease.adjust, hc]
  refine wp_loadCur fun cur hcur _ => ?_
  split_ifs with heq hneg
  · exact hon _ h hc rfl
  · omega
  · exact hon _ cur hcur rfl

/-- The loop of `install`: it ends when the first held has been replaced. -/
theorem wp_installLoop {next : HPtr} (hnc : next.c = c) (hfirst : (w₀.cur c).win ≤ next.win) {k : Core} (hopen : k.counted = false)
    (hrolls : k.Rolls c w₀) {Q : HPtr → Share → Prop}
    (hQ : ∀ h g', g'.core.call = k.call → g'.core.won = k.won → g'.rolled = true → Q h g') (fuel : ℕ) {old : HPtr}
    (hold : old.win ≤ next.win) (hnext : g.next = some next) (hk : g.core = k) :
    (logic c maxDebt w₀).wp (Lease.installLoop c next fuel old) Q g := by
  induction fuel generalizing old g with
  | zero => trivial
  | succ fuel ih =>
    rw [Lease.installLoop]
    refine wp_loadTokens fun balance => wp_storeTokens hnext (wp_casCur ?_ ?_ ?_)
    · exact ⟨rfl, hnext, hnc, hold, hk ▸ hopen, hk ▸ hrolls⟩
    · exact fun g' hcall hwon hrolled => hQ next g' (hcall.trans (hk ▸ rfl)) (hwon.trans (hk ▸ rfl)) hrolled
    · refine wp_loadCur fun cur _ hle => ?_
      split_ifs with hnewer
      · -- a newer window than the first is current
        have hne : cur ≠ w₀.cur c := by
          rintro rfl
          omega
        exact hQ cur _ (hk ▸ rfl) (hk ▸ rfl) (by simp [hne])
      · exact ih (not_lt.mp hnewer) hnext hk

theorem wp_install {win parentWin : ℤ} (hfirst : (w₀.cur c).win ≤ win) (hopen : g.core.counted = false) (hrolls : g.core.Rolls c w₀)
    (hnone : g.next = none) {Q : HPtr → Share → Prop}
    (hQ : ∀ h g', g'.core.call = g.core.call → g'.core.won = g.core.won → g'.rolled = true → Q h g') (fuel : ℕ) {old : HPtr}
    (hold : old.win ≤ win) : (logic c maxDebt w₀).wp (Lease.install fuel c old win parentWin) Q g := by
  rw [Lease.install]
  refine wp_newHeld hnone fun next hnc hwin => ?_
  subst hwin
  exact wp_installLoop hnc hfirst hopen hrolls hQ fuel hold rfl rfl

theorem wp_roll (win parentWin : ℤ) (fuel : ℕ) :
    (logic c maxDebt w₀).wp (Lease.roll fuel c win parentWin) (fun _ g' => g'.Settled c w₀) (.start (.roll win parentWin)) := by
  rw [Lease.roll]
  refine wp_loadCur fun cur _ hle => ?_
  split_ifs with hnewer
  · rw [Logic.wp_bind]
    refine wp_install (hle.trans hnewer.le) rfl ?_ rfl (fun h g' hcall _ hrolled => ?_) fuel hnewer.le
    · exact hle.trans_lt hnewer
    · rw [Logic.wp_pure, Share.Settled, hcall]
      exact .inl hrolled
  · rw [Logic.wp_pure]
    by_cases hcur : cur = w₀.cur c
    · subst hcur
      exact .inr (not_lt.mp hnewer)
    · exact .inl (by simp [hcur])

/-- From the moment the reset time is put back. -/
theorem wp_resetWon {req : Request} {nowMs : ℤ} (hcall : g.core.call = .reset req nowMs) (hwon : g.core.won = true)
    (hcounted : g.core.counted = g.core.isBucket) (hnow : w₀.cells (.resetAt c) ≤ nowMs) (hnone : g.next = none) (fuel : ℕ) :
    (logic c maxDebt w₀).wp (do
      store (.retryAt c) 0
      if req.algo = .tokenBucket then return ()
      else
        let old ← loadCur c
        let _ ← Lease.install fuel c old old.win old.parentWin
        store (.hubRemaining c) 0) (fun _ g' => g'.Settled c w₀) g := by
  refine wp_store (.inl rfl) ?_
  split_ifs with hreq
  · have hb : g.core.isBucket = true := by simp [Core.isBucket, hcall, hreq]
    rw [Logic.wp_pure, Share.Settled, hcall]
    exact ⟨fun _ => .inl (hcounted.trans hb), .inl hwon⟩
  · have hb : g.core.isBucket = false := by simp [Core.isBucket, hcall, hreq]
    refine wp_loadCur fun old _ hle => ?_
    rw [Logic.wp_bind]
    refine wp_install hle ?_ ?_ ?_ (fun h g' hcall' hwon' hrolled => ?_) fuel le_rfl
    · exact hcounted.trans hb
    · rw [Core.Rolls, hcall]
      exact ⟨hwon, hreq, hnow⟩
    · exact hnone
    · refine wp_store (f := pure) (.inr rfl) ?_
      rw [Logic.wp_pure, Share.Settled, hcall', hcall]
      exact ⟨fun _ => .inr hrolled, .inl (hwon'.trans hwon)⟩

theorem wp_reset (req : Request) (nowMs : ℤ) (fuel : ℕ) :
    (logic c maxDebt w₀).wp (Lease.reset fuel c req nowMs) (fun _ g' => g'.Settled c w₀) (.start (.reset req nowMs)) := by
  rw [Lease.reset]
  refine wp_load fun resetAt g hload => ?_
  have hcore : g.core = ⟨.reset req nowMs, false, false⟩ := by
    rcases hload with ⟨-, rfl⟩ | ⟨-, rfl⟩ <;> rfl
  have hnone : g.next = none := by
    rcases hload with ⟨-, rfl⟩ | ⟨-, rfl⟩ <;> rfl
  by_cases hidle : resetAt ≤ 0 ∨ nowMs < resetAt
  · -- nothing to reset yet, or somebody has done it
    rw [if_pos hidle, Logic.wp_pure, Share.Settled, hcore]
    refine ⟨fun h => absurd h Bool.false_ne_true, .inr ?_⟩
    rcases hload with ⟨rfl, -⟩ | ⟨-, rfl⟩
    · exact .inr hidle
    · exact .inl rfl
  · rw [if_neg hidle]
    rw [not_or, not_le, not_lt] at hidle
    have hat : resetAt = w₀.cells (.resetAt c) := by
      rcases hload with ⟨h, -⟩ | ⟨h, -⟩
      · exact h
      · omega
    refine wp_cas ?_ ?_ ?_
    · refine ⟨rfl, rfl, hat, hidle.1, ?_, ?_, req, nowMs, ?_, hidle.2⟩ <;> rw [hcore]
    · rw [if_pos rfl]
      refine wp_resetWon ?_ ?_ ?_ (hat ▸ hidle.2 : w₀.cells (.resetAt c) ≤ nowMs) ?_ fuel
      · rw [hcore]
      · rfl
      · rw [hcore]
        rfl
      · exact hnone
    · rw [if_neg (by simp), Logic.wp_pure, Share.Settled, hcore]
      exact ⟨fun h => absurd h Bool.false_ne_true, .inr (.inl rfl)⟩

theorem wp_proc {call : CounterCall} (hon : call.OnCounter c) (fuel : ℕ) :
    (logic c maxDebt w₀).wp (call.proc c maxDebt fuel) (fun _ g' => g'.Settled c w₀) (.start call) := by
  cases call with
  | reset req nowMs => exact wp_reset req nowMs fuel
  | roll win parentWin => exact wp_roll win parentWin fuel
  | adjust h delta => exact wp_adjust hon.1 hon.2 fuel

end Programs

end Rolling

end Gate
