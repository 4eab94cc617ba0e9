import Gate.Spec.Rolls

/-! The calls on one counter alone: each ends, and what it leaves. A charge goes to the current held, a
roll carries the debt over and drops the rest, and with nothing to drop a roll or a reset changes no
balance. -/

namespace Gate

open Conc

/-- The balance after a charge of a held that had `b`. -/
def afterCharge (maxDebt b delta : ℤ) : ℤ := if 0 < delta ∧ b - delta < -maxDebt then min b (-maxDebt) else b - delta

theorem afterCharge_nonpos {maxDebt b delta : ℤ} (hd : 0 < delta) (hb : b ≤ 0) : afterCharge maxDebt b delta ≤ 0 := by
  rw [afterCharge]
  split <;> omega

/-! Instructions alone. -/

section Alone

variable (dep : Deployment) (w : World)

theorem ends_instr {dep : Deployment} {w w' : World} {i : Instr} {r : i.Answer} (h : execAlone dep i w = some (r, w'))
    (Q : i.Answer → World → Prop) : (Prog.exec i : Proc i.Answer).Ends (execAlone dep) Q w ↔ Q r w' := by
  rw [Prog.ends_exec, h]
  constructor
  · rintro ⟨r', w₁, heq, hq⟩
    cases heq
    exact hq
  · exact fun hq => ⟨r, w', rfl, hq⟩

@[simp] theorem ends_load (x : Cell) (Q : ℤ → World → Prop) : (load x).Ends (execAlone dep) Q w ↔ Q (w.cells x) w :=
  ends_instr (i := .load x) rfl Q

@[simp] theorem ends_store (x : Cell) (v : ℤ) (Q : Unit → World → Prop) :
    (store x v).Ends (execAlone dep) Q w ↔ Q () (w.setCell x v) := ends_instr (i := .store x v) rfl Q

@[simp] theorem ends_add (x : Cell) (d : ℤ) (Q : ℤ → World → Prop) :
    (add x d).Ends (execAlone dep) Q w ↔ Q (w.cells x + d) (w.setCell x (w.cells x + d)) := ends_instr (i := .add x d) rfl Q

theorem ends_cas {x : Cell} {old : ℤ} (h : w.cells x = old) (new : ℤ) (Q : Bool → World → Prop) :
    (cas x old new).Ends (execAlone dep) Q w ↔ Q true (w.setCell x new) :=
  ends_instr (i := .cas x old new) (by simp [execAlone, execCall, execInstr, h]) Q

@[simp] theorem ends_loadTokens (h : HPtr) (Q : ℤ → World → Prop) : (loadTokens h).Ends (execAlone dep) Q w ↔ Q (w.tokens h) w :=
  ends_instr (i := .loadTokens h) rfl Q

@[simp] theorem ends_storeTokens (h : HPtr) (v : ℤ) (Q : Unit → World → Prop) :
    (storeTokens h v).Ends (execAlone dep) Q w ↔ Q () (w.setTokens h v) := ends_instr (i := .storeTokens h v) rfl Q

theorem ends_casTokens {h : HPtr} {old : ℤ} (ht : w.tokens h = old) (new : ℤ) (note : Note) (Q : Bool → World → Prop) :
    (casTokens h old new note).Ends (execAlone dep) Q w ↔ Q true (w.casTokens h old new note) :=
  ends_instr (i := .casTokens h old new note) (by simp [execAlone, execCall, execInstr, ht]) Q

@[simp] theorem ends_loadCur (c : CPtr) (Q : HPtr → World → Prop) : (loadCur c).Ends (execAlone dep) Q w ↔ Q (w.cur c) w :=
  ends_instr (i := .loadCur c) rfl Q

theorem ends_casCur {c : CPtr} {old : HPtr} (hc : w.cur c = old) (new : HPtr) (Q : Bool → World → Prop) :
    (casCur c old new).Ends (execAlone dep) Q w ↔ Q true { w with cur := Function.update w.cur c new } :=
  ends_instr (i := .casCur c old new) (by simp [execAlone, execCall, execInstr, hc]) Q

@[simp] theorem ends_newHeld (c : CPtr) (win parentWin : ℤ) (Q : HPtr → World → Prop) :
    (newHeld c win parentWin).Ends (execAlone dep) Q w ↔
      Q ⟨c, w.fresh, win, parentWin⟩ (({ w with fresh := w.fresh + 1 } : World).record (.create ⟨c, w.fresh, win, parentWin⟩ w.time)) :=
  ends_instr (i := .newHeld c win parentWin) rfl Q

end Alone

theorem cur_casTokens (w : World) (h : HPtr) (old new : ℤ) (note : Note) : (w.casTokens h old new note).cur = w.cur := by
  rw [World.casTokens]
  split <;> rfl

theorem cells_casTokens (w : World) (h : HPtr) (old new : ℤ) (note : Note) : (w.casTokens h old new note).cells = w.cells := by
  rw [World.casTokens]
  split <;> rfl

theorem fresh_casTokens (w : World) (h : HPtr) (old new : ℤ) (note : Note) : (w.casTokens h old new note).fresh = w.fresh := by
  rw [World.casTokens]
  split <;> rfl

theorem tokens_casTokens (w : World) (h : HPtr) (old new : ℤ) (note : Note) :
    (w.casTokens h old new note).tokens = Function.update w.tokens h new := by
  rw [World.casTokens]
  split <;> rfl

/-! The calls one at a time. -/

section Serial

variable (dep : Deployment) (c : CPtr) (maxDebt : ℤ)

/-- The call alone ends in a state that meets `Q`. -/
def CallEnds (call : CounterCall) (Q : World → Prop) (w : World) : Prop :=
  (call.proc c maxDebt 1).Ends (execAlone dep) (fun _ => Q) w

variable {dep c maxDebt}

theorem serially_append (l l' : List CounterCall) (w : World) :
    serially dep c maxDebt (l ++ l') w = (serially dep c maxDebt l w).bind (serially dep c maxDebt l') := by
  induction l generalizing w with
  | nil => rfl
  | cons call l ih =>
    rw [List.cons_append, serially, serially, Option.bind_assoc]
    exact congrArg _ (funext fun out => ih out.2)

theorem serially_snoc {l : List CounterCall} {call : CounterCall} {w w₁ : World} {Q : World → Prop}
    (hl : serially dep c maxDebt l w = some w₁) (h : CallEnds dep c maxDebt call Q w₁) :
    ∃ w', serially dep c maxDebt (l ++ [call]) w = some w' ∧ Q w' := by
  obtain ⟨_, w', hf, hq⟩ := h
  refine ⟨w', ?_, hq⟩
  rw [serially_append, hl, Option.bind_some, serially, hf]
  rfl

/-- A charge goes to the current held, whichever held it is a charge of. -/
theorem adjust_ends {h : HPtr} (hc : h.c = c) {delta : ℤ} (hd : 0 < delta) (w : World) :
    CallEnds dep c maxDebt (.adjust h delta) (fun w' => w'.cur c = w.cur c ∧
      w'.balance c = afterCharge maxDebt (w.balance c) delta ∧ w'.cells (.resetAt c) = w.cells (.resetAt c)) w := by
  subst hc
  have hon : ∀ target, target = w.cur h.c → (Lease.adjustOn 1 target delta maxDebt).Ends (execAlone dep) (fun _ w' => w'.cur h.c = w.cur h.c ∧
      w'.balance h.c = afterCharge maxDebt (w.balance h.c) delta ∧ w'.cells (.resetAt h.c) = w.cells (.resetAt h.c)) w := by
    rintro _ rfl
    simp only [Lease.adjustOn, Lease.recharge, Prog.ends_bind, ends_add, ends_loadTokens]
    rw [ends_casTokens _ _ rfl]
    simp only [if_true, Prog.ends_pure, World.balance, cur_casTokens, tokens_casTokens, cells_casTokens]
    exact ⟨rfl, Function.update_self .., by simp [World.setCell]⟩
  simp only [CallEnds, CounterCall.proc, Lease.adjust, Prog.ends_bind, ends_loadCur, Prog.ends_ite, Prog.ends_pure]
  split_ifs with heq hneg
  · exact hon h heq.symm
  · omega
  · exact hon _ rfl

/-- Alone, `install` publishes a held with the debt of the current one. -/
theorem install_ends (win parentWin : ℤ) (w : World) (Q : HPtr → World → Prop)
    (hQ : ∀ h w', w'.balance c = min (w.balance c) 0 → Q h w') :
    (Lease.install 1 c (w.cur c) win parentWin).Ends (execAlone dep) Q w := by
  simp only [Lease.install, Lease.installLoop, Prog.ends_bind, ends_newHeld, ends_loadTokens, ends_storeTokens]
  have hcur : ∀ (w' : World) (h : HPtr) (v : ℤ), (w'.setTokens h v).cur = w'.cur := fun _ _ _ => rfl
  have hrec : ∀ (w' : World) (e : Event), (w'.record e).cur = w'.cur := fun _ _ => rfl
  rw [ends_casCur _ _ (by rw [hcur, hrec])]
  simp only [if_true, Prog.ends_pure]
  apply hQ
  simp [World.balance, World.setTokens, World.record]

/-- A roll to a newer window. -/
theorem roll_ends {win parentWin : ℤ} {w : World} (hwin : (w.cur c).win < win) :
    CallEnds dep c maxDebt (.roll win parentWin) (fun w' => w'.balance c = min (w.balance c) 0) w := by
  simp only [CallEnds, CounterCall.proc, Lease.roll, Prog.ends_bind, ends_loadCur, if_pos hwin]
  exact install_ends win parentWin w _ fun _ _ h => (Prog.ends_pure ..).mpr h

theorem roll_idle {win parentWin : ℤ} {w : World} (hwin : win ≤ (w.cur c).win) :
    CallEnds dep c maxDebt (.roll win parentWin) (fun w' => w' = w) w := by
  simp [CallEnds, CounterCall.proc, Lease.roll, not_lt.mpr hwin]

theorem reset_idle {req : Request} {nowMs : ℤ} {w : World} (h : w.cells (.resetAt c) ≤ 0 ∨ nowMs < w.cells (.resetAt c)) :
    CallEnds dep c maxDebt (.reset req nowMs) (fun w' => w' = w) w := by
  simp [CallEnds, CounterCall.proc, Lease.reset, h]

/-- A bucket's reset only puts the reset time back. -/
theorem reset_bucket {req : Request} {nowMs : ℤ} {w : World} (hpos : 0 < w.cells (.resetAt c)) (hnow : w.cells (.resetAt c) ≤ nowMs)
    (hreq : req.algo = .tokenBucket) :
    CallEnds dep c maxDebt (.reset req nowMs) (fun w' => w'.cur c = w.cur c ∧ w'.balance c = w.balance c ∧ w'.cells (.resetAt c) = 0) w := by
  have hgo : ¬(w.cells (.resetAt c) ≤ 0 ∨ nowMs < w.cells (.resetAt c)) := by omega
  simp only [CallEnds, CounterCall.proc, Lease.reset, Prog.ends_bind, ends_load, if_neg hgo]
  rw [ends_cas _ _ rfl]
  simp [hreq, World.balance, World.setCell]

theorem reset_rolls {req : Request} {nowMs : ℤ} {w : World} (hpos : 0 < w.cells (.resetAt c)) (hnow : w.cells (.resetAt c) ≤ nowMs)
    (hreq : req.algo ≠ .tokenBucket) :
    CallEnds dep c maxDebt (.reset req nowMs) (fun w' => w'.balance c = min (w.balance c) 0) w := by
  have hgo : ¬(w.cells (.resetAt c) ≤ 0 ∨ nowMs < w.cells (.resetAt c)) := by omega
  simp only [CallEnds, CounterCall.proc, Lease.reset, Prog.ends_bind, ends_load, if_neg hgo]
  rw [ends_cas _ _ rfl]
  simp only [if_true, Prog.ends_bind, ends_store, if_neg hreq, ends_loadCur]
  exact install_ends _ _ _ _ fun _ _ h => (ends_store ..).mpr h

theorem CallEnds.mono {call : CounterCall} {Q Q' : World → Prop} {w : World} (h : CallEnds dep c maxDebt call Q w)
    (hq : ∀ w', Q w' → Q' w') : CallEnds dep c maxDebt call Q' w := by
  obtain ⟨a, w', hf, hw⟩ := h
  exact ⟨a, w', hf, hq w' hw⟩

/-- With nothing to drop, no roll and no reset changes the balance. -/
theorem quiet_ends {call : CounterCall} (hcall : ∀ h delta, call ≠ .adjust h delta) {w : World} (hb : w.balance c ≤ 0) :
    CallEnds dep c maxDebt call (fun w' => w'.balance c = w.balance c) w := by
  have hmin : min (w.balance c) 0 = w.balance c := min_eq_left hb
  cases call with
  | adjust h delta => exact absurd rfl (hcall h delta)
  | roll win parentWin =>
    by_cases hwin : (w.cur c).win < win
    · exact (roll_ends hwin).mono fun w' h => h.trans hmin
    · exact (roll_idle (not_lt.mp hwin)).mono fun w' h => by rw [h]
  | reset req nowMs =>
    by_cases hidle : w.cells (.resetAt c) ≤ 0 ∨ nowMs < w.cells (.resetAt c)
    · exact (reset_idle hidle).mono fun w' h => by rw [h]
    · rw [not_or, not_le, not_lt] at hidle
      by_cases hreq : req.algo = .tokenBucket
      · exact (reset_bucket hidle.1 hidle.2 hreq).mono fun w' h => h.2.1
      · exact (reset_rolls hidle.1 hidle.2 hreq).mono fun w' h => h.trans hmin

/-- Calls that change nothing. -/
theorem serially_idle {l : List CounterCall} {w : World} (h : ∀ call ∈ l, CallEnds dep c maxDebt call (fun w' => w' = w) w) :
    serially dep c maxDebt l w = some w := by
  induction l with
  | nil => rfl
  | cons call l ih =>
    obtain ⟨_, w', hf, rfl⟩ := h call List.mem_cons_self
    rw [serially, hf]
    exact ih fun x hx => h x (List.mem_cons_of_mem call hx)

theorem serially_quiet {l : List CounterCall} (hl : ∀ call ∈ l, ∀ h delta, call ≠ .adjust h delta) {w : World}
    (hb : w.balance c ≤ 0) : ∃ w', serially dep c maxDebt l w = some w' ∧ w'.balance c = w.balance c := by
  induction l generalizing w with
  | nil => exact ⟨w, rfl, rfl⟩
  | cons call l ih =>
    obtain ⟨_, w₁, hf, hbal⟩ := quiet_ends (hl call List.mem_cons_self) hb
    obtain ⟨w', hs, hbal'⟩ := ih (fun x hx => hl x (List.mem_cons_of_mem call hx)) (hbal.le.trans hb)
    exact ⟨w', by rw [serially, hf]; exact hs, hbal'.trans hbal⟩

end Serial

end Gate
