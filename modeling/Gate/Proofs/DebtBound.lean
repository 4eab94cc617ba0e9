import Gate.Proofs.LeaseBlocks
import Gate.Proofs.LeaseSafety
import Gate.Spec.Debts

/-! Debt after the fact. A balance is charged down to `-M` at most, and the debt of a balance
that is replaced goes over to the next one. So what an edge debits under a window's label
is covered by the grants of the window and by one debt of `M`; the ledger covers the
grants of all edges. -/

namespace Gate

open Conc

section Books

variable (q : Quota) (v : ℤ)

/-- The tokens of the window that were added to balances. -/
def Quota.depositedBy : Event → ℤ
  | .deposit h n => if q.Label v h then n else 0
  | _ => 0

def Quota.depositedIn (log : List Event) : ℤ := (log.map (q.depositedBy v)).sum

/-- What an event takes out of the balances labelled with the window. -/
def Quota.owedBy (e : Event) : ℤ := q.net v e - q.depositedBy v e

def Quota.owedIn (log : List Event) : ℤ := (log.map (q.owedBy v)).sum

theorem Quota.netAdmitted_eq (log : List Event) : q.netAdmitted v log = q.owedIn v log + q.depositedIn v log := by
  induction log with
  | nil => rfl
  | cons e log ih =>
    simp only [Quota.netAdmitted, Quota.owedIn, Quota.depositedIn, Quota.owedBy, List.map_cons, List.sum_cons] at ih ⊢
    linarith

end Books

/-- What a counter's balance stands for in the books of a window: the balance itself for the
window it is labelled with, the debt it may have left behind for an earlier window. -/
def World.creditOf (w : World) (M : ℤ) (c : CPtr) (v : ℤ) : ℤ :=
  if v = (w.cur c).win then w.tokens (w.cur c) else if v < (w.cur c).win then -M else 0

/-- The same for the quota's counter on an edge. -/
def World.credit (w : World) (q : Quota) (M v : ℤ) (edge : ℕ) : ℤ :=
  match w.findCounter edge q.stateKey with
  | none => 0
  | some c => w.creditOf M c v

section Debts

variable (dep : Deployment) (q : Quota) (E : ℕ) (M : ℤ)

/-- The balances cover the debits. -/
structure Standing (w : World) : Prop where
  cur_c : ∀ c, (w.cur c).c = c
  floor : ∀ h, h.c.key = q.stateKey → -M ≤ w.tokens h
  edges : ∀ edge c, w.findCounter edge q.stateKey = some c → edge < E
  ids : ∀ c ∈ w.table, c.id < w.fresh
  unmade : ∀ c : CPtr, w.fresh ≤ c.id → w.cur c = c.first ∧ w.tokens c.first = 0
  books : ∀ v, q.owedIn v w.log + ∑ edge ∈ Finset.range E, w.credit q M v edge ≤ 0

/-- The ledger covers the grants, with `hand` tokens of each window in a goroutine's hands. -/
structure Funded (hand : ℤ → ℤ) (w : World) : Prop where
  calls : ∀ c ∈ w.calls, q.Fits c.body.stateKey (resolve dep.env dep.cfg c.body.scope c.body.serviceId c.body.apiKey
    c.body.limitId c.body.tierId c.body.org)
  replies : ∀ rep ∈ w.replies, ∀ resp, rep.body = .ok resp → q.Sound rep.req resp
  tickets : ∀ r ∈ w.reservations, ∀ d ∈ r.1.results, ∀ h, d.adj = some (.held h) →
    w.Kept h.c ∧ (h.c.key = q.stateKey → d.maxDebt = M)
  used : ∀ v, 0 ≤ w.ledger.used q.key v ∧ w.ledger.used q.key v ≤ q.spec.limit
  funds : ∀ v, q.depositedIn v w.log + hand v + q.inReplies v w.replies ≤ w.ledger.used q.key v

structure Indebted (hand : ℤ → ℤ) (w : World) : Prop where
  standing : Standing q E M w
  funded : Funded dep q M hand w

variable {dep q E M} {hand : ℤ → ℤ} {w w' : World}

theorem owedIn_append (v : ℤ) (es log : List Event) : q.owedIn v (es ++ log) = q.owedIn v es + q.owedIn v log := by
  simp [Quota.owedIn]

theorem depositedIn_append (v : ℤ) (es log : List Event) :
    q.depositedIn v (es ++ log) = q.depositedIn v es + q.depositedIn v log := by
  simp [Quota.depositedIn]

theorem creditOf_kept {c : CPtr} (hk : w.Kept c) (hkey : c.key = q.stateKey) (v : ℤ) :
    w.credit q M v c.edge = w.creditOf M c v := by
  unfold World.credit
  rw [← hkey, hk]

/-- A change of one counter's balance and of the record. -/
structure World.Shifts (w : World) (c : CPtr) (es : List Event) (w' : World) : Prop where
  cur : ∀ c', c' ≠ c → w'.cur c' = w.cur c'
  cur_c : (w'.cur c).c = c
  tokens : ∀ h, h.c ≠ c → w'.tokens h = w.tokens h
  table : w'.table = w.table
  calls : w'.calls = w.calls
  replies : w'.replies = w.replies
  reservations : w'.reservations = w.reservations
  ledger : w'.ledger = w.ledger
  fresh : w.fresh ≤ w'.fresh
  log : w'.log = es ++ w.log

theorem World.Shifts.grows {c : CPtr} {es : List Event} (h : w.Shifts c es w') : w.Grows w' := by
  refine ⟨h.fresh, fun edge key c' hc => ?_⟩
  unfold World.findCounter at *
  rwa [h.table]

/-- The other counters stand for what they stood for. -/
theorem credit_other {c : CPtr} {es : List Event} (hw : ∀ c, (w.cur c).c = c) (h : w.Shifts c es w') (v : ℤ) {edge : ℕ}
    (hne : w.findCounter edge q.stateKey ≠ some c) : w'.credit q M v edge = w.credit q M v edge := by
  have hfind : w'.findCounter edge q.stateKey = w.findCounter edge q.stateKey := by
    unfold World.findCounter
    rw [h.table]
  unfold World.credit
  rw [hfind]
  cases hc : w.findCounter edge q.stateKey with
  | none => rfl
  | some c' =>
    have hcc : c' ≠ c := fun he => hne (he ▸ hc)
    have htok : w'.tokens (w.cur c') = w.tokens (w.cur c') := h.tokens _ (by rw [hw c']; exact hcc)
    simp only [World.creditOf, h.cur c' hcc, htok]

theorem id_lt_of_kept (h : Standing q E M w) {c : CPtr} (hk : w.Kept c) : c.id < w.fresh :=
  h.ids c (List.mem_of_find?_eq_some hk)

/-- The change is balanced: what it takes out of the window comes off the balance. -/
theorem Standing.shift (h : Standing q E M w) {c : CPtr} {es : List Event} (hk : w.Kept c) (hs : w.Shifts c es w')
    (hfloor : c.key = q.stateKey → ∀ x, x.c = c → -M ≤ w'.tokens x)
    (hown : c.key = q.stateKey → ∀ v, q.owedIn v es + w'.creditOf M c v ≤ w.creditOf M c v)
    (hfree : c.key ≠ q.stateKey → ∀ v, q.owedIn v es = 0) : Standing q E M w' := by
  refine ⟨fun c' => ?_, fun x hx => ?_, fun edge c' hc => ?_, fun c' hc => ?_, fun c' hc => ?_, fun v => ?_⟩
  · by_cases hc : c' = c
    · rw [hc]
      exact hs.cur_c
    · rw [hs.cur c' hc]
      exact h.cur_c c'
  · by_cases hc : x.c = c
    · exact hfloor (hc ▸ hx) x hc
    · rw [hs.tokens x hc]
      exact h.floor x hx
  · refine h.edges edge c' ?_
    unfold World.findCounter at *
    rwa [hs.table] at hc
  · rw [hs.table] at hc
    exact (h.ids c' hc).trans_le hs.fresh
  · have hne : c' ≠ c := by
      rintro rfl
      exact absurd (hs.fresh.trans hc) (Nat.not_le.mpr (id_lt_of_kept h hk))
    rw [hs.cur c' hne, hs.tokens c'.first hne]
    exact h.unmade c' (hs.fresh.trans hc)
  · rw [hs.log, owedIn_append]
    have hbooks := h.books v
    by_cases hkey : c.key = q.stateKey
    · have hmem : c.edge ∈ Finset.range E := Finset.mem_range.mpr (h.edges c.edge c (hkey ▸ hk))
      have hrest : ∑ edge ∈ (Finset.range E).erase c.edge, w'.credit q M v edge =
          ∑ edge ∈ (Finset.range E).erase c.edge, w.credit q M v edge := by
        refine Finset.sum_congr rfl fun edge hedge => credit_other h.cur_c hs v fun hf => ?_
        exact (Finset.mem_erase.mp hedge).1 (World.kept_of_findCounter hf).2.1.symm
      rw [← Finset.add_sum_erase _ _ hmem, creditOf_kept hk hkey] at hbooks
      rw [← Finset.add_sum_erase _ _ hmem, hrest, creditOf_kept (hk.grows hs.grows) hkey]
      linarith [hown hkey v]
    · have hsame : ∑ edge ∈ Finset.range E, w'.credit q M v edge = ∑ edge ∈ Finset.range E, w.credit q M v edge := by
        refine Finset.sum_congr rfl fun edge _ => credit_other h.cur_c hs v fun hf => ?_
        exact hkey (World.kept_of_findCounter hf).2.2
      rw [hsame, hfree hkey v, zero_add]
      exact hbooks

/-- Nothing about the balances changes. -/
theorem Standing.same (h : Standing q E M w) (htok : w'.tokens = w.tokens) (hcur : w'.cur = w.cur) (htable : w'.table = w.table)
    (hfresh : w.fresh ≤ w'.fresh) (howed : ∀ v, q.owedIn v w'.log = q.owedIn v w.log) : Standing q E M w' := by
  have hfind : ∀ edge key, w'.findCounter edge key = w.findCounter edge key := fun edge key => by
    unfold World.findCounter
    rw [htable]
  have hcredit : ∀ v edge, w'.credit q M v edge = w.credit q M v edge := fun v edge => by
    unfold World.credit World.creditOf
    rw [hfind, htok, hcur]
  refine ⟨?_, ?_, fun edge c hc => h.edges edge c (hfind _ _ ▸ hc), fun c hc => ?_, fun c hc => ?_, fun v => ?_⟩
  · rw [hcur]
    exact h.cur_c
  · rw [htok]
    exact h.floor
  · exact (h.ids c (htable ▸ hc)).trans_le hfresh
  · rw [hcur, htok]
    exact h.unmade c (hfresh.trans hc)
  · simp only [hcredit, howed]
    exact h.books v

/-- Grants may go from a goroutine's hands into balances. -/
theorem Funded.same (h : Funded dep q M hand w) {hand' : ℤ → ℤ} (hg : w.Grows w') (hcalls : w'.calls = w.calls)
    (hreplies : w'.replies = w.replies) (hres : w'.reservations = w.reservations) (hledger : w'.ledger = w.ledger)
    (hhand : ∀ v, q.depositedIn v w'.log + hand' v ≤ q.depositedIn v w.log + hand v) : Funded dep q M hand' w' := by
  refine ⟨?_, ?_, ?_, ?_, fun v => ?_⟩
  · rw [hcalls]
    exact h.calls
  · rw [hreplies]
    exact h.replies
  · rw [hres]
    exact fun r hr d hd x hx => ⟨(h.tickets r hr d hd x hx).1.grows hg, (h.tickets r hr d hd x hx).2⟩
  · rw [hledger]
    exact h.used
  · rw [hreplies, hledger]
    linarith [h.funds v, hhand v]

theorem Indebted.shift (h : Indebted dep q E M hand w) {c : CPtr} {es : List Event} (hk : w.Kept c) (hs : w.Shifts c es w')
    {hand' : ℤ → ℤ} (hfloor : c.key = q.stateKey → ∀ x, x.c = c → -M ≤ w'.tokens x)
    (hown : c.key = q.stateKey → ∀ v, q.owedIn v es + w'.creditOf M c v ≤ w.creditOf M c v)
    (hfree : c.key ≠ q.stateKey → ∀ v, q.owedIn v es = 0) (hhand : ∀ v, q.depositedIn v es + hand' v ≤ hand v) :
    Indebted dep q E M hand' w' := by
  refine ⟨h.standing.shift hk hs hfloor hown hfree, h.funded.same hs.grows hs.calls hs.replies hs.reservations hs.ledger fun v => ?_⟩
  rw [hs.log, depositedIn_append]
  linarith [hhand v]

/-- Nothing changes but the record, by events that move no tokens. -/
theorem Indebted.same (h : Indebted dep q E M hand w) (htok : w'.tokens = w.tokens) (hcur : w'.cur = w.cur)
    (htable : w'.table = w.table) (hfresh : w.fresh ≤ w'.fresh) (hcalls : w'.calls = w.calls) (hreplies : w'.replies = w.replies)
    (hres : w'.reservations = w.reservations) (hledger : w'.ledger = w.ledger) (howed : ∀ v, q.owedIn v w'.log = q.owedIn v w.log)
    (hdep : ∀ v, q.depositedIn v w'.log = q.depositedIn v w.log) : Indebted dep q E M hand w' := by
  refine ⟨h.standing.same htok hcur htable hfresh howed, ?_⟩
  refine h.funded.same ⟨hfresh, fun edge key c hc => ?_⟩ hcalls hreplies hres hledger fun v => by rw [hdep]
  unfold World.findCounter at *
  rwa [htable]

theorem label_cur (hw : ∀ c, (w.cur c).c = c) {c : CPtr} (hkey : c.key = q.stateKey) (v : ℤ) :
    q.Label v (w.cur c) ↔ v = (w.cur c).win := by
  unfold Quota.Label
  rw [hw c]
  exact ⟨fun h => h.2.symm, fun h => ⟨hkey, h.symm⟩⟩

theorem not_label_cur (hw : ∀ c, (w.cur c).c = c) {c : CPtr} (hkey : c.key ≠ q.stateKey) (v : ℤ) : ¬q.Label v (w.cur c) := by
  unfold Quota.Label
  rw [hw c]
  exact fun h => hkey h.1

/-- The balance of a counter changes to `b`, and the record says so. -/
theorem Indebted.move (h : Indebted dep q E M hand w) {c : CPtr} {es : List Event} {b : ℤ} (hk : w.Kept c)
    (hs : w.Shifts c es w') (hcur : w'.cur c = w.cur c) (htok : w'.tokens = Function.update w.tokens (w.cur c) b)
    {hand' : ℤ → ℤ} (hb : c.key = q.stateKey → -M ≤ b)
    (howe : ∀ v, q.Label v (w.cur c) → q.owedIn v es ≤ w.tokens (w.cur c) - b) (hnot : ∀ v, ¬q.Label v (w.cur c) → q.owedIn v es = 0)
    (hhand : ∀ v, q.depositedIn v es + hand' v ≤ hand v) : Indebted dep q E M hand' w' := by
  refine h.shift hk hs (fun hkey x hx => ?_) (fun hkey v => ?_) (fun hkey v => hnot v (not_label_cur h.standing.cur_c hkey v)) hhand
  · rw [htok]
    by_cases hxc : x = w.cur c
    · rw [hxc, Function.update_self]
      exact hb hkey
    · rw [Function.update_of_ne hxc]
      exact h.standing.floor x (hx ▸ hkey)
  · unfold World.creditOf
    rw [hcur, htok, Function.update_self]
    by_cases hv : v = (w.cur c).win
    · rw [if_pos hv, if_pos hv]
      linarith [howe v ((label_cur h.standing.cur_c hkey v).mpr hv)]
    · rw [if_neg hv, if_neg hv, hnot v fun hl => hv ((label_cur h.standing.cur_c hkey v).mp hl)]
      linarith

/-- A held takes the place of another of the same label or an earlier one. -/
theorem Indebted.installed (h : Indebted dep q E M hand w) (hM : 0 ≤ M) {c : CPtr} (hk : w.Kept c) {win : ℤ} (parentWin : ℤ)
    (hwin : (w.cur c).win ≤ win) : Indebted dep q E M hand (w.installed c win parentWin) := by
  have hcur : (w.installed c win parentWin).cur c = ⟨c, w.fresh, win, parentWin⟩ := Function.update_self _ _ _
  have hnew : (w.installed c win parentWin).tokens ⟨c, w.fresh, win, parentWin⟩ = min (w.tokens (w.cur c)) 0 :=
    Function.update_self _ _ _
  have hfloor : c.key = q.stateKey → -M ≤ w.tokens (w.cur c) := fun hkey => h.standing.floor _ (by rw [h.standing.cur_c c]; exact hkey)
  have hs : w.Shifts c [.create ⟨c, w.fresh, win, parentWin⟩ w.time] (w.installed c win parentWin) := by
    refine ⟨fun c' hc => Function.update_of_ne hc _ _, by rw [hcur],
      fun x hx => ?_, rfl, rfl, rfl, rfl, rfl, Nat.le_succ _, rfl⟩
    refine Function.update_of_ne ?_ _ _
    rintro rfl
    exact hx rfl
  refine h.shift hk hs (fun hkey x hx => ?_) (fun hkey v => ?_) (fun _ _ => rfl) fun v => ?_
  · by_cases hxn : x = ⟨c, w.fresh, win, parentWin⟩
    · rw [hxn, hnew]
      have := hfloor hkey
      omega
    · have htok : (w.installed c win parentWin).tokens x = w.tokens x := Function.update_of_ne hxn _ _
      rw [htok]
      exact h.standing.floor x (hx ▸ hkey)
  · have howed : q.owedIn v [.create ⟨c, w.fresh, win, parentWin⟩ w.time] = 0 := rfl
    have hle := hfloor hkey
    unfold World.creditOf
    rw [hcur, hnew, howed]
    dsimp only
    split_ifs <;> omega
  · exact (zero_add _).le

theorem Indebted.alike (h : Indebted dep q E M hand w) (ha : w.Alike w') : Indebted dep q E M hand w' :=
  h.same ha.tokens ha.cur ha.table ha.fresh ha.calls ha.replies ha.reservations ha.ledger (fun v => by rw [ha.log])
    fun v => by rw [ha.log]

/-- A counter starts with nothing, and owes nothing. -/
theorem Indebted.counter (h : Indebted dep q E M hand w) (hM : 0 ≤ M) {edge : ℕ} (hedge : edge < E) {req : Request} (n : ℤ) :
    Indebted dep q E M hand (w.addCounter ⟨edge, w.fresh, req.identity⟩ n) := by
  have hg := w.grows_addCounter ⟨edge, w.fresh, req.identity⟩ n
  have hcases : ∀ e c, (w.addCounter ⟨edge, w.fresh, req.identity⟩ n).findCounter e q.stateKey = some c →
      w.findCounter e q.stateKey = some c ∨ (w.findCounter e q.stateKey = none ∧ c = ⟨edge, w.fresh, req.identity⟩ ∧ e = edge) := by
    intro e c hc
    cases hold : w.findCounter e q.stateKey with
    | some c' =>
      rw [hg.counters _ _ _ hold] at hc
      exact .inl hc
    | none =>
      have hc' := List.mem_of_find?_eq_some hc
      rcases List.mem_append.mp hc' with hm | hm
      · have hedge' := (World.kept_of_findCounter hc).2
        refine absurd (List.find?_eq_none.mp hold c hm) ?_
        simp [hedge'.1, hedge'.2]
      · rw [List.mem_singleton] at hm
        refine .inr ⟨rfl, hm, ?_⟩
        rw [← (World.kept_of_findCounter hc).2.1, hm]
  have hs := h.standing
  refine ⟨⟨hs.cur_c, hs.floor, fun e c hc => ?_, fun c hc => ?_, fun c hc => hs.unmade c (hg.fresh.trans hc), fun v => ?_⟩,
    h.funded.same hg rfl rfl rfl rfl fun v => le_rfl⟩
  · rcases hcases e c hc with hc | ⟨-, -, he⟩
    · exact hs.edges e c hc
    · rw [he]
      exact hedge
  · rcases List.mem_append.mp hc with hm | hm
    · exact (hs.ids c hm).trans (Nat.lt_succ_self _)
    · rw [List.mem_singleton.mp hm]
      exact Nat.lt_succ_self _
  · refine le_trans (add_le_add_right (Finset.sum_le_sum fun e _ => ?_) _) (hs.books v)
    have hcredit : ∀ c, (w.addCounter ⟨edge, w.fresh, req.identity⟩ n).creditOf M c v = w.creditOf M c v := fun _ => rfl
    unfold World.credit
    cases hc : (w.addCounter ⟨edge, w.fresh, req.identity⟩ n).findCounter e q.stateKey with
    | none =>
      have hold : w.findCounter e q.stateKey = none := by
        cases hold : w.findCounter e q.stateKey with
        | none => rfl
        | some c' =>
          rw [hg.counters _ _ _ hold] at hc
          cases hc
      rw [hold]
    | some c =>
      rcases hcases e c hc with hc' | ⟨hold, rfl, -⟩
      · rw [hc']
        exact (hcredit c).le
      · rw [hold]
        dsimp only
        rw [hcredit]
        obtain ⟨hcur, htok⟩ := hs.unmade ⟨edge, w.fresh, req.identity⟩ le_rfl
        unfold World.creditOf
        rw [hcur, htok]
        split_ifs <;> omega

theorem Quota.Sound.granted_nonneg {r : QuotaLeaseRequest} {resp : QuotaLeaseResponse} (h : q.Sound r resp) (v : ℤ) :
    0 ≤ q.granted v r resp := by
  unfold Quota.granted
  split
  · exact h.1
  · exact le_rfl

theorem Funded.granted_nonneg (h : Funded dep q M hand w) {rep : Reply} (hm : rep ∈ w.replies) (v : ℤ) :
    0 ≤ q.grantedIn v rep.req rep.body := by
  cases hb : rep.body with
  | error code => exact le_rfl
  | ok resp => exact (h.replies rep hm resp hb).granted_nonneg v

theorem Funded.eraseIdx (h : Funded dep q M hand w) (i : ℕ) (v : ℤ) :
    q.inReplies v (w.replies.eraseIdx i) ≤ q.inReplies v w.replies := by
  cases hi : w.replies[i]? with
  | none => rw [List.eraseIdx_of_length_le (by simpa using hi)]
  | some rep => linarith [inReplies_erase q v hi, h.granted_nonneg (List.mem_of_getElem? hi) v]

/-- The debts' invariant, with its forms inside a block. -/
def debtInv (dep : Deployment) (q : Quota) (E : ℕ) (M : ℤ) : BlockInv where
  fits edge req := edge < E ∧ req.Owes dep q M
  ticket c maxDebt := c.key = q.stateKey → maxDebt = M
  holds := Indebted dep q E M fun _ => 0
  answered c r resp w := r.stateKey = c.key ∧ q.Sound r resp ∧ Indebted dep q E M (fun v => q.granted v r resp) w
  taken _ _ := Indebted dep q E M fun _ => 0

theorem debtInv_expire (h : Indebted dep q E M hand w) (hM : 0 ≤ M) {c : CPtr} (hk : w.Kept c) (hpos : 0 < w.tokens (w.cur c)) :
    Indebted dep q E M hand (w.setTokens (w.cur c) 0) := by
  have hs : w.Shifts c [] (w.setTokens (w.cur c) 0) := by
    refine ⟨fun _ _ => rfl, h.standing.cur_c c, fun x hx => Function.update_of_ne ?_ _ _, rfl, rfl, rfl, rfl, rfl, le_rfl, rfl⟩
    rintro rfl
    exact hx (h.standing.cur_c c)
  refine h.move hk hs rfl rfl (fun _ => by omega) (fun v _ => ?_) (fun _ _ => rfl) fun v => ?_
  · have : q.owedIn v [] = 0 := rfl
    omega
  · exact (zero_add _).le

/-- A take, counted. -/
theorem Indebted.take (h : Indebted dep q E M hand w) (hM : 0 ≤ M) {c : CPtr} (hk : w.Kept c) {cost : ℤ} (t exp : ℤ)
    (hle : cost ≤ w.tokens (w.cur c)) : Indebted dep q E M hand (w.drawn (w.cur c) cost t exp) := by
  have hs : w.Shifts c [.take (w.cur c) cost t w.time] (w.drawn (w.cur c) cost t exp) := by
    refine ⟨fun _ _ => rfl, h.standing.cur_c c, fun x hx => Function.update_of_ne ?_ _ _, rfl, rfl, rfl, rfl, rfl, le_rfl, rfl⟩
    rintro rfl
    exact hx (h.standing.cur_c c)
  refine h.move hk hs rfl rfl (fun _ => by omega) (fun v hl => ?_) (fun v hl => ?_) fun v => ?_
  · simp [Quota.owedIn, Quota.owedBy, Quota.net, Quota.depositedBy, hl]
  · simp [Quota.owedIn, Quota.owedBy, Quota.net, Quota.depositedBy, hl]
  · simp [Quota.depositedIn, Quota.depositedBy]

/-- An adjustment, with the debt capped at `M`. -/
theorem Indebted.adjust (h : Indebted dep q E M hand w) {c : CPtr} (hk : w.Kept c) {maxDebt : ℤ} (delta : ℤ)
    (hm : c.key = q.stateKey → maxDebt = M) : Indebted dep q E M hand (w.adjusted (w.cur c) delta maxDebt) := by
  have hs : w.Shifts c [.adjust (w.cur c) (rechargeTo (w.tokens (w.cur c)) delta maxDebt - w.tokens (w.cur c))]
      (w.adjusted (w.cur c) delta maxDebt) := by
    refine ⟨fun _ _ => rfl, h.standing.cur_c c, fun x hx => Function.update_of_ne ?_ _ _, rfl, rfl, rfl, rfl, rfl, le_rfl, rfl⟩
    rintro rfl
    exact hx (h.standing.cur_c c)
  refine h.move hk hs rfl rfl (fun hkey => ?_) (fun v hl => ?_) (fun v hl => ?_) fun v => ?_
  · have hfloor := h.standing.floor (w.cur c) (by rw [h.standing.cur_c c]; exact hkey)
    rw [hm hkey]
    unfold rechargeTo
    split_ifs <;> omega
  · simp [Quota.owedIn, Quota.owedBy, Quota.net, Quota.depositedBy, hl]
  · simp [Quota.owedIn, Quota.owedBy, Quota.net, Quota.depositedBy, hl]
  · simp [Quota.depositedIn, Quota.depositedBy]

/-- The answer in hand goes into the balance. -/
theorem Indebted.deposit {c : CPtr} {r : QuotaLeaseRequest} {resp : QuotaLeaseResponse}
    (h : Indebted dep q E M (fun v => q.granted v r resp) w) (hr : r.stateKey = c.key) (hsound : q.Sound r resp) (hk : w.Kept c)
    (hwin : 0 < resp.expiresInMs ∨ 0 < resp.resetInMs → (w.cur c).win = resp.windowId) :
    Indebted dep q E M (fun _ => 0) (w.deposited (w.cur c) resp.grantedTokens) := by
  have hs : w.Shifts c [.deposit (w.cur c) resp.grantedTokens] (w.deposited (w.cur c) resp.grantedTokens) := by
    refine ⟨fun _ _ => rfl, h.standing.cur_c c, fun x hx => Function.update_of_ne ?_ _ _, rfl, rfl, rfl, rfl, rfl, le_rfl, rfl⟩
    rintro rfl
    exact hx (h.standing.cur_c c)
  refine h.move hk hs rfl rfl (fun hkey => ?_) (fun v hl => ?_) (fun v hl => ?_) fun v => ?_
  · linarith [h.standing.floor (w.cur c) (by rw [h.standing.cur_c c]; exact hkey), hsound.1]
  · simp [Quota.owedIn, Quota.owedBy, Quota.net, Quota.depositedBy, hl]
  · simp [Quota.owedIn, Quota.owedBy, Quota.net, Quota.depositedBy, hl]
  · by_cases hl : q.Label v (w.cur c)
    · have hkey : r.stateKey = q.stateKey := by rw [hr, ← h.standing.cur_c c, hl.1]
      have hv : resp.windowId = v := by rw [← hwin (.inl (hsound.2 hkey)), hl.2]
      simp [Quota.depositedIn, Quota.depositedBy, Quota.granted, hl, hkey, hv]
    · simpa [Quota.depositedIn, Quota.depositedBy, hl] using hsound.granted_nonneg v

theorem debtInv_sound (hM : 0 < M) : (debtInv dep q E M).Sound (settling dep q E M) where
  fits_cost _ h := h
  ticketed {c req} hf hkey _ hq := by
    have hm := hf.2.2 (hkey ▸ hq)
    rw [if_neg (by omega), hm]
  cur_c c h := h.standing.cur_c c
  alike h ha := h.alike ha
  answered_alike h ha := ⟨h.1, h.2.1, h.2.2.alike ha⟩
  taken_alike h ha := h.alike ha
  counter n h hf _ := h.counter hM.le hf.1 n
  reset parentWin h hk := h.installed hM.le hk parentWin le_rfl
  expire h hk hpos := debtInv_expire h hM.le hk hpos
  take t exp h hc _ hle _ := h.take hM.le hc.kept t exp hle
  untaken h := h
  reported h _ _ := h.same rfl rfl rfl le_rfl rfl rfl rfl rfl (fun v => zero_add _) fun v => zero_add _
  deny req h _ := h.same rfl rfl rfl le_rfl rfl rfl rfl rfl (fun v => zero_add _) fun v => zero_add _
  send {w edge req} o size rate h hf := by
    refine ⟨h.standing.same rfl rfl rfl le_rfl fun _ => rfl, ?_, h.funded.replies, h.funded.tickets, h.funded.used, h.funded.funds⟩
    intro c hc
    rcases List.mem_append.mp hc with hc | hc
    · exact h.funded.calls c hc
    · rw [List.mem_singleton.mp hc]
      exact hf.2.1
  refuse {w} i h := by
    refine ⟨h.standing.same rfl rfl rfl le_rfl fun _ => rfl, h.funded.calls, fun rep hm => ?_, h.funded.tickets, h.funded.used, fun v => ?_⟩
    · exact h.funded.replies rep (List.mem_of_mem_eraseIdx hm)
    · have h₁ := h.funded.eraseIdx i v
      have h₂ := h.funded.funds v
      dsimp only at *
      linarith
  receive {w c req i rep resp o size rate} h hc hrep hreq hbody := by
    have hm := List.mem_of_getElem? hrep
    refine ⟨?_, h.funded.replies rep hm resp hbody, h.standing.same rfl rfl rfl le_rfl fun v => zero_add _, h.funded.calls,
      fun rep' hm' => h.funded.replies rep' (List.mem_of_mem_eraseIdx hm'), h.funded.tickets, h.funded.used, fun v => ?_⟩
    · rw [hreq, hc.key]
      rfl
    · have h₁ := inReplies_erase q v hrep
      rw [hbody] at h₁
      have h₂ := h.funded.funds v
      have h₃ : q.depositedIn v (w.receive i rep.req (.ok resp)).log = q.depositedIn v w.log := zero_add _
      rw [h₃]
      simp only [World.receive, World.record, Quota.grantedIn] at *
      linarith
  roll h hk hlt := ⟨h.1, h.2.1, h.2.2.installed hM.le hk _ hlt.le⟩
  drop {w c r resp} h := by
    refine ⟨h.2.2.standing, h.2.2.funded.same (.refl w) rfl rfl rfl rfl fun v => ?_⟩
    have := h.2.1.granted_nonneg v
    linarith
  deposit h hk _ hwin _ := h.2.2.deposit h.1 h.2.1 hk hwin

theorem debtInv_settles : (debtInv dep q E M).Settles where
  adjust delta h hk ht := h.adjust hk delta ht
  reserve {w r} h ht := by
    refine ⟨h.standing.same rfl rfl rfl le_rfl fun _ => rfl, h.funded.calls, h.funded.replies, fun r' hr' d hd => ?_,
      h.funded.used, h.funded.funds⟩
    rcases List.mem_append.mp hr' with hr' | hr'
    · exact h.funded.tickets r' hr' d hd
    · rw [List.mem_singleton.mp hr'] at hd
      exact ht d hd

/-- The edges' goroutines in blocks. -/
def debtLogic (dep : Deployment) (q : Quota) (E : ℕ) (M : ℤ) : BlockLogic Instr.Answer World Choice Input where
  sem := sem dep
  cond := settling dep q E M
  waits := Instr.waits
  Inv := Indebted dep q E M fun _ => 0
  Later := World.Grows
  Starts := Settling dep (debtInv dep q E M)

theorem debtLogic_inBlocks (hM : 0 < M) : InBlocks dep (debtInv dep q E M) (debtLogic dep q E M) :=
  ⟨rfl, rfl, rfl, rfl, fun _ _ h => .starting h, debtInv_sound hM⟩

/-- The hub grants what the ledger has left. -/
theorem Indebted.serve (h : Indebted dep q E M (fun _ => 0) w) (hq : q.Windowed) {i : ℕ} {c : Call} (hc : w.calls[i]? = some c)
    (now : ℤ) (ord : RangeOrder) : Indebted dep q E M (fun _ => 0) (w.serve dep i c now ord) := by
  have hserved := requestQuotaLease_served hq (dep.cn c.edge) (fun v => (h.funded.used v).1) ord now
    (h.funded.calls c (List.mem_of_getElem? hc))
  unfold World.serve
  generalize requestQuotaLease dep.env dep.cfg (dep.cn c.edge) w.ledger ord now c.body = out at hserved ⊢
  obtain ⟨body, m⟩ := out
  have hgranted : ∀ v, 0 ≤ q.grantedIn v c.body body := fun v => by
    cases hb : body with
    | error code => exact le_rfl
    | ok resp => exact (hserved.sound resp hb).granted_nonneg v
  have hnext : Indebted dep q E M (fun _ => 0) { w with ledger := m, replies := w.replies ++ [⟨i, c.body, body, now⟩] } := by
    refine ⟨h.standing.same rfl rfl rfl le_rfl fun _ => rfl, h.funded.calls, fun rep hm => ?_, h.funded.tickets, fun v => ?_, fun v => ?_⟩
    · rcases List.mem_append.mp hm with hm | hm
      · exact h.funded.replies rep hm
      · rw [List.mem_singleton.mp hm]
        exact hserved.sound
    · have hu := h.funded.used v
      have hv := hserved.used v
      have hg := hgranted v
      dsimp only at hv ⊢
      exact ⟨by rw [hv]; omega, hserved.le v hu.2⟩
    · have hf := h.funded.funds v
      have hv := hserved.used v
      dsimp only at hv ⊢
      rw [inReplies_snoc, hv]
      linarith
  cases hb : body with
  | error code =>
    rw [hb] at hnext
    exact hnext
  | ok resp =>
    rw [hb] at hnext
    exact hnext.same rfl rfl rfl le_rfl rfl rfl rfl rfl (fun v => zero_add _) fun v => zero_add _

theorem debtLogic_sound (hq : q.Windowed) (hM : 0 < M) : (debtLogic dep q E M).Sound where
  refl := World.Grows.refl
  trans _ _ _ h h' := h.trans h'
  starts _ _ h := (debtLogic_inBlocks hM).settling debtInv_settles h
  event e w w' new hw hm hx := by
    cases e with
    | tick d =>
      cases hx
      have ha : w.Alike { w with time := w.time + d } := ⟨rfl, rfl, rfl, fun _ => rfl, rfl, rfl, rfl, rfl, rfl, le_rfl⟩
      exact ⟨Indebted.alike hw ha, ha.grows, fun _ hth => (nomatch hth)⟩
    | allow edge fuel req =>
      cases hx
      refine ⟨hw, .refl w, fun th hth => ?_⟩
      rw [List.mem_singleton.mp hth]
      exact .starting (.allow fuel hm)
    | reserve edge fuel checks =>
      cases hx
      refine ⟨hw, .refl w, fun th hth => ?_⟩
      rw [List.mem_singleton.mp hth]
      exact .reserve fuel fun req hreq => ⟨hm.1, hm.2 req hreq⟩
    | settle i actual fuel =>
      simp only [debtLogic, sem, execInput, World.settle] at hx
      split at hx
      · rename_i r hr
        split at hx
        · cases hx
          have ht := hw.funded.tickets (r, false) (List.mem_of_getElem? hr)
          refine ⟨⟨hw.standing.same rfl rfl rfl le_rfl fun _ => rfl, hw.funded.calls, hw.funded.replies, fun r' hr' => ?_,
            hw.funded.used, hw.funded.funds⟩, World.grows_same rfl rfl, fun th hth => ?_⟩
          · rcases List.mem_or_eq_of_mem_set hr' with hr' | hr'
            · exact hw.funded.tickets r' hr'
            · rw [hr']
              exact ht
          · rw [List.mem_singleton.mp hth]
            exact .settle fuel actual r.costs ht
        · cases hx
      · cases hx
    | serve i now ord =>
      obtain ⟨c, hc, he⟩ := Option.map_eq_some_iff.mp hx
      cases he
      refine ⟨Indebted.serve hw hq hc now ord, ?_, fun _ hth => (nomatch hth)⟩
      unfold World.serve
      dsimp only
      split <;> exact World.grows_same rfl rfl
    | sweep | drain | sweepLocal | credit => exact absurd hm id

theorem indebted_init (hq : q.Windowed) (hM : 0 < M) (time : ℤ) : Indebted dep q E M (fun _ => 0) (World.init time Mem.new) where
  standing := by
    refine ⟨fun _ => rfl, fun _ _ => ?_, fun _ _ hc => (nomatch hc), fun _ hc => (nomatch hc), fun _ _ => ⟨rfl, rfl⟩, fun v => ?_⟩
    · exact neg_nonpos.mpr hM.le
    · have hcredit : ∀ edge ∈ Finset.range E, (World.init time Mem.new).credit q M v edge = 0 := fun _ _ => rfl
      rw [Finset.sum_eq_zero hcredit]
      exact le_rfl
  funded := by
    refine ⟨fun _ hc => (nomatch hc), fun _ hc => (nomatch hc), fun _ hc => (nomatch hc), fun v => ⟨le_rfl, hq.2.le⟩, fun v => ?_⟩
    exact le_rfl

end Debts

/-- `E` edges on a windowed quota of limit `Q`, with a debt of `M` allowed. No balance falls
below `-M`, and what is debited under a window's label, charges and refunds included, is at
most `Q + E * M`. -/
theorem debt_bound (dep : Deployment) (q : Quota) (hq : q.Windowed) (E : ℕ) {M : ℤ} (hM : 0 < M) (time : ℤ)
    {acts : List EdgeBlock} {p : Edges}
    (hok : Along (Edges.block dep) (Pool.MeetsBlock (sem dep) (settling dep q E M)) (Edges.init time Mem.new) acts)
    (hrun : runAll (Edges.block dep) (Edges.init time Mem.new) acts = some p) :
    (∀ h, h.c.key = q.stateKey → -M ≤ p.shared.tokens h) ∧
      ∀ v, q.netAdmitted v p.shared.log ≤ q.spec.limit + E * M := by
  have hinit : (debtLogic dep q E M).Rested (Edges.init time Mem.new) :=
    ⟨indebted_init hq hM time, fun _ hth => absurd hth List.not_mem_nil⟩
  obtain ⟨hi, -⟩ := BlockLogic.rested_run (debtLogic_sound hq hM) hinit hok hrun
  refine ⟨hi.standing.floor, fun v => ?_⟩
  have hcredit : ∀ edge ∈ Finset.range E, -M ≤ p.shared.credit q M v edge := by
    intro edge _
    unfold World.credit
    cases hc : p.shared.findCounter edge q.stateKey with
    | none => exact neg_nonpos.mpr hM.le
    | some c =>
      have hfloor := hi.standing.floor (p.shared.cur c) (by rw [hi.standing.cur_c c]; exact (World.kept_of_findCounter hc).2.2)
      unfold World.creditOf
      dsimp only
      split_ifs <;> omega
  have hsum := Finset.card_nsmul_le_sum _ _ _ hcredit
  rw [Finset.card_range, nsmul_eq_mul] at hsum
  have hbooks := hi.standing.books v
  have hfunds := hi.funded.funds v
  have hused := (hi.funded.used v).2
  have hreplies : 0 ≤ q.inReplies v p.shared.replies := by
    refine List.sum_nonneg fun y hy => ?_
    obtain ⟨rep, hrep, rfl⟩ := List.mem_map.mp hy
    exact hi.funded.granted_nonneg hrep v
  rw [q.netAdmitted_eq]
  linarith

namespace Sample

/-- A request that may leave a debt of 50. -/
def onCredit (cost : ℤ) : Request := { request cost with maxDebt := 50 }

/-- A block of `n` instructions of the goroutine `t`, with the clock at `now`. -/
def edgeBlock (n t : ℕ) (now : ℤ) : EdgeBlock := .block t (List.replicate n { value := now, fuel := 3 })

/-- A reservation of 5 is made from a lease of 10, and turns out to cost 200. -/
def overrun : List EdgeBlock :=
  [.env (.reserve 0 3 [onCredit 5]), edgeBlock 13 0 5100, edgeBlock 7 1 5100, .env (.serve 0 5100 order),
    edgeBlock 12 1 5100, edgeBlock 15 0 5100, .env (.settle 0 200 3), edgeBlock 4 2 5100]

end Sample

open Sample in
theorem debt_bound_overrun :
    ∃ p, runAll (Edges.block dep) (Edges.init 5100 Mem.new) overrun = some p ∧
      quota.netAdmitted 5 p.shared.log = 60 ∧ (∀ h, h.c.key = quota.stateKey → -50 ≤ p.shared.tokens h) ∧
      ∀ v, quota.netAdmitted v p.shared.log ≤ 100 + (1 : ℕ) * 50 := by
  have heval : (runAll (Edges.block dep) (Edges.init 5100 Mem.new) overrun).map
      (fun p => quota.netAdmitted 5 p.shared.log) = some 60 := by decide +kernel
  obtain ⟨p, hrun, hp⟩ := Option.map_eq_some_iff.mp heval
  have hbound := debt_bound dep quota (by decide) 1 (by decide : (0 : ℤ) < 50) 5100 (by decide +kernel) hrun
  exact ⟨p, hrun, hp, hbound.1, hbound.2⟩

end Gate
