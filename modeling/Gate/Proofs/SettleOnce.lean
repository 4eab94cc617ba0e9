import Gate.Proofs.Dedupe
import Gate.Proofs.Settle

/-! Several settlements of one token. A dedupe ID has the replica's identity in it and is kept per
quota, and an item whose cost was right is not sent: of the settlements of a token, each replica's
first that sends anything for a quota is applied, and of its items for the quota the first. -/

namespace Gate

open Decide

section

variable {m : Mem} {now w : ℤ} {dedupe key : String}

/-- A return of a window's tokens, in the window. -/
structure Ret.Windowed (now : ℤ) (x : Ret) : Prop where
  algo : x.spec.algo.or ≠ .tokenBucket
  valid : x.spec.validate = .ok ()
  parent : x.parent = none
  current : now.tdiv (windowMs x.spec) = x.windowID

theorem Ret.Windowed.prepare {x : Ret} (h : x.Windowed now) (dedupe : String) : ∃ inp, prepareReturn x dedupe = .ok inp := by
  obtain ⟨inp, -, hp, -⟩ := prepareReturn_dedupe dedupe h.valid now
  exact ⟨inp, hp⟩

/-- One return with a dedupe ID. -/
theorem used_returnOne {x : Ret} {inp : ReturnInput} (hx : x.Windowed now) (hd : dedupe ≠ "") (hp : prepareReturn x dedupe = .ok inp)
    (hw : x.key = key → x.windowID = w) :
    (m.returnOne now inp).used key w =
      if x.key = key ∧ m.deduped (retKey key dedupe) = false then m.used key w - min x.tokens (m.used key w)
      else m.used key w := by
  have hpre := prepareReturn_prepared hp
  have hkey : inp.dedupeKey = retKey x.key dedupe := by
    rw [hpre.dedupeKey, if_pos hd]
    rfl
  have hne : inp.dedupeKey ≠ "" := hkey ▸ retKey_ne_empty _ _
  have hown : inp.key = x.key := hpre.key
  cases hm : m.deduped (retKey x.key dedupe) with
  | true =>
    rw [returnOne_repeat hne (hkey ▸ hm), if_neg]
    rintro ⟨rfl, hf⟩
    rw [hm] at hf
    cases hf
  | false =>
    have halgo : inp.algo ≠ .tokenBucket := by
      rw [hpre.algo]
      exact hx.algo
    have hcur : now.tdiv inp.win = inp.wid := by
      rw [hpre.win, hpre.wid]
      exact hx.current
    rw [returnOne_first hne (hkey ▸ hm), applyReturn_alone _ _ _ halgo (hpre.alone hx.parent), if_pos hcur, hpre.wid, hpre.tokens,
      hown]
    by_cases hk : x.key = key
    · subst hk
      rw [hw rfl, used_credit, if_pos rfl, Mem.used_mark, if_pos ⟨rfl, hm⟩]
    · rw [if_neg fun h => hk h.1]
      unfold Mem.used Mem.getInt
      rw [vals_credit_apart _ fun he => hk (winKey_inj' he).1.symm]
      rfl

theorem deduped_returnOne_ret {x : Ret} {inp : ReturnInput} (hd : dedupe ≠ "") (hp : prepareReturn x dedupe = .ok inp) :
    (m.returnOne now inp).deduped (retKey key dedupe) = (decide (key = x.key) || m.deduped (retKey key dedupe)) := by
  have hkey : inp.dedupeKey = retKey x.key dedupe := by
    rw [(prepareReturn_prepared hp).dedupeKey, if_pos hd]
    rfl
  have hne : inp.dedupeKey ≠ "" := hkey ▸ retKey_ne_empty _ _
  cases hm : m.deduped (retKey x.key dedupe) with
  | true =>
    rw [returnOne_repeat hne (hkey ▸ hm)]
    by_cases hk : key = x.key <;> simp [hk, hm]
  | false => rw [returnOne_first hne (hkey ▸ hm), deduped_applyReturn, hkey, deduped_mark_ret]

/-- A list of returns under one ID: the first of the quota's own is applied, unless the ID has been used on it. -/
theorem used_ret (hd : dedupe ≠ "") :
    ∀ (xs : List Ret) {m : Mem}, (∀ x ∈ xs, x.Windowed now) → (∀ x ∈ xs, x.key = key → x.windowID = w) →
      (m.ret now dedupe xs).2.used key w =
        if m.deduped (retKey key dedupe) = true then m.used key w
        else match xs.find? fun x => x.key = key with
          | none => m.used key w
          | some x => m.used key w - min x.tokens (m.used key w) := by
  intro xs
  induction xs with
  | nil =>
    intro m _ _
    simp [Mem.ret]
  | cons x xs ih =>
    intro m hwin hw
    obtain ⟨hx, hwin⟩ := List.forall_mem_cons.mp hwin
    obtain ⟨hwx, hw⟩ := List.forall_mem_cons.mp hw
    obtain ⟨inp, hp⟩ := hx.prepare dedupe
    have hstep : (m.returnOne now inp).used key w = _ := used_returnOne hx hd hp hwx
    rw [Mem.ret, hp]
    dsimp only
    rw [ih hwin hw, hstep, deduped_returnOne_ret hd hp]
    by_cases hk : x.key = key
    · cases hm : m.deduped (retKey key dedupe) <;> simp [hk]
    · simp [hk, Ne.symm hk]

end

/-! The settlement's returns. -/

namespace Decide

variable {env : HubEnv} {cfg : GatewayConfig} {t : ReservationToken} {actual now w : ℤ} {key : String}

/-- An item that is sent, as the ledger gets it. -/
theorem resolveReturn_item {it : ReservationItem} {y : LeaseReturn} {i : Item} (hy : settleItem t.domain actual it = some y)
    (hi : Gate.resolve env cfg scope t.domain it.subject it.limit "" "" = .ok i) :
    resolveReturn env cfg y = some ⟨t.itemRef it, i.spec, none, it.window, 0, it.estimate - max actual 0⟩ := by
  unfold settleItem at hy
  dsimp only at hy
  split_ifs at hy
  obtain rfl := Option.some.inj hy
  have hres := hi
  unfold Gate.resolve resolveDescriptor at hres
  rw [if_pos rfl] at hres
  unfold resolveReturn
  dsimp only
  rw [hi]
  split_ifs at hres
  split at hres
  next => cases hres
  next =>
    obtain rfl := Except.ok.inj hres
    rfl

theorem key_of_fixed {r : Ref} {algo : Algo} (h : algo.or = .fixedWindow) : r.key algo = r.key .fixedWindow := by
  unfold Ref.key
  rw [h]
  rfl

/-- What is sent for a quota, first things first. -/
theorem find_settleReturns (hk : t.Known env cfg) :
    ((settleReturns env cfg t actual).find? fun x => x.key = key).map Ret.tokens = (t.sent actual key).head? := by
  unfold settleReturns ReservationToken.sent ReservationToken.deltas
  unfold ReservationToken.Known at hk
  generalize t.items = items at hk
  induction items with
  | nil => rfl
  | cons it items ih =>
    obtain ⟨⟨i, hi, halgo, -⟩, hk⟩ := List.forall_mem_cons.mp hk
    have ih := ih hk
    by_cases hzero : it.estimate - max actual 0 = 0
    · have hnone : settleItem t.domain actual it = none := by simp [settleItem, hzero]
      rw [List.filterMap_cons_none hnone, ih]
      by_cases hkey : t.itemKey it = key <;> simp [hkey, hzero]
    · obtain ⟨y, hy⟩ : ∃ y, settleItem t.domain actual it = some y := ⟨_, if_pos hzero⟩
      have hx := resolveReturn_item hy hi
      rw [List.filterMap_cons_some hy, List.filterMap_cons_some hx]
      have hown : Ret.key ⟨t.itemRef it, i.spec, none, it.window, 0, it.estimate - max actual 0⟩ = t.itemKey it := key_of_fixed halgo
      by_cases hkey : t.itemKey it = key
      · simp [hown, hkey, hzero]
      · simp only [List.find?_cons, hown, hkey, decide_false, Bool.false_eq_true, not_false_eq_true, List.filter_cons_of_neg]
        exact ih

theorem settleReturns_windowed (hk : t.Known env cfg) (hc : t.Current env cfg now) {x : Ret}
    (hx : x ∈ settleReturns env cfg t actual) : x.Windowed now ∧ ∃ it ∈ t.items, x.key = t.itemKey it ∧ x.windowID = it.window := by
  unfold settleReturns at hx
  obtain ⟨y, hy, hyx⟩ := List.mem_filterMap.mp hx
  obtain ⟨it, hit, hity⟩ := List.mem_filterMap.mp hy
  obtain ⟨i, hi, halgo, hvalid⟩ := hk it hit
  rw [resolveReturn_item hity hi] at hyx
  obtain rfl := Option.some.inj hyx
  refine ⟨⟨by simp [halgo], hvalid, rfl, hc it hit i hi⟩, it, hit, key_of_fixed halgo, rfl⟩

/-- What one settlement does to a quota's counter. -/
theorem used_settle (hk : t.Known env cfg) (m : Mem) (c : SettleCall) (hlive : ¬ t.exp < c.clock / 1000)
    (hc : t.Current env cfg c.now) (hw : ∀ it ∈ t.items, t.itemKey it = key → it.window = w) :
    ((m.settle env cfg c.rep c.clock c.now t c.actual).2).used key w =
      if m.deduped (retKey key (settleDedupe c.rep t)) = true then m.used key w
      else match (t.sent c.actual key).head? with
        | none => m.used key w
        | some d => m.used key w - min d (m.used key w) := by
  have hwin : ∀ x ∈ settleReturns env cfg t c.actual, x.Windowed c.now := fun x hx => (settleReturns_windowed hk hc hx).1
  have hone : ∀ x ∈ settleReturns env cfg t c.actual, x.key = key → x.windowID = w := by
    intro x hx hkey
    obtain ⟨-, it, hit, hik, hiw⟩ := settleReturns_windowed hk hc hx
    rw [hiw]
    exact hw it hit (hik ▸ hkey)
  rw [Mem.settle_snd hlive, used_ret (settleDedupe_ne_empty c.rep t) _ hwin hone, ← find_settleReturns hk]
  cases (settleReturns env cfg t c.actual).find? fun x => x.key = key <;> rfl

/-- The sum of what is sent is that of what is returned. -/
theorem sum_sent (t : ReservationToken) (actual : ℤ) (key : String) : (t.sent actual key).sum = (t.deltas actual key).sum := by
  unfold ReservationToken.sent
  generalize t.deltas actual key = ds
  induction ds with
  | nil => rfl
  | cons d ds ih =>
    simp only [ne_eq, decide_not] at ih
    by_cases hd : d = 0 <;> simp [hd, ih]

theorem firstIsAll_iff {u : ℤ} (hu : 0 ≤ u) (ds : List ℤ) :
    (match ds.head? with
      | none => u
      | some d => u - min d u) = max 0 (u - ds.sum) ↔ FirstIsAll u ds := by
  cases ds with
  | nil => simp [FirstIsAll, hu]
  | cons d ds =>
    simp only [List.head?_cons, List.sum_cons, FirstIsAll]
    omega

theorem idle_iff {s : Mem} {u : ℤ} (hu : 0 ≤ u) (c : SettleCall) :
    (if s.deduped (retKey key (settleDedupe c.rep t)) = true then u
      else match (t.sent c.actual key).head? with
        | none => u
        | some d => u - min d u) = u ↔ Idle t key s u c := by
  unfold Idle
  by_cases hm : s.deduped (retKey key (settleDedupe c.rep t)) = true
  · simp [hm]
  · have hne : ∀ d ∈ t.sent c.actual key, d ≠ 0 := by
      intro d hd
      simpa using (List.mem_filter.mp hd).2
    cases hs : t.sent c.actual key with
    | nil => simp [hm]
    | cons d ds =>
      have hd := hne d (hs ▸ List.mem_cons_self)
      simp only [hm, Bool.false_eq_true, if_false, List.head?_cons, reduceCtorEq, false_or, Option.mem_def, Option.some.injEq,
        exists_eq_left']
      omega

/-- The counter of a quota after the settlements of a token: it is what the first of them returns,
exactly when that sends the quota's items as one, and all others are idle. -/
theorem settled_exactly_once_iff {env : HubEnv} {cfg : GatewayConfig} {t : ReservationToken} (hk : t.Known env cfg) (m : Mem)
    (c : SettleCall) (cs : List SettleCall) {key : String} {w : ℤ} (hlive : ∀ x ∈ c :: cs, ¬ t.exp < x.clock / 1000)
    (hcur : ∀ x ∈ c :: cs, t.Current env cfg x.now) (hw : ∀ it ∈ t.items, t.itemKey it = key → it.window = w)
    (hused : 0 ≤ m.used key w) (hnew : m.deduped (retKey key (settleDedupe c.rep t)) = false) :
    (∀ n, (m.settleAll env cfg t (c :: cs.take n)).used key w = max 0 (m.used key w - (t.deltas c.actual key).sum)) ↔
      FirstIsAll (m.used key w) (t.sent c.actual key) ∧
        ∀ n x, cs[n]? = some x → Idle t key (m.settleAll env cfg t (c :: cs.take n))
          (max 0 (m.used key w - (t.deltas c.actual key).sum)) x := by
  have hfirst : (m.settleAll env cfg t [c]).used key w = max 0 (m.used key w - (t.deltas c.actual key).sum) ↔
      FirstIsAll (m.used key w) (t.sent c.actual key) := by
    rw [← firstIsAll_iff hused, sum_sent]
    unfold Mem.settleAll
    rw [List.foldl_cons, List.foldl_nil, used_settle hk m c (hlive c List.mem_cons_self) (hcur c List.mem_cons_self) hw, hnew]
    simp
  have hnext : ∀ n x, cs[n]? = some x →
      (m.settleAll env cfg t (c :: cs.take n)).used key w = max 0 (m.used key w - (t.deltas c.actual key).sum) →
      ((m.settleAll env cfg t (c :: cs.take (n + 1))).used key w = max 0 (m.used key w - (t.deltas c.actual key).sum) ↔
        Idle t key (m.settleAll env cfg t (c :: cs.take n)) (max 0 (m.used key w - (t.deltas c.actual key).sum)) x) := by
    intro n x hx hn
    have hmem : x ∈ c :: cs := List.mem_cons_of_mem c (List.mem_of_getElem? hx)
    have htake : cs.take (n + 1) = cs.take n ++ [x] := by
      rw [List.take_add_one, hx]
      rfl
    have hsnoc : m.settleAll env cfg t (c :: cs.take (n + 1)) =
        ((m.settleAll env cfg t (c :: cs.take n)).settle env cfg x.rep x.clock x.now t x.actual).2 := by
      unfold Mem.settleAll
      rw [htake, ← List.cons_append, List.foldl_append]
      rfl
    rw [hsnoc, used_settle hk _ x (hlive x hmem) (hcur x hmem) hw, hn, idle_iff (le_max_left _ _)]
  constructor
  · intro h
    exact ⟨hfirst.mp (h 0), fun n x hx => (hnext n x hx (h n)).mp (h (n + 1))⟩
  · rintro ⟨hall, hidle⟩ n
    induction n with
    | zero => exact hfirst.mpr hall
    | succ n ih =>
      cases hx : cs[n]? with
      | some x => exact (hnext n x hx ih).mpr (hidle n x hx)
      | none =>
        have hlen : cs.length ≤ n := List.getElem?_eq_none_iff.mp hx
        rw [List.take_of_length_le (hlen.trans n.le_succ)]
        rwa [List.take_of_length_le hlen] at ih

end Decide

namespace Sample

/-- Ten of the minute are in use. -/
def tenOfMinute : Mem := Mem.new.setVal (winKey (fiveReserved.itemKey ⟨"minute", "vu1", 0, 5⟩) 0) 10

/-- A token for five of the minute. -/
def fiveOfMinute : ReservationToken := { fiveReserved with items := [⟨"minute", "vu1", 0, 5⟩] }

def minuteKey : String := fiveOfMinute.itemKey ⟨"minute", "vu1", 0, 5⟩

def settleAt (edgeID : String) (actual now : ℤ) : SettleCall := ⟨⟨"", edgeID⟩, actual, now, now⟩

end Sample

open Sample

/-- Two replicas settle a token with the same cost, and its tokens are returned twice. -/
theorem replicas_settle_twice :
    Config.Accepted Config.plainLibrary burstAndMinute ∧ (fiveOfMinute.deltas 1 minuteKey).sum = 4 ∧
      (tenOfMinute.settleAll env shopConfig fiveOfMinute [settleAt "d1" 1 100]).used minuteKey 0 = 6 ∧
      (tenOfMinute.settleAll env shopConfig fiveOfMinute [settleAt "d1" 1 100, settleAt "d2" 1 200]).used minuteKey 0 = 2 := by
  refine ⟨by decide +kernel, by decide +kernel, by decide +kernel, by decide +kernel⟩

theorem fiveOfMinute_resolve {it : ReservationItem} (h : it ∈ fiveOfMinute.items) :
    Gate.resolve env shopConfig scope fiveOfMinute.domain it.subject it.limit "" "" =
      .ok ⟨⟨scope, "shop", "minute", "vu1", ""⟩, ⟨.unset, 100, 60 * second, 0⟩,
        { noArgs with horizon := defaultLeaseHorizon, minGrant := defaultLeaseMin }⟩ := by
  obtain rfl := List.mem_singleton.mp h
  with_unfolding_all rfl

/-- A replica settles a token twice, with different costs, and another has nothing to return. -/
theorem settled_exactly_once_d1 :
    (tenOfMinute.settleAll env shopConfig fiveOfMinute [settleAt "d1" 1 100]).used minuteKey 0 = 6 ∧
      (tenOfMinute.settleAll env shopConfig fiveOfMinute [settleAt "d1" 1 100, settleAt "d1" 3 200]).used minuteKey 0 = 6 ∧
      (tenOfMinute.settleAll env shopConfig fiveOfMinute
        [settleAt "d1" 1 100, settleAt "d1" 3 200, settleAt "d2" 5 300]).used minuteKey 0 = 6 := by
  have hk : fiveOfMinute.Known env shopConfig := fun it hit => ⟨_, fiveOfMinute_resolve hit, rfl, by decide +kernel⟩
  have hcur : ∀ x ∈ settleAt "d1" 1 100 :: [settleAt "d1" 3 200, settleAt "d2" 5 300], fiveOfMinute.Current env shopConfig x.now := by
    intro x hx it hit i hi
    rw [fiveOfMinute_resolve hit] at hi
    obtain rfl := Except.ok.inj hi
    obtain rfl := List.mem_singleton.mp hit
    revert x
    decide +kernel
  have hidle : ∀ n x, [settleAt "d1" 3 200, settleAt "d2" 5 300][n]? = some x → Idle fiveOfMinute minuteKey
      (tenOfMinute.settleAll env shopConfig fiveOfMinute (settleAt "d1" 1 100 :: [settleAt "d1" 3 200, settleAt "d2" 5 300].take n))
      6 x := by
    intro n x hx
    match n with
    | 0 =>
      obtain rfl := Option.some.inj hx
      decide +kernel
    | 1 =>
      obtain rfl := Option.some.inj hx
      decide +kernel
    | n + 2 => simp at hx
  have hused : ∀ n, (tenOfMinute.settleAll env shopConfig fiveOfMinute
      (settleAt "d1" 1 100 :: [settleAt "d1" 3 200, settleAt "d2" 5 300].take n)).used minuteKey 0 = 6 :=
    (settled_exactly_once_iff hk tenOfMinute (settleAt "d1" 1 100) [settleAt "d1" 3 200, settleAt "d2" 5 300]
      (by decide) hcur (by decide) (by decide +kernel) (by decide +kernel)).mpr ⟨by decide +kernel, hidle⟩
  exact ⟨hused 0, hused 1, hused 2⟩

end Gate
