import Gate.Proofs.GrantBounds
import Gate.Sanity.Quota
import Gate.Sanity.Regions

/-! What the retry hint of a grant without tokens is worth. Nothing comes before the hint of a bucket,
and at the hint a bucket or a sliding window has a token again. Whether it is granted is up to the
enclosing quota alone. -/

namespace Gate

open Tally (weight)

variable {m m₁ m₂ : Mem} {now t : ℤ} {inp : GrantInput}

/-- The enclosing quota, if there is one, has something left. -/
def Mem.Room (m : Mem) (inp : GrantInput) (now : ℤ) : Prop :=
  inp.parentKey = "" ∨ m.used inp.parentKey (now.tdiv inp.pwin) < inp.plimit

theorem nest_avail_pos (ms : Measure) : 0 < (m.nest inp ms now).avail ↔ 0 < ms.avail ∧ m.Room inp now := by
  unfold Mem.nest Mem.Room
  by_cases hp : inp.parentKey = ""
  · rw [if_pos hp]
    simp only [hp, true_or, and_true]
  · rw [if_neg hp]
    simp only [hp, false_or, Mem.used]
    split <;> omega

theorem granted_pos_iff (ord : RangeOrder) (ht : 0 < inp.target) :
    0 < (m.grantOn ord now inp).1.granted ↔ 0 < (m.measure inp now).avail ∧ m.Room inp now := by
  rw [← nest_avail_pos]
  unfold Mem.grantOn
  have hn := m.countEdges_nonneg ord inp (m.nest inp (m.measure inp now) now).avail now
  dsimp only
  split
  · rename_i ha
    exact iff_of_false (lt_irrefl 0) (not_lt.mpr ha)
  · rename_i ha
    have hpos := lt_of_not_ge ha
    exact iff_of_true (grantSize_pos hpos hn ht) hpos

/-- The hint of a grant without tokens. -/
theorem retryAfter_of_zero (ord : RangeOrder) (ht : 0 < inp.target) (hz : (m.grantOn ord now inp).1.granted = 0) :
    milliseconds (m.grantOn ord now inp).1.retryAfter =
      retryMs inp (m.measure inp now) (m.nest inp (m.measure inp now) now) now := by
  have ha : (m.nest inp (m.measure inp now) now).avail ≤ 0 := by
    rw [← not_lt, nest_avail_pos, ← granted_pos_iff ord ht, hz]
    exact lt_irrefl 0
  unfold Mem.grantOn
  dsimp only
  rw [if_pos ha]
  exact milliseconds_mul _

/-- Without tokens, and not because of the enclosing quota. -/
theorem avail_of_zero (ord : RangeOrder) (ht : 0 < inp.target) (hz : (m.grantOn ord now inp).1.granted = 0)
    (hb : (m.nest inp (m.measure inp now) now).parentBinds = false) : (m.measure inp now).avail ≤ 0 := by
  have ha : (m.nest inp (m.measure inp now) now).avail ≤ 0 := by
    rw [← not_lt, nest_avail_pos, ← granted_pos_iff ord ht, hz]
    exact lt_irrefl 0
  unfold Mem.nest at ha hb
  split at ha
  · exact ha
  · rename_i hp
    rw [if_neg hp] at hb
    simp only [decide_eq_false_iff_not] at hb
    dsimp only at ha
    rwa [if_neg hb] at ha

/-! ### Buckets -/

section Bucket

variable {x : ℤ}

/-- When a bucket whose arrival time is `x` has a token. -/
theorem bucket_avail_pos (hr : 0 < inp.rate) (hx : m.vals inp.key = some x) :
    0 < (m.measureBucket inp now).avail ↔
      1000 / inp.rate ≤ now + inp.limit * (1000 / inp.rate) - max (x : ℚ) now := by
  have hT : (0 : ℚ) < 1000 / inp.rate := by positivity
  have hget : m.getInt inp.key now = x := by simp [Mem.getInt, hx]
  simp only [Mem.measureBucket, hget]
  rw [Int.floor_pos, le_div_iff₀ hT, one_mul]
  push_cast
  rfl

/-- An empty bucket has an arrival time ahead of the clock. -/
theorem bucket_empty (hr : 0 < inp.rate) (hl : 0 < inp.limit) (ha : (m.measureBucket inp now).avail ≤ 0) :
    ∃ x, m.vals inp.key = some x ∧ now < x := by
  have hT : (0 : ℚ) < 1000 / inp.rate := by positivity
  have hfull : (1000 / inp.rate) ≤ inp.limit * (1000 / inp.rate) := by
    have : (1 : ℚ) ≤ inp.limit := by exact_mod_cast hl
    nlinarith
  cases hx : m.vals inp.key with
  | none =>
    have hget : m.getInt inp.key now = now := by simp [Mem.getInt, hx]
    have hpos : 0 < (m.measureBucket inp now).avail := by
      simp only [Mem.measureBucket, hget, max_self]
      rw [Int.floor_pos, le_div_iff₀ hT, one_mul]
      linarith
    omega
  | some x =>
    refine ⟨x, rfl, ?_⟩
    by_contra hle
    have hmax : max (x : ℚ) now = now := max_eq_right (by exact_mod_cast not_lt.mp hle)
    have hpos := (bucket_avail_pos hr hx).mpr (by rw [hmax]; linarith)
    omega

end Bucket

/-! ### Sliding windows -/

section Sliding

variable {K : String} {win : ℤ}

/-- Nothing was granted yet in windows that have not begun. -/
def Mem.Ahead (m : Mem) (key : String) (win now : ℤ) : Prop := ∀ v, now.tdiv win < v → m.vals (winKey key v) = none

theorem Mem.Ahead.mono (h : m.Ahead K win now) (ht : now ≤ t) (hw : 0 < win) : m.Ahead K win t :=
  fun v hv => h v (lt_of_le_of_lt (Int.tdiv_le_tdiv hw ht) hv)

section Ahead

variable {ref : Ref} {spec : Spec} (halgo : spec.algo.or = .slidingWindow)
include halgo

theorem grant_ahead {r : Ref} {s : Spec} {args : GrantArgs} {g : Grant} (hpre : Prepared r s args inp)
    (hg : Granted m now inp g m₁) (hspec : r.key s.algo = ref.key spec.algo → s = spec)
    (h : m.Ahead (ref.key spec.algo) (windowMs spec) now) : m₁.Ahead (ref.key spec.algo) (windowMs spec) now := by
  intro v hv
  have hstem : Stem inp.key := hpre.key ▸ key_stem _ (Spec.validate_ok.mp hpre.valid).1
  rw [← h v hv]
  refine hg.vals_keep ?_ fun hpk => ?_
  · unfold Mem.measure
    split
    · exact (hstem.ne_snoc _ (word_int v)).symm
    · intro he
      obtain ⟨hk, rfl⟩ := winKey_inj' (he : winKey (ref.key spec.algo) v = winKey inp.key (now.tdiv inp.win))
      obtain rfl := hspec (hpre.key.symm.trans hk.symm)
      rw [hpre.win] at hv
      exact lt_irrefl _ hv
  · obtain ⟨v', hv'⟩ := (nest_pkey (m.measure inp now)).resolve_left hpk
    rw [hv']
    exact fun he => hpre.parentKey_ne halgo (winKey_inj' he).1.symm

theorem return_ahead {r : Ret} {dedupe : String} {inp : ReturnInput} (hpre : PreparedReturn r dedupe inp)
    (hspec : r.ref.key r.spec.algo = ref.key spec.algo → r.spec = spec)
    (h : m.Ahead (ref.key spec.algo) (windowMs spec) now) :
    (m.returnOne now inp).Ahead (ref.key spec.algo) (windowMs spec) now := by
  have happly : ∀ m' : Mem, m'.Ahead (ref.key spec.algo) (windowMs spec) now →
      (m'.applyReturn now inp).Ahead (ref.key spec.algo) (windowMs spec) now := by
    intro m' h' v hv
    have hstem : Stem inp.key := hpre.key ▸ key_stem _ (Spec.validate_ok.mp hpre.valid).1
    rw [← h' v hv]
    refine applyReturn_vals_keep m' now (fun _ => (hstem.ne_snoc _ (word_int v)).symm) (fun hcur he => ?_) fun hp he => ?_
    · obtain ⟨hk, rfl⟩ := winKey_inj' he
      have hs := hspec (hpre.key.symm.trans hk.symm)
      rw [← hcur, hpre.win, hs] at hv
      exact lt_irrefl _ hv
    · have hpk := (winKey_inj' he).1
      rcases hpre.parentKey with h0 | h0
      · exact hp h0
      · rw [h0] at hpk
        exact parentKey_ne_key (valid_of_sliding halgo) (by rw [halgo]; decide) hpk.symm
  unfold Mem.returnOne
  split
  · split
    · exact h
    · exact happly _ h
  · exact happly m h

theorem ret_ahead {dedupe : String} {rs : List Ret}
    (hspec : ∀ r ∈ rs, r.ref.key r.spec.algo = ref.key spec.algo → r.spec = spec)
    (h : m.Ahead (ref.key spec.algo) (windowMs spec) now) :
    (m.ret now dedupe rs).2.Ahead (ref.key spec.algo) (windowMs spec) now := by
  induction rs generalizing m with
  | nil => exact h
  | cons r rs ih =>
    unfold Mem.ret
    split
    · exact h
    · rename_i inp hp
      apply ih fun r' hr' => hspec r' (List.mem_cons_of_mem _ hr')
      exact return_ahead halgo (prepareReturn_prepared hp) (hspec r List.mem_cons_self) h

/-- Allocations and loans of fixed windows are no counters of a sliding one. -/
theorem alloc_ahead {key : String} (hk : Stem key) {wid n : ℤ} (h : m.Ahead (ref.key spec.algo) win now) :
    (m.addVal (allocKey key wid) n).Ahead (ref.key spec.algo) win now := by
  intro v hv
  rw [← h v hv]
  refine Mem.vals_addVal_of_ne m (fun he => ?_) n
  exact Entry.noConfusion
    (Entry.key_inj (key_stem ref (valid_of_sliding halgo)) hk (.window v) (.alloc wid) trivial trivial he).2

theorem loan_ahead {key id : String} (hk : Stem key) (hid : Word id) {n : ℤ} (h : m.Ahead (ref.key spec.algo) win now) :
    (m.setVal (lendKey key id) n).Ahead (ref.key spec.algo) win now := by
  intro v hv
  rw [← h v hv]
  refine Function.update_of_ne (fun he => ?_) _ _
  exact Entry.noConfusion
    (Entry.key_inj (key_stem ref (valid_of_sliding halgo)) hk (.window v) (.lend id) trivial hid he).2

theorem exec_ahead {c : LedgerCall} (hc : c.KeepsSpec ref spec) (h : m.Ahead (ref.key spec.algo) (windowMs spec) c.now) :
    (m.exec c).2.Ahead (ref.key spec.algo) (windowMs spec) c.now := by
  obtain ⟨now, op⟩ := c
  cases op with
  | grant ord r s args =>
    simp only [Mem.exec, Mem.grant]
    cases hp : prepare r s args with
    | error e => exact h
    | ok inp =>
      have hpre := prepare_prepared hp
      exact grant_ahead halgo hpre (grantOn_granted m ord now inp hpre.target) hc h
  | ret dedupe rs => exact ret_ahead halgo hc h
  | lend r s base wid want margin id =>
    simp only [Mem.exec, Mem.lend]
    split
    · exact h
    · rename_i hf
      have hstem := key_stem r (valid_of_fixed (not_not.mp hf))
      split
      · exact h
      · split
        · exact h
        · exact loan_ahead halgo hstem hc (alloc_ahead halgo hstem h)
  | credit r s wid amount id =>
    simp only [Mem.exec, Mem.creditAlloc]
    split
    · exact h
    · rename_i hf
      have hstem := key_stem r (valid_of_fixed (not_not.mp hf))
      split
      · exact h
      · split
        · exact h
        · exact alloc_ahead halgo hstem (fun v hv => h v hv)

theorem ahead_run {cs : List LedgerCall} (hcs : ∀ c ∈ cs, c.KeepsSpec ref spec) (horder : InOrder cs)
    (hnow : ∀ c ∈ cs, c.now ≤ now) : (Mem.new.after cs).Ahead (ref.key spec.algo) (windowMs spec) now := by
  induction cs using List.reverseRecOn generalizing now with
  | nil => exact fun _ _ => rfl
  | append_singleton cs c ih =>
    have hmem : c ∈ cs ++ [c] := List.mem_append_right _ (List.mem_singleton_self c)
    obtain ⟨horder', -, hlast⟩ := List.pairwise_append.mp horder
    have hbefore := ih (fun d hd => hcs d (List.mem_append_left _ hd)) horder'
      fun d hd => hlast d hd c (List.mem_singleton_self c)
    rw [after_snoc]
    exact (exec_ahead halgo (hcs c hmem) hbefore).mono (hnow c hmem) (windowMs_pos spec)

end Ahead

/-- The arithmetic of a sliding window's hint: `weight` is that of the previous window at the hint. -/
theorem sliding_hint {prev cur limit R : ℤ} {f weight : ℚ} (hw : 0 < win) (hprev : 0 < prev)
    (hR : ⌈((1 - ((limit - 1 - cur : ℤ) : ℚ) / prev) - f) * win⌉ ≤ R) (hweight : weight = 1 - (f + R / win)) :
    0 < limit - (cur + ⌈(prev : ℚ) * weight⌉) := by
  have hw' : (0 : ℚ) < win := by exact_mod_cast hw
  have hp' : (0 : ℚ) < prev := by exact_mod_cast hprev
  have hf : 1 - ((limit - 1 - cur : ℤ) : ℚ) / prev ≤ f + R / win := by
    rw [← sub_le_iff_le_add', le_div_iff₀ hw']
    exact Int.ceil_le.mp hR
  have hused : (prev : ℚ) * weight ≤ (limit - 1 - cur : ℤ) := by
    calc (prev : ℚ) * weight ≤ prev * (((limit - 1 - cur : ℤ) : ℚ) / prev) := by
          refine mul_le_mul_of_nonneg_left ?_ hp'.le
          linarith
      _ = (limit - 1 - cur : ℤ) := mul_div_cancel₀ _ hp'.ne'
  have := Int.ceil_le.mpr hused
  omega

/-- A moment of the window, and the first moment after it. -/
theorem tdiv_of_window {wid : ℤ} (hw : 0 < win) (h₁ : wid * win ≤ t) (h₂ : t < (wid + 1) * win) (h0 : 0 ≤ t) :
    t.tdiv win = wid := by
  rw [Int.tdiv_eq_ediv_of_nonneg h0]
  exact (Int.ediv_eq_iff_of_pos hw).mpr ⟨by linarith, by linarith⟩

end Sliding

/-! ### Hints -/

/-- The numbers of a quota are the same in both ledgers. -/
structure SameQuota (key : String) (m m' : Mem) : Prop where
  bucket : m'.vals key = m.vals key
  window : ∀ v, m'.vals (winKey key v) = m.vals (winKey key v)

theorem SameQuota.used {key : String} (h : SameQuota key m m₂) (v : ℤ) : m₂.used key v = m.used key v := by
  simp only [Mem.used, Mem.getInt, h.window]

theorem vals_of_zero (ord : RangeOrder) (ht : 0 < inp.target) (hz : (m.grantOn ord now inp).1.granted = 0) :
    (m.grantOn ord now inp).2.vals = m.vals := by
  have ha : (m.nest inp (m.measure inp now) now).avail ≤ 0 := by
    rw [← not_lt, nest_avail_pos, ← granted_pos_iff ord ht, hz]
    exact lt_irrefl 0
  unfold Mem.grantOn
  dsimp only
  rw [if_pos ha]
  exact m.vals_countEdges ord inp _ now

section

variable {ref : Ref} {spec : Spec} {args args' : GrantArgs} {inp' : GrantInput} {ord : RangeOrder}

theorem bucket_retry (halgo : spec.algo.or = .tokenBucket) (hpre : Prepared ref spec args inp)
    (hpre' : Prepared ref spec args' inp') (hz : (m.grantOn ord t inp).1.granted = 0)
    (hb : (m.nest inp (m.measure inp t) t).parentBinds = false) (hs : SameQuota (ref.key spec.algo) m m₂)
    {R : ℤ} (hR : R = milliseconds (m.grantOn ord t inp).1.retryAfter) :
    0 < (m₂.measure inp' (t + R)).avail ∧ ∀ t', t' < t + R → (m₂.measure inp' t').avail ≤ 0 := by
  obtain ⟨-, hlim, hrate⟩ := Spec.validate_ok.mp hpre.valid
  have hr : 0 < inp.rate := hpre.rate ▸ hrate halgo
  have ha : inp.algo = .tokenBucket := hpre.algo.trans halgo
  have ha' : inp'.algo = .tokenBucket := hpre'.algo.trans halgo
  have hmeasure (m : Mem) (t : ℤ) : m.measure inp t = m.measureBucket inp t := if_pos ha
  have hmeasure' (m : Mem) (t : ℤ) : m.measure inp' t = m.measureBucket inp' t := if_pos ha'
  have hempty := avail_of_zero ord hpre.target hz hb
  rw [hmeasure] at hempty
  obtain ⟨x, hx, hxt⟩ := bucket_empty hr (hpre.limit ▸ hlim) hempty
  have hx₂ : m₂.vals inp'.key = some x := by rw [hpre'.key, hs.bucket, ← hpre.key, hx]
  have hT : (0 : ℚ) < 1000 / spec.rate := by
    have := hrate halgo
    positivity
  have htau : 1000 / spec.rate ≤ spec.limit * (1000 / spec.rate) := by
    have : (1 : ℚ) ≤ spec.limit := by exact_mod_cast hlim
    nlinarith
  have hmax : max (x : ℚ) t = x := max_eq_left (by exact_mod_cast hxt.le)
  have hlt : (t : ℚ) + spec.limit * (1000 / spec.rate) - x < 1000 / spec.rate := by
    have := mt (bucket_avail_pos hr hx).mpr (not_lt.mpr hempty)
    rw [hmax, hpre.rate, hpre.limit] at this
    exact not_le.mp this
  have hhint : R = max ⌈(x : ℚ) + 1000 / spec.rate - spec.limit * (1000 / spec.rate) - t⌉ 1 := by
    rw [hR, retryAfter_of_zero ord hpre.target hz]
    have hget : m.getInt inp.key t = x := by simp [Mem.getInt, hx]
    have htat : max x t = x := max_eq_left hxt.le
    unfold retryMs
    rw [if_neg (by rw [hb]; decide), if_pos ha, hmeasure]
    simp only [Mem.measureBucket, hget, htat, hpre.rate, hpre.limit]
  obtain ⟨hat, hbefore⟩ := Gcra.hint htau hlt hhint
  have hr' : 0 < inp'.rate := hpre'.rate ▸ hrate halgo
  refine ⟨?_, fun t' ht' => ?_⟩
  · rw [hmeasure', bucket_avail_pos hr' hx₂, hpre'.rate, hpre'.limit]
    exact hat
  · rw [← not_lt, hmeasure', bucket_avail_pos hr' hx₂, hpre'.rate, hpre'.limit]
    exact not_le.mpr (hbefore t' ht')

theorem sliding_retry (halgo : spec.algo.or = .slidingWindow) (hpre : Prepared ref spec args inp)
    (hpre' : Prepared ref spec args' inp') (h0 : 0 ≤ t) (hz : (m.grantOn ord t inp).1.granted = 0)
    (hb : (m.nest inp (m.measure inp t) t).parentBinds = false)
    (hprev : 0 < m.used (ref.key spec.algo) (t.tdiv (windowMs spec) - 1))
    (hcur : m.used (ref.key spec.algo) (t.tdiv (windowMs spec)) < spec.limit)
    (hahead : m.Ahead (ref.key spec.algo) (windowMs spec) t) (hs : SameQuota (ref.key spec.algo) m m₂)
    {R : ℤ} (hR : R = milliseconds (m.grantOn ord t inp).1.retryAfter) : 0 < (m₂.measure inp' (t + R)).avail := by
  have hw := windowMs_pos spec
  have hw' : (0 : ℚ) < windowMs spec := by exact_mod_cast hw
  have hstart := Windows.start_le hw h0
  have hend := Windows.lt_end hw t
  have hsliding : inp.algo = .slidingWindow := by rw [hpre.algo, halgo]
  have hbase := hpre.not_regional (by rw [halgo]; decide)
  set wid := t.tdiv (windowMs spec) with hwid
  set prev := m.used (ref.key spec.algo) (wid - 1) with hprevdef
  set cur := m.used (ref.key spec.algo) wid with hcurdef
  have hhint : R = min (max ⌈((1 - ((spec.limit - 1 - cur : ℤ) : ℚ) / prev) -
      ((t - wid * windowMs spec : ℤ) : ℚ) / windowMs spec) * windowMs spec⌉ 10) ((wid + 1) * windowMs spec - t) := by
    rw [hR, retryAfter_of_zero ord hpre.target hz]
    unfold retryMs
    rw [if_neg (by rw [hb]; decide), if_neg (by rw [hsliding]; decide), measure_window (by rw [hsliding]; decide)]
    simp only [Mem.measureWindow, hsliding, if_true, if_neg hbase, hpre.limit, hpre.win, hpre.key, true_and]
    exact if_pos ⟨hprev, hcur⟩
  have hle : R ≤ (wid + 1) * windowMs spec - t := hhint ▸ min_le_right _ _
  have hpos : 0 < R := by
    rw [hhint]
    exact lt_min (lt_of_lt_of_le (by decide) (le_max_right _ _)) (by omega)
  rw [sliding_avail hpre' halgo, hpre'.key, hs.used, hs.used]
  rcases hle.eq_or_lt with heq | hlt
  · -- the next window begins: the counter that weighs is the current one, in full
    have hnext : t + R = (wid + 1) * windowMs spec := by omega
    have htdiv : (t + R).tdiv (windowMs spec) = wid + 1 := by
      rw [hnext]
      exact Int.mul_tdiv_cancel _ hw.ne'
    have hfresh : m.used (ref.key spec.algo) (wid + 1) = 0 := by
      simp [Mem.used, Mem.getInt, hahead (wid + 1) (by omega)]
    have hweight : weight (windowMs spec) (t + R) = 1 := by
      rw [weight, htdiv, hnext, sub_self, Int.cast_zero, zero_div, sub_zero]
    rw [htdiv, hfresh, hweight, add_sub_cancel_right, mul_one, Int.ceil_intCast, zero_add]
    omega
  · have htdiv : (t + R).tdiv (windowMs spec) = wid := tdiv_of_window hw (by omega) (by omega) (by omega)
    rw [htdiv]
    refine sliding_hint hw hprev (R := R) (f := ((t - wid * windowMs spec : ℤ) : ℚ) / windowMs spec) ?_ ?_
    · rcases min_choice (max ⌈((1 - ((spec.limit - 1 - cur : ℤ) : ℚ) / prev) -
        ((t - wid * windowMs spec : ℤ) : ℚ) / windowMs spec) * windowMs spec⌉ 10) ((wid + 1) * windowMs spec - t)
        with h | h
      · rw [hhint, h]
        exact le_max_left _ _
      · rw [h] at hhint
        omega
    · rw [weight, htdiv, ← add_div]
      push_cast
      ring

end

/-- A grant at `t` has no tokens, and not for want of the enclosing quota. Its hint is `R`, and until
then nothing happens to the quota. A bucket grants nothing before `t + R`; a bucket, and a sliding
window that the previous window alone has closed, grant at `t + R` exactly if the enclosing quota has
something left then. -/
theorem retry_hint_honest_iff (ref : Ref) (spec : Spec) (cs : List LedgerCall) (hcs : ∀ c ∈ cs, c.KeepsSpec ref spec)
    (horder : InOrder cs) (t : ℤ) (h0 : 0 ≤ t) (hnow : ∀ c ∈ cs, c.now ≤ t) (ord : RangeOrder) (args : GrantArgs)
    (inp : GrantInput) (hp : prepare ref spec args = .ok inp) (g : Grant) (m₁ m₂ : Mem)
    (hgrant : (Mem.new.after cs).grantOn ord t inp = (g, m₁)) (hz : g.granted = 0)
    (hb : ((Mem.new.after cs).nest inp ((Mem.new.after cs).measure inp t) t).parentBinds = false)
    (hs : SameQuota (ref.key spec.algo) m₁ m₂) (ord' : RangeOrder) (args' : GrantArgs) (inp' : GrantInput)
    (hp' : prepare ref spec args' = .ok inp') :
    (spec.algo.or = .tokenBucket →
      (((∀ t', t ≤ t' → t' ≤ t + milliseconds g.retryAfter - 1 → (m₂.grantOn ord' t' inp').1.granted = 0) ∧
          1 ≤ (m₂.grantOn ord' (t + milliseconds g.retryAfter) inp').1.granted) ↔
        m₂.Room inp' (t + milliseconds g.retryAfter))) ∧
      (spec.algo.or = .slidingWindow →
        0 < (Mem.new.after cs).used (ref.key spec.algo) (t.tdiv (windowMs spec) - 1) →
        (Mem.new.after cs).used (ref.key spec.algo) (t.tdiv (windowMs spec)) < spec.limit →
        (1 ≤ (m₂.grantOn ord' (t + milliseconds g.retryAfter) inp').1.granted ↔
          m₂.Room inp' (t + milliseconds g.retryAfter))) := by
  have hpre := prepare_prepared hp
  have hpre' := prepare_prepared hp'
  set m := Mem.new.after cs with hm
  have hz' : (m.grantOn ord t inp).1.granted = 0 := by rw [hgrant]; exact hz
  have hR : milliseconds g.retryAfter = milliseconds (m.grantOn ord t inp).1.retryAfter := by rw [hgrant]
  have hsame : SameQuota (ref.key spec.algo) m m₂ := by
    have hv : m₁.vals = m.vals := by
      have := vals_of_zero ord hpre.target hz'
      rwa [hgrant] at this
    exact ⟨hv ▸ hs.bucket, hv ▸ hs.window⟩
  have hgranted (t' : ℤ) : 1 ≤ (m₂.grantOn ord' t' inp').1.granted ↔
      0 < (m₂.measure inp' t').avail ∧ m₂.Room inp' t' := granted_pos_iff ord' hpre'.target
  refine ⟨fun ha => ?_, fun ha hprev hcur => ?_⟩
  · obtain ⟨hat, hbefore⟩ := bucket_retry ha hpre hpre' hz' hb hsame hR
    rw [hgranted, and_iff_right hat, and_iff_right]
    intro t' _ ht'
    have hnot : ¬ 1 ≤ (m₂.grantOn ord' t' inp').1.granted := by
      rw [hgranted]
      exact fun h => absurd h.1 (not_lt.mpr (hbefore t' (by omega)))
    have hnonneg := (grantOn_granted m₂ ord' t' inp' hpre'.target).nonneg
    omega
  · rw [hgranted, and_iff_right]
    exact sliding_retry ha hpre hpre' h0 hz' hb hprev hcur (ahead_run ha hcs horder hnow) hsame hR

/-! A bucket of one token, drained in one and a half milliseconds, inside an org's budget of one. -/

def oneToken : Spec := ⟨.tokenBucket, 1, 0, 2000 / 3⟩

def inOrg : Ref := { oneKey with parent := "acme" }

def askInOrg : GrantArgs := { askFor 1 with parent := some ⟨.fixedWindow, 1, second, 0⟩ }

/-- What the ledger is asked for. -/
def inOrgInput : GrantInput :=
  { prepareOwn inOrg oneToken askInOrg with parentKey := inOrg.parentKey .fixedWindow, plimit := 1, pwin := 1000 }

def afterOne (ref : Ref) (args : GrantArgs) : Mem := Mem.new.after [⟨0, .grant anyOrder ref oneToken args⟩]

/-- The org's budget is spent, but the bucket, rounded up to whole milliseconds, has even less: the
hint is the bucket's, and at the hint there is still nothing. -/
theorem hint_ignores_spent_org :
    prepare inOrg oneToken askInOrg = .ok inOrgInput ∧
      ((afterOne inOrg askInOrg).nest inOrgInput ((afterOne inOrg askInOrg).measure inOrgInput 0) 0).parentBinds = false ∧
      ((afterOne inOrg askInOrg).grantOn anyOrder 0 inOrgInput).1.granted = 0 ∧
      milliseconds ((afterOne inOrg askInOrg).grantOn anyOrder 0 inOrgInput).1.retryAfter = 2 ∧
      (((afterOne inOrg askInOrg).grantOn anyOrder 0 inOrgInput).2.grantOn anyOrder (0 + 2) inOrgInput).1.granted = 0 := by
  refine ⟨by decide +kernel, by decide +kernel, by decide +kernel, by decide +kernel, by decide +kernel⟩

/-- Without the org the hint is kept. -/
theorem hint_kept_alone :
    milliseconds ((afterOne oneKey (askFor 1)).grantOn anyOrder 0 (prepareOwn oneKey oneToken (askFor 1))).1.retryAfter = 2 ∧
      1 ≤ (((afterOne oneKey (askFor 1)).grantOn anyOrder 0 (prepareOwn oneKey oneToken (askFor 1))).2.grantOn anyOrder
        (0 + 2) (prepareOwn oneKey oneToken (askFor 1))).1.granted := by
  have hR : milliseconds
      ((afterOne oneKey (askFor 1)).grantOn anyOrder 0 (prepareOwn oneKey oneToken (askFor 1))).1.retryAfter = 2 := by
    decide +kernel
  have hprepare : prepare oneKey oneToken (askFor 1) = .ok (prepareOwn oneKey oneToken (askFor 1)) := by decide +kernel
  have hcalls : ∀ c ∈ [(⟨0, .grant anyOrder oneKey oneToken (askFor 1)⟩ : LedgerCall)],
      c.KeepsSpec oneKey oneToken ∧ c.now ≤ 0 := by
    intro c hc
    obtain rfl := List.mem_singleton.mp hc
    exact ⟨fun _ => rfl, le_rfl⟩
  have h := (retry_hint_honest_iff oneKey oneToken [⟨0, .grant anyOrder oneKey oneToken (askFor 1)⟩]
    (fun c hc => (hcalls c hc).1) (by decide) 0 le_rfl (fun c hc => (hcalls c hc).2) anyOrder (askFor 1) _ hprepare _ _ _
    Prod.mk.eta.symm (by decide +kernel) (by decide +kernel) ⟨rfl, fun _ => rfl⟩ anyOrder (askFor 1) _ hprepare).1 rfl
  refine ⟨hR, ?_⟩
  rw [← hR]
  exact (h.mpr (.inl rfl)).2

end Gate
