import Gate.Lib.Gcra
import Gate.Sanity.Ledger
import Gate.Spec.Calls

/-! What any sequence of grants adds up to: in a window and in an interval for a sliding window, in
an interval for a token bucket. Grants on other quotas may come in between. -/

namespace Gate

open Tally

variable {m : Mem} {ref : Ref} {spec : Spec} {c : LedgerCall} {cs : List LedgerCall}

theorem grantLog_append (key : String) (m : Mem) (cs ds : List LedgerCall) :
    grantLog key m (cs ++ ds) = grantLog key m cs ++ grantLog key (m.after cs) ds := by
  induction cs generalizing m with
  | nil => rfl
  | cons c cs ih => exact congrArg _ (ih _)

theorem grantLog_snoc (key : String) (m : Mem) (cs : List LedgerCall) (c : LedgerCall) :
    grantLog key m (cs ++ [c]) = grantLog key m cs ++ [(c.now, c.tokens key ((m.after cs).exec c).1)] :=
  grantLog_append key m cs [c]

theorem after_snoc (m : Mem) (cs : List LedgerCall) (c : LedgerCall) :
    m.after (cs ++ [c]) = ((m.after cs).exec c).2 := by
  simp [Mem.after]

theorem times_grantLog (key : String) (m : Mem) (cs : List LedgerCall) :
    (grantLog key m cs).map Prod.fst = cs.map LedgerCall.now := by
  induction cs generalizing m with
  | nil => rfl
  | cons c cs ih => exact congrArg _ (ih _)

theorem grantLog_inOrder (key : String) (m : Mem) (h : InOrder cs) :
    (grantLog key m cs).Pairwise fun x y => x.1 ≤ y.1 := by
  have : (cs.map LedgerCall.now).Pairwise (· ≤ ·) := List.pairwise_map.mpr h
  rw [← times_grantLog key m] at this
  exact List.pairwise_map.mp this

/-- A call on the ledger that only grants: on the quota's key, or on another one. -/
inductive GrantStep (key : String) (spec : Spec) (m : Mem) (now : ℤ) : ℤ → Mem → Prop where
  | refused : GrantStep key spec m now 0 m
  | own {ref : Ref} {args : GrantArgs} {inp : GrantInput} {g : Grant} {m' : Mem} (prepared : Prepared ref spec args inp)
    (granted : Granted m now inp g m') (hkey : inp.key = key) : GrantStep key spec m now g.granted m'
  | other {ref : Ref} {spec' : Spec} {args : GrantArgs} {inp : GrantInput} {g : Grant} {m' : Mem}
    (prepared : Prepared ref spec' args inp) (granted : Granted m now inp g m') (hkey : inp.key ≠ key) :
    GrantStep key spec m now 0 m'

theorem LedgerCall.GrantsOn.step (h : c.GrantsOn ref spec) (m : Mem) :
    GrantStep (ref.key spec.algo) spec m c.now (c.tokens (ref.key spec.algo) (m.exec c).1) (m.exec c).2 := by
  obtain ⟨ord, ref', spec', args, hop, hspec⟩ := h
  obtain ⟨now, op⟩ := c
  obtain rfl : op = _ := hop
  cases hp : prepare ref' spec' args with
  | error e =>
    have hexec : m.exec ⟨now, .grant ord ref' spec' args⟩ = (.granted (.error e), m) := by
      simp only [Mem.exec, Mem.grant, hp]
    rw [hexec]
    exact .refused
  | ok inp =>
    have hpre := prepare_prepared hp
    have hg := grantOn_granted m ord now inp hpre.target
    have hexec : m.exec ⟨now, .grant ord ref' spec' args⟩ =
        (.granted (.ok (m.grantOn ord now inp).1), (m.grantOn ord now inp).2) := by
      simp only [Mem.exec, Mem.grant, hp]
    rw [hexec]
    by_cases hk : ref'.key spec'.algo = ref.key spec.algo
    · obtain rfl := hspec hk
      simp only [LedgerCall.tokens, if_pos hk]
      exact .own hpre hg (hpre.key.trans hk)
    · simp only [LedgerCall.tokens, if_neg hk]
      exact .other hpre hg fun he => hk (hpre.key.symm.trans he)

/-! ### Sliding windows -/

section Sliding

variable {n now : ℤ} {m' : Mem}

theorem valid_of_sliding (halgo : spec.algo.or = .slidingWindow) : spec.algo.valid = true := by
  cases h : spec.algo with
  | other name =>
    rw [h] at halgo
    cases halgo
  | _ => rfl

theorem Prepared.parentKey_ne {r : Ref} {s : Spec} {args : GrantArgs} {inp : GrantInput} (h : Prepared r s args inp)
    (halgo : spec.algo.or = .slidingWindow) : inp.parentKey ≠ ref.key spec.algo := by
  rcases h.parentKey with h | h
  · rw [h]
    exact (snoc_colon_ne_empty _ _).symm
  · rw [h]
    exact parentKey_ne_key (valid_of_sliding halgo) (by rw [halgo]; decide)

/-- A grant is added to the window it is made in, and to no other of the quota. -/
theorem GrantStep.used (halgo : spec.algo.or = .slidingWindow) (h : GrantStep (ref.key spec.algo) spec m now n m')
    (v : ℤ) : m'.used (ref.key spec.algo) v =
      m.used (ref.key spec.algo) v + if v = now.tdiv (windowMs spec) then n else 0 := by
  cases h with
  | refused => rw [ite_self, add_zero]
  | @own r args inp g m' hpre hg hkey =>
    have hwindow : inp.algo ≠ .tokenBucket := by
      rw [hpre.algo, halgo]
      decide
    have hwid : g.windowID = now.tdiv (windowMs spec) := by
      rw [hg.wid, measure_window hwindow, ← hpre.win]
      rfl
    have hused := hg.used_own hwindow (fun _ => hkey ▸ hpre.parentKey_ne halgo) v
    rwa [hkey, hwid] at hused
  | other hpre hg hkey =>
    rw [ite_self, add_zero]
    refine hg.used_apart hkey (fun hb w => ?_) (hpre.parentKey_ne halgo) v
    rw [hpre.key]
    exact bucketKey_ne_winKey (hpre.algo ▸ hb) _ _

/-- Only fixed windows are regional. -/
theorem Prepared.not_regional {r : Ref} {args : GrantArgs} {inp : GrantInput} (h : Prepared r spec args inp)
    (halgo : spec.algo.or ≠ .fixedWindow) : ¬ 0 ≤ inp.allocBase := by
  rw [h.allocBase, if_neg fun hr => halgo (h.regional hr)]
  decide

/-- What a sliding window has left. -/
theorem sliding_avail {r : Ref} {args : GrantArgs} {inp : GrantInput} (hpre : Prepared r spec args inp)
    (halgo : spec.algo.or = .slidingWindow) (m : Mem) (now : ℤ) :
    (m.measure inp now).avail = spec.limit - (m.used inp.key (now.tdiv (windowMs spec)) +
      ⌈(m.used inp.key (now.tdiv (windowMs spec) - 1) : ℚ) * weight (windowMs spec) now⌉) := by
  have hsliding : inp.algo = .slidingWindow := by rw [hpre.algo, halgo]
  have hbase := hpre.not_regional (by rw [halgo]; decide)
  rw [measure_window (by rw [hsliding]; decide)]
  simp only [Mem.measureWindow, hsliding, if_true, if_neg hbase, hpre.limit, hpre.win, Mem.used, weight]

/-- A grant fits the window together with what still weighs on it of the window before. -/
theorem GrantStep.fits (halgo : spec.algo.or = .slidingWindow) (h : GrantStep (ref.key spec.algo) spec m now n m') :
    0 ≤ n ∧ (n ≠ 0 → (m.used (ref.key spec.algo) (now.tdiv (windowMs spec)) + n : ℚ) +
      m.used (ref.key spec.algo) (now.tdiv (windowMs spec) - 1) * weight (windowMs spec) now ≤ spec.limit) := by
  cases h with
  | refused => exact ⟨le_rfl, fun h0 => absurd rfl h0⟩
  | other => exact ⟨le_rfl, fun h0 => absurd rfl h0⟩
  | @own r args inp g m' hpre hg hkey =>
    refine ⟨hg.nonneg, fun h0 => ?_⟩
    have hle := hg.le_avail h0
    rw [sliding_avail hpre halgo, hkey] at hle
    have hceil := Int.le_ceil ((m.used (ref.key spec.algo) (now.tdiv (windowMs spec) - 1) : ℚ) *
      weight (windowMs spec) now)
    have hle' : (g.granted : ℚ) ≤ (spec.limit - (m.used (ref.key spec.algo) (now.tdiv (windowMs spec)) +
      ⌈(m.used (ref.key spec.algo) (now.tdiv (windowMs spec) - 1) : ℚ) * weight (windowMs spec) now⌉) : ℤ) := by
      exact_mod_cast hle
    push_cast at hle'
    linarith

/-- The counters of the quota are its log. -/
structure Counted (ref : Ref) (spec : Spec) (m : Mem) (log : List (ℤ × ℤ)) : Prop where
  used : ∀ v, m.used (ref.key spec.algo) v = inWindow (windowMs spec) v log
  smooth : Smooth spec.limit (windowMs spec) log

theorem counted_run (halgo : spec.algo.or = .slidingWindow) (hcs : ∀ c ∈ cs, c.GrantsOn ref spec) :
    Counted ref spec (Mem.new.after cs) (grantLog (ref.key spec.algo) .new cs) := by
  induction cs using List.reverseRecOn with
  | nil => exact ⟨fun _ => rfl, smooth_nil⟩
  | append_singleton cs c ih =>
    obtain ⟨hused, hsmooth⟩ := ih fun d hd => hcs d (List.mem_append_left _ hd)
    have hstep := (hcs c (List.mem_append_right _ (List.mem_singleton_self c))).step (Mem.new.after cs)
    rw [grantLog_snoc, after_snoc]
    refine ⟨fun v => ?_, hsmooth.snoc ?_⟩
    · rw [hstep.used halgo, hused, inWindow, inWindow, total_append, total_cons, total_nil, add_zero]
      simp only [eq_comm]
    · have hfits := hstep.fits halgo
      rw [hused, hused] at hfits
      exact hfits

/-- Any grants on a sliding window, at times that do not decrease: at most the limit in one window,
and at most the limit and the fraction of it that the interval covers in an interval of at most a
window. -/
theorem sliding_smoothing (ref : Ref) (spec : Spec) (halgo : spec.algo.or = .slidingWindow) (hlimit : 0 ≤ spec.limit)
    (cs : List LedgerCall) (hcs : ∀ c ∈ cs, c.GrantsOn ref spec) (horder : InOrder cs) :
    (∀ k, total (fun t => t.tdiv (windowMs spec) = k) (grantLog (ref.key spec.algo) .new cs) ≤ spec.limit) ∧
      ∀ a d : ℚ, 0 ≤ d → d ≤ windowMs spec →
        (total (fun t : ℤ => a ≤ t ∧ (t : ℚ) ≤ a + d) (grantLog (ref.key spec.algo) .new cs) : ℚ) ≤
          spec.limit + spec.limit * d / windowMs spec := by
  have hsmooth := (counted_run halgo hcs).smooth
  have hw := windowMs_pos spec
  refine ⟨hsmooth.inWindow_le hw hlimit, fun a d hd hdw => ?_⟩
  exact hsmooth.interval_le hw hlimit (grantLog_inOrder _ _ horder) hd hdw

end Sliding

/-- A request for `n` tokens by one edge. -/
def askFor (n : ℤ) : GrantArgs where
  requested := n
  edgeID := ""
  horizon := 0
  observedRate := 0
  minGrant := 0
  maxGrant := 0
  parent := none
  regional := false
  allocBase := 0

def anyOrder : RangeOrder := ⟨id, perm_in_place⟩

def oneKey : Ref := ⟨"v1", "orders", "", "key", ""⟩

/-- Requests for ten tokens at the given times. -/
def tens (spec : Spec) (times : List ℤ) : List LedgerCall := times.map fun t => ⟨t, .grant anyOrder oneKey spec (askFor 10)⟩

theorem tens_grantsOn (spec : Spec) (times : List ℤ) : ∀ c ∈ tens spec times, c.GrantsOn oneKey spec := by
  intro c hc
  obtain ⟨t, -, rfl⟩ := List.mem_map.mp hc
  exact ⟨_, _, _, _, rfl, fun _ => rfl⟩

def tenASecond : Spec := ⟨.slidingWindow, 10, second, 0⟩

/-- Ten tokens late in one window, and half as many again half-way through the next. -/
theorem sliding_smoothing_tens :
    grantLog (oneKey.key .slidingWindow) .new (tens tenASecond [900, 1500]) = [(900, 10), (1500, 5)] ∧
      (total (fun t : ℤ => (900 : ℚ) ≤ t ∧ (t : ℚ) ≤ 900 + 600) (grantLog (oneKey.key .slidingWindow) .new
        (tens tenASecond [900, 1500])) : ℚ) ≤ 10 + 10 * 600 / 1000 := by
  have hwin : windowMs tenASecond = 1000 := by decide
  have h := (sliding_smoothing oneKey tenASecond rfl (by decide) (tens tenASecond [900, 1500])
    (tens_grantsOn _ _) (by decide)).2 900 600 (by norm_num) (by rw [hwin]; norm_num)
  rw [hwin] at h
  exact ⟨by decide +kernel, h⟩

/-! ### Token buckets -/

section Bucket

variable {n now s e sum : ℤ} {m' : Mem}

theorem GrantStep.paces (halgo : spec.algo.or = .tokenBucket) (h : GrantStep (ref.key spec.algo) spec m now n m')
    (hp : m.Paces (ref.key spec.algo) spec s e sum) :
    (s ≤ now → now ≤ e → m'.Paces (ref.key spec.algo) spec s e (sum + n)) ∧ m'.Paces (ref.key spec.algo) spec s e sum := by
  cases h with
  | refused =>
    rw [add_zero]
    exact ⟨fun _ _ => hp, hp⟩
  | own hpre hg hkey =>
    rw [← hkey] at hp ⊢
    exact hp.grant hpre hg halgo
  | other hpre hg hkey =>
    rw [add_zero]
    unfold Mem.Paces at hp ⊢
    rw [hg.vals_apart (Ne.symm hkey) (fun v => bucketKey_ne_winKey halgo _ _) fun v => bucketKey_ne_winKey halgo _ _]
    exact ⟨fun _ _ => hp, hp⟩

theorem paces_run (halgo : spec.algo.or = .tokenBucket) (hcs : ∀ c ∈ cs, c.GrantsOn ref spec) (s e : ℤ) :
    (Mem.new.after cs).Paces (ref.key spec.algo) spec s e
      (total (fun t => s ≤ t ∧ t ≤ e) (grantLog (ref.key spec.algo) .new cs)) := by
  induction cs using List.reverseRecOn with
  | nil => exact .inl rfl
  | append_singleton cs c ih =>
    have hp := ih fun d hd => hcs d (List.mem_append_left _ hd)
    have hstep := (hcs c (List.mem_append_right _ (List.mem_singleton_self c))).step (Mem.new.after cs)
    obtain ⟨hin, hout⟩ := hstep.paces halgo hp
    rw [grantLog_snoc, after_snoc, total_append, total_cons, total_nil, add_zero]
    by_cases hc : s ≤ c.now ∧ c.now ≤ e
    · rw [if_pos hc]
      exact hin hc.1 hc.2
    · rw [if_neg hc, add_zero]
      exact hout

/-- Any grants on a token bucket: between two times at most the burst and what the time drains. The
arrival time only moves on, so this does not even need the clock to. -/
theorem grants_paced (ref : Ref) (spec : Spec) (halgo : spec.algo.or = .tokenBucket) (hlimit : 0 ≤ spec.limit)
    (hrate : 0 < spec.rate) (cs : List LedgerCall) (hcs : ∀ c ∈ cs, c.GrantsOn ref spec) (s e : ℤ)
    (hse : s ≤ e) :
    (total (fun t => s ≤ t ∧ t ≤ e) (grantLog (ref.key spec.algo) .new cs) : ℚ) ≤
      spec.limit + spec.rate * (e - s) / 1000 := by
  rcases paces_run halgo hcs s e with h | ⟨tat, -, h⟩
  · rw [h, Int.cast_zero]
    have h₁ : (0 : ℚ) ≤ spec.limit := by exact_mod_cast hlimit
    have h₂ : (0 : ℚ) ≤ e - s := by exact_mod_cast sub_nonneg.mpr hse
    positivity
  · exact h.le hrate

end Bucket

/-- Ten at once and three a second, which no whole number of milliseconds drains. -/
def burstOfTen : Spec := ⟨.tokenBucket, 10, 0, 3⟩

theorem grants_paced_tens :
    grantLog (oneKey.key .tokenBucket) .new (tens burstOfTen [0, 1000]) = [(0, 10), (1000, 2)] ∧
      (total (fun t => 0 ≤ t ∧ t ≤ 1000) (grantLog (oneKey.key .tokenBucket) .new (tens burstOfTen [0, 1000])) : ℚ) ≤
        10 + 3 * ((1000 : ℤ) - (0 : ℤ)) / 1000 := by
  have h := grants_paced oneKey burstOfTen rfl (by decide) (by norm_num [burstOfTen]) (tens burstOfTen [0, 1000])
    (tens_grantsOn _ _) 0 1000 (by decide)
  exact ⟨by decide +kernel, h⟩

end Gate
