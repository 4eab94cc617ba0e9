import Gate.Lib.Gcra
import Gate.Lib.Tally
import Gate.Sanity.Keys
import Gate.Spec.Mem

/-! What the ledger's operations do, stated once for the proofs that follow: how a counter
reads after an update, what a grant answers and debits, what a return credits. -/

namespace Gate

theorem perm_in_place (l : List (String × ℤ)) : (id l).Perm l := .refl l

theorem Spec.validate_ok {s : Spec} : s.validate = .ok () ↔
    s.algo.valid = true ∧ 0 < s.limit ∧ (s.algo.or = .tokenBucket → 0 < s.rate) := by
  unfold Spec.validate
  by_cases h₁ : (!s.algo.valid || s.limit ≤ 0) = true
  · rw [if_pos h₁]
    simp only [Bool.or_eq_true, Bool.not_eq_true', decide_eq_true_eq] at h₁
    constructor
    · intro h
      cases h
    · rintro ⟨ha, hl, -⟩
      rcases h₁ with h₁ | h₁
      · rw [ha] at h₁
        cases h₁
      · omega
  · rw [if_neg h₁]
    simp only [Bool.or_eq_true, Bool.not_eq_true', decide_eq_true_eq, not_or, not_le,
      Bool.not_eq_false] at h₁
    split_ifs with h₂
    · constructor
      · intro h
        cases h
      · rintro ⟨-, -, hr⟩
        exact absurd (hr h₂.1) (not_lt.mpr h₂.2)
    · exact ⟨fun _ => ⟨h₁.1, h₁.2, fun ha => not_le.mp fun hr => h₂ ⟨ha, hr⟩⟩, fun _ => rfl⟩

theorem windowMs_pos (s : Spec) : 0 < windowMs s := by
  have h : second ≤ max s.window second := le_max_right _ _
  have hm : (0 : ℤ) ≤ max s.window second := le_trans (by decide) h
  rw [windowMs, milliseconds, Int.tdiv_eq_ediv_of_nonneg hm]
  simp only [second, millisecond] at h ⊢
  omega

namespace Mem

variable (m : Mem)

@[simp] theorem getInt_setVal (k k' : String) (v d : ℤ) :
    (m.setVal k v).getInt k' d = if k' = k then v else m.getInt k' d := by
  by_cases h : k' = k <;> simp [getInt, setVal, Function.update, h]

@[simp] theorem deduped_setVal (k : String) (v : ℤ) : (m.setVal k v).deduped = m.deduped := rfl

@[simp] theorem edges_setVal (k : String) (v : ℤ) : (m.setVal k v).edges = m.edges := rfl

@[simp] theorem getInt_addVal (k k' : String) (d : ℤ) :
    (m.addVal k d).getInt k' 0 = m.getInt k' 0 + if k' = k then d else 0 := by
  by_cases h : k' = k <;> simp [addVal, h]

theorem vals_addVal_of_ne {k k' : String} (h : k' ≠ k) (d : ℤ) : (m.addVal k d).vals k' = m.vals k' :=
  Function.update_of_ne h _ _

@[simp] theorem deduped_addVal (k : String) (d : ℤ) : (m.addVal k d).deduped = m.deduped := rfl

@[simp] theorem getInt_mark (k k' : String) (d : ℤ) : (m.mark k).getInt k' d = m.getInt k' d := rfl

@[simp] theorem deduped_mark (k k' : String) :
    (m.mark k).deduped k' = (decide (k' = k) || m.deduped k') := by
  by_cases h : k' = k <;> simp [mark, Function.update, h]

theorem used_congr' {m m' : Mem} {key : String} {w : ℤ} (h : m'.vals (winKey key w) = m.vals (winKey key w)) :
    m'.used key w = m.used key w := by
  simp [used, getInt, h]

theorem used_congr {m m' : Mem} (h : m'.vals = m.vals) (key : String) (w : ℤ) :
    m'.used key w = m.used key w := used_congr' (by rw [h])

@[simp] theorem used_mark (k key : String) (w : ℤ) : (m.mark k).used key w = m.used key w := rfl

theorem used_addVal_winKey (key : String) (w w' d : ℤ) :
    (m.addVal (winKey key w) d).used key w' = m.used key w' + if w' = w then d else 0 := by
  simp [used, winKey_inj]

/-! Counting the active edges touches nothing else. -/

theorem countEdge_nonneg (now active : ℤ) (acc : ℤ × List (String × ℤ)) (e : String × ℤ)
    (h : 0 ≤ acc.1) : 0 ≤ (countEdge now active acc e).1 := by
  unfold countEdge
  split
  · exact Int.add_nonneg h (by decide)
  · split <;> exact h

theorem foldl_countEdge_nonneg (now active : ℤ) (l : List (String × ℤ)) (acc : ℤ × List (String × ℤ))
    (h : 0 ≤ acc.1) : 0 ≤ (l.foldl (countEdge now active) acc).1 := by
  induction l generalizing acc with
  | nil => exact h
  | cons e l ih => exact ih _ (countEdge_nonneg now active acc e h)

theorem countEdges_nonneg (ord : RangeOrder) (inp : GrantInput) (avail now : ℤ) :
    0 ≤ (m.countEdges ord inp avail now).1 := by
  unfold countEdges
  split
  · exact foldl_countEdge_nonneg _ _ _ _ le_rfl
  · exact zero_le_one

@[simp] theorem vals_countEdges (ord : RangeOrder) (inp : GrantInput) (avail now : ℤ) :
    (m.countEdges ord inp avail now).2.vals = m.vals := by
  unfold countEdges
  split <;> rfl

@[simp] theorem deduped_countEdges (ord : RangeOrder) (inp : GrantInput) (avail now : ℤ) :
    (m.countEdges ord inp avail now).2.deduped = m.deduped := by
  unfold countEdges
  split <;> rfl

end Mem

theorem grantSize_le (avail n target : ℤ) : grantSize avail n target ≤ avail := min_le_right _ _

theorem grantSize_pos {avail n target : ℤ} (ha : 0 < avail) (hn : 0 ≤ n) (ht : 0 < target) :
    0 < grantSize avail n target := by
  refine lt_min ?_ ha
  split
  · rename_i h
    -- an empty set of edges never splits: `n * target` would be zero
    have hn' : 0 < n := by
      rcases hn.lt_or_eq with h' | h'
      · exact h'
      · rw [← h', zero_mul] at h
        omega
    rw [Int.tdiv_eq_ediv_of_nonneg (by omega)]
    have : 1 ≤ (avail + n - 1) / n := (Int.le_ediv_iff_mul_le hn').mpr (by omega)
    omega
  · exact ht

/-! Grants. -/

/-- What `grantOn` answers and leaves behind. -/
structure Granted (m : Mem) (now : ℤ) (inp : GrantInput) (g : Grant) (m' : Mem) : Prop where
  wid : g.windowID = (m.measure inp now).wid
  pwid : g.parentWindowID = (m.nest inp (m.measure inp now) now).pwid
  expires : g.expiresIn = (m.nest inp (m.measure inp now) now).expires * millisecond
  nonneg : 0 ≤ g.granted
  vals : (g.granted = 0 ∧ m'.vals = m.vals) ∨
    (g.granted ≤ (m.nest inp (m.measure inp now) now).avail ∧
      m'.vals = (m.debit inp (m.measure inp now) (m.nest inp (m.measure inp now) now) g.granted).vals)
  deduped : m'.deduped = m.deduped

theorem vals_debit_congr {m m' : Mem} (h : m'.vals = m.vals) (inp : GrantInput) (ms : Measure)
    (ne : Nested) (n : ℤ) : (m'.debit inp ms ne n).vals = (m.debit inp ms ne n).vals := by
  unfold Mem.debit
  simp only [Mem.addVal, Mem.setVal, Mem.getInt]
  split <;> split <;> simp [h]

theorem deduped_debit (m : Mem) (inp : GrantInput) (ms : Measure) (ne : Nested) (n : ℤ) :
    (m.debit inp ms ne n).deduped = m.deduped := by
  unfold Mem.debit
  split <;> split <;> rfl

theorem grantOn_granted (m : Mem) (ord : RangeOrder) (now : ℤ) (inp : GrantInput)
    (ht : 0 < inp.target) : Granted m now inp (m.grantOn ord now inp).1 (m.grantOn ord now inp).2 := by
  unfold Mem.grantOn
  set ms := m.measure inp now
  set ne := m.nest inp ms now
  have hn := m.countEdges_nonneg ord inp ne.avail now
  dsimp only
  split
  · exact ⟨rfl, rfl, rfl, le_rfl, .inl ⟨rfl, m.vals_countEdges ord inp ne.avail now⟩,
      m.deduped_countEdges ord inp ne.avail now⟩
  · rename_i ha
    have hpos := grantSize_pos (lt_of_not_ge ha) hn ht
    refine ⟨rfl, rfl, rfl, le_of_lt hpos, .inr ⟨grantSize_le _ _ _, ?_⟩, ?_⟩
    · exact vals_debit_congr (m.vals_countEdges ord inp ne.avail now) inp ms ne _
    · rw [deduped_debit, m.deduped_countEdges]

theorem prepare_target_pos (ref : Ref) (spec : Spec) (args : GrantArgs) :
    0 < (prepareOwn ref spec args).target := by
  have h : 0 < args.target := lt_of_lt_of_le one_pos (le_max_right _ _)
  simp only [prepareOwn]
  split
  · exact lt_min h (lt_of_lt_of_le one_pos (le_max_left _ _))
  · exact h

/-- What `prepare` keeps of its arguments. -/
structure Prepared (ref : Ref) (spec : Spec) (args : GrantArgs) (inp : GrantInput) : Prop where
  valid : spec.validate = .ok ()
  algo : inp.algo = spec.algo.or
  key : inp.key = ref.key spec.algo
  limit : inp.limit = spec.limit
  win : inp.win = windowMs spec
  rate : inp.rate = spec.rate
  ttl : inp.ttl = if 0 < args.horizon then milliseconds args.horizon else milliseconds second
  target : 0 < inp.target
  allocBase : inp.allocBase = if args.regional then args.allocBase else -1
  regional : args.regional → spec.algo.or = .fixedWindow
  parentKey : inp.parentKey = "" ∨ inp.parentKey = ref.parentKey .fixedWindow
  alone : args.parent = none → inp.parentKey = ""
  nested : ∀ p, args.parent = some p → ref.parent ≠ "" →
    inp.parentKey = ref.parentKey .fixedWindow ∧ inp.plimit = p.limit ∧ inp.pwin = windowMs p
  pwin : inp.parentKey ≠ "" → 0 < inp.pwin

theorem prepare_prepared {ref : Ref} {spec : Spec} {args : GrantArgs} {inp : GrantInput}
    (h : prepare ref spec args = .ok inp) : Prepared ref spec args inp := by
  unfold prepare at h
  cases hv : spec.validate with
  | error e => simp [hv, bind, Except.bind] at h
  | ok u =>
    simp only [hv, bind, Except.bind, pure, Except.pure, throw, throwThe, MonadExceptOf.throw] at h
    split at h
    · cases h
    rename_i hreg
    have hfixed : args.regional → spec.algo.or = .fixedWindow := fun hr => not_not.mp fun hn => hreg ⟨hr, .inl hn⟩
    split at h
    · rename_i p hp
      split at h
      · rename_i hr
        cases h
        exact ⟨hv, rfl, rfl, rfl, rfl, rfl, rfl, prepare_target_pos ref spec args, rfl, hfixed, .inl rfl, fun _ => rfl,
          fun _ _ hn => absurd hr hn, fun hn => absurd rfl hn⟩
      · split at h
        · cases h
        · cases h
          refine ⟨hv, rfl, rfl, rfl, rfl, rfl, rfl, prepare_target_pos ref spec args, rfl, hfixed, .inr rfl, ?_, ?_,
            fun _ => windowMs_pos p⟩
          · intro hn
            rw [hn] at hp
            cases hp
          · intro p' hp' _
            rw [hp] at hp'
            cases hp'
            exact ⟨rfl, rfl, rfl⟩
    · rename_i hp
      cases h
      exact ⟨hv, rfl, rfl, rfl, rfl, rfl, rfl, prepare_target_pos ref spec args, rfl, hfixed, .inl rfl, fun _ => rfl,
        fun p hn => (by rw [hp] at hn; cases hn), fun hn => absurd rfl hn⟩

/-! Windows. -/

section Window

variable {m m' : Mem} {now : ℤ} {inp : GrantInput} {g : Grant}

theorem measure_window (h : inp.algo ≠ .tokenBucket) : m.measure inp now = m.measureWindow inp now :=
  if_neg h

/-- What a window has left is at most its limit less its own counter: the sliding part of
the previous window only takes away. -/
theorem avail_window_le (now : ℤ) (hw : 0 < inp.win) (hu : ∀ w, 0 ≤ m.used inp.key w) :
    (m.measureWindow inp now).avail ≤
      (m.measureWindow inp now).limit - m.used inp.key (m.measureWindow inp now).wid := by
  simp only [Mem.measureWindow, Mem.used]
  by_cases hs : inp.algo = .slidingWindow
  · simp only [hs, if_true]
    have hprev : 0 ≤ m.getInt (winKey inp.key (now.tdiv inp.win - 1)) 0 := hu _
    have hf : (((now - now.tdiv inp.win * inp.win : ℤ) : ℚ) / inp.win) ≤ 1 := by
      rw [div_le_one (by exact_mod_cast hw)]
      have := Windows.lt_end hw now
      exact_mod_cast (by linarith : now - now.tdiv inp.win * inp.win ≤ inp.win)
    have hc : 0 ≤ ⌈((m.getInt (winKey inp.key (now.tdiv inp.win - 1)) 0 : ℤ) : ℚ) *
        (1 - ((now - now.tdiv inp.win * inp.win : ℤ) : ℚ) / inp.win)⌉ :=
      Int.ceil_nonneg (mul_nonneg (by exact_mod_cast hprev) (by linarith))
    linarith
  · simp only [hs, if_false]
    exact le_rfl

theorem nest_alone (hp : inp.parentKey = "") (ms : Measure) :
    m.nest inp ms now = ⟨ms.avail, ms.expires, "", 0, 0, false⟩ := if_pos hp

theorem nest_pkey (ms : Measure) :
    (m.nest inp ms now).pkey = "" ∨ ∃ v, (m.nest inp ms now).pkey = winKey inp.parentKey v := by
  unfold Mem.nest
  split
  · exact .inl rfl
  · exact .inr ⟨_, rfl⟩

theorem nest_avail_le (ms : Measure) : (m.nest inp ms now).avail ≤ ms.avail := by
  unfold Mem.nest
  split
  · exact le_rfl
  · dsimp only
    split
    · rename_i h
      exact h.le
    · exact le_rfl

/-- The enclosing quota is another one. -/
def GrantInput.Nests (inp : GrantInput) : Prop := inp.parentKey ≠ "" → inp.parentKey ≠ inp.key

theorem used_debit_own (ha : inp.algo ≠ .tokenBucket) (hp : inp.Nests) (n w : ℤ) :
    (m.debit inp (m.measure inp now) (m.nest inp (m.measure inp now) now) n).used inp.key w =
      m.used inp.key w + if w = (m.measure inp now).wid then n else 0 := by
  have hown : (m.addVal (m.measure inp now).key n).used inp.key w =
      m.used inp.key w + if w = (m.measure inp now).wid then n else 0 := by
    rw [measure_window ha]
    exact m.used_addVal_winKey _ _ _ _
  unfold Mem.debit
  rw [if_neg ha]
  dsimp only
  split
  · rename_i hpk
    have hne : inp.parentKey ≠ inp.key := hp fun h0 => hpk (by rw [nest_alone h0])
    obtain ⟨v, hv⟩ := (nest_pkey (m.measure inp now)).resolve_left hpk
    rw [Mem.used, Mem.getInt_addVal, hv, if_neg fun he => hne (winKey_inj' he).1.symm, add_zero]
    exact hown
  · exact hown

/-- A grant on a window adds what it grants to the window's counter. -/
theorem Granted.used_own (hg : Granted m now inp g m') (ha : inp.algo ≠ .tokenBucket) (hp : inp.Nests) (w : ℤ) :
    m'.used inp.key w = m.used inp.key w + if w = g.windowID then g.granted else 0 := by
  rcases hg.vals with ⟨h0, hv⟩ | ⟨-, hv⟩
  · rw [Mem.used_congr hv, h0]
    simp
  · rw [Mem.used_congr hv, used_debit_own ha hp, hg.wid]

theorem Granted.le_avail (hg : Granted m now inp g m') (h0 : g.granted ≠ 0) : g.granted ≤ (m.measure inp now).avail :=
  (hg.vals.resolve_left fun h => h0 h.1).1.trans (nest_avail_le _)

/-- And never takes the counter past the limit. -/
theorem Granted.le_limit (hg : Granted m now inp g m') (ha : inp.algo ≠ .tokenBucket) (hp : inp.Nests)
    (hw : 0 < inp.win) (hu : ∀ w, 0 ≤ m.used inp.key w) :
    g.granted = 0 ∨ m'.used inp.key g.windowID ≤ (m.measureWindow inp now).limit := by
  by_cases h0 : g.granted = 0
  · exact .inl h0
  · right
    have hle := hg.le_avail h0
    rw [measure_window ha] at hle
    rw [hg.used_own ha hp, if_pos rfl, hg.wid, measure_window ha]
    have := avail_window_le now hw hu
    linarith

/-- A grant on other keys leaves the counters of a quota alone. -/
theorem Granted.used_apart (hg : Granted m now inp g m') {key : String} (hk : inp.key ≠ key)
    (hb : inp.algo = .tokenBucket → ∀ w, inp.key ≠ winKey key w) (hp : inp.parentKey ≠ key) (w : ℤ) :
    m'.used key w = m.used key w := by
  rcases hg.vals with ⟨-, hv⟩ | ⟨-, hv⟩
  · exact Mem.used_congr hv key w
  rw [Mem.used_congr hv]
  have hne : ∀ w', winKey key w ≠ winKey inp.key w' := fun w' h => hk (winKey_inj' h).1.symm
  have hnp : ∀ w', winKey key w ≠ winKey inp.parentKey w' := fun w' h => hp (winKey_inj' h).1.symm
  have hown : ∀ n, (if inp.algo = .tokenBucket
      then m.setVal (m.measure inp now).key (nextTat inp (m.measure inp now).tat n)
      else m.addVal (m.measure inp now).key n).getInt (winKey key w) 0 = m.used key w := by
    intro n
    by_cases ha : inp.algo = .tokenBucket
    · have : winKey key w ≠ inp.key := (hb ha w).symm
      simp [ha, Mem.measure, Mem.measureBucket, Mem.used, this]
    · simp [ha, Mem.measure, Mem.measureWindow, Mem.used, hne]
  unfold Mem.debit
  dsimp only
  split
  · rename_i hpk
    obtain ⟨v, hv⟩ := (nest_pkey (m.measure inp now)).resolve_left hpk
    rw [Mem.used, Mem.getInt_addVal, hv, if_neg (hnp v), add_zero]
    exact hown g.granted
  · exact hown g.granted

end Window

/-! Buckets. -/

section Bucket

variable {m m' : Mem} {now : ℤ} {inp : GrantInput} {g : Grant}

/-- A grant writes its own counter or arrival time, and the counter of the enclosing quota. -/
theorem Granted.vals_keep (hg : Granted m now inp g m') {key : String} (hk : key ≠ (m.measure inp now).key)
    (hp : (m.nest inp (m.measure inp now) now).pkey ≠ "" → key ≠ (m.nest inp (m.measure inp now) now).pkey) :
    m'.vals key = m.vals key := by
  rcases hg.vals with ⟨-, hv⟩ | ⟨-, hv⟩
  · rw [hv]
  have hown : ∀ n, (if inp.algo = .tokenBucket
      then m.setVal (m.measure inp now).key (nextTat inp (m.measure inp now).tat n)
      else m.addVal (m.measure inp now).key n).vals key = m.vals key := by
    intro n
    split <;> simp [Mem.addVal, Mem.setVal, hk]
  rw [hv]
  unfold Mem.debit
  dsimp only
  split
  · rename_i hpk
    rw [Mem.vals_addVal_of_ne _ (hp hpk)]
    exact hown g.granted
  · exact hown g.granted

/-- A grant leaves alone what is neither its own key nor a window of it or of the enclosing quota. -/
theorem Granted.vals_apart (hg : Granted m now inp g m') {key : String} (hk : key ≠ inp.key)
    (hw : ∀ v, key ≠ winKey inp.key v) (hp : ∀ v, key ≠ winKey inp.parentKey v) : m'.vals key = m.vals key := by
  refine hg.vals_keep ?_ fun hpk => ?_
  · unfold Mem.measure
    split
    · exact hk
    · exact hw _
  · obtain ⟨v, hv⟩ := (nest_pkey (m.measure inp now)).resolve_left hpk
    rw [hv]
    exact hp v

/-- What a grant does to a bucket's arrival time. -/
theorem Granted.tat (hg : Granted m now inp g m') (ha : inp.algo = .tokenBucket)
    (hp : ∀ v, inp.key ≠ winKey inp.parentKey v) :
    (g.granted = 0 ∧ m'.vals inp.key = m.vals inp.key) ∨
      (g.granted ≤ (m.measureBucket inp now).avail ∧
        m'.vals inp.key = some (nextTat inp (max (m.getInt inp.key now) now) g.granted)) := by
  have hms : m.measure inp now = m.measureBucket inp now := if_pos ha
  rcases hg.vals with ⟨h0, hv⟩ | ⟨hle, hv⟩
  · exact .inl ⟨h0, by rw [hv]⟩
  · rw [hms] at hle hv
    refine .inr ⟨hle.trans (nest_avail_le _), ?_⟩
    rw [hv]
    unfold Mem.debit
    simp only [ha, if_true]
    split
    · rename_i hpk
      obtain ⟨v, hv'⟩ := (nest_pkey (m.measureBucket inp now)).resolve_left hpk
      rw [hv', Mem.vals_addVal_of_ne _ (hp v)]
      exact Function.update_self _ _ _
    · exact Function.update_self _ _ _

/-- A bucket grants no more than fits before its depth is reached. -/
theorem bucket_fits (hr : 0 < inp.rate) {n : ℤ} (hn : n ≤ (m.measureBucket inp now).avail) :
    (n : ℚ) * (1000 / inp.rate) ≤
      now + inp.limit * (1000 / inp.rate) - (max (m.getInt inp.key now) now : ℤ) := by
  have hT : (0 : ℚ) < 1000 / inp.rate := by positivity
  have hle : (n : ℚ) ≤ ((now : ℚ) + inp.limit * (1000 / inp.rate) - (max (m.getInt inp.key now) now : ℤ)) /
      (1000 / inp.rate) := Int.le_floor.mp hn
  rwa [le_div_iff₀ hT] at hle

theorem nextTat_ge (inp : GrantInput) (tat n : ℤ) : (tat : ℚ) + n * (1000 / inp.rate) ≤ nextTat inp tat n := Int.le_ceil _

/-- The bucket's arrival time accounts for `sum` tokens granted from `s` on and by `b`. -/
def Mem.Paces (m : Mem) (key : String) (spec : Spec) (s b sum : ℤ) : Prop :=
  sum = 0 ∨ ∃ tat, m.vals key = some tat ∧
    Gcra.Paced (1000 / spec.rate) (spec.limit * (1000 / spec.rate)) s b sum tat

/-- A grant counts if it is made between `s` and `b`; it never brings the arrival time back. -/
theorem Mem.Paces.grant {ref : Ref} {spec : Spec} {args : GrantArgs} {s b sum : ℤ}
    (h : m.Paces inp.key spec s b sum) (hpre : Prepared ref spec args inp) (hg : Granted m now inp g m')
    (ha : spec.algo.or = .tokenBucket) :
    (s ≤ now → now ≤ b → m'.Paces inp.key spec s b (sum + g.granted)) ∧ m'.Paces inp.key spec s b sum := by
  have halgo : inp.algo = .tokenBucket := hpre.algo.trans ha
  have hpos : 0 < inp.rate := by
    rw [hpre.rate]
    exact (Spec.validate_ok.mp hpre.valid).2.2 ha
  have hne : ∀ v, inp.key ≠ winKey inp.parentKey v := fun v => by
    rw [hpre.key]
    exact bucketKey_ne_winKey ha _ _
  rcases hg.tat halgo hne with ⟨hz, hv⟩ | ⟨hav, hv⟩
  · -- nothing was granted
    rw [hz, add_zero]
    unfold Mem.Paces at h ⊢
    rw [hv]
    exact ⟨fun _ _ => h, h⟩
  have hfits := bucket_fits hpos hav
  have hnext := nextTat_ge inp (max (m.getInt inp.key now) now) g.granted
  rw [hpre.rate] at hfits hnext
  rw [hpre.limit] at hfits
  push_cast at hfits hnext
  have hpace : (0 : ℚ) ≤ g.granted * (1000 / spec.rate) := by
    rw [← hpre.rate]
    have hn : (0 : ℚ) ≤ g.granted := by exact_mod_cast hg.nonneg
    positivity
  unfold Mem.Paces at h ⊢
  rw [hv]
  rcases h with rfl | ⟨tat, htat, hp⟩
  · refine ⟨fun hs hb => .inr ⟨_, rfl, ?_⟩, .inl rfl⟩
    rw [zero_add]
    exact Gcra.paced_first (by exact_mod_cast hs) (by exact_mod_cast hb) hfits hnext
  · have hget : m.getInt inp.key now = tat := by simp [Mem.getInt, htat]
    rw [hget] at hfits hnext ⊢
    refine ⟨fun _ hb => .inr ⟨_, rfl, ?_⟩, .inr ⟨_, rfl, hp.mono ?_⟩⟩
    · rw [Int.cast_add]
      exact hp.grant (by exact_mod_cast hb) hfits hnext
    · have hmax : (tat : ℚ) ≤ max (tat : ℚ) now := le_max_left _ _
      linarith

end Bucket

/-! Enclosing quotas. -/

/-- A grant on a window inside an enclosing quota stays within it, and is charged to it. -/
theorem Granted.used_parent {m m' : Mem} {now : ℤ} {inp : GrantInput} {g : Grant} (hg : Granted m now inp g m')
    (ha : inp.algo ≠ .tokenBucket) (hp : inp.parentKey ≠ "") (hk : inp.key ≠ inp.parentKey) :
    (g.granted = 0 ∨ m.used inp.parentKey (now.tdiv inp.pwin) + g.granted ≤ inp.plimit) ∧
      ∀ v, m'.used inp.parentKey v = m.used inp.parentKey v + if v = now.tdiv inp.pwin then g.granted else 0 := by
  have hms : m.measure inp now = m.measureWindow inp now := measure_window ha
  rcases hg.vals with ⟨h0, hv⟩ | ⟨hle, hv⟩
  · exact ⟨.inl h0, fun v => by rw [Mem.used_congr hv, h0, ite_self, add_zero]⟩
  have hpkey : (m.nest inp (m.measure inp now) now).pkey = winKey inp.parentKey (now.tdiv inp.pwin) := by
    unfold Mem.nest
    rw [if_neg hp]
  refine ⟨.inr ?_, fun v => ?_⟩
  · have hpar : (m.nest inp (m.measure inp now) now).avail ≤
        inp.plimit - m.used inp.parentKey (now.tdiv inp.pwin) := by
      unfold Mem.nest Mem.used
      rw [if_neg hp]
      dsimp only
      split
      · exact le_rfl
      · rename_i h
        exact not_lt.mp h
    linarith
  · rw [Mem.used_congr hv]
    have hne : ∀ v v', winKey inp.parentKey v ≠ winKey inp.key v' := fun v v' h => hk (winKey_inj' h).1.symm
    have hne' : winKey inp.parentKey (now.tdiv inp.pwin) ≠ "" := snoc_colon_ne_empty _ _
    unfold Mem.debit
    rw [if_neg ha, hpkey]
    dsimp only
    rw [if_pos hne', Mem.used_addVal_winKey, hms]
    congr 1
    simp [Mem.measureWindow, Mem.used, hne]

/-! Returns. -/

/-- What `prepareReturn` keeps of its arguments. -/
structure PreparedReturn (r : Ret) (dedupe : String) (inp : ReturnInput) : Prop where
  algo : inp.algo = r.spec.algo.or
  key : inp.key = r.ref.key r.spec.algo
  win : inp.win = windowMs r.spec
  wid : inp.wid = r.windowID
  tokens : inp.tokens = r.tokens
  dedupeKey : inp.dedupeKey = if dedupe ≠ "" then retKey (r.ref.key r.spec.algo) dedupe else ""
  parentKey : inp.parentKey = "" ∨ inp.parentKey = r.ref.parentKey .fixedWindow
  alone : r.parent = none → inp.parentKey = ""
  valid : r.spec.validate = .ok ()

theorem prepareReturn_prepared {r : Ret} {dedupe : String} {inp : ReturnInput}
    (h : prepareReturn r dedupe = .ok inp) : PreparedReturn r dedupe inp := by
  unfold prepareReturn at h
  cases hv : r.spec.validate with
  | error e => simp [hv, bind, Except.bind] at h
  | ok u =>
    simp only [hv, bind, Except.bind, pure, Except.pure, Except.ok.injEq] at h
    subst h
    refine ⟨rfl, rfl, rfl, rfl, rfl, rfl, ?_, fun hn => ?_, hv⟩
    · exact (ite_eq_or_eq _ _ _).symm
    · simp [hn]

theorem retKey_ne_empty (base dedupe : String) : retKey base dedupe ≠ "" := by
  intro h
  have := congrArg String.length h
  simp [retKey] at this

theorem used_credit (m : Mem) (key : String) (w w' n : ℤ) :
    (m.credit (winKey key w) n).used key w' =
      if w' = w then m.used key w - min n (m.used key w) else m.used key w' := by
  by_cases h : w' = w <;> simp [Mem.credit, Mem.used, winKey_inj, h]

theorem applyReturn_alone (m : Mem) (now : ℤ) (inp : ReturnInput) (ha : inp.algo ≠ .tokenBucket)
    (hp : inp.parentKey = "") :
    m.applyReturn now inp =
      if now.tdiv inp.win = inp.wid then m.credit (winKey inp.key inp.wid) inp.tokens else m := by
  simp [Mem.applyReturn, ha, hp]

theorem deduped_credit (m : Mem) (key : String) (n : ℤ) : (m.credit key n).deduped = m.deduped := rfl

theorem deduped_applyReturn (m : Mem) (now : ℤ) (inp : ReturnInput) :
    (m.applyReturn now inp).deduped = m.deduped := by
  unfold Mem.applyReturn
  dsimp only
  split <;> split <;> try split
  all_goals rfl

theorem vals_credit_apart (m : Mem) {k key : String} (h : key ≠ k) (n : ℤ) : (m.credit k n).vals key = m.vals key :=
  Function.update_of_ne h _ _

/-- A return writes the bucket it names, or the counters it names in windows that are still current. -/
theorem applyReturn_vals_keep (m : Mem) (now : ℤ) {inp : ReturnInput} {key : String}
    (hk : inp.algo = .tokenBucket → key ≠ inp.key)
    (hw : now.tdiv inp.win = inp.wid → key ≠ winKey inp.key inp.wid)
    (hp : inp.parentKey ≠ "" → key ≠ winKey inp.parentKey inp.pwid) : (m.applyReturn now inp).vals key = m.vals key := by
  have hown : (if inp.algo = .tokenBucket then
        m.setVal inp.key (max ⌈((max (m.getInt inp.key now) now : ℤ) : ℚ) - inp.tokens * (1000 / inp.rate)⌉ now)
      else if now.tdiv inp.win = inp.wid then m.credit (winKey inp.key inp.wid) inp.tokens else m).vals key =
        m.vals key := by
    split
    · rename_i ha
      exact Function.update_of_ne (hk ha) _ _
    · split
      · rename_i hcur
        exact vals_credit_apart m (hw hcur) _
      · rfl
  unfold Mem.applyReturn
  dsimp only
  split
  · rename_i hpar
    rw [vals_credit_apart _ (hp hpar.1)]
    exact hown
  · exact hown

theorem prepareReturn_nested {r : Ret} {dedupe : String} {inp : ReturnInput} {p : Spec}
    (h : prepareReturn r dedupe = .ok inp) (hp : r.parent = some p) (hr : r.ref.parent ≠ "") :
    inp.parentKey = r.ref.parentKey .fixedWindow ∧ inp.pwin = windowMs p ∧ inp.pwid = r.parentWindowID := by
  unfold prepareReturn at h
  cases hv : r.spec.validate with
  | error e => simp [hv, bind, Except.bind] at h
  | ok u =>
    simp only [hv, bind, Except.bind, pure, Except.pure, Except.ok.injEq, if_pos hr, hp, Option.isSome_some,
      if_true, Option.map_some, Option.getD_some] at h
    subst h
    exact ⟨rfl, rfl, rfl⟩

section Nested

variable {now : ℤ} {inp : ReturnInput}

/-- A return on a window gives the tokens back to it while it is current. -/
theorem applyReturn_used_own (m : Mem) (ha : inp.algo ≠ .tokenBucket) (hp : inp.parentKey ≠ inp.key) (w : ℤ) :
    (m.applyReturn now inp).used inp.key w =
      if w = inp.wid ∧ now.tdiv inp.win = inp.wid then m.used inp.key inp.wid - min inp.tokens (m.used inp.key inp.wid)
      else m.used inp.key w := by
  have hown : (if now.tdiv inp.win = inp.wid then m.credit (winKey inp.key inp.wid) inp.tokens else m).used inp.key w =
      if w = inp.wid ∧ now.tdiv inp.win = inp.wid then m.used inp.key inp.wid - min inp.tokens (m.used inp.key inp.wid)
      else m.used inp.key w := by
    by_cases hc : now.tdiv inp.win = inp.wid
    · rw [if_pos hc, used_credit]
      simp only [hc, and_true]
    · rw [if_neg hc, if_neg fun h => hc h.2]
  unfold Mem.applyReturn
  rw [if_neg ha]
  dsimp only
  split
  · rw [← hown]
    exact Mem.used_congr' (vals_credit_apart _ (fun h => hp (winKey_inj' h).1.symm) _)
  · exact hown

/-- And to the enclosing quota while that one's window is. -/
theorem applyReturn_used_parent (m : Mem) (now : ℤ) (ha : inp.algo ≠ .tokenBucket) (hp : inp.parentKey ≠ "")
    (hne : inp.parentKey ≠ inp.key) (v : ℤ) :
    (m.applyReturn now inp).used inp.parentKey v =
      if v = inp.pwid ∧ now.tdiv inp.pwin = inp.pwid then
        m.used inp.parentKey inp.pwid - min inp.tokens (m.used inp.parentKey inp.pwid)
      else m.used inp.parentKey v := by
  have hown : ∀ w, (if now.tdiv inp.win = inp.wid then m.credit (winKey inp.key inp.wid) inp.tokens else m).used
      inp.parentKey w = m.used inp.parentKey w := by
    intro w
    split
    · exact Mem.used_congr' (vals_credit_apart _ (fun h => hne (winKey_inj' h).1) _)
    · rfl
  unfold Mem.applyReturn
  rw [if_neg ha]
  dsimp only
  by_cases hc : now.tdiv inp.pwin = inp.pwid
  · rw [if_pos ⟨hp, hc⟩, used_credit, hown, hown]
    simp only [hc, and_true]
  · have hnot : ¬ (inp.parentKey ≠ "" ∧ now.tdiv inp.pwin = inp.pwid) := fun h => hc h.2
    rw [if_neg hnot, hown, if_neg fun h => hc h.2]

end Nested

/-- A return leaves alone what is neither its own key nor a window of it or of the enclosing quota. -/
theorem applyReturn_vals_apart (m : Mem) (now : ℤ) {inp : ReturnInput} {key : String}
    (hk : inp.algo = .tokenBucket → key ≠ inp.key) (hw : ∀ v, key ≠ winKey inp.key v)
    (hp : ∀ v, key ≠ winKey inp.parentKey v) : (m.applyReturn now inp).vals key = m.vals key :=
  applyReturn_vals_keep m now hk (fun _ => hw _) fun _ => hp _

/-- A return on other keys leaves the counters of a quota alone. -/
theorem applyReturn_apart (m : Mem) (now : ℤ) {inp : ReturnInput} {key : String} (hk : inp.key ≠ key)
    (hb : inp.algo = .tokenBucket → ∀ w, inp.key ≠ winKey key w) (hp : inp.parentKey ≠ key) (w : ℤ) :
    (m.applyReturn now inp).used key w = m.used key w := by
  have hne : ∀ v, winKey key w ≠ winKey inp.key v := fun v h => hk (winKey_inj' h).1.symm
  have hnp : ∀ v, winKey key w ≠ winKey inp.parentKey v := fun v h => hp (winKey_inj' h).1.symm
  unfold Mem.used Mem.getInt
  rw [applyReturn_vals_apart m now (fun ha => (hb ha w).symm) hne hnp]

end Gate
