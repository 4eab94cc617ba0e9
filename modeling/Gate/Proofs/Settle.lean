import Gate.Proofs.Redis
import Gate.Proofs.Descriptors
import Gate.Proofs.LeaseSafety
import Gate.Spec.Settle

/-! A settlement that is delivered twice. The marks of its first delivery last for their TTL or
longer, whatever else the ledger is asked for in between; a window is over before its mark is gone,
but nothing of a token bucket is. -/

namespace Gate

namespace Redis

variable {r : Redis} {now : ℤ} {key k : String}

/-! What a script leaves alone. -/

theorem strs_incrBy_of_ne (h : k ≠ key) (d : ℤ) : ((r.incrBy now key d).2).strs k = r.strs k := by
  unfold incrBy
  cases r.find now key <;> exact strs_put_of_ne h _

theorem strs_pexpire_of_ne (h : k ≠ key) (ttl : ℤ) : (r.pexpire now key ttl).strs k = r.strs k := by
  unfold pexpire
  cases r.find now key with
  | none => rfl
  | some s => exact strs_put_of_ne h _

theorem strs_set_of_ne (h : k ≠ key) (v px : ℤ) : (r.set now key v px).strs k = r.strs k := strs_put_of_ne h _

theorem strs_credit_of_ne (h : k ≠ key) (tokens ttl : ℤ) : (r.credit now key tokens ttl).strs k = r.strs k := by
  unfold credit
  dsimp only
  generalize (if (r.get now key).getD 0 < tokens then (r.get now key).getD 0 else tokens) = c
  split_ifs
  · rw [strs_pexpire_of_ne h, strs_incrBy_of_ne h]
  · rfl

theorem strs_countEdges (inp : GrantInput) (avail : ℤ) : ((r.countEdges inp avail now).2).strs = r.strs := by
  unfold countEdges
  split_ifs <;> rfl

theorem strs_debit_of_ne {inp : GrantInput} {ms : Measure} {ne : Nested} (hown : k ≠ ms.key) (hparent : ne.pkey ≠ "" → k ≠ ne.pkey)
    (grant : ℤ) : (r.debit inp ms ne now grant).strs k = r.strs k := by
  have hfirst : (if inp.algo = .tokenBucket then
        r.set now ms.key ⌈(ms.tat : ℚ) + grant * (1000 / inp.rate)⌉ (⌈(ms.tat : ℚ) + grant * (1000 / inp.rate)⌉ - now + 1000)
      else if (r.incrBy now ms.key grant).1 = grant then ((r.incrBy now ms.key grant).2).pexpire now ms.key (windowTTL inp.win)
      else (r.incrBy now ms.key grant).2).strs k = r.strs k := by
    split_ifs
    · exact strs_set_of_ne hown _ _
    · rw [strs_pexpire_of_ne hown, strs_incrBy_of_ne hown]
    · exact strs_incrBy_of_ne hown _
  unfold debit
  dsimp only
  by_cases hp : ne.pkey ≠ ""
  · rw [if_pos hp, strs_pexpire_of_ne (hparent hp), strs_incrBy_of_ne (hparent hp)]
    exact hfirst
  · rw [if_neg hp]
    exact hfirst

theorem measure_key (r : Redis) (inp : GrantInput) (now : ℤ) :
    (r.measure inp now).key = if inp.algo = .tokenBucket then inp.key else winKey inp.key (now / inp.win) := by
  unfold measure
  split_ifs <;> rfl

theorem nest_pkey (r : Redis) (inp : GrantInput) (ms : Measure) (now : ℤ) :
    (r.nest inp ms now).pkey = if inp.parentKey = "" then "" else winKey inp.parentKey (now / inp.pwin) := by
  unfold nest
  split_ifs <;> rfl

theorem strs_grantLua_of_ne {inp : GrantInput} (h : ∀ y ∈ inp.keys now, k ≠ y.text) :
    ((r.grantLua now inp).2).strs k = r.strs k := by
  unfold grantLua
  dsimp only
  by_cases havail : (r.nest inp (r.measure inp now) now).avail ≤ 0
  · rw [if_pos havail, strs_countEdges]
  · rw [if_neg havail, strs_debit_of_ne, strs_countEdges]
    · rw [measure_key]
      split_ifs with ha
      · exact h (.arrival inp.key) (by simp [GrantInput.keys, ha])
      · exact h (.counter inp.key (now / inp.win)) (by simp [GrantInput.keys, ha])
    · rw [nest_pkey]
      split_ifs with hp
      · simp
      · exact fun _ => h (.counter inp.parentKey (now / inp.pwin)) (by simp [GrantInput.keys, hp])

theorem strs_lendLua_of_ne {base id : String} {wid : ℤ} (hloan : k ≠ lendKey base id) (halloc : k ≠ allocKey base wid)
    (win b want margin : ℤ) : ((r.lendLua now base win wid b want margin id).2).strs k = r.strs k := by
  unfold lendLua
  split_ifs
  · rfl
  · cases r.get now (lendKey base id) with
    | some v => rfl
    | none =>
      dsimp only
      rw [strs_set_of_ne hloan]
      split_ifs <;> first | rfl | rw [strs_pexpire_of_ne halloc, strs_incrBy_of_ne halloc]

theorem strs_creditLua_of_ne {base id : String} {wid : ℤ} (hid : k ≠ creditKey base id) (halloc : k ≠ allocKey base wid)
    (win amount : ℤ) : ((r.creditLua now base win wid amount id).2).strs k = r.strs k := by
  unfold creditLua setNX
  split_ifs
  · rfl
  · rfl
  · simp only [Bool.not_true, Bool.false_eq_true, if_false]
    rw [strs_pexpire_of_ne halloc, strs_incrBy_of_ne halloc, strs_set_of_ne hid]

/-- A return, once it is known not to be a repeat. -/
theorem strs_applyReturn_of_ne {inp : ReturnInput}
    (hown : k ≠ (if inp.algo = .tokenBucket then inp.key else winKey inp.key inp.wid))
    (hparent : inp.parentKey ≠ "" → k ≠ winKey inp.parentKey inp.pwid) : (r.applyReturn now inp).strs k = r.strs k := by
  have hfirst : (r.returnOwn now inp).strs k = r.strs k := by
    unfold returnOwn
    by_cases ha : inp.algo = .tokenBucket
    · rw [if_pos ha] at hown ⊢
      exact strs_set_of_ne hown _ _
    · rw [if_neg ha] at hown ⊢
      split_ifs
      · exact strs_credit_of_ne hown _ _
      · rfl
  unfold applyReturn
  dsimp only
  split_ifs with hp
  · rw [strs_credit_of_ne (hparent hp.1), hfirst]
  · exact hfirst

/-- A return with a dedupe ID: nothing, if it is marked. -/
theorem returnLua_of_dedupe {inp : ReturnInput} (h : inp.dedupeKey ≠ "") :
    r.returnLua now inp = if (r.find now inp.dedupeKey).isSome then r
      else (r.set now inp.dedupeKey 1 inp.dedupeTTL).applyReturn now inp := by
  unfold returnLua setNX
  rw [if_pos h]
  split_ifs <;> rfl

/-! A mark that lasts. -/

/-- The key has been set, and does not expire before `stop`. -/
def Lasts (r : Redis) (key : String) (stop : ℤ) : Prop := ∃ s e, r.strs key = some s ∧ s.exp = some e ∧ stop ≤ e

variable {stop : ℤ}

theorem Lasts.of_strs {r' : Redis} (h : r.Lasts key stop) (heq : r'.strs key = r.strs key) : r'.Lasts key stop := by
  obtain ⟨s, e, hs, he, hle⟩ := h
  exact ⟨s, e, heq.trans hs, he, hle⟩

theorem Lasts.isSome (h : r.Lasts key stop) (hnow : now < stop) : (r.find now key).isSome = true := by
  obtain ⟨s, e, hs, he, hle⟩ := h
  have hlive : s.live now = true := (Stored.live_iff he).mpr (hnow.trans_le hle)
  unfold find
  rw [hs, Stored.filter_live hlive]
  rfl

/-- One that is gone is set again, and lasts longer than before. -/
theorem Lasts.setNX (h : r.Lasts k stop) {px : ℤ} (hpx : 0 ≤ px) : (r.setNX now key px).2.Lasts k stop := by
  unfold Redis.setNX
  split_ifs with hfound
  · exact h
  · by_cases hk : k = key
    · subst hk
      have hgone : stop ≤ now := not_lt.mp fun hlt => hfound (h.isSome hlt)
      exact ⟨_, _, strs_put_self _ _ _, rfl, by omega⟩
    · exact h.of_strs (strs_set_of_ne hk _ _)

end Redis

/-! The calls in between. -/

section

variable {r : Redis} {now stop : ℤ} {k dedupe : String}

theorem ReturnInput.spares {inp : ReturnInput} (h : ∀ y ∈ inp.keys dedupe, y.text = k → y.isReturned = true) :
    k ≠ (if inp.algo = .tokenBucket then inp.key else winKey inp.key inp.wid) ∧
      (inp.parentKey ≠ "" → k ≠ winKey inp.parentKey inp.pwid) := by
  constructor
  · split_ifs with ha
    · intro hk
      have := h (.arrival inp.key) (by simp [ReturnInput.keys, ha]) hk.symm
      cases this
    · intro hk
      have := h (.counter inp.key inp.wid) (by simp [ReturnInput.keys, ha]) hk.symm
      cases this
  · intro hp hk
    have := h (.counter inp.parentKey inp.pwid) (by simp [ReturnInput.keys, hp]) hk.symm
    cases this

theorem Redis.Lasts.returnLua (h : r.Lasts k stop) {inp : ReturnInput}
    (hk : ∀ y ∈ inp.keys dedupe, y.text = k → y.isReturned = true) (httl : inp.dedupeKey ≠ "" → 0 ≤ inp.dedupeTTL) :
    (r.returnLua now inp).Lasts k stop := by
  obtain ⟨hown, hparent⟩ := ReturnInput.spares hk
  unfold Redis.returnLua
  split_ifs with hd
  · have hmark : (r.setNX now inp.dedupeKey inp.dedupeTTL).2.Lasts k stop := h.setNX (httl hd)
    dsimp only
    split_ifs
    · exact hmark.of_strs (Redis.strs_applyReturn_of_ne hown hparent)
    · exact hmark
  · exact h.of_strs (Redis.strs_applyReturn_of_ne hown hparent)

/-- The marks of returns, the call's own among them, only ever last longer. -/
theorem Redis.Lasts.ret (dedupe : String) :
    ∀ (xs : List Ret) {r : Redis}, r.Lasts k stop → (∀ y ∈ retKeys dedupe xs, y.text = k → y.isReturned = true) →
      (r.ret now dedupe xs).2.Lasts k stop := by
  intro xs
  induction xs with
  | nil => exact fun h _ => h
  | cons x xs ih =>
    intro r h hk
    unfold Redis.ret
    unfold retKeys at hk
    cases hp : prepareReturn x dedupe with
    | error e => exact h
    | ok inp =>
      rw [hp] at hk
      obtain ⟨hown, hrest⟩ := List.forall_mem_append.mp hk
      have httl : inp.dedupeKey ≠ "" → 0 ≤ inp.dedupeTTL := by
        intro hd
        rw [(prepareReturn_prepared hp).dedupeKey] at hd
        exact ((prepareReturn_ttl hp).1 fun he => hd (if_neg (not_not.mpr he))).le
      exact ih (h.returnLua hown httl) hrest

theorem GrantInput.keys_not_returned {inp : GrantInput} {y : LedgerKey} (h : y ∈ inp.keys now) : y.isReturned = false := by
  unfold GrantInput.keys at h
  split_ifs at h <;> simp only [List.mem_append, List.mem_cons, List.not_mem_nil, or_false] at h <;>
    aesop

theorem Redis.Lasts.exec (h : r.Lasts k stop) {c : LedgerCall} (hc : ∀ y ∈ c.keys, y.text = k → y.isReturned = true) :
    (r.exec c).2.Lasts k stop := by
  have hne : ∀ y ∈ c.keys, y.isReturned = false → k ≠ y.text := by
    intro y hy hret hk
    rw [hc y hy hk.symm] at hret
    cases hret
  obtain ⟨t, op⟩ := c
  cases op with
  | grant ord ref spec args =>
    unfold Redis.exec Redis.grant
    dsimp only
    cases hp : prepare ref spec args with
    | error e => exact h
    | ok inp =>
      simp only [LedgerCall.keys, hp] at hne
      refine h.of_strs (Redis.strs_grantLua_of_ne fun y hy => hne y hy ?_)
      exact GrantInput.keys_not_returned hy
  | ret dedupe xs => exact Redis.Lasts.ret dedupe xs h hc
  | lend ref spec b wid want margin id =>
    show ((r.lend t ref spec b wid want margin id).2).Lasts k stop
    unfold Redis.lend
    split_ifs with ha
    · exact h
    · by_cases hw : t / windowMs spec = wid
      · simp only [LedgerCall.keys, not_not.mp ha, hw, and_self, if_true, List.forall_mem_cons] at hne
        exact h.of_strs (Redis.strs_lendLua_of_ne (hne.1 rfl) (hne.2.1 rfl) _ _ _ _)
      · unfold Redis.lendLua
        dsimp only
        rw [if_pos hw]
        exact h
  | credit ref spec wid amount id =>
    show ((r.creditAlloc t ref spec wid amount id).2).Lasts k stop
    unfold Redis.creditAlloc
    split_ifs with ha
    · exact h
    · by_cases hw : t / windowMs spec = wid
      · simp only [LedgerCall.keys, not_not.mp ha, hw, and_self, if_true, List.forall_mem_cons] at hne
        exact h.of_strs (Redis.strs_creditLua_of_ne (hne.1 rfl) (hne.2.1 rfl) _ _)
      · unfold Redis.creditLua
        dsimp only
        rw [if_pos hw]
        exact h

theorem Redis.Lasts.execs :
    ∀ (cs : List LedgerCall) {r : Redis}, r.Lasts k stop → (∀ c ∈ cs, ∀ y ∈ c.keys, y.text = k → y.isReturned = true) →
      (r.execAll cs).Lasts k stop := by
  intro cs
  induction cs with
  | nil => exact fun h _ => h
  | cons c cs ih =>
    intro r h hc
    obtain ⟨hc, hcs⟩ := List.forall_mem_cons.mp hc
    exact ih (h.exec hc) hcs

end

/-! The settlement. -/

section

variable {r : Redis} {now stop t₁ t₂ : ℤ} {k dedupe : String}

/-- A return of a quota without an enclosing one, as a settlement makes them. -/
structure Ret.Flat (dedupe : String) (x : Ret) (inp : ReturnInput) : Prop where
  algo : inp.algo = x.spec.algo.or
  key : inp.key = x.ref.key x.spec.algo
  win : inp.win = windowMs x.spec
  wid : inp.wid = x.windowID
  parentKey : inp.parentKey = ""
  dedupeKey : inp.dedupeKey = retKey (x.ref.key x.spec.algo) dedupe
  dedupeTTL : inp.dedupeTTL = x.markTTL

theorem Ret.flat_of_prepareReturn {x : Ret} {inp : ReturnInput} (h : prepareReturn x dedupe = .ok inp) (hd : dedupe ≠ "")
    (hp : x.parent = none) : x.Flat dedupe inp := by
  unfold prepareReturn at h
  cases hv : x.spec.validate with
  | error e => simp [hv, bind, Except.bind] at h
  | ok u =>
    simp only [hv, hp, bind, Except.bind, pure, Except.pure, Except.ok.injEq, ite_self, Option.isSome_none, Bool.false_eq_true,
      if_false, if_pos hd] at h
    subst h
    exact ⟨rfl, rfl, rfl, rfl, rfl, rfl, rfl⟩

theorem markTTL_pos (x : Ret) : 0 < x.markTTL := mul_pos two_pos (milliseconds_pos (le_max_right _ _))

/-- A window's mark lasts for two windows. -/
theorem markTTL_window {x : Ret} (h : x.spec.algo.or ≠ .tokenBucket) : x.markTTL = 2 * windowMs x.spec := by
  unfold Ret.markTTL windowMs Spec.period
  rw [if_neg h, max_assoc, max_self]

/-- A list that is returned as far as its first bad item. -/
theorem Redis.ret_cons_ok {x : Ret} {inp : ReturnInput} (h : prepareReturn x dedupe = .ok inp) (xs : List Ret) :
    (r.ret now dedupe (x :: xs)).2 = ((r.returnLua now inp).ret now dedupe xs).2 := by
  rw [Redis.ret, h]

/-- The items that `Return` gets to. -/
def reached (dedupe : String) : List Ret → List Ret
  | [] => []
  | x :: xs => match prepareReturn x dedupe with
    | .error _ => []
    | .ok _ => x :: reached dedupe xs

theorem mem_of_reached {x : Ret} (xs : List Ret) (h : x ∈ reached dedupe xs) : x ∈ xs := by
  induction xs with
  | nil => exact h
  | cons y ys ih =>
    unfold reached at h
    cases hp : prepareReturn y dedupe with
    | error e =>
      rw [hp] at h
      exact absurd h List.not_mem_nil
    | ok inp =>
      rw [hp] at h
      rcases List.mem_cons.mp h with rfl | h
      · exact List.mem_cons_self
      · exact List.mem_cons_of_mem y (ih h)

/-- The first delivery marks every item that it gets to. -/
theorem Redis.lasts_of_ret {x : Ret} (hd : dedupe ≠ "") :
    ∀ (xs : List Ret) {r : Redis}, x ∈ reached dedupe xs →
      r.strs (retKey (x.ref.key x.spec.algo) dedupe) = none →
      (∀ y ∈ xs, y.parent = none) →
      (∀ y ∈ xs, retKey (y.ref.key y.spec.algo) dedupe = retKey (x.ref.key x.spec.algo) dedupe → y.spec = x.spec) →
      (∀ y ∈ retKeys dedupe xs, y.text = retKey (x.ref.key x.spec.algo) dedupe → y.isReturned = true) →
      (r.ret now dedupe xs).2.Lasts (retKey (x.ref.key x.spec.algo) dedupe) (now + x.markTTL) := by
  intro xs
  induction xs with
  | nil => exact fun hx => absurd hx List.not_mem_nil
  | cons y ys ih =>
    intro r hx hnew hpar hone hkeys
    obtain ⟨hpy, hpar⟩ := List.forall_mem_cons.mp hpar
    obtain ⟨hony, hone⟩ := List.forall_mem_cons.mp hone
    unfold reached at hx
    unfold retKeys at hkeys
    cases hp : prepareReturn y dedupe with
    | error e =>
      rw [hp] at hx
      exact absurd hx List.not_mem_nil
    | ok inp =>
      rw [hp] at hx hkeys
      obtain ⟨hkown, hkrest⟩ := List.forall_mem_append.mp hkeys
      obtain ⟨hown, hparent⟩ := ReturnInput.spares hkown
      have hflat := Ret.flat_of_prepareReturn hp hd hpy
      have hne : inp.dedupeKey ≠ "" := by
        rw [hflat.dedupeKey]
        exact retKey_ne_empty _ _
      rw [Redis.ret_cons_ok hp, Redis.returnLua_of_dedupe hne, hflat.dedupeKey]
      by_cases hk : retKey (y.ref.key y.spec.algo) dedupe = retKey (x.ref.key x.spec.algo) dedupe
      · -- the item's mark is set here, if it is not a repeat of an earlier one
        have hfind : ¬ (r.find now (retKey (x.ref.key x.spec.algo) dedupe)).isSome = true := by simp [Redis.find, hnew]
        have httl : inp.dedupeTTL = x.markTTL := by
          rw [hflat.dedupeTTL]
          unfold Ret.markTTL
          rw [hony hk]
        rw [hk, if_neg hfind]
        refine Redis.Lasts.ret dedupe ys ?_ hkrest
        refine Redis.Lasts.of_strs ?_ (Redis.strs_applyReturn_of_ne hown hparent)
        exact ⟨_, _, Redis.strs_put_self _ _ _, rfl, by rw [httl]⟩
      · have hxs : x ∈ reached dedupe ys := by
          rcases List.mem_cons.mp hx with rfl | hx
          · exact absurd rfl hk
          · exact hx
        refine ih hxs ?_ hpar hone hkrest
        split_ifs
        · exact hnew
        · rw [Redis.strs_applyReturn_of_ne hown hparent, Redis.strs_set_of_ne (Ne.symm hk), hnew]

/-- When a window's mark is gone, its window is over. -/
theorem window_over {x : Ret} (hbegun : x.windowID ≤ t₁ / windowMs x.spec) (hover : t₁ + 2 * windowMs x.spec ≤ t₂) :
    t₂ / windowMs x.spec ≠ x.windowID := by
  have hpos := windowMs_pos x.spec
  have hlt : t₁ / windowMs x.spec < t₂ / windowMs x.spec := by
    rw [Int.lt_iff_add_one_le, Int.le_ediv_iff_mul_le hpos]
    have := (in_window hpos t₁).1
    linarith
  omega

/-- A repeat changes nothing besides its mark. -/
theorem Redis.strs_returnLua_again {x : Ret} {inp : ReturnInput} (hf : x.Flat dedupe inp)
    (hlasts : r.Lasts (retKey (x.ref.key x.spec.algo) dedupe) (t₁ + x.markTTL))
    (hbegun : x.spec.algo.or ≠ .tokenBucket → x.windowID ≤ t₁ / windowMs x.spec)
    (hbucket : x.spec.algo.or = .tokenBucket → t₂ < t₁ + x.markTTL)
    (hk : k ≠ retKey (x.ref.key x.spec.algo) dedupe) : (r.returnLua t₂ inp).strs k = r.strs k := by
  have hne : inp.dedupeKey ≠ "" := by
    rw [hf.dedupeKey]
    exact retKey_ne_empty _ _
  rw [Redis.returnLua_of_dedupe hne, hf.dedupeKey]
  split_ifs with hfound
  · rfl
  · have hgone : t₁ + x.markTTL ≤ t₂ := not_lt.mp fun hlt => hfound (hlasts.isSome hlt)
    have halgo : x.spec.algo.or ≠ .tokenBucket := fun ha => absurd (hbucket ha) (not_lt.mpr hgone)
    rw [markTTL_window halgo] at hgone
    have hover := window_over (hbegun halgo) hgone
    unfold Redis.applyReturn Redis.returnOwn
    simp only [hf.parentKey, hf.algo, hf.win, hf.wid, halgo, hover, ne_eq, not_true_eq_false, false_and, if_false]
    exact Redis.strs_set_of_ne hk _ _

theorem Redis.strs_ret_again (hd : dedupe ≠ "") :
    ∀ (xs : List Ret) {r : Redis},
      (∀ x ∈ reached dedupe xs, r.Lasts (retKey (x.ref.key x.spec.algo) dedupe) (t₁ + x.markTTL)) →
      (∀ x ∈ xs, x.parent = none) →
      (∀ x ∈ xs, x.spec.algo.or ≠ .tokenBucket → x.windowID ≤ t₁ / windowMs x.spec) →
      (∀ x ∈ xs, x.spec.algo.or = .tokenBucket → t₂ < t₁ + x.markTTL) →
      (∀ x ∈ xs, k ≠ retKey (x.ref.key x.spec.algo) dedupe) →
      (∀ x ∈ xs, ∀ y ∈ retKeys dedupe xs, y.text = retKey (x.ref.key x.spec.algo) dedupe → y.isReturned = true) →
      (r.ret t₂ dedupe xs).2.strs k = r.strs k := by
  intro xs
  induction xs with
  | nil => exact fun _ _ _ _ _ _ => rfl
  | cons x xs ih =>
    intro r hlasts hpar hbegun hbucket hk hkeys
    unfold reached at hlasts
    unfold retKeys at hkeys
    cases hp : prepareReturn x dedupe with
    | error e => rw [Redis.ret, hp]
    | ok inp =>
      rw [hp] at hlasts hkeys
      obtain ⟨hlast, hlasts⟩ := List.forall_mem_cons.mp hlasts
      obtain ⟨hpx, hpar⟩ := List.forall_mem_cons.mp hpar
      obtain ⟨hbx, hbegun⟩ := List.forall_mem_cons.mp hbegun
      obtain ⟨hbu, hbucket⟩ := List.forall_mem_cons.mp hbucket
      obtain ⟨hkx, hk⟩ := List.forall_mem_cons.mp hk
      have hflat := Ret.flat_of_prepareReturn hp hd hpx
      have hown : ∀ z ∈ reached dedupe xs, (r.returnLua t₂ inp).Lasts (retKey (z.ref.key z.spec.algo) dedupe) (t₁ + z.markTTL) := by
        intro z hz
        have hzx : z ∈ x :: xs := List.mem_cons_of_mem x (mem_of_reached xs hz)
        refine (hlasts z hz).returnLua (fun y hy => hkeys z hzx y (List.mem_append_left _ hy)) fun _ => ?_
        rw [hflat.dedupeTTL]
        exact (markTTL_pos x).le
      rw [Redis.ret_cons_ok hp, ih hown hpar hbegun hbucket hk, Redis.strs_returnLua_again hflat hlast hbx hbu hkx]
      intro z hz y hy
      exact hkeys z (List.mem_cons_of_mem x hz) y (List.mem_append_right _ hy)

end

namespace Decide

variable {env : HubEnv} {cfg : GatewayConfig} {rep : Replica} {t : ReservationToken} {actual : ℤ}

theorem settleDedupe_ne_empty (rep : Replica) (t : ReservationToken) : settleDedupe rep t ≠ "" := by
  unfold settleDedupe returnDedupe settleRequest
  intro h
  split_ifs at h with hd
  · simpa using congrArg String.toList hd
  · simpa using congrArg String.toList h

/-- A descriptor limit has no enclosing quota. -/
theorem settleReturns_parent {x : Ret} (h : x ∈ settleReturns env cfg t actual) : x.parent = none := by
  unfold settleReturns at h
  obtain ⟨y, hy, hx⟩ := List.mem_filterMap.mp h
  obtain ⟨it, -, hit⟩ := List.mem_filterMap.mp hy
  have hscope : y.scope = scope := by
    unfold settleItem at hit
    dsimp only at hit
    split_ifs at hit
    rw [← Option.some.inj hit]
  unfold resolveReturn Gate.resolve resolveDescriptor at hx
  rw [hscope] at hx
  split at hx
  next => cases hx
  next res hres =>
    rw [if_pos rfl] at hres
    split_ifs at hres
    split at hres
    next => cases hres
    next =>
      rw [← Except.ok.inj hres] at hx
      rw [← Option.some.inj hx]
      rfl

/-- An accepted settlement is a call of the hub; one that returns nothing is not made. -/
theorem settle_snd {σ : Type} {deliver : σ → ReturnLeasesRequest → Except Err Unit × σ} {edgeID : String} {clock : ℤ} {s : σ}
    (h : ¬ t.exp < clock / 1000)
    (hnil : (settleRequest edgeID t actual).returns = [] → (deliver s (settleRequest edgeID t actual)).2 = s) :
    (settle deliver edgeID clock s t actual).2 = (deliver s (settleRequest edgeID t actual)).2 := by
  unfold settle
  rw [if_neg h]
  dsimp only
  split_ifs with hempty
  · exact (hnil hempty).symm
  · split <;> simp_all

theorem settleReturns_nil {edgeID : String} (h : (settleRequest edgeID t actual).returns = []) :
    settleReturns env cfg t actual = [] := by
  unfold settleReturns
  rw [show t.items.filterMap (settleItem t.domain actual) = [] from h]
  rfl

end Decide

open Decide in
theorem Redis.settle_snd {env : HubEnv} {cfg : GatewayConfig} {rep : Replica} {t : ReservationToken} {actual clock now : ℤ}
    {r : Redis} (h : ¬ t.exp < clock / 1000) :
    (r.settle env cfg rep clock now t actual).2 = (r.ret now (settleDedupe rep t) (settleReturns env cfg t actual)).2 := by
  refine Decide.settle_snd h fun hnil => ?_
  show (r.ret now (settleDedupe rep t) (settleReturns env cfg t actual)).2 = r
  rw [settleReturns_nil hnil]
  rfl

open Decide in
theorem Mem.settle_snd {env : HubEnv} {cfg : GatewayConfig} {rep : Replica} {t : ReservationToken} {actual clock now : ℤ}
    {m : Mem} (h : ¬ t.exp < clock / 1000) :
    (m.settle env cfg rep clock now t actual).2 = (m.ret now (settleDedupe rep t) (settleReturns env cfg t actual)).2 := by
  refine Decide.settle_snd h fun hnil => ?_
  show (m.ret now (settleDedupe rep t) (settleReturns env cfg t actual)).2 = m
  rw [settleReturns_nil hnil]
  rfl

namespace Decide

/-- A settlement that has been delivered changes nothing when it is delivered again, as long as the
mark of every token bucket is kept. -/
theorem settled_once (env : HubEnv) (cfg : GatewayConfig) (rep : Replica) (t : ReservationToken) (actual : ℤ) (r : Redis)
    (cs : List LedgerCall) {clock₁ clock₂ t₁ t₂ : ℤ} (hvalid₁ : ¬ t.exp < clock₁ / 1000) (hvalid₂ : ¬ t.exp < clock₂ / 1000)
    (hfresh : ∀ x ∈ settleReturns env cfg t actual, r.strs (settleMark rep t x) = none)
    (hbegun : ∀ x ∈ settleReturns env cfg t actual, x.spec.algo.or ≠ .tokenBucket → x.windowID ≤ t₁ / windowMs x.spec)
    (hone : ∀ x ∈ settleReturns env cfg t actual, ∀ y ∈ settleReturns env cfg t actual,
      settleMark rep t y = settleMark rep t x → y.spec = x.spec)
    (hspares : ∀ c ∈ settleCall env cfg rep t₁ t actual :: cs,
      c.SparesMarks ((settleReturns env cfg t actual).map (settleMark rep t)))
    (hbucket : ∀ x ∈ settleReturns env cfg t actual, x.spec.algo.or = .tokenBucket → t₂ < t₁ + x.markTTL) :
    ∀ k, k ∉ (settleReturns env cfg t actual).map (settleMark rep t) →
      ((((r.settle env cfg rep clock₁ t₁ t actual).2.execAll cs).settle env cfg rep clock₂ t₂ t actual).2).strs k =
        ((r.settle env cfg rep clock₁ t₁ t actual).2.execAll cs).strs k := by
  intro k hk
  have hd := settleDedupe_ne_empty rep t
  obtain ⟨hfirst, hcalls⟩ := List.forall_mem_cons.mp hspares
  have hmark : ∀ x ∈ settleReturns env cfg t actual,
      retKey (x.ref.key x.spec.algo) (settleDedupe rep t) ∈ (settleReturns env cfg t actual).map (settleMark rep t) :=
    fun x hx => List.mem_map_of_mem hx
  have hown : ∀ x ∈ settleReturns env cfg t actual, ∀ y ∈ retKeys (settleDedupe rep t) (settleReturns env cfg t actual),
      y.text = retKey (x.ref.key x.spec.algo) (settleDedupe rep t) → y.isReturned = true :=
    fun x hx y hy hxy => hfirst y hy (hxy ▸ hmark x hx)
  rw [Redis.settle_snd hvalid₁, Redis.settle_snd hvalid₂]
  refine Redis.strs_ret_again hd _ (fun x hx => ?_) (fun x hx => settleReturns_parent hx) hbegun hbucket
    (fun x hx hkx => hk (hkx ▸ hmark x hx)) hown
  have hmem := mem_of_reached _ hx
  refine Redis.Lasts.execs cs ?_ fun c hc y hy hxy => hcalls c hc y hy (hxy ▸ hmark x hmem)
  exact Redis.lasts_of_ret hd _ hx (hfresh x hmem) (fun y hy => settleReturns_parent hy) (hone x hmem) (hown x hmem)

end Decide

namespace Sample

/-- A user may make ten requests a second and a hundred a minute. -/
def burstAndMinute : Config.File :=
  { Config.ordersFile { requests := 100 } with descriptors := [⟨"shop", [
      .mk "user" "" (some ⟨.tokenBucket, 0, 0, 10, 10⟩) "" [],
      .mk "minute" "" (some ⟨.unset, 100, 60 * second, 0, 0⟩) "" []]⟩] }

def shopConfig : GatewayConfig := (Config.compile burstAndMinute).limiting

/-- Five tokens of each were reserved. -/
def fiveReserved : Decide.ReservationToken :=
  ⟨"shop", [⟨"user", "vu1", 0, 5⟩, ⟨"minute", "vu1", 0, 5⟩], 600, "n1"⟩

def replica : Decide.Replica := ⟨"", "d1"⟩

def userBucket : Ref := ⟨Decide.scope, "shop", "user", "vu1", ""⟩

/-- Ten tokens of the bucket. -/
def takeTen (now : ℤ) : LedgerCall :=
  ⟨now, .grant anyOrder userBucket ⟨.tokenBucket, 10, 0, 10⟩ { noArgs with requested := 10 }⟩

/-- The ledger when the token, of which one was used, has been settled and another ten are taken. -/
def settledOnce (next : ℤ) : Redis :=
  (((Redis.new.execAll [takeTen 0]).settle env shopConfig replica 100 100 fiveReserved 1).2).execAll [takeTen next]

end Sample

open Sample Decide

/-- The bucket's mark is gone two seconds after the settlement, and a repeat three seconds after it returns the
tokens again. -/
theorem settled_twice :
    Config.Accepted Config.plainLibrary burstAndMinute ∧
      ((settledOnce 3000).get 3100 (userBucket.key .tokenBucket) = some 4000 ∧
        (((settledOnce 3000).settle env shopConfig replica 3100 3100 fiveReserved 1).2).get 3100 (userBucket.key .tokenBucket) =
          some 3600) := by
  refine ⟨by decide +kernel, by decide +kernel, by decide +kernel⟩

/-- A repeat within the two seconds does not. -/
theorem settled_once_two_seconds :
    (((settledOnce 1000).settle env shopConfig replica 2000 2000 fiveReserved 1).2).strs (userBucket.key .tokenBucket) =
      (settledOnce 1000).strs (userBucket.key .tokenBucket) := by
  have hfresh : ∀ x ∈ settleReturns env shopConfig fiveReserved 1,
      (Redis.new.execAll [takeTen 0]).strs (settleMark replica fiveReserved x) = none := by decide +kernel
  have hone : ∀ x ∈ settleReturns env shopConfig fiveReserved 1, ∀ y ∈ settleReturns env shopConfig fiveReserved 1,
      settleMark replica fiveReserved y = settleMark replica fiveReserved x → y.spec = x.spec := by decide +kernel
  have hspares : ∀ c ∈ settleCall env shopConfig replica 100 fiveReserved 1 :: [takeTen 1000],
      c.SparesMarks ((settleReturns env shopConfig fiveReserved 1).map (settleMark replica fiveReserved)) := by decide +kernel
  have hnot : userBucket.key .tokenBucket ∉ (settleReturns env shopConfig fiveReserved 1).map (settleMark replica fiveReserved) := by
    decide +kernel
  exact settled_once env shopConfig replica fiveReserved 1 (Redis.new.execAll [takeTen 0]) [takeTen 1000] (by decide)
    (by decide) hfresh (by decide +kernel) hone hspares (by decide +kernel) _ hnot

end Gate
