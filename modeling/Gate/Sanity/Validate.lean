import Gate.Spec.Validate

/-! What a file that passes `validate` is like. Each check of the validator is inverted once;
`Accepted.sound` puts them together. -/

namespace Gate.Config

@[simp] theorem report_eq_nil {bad : Prop} [Decidable bad] {path msg : String} :
    report bad path msg = [] ↔ ¬ bad := by
  unfold report
  split_ifs <;> simp_all

@[simp] theorem optional_eq_nil {α : Type} {check : α → List Problem} {o : Option α} :
    optional check o = [] ↔ ∀ a, o = some a → check a = [] := by
  cases o <;> simp [optional]

/-! ### Budgets and algorithms -/

/-- The size of a limit fits its algorithm. -/
def Budget (algo : Algo) (requests : UInt32) (rate : ℚ) (burst : UInt32) : Prop :=
  if algo = .tokenBucket then 0 < rate ∧ burst ≠ 0 else requests ≠ 0

theorem Budget.of_nil {path : String} {algo : Algo} {requests burst : UInt32} {rate : ℚ}
    (h : validateBudget path algo requests rate burst = []) : Budget algo requests rate burst := by
  unfold validateBudget at h
  unfold Budget
  split_ifs at h ⊢ with ha
  · simp only [List.append_eq_nil_iff, report_eq_nil, not_le] at h
    exact ⟨h.1.1, h.1.2⟩
  · simp only [List.append_eq_nil_iff, report_eq_nil] at h
    exact h.1

theorem validateAlgorithm_eq_nil {lib : Library} {path : String} {a : Algo} :
    validateAlgorithm lib path a = [] ↔ a.valid = true := by
  rw [validateAlgorithm, report_eq_nil]
  cases a with
  | other name => simp [algorithms, Algo.valid]
  | _ => simp [algorithms, Algo.valid]

/-! ### Names -/

/-- A character a service, limit or tier name may have. -/
def NameChar (c : Char) : Prop := isAlnum c = true ∨ c = '.' ∨ c = '_' ∨ c = '-'

theorem matchName_chars {first rest : Char → Bool} {most : Option ℕ} {s : String} {P : Char → Prop}
    (h : matchName first rest most s = true) (hf : ∀ c, first c = true → P c) (hr : ∀ c, rest c = true → P c) :
    s ≠ "" ∧ ∀ c ∈ s.toList, P c := by
  unfold matchName at h
  split at h
  · cases h
  · rename_i c cs hs
    simp only [Bool.and_eq_true, List.all_eq_true] at h
    refine ⟨?_, ?_⟩
    · rintro rfl
      simp at hs
    · intro x hx
      rw [hs] at hx
      rcases List.mem_cons.mp hx with rfl | hx
      · exact hf _ h.1.1
      · exact hr x (h.1.2 x hx)

theorem segmentRe_chars {s : String} (h : segmentRe s = true) : s ≠ "" ∧ ∀ c ∈ s.toList, NameChar c := by
  refine matchName_chars h (fun c hc => .inl hc) (fun c hc => ?_)
  simp only [Bool.or_eq_true, decide_eq_true_eq] at hc
  unfold NameChar
  tauto

theorem nameRe_chars {s : String} (h : nameRe s = true) : s ≠ "" ∧ ∀ c ∈ s.toList, NameChar c := by
  refine matchName_chars h (fun c hc => .inl ?_) (fun c hc => ?_)
  · simp only [Bool.or_eq_true] at hc
    unfold isAlnum
    rcases hc with hc | hc <;> simp [hc]
  · simp only [Bool.or_eq_true, decide_eq_true_eq] at hc
    unfold NameChar isAlnum
    rcases hc with (hc | hc) | hc <;> simp [hc]

theorem tierRe_chars {s : String} (h : tierRe s = true) : s ≠ "" ∧ ∀ c ∈ s.toList, NameChar c := by
  refine matchName_chars h (fun c hc => .inl hc) (fun c hc => ?_)
  simp only [Bool.or_eq_true, decide_eq_true_eq] at hc
  unfold NameChar
  tauto

/-- The first character of a tier name is no underscore. -/
theorem tierRe_ne_safety {s : String} (h : tierRe s = true) : s ≠ safetyTierID := by
  rintro rfl
  exact absurd h (by decide)

theorem isAlnum_ne {c d : Char} (h : isAlnum c = true) (hd : isAlnum d = false) : c ≠ d := by
  rintro rfl
  rw [h] at hd
  cases hd

/-- No name has a space, a slash, a colon or a brace in it. -/
theorem NameChar.plain {c : Char} (h : NameChar c) :
    isSpace c = false ∧ c ≠ '/' ∧ c ≠ ':' ∧ c ≠ '\x7d' := by
  rcases h with h | rfl | rfl | rfl
  · refine ⟨?_, isAlnum_ne h (by decide), isAlnum_ne h (by decide), isAlnum_ne h (by decide)⟩
    -- letters and digits are below 0x7b and at least 0x30
    have hn : 48 ≤ c.toNat ∧ c.toNat ≤ 122 := by
      simp only [isAlnum, isLower, isUpper, isDigit, Bool.or_eq_true, Bool.and_eq_true,
        decide_eq_true_eq, Char.le_def, UInt32.le_iff_toNat_le] at h
      have e : c.toNat = c.val.toNat := rfl
      have h₁ : 'a'.val.toNat = 97 := rfl
      have h₂ : 'z'.val.toNat = 122 := rfl
      have h₃ : 'A'.val.toNat = 65 := rfl
      have h₄ : 'Z'.val.toNat = 90 := rfl
      have h₅ : '0'.val.toNat = 48 := rfl
      have h₆ : '9'.val.toNat = 57 := rfl
      omega
    unfold isSpace
    simp only [List.mem_cons, List.not_mem_nil, or_false, Bool.or_eq_false_iff, decide_eq_false_iff_not,
      Bool.and_eq_false_iff]
    omega
  · decide
  · decide
  · decide

theorem trimSpace_of_plain {s : String} (h : ∀ c ∈ s.toList, isSpace c = false) : trimSpace s = s := by
  have keep : ∀ l : List Char, (∀ c ∈ l, isSpace c = false) → l.dropWhile isSpace = l := by
    intro l hl
    cases l with
    | nil => rfl
    | cons c l => rw [List.dropWhile_cons_of_neg (by simp [hl c])]
  unfold trimSpace
  rw [keep _ h, keep _ (by simpa using h), List.reverse_reverse, String.ofList_toList]

/-! ### Descriptors -/

def DescriptorEntry.key : DescriptorEntry → String | .mk k _ _ _ _ => k
def DescriptorEntry.value : DescriptorEntry → String | .mk _ v _ _ _ => v
def DescriptorEntry.limit : DescriptorEntry → Option DescriptorLimit | .mk _ _ l _ _ => l
def DescriptorEntry.entries : DescriptorEntry → List DescriptorEntry | .mk _ _ _ _ es => es

structure DescriptorLimit.Sound (l : DescriptorLimit) : Prop where
  algorithm : l.algorithm.valid = true
  budget : Budget l.algorithm l.requests l.rate l.burst
  window : l.algorithm = .tokenBucket ∨ second ≤ l.window

/-- One level of a descriptor tree, and those below it. -/
inductive Level : List DescriptorEntry → Prop where
  | mk {es : List DescriptorEntry}
    (named : ∀ e ∈ es, e.key ≠ "" ∧ hasSeparator (e.key ++ e.value) = false)
    (distinct : (es.map fun e => (e.key, e.value)).Nodup)
    (limits : ∀ e ∈ es, ∀ l, e.limit = some l → l.Sound)
    (deeper : ∀ e ∈ es, Level e.entries) : Level es

theorem DescriptorLimit.Sound.of_nil {lib : Library} {ep : String} {l : DescriptorLimit}
    (h : validateDescriptorLimit lib ep l = []) : l.Sound := by
  simp only [validateDescriptorLimit, List.append_eq_nil_iff, validateAlgorithm_eq_nil, report_eq_nil] at h
  refine ⟨h.1.1, .of_nil h.1.2, ?_⟩
  have hw := h.2
  by_cases ha : l.algorithm = .tokenBucket
  · exact .inl ha
  · exact .inr (by simpa [ha] using hw)

theorem lookup_eq_none {β : Type} {l : List (String × β)} {k : String} :
    l.lookup k = none ↔ ∀ p ∈ l, k ≠ p.1 := by
  rw [List.lookup_eq_none_iff]
  simp

theorem validateEntryName_nil {path ep : String} {seen : List (String × ℕ)} {key value : String}
    (h : validateEntryName path ep seen key value = []) :
    key ≠ "" ∧ hasSeparator (key ++ value) = false ∧ ∀ p ∈ seen, key ++ "=" ++ value ≠ p.1 := by
  unfold validateEntryName at h
  split_ifs at h with h₁ h₂
  split at h
  · cases h
  · rename_i hn
    exact ⟨h₁, by simpa using h₂, lookup_eq_none.mp hn⟩

mutual

theorem level_of_entry {lib : Library} {ep : String} :
    ∀ e : DescriptorEntry, validateEntry lib ep e = [] →
      (∀ l, e.limit = some l → l.Sound) ∧ Level e.entries
  | .mk key value limit mode entries => by
    intro h
    simp only [validateEntry, List.append_eq_nil_iff] at h
    refine ⟨fun l hl => ?_, (level_of_nil entries h.2).1⟩
    subst hl
    exact .of_nil h.1.2

theorem level_of_nil {lib : Library} {path : String} {seen : List (String × ℕ)} {i : ℕ} :
    ∀ es : List DescriptorEntry, validateEntries lib path seen i es = [] →
      Level es ∧ ∀ e ∈ es, ∀ p ∈ seen, e.key ++ "=" ++ e.value ≠ p.1
  | [] => by
    intro _
    exact ⟨.mk (by simp) (by simp) (by simp) (by simp), by simp⟩
  | .mk key value limit mode entries :: es => by
    intro h
    simp only [validateEntries, List.append_eq_nil_iff] at h
    obtain ⟨⟨hname, hentry⟩, hrest⟩ := h
    obtain ⟨hk, hs, hfresh⟩ := validateEntryName_nil hname
    obtain ⟨hlim, hdeep⟩ := level_of_entry (.mk key value limit mode entries) hentry
    obtain ⟨⟨named, distinct, limits, deeper⟩, hseen⟩ := level_of_nil es hrest
    have hadd : seeEntry seen i key value = (key ++ "=" ++ value, i) :: seen := by
      simp [seeEntry, hk, hs]
    rw [hadd] at hseen
    refine ⟨.mk ?_ ?_ ?_ ?_, ?_⟩
    · exact List.forall_mem_cons.mpr ⟨⟨hk, hs⟩, named⟩
    · refine List.nodup_cons.mpr ⟨fun hmem => ?_, distinct⟩
      obtain ⟨e, he, heq⟩ := List.mem_map.mp hmem
      obtain ⟨h₁, h₂⟩ := Prod.mk.inj heq
      exact hseen e he _ (List.mem_cons_self ..) (by rw [h₁, h₂]; rfl)
    · exact List.forall_mem_cons.mpr ⟨hlim, limits⟩
    · exact List.forall_mem_cons.mpr ⟨hdeep, deeper⟩
    · exact List.forall_mem_cons.mpr ⟨hfresh, fun e he p hp => hseen e he p (List.mem_cons_of_mem _ hp)⟩

end

theorem domains_of_nil {lib : Library} {seen : List (String × ℕ)} {i : ℕ} {ds : List DescriptorDomain}
    (h : validateDomains lib seen i ds = []) :
    (ds.map (·.domain)).Nodup ∧ (∀ d ∈ ds, d.domain ≠ "" ∧ Level d.entries) ∧
      ∀ d ∈ ds, ∀ p ∈ seen, d.domain ≠ p.1 := by
  induction ds generalizing seen i with
  | nil => simp
  | cons d ds ih =>
    simp only [validateDomains, List.append_eq_nil_iff] at h
    obtain ⟨⟨⟨hname, -⟩, hentries⟩, hrest⟩ := h
    obtain ⟨hnodup, hall, hseen⟩ := ih hrest
    have hd : d.domain ≠ "" ∧ ∀ p ∈ seen, d.domain ≠ p.1 := by
      split_ifs at hname with h₁
      split at hname
      · cases hname
      · rename_i hn
        exact ⟨h₁, lookup_eq_none.mp hn⟩
    refine ⟨?_, ?_, ?_⟩
    · refine List.nodup_cons.mpr ⟨fun hmem => ?_, hnodup⟩
      obtain ⟨e, he, heq⟩ := List.mem_map.mp hmem
      exact hseen e he _ (List.mem_cons_self ..) heq
    · exact List.forall_mem_cons.mpr ⟨⟨hd.1, (level_of_nil _ hentries).1⟩, hall⟩
    · exact List.forall_mem_cons.mpr ⟨hd.2, fun e he p hp => hseen e he p (List.mem_cons_of_mem _ hp)⟩

/-! ### Limits -/

/-- A tier of the limits, with its settings. -/
structure Tier.Sound (l : Limits) (name : String) (t : Tier) : Prop where
  name : tierRe name = true
  algorithm : t.algorithm.valid = true
  budget : Budget (orAlgo t.algorithm l.algorithm) t.requests t.rate t.burst
  costs : ∀ m c, t.cost.lookup m = some c → c ≠ 0

theorem Tier.Sound.of_nil {lib : Library} {path : String} {l : Limits} {name : String} {t : Tier}
    (ht : l.tiers.lookup name = some t) (h : validateTier lib path l name = []) : t.Sound l name := by
  simp only [validateTier, ht, Option.getD_some, List.append_eq_nil_iff, report_eq_nil,
    Bool.not_eq_false, validateAlgorithm_eq_nil, List.flatMap_eq_nil_iff] at h
  refine ⟨h.1.1.1, h.1.2, .of_nil h.1.1.2, fun m c hc => ?_⟩
  exact (h.2 ⟨m, c⟩ (AList.mem_lookup_iff.mp hc)).2

structure ExtraLimit.Sound (a : ExtraLimit) : Prop where
  name : nameRe a.name = true
  per : a.per ∈ subjects
  algorithm : a.algorithm.valid = true
  window : a.window = 0 ∨ second ≤ a.window
  budget : Budget a.algorithm a.requests a.rate a.burst

theorem window_of_report {w : ℤ} (h : ¬ (w ≠ 0 ∧ w < second)) : w = 0 ∨ second ≤ w := by
  by_cases hw : w = 0
  · exact .inl hw
  · exact .inr (not_lt.mp fun hlt => h ⟨hw, hlt⟩)

theorem also_of_nil {lib : Library} {path : String} {seen : List (String × Option ℕ)} {i : ℕ}
    {as : List ExtraLimit} (h : validateAlso lib path seen i as = []) :
    (∀ a ∈ as, a.Sound) ∧ (as.map (·.name)).Nodup ∧ ∀ a ∈ as, ∀ p ∈ seen, a.name ≠ p.1 := by
  induction as generalizing seen i with
  | nil => simp
  | cons a as ih =>
    simp only [validateAlso, List.append_eq_nil_iff] at h
    obtain ⟨⟨hname, hextra⟩, hrest⟩ := h
    obtain ⟨hall, hnodup, hseen⟩ := ih hrest
    have hn : nameRe a.name = true ∧ ∀ p ∈ seen, a.name ≠ p.1 := by
      unfold validateExtraName at hname
      split_ifs at hname with h₁
      split at hname
      · cases hname
      · cases hname
      · rename_i hn
        exact ⟨by simpa using h₁, lookup_eq_none.mp hn⟩
    have ha : a.Sound := by
      simp only [validateExtra, List.append_eq_nil_iff, report_eq_nil, not_not,
        validateAlgorithm_eq_nil] at hextra
      exact ⟨hn.1, hextra.1.1.1.1, hextra.1.1.1.2, window_of_report hextra.1.2, .of_nil hextra.2⟩
    refine ⟨List.forall_mem_cons.mpr ⟨ha, hall⟩, ?_, ?_⟩
    · refine List.nodup_cons.mpr ⟨fun hmem => ?_, hnodup⟩
      obtain ⟨b, hb, heq⟩ := List.mem_map.mp hmem
      exact hseen b hb _ (List.mem_cons_self ..) heq
    · exact List.forall_mem_cons.mpr ⟨hn.2, fun b hb p hp => hseen b hb p (List.mem_cons_of_mem _ hp)⟩

structure Global.Sound (l : Limits) (g : Global) : Prop where
  floors : ∀ e ∈ g.floors.entries, 0 ≤ e.2 ∧ e.2 ≤ 1
  named : ∀ e ∈ g.floors.entries, nameRe e.1 = true
  sum : (g.floors.entries.map (·.2)).sum ≤ 1
  fixed : ∀ name t, l.tiers.lookup name = some t →
    orAlgo t.algorithm l.algorithm = .unset ∨ orAlgo t.algorithm l.algorithm = .fixedWindow
  org : l.org = none

theorem mem_sortedTierNames {m : GoMap Tier} {name : String} : name ∈ sortedTierNames m ↔ name ∈ m := by
  rw [sortedTierNames, List.mem_insertionSort, AList.mem_keys]

theorem Global.Sound.of_nil {lib : Library} {path : String} {l : Limits} {g : Global}
    (h : validateGlobal lib path l (sortedTierNames l.tiers) g = []) : g.Sound l := by
  simp only [validateGlobal, List.append_eq_nil_iff, report_eq_nil, List.flatMap_eq_nil_iff,
    not_not, not_lt] at h
  obtain ⟨⟨⟨⟨hfloors, -⟩, hsum⟩, htiers⟩, horg⟩ := h
  refine ⟨fun e he => ?_, fun e he => ?_, hsum, fun name t ht => ?_, horg⟩
  · have := (hfloors e he).2
    push Not at this
    exact this
  · simpa using (hfloors e he).1
  · have hm : name ∈ sortedTierNames l.tiers := by
      rw [mem_sortedTierNames, ← AList.lookup_isSome, ht]
      rfl
    have hs := htiers name hm
    rw [ht, Option.getD_some] at hs
    tauto

structure Limits.Sound (l : Limits) : Prop where
  window : 0 < l.window
  algorithm : l.algorithm.valid = true
  nonempty : l.tiers.entries ≠ []
  tiers : ∀ name t, l.tiers.lookup name = some t → t.Sound l name
  defaultTier : l.defaultTier = "" ∨ l.defaultTier ∈ l.tiers
  fallback : ∀ fb, l.whenHubUnavailable = some fb → fb.allow ≠ 0
  leaseSize : 0 ≤ l.leaseSize
  org : ∀ o, l.org = some o → o.requests ≠ 0 ∧ (o.window = 0 ∨ second ≤ o.window)
  also : ∀ a ∈ l.also, a.Sound
  alsoNames : (l.also.map (·.name)).Nodup
  apart : ∀ a ∈ l.also, a.name ∉ l.tiers
  global : ∀ g, l.global = some g → g.Sound l

theorem Limits.Sound.of_nil {lib : Library} {path : String} {l : Limits}
    (h : validateLimits lib path l = []) : l.Sound := by
  simp only [validateLimits, validateV3Limits, List.append_eq_nil_iff, report_eq_nil,
    optional_eq_nil, List.flatMap_eq_nil_iff, validateAlgorithm_eq_nil, not_le, not_lt] at h
  obtain ⟨⟨⟨⟨⟨⟨hwin, hne⟩, htiers⟩, hdef⟩, hfb⟩, hlease⟩,
    ⟨⟨⟨⟨⟨⟨halgo, -⟩, -⟩, horg⟩, halso⟩, hglobal⟩, -⟩⟩ := h
  obtain ⟨hall, hnodup, hseen⟩ := also_of_nil halso
  refine ⟨hwin, halgo, hne, ?_, ?_, hfb, hlease, ?_, hall, hnodup, ?_, ?_⟩
  · intro name t ht
    refine .of_nil ht (htiers name ?_)
    rw [mem_sortedTierNames, ← AList.lookup_isSome, ht]
    rfl
  · by_cases hd : l.defaultTier = ""
    · exact .inl hd
    · refine .inr (AList.lookup_isSome.mp (Option.isSome_iff_ne_none.mpr fun hn => hdef ⟨hd, hn⟩))
  · intro o ho
    have := horg o ho
    simp only [validateOrg, List.append_eq_nil_iff, report_eq_nil] at this
    exact ⟨this.1, window_of_report this.2⟩
  · intro a ha hmem
    refine hseen a ha (a.name, none) (List.mem_map.mpr ⟨a.name, ?_, rfl⟩) rfl
    exact mem_sortedTierNames.mpr hmem
  · exact fun g hg => .of_nil (hglobal g hg)

/-! ### Services -/

structure Service.Sound (lib : Library) (s : Service) : Prop where
  name : nameRe s.name = true
  segments : ∃ g, s.segments = [g, s.name] ∧ segmentRe g = true
  upstream : ∃ u, upstreamURL lib (s.upstreams.headD s.upstream) = some u
  single : s.upstreams ≠ [] → s.upstream = ""
  auth : ∀ a, s.auth = some a → a.type ∈ authTypes ∧ (a.type ≠ "jwt" → a.jwt = none)
  limits : s.limits.Sound
  cache : ∀ c, s.cache = some c → 0 < c.ttl
  retries : ∀ r, s.retries = some r → 1 ≤ r.attempts ∧ ∀ code ∈ r.statuses, 100 ≤ code ∧ code ≤ 599
  sampling : ∀ a r, s.analytics = some a → a.sampleRate = some r → 0 ≤ r ∧ r ≤ 1
  upstreamError : ∀ e, s.onUpstreamError = some e → e.mode ∈ upstreamModes

theorem Service.grouped_of_sound {lib : Library} {s : Service} (h : s.Sound lib) : s.grouped := by
  obtain ⟨g, hs, -⟩ := h.segments
  refine ⟨fun hp => ?_, by rw [hs]; rfl, h.limits.window⟩
  rw [segments, hp, show trimSlashes "" = "" by decide, show Decide.split '/' "" = [""] by decide] at hs
  cases hs

theorem upstream_of_nil {lib : Library} {path : String} {s : Service}
    (h : validateUpstreams lib path s = []) :
    (∃ u, upstreamURL lib (s.upstreams.headD s.upstream) = some u) ∧ (s.upstreams ≠ [] → s.upstream = "") := by
  unfold validateUpstreams at h
  split_ifs at h with h₁ h₂ h₃
  · simp at h
  · simp only [List.append_eq_nil_iff] at h
    obtain ⟨⟨⟨-, hrep⟩, -⟩, -⟩ := h
    have hone : s.upstreams ≠ [] → s.upstream = "" := fun hu => by
      by_contra hs
      exact h₂ ⟨hs, hu⟩
    refine ⟨?_, hone⟩
    cases hu : s.upstreams with
    | nil =>
      have hs : s.upstream ≠ "" := fun hs => h₁ ⟨hs, hu⟩
      exact Option.ne_none_iff_exists'.mp fun hn => h₃ ⟨hs, hn⟩
    | cons raw rest =>
      rw [hu, validateReplicas] at hrep
      split at hrep
      · cases hrep
      · rename_i u hg
        exact ⟨u, hg⟩

theorem auth_of_nil {lib : Library} {path : String} {s : Service} (h : validateAuth lib path s = []) :
    ∀ a, s.auth = some a → a.type ∈ authTypes ∧ (a.type ≠ "jwt" → a.jwt = none) := by
  intro a ha
  rw [validateAuth, ha] at h
  simp only at h
  split_ifs at h with h₁ h₂ h₃
  all_goals
    simp only [List.append_eq_nil_iff, report_eq_nil, not_and_or, not_not, ne_eq] at h
    exact ⟨h₁, fun hn => h.2.resolve_left hn⟩

theorem statuses_of_nil {path : String} {i : ℕ} {codes : List ℤ} (h : validateStatuses path i codes = []) :
    ∀ code ∈ codes, 100 ≤ code ∧ code ≤ 599 := by
  induction codes generalizing i with
  | nil => simp
  | cons c cs ih =>
    simp only [validateStatuses, List.append_eq_nil_iff, report_eq_nil] at h
    exact List.forall_mem_cons.mpr ⟨by omega, ih h.2⟩

theorem path_of_nil {lib : Library} {path : String} {seen : Seen} {s : Service}
    (hn : s.name ≠ "") (h : validatePath lib path seen s = []) :
    ∃ g, s.segments = [g, s.name] ∧ segmentRe g = true := by
  unfold validatePath at h
  dsimp only at h
  split_ifs at h with h₁ h₂ h₃
  rw [Bool.not_eq_false, Service.twoSegments] at h₂
  split at h₂
  · rename_i a b hs
    simp only [Bool.and_eq_true] at h₂
    refine ⟨a, ?_, h₂.1.2⟩
    have hb : s.last = b := by simp [Service.last, hs]
    rw [hs, ← hb]
    have : s.last = s.name := by
      by_contra hne
      exact h₃ ⟨hn, hne⟩
    rw [this]
  · cases h₂

theorem name_of_nil {lib : Library} {path : String} {seen : Seen} {s : Service}
    (h : validateName lib path seen s = []) :
    nameRe s.name = true ∧ ∀ p ∈ seen.names, s.name ≠ p.1 := by
  unfold validateName at h
  split_ifs at h with h₁ h₂
  split at h
  · cases h
  · rename_i hn
    exact ⟨by simpa using h₂, lookup_eq_none.mp hn⟩

theorem Service.Sound.of_nil {lib : Library} {seen : Seen} {i : ℕ} {s : Service}
    (h : validateService lib seen i s = []) : s.Sound lib := by
  simp only [validateService, List.append_eq_nil_iff] at h
  obtain ⟨⟨⟨⟨⟨⟨⟨⟨⟨hname, hpath⟩, hup⟩, hauth⟩, -⟩, -⟩, -⟩, hlimits⟩, -⟩, hsections⟩ := h
  simp only [validateSections, List.append_eq_nil_iff, optional_eq_nil, report_eq_nil] at hsections
  obtain ⟨⟨⟨⟨hcache, hretries⟩, -⟩, hsample⟩, herror⟩ := hsections
  obtain ⟨hn, -⟩ := name_of_nil hname
  obtain ⟨hu, hone⟩ := upstream_of_nil hup
  refine ⟨hn, path_of_nil (nameRe_chars hn).1 hpath, hu, hone, auth_of_nil hauth, .of_nil hlimits,
    ?_, ?_, ?_, ?_⟩
  · exact fun c hc => not_le.mp (hcache c hc).1
  · exact fun r hr => ⟨not_lt.mp (hretries r hr).1, statuses_of_nil (hretries r hr).2⟩
  · intro a r ha hr
    have := hsample a ha r hr
    push Not at this
    exact this
  · exact fun e he => not_not.mp (herror e he).1

/-- Two services of one file have different names and, in one group, one window and lease size. -/
def Service.Apart (s t : Service) : Prop :=
  s.name ≠ t.name ∧
    (s.group = t.group → s.limits.window = t.limits.window ∧ s.limits.leaseSize = t.limits.leaseSize)

/-- What the services before say of this one's group. -/
def Seen.Agrees (seen : Seen) (s : Service) : Prop :=
  (∀ p ∈ seen.names, s.name ≠ p.1) ∧
    ∀ info, seen.groups.lookup s.group = some info →
      info.window = s.limits.window ∧ info.lease = s.limits.leaseSize

theorem agrees_of_nil {lib : Library} {seen : Seen} {i : ℕ} {s : Service}
    (h : validateService lib seen i s = []) : seen.Agrees s := by
  have hs := Service.Sound.of_nil h
  simp only [validateService, List.append_eq_nil_iff] at h
  obtain ⟨⟨⟨⟨⟨⟨⟨⟨⟨hname, -⟩, -⟩, -⟩, -⟩, -⟩, -⟩, -⟩, hgroup⟩, -⟩ := h
  refine ⟨(name_of_nil hname).2, fun info hi => ?_⟩
  rw [validateGroup, if_pos (Service.grouped_of_sound hs), hi] at hgroup
  simp only [List.append_eq_nil_iff, report_eq_nil, not_not, ne_eq] at hgroup
  exact hgroup

/-- After a service, what is kept agrees with a later one only if the two are apart. -/
theorem Seen.Agrees.of_add {lib : Library} {seen : Seen} {i : ℕ} {s t : Service} (hs : s.Sound lib)
    (ha : seen.Agrees s) (h : (seen.add i s).Agrees t) : s.Apart t ∧ seen.Agrees t := by
  have hnames : (seen.add i s).names = (s.name, i) :: seen.names := by
    simp [Seen.add, hs.name, (nameRe_chars hs.name).1]
  have hgroups : ∀ g info, seen.groups.lookup g = some info →
      (seen.add i s).groups.lookup g = some info := by
    intro g info hg
    change List.lookup g (if s.grouped ∧ (seen.groups.lookup s.group).isNone then _ else _) = some info
    split_ifs with hc
    · have hne : (g == s.group) = false := by
        rw [beq_eq_false_iff_ne]
        rintro rfl
        simp [hg] at hc
      rw [List.lookup_cons, hne]
      exact hg
    · exact hg
  have hown : ∃ info, (seen.add i s).groups.lookup s.group = some info ∧
      info.window = s.limits.window ∧ info.lease = s.limits.leaseSize := by
    cases hl : seen.groups.lookup s.group with
    | some info => exact ⟨info, hgroups _ _ hl, ha.2 info hl⟩
    | none =>
      refine ⟨⟨i, s.limits.window, s.limits.leaseSize⟩, ?_, rfl, rfl⟩
      simp [Seen.add, Service.grouped_of_sound hs, hl]
  rw [Seen.Agrees, hnames] at h
  refine ⟨⟨(h.1 _ (List.mem_cons_self ..)).symm, fun hg => ?_⟩, ?_, fun info hi => h.2 info (hgroups _ _ hi)⟩
  · obtain ⟨info, hi, hw, hl⟩ := hown
    rw [hg] at hi
    obtain ⟨hw', hl'⟩ := h.2 info hi
    exact ⟨hw.symm.trans hw', hl.symm.trans hl'⟩
  · exact fun p hp => h.1 p (List.mem_cons_of_mem _ hp)

theorem services_of_nil {lib : Library} {seen : Seen} {i : ℕ} {ss : List Service}
    (h : validateServices lib seen i ss = []) :
    (∀ s ∈ ss, s.Sound lib) ∧ ss.Pairwise Service.Apart ∧ ∀ s ∈ ss, seen.Agrees s := by
  induction ss generalizing seen i with
  | nil => simp
  | cons s ss ih =>
    simp only [validateServices, List.append_eq_nil_iff] at h
    have hs := Service.Sound.of_nil h.1
    have ha := agrees_of_nil h.1
    obtain ⟨hall, hpair, hagree⟩ := ih h.2
    have hadd := fun t ht => Seen.Agrees.of_add hs ha (hagree t ht)
    refine ⟨List.forall_mem_cons.mpr ⟨hs, hall⟩, ?_, ?_⟩
    · exact List.pairwise_cons.mpr ⟨fun t ht => (hadd t ht).1, hpair⟩
    · exact List.forall_mem_cons.mpr ⟨ha, fun t ht => (hadd t ht).2⟩

structure File.Sound (lib : Library) (f : File) : Prop where
  services : ∀ s ∈ f.services, s.Sound lib
  apart : f.services.Pairwise Service.Apart
  domains : (f.descriptors.map (·.domain)).Nodup
  levels : ∀ d ∈ f.descriptors, d.domain ≠ "" ∧ Level d.entries
  pattern : f.runtime.hub.apiKeyPattern = "" ∨ ∃ m, lib.compileRegexp f.runtime.hub.apiKeyPattern = .ok m

theorem Accepted.sound {lib : Library} {f : File} (h : Accepted lib f) : f.Sound lib := by
  simp only [Accepted, validate, List.append_eq_nil_iff] at h
  obtain ⟨⟨⟨⟨-, hdesc⟩, hsvc⟩, hpat⟩, -⟩ := h
  obtain ⟨hnodup, hlevels, -⟩ := domains_of_nil hdesc
  obtain ⟨hall, hpair, -⟩ := services_of_nil hsvc
  refine ⟨hall, hpair, hnodup, hlevels, ?_⟩
  unfold validatePattern at hpat
  split_ifs at hpat with hp
  · exact .inl hp
  · split at hpat
    · rename_i m hm
      exact .inr ⟨m, hm⟩
    · cases hpat

/-! A file of one service, for examples. -/

/-- `scheme://host/path`, and nothing else. -/
def plainURL (s : String) : Except String URL :=
  let (scheme, rest) := s.toList.span (· ≠ ':')
  match rest with
  | ':' :: '/' :: '/' :: rest =>
    let (host, path) := rest.span (· ≠ '/')
    .ok ⟨String.ofList scheme, String.ofList host, String.ofList path⟩
  | _ => .error "missing protocol scheme"

/-- A library that reads plain URLs and compiles no pattern. -/
def plainLibrary : Library where
  parseURL := plainURL
  parseRequestURI := plainURL
  compileRegexp _ := .error "not a plain pattern"
  quote s := "\"" ++ s ++ "\""
  twoDecimals q := toString q.num ++ "/" ++ toString q.den
  durationText d := toString d ++ "ns"

/-- `/v1/orders` with one tier of 60 s windows. -/
def ordersService (t : Tier) : Service where
  name := "orders"
  «match» := ⟨"/v1/orders", [], ""⟩
  upstream := "http://orders:8080"
  limits := { window := 60 * second, tiers := AList.singleton "free" t }

def ordersFile (t : Tier) : File := { services := [ordersService t] }

example : Accepted plainLibrary (ordersFile { requests := 100 }) := by decide +kernel

end Gate.Config
