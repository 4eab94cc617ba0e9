import Gate.Sanity.Ledger
import Gate.Spec.Transfers

/-! Where a ledger keeps a quota's numbers, and what lending and crediting do to them. A
quota's key ends in the name of an algorithm; counters, allocations and loans are kept
under it with one or two more components, so no two of them share a key. -/

namespace Gate

/-- A component that cannot be mistaken for a separator or an algorithm's name. -/
def Word (s : String) : Prop := ':' ∉ s.toList ∧ '_' ∉ s.toList

theorem word_int (n : ℤ) : Word (toString n) := by
  refine ⟨colon_notMem_int n, fun h => ?_⟩
  rcases digits_of_mem_int h with h | h
  · exact absurd h (by decide)
  · exact absurd h (by decide)

theorem digitChar_word {n : ℕ} (h : n < 16) : n.digitChar ≠ ':' ∧ n.digitChar ≠ '_' := by
  revert h n
  decide

theorem word_transferID (b : Vector UInt8 12) : Word (transferID b) := by
  have hd : ∀ c ∈ (transferID b).toList, c ≠ ':' ∧ c ≠ '_' := by
    intro c hc
    rw [transferID, String.toList_ofList, List.mem_flatMap] at hc
    obtain ⟨x, -, hc⟩ := hc
    have hx : x.toNat < 256 := x.toNat_lt
    rcases List.mem_pair.mp hc with rfl | rfl
    · exact digitChar_word (by omega)
    · exact digitChar_word (by omega)
  exact ⟨fun h => (hd _ h).1 rfl, fun h => (hd _ h).2 rfl⟩

/-- A quota's key, or no key at all. -/
def Stem (a : String) : Prop :=
  a = "" ∨ ∃ b s, a = b ++ ":" ++ s ∧ ':' ∉ s.toList ∧ '_' ∈ s.toList

theorem key_stem (r : Ref) {algo : Algo} (h : algo.valid = true) : Stem (r.key algo) :=
  .inr ⟨_, _, rfl, algo_text h⟩

theorem parentKey_stem (r : Ref) : Stem (r.parentKey .fixedWindow) :=
  .inr ⟨_, _, parentKey_eq_snoc r .fixedWindow, @algo_text .fixedWindow rfl⟩

theorem Stem.ne_snoc {a : String} (h : Stem a) (b : String) {s : String} (hs : Word s) : a ≠ b ++ ":" ++ s := by
  intro he
  rcases h with rfl | ⟨b', s', rfl, hc, hu⟩
  · exact snoc_colon_ne_empty _ _ he.symm
  · obtain ⟨-, rfl⟩ := snoc_colon_inj hc hs.1 he
    exact hs.2 hu

/-- The numbers kept for a quota. -/
inductive Entry where
  | bucket
  | window (w : ℤ)
  | alloc (w : ℤ)
  | lend (id : String)

def Entry.key (base : String) : Entry → String
  | .bucket => base
  | .window w => winKey base w
  | .alloc w => allocKey base w
  | .lend id => lendKey base id

def Entry.Plain : Entry → Prop
  | .lend id => Word id
  | _ => True

theorem allocKey_eq (a : String) (w : ℤ) : allocKey a w = (a ++ ":" ++ "alloc") ++ ":" ++ toString w := by
  rw [allocKey, show ":alloc:" = ":" ++ "alloc" ++ ":" by decide]
  simp only [String.append_assoc]

theorem lendKey_eq (a id : String) : lendKey a id = (a ++ ":" ++ "lend") ++ ":" ++ id := by
  rw [lendKey, show ":lend:" = ":" ++ "lend" ++ ":" by decide]
  simp only [String.append_assoc]

theorem word_alloc : Word "alloc" := by unfold Word; decide

theorem word_lend : Word "lend" := by unfold Word; decide

theorem Entry.key_ne_bucket {a b : String} (ha : Stem a) {c : Entry} (hc : c.Plain) (hb : c ≠ .bucket) :
    a ≠ c.key b := by
  cases c with
  | bucket => exact absurd rfl hb
  | window w => exact ha.ne_snoc b (word_int w)
  | alloc w => rw [Entry.key, allocKey_eq]; exact ha.ne_snoc _ (word_int w)
  | lend id => rw [Entry.key, lendKey_eq]; exact ha.ne_snoc _ hc

/-- A key says whose number it is, and which. -/
theorem Entry.key_inj {a b : String} (ha : Stem a) (hb : Stem b) (c c' : Entry) (hc : c.Plain) (hc' : c'.Plain)
    (h : c.key a = c'.key b) : a = b ∧ c = c' := by
  have hint : ∀ {w w' : ℤ}, toString w = toString w' → w = w' := fun h => by
    rwa [Int.toString_eq_repr, Int.toString_eq_repr, Int.repr_inj] at h
  cases c with
  | bucket =>
    by_cases hn : c' = .bucket
    · subst hn
      exact ⟨h, rfl⟩
    · exact absurd h (Entry.key_ne_bucket ha hc' hn)
  | window w =>
    cases c' with
    | bucket => exact absurd h.symm (Entry.key_ne_bucket hb hc Entry.noConfusion)
    | window w' =>
      obtain ⟨hab, rfl⟩ := winKey_inj' h
      exact ⟨hab, rfl⟩
    | alloc w' =>
      rw [Entry.key, Entry.key, allocKey_eq] at h
      exact absurd (snoc_colon_inj (colon_notMem_int w) (colon_notMem_int w') h).1 (ha.ne_snoc b word_alloc)
    | lend id =>
      rw [Entry.key, Entry.key, lendKey_eq] at h
      exact absurd (snoc_colon_inj (colon_notMem_int w) hc'.1 h).1 (ha.ne_snoc b word_lend)
  | alloc w =>
    cases c' with
    | bucket => exact absurd h.symm (Entry.key_ne_bucket hb hc Entry.noConfusion)
    | window w' =>
      rw [Entry.key, Entry.key, allocKey_eq] at h
      exact absurd (snoc_colon_inj (colon_notMem_int w) (colon_notMem_int w') h).1.symm (hb.ne_snoc a word_alloc)
    | alloc w' =>
      rw [Entry.key, Entry.key, allocKey_eq, allocKey_eq] at h
      obtain ⟨h₁, h₂⟩ := snoc_colon_inj (colon_notMem_int w) (colon_notMem_int w') h
      obtain rfl := hint h₂
      exact ⟨(snoc_colon_inj word_alloc.1 word_alloc.1 h₁).1, rfl⟩
    | lend id =>
      rw [Entry.key, Entry.key, allocKey_eq, lendKey_eq] at h
      obtain ⟨h₁, -⟩ := snoc_colon_inj (colon_notMem_int w) hc'.1 h
      exact absurd (snoc_colon_inj word_alloc.1 word_lend.1 h₁).2 (by decide)
  | lend id =>
    cases c' with
    | bucket => exact absurd h.symm (Entry.key_ne_bucket hb hc Entry.noConfusion)
    | window w' =>
      rw [Entry.key, Entry.key, lendKey_eq] at h
      exact absurd (snoc_colon_inj hc.1 (colon_notMem_int w') h).1.symm (hb.ne_snoc a word_lend)
    | alloc w' =>
      rw [Entry.key, Entry.key, allocKey_eq, lendKey_eq] at h
      obtain ⟨h₁, -⟩ := snoc_colon_inj hc.1 (colon_notMem_int w') h
      exact absurd (snoc_colon_inj word_lend.1 word_alloc.1 h₁).2 (by decide)
    | lend id' =>
      rw [Entry.key, Entry.key, lendKey_eq, lendKey_eq] at h
      obtain ⟨h₁, rfl⟩ := snoc_colon_inj hc.1 hc'.1 h
      exact ⟨(snoc_colon_inj word_lend.1 word_lend.1 h₁).1, rfl⟩

/-! How a quota is split. -/

theorem share_of_mem {floors : List (String × ℚ)} (hn : (floors.map Prod.fst).Nodup) {e : String × ℚ}
    (he : e ∈ floors) : share floors e.1 = some e.2 := by
  induction floors with
  | nil => cases he
  | cons d ds ih =>
    obtain ⟨hd, hn⟩ := List.nodup_cons.mp hn
    rcases List.mem_cons.mp he with rfl | he
    · simp [share]
    · have hne : d.1 ≠ e.1 := fun h => hd (h ▸ List.mem_map_of_mem he)
      have := ih hn he
      unfold share at this ⊢
      rwa [List.find?_cons_of_neg (by simpa using hne)]

theorem mem_of_share {floors : List (String × ℚ)} {region : String} {s : ℚ} (h : share floors region = some s) :
    (region, s) ∈ floors := by
  obtain ⟨e, he, rfl⟩ := Option.map_eq_some_iff.mp h
  have hr : e.1 = region := by simpa using List.find?_some he
  exact hr ▸ List.mem_of_find?_eq_some he

theorem floor_sum {floors : List (String × ℚ)} (hn : (floors.map Prod.fst).Nodup) (q : ℤ) :
    ((regionNames floors).map fun n => regionFloor q ((share floors n).getD 0)).sum =
      (floors.map fun e => regionFloor q e.2).sum := by
  have hperm : (regionNames floors).Perm (floors.map Prod.fst) := List.perm_insertionSort _ _
  rw [(hperm.map _).sum_eq, List.map_map]
  congr 1
  refine List.map_congr_left fun e he => ?_
  rw [Function.comp_apply, share_of_mem hn he, Option.getD_some]

theorem regionFloor_nonneg {q : ℤ} (hq : 0 ≤ q) (s : ℚ) : 0 ≤ regionFloor q s :=
  Int.floor_nonneg.mpr (mul_nonneg (by exact_mod_cast hq) (le_max_left _ _))

/-- The floors of shares that sum to at most one sum to at most the quota. -/
theorem floors_le {floors : List (String × ℚ)} {q : ℤ} (hq : 0 ≤ q) (h₀ : ∀ e ∈ floors, 0 ≤ e.2)
    (hsum : (floors.map Prod.snd).sum ≤ 1) : (floors.map fun e => regionFloor q e.2).sum ≤ q := by
  have hq' : (0 : ℚ) ≤ q := by exact_mod_cast hq
  have hle : ((floors.map fun e => regionFloor q e.2).sum : ℚ) ≤ q * (floors.map Prod.snd).sum := by
    clear hsum
    induction floors with
    | nil => simp
    | cons e es ih =>
      have he : (regionFloor q e.2 : ℚ) ≤ q * e.2 := by
        refine (Int.floor_le _).trans (mul_le_mul_of_nonneg_left ?_ hq')
        exact max_le (h₀ e (List.mem_cons_self ..)) (min_le_left _ _)
      have := ih fun e he => h₀ e (List.mem_cons_of_mem _ he)
      simp only [List.map_cons, List.sum_cons, Int.cast_add]
      linarith
  have : ((floors.map fun e => regionFloor q e.2).sum : ℚ) ≤ q :=
    hle.trans (mul_le_of_le_one_right hq' hsum)
  exact_mod_cast this

/-- A region's allocation is a part of the quota. -/
theorem regionBase_bounds (score : String → String → ℕ) {floors : List (String × ℚ)} {q : ℤ} (region subject : String)
    (hq : 0 ≤ q) (hn : (floors.map Prod.fst).Nodup) (h₀ : ∀ e ∈ floors, 0 ≤ e.2)
    (hsum : (floors.map Prod.snd).sum ≤ 1) :
    0 ≤ regionBase score q floors region subject ∧ regionBase score q floors region subject ≤ q := by
  unfold regionBase
  split
  · exact ⟨le_refl _, hq⟩
  · rename_i s hs
    have hpos := regionFloor_nonneg hq s
    have htotal := floors_le hq h₀ hsum
    have hown : regionFloor q s ≤ (floors.map fun e => regionFloor q e.2).sum := by
      refine List.single_le_sum ?_ _ (List.mem_map.mpr ⟨(region, s), mem_of_share hs, rfl⟩)
      intro x hx
      obtain ⟨e, -, rfl⟩ := List.mem_map.mp hx
      exact regionFloor_nonneg hq e.2
    dsimp only
    rw [floor_sum hn]
    split_ifs <;> omega

/-! Lending and crediting. -/

section

variable {m m' : Mem} {ref : Ref} {spec : Spec} {now now' base wid want given : ℤ} {id : String}

/-- `Lend` changes nothing and answers with nothing or with the recorded loan, or it debits
a loan that fits and records it. -/
theorem lend_cases {margin : ℤ} (hm : 0 ≤ margin)
    (h : m.lend now now' ref spec base wid want margin id = (.ok given, m')) :
    (m' = m ∧ (given = 0 ∨ m.vals (lendKey (ref.key spec.algo) id) = some given)) ∨
    (spec.algo.or = .fixedWindow ∧ m.vals (lendKey (ref.key spec.algo) id) = none ∧ 0 ≤ given ∧
      given ≤ max 0 (base + m.allocation ref spec wid - m.used (ref.key spec.algo) wid) ∧
      m' = (m.addVal (allocKey (ref.key spec.algo) wid) (-given)).setVal (lendKey (ref.key spec.algo) id) given) := by
  unfold Mem.lend at h
  split at h
  · cases h
  rename_i ha
  dsimp only at h
  split at h
  · cases h
    exact .inl ⟨rfl, .inl rfl⟩
  split at h
  · rename_i v hv
    cases h
    exact .inl ⟨rfl, .inr hv⟩
  · rename_i hv
    cases h
    refine .inr ⟨not_not.mp ha, hv, le_max_right _ _, ?_, rfl⟩
    set margin' := lendMargin (m.getInt (winKey (ref.key spec.algo) wid) 0) (windowMs spec)
      (now' - wid * windowMs spec) margin with hdef
    have hpace : 0 ≤ margin' := le_max_of_le_left hm
    refine max_le ((min_le_right _ _).trans ?_) (le_max_left _ _)
    refine le_trans ?_ (le_max_right _ _)
    unfold Mem.allocation Mem.used
    omega

theorem lend_error {margin : ℤ} {e : Err}
    (h : m.lend now now' ref spec base wid want margin id = (.error e, m')) : m' = m := by
  unfold Mem.lend at h
  split at h
  · cases h
    rfl
  dsimp only at h
  split at h
  · cases h
  · split at h <;> cases h

theorem creditAlloc_cases {res : Except Err Bool} {amount : ℤ}
    (h : m.creditAlloc now ref spec wid amount id = (res, m')) :
    (res ≠ .ok true ∧ m' = m) ∨
    (res = .ok true ∧ spec.algo.or = .fixedWindow ∧ m.deduped (creditKey (ref.key spec.algo) id) = false ∧
      m' = (m.mark (creditKey (ref.key spec.algo) id)).addVal (allocKey (ref.key spec.algo) wid) amount) := by
  unfold Mem.creditAlloc at h
  split at h
  · cases h
    exact .inl ⟨by simp, rfl⟩
  rename_i ha
  dsimp only at h
  split at h
  · cases h
    exact .inl ⟨by simp, rfl⟩
  split at h
  · cases h
    exact .inl ⟨by simp, rfl⟩
  · rename_i hd
    cases h
    exact .inr ⟨rfl, not_not.mp ha, by simpa using hd, rfl⟩

theorem regionBorrow_error {env : HubEnv} {cfg : GatewayConfig} {r : BorrowRequest} {code : Code}
    (h : regionBorrow env cfg m now now' r = (.error code, m')) : m' = m := by
  unfold regionBorrow at h
  split at h
  · cases h
    rfl
  split at h
  · cases h
    rfl
  split at h
  · cases h
    rfl
  split at h
  · cases h
    rfl
  split at h
  · rename_i hl
    cases h
    exact lend_error hl
  · cases h

theorem regionBorrow_ok {env : HubEnv} {cfg : GatewayConfig} {r : BorrowRequest}
    (h : regionBorrow env cfg m now now' r = (.ok given, m')) :
    ∃ it, resolve env cfg r.scope r.serviceId r.apiKey r.limitId r.tierId "" = .ok it ∧
      m.lend now now' it.ref it.spec it.args.allocBase r.windowId r.want 0 r.transferId = (.ok given, m') := by
  unfold regionBorrow at h
  split at h
  · cases h
  split at h
  · cases h
  split at h
  · cases h
  rename_i it hit
  split at h
  · cases h
  split at h
  · cases h
  · rename_i hl
    cases h
    exact ⟨it, hit, hl⟩

end

end Gate
