import Mathlib
import Gate.Spec.Snapshot

/-! The bounded sample behind the reported percentiles: it holds values that were added, as many as it
may, and what it reports lies among them and grows with the percentile. -/

namespace Gate.BoundedPercentiles

/-- A sample made by adding values and merging samples of the same capacity, with all that was added. -/
inductive Made (capacity : ℕ) : List ℤ → BoundedPercentiles → Prop
  | new : Made capacity [] (newBoundedPercentiles capacity)
  | add {added bp} (v : ℤ) (h : Made capacity added bp) : Made capacity (added ++ [v]) (bp.add v)
  | merge {added bp added' other} (h : Made capacity added bp) (h' : Made capacity added' other) :
    Made capacity (added ++ added') (bp.merge other)

/-- What a sample says about `n` added values. -/
structure Holds (m : ℕ) (added : List ℤ) (n : ℕ) (bp : BoundedPercentiles) : Prop where
  capacity : bp.capacity = m
  count : bp.count = n
  length : bp.values.length = min m n
  sub : ∀ v ∈ bp.values, v ∈ added

variable {capacity n : ℕ} {added : List ℤ} {bp other : BoundedPercentiles}

theorem Holds.add (h : Holds capacity added n bp) {v : ℤ} (hv : v ∈ added) : Holds capacity added (n + 1) (bp.add v) := by
  obtain ⟨c, k, values, rng⟩ := bp
  obtain ⟨rfl, rfl, hlen, hsub⟩ := h
  dsimp only at hlen hsub
  unfold BoundedPercentiles.add
  dsimp only
  split_ifs with hroom
  · refine ⟨rfl, rfl, by rw [List.length_append, List.length_singleton]; omega, fun x hx => ?_⟩
    rcases List.mem_append.mp hx with hx | hx
    · exact hsub x hx
    · exact List.mem_singleton.mp hx ▸ hv
  · unfold nextIndex
    rw [if_neg (Nat.succ_ne_zero k)]
    dsimp only
    split_ifs with hidx
    · refine ⟨rfl, rfl, by rw [List.length_set]; omega, fun x hx => ?_⟩
      rcases List.mem_or_eq_of_mem_set hx with hx | rfl
      · exact hsub x hx
      · exact hv
    · exact ⟨rfl, rfl, by dsimp only; omega, hsub⟩

theorem Holds.foldl (l : List ℤ) (hl : ∀ v ∈ l, v ∈ added) (h : Holds capacity added n bp) :
    Holds capacity added (n + l.length) (l.foldl BoundedPercentiles.add bp) := by
  induction l generalizing n bp with
  | nil => exact h
  | cons v l ih =>
    have hnext := ih (fun x hx => hl x (List.mem_cons_of_mem _ hx)) (h.add (hl v List.mem_cons_self))
    rwa [Nat.add_right_comm, Nat.add_assoc] at hnext

theorem Made.holds (hc : 0 < capacity) (h : Made capacity added bp) : Holds capacity added added.length bp := by
  induction h with
  | new => exact ⟨if_neg hc.ne', rfl, by simp [newBoundedPercentiles], fun v hv => absurd hv List.not_mem_nil⟩
  | add v h ih =>
    have hmore : Holds capacity _ _ _ := ⟨ih.capacity, ih.count, ih.length, fun x hx => List.mem_append_left [v] (ih.sub x hx)⟩
    simpa using hmore.add (List.mem_append_right _ (List.mem_singleton_self v))
  | @merge added bp added' other h h' ih ih' =>
    have hmore : Holds capacity (added ++ added') _ _ := ⟨ih.capacity, ih.count, ih.length, fun x hx => List.mem_append_left _ (ih.sub x hx)⟩
    have hall := hmore.foldl other.values fun x hx => List.mem_append_right _ (ih'.sub x hx)
    have hcount := ih'.count
    have hlength := ih'.length
    refine ⟨hall.capacity, ?_, ?_, hall.sub⟩
    · change _ + (other.count - other.values.length) = _
      rw [hall.count, List.length_append]
      omega
    · rw [List.length_append]
      refine hall.length.trans ?_
      omega

/-! Reading a sorted list at a rank. -/

/-- The value at a rank between two places of a list. -/
def rankValue (s : List ℤ) (x : ℚ) : ℚ :=
  let lo := ⌊x⌋.toNat
  if s.length ≤ lo + 1 then s.getD lo 0 else s.getD lo 0 * (1 - (x - lo)) + s.getD (lo + 1) 0 * (x - lo)

variable {s : List ℤ} {x y : ℚ}

theorem getD_mono (hs : s.Pairwise (· ≤ ·)) {i j : ℕ} (hij : i ≤ j) (hj : j < s.length) : s.getD i 0 ≤ s.getD j 0 := by
  rw [List.getD_eq_getElem _ _ (by omega), List.getD_eq_getElem _ _ hj]
  rcases hij.eq_or_lt with rfl | hlt
  · exact le_rfl
  · exact List.pairwise_iff_getElem.mp hs i j _ hj hlt

theorem floor_bounds (hx : 0 ≤ x) : (⌊x⌋.toNat : ℚ) ≤ x ∧ x < ⌊x⌋.toNat + 1 := by
  have hcast : ((⌊x⌋.toNat : ℤ) : ℚ) = ⌊x⌋ := by rw [Int.toNat_of_nonneg (Int.floor_nonneg.mpr hx)]
  rw [show (⌊x⌋.toNat : ℚ) = ⌊x⌋ by exact_mod_cast hcast]
  exact ⟨Int.floor_le x, Int.lt_floor_add_one x⟩

/-- A value at a rank lies between its neighbours. -/
theorem rankValue_bounds (hs : s.Pairwise (· ≤ ·)) (hx : 0 ≤ x) (hlt : ⌊x⌋.toNat < s.length) :
    (s.getD ⌊x⌋.toNat 0 : ℚ) ≤ rankValue s x ∧ ∀ j, ⌊x⌋.toNat < j → j < s.length → rankValue s x ≤ s.getD j 0 := by
  obtain ⟨hlo, hhi⟩ := floor_bounds hx
  unfold rankValue
  dsimp only
  split_ifs with hend
  · exact ⟨le_rfl, fun j hj hjs => absurd hjs (by omega)⟩
  · have hstep : (s.getD ⌊x⌋.toNat 0 : ℚ) ≤ s.getD (⌊x⌋.toNat + 1) 0 := by exact_mod_cast getD_mono hs (Nat.le_succ _) (by omega)
    refine ⟨by nlinarith, fun j hj hjs => ?_⟩
    have hnext : (s.getD (⌊x⌋.toNat + 1) 0 : ℚ) ≤ s.getD j 0 := by exact_mod_cast getD_mono hs hj hjs
    nlinarith

theorem rankValue_mono (hs : s.Pairwise (· ≤ ·)) (hx : 0 ≤ x) (hxy : x ≤ y) (hlt : ⌊y⌋.toNat < s.length) :
    rankValue s x ≤ rankValue s y := by
  have hle : ⌊x⌋.toNat ≤ ⌊y⌋.toNat := Int.toNat_le_toNat (Int.floor_le_floor hxy)
  rcases hle.eq_or_lt with heq | hbelow
  · unfold rankValue
    dsimp only
    rw [heq]
    split_ifs with hend
    · exact le_rfl
    · have hstep : (s.getD ⌊y⌋.toNat 0 : ℚ) ≤ s.getD (⌊y⌋.toNat + 1) 0 := by exact_mod_cast getD_mono hs (Nat.le_succ _) (by omega)
      nlinarith
  · exact ((rankValue_bounds hs hx (by omega)).2 _ hbelow hlt).trans (rankValue_bounds hs (hx.trans hxy) hlt).1

theorem rank_lt {p : ℚ} {n : ℕ} (h0 : 0 ≤ p) (h100 : p ≤ 100) (hn : 0 < n) :
    0 ≤ p / 100 * (n - 1 : ℕ) ∧ ⌊p / 100 * (n - 1 : ℕ)⌋.toNat < n := by
  have hpos : (0 : ℚ) ≤ (n - 1 : ℕ) := Nat.cast_nonneg _
  have hle : p / 100 * (n - 1 : ℕ) ≤ (n - 1 : ℕ) := mul_le_of_le_one_left hpos (by linarith)
  have hrank : 0 ≤ p / 100 * ((n - 1 : ℕ) : ℚ) := by positivity
  refine ⟨hrank, ?_⟩
  have hcast : (⌊p / 100 * (n - 1 : ℕ)⌋.toNat : ℚ) ≤ (n - 1 : ℕ) := (floor_bounds hrank).1.trans hle
  have : ⌊p / 100 * (n - 1 : ℕ)⌋.toNat ≤ n - 1 := by exact_mod_cast hcast
  omega

/-- However it was made, a sample counts all that was added, is as full as it may be, and reports
percentiles that grow and stay within any bounds of what was added. -/
theorem percentiles_within_sample (hc : 0 < capacity) (h : Made capacity added bp) :
    bp.count = added.length ∧ bp.values.length = min capacity added.length ∧
      ∀ p q least most, 0 ≤ p → p ≤ q → q ≤ 100 → added ≠ [] → (∀ v ∈ added, least ≤ v ∧ v ≤ most) →
        ((least : ℤ) : ℚ) ≤ bp.percentile p ∧ bp.percentile p ≤ bp.percentile q ∧ bp.percentile q ≤ ((most : ℤ) : ℚ) := by
  have hh := h.holds hc
  refine ⟨hh.count, hh.length, fun p q least most h0 hpq h100 hne hbounds => ?_⟩
  have hlen : 0 < bp.values.length := by
    rw [hh.length]
    exact lt_min hc (List.length_pos_iff.mpr hne)
  set s := bp.values.mergeSort (· ≤ ·) with hs
  have hslen : s.length = bp.values.length := List.length_mergeSort _
  have hsorted : s.Pairwise (· ≤ ·) := by
    have h : s.Pairwise fun a b => decide (a ≤ b) :=
      List.pairwise_mergeSort (fun a b c => by simpa using le_trans) (fun a b => by simpa using le_total a b) bp.values
    simpa using h
  have hvalue : ∀ r, bp.percentile r = rankValue s (r / 100 * (s.length - 1 : ℕ)) := fun r => if_neg hlen.ne'
  have hmem : ∀ i, i < s.length → least ≤ s.getD i 0 ∧ s.getD i 0 ≤ most := by
    intro i hi
    rw [List.getD_eq_getElem _ _ hi]
    exact hbounds _ (hh.sub _ (List.mem_mergeSort.mp (List.getElem_mem hi)))
  rw [← hslen] at hlen
  obtain ⟨hp, hplt⟩ := rank_lt h0 (hpq.trans h100) hlen
  obtain ⟨hq, hqlt⟩ := rank_lt (h0.trans hpq) h100 hlen
  simp only [hvalue]
  refine ⟨?_, rankValue_mono hsorted hp (by gcongr) hqlt, ?_⟩
  · exact le_trans (by exact_mod_cast (hmem _ hplt).1) (rankValue_bounds hsorted hp hplt).1
  · -- the last place is an upper bound
    have hlast : rankValue s (s.length - 1 : ℕ) = s.getD (s.length - 1) 0 := by
      unfold rankValue
      simp only [Int.floor_natCast, Int.toNat_natCast]
      exact if_pos (by omega)
    refine (rankValue_mono hsorted hq ?_ (by simpa using hlen)).trans (hlast.le.trans ?_)
    · exact mul_le_of_le_one_left (Nat.cast_nonneg _) (by linarith)
    · exact_mod_cast (hmem _ (by omega)).2

theorem percentiles_within_sample_pair : let bp := ((newBoundedPercentiles 8).add 30).add 10
    bp.count = 2 ∧ 10 ≤ bp.percentile 50 ∧ bp.percentile 50 ≤ bp.percentile 95 ∧ bp.percentile 95 ≤ 30 := by
  have h := percentiles_within_sample (by decide) (.add 10 (.add 30 (Made.new : Made 8 _ _)))
  exact ⟨h.1, by simpa using h.2.2 50 95 10 30 (by norm_num) (by norm_num) (by norm_num) (by simp) (by simp)⟩

end Gate.BoundedPercentiles
