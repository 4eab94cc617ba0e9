import Gate.Spec.Events

/-! Buckets of time. Their starts are a bucket apart, so if a bucket lasts at least a second, the
starts fall into different seconds, and a start can be looked up by its second. -/

namespace Gate.Time

variable {d : ℤ}

theorem second_pos : 0 < second := by decide

theorem truncate_eq (hd : 0 < d) (t : ℤ) : truncate t d = t - t % d := if_neg (not_le.mpr hd)

theorem truncate_le (hd : 0 < d) (t : ℤ) : truncate t d ≤ t := by
  have := Int.emod_nonneg t hd.ne'
  rw [truncate_eq hd]
  omega

theorem lt_truncate_add (hd : 0 < d) (t : ℤ) : t < truncate t d + d := by
  have := Int.emod_lt_of_pos t hd
  rw [truncate_eq hd]
  omega

theorem dvd_truncate (hd : 0 < d) (t : ℤ) : d ∣ truncate t d := by
  rw [truncate_eq hd]
  exact Int.dvd_self_sub_emod

theorem unix_mono {s t : ℤ} (h : s ≤ t) : unix s ≤ unix t := by
  have := Int.ediv_le_ediv second_pos h
  rw [unix, unix]
  omega

/-- Times a second apart are in different seconds. -/
theorem unix_lt {s t : ℤ} (h : s + second ≤ t) : unix s < unix t := by
  have hle := unix_mono h
  have hnext : unix (s + second) = unix s + 1 := by
    rw [unix, unix, Int.add_ediv_of_dvd_right dvd_rfl, Int.ediv_self second_pos.ne']
    ring
  omega

theorem unix_inj {s t : ℤ} (hd : second ≤ d) (hs : d ∣ s) (ht : d ∣ t) (h : unix s = unix t) : s = t := by
  have hpos : 0 < d := second_pos.trans_le hd
  have apart : ∀ {x y : ℤ}, d ∣ x → d ∣ y → x < y → x + second ≤ y := by
    intro x y hx hy hxy
    have := Int.le_of_dvd (sub_pos.mpr hxy) (dvd_sub hy hx)
    omega
  rcases lt_trichotomy s t with hlt | heq | hlt
  · exact absurd h (unix_lt (apart hs ht hlt)).ne
  · exact heq
  · exact absurd h (unix_lt (apart ht hs hlt)).ne'

/-! Starts that step from `start`. -/

theorem mem_starts (hd : 0 < d) {start x : ℤ} {n : ℕ} :
    (x ∈ (List.range n).map fun i : ℕ => start + i * d) ↔ d ∣ x - start ∧ start ≤ x ∧ x < start + n * d := by
  simp only [List.mem_map, List.mem_range]
  constructor
  · rintro ⟨i, hi, rfl⟩
    have hi' : ((i : ℤ) + 1) * d ≤ n * d := Int.mul_le_mul_of_nonneg_right (by omega) hd.le
    have h0 : 0 ≤ (i : ℤ) * d := Int.mul_nonneg (by omega) hd.le
    rw [add_mul, one_mul] at hi'
    exact ⟨⟨i, by ring⟩, by omega, by omega⟩
  · rintro ⟨⟨q, hq⟩, hle, hlt⟩
    have hq0 : 0 ≤ q := by
      by_contra hneg
      have := Int.mul_neg_of_pos_of_neg hd (not_le.mp hneg)
      omega
    have hqn : q < n := by
      by_contra hge
      have := Int.mul_le_mul_of_nonneg_right (not_lt.mp hge) hd.le
      rw [mul_comm q d] at this
      omega
    refine ⟨q.toNat, by omega, ?_⟩
    rw [Int.toNat_of_nonneg hq0, mul_comm q d]
    omega

theorem starts_unix_nodup (hd : second ≤ d) {start : ℤ} (hstart : d ∣ start) (n : ℕ) :
    (((List.range n).map fun i : ℕ => start + i * d).map unix).Nodup := by
  have hpos : 0 < d := second_pos.trans_le hd
  rw [List.map_map]
  refine List.nodup_range.map_on ?_
  intro i _ j _ h
  have heq := unix_inj hd (dvd_add hstart (dvd_mul_left d i)) (dvd_add hstart (dvd_mul_left d j)) h
  have hmul : (i : ℤ) * d = j * d := by omega
  exact_mod_cast Int.eq_of_mul_eq_mul_right hpos.ne' hmul

end Gate.Time
