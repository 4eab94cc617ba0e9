import Gate.Spec.Overview
import Gate.Sanity.Buckets

/-! The overview counts every event once. The series looks its buckets up by the second in which they
begin, stepping from the start of the window: an event of the window is found by one step, and by no
other as long as a bucket lasts a second. -/

namespace Gate

open Time Groups

/-! The windows. -/

theorem windows_eq (spec : OverviewSpec) (entries : List AnalyticsEntry) :
    windows spec entries =
      (entries.filter fun e => matchesOverviewFilters e spec.filters && spec.isCurrent e,
        entries.filter fun e => matchesOverviewFilters e spec.filters && spec.isPrevious e) := by
  induction entries with
  | nil => rfl
  | cons e rest ih =>
    have hapart : spec.isCurrent e = true → spec.isPrevious e = false := by
      simp only [OverviewSpec.isCurrent, OverviewSpec.isPrevious, decide_eq_true_eq, decide_eq_false_iff_not]
      omega
    rw [windows, ih]
    cases hm : matchesOverviewFilters e spec.filters with
    | false => simp [hm]
    | true =>
      cases hc : spec.isCurrent e with
      | true => simp [hm, hc, hapart hc]
      | false => cases hp : spec.isPrevious e <;> simp [hm, hc, hp]

/-! The series. -/

def OverviewPoint.total (p : OverviewPoint) : ℕ := p.ok + p.rateLimited + p.clientError + p.upstreamError

theorem total_count (p : OverviewPoint) (e : AnalyticsEntry) : (p.count e).total = p.total + 1 := by
  rw [OverviewPoint.count]
  split <;> simp only [OverviewPoint.total] <;> omega

theorem total_foldl_count (es : List AnalyticsEntry) (p : OverviewPoint) : (es.foldl OverviewPoint.count p).total = p.total + es.length := by
  induction es generalizing p with
  | nil => rfl
  | cons e es ih => rw [List.foldl_cons, ih, total_count, List.length_cons, Nat.add_right_comm, Nat.add_assoc]

theorem total_pointOf (es : List AnalyticsEntry) : (pointOf es).total = es.length :=
  (total_foldl_count es .zero).trans (Nat.zero_add _)

/-- The point that the loop makes for a time. -/
def pointAt (byBucket : ByBucket (List AnalyticsEntry)) (t : ℤ) : OverviewPoint :=
  { ((byBucket.lookup (unix t)).map pointOf).getD .zero with t }

theorem total_pointAt (byBucket : ByBucket (List AnalyticsEntry)) (t : ℤ) :
    (pointAt byBucket t).total = value List.length byBucket (unix t) := by
  have hsame : (pointAt byBucket t).total = (((byBucket.lookup (unix t)).map pointOf).getD .zero).total := rfl
  rw [hsame, value]
  cases byBucket.lookup (unix t) with
  | none => rfl
  | some es => exact total_pointOf es

/-- With enough turns the loop visits every bucket of the window. -/
theorem fillFrom_eq (spec : OverviewSpec) (byBucket : ByBucket (List AnalyticsEntry)) (hb : 0 < spec.bucket) {k n : ℕ} (hk : k ≤ n)
    {t : ℤ} (ht : t + k * spec.bucket = spec.finish) :
    fillFrom spec byBucket n t = (List.range k).map fun i : ℕ => pointAt byBucket (t + i * spec.bucket) := by
  induction n generalizing k t with
  | zero =>
    obtain rfl : k = 0 := by omega
    rfl
  | succ n ih =>
    rw [fillFrom]
    cases k with
    | zero =>
      have hend : ¬ t < spec.finish := by
        simp only [Nat.cast_zero, zero_mul, add_zero] at ht
        omega
      rw [if_neg hend]
      rfl
    | succ k =>
      have hpos : 0 ≤ (k : ℤ) * spec.bucket := Int.mul_nonneg (by omega) hb.le
      rw [Nat.cast_succ, add_mul, one_mul] at ht
      rw [if_pos (by omega), ih (k := k) (by omega) (by omega), List.range_succ_eq_map, List.map_cons, List.map_map]
      congr 1
      · have hfirst : t = t + ((0 : ℕ) : ℤ) * spec.bucket := by simp
        exact congrArg (pointAt byBucket) hfirst
      · refine List.map_congr_left fun i _ => ?_
        simp only [Function.comp_apply, Nat.cast_succ]
        congr 1
        ring

theorem fillSeries_eq (spec : OverviewSpec) (byBucket : ByBucket (List AnalyticsEntry)) (hb : 0 < spec.bucket)
    (hs : spec.bucket ∣ spec.start) (hf : spec.bucket ∣ spec.finish) :
    fillSeries spec byBucket =
      ((List.range ((spec.finish - spec.start) / spec.bucket).toNat).map fun i : ℕ => spec.start + i * spec.bucket).map
        (pointAt byBucket) := by
  rw [fillSeries, List.map_map]
  rcases le_or_gt spec.start spec.finish with hle | hgt
  · apply fillFrom_eq spec byBucket hb (Nat.le_succ _)
    rw [Int.toNat_of_nonneg (Int.ediv_nonneg (by omega) hb.le), Int.ediv_mul_cancel (dvd_sub hf hs)]
    omega
  · have hneg : (spec.finish - spec.start) / spec.bucket < 0 := Int.ediv_neg_of_neg_of_pos (by omega) hb
    have hzero : ((spec.finish - spec.start) / spec.bucket).toNat = 0 := by omega
    rw [seriesTurns, hzero, fillFrom, if_neg (by omega)]
    rfl

/-- The points of a window count the events that lie in it. -/
theorem sum_fillSeries (spec : OverviewSpec) (hb : second ≤ spec.bucket) (hs : spec.bucket ∣ spec.start)
    (hf : spec.bucket ∣ spec.finish) (cur : List AnalyticsEntry) (hcur : ∀ e ∈ cur, spec.isCurrent e = true) :
    ((fillSeries spec (bucketsOf spec.bucket cur)).map OverviewPoint.total).sum = cur.length := by
  have hpos : 0 < spec.bucket := second_pos.trans_le hb
  set starts := (List.range ((spec.finish - spec.start) / spec.bucket).toNat).map fun i : ℕ => spec.start + i * spec.bucket with hstarts
  have hvalue : ∀ k, value List.length (bucketsOf spec.bucket cur) k =
      sumAt (fun e => unix (Time.truncate e.timestamp spec.bucket)) (fun _ => 1) cur k := by
    intro k
    have h := value_gather (fun e : AnalyticsEntry => unix (Time.truncate e.timestamp spec.bucket)) (fun _ => 1)
      (μ := List.length) (f := fun e es => es.getD [] ++ [e]) (fun e o => by cases o <;> simp) cur ∅ k
    exact h.trans (Nat.zero_add _)
  have hsum : (starts.map fun t => (pointAt (bucketsOf spec.bucket cur) t).total).sum =
      ((cur.filter fun e => unix (Time.truncate e.timestamp spec.bucket) ∈ starts.map unix).map fun _ => 1).sum := by
    rw [← sum_sumAt_map _ _ (starts_unix_nodup hb hs _)]
    exact congrArg List.sum (List.map_congr_left fun t _ => (total_pointAt _ t).trans (hvalue _))
  -- the bucket of an event of the window is one of the steps
  have hall : ∀ e ∈ cur, unix (Time.truncate e.timestamp spec.bucket) ∈ starts.map unix := by
    intro e he
    have hin := hcur e he
    simp only [OverviewSpec.isCurrent, decide_eq_true_eq] at hin
    apply List.mem_map_of_mem
    rw [hstarts, mem_starts hpos]
    have hdvd := dvd_truncate hpos e.timestamp
    have hle := truncate_le hpos e.timestamp
    have hlt := lt_truncate_add hpos e.timestamp
    have hspan : ((spec.finish - spec.start) / spec.bucket).toNat * spec.bucket = spec.finish - spec.start := by
      rw [Int.toNat_of_nonneg (Int.ediv_nonneg (by omega) hpos.le), Int.ediv_mul_cancel (dvd_sub hf hs)]
    refine ⟨dvd_sub hdvd hs, ?_, by omega⟩
    by_contra hbefore
    have := Int.le_of_dvd (by omega) (dvd_sub hs hdvd)
    omega
  rw [fillSeries_eq spec _ hpos hs hf, List.map_map]
  refine hsum.trans ?_
  rw [List.filter_eq_self.mpr (by simpa using hall)]
  simp

/-! The rows. -/

theorem sum_rowsBy (key : AnalyticsEntry → String) (entries : List AnalyticsEntry) :
    ((rowsBy key entries).map OverviewRow.requests).sum = entries.length := by
  have hgroups : total (fun a : RowAcc => a.row.requests) (rowGroups key entries) = entries.length := by
    have h := total_gather (fun e : AnalyticsEntry => rowName (key e)) (fun _ => 1) (μ := fun a : RowAcc => a.row.requests)
      (f := fun e a => (a.getD (.new (rowName (key e)))).add e) (fun e o => by cases o <;> rfl) entries ∅
    rw [rowGroups, h]
    simp
  rw [rowsBy, finishRows, List.map_map]
  have hperm := (List.mergeSort_perm ((rowGroups key entries).entries.map fun x => x.2.finish) rowBefore).map OverviewRow.requests
  refine (hperm.sum_eq).trans ?_
  rw [List.map_map]
  exact hgroups

/-- Over a window of whole buckets, the series, the requests and the rows count the events of the window
that the filters match, and the previous figure those of the window before. -/
theorem overview_counts_every_event (spec : OverviewSpec) (order : LatestFirst) (entries : List AnalyticsEntry)
    (hb : second ≤ spec.bucket) (hs : spec.bucket ∣ spec.start) (hf : spec.bucket ∣ spec.finish) :
    let resp := buildOverview spec order entries
    let n := (entries.filter fun e =>
      matchesOverviewFilters e spec.filters ∧ spec.start ≤ e.timestamp ∧ e.timestamp < spec.finish).length
    (resp.series.map fun p => p.ok + p.rateLimited + p.clientError + p.upstreamError).sum = n ∧
    (resp.kpis .requests).value = n ∧
    (resp.byTier.map OverviewRow.requests).sum = n ∧
    (resp.byService.map OverviewRow.requests).sum = n ∧
    (resp.byEdge.map OverviewRow.requests).sum = n ∧
    (resp.kpis .requests).previous = (entries.filter fun e =>
      matchesOverviewFilters e spec.filters ∧ spec.prevStart ≤ e.timestamp ∧ e.timestamp < spec.start).length := by
  intro resp n
  set cur := entries.filter fun e => matchesOverviewFilters e spec.filters && spec.isCurrent e with hcur
  have hn : n = cur.length := by simp [n, hcur, OverviewSpec.isCurrent]
  have hseries : resp.series = fillSeries spec (bucketsOf spec.bucket cur) := by
    simp only [resp, buildOverview, windows_eq]
    rfl
  have hin : ∀ e ∈ cur, spec.isCurrent e = true := by
    intro e he
    rw [hcur, List.mem_filter, Bool.and_eq_true] at he
    exact he.2.2
  rw [hn]
  refine ⟨?_, ?_, ?_, ?_, ?_, ?_⟩
  · rw [hseries]
    exact sum_fillSeries spec hb hs hf cur hin
  · simp only [resp, buildOverview, windows_eq]
    rfl
  · simp only [resp, buildOverview, windows_eq]
    exact sum_rowsBy _ cur
  · simp only [resp, buildOverview, windows_eq]
    exact sum_rowsBy _ cur
  · simp only [resp, buildOverview, windows_eq]
    exact sum_rowsBy _ cur
  · simp only [resp, buildOverview, windows_eq]
    simp [statsOf, WindowStats.kpis, OverviewSpec.isPrevious]

/-- With buckets of half a second two steps share a second, and one event is counted by both. -/
theorem half_second_buckets :
    let spec : OverviewSpec := ⟨"", second, 500 * millisecond, 0, second, -second, ⟨[], [], []⟩⟩
    let e : AnalyticsEntry := ⟨"/v1", "svc", "edge", 1, "GET", "", 5, 3, false, 0, 0, 200, false⟩
    spec.bucket ∣ spec.start ∧ spec.bucket ∣ spec.finish ∧
    ((buildOverview spec latestFirst [e]).series.map fun p => p.ok + p.rateLimited + p.clientError + p.upstreamError).sum = 2 ∧
    ([e].filter fun e => matchesOverviewFilters e spec.filters ∧ spec.start ≤ e.timestamp ∧ e.timestamp < spec.finish).length = 1 := by
  decide +kernel

/-- An hour in minutes, with an event of each window and one that the filters hide. -/
theorem overview_counts_an_hour :
    let spec : OverviewSpec := ⟨"1h", hour, minute, hour, 2 * hour, 0, ⟨["svc"], [], []⟩⟩
    let e : AnalyticsEntry := ⟨"/v1", "svc", "edge", hour + 1, "GET", "", 5, 3, false, 0, 0, 429, false⟩
    ((buildOverview spec latestFirst [e, { e with service := "" }, { e with timestamp := 0 }]).series.map fun p =>
      p.ok + p.rateLimited + p.clientError + p.upstreamError).sum = 1 := by
  intro spec e
  have h := (overview_counts_every_event spec latestFirst [e, { e with service := "" }, { e with timestamp := 0 }]
    (by decide) (by decide) (by decide)).1
  exact h.trans (by decide)

end Gate
