import Gate.Spec.Snapshot
import Gate.Sanity.Buckets

/-! Pruning never loses a reported event. `ingest` deletes the buckets that are older than the history
by the event's own clock. The reported range begins within the history before the reference time, and
no event is later than that, so no event's clock reaches a reported bucket. -/

namespace Gate

open Time Groups

/-! Counters add up. -/

namespace Tallied

/-- The counter in an accumulator. -/
def of (a : StatsAccumulator) : Tallied → ℕ
  | requests => a.count
  | cacheHits => a.cacheHits
  | rateLimited => a.rateLimitedCount
  | upstreamErrors => a.upstreamErrorCount

def weight (c : Tallied) (e : AnalyticsEntry) : ℕ := if c.counts e then 1 else 0

variable (c : Tallied)

@[simp] theorem of_zero : c.of .zero = 0 := by cases c <;> rfl

theorem of_add (a : StatsAccumulator) (e : AnalyticsEntry) : c.of (a.add e) = c.of a + c.weight e := by
  cases c with
  | requests => rfl
  | cacheHits => cases h : e.cacheHit <;> simp [of, StatsAccumulator.add, weight, counts, h]
  | rateLimited => by_cases h : e.responseCode = statusTooManyRequests <;> simp [of, StatsAccumulator.add, weight, counts, h]
  | upstreamErrors => cases h : e.upstreamError <;> simp [of, StatsAccumulator.add, weight, counts, h]

end Tallied

/-- An accumulator that no event was added to counts nothing. -/
def StatsAccumulator.Honest (a : StatsAccumulator) : Prop := a.count = 0 → ∀ c : Tallied, c.of a = 0

theorem honest_zero : StatsAccumulator.zero.Honest := fun _ c => c.of_zero

namespace StatsAccumulator

variable {a other : StatsAccumulator}

theorem honest_add (a : StatsAccumulator) (e : AnalyticsEntry) : (a.add e).Honest :=
  fun h => absurd h (Nat.succ_ne_zero a.count)

theorem of_merge (h : other.Honest) (c : Tallied) : c.of (a.merge other) = c.of a + c.of other := by
  rw [merge]
  split
  case isTrue h0 => rw [h h0 c, Nat.add_zero]
  case isFalse => cases c <;> rfl

theorem honest_merge (ha : a.Honest) : (a.merge other).Honest := by
  rw [merge]
  split
  case isTrue => exact ha
  case isFalse hne =>
    intro h0
    have : a.count + other.count = 0 := h0
    omega

theorem ofSummary_toSummary (h : a.Honest) (c : Tallied) : c.ofSummary a.toSummary = c.of a := by
  rw [toSummary]
  split
  case isTrue h0 =>
    rw [h h0 c]
    cases c <;> simp [Tallied.ofSummary]
  case isFalse hne =>
    have hpos : (a.count : ℚ) ≠ 0 := Nat.cast_ne_zero.mpr hne
    cases c with
    | cacheHits =>
      simp only [Tallied.ofSummary, Tallied.of]
      field_simp
    | requests | rateLimited | upstreamErrors => rfl

@[simp] theorem toSummary_count (a : StatsAccumulator) : a.toSummary.count = a.count := by
  rw [toSummary]
  split
  case isTrue h0 => exact h0.symm
  case isFalse => rfl

theorem toSummary_rateLimitedCount (h : a.Honest) : a.toSummary.rateLimitedCount = a.rateLimitedCount := by
  have hq : (a.toSummary.rateLimitedCount : ℚ) = a.rateLimitedCount := ofSummary_toSummary h .rateLimited
  exact_mod_cast hq

theorem toSummary_upstreamErrorCount (h : a.Honest) : a.toSummary.upstreamErrorCount = a.upstreamErrorCount := by
  have hq : (a.toSummary.upstreamErrorCount : ℚ) = a.upstreamErrorCount := ofSummary_toSummary h .upstreamErrors
  exact_mod_cast hq

end StatsAccumulator

/-! Maps of accumulators. -/

def HonestMap (m : GroupMap StatsAccumulator) : Prop := ∀ x ∈ m.entries, x.2.Honest

theorem of_getD (c : Tallied) (m : GroupMap StatsAccumulator) (k : String) :
    c.of ((m.lookup k).getD .zero) = value (fun a => c.of a) m k := by
  cases h : m.lookup k <;> simp [value, h]

theorem total_addGroup (c : Tallied) (m : GroupMap StatsAccumulator) (key : String) (e : AnalyticsEntry) :
    total (fun a => c.of a) (BucketAggregation.addGroup m key e) = total (fun a => c.of a) m + c.weight e := by
  rw [BucketAggregation.addGroup]
  apply total_upsert
  rw [Tallied.of_add, of_getD]

theorem honest_addGroup {m : GroupMap StatsAccumulator} (h : HonestMap m) (key : String) (e : AnalyticsEntry) :
    HonestMap (BucketAggregation.addGroup m key e) :=
  forall_upsert h (StatsAccumulator.honest_add _ e)

/-- What merging a list of accumulators into a map keeps, and what it adds. -/
theorem merge_foldl (c : Tallied) (l : List (Sigma fun _ : String => StatsAccumulator)) (hl : ∀ x ∈ l, x.2.Honest)
    (acc : GroupMap StatsAccumulator) (hacc : HonestMap acc) :
    HonestMap (l.foldl (fun acc x => upsert acc x.1 fun a => (a.getD .zero).merge x.2) acc) ∧
    total (fun a => c.of a) (l.foldl (fun acc x => upsert acc x.1 fun a => (a.getD .zero).merge x.2) acc) =
      total (fun a => c.of a) acc + (l.map fun x => c.of x.2).sum := by
  induction l generalizing acc with
  | nil => exact ⟨hacc, rfl⟩
  | cons x l ih =>
    have hold : ((acc.lookup x.1).getD StatsAccumulator.zero).Honest := by
      cases h : acc.lookup x.1 with
      | none => exact honest_zero
      | some a => exact of_lookup (P := StatsAccumulator.Honest) hacc h
    have hone : total (fun a => c.of a) (upsert acc x.1 fun a => (a.getD .zero).merge x.2) = total (fun a => c.of a) acc + c.of x.2 := by
      refine total_upsert (d := c.of x.2) ?_
      rw [StatsAccumulator.of_merge (hl x List.mem_cons_self), of_getD]
    obtain ⟨hhonest, htotal⟩ := ih (fun y hy => hl y (List.mem_cons_of_mem x hy)) _
      (forall_upsert (f := fun a => (a.getD .zero).merge x.2) hacc (StatsAccumulator.honest_merge hold))
    refine ⟨hhonest, htotal.trans ?_⟩
    rw [hone, List.map_cons, List.sum_cons, Nat.add_assoc]

theorem honest_mergeGroups {acc values : GroupMap StatsAccumulator} (hacc : HonestMap acc) (hvalues : HonestMap values) :
    HonestMap (mergeGroups acc values) := (merge_foldl .requests values.entries hvalues acc hacc).1

theorem total_mergeGroups (c : Tallied) {acc values : GroupMap StatsAccumulator} (hacc : HonestMap acc) (hvalues : HonestMap values) :
    total (fun a => c.of a) (mergeGroups acc values) = total (fun a => c.of a) acc + total (fun a => c.of a) values :=
  (merge_foldl c values.entries hvalues acc hacc).2

theorem sum_summarize (c : Tallied) {m : GroupMap StatsAccumulator} (h : HonestMap m) :
    total (fun s => c.ofSummary s) (summarize m) = (total (fun a => c.of a) m : ℕ) := by
  simp only [total, summarize, List.map_map, Nat.cast_list_sum]
  exact congrArg List.sum (List.map_congr_left fun x hx => StatsAccumulator.ofSummary_toSummary (h x hx) c)

/-! Buckets. -/

structure BucketAggregation.Honest (b : BucketAggregation) : Prop where
  total : b.total.Honest
  groups : ∀ g, HonestMap (b.groups g)

theorem honest_newBucket : newBucketAggregation.Honest := ⟨honest_zero, fun _ _ hx => by cases hx⟩

theorem BucketAggregation.Honest.add {b : BucketAggregation} (h : b.Honest) (e : AnalyticsEntry) : (b.add e).Honest :=
  ⟨StatsAccumulator.honest_add _ e, fun g => honest_addGroup (h.groups g) _ e⟩

/-- A number read off a bucket, to which every event adds its weight. -/
structure Measures (w : AnalyticsEntry → ℕ) (μ : BucketAggregation → ℕ) : Prop where
  zero : μ newBucketAggregation = 0
  add : ∀ b e, μ (b.add e) = μ b + w e

theorem measures_total (c : Tallied) : Measures c.weight fun b => c.of b.total :=
  ⟨c.of_zero, fun b e => c.of_add b.total e⟩

theorem measures_groups (c : Tallied) (g : GroupBy) : Measures c.weight fun b => total (fun a => c.of a) (b.groups g) :=
  ⟨rfl, fun b e => total_addGroup c (b.groups g) _ e⟩

namespace IntervalAggregation

variable {ia : IntervalAggregation} {w : AnalyticsEntry → ℕ} {μ : BucketAggregation → ℕ}

def Honest (ia : IntervalAggregation) : Prop := ∀ x ∈ ia.buckets.entries, x.2.Honest

theorem lookup_foldl_erase (ks : List ℤ) (m : AList fun _ : ℤ => BucketAggregation) {k : ℤ} (hk : k ∉ ks) :
    (ks.foldl (fun m k => m.erase k) m).lookup k = m.lookup k := by
  induction ks generalizing m with
  | nil => rfl
  | cons k' ks ih =>
    rw [List.mem_cons, not_or] at hk
    rw [List.foldl_cons, ih (m.erase k') hk.2, AList.lookup_erase_ne hk.1]

theorem entries_foldl_erase (ks : List ℤ) (m : AList fun _ : ℤ => BucketAggregation) :
    ∀ x ∈ (ks.foldl (fun m k => m.erase k) m).entries, x ∈ m.entries := by
  induction ks generalizing m with
  | nil => exact fun _ hx => hx
  | cons k ks ih => exact fun x hx => (List.kerase_sublist k m.entries).subset (ih (m.erase k) x hx)

theorem lookup_prune (ia : IntervalAggregation) {now k : ℤ} (hk : cutoff now ≤ k) :
    (ia.prune now).buckets.lookup k = ia.buckets.lookup k := by
  apply lookup_foldl_erase
  simp only [List.mem_filter, decide_eq_true_eq, not_and, not_lt]
  exact fun _ => hk

theorem Honest.ingest (h : ia.Honest) (ts : ℤ) (e : AnalyticsEntry) : (ia.ingest ts e).Honest := by
  intro x hx
  replace hx := entries_foldl_erase _ _ x hx
  refine forall_upsert (P := BucketAggregation.Honest) h ?_ x hx
  cases hl : ia.buckets.lookup (unix (Time.truncate ts ia.bucketSize)) with
  | none => exact honest_newBucket.add e
  | some b => exact (of_lookup (P := BucketAggregation.Honest) h hl).add e

/-- A bucket that the event's clock does not prune gets what the event adds. -/
theorem value_ingest (hμ : Measures w μ) (ia : IntervalAggregation) (ts : ℤ) (e : AnalyticsEntry) {k : ℤ} (hk : cutoff ts ≤ k) :
    value μ (ia.ingest ts e).buckets k =
      value μ ia.buckets k + if unix (Time.truncate ts ia.bucketSize) = k then w e else 0 := by
  have hprune : value μ (ia.ingest ts e).buckets k = value μ (upsert ia.buckets (unix (Time.truncate ts ia.bucketSize))
      fun b => (b.getD newBucketAggregation).add e) k := by
    rw [value, ingest, lookup_prune _ hk, value]
  rw [hprune]
  split
  case isTrue heq =>
    subst heq
    apply value_upsert_self
    rw [hμ.add]
    congr 1
    cases hl : ia.buckets.lookup (unix (Time.truncate ts ia.bucketSize)) <;> simp [value, hl, hμ.zero]
  case isFalse hne => rw [value_upsert_ne (Ne.symm hne), Nat.add_zero]

theorem ingestAll_cons {e : AnalyticsEntry} (he : e.timestamp ≠ 0) (l : List AnalyticsEntry) :
    ia.ingestAll (e :: l) = (ia.ingest e.timestamp e).ingestAll l := by
  rw [ingestAll, List.foldl_cons, if_neg he, ingestAll]

/-- Over a list of events: the size of the buckets stays, and a bucket that no event prunes has what
the events of that bucket add. -/
theorem ingestAll_spec (hμ : Measures w μ) {entries : List AnalyticsEntry} (hz : ∀ e ∈ entries, e.timestamp ≠ 0)
    (ia : IntervalAggregation) (hia : ia.Honest) :
    (ia.ingestAll entries).bucketSize = ia.bucketSize ∧ (ia.ingestAll entries).Honest ∧
    ∀ k, (∀ e ∈ entries, cutoff e.timestamp ≤ k) → value μ (ia.ingestAll entries).buckets k =
      value μ ia.buckets k + sumAt (fun e => unix (Time.truncate e.timestamp ia.bucketSize)) w entries k := by
  induction entries generalizing ia with
  | nil => exact ⟨rfl, hia, fun k _ => rfl⟩
  | cons e l ih =>
    rw [ingestAll_cons (hz e List.mem_cons_self)]
    obtain ⟨hsize, hhonest, hvalue⟩ := ih (fun x hx => hz x (List.mem_cons_of_mem e hx)) _ (hia.ingest e.timestamp e)
    refine ⟨hsize, hhonest, fun k hk => ?_⟩
    rw [hvalue k fun x hx => hk x (List.mem_cons_of_mem e hx), value_ingest hμ ia _ e (hk e List.mem_cons_self), sumAt_cons, Nat.add_assoc]
    rfl

end IntervalAggregation

/-! The loop of the snapshot. -/

structure SnapshotAcc.Honest (acc : SnapshotAcc) : Prop where
  total : acc.total.Honest
  groups : ∀ g, HonestMap (acc.groupedAcc g)

section

variable {ia : IntervalAggregation} {acc : SnapshotAcc}

/-- What one counter has in the total, in each grouping and in the series. -/
structure SnapshotAcc.Reads (c : Tallied) (acc : SnapshotAcc) (n : ℕ) (grouped : GroupBy → ℕ) : Prop where
  total : c.of acc.total = n
  groups : ∀ g, Groups.total (fun a => c.of a) (acc.groupedAcc g) = grouped g
  series : (acc.series.map fun p => c.ofPoint p).sum = n

def bucketCount (c : Tallied) (ia : IntervalAggregation) (t : ℤ) : ℕ := value (fun b => c.of b.total) ia.buckets (unix t)

def groupCount (c : Tallied) (g : GroupBy) (ia : IntervalAggregation) (t : ℤ) : ℕ :=
  value (fun b => total (fun a => c.of a) (b.groups g)) ia.buckets (unix t)

theorem ofPoint_point (c : Tallied) {b : BucketAggregation} (h : b.Honest) (t : ℤ) : c.ofPoint (b.point t) = c.of b.total := by
  cases c with
  | requests => exact b.total.toSummary_count
  | cacheHits => rfl
  | rateLimited => exact StatsAccumulator.toSummary_rateLimitedCount h.total
  | upstreamErrors => exact StatsAccumulator.toSummary_upstreamErrorCount h.total

theorem SnapshotAcc.Honest.visit (h : acc.Honest) (hia : ia.Honest) (t : ℤ) : (acc.visit ia t).Honest := by
  rw [SnapshotAcc.visit]
  split
  case h_1 => exact ⟨h.total, h.groups⟩
  case h_2 b hb =>
    have hbh := of_lookup (P := BucketAggregation.Honest) hia hb
    exact ⟨StatsAccumulator.honest_merge h.total, fun g => honest_mergeGroups (h.groups g) (hbh.groups g)⟩

theorem SnapshotAcc.Reads.visit {c : Tallied} {n : ℕ} {grouped : GroupBy → ℕ} (hr : acc.Reads c n grouped) (h : acc.Honest)
    (hia : ia.Honest) (t : ℤ) :
    (acc.visit ia t).Reads c (n + bucketCount c ia t) fun g => grouped g + groupCount c g ia t := by
  rw [SnapshotAcc.visit]
  split
  case h_1 hb =>
    have hzero : ∀ μ : BucketAggregation → ℕ, value μ ia.buckets (unix t) = 0 := by simp [value, hb]
    have hpoint : c.ofPoint ⟨t, 0, 0, 0, 0, none, none, none, none, none⟩ = 0 := by cases c <;> rfl
    simp only [bucketCount, groupCount, hzero, Nat.add_zero]
    exact ⟨hr.total, hr.groups, by simp [hr.series, hpoint]⟩
  case h_2 b hb =>
    have hbh := of_lookup (P := BucketAggregation.Honest) hia hb
    have hval : ∀ μ : BucketAggregation → ℕ, value μ ia.buckets (unix t) = μ b := by simp [value, hb]
    simp only [bucketCount, groupCount, hval]
    refine ⟨?_, fun g => ?_, ?_⟩
    · rw [StatsAccumulator.of_merge hbh.total, hr.total]
    · rw [total_mergeGroups c (h.groups g) (hbh.groups g), hr.groups]
    · simp [hr.series, ofPoint_point c hbh]

theorem visit_series (acc : SnapshotAcc) (ia : IntervalAggregation) (t : ℤ) :
    (acc.visit ia t).series.map SummaryBucket.bucketStart = acc.series.map SummaryBucket.bucketStart ++ [t] := by
  rw [SnapshotAcc.visit]
  split <;> simp [BucketAggregation.point]

/-- Over the whole loop: what is gathered is what the visited buckets have. -/
theorem visits_spec (c : Tallied) (hia : ia.Honest) (ts : List ℤ) {n : ℕ} {grouped : GroupBy → ℕ} {acc : SnapshotAcc}
    (h : acc.Honest) (hr : acc.Reads c n grouped) :
    (ts.foldl (fun acc t => acc.visit ia t) acc).Honest ∧
    (ts.foldl (fun acc t => acc.visit ia t) acc).Reads c (n + (ts.map (bucketCount c ia)).sum)
      (fun g => grouped g + (ts.map (groupCount c g ia)).sum) ∧
    (ts.foldl (fun acc t => acc.visit ia t) acc).series.map SummaryBucket.bucketStart = acc.series.map SummaryBucket.bucketStart ++ ts := by
  induction ts generalizing acc n grouped with
  | nil => simpa using ⟨h, hr⟩
  | cons t ts ih =>
    obtain ⟨hh, hreads, hseries⟩ := ih (h.visit hia t) (hr.visit h hia t)
    refine ⟨hh, ?_, ?_⟩
    · simp only [List.foldl_cons, List.map_cons, List.sum_cons, ← Nat.add_assoc]
      exact hreads
    · rw [List.foldl_cons, hseries, visit_series, List.append_assoc, List.singleton_append]

end

/-! The reported range. -/

/-- What the tables say of an interval: whole buckets, of a second at least, that make up a span no
longer than the history. -/
theorem supported_window {id : String} {size : ℤ} (h : supportedIntervals id = some size) :
    second ≤ size ∧ ∃ n : ℕ, intervalRangeWindow id = some (n * size) ∧ 1 ≤ n ∧ n * size ≤ defaultHistoryWindow := by
  simp only [supportedIntervals] at h
  split at h
  case h_5 => cases h
  all_goals obtain rfl := Option.some.inj h
  · exact ⟨by decide, 60, by decide⟩
  · exact ⟨by decide, 72, by decide⟩
  · exact ⟨by decide, 96, by decide⟩
  · exact ⟨by decide, 168, by decide⟩

/-- The reported buckets step from one that begins within the history before `now`. -/
theorem reportedStarts_eq {id : String} {size : ℤ} (h : supportedIntervals id = some size) (now : ℤ) :
    ∃ (start : ℤ) (n : ℕ), reportedStarts id size now = ((List.range n).map fun i : ℕ => start + i * size) ∧
      size ∣ start ∧ now - defaultHistoryWindow < start := by
  obtain ⟨hsec, n, hwin, hn, hle⟩ := supported_window h
  have hpos : 0 < size := second_pos.trans_le hsec
  have hwpos : 0 < (n : ℤ) * size := Int.mul_pos (by omega) hpos
  refine ⟨Time.truncate now size - (n - 1) * size, n, ?_, ?_, ?_⟩
  · simp only [reportedStarts, hwin, Option.getD_some, if_neg (not_le.mpr hwpos), Int.mul_tdiv_cancel _ hpos.ne', Int.toNat_natCast]
  · exact dvd_sub (dvd_truncate hpos now) (dvd_mul_left size _)
  · have := lt_truncate_add hpos now
    rw [sub_mul, one_mul]
    omega

theorem sum_weight (c : Tallied) (l : List AnalyticsEntry) : (l.map c.weight).sum = (l.filter c.counts).length := by
  induction l with
  | nil => rfl
  | cons e l ih =>
    by_cases h : c.counts e = true <;> simp [Tallied.weight, h, ih, Nat.add_comm]

/-- The events of a counter whose bucket is reported. -/
def reportedEvents (c : Tallied) (id : String) (size now : ℤ) (entries : List AnalyticsEntry) : List AnalyticsEntry :=
  entries.filter fun e => c.counts e ∧ Time.truncate e.timestamp size ∈ reportedStarts id size now

/-- The seconds of the reported buckets find every event whose bucket is reported, and no other. -/
theorem sum_reported (c : Tallied) {id : String} {size : ℤ} (hid : supportedIntervals id = some size) (now : ℤ)
    (entries : List AnalyticsEntry) :
    ((reportedStarts id size now).map fun t =>
      sumAt (fun e => unix (Time.truncate e.timestamp size)) c.weight entries (unix t)).sum =
    (reportedEvents c id size now entries).length := by
  obtain ⟨start, n, hstarts, hdvd, -⟩ := reportedStarts_eq hid now
  obtain ⟨hsec, -⟩ := supported_window hid
  have hpos : 0 < size := second_pos.trans_le hsec
  have hnodup : ((reportedStarts id size now).map unix).Nodup := by
    rw [hstarts]
    exact starts_unix_nodup hsec hdvd n
  have hmem : ∀ e : AnalyticsEntry, unix (Time.truncate e.timestamp size) ∈ (reportedStarts id size now).map unix ↔
      Time.truncate e.timestamp size ∈ reportedStarts id size now := by
    intro e
    refine ⟨fun h => ?_, List.mem_map_of_mem⟩
    obtain ⟨t, ht, heq⟩ := List.mem_map.mp h
    have htd : size ∣ t := by
      rw [hstarts, mem_starts hpos] at ht
      exact (dvd_sub_left hdvd).mp ht.1
    exact unix_inj hsec htd (dvd_truncate hpos _) heq ▸ ht
  refine (sum_sumAt_map (fun e => unix (Time.truncate e.timestamp size)) c.weight hnodup entries).trans ?_
  simp only [hmem, sum_weight, reportedEvents, List.filter_filter, Bool.decide_and, Bool.decide_eq_true]

/-- What the loop gathers is what the events of the reported buckets add up to. -/
theorem snapshotLoop_spec {id : String} {size : ℤ} (hid : supportedIntervals id = some size) (now : ℤ)
    (entries : List AnalyticsEntry) (hz : ∀ e ∈ entries, e.timestamp ≠ 0) (hle : ∀ e ∈ entries, e.timestamp ≤ now) (c : Tallied) :
    (snapshotLoop id ((newIntervalAggregation size).ingestAll entries) now).Honest ∧
    (snapshotLoop id ((newIntervalAggregation size).ingestAll entries) now).Reads c (reportedEvents c id size now entries).length
      (fun _ => (reportedEvents c id size now entries).length) ∧
    (snapshotLoop id ((newIntervalAggregation size).ingestAll entries) now).series.map SummaryBucket.bucketStart =
      reportedStarts id size now := by
  have hempty : (newIntervalAggregation size).Honest := fun x hx => by cases hx
  obtain ⟨hsize, hhonest, hbucket⟩ := IntervalAggregation.ingestAll_spec (measures_total c) hz _ hempty
  have hgroup := fun g => (IntervalAggregation.ingestAll_spec (measures_groups c g) hz _ hempty).2.2
  replace hsize : ((newIntervalAggregation size).ingestAll entries).bucketSize = size := hsize
  -- no event's clock prunes a reported bucket
  have hkeep : ∀ t ∈ reportedStarts id size now, ∀ e ∈ entries, IntervalAggregation.cutoff e.timestamp ≤ unix t := by
    intro t ht e he
    obtain ⟨start, n, hstarts, -, hrange⟩ := reportedStarts_eq hid now
    rw [hstarts, mem_starts (second_pos.trans_le (supported_window hid).1)] at ht
    have := hle e he
    exact unix_mono (by omega)
  have hfirst : SnapshotAcc.empty.Honest := ⟨honest_zero, fun _ x hx => by cases hx⟩
  have hnone : SnapshotAcc.empty.Reads c 0 fun _ => 0 := ⟨c.of_zero, fun _ => rfl, rfl⟩
  obtain ⟨hacc, hreads, hseries⟩ := visits_spec c hhonest (reportedStarts id size now) hfirst hnone
  rw [snapshotLoop, hsize]
  refine ⟨hacc, ⟨hreads.total.trans ?_, fun g => (hreads.groups g).trans ?_, hreads.series.trans ?_⟩, hseries⟩
  all_goals
    rw [Nat.zero_add, ← sum_reported c hid now entries]
    refine congrArg List.sum (List.map_congr_left fun t ht => ?_)
  · exact (hbucket (unix t) (hkeep t ht)).trans (Nat.zero_add _)
  · exact (hgroup g (unix t) (hkeep t ht)).trans (Nat.zero_add _)
  · exact (hbucket (unix t) (hkeep t ht)).trans (Nat.zero_add _)

/-- For every counter the total, the sum of the series, the sum of each grouping and the number of the
events whose bucket is reported are the same. -/
theorem snapshot_counts_every_event {id : String} {size : ℤ} (hid : supportedIntervals id = some size) (now : ℤ)
    (entries : List AnalyticsEntry) (hz : ∀ e ∈ entries, e.timestamp ≠ 0) (hle : ∀ e ∈ entries, e.timestamp ≤ now) (c : Tallied) :
    let snap := buildSnapshot id ((newIntervalAggregation size).ingestAll entries) now
    c.ofSummary snap.1.summary = ((snap.1.series.map fun p => c.ofPoint p).sum : ℕ) ∧
    (∀ g, c.ofSummary snap.1.summary = ((snap.2 g).entries.map fun x => c.ofSummary x.2).sum) ∧
    c.ofSummary snap.1.summary = ((entries.filter fun e =>
      c.counts e ∧ Time.truncate e.timestamp size ∈ snap.1.series.map SummaryBucket.bucketStart).length : ℕ) := by
  intro snap
  obtain ⟨hacc, hreads, hseries⟩ := snapshotLoop_spec hid now entries hz hle c
  have htotal : c.ofSummary snap.1.summary = ((reportedEvents c id size now entries).length : ℕ) := by
    rw [← hreads.total]
    exact StatsAccumulator.ofSummary_toSummary hacc.total c
  refine ⟨?_, fun g => ?_, ?_⟩
  · rw [htotal, ← hreads.series]
    rfl
  · rw [htotal, ← hreads.groups g]
    exact (sum_summarize c (hacc.groups g)).symm
  · rw [htotal, reportedEvents, ← hseries]
    rfl

/-- Two events a day apart, the later one first, seen in the hour after it: the older one is not reported. -/
theorem snapshot_counts_one_hour :
    let e : AnalyticsEntry := ⟨"/v1", "svc", "edge", 100 * hour, "GET", "", 5, 3, false, 0, 0, 429, false⟩
    Tallied.rateLimited.ofSummary (buildSnapshot "1m"
      ((newIntervalAggregation minute).ingestAll [e, { e with timestamp := 76 * hour }]) (100 * hour + minute)).1.summary = 1 := by
  intro e
  have hid : supportedIntervals "1m" = some minute := rfl
  have h := (snapshot_counts_every_event hid (100 * hour + minute) [e, { e with timestamp := 76 * hour }]
    (by decide) (by decide) .rateLimited).2.2
  refine h.trans ?_
  rw [show ([e, { e with timestamp := 76 * hour }].filter fun x => Tallied.rateLimited.counts x ∧ Time.truncate x.timestamp minute ∈
    (buildSnapshot "1m" ((newIntervalAggregation minute).ingestAll [e, { e with timestamp := 76 * hour }])
      (100 * hour + minute)).1.series.map SummaryBucket.bucketStart).length = 1 by decide +kernel]
  rfl

end Gate
