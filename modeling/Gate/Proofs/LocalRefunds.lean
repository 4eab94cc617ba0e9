import Gate.Proofs.LocalWindows
import Gate.Sanity.Validate
import Gate.Spec.Checks
import Gate.Spec.Compile

/-! What reservations leave behind in the local limiter. A reservation is charged there by the
fallback rule's request and refunded by the check's own cost; the two agree or the count drifts. -/

namespace Gate

open Conc

variable {wid : String → ℤ} {C : Prop} {g : LocalState}

/-! ### Reservations -/

theorem heldSum_append (key : String) {ds ds' : List Decision} {cs cs' : List ℤ} (h : ds.length = cs.length) :
    heldSum key (ds ++ ds') (cs ++ cs') = heldSum key ds cs + heldSum key ds' cs' := by
  unfold heldSum
  rw [List.zip_append h, List.map_append, List.sum_append]

theorem heldSum_foreign (key : String) {ds : List Decision} (cs : List ℤ) (h : ∀ d ∈ ds, d.window? = none) :
    heldSum key ds cs = 0 := by
  by_contra hne
  obtain ⟨d, hd, hk⟩ := exists_of_heldSum hne
  rw [h d hd] at hk
  cases hk

theorem heldSum_denied (key : String) (ds : List Decision) (cs : List ℤ) :
    heldSum key (ds.map fun d => { d with allowed := false }) cs = heldSum key ds cs := by
  unfold heldSum
  rw [List.zip_map_left, List.map_map]
  rfl

theorem heldSum_windows (key : String) (ds : List Decision) (cs : List ℤ) :
    heldSum key ds cs = (((ds.map Decision.window?).zip cs).map fun x => if x.1 = some key then x.2 else 0).sum := by
  unfold heldSum
  rw [List.zip_map_left, List.map_map]
  rfl

section
variable (f : Request → ℤ) (key : String) {ds ds' : List Decision} {qs qs' : List Request}

theorem admittedSum_snoc (h : ds.length = qs.length) (d : Decision) (q : Request) :
    admittedSum f key (ds ++ [d]) (qs ++ [q]) = admittedSum f key ds qs + d.on (f q) key := by
  rw [← heldSum_map, List.map_append, heldSum_append key (by rw [h, List.length_map]), heldSum_map]
  exact congrArg _ (add_zero _)

/-- The checks that were not made add nothing. -/
theorem admittedSum_rolledBack (h : ds.length = qs.length) (hds : ∀ d ∈ ds', d.window? = none) :
    admittedSum f key (ds.map (fun d => { d with allowed := false }) ++ ds') (qs ++ qs') = admittedSum f key ds qs := by
  rw [← heldSum_map, List.map_append, heldSum_append key (by rw [List.length_map, List.length_map, h]),
    heldSum_foreign key _ hds, heldSum_denied, heldSum_map, add_zero]

theorem admittedSum_add (f' : Request → ℤ) (ds : List Decision) (qs : List Request) :
    admittedSum (fun q => f q + f' q) key ds qs = admittedSum f key ds qs + admittedSum f' key ds qs := by
  unfold admittedSum
  induction ds.zip qs with
  | nil => rfl
  | cons x xs ih =>
    simp only [List.map_cons, List.sum_cons, ih]
    split_ifs <;> omega

theorem admittedSum_sub (f' : Request → ℤ) (ds : List Decision) (qs : List Request) :
    admittedSum (fun q => f q - f' q) key ds qs = admittedSum f key ds qs - admittedSum f' key ds qs := by
  rw [eq_sub_iff_add_eq, ← admittedSum_add]
  simp only [sub_add_cancel]

theorem admittedSum_congr {f f' : Request → ℤ} (key : String) (ds : List Decision) {qs : List Request}
    (h : ∀ q ∈ qs, f q = f' q) : admittedSum f key ds qs = admittedSum f' key ds qs := by
  rw [← heldSum_map, ← heldSum_map, List.map_congr_left h]

end

variable {rule : Request → Option Request}

/-- The decision a reservation keeps of a check. -/
def outcome : Except LimitErr Decision → Decision
  | .ok d => d
  | .error _ => Decision.zero

/-- What one check does to the windows. -/
structure Checked (wid : String → ℤ) (rule : Request → Option Request) (req : Request) (g : LocalState)
    (res : Except LimitErr Decision) (g' : LocalState) : Prop where
  current : StillCurrent wid g g'
  holds : Holds wid g' (outcome res)
  count : ∀ k, used wid g' k = used wid g k + (outcome res).on (charged rule req) k

theorem checked_foreign {req : Request} {res : Except LimitErr Decision} (h : Lease.Foreign res) :
    Checked wid rule req g res g := by
  have hw : (outcome res).window? = none := by
    rcases res with e | d
    · rfl
    · exact h d rfl
  exact ⟨fun _ hk => hk, holds_of_foreign hw, fun k => (add_eq_left.mpr (Decision.on_none hw _ k)).symm⟩

theorem checked_local {req sreq : Request} {d : Decision} {g' : LocalState} (hr : rule req = some sreq)
    (h : LocalAnswer wid sreq g d g') (hc : StillCurrent wid g g') :
    Checked wid rule req g (.ok { d with fallback := true }) g' := by
  rcases h with ⟨-, hadj, hu⟩ | ⟨w, hallowed, hadj, hgen, hcur, hu⟩
  · have hw : (outcome (.ok { d with fallback := true })).window? = none := by
      rw [outcome, Decision.window?, hadj]
    refine ⟨hc, holds_of_foreign hw, fun k => ?_⟩
    rw [hu, Decision.on_none hw, add_zero]
  · have hw : (outcome (.ok { d with fallback := true })).window? = some w.key := by
      rw [outcome, Decision.window?, hadj]
    refine ⟨hc, fun w' hw' => ?_, fun k => ?_⟩
    · cases hadj.symm.trans hw'
      exact ⟨hallowed, hgen, hcur⟩
    · simp only [hu, Decision.on, hw, charged, hr, Option.getD_some, Option.some.injEq, eq_comm]

theorem always_fallback (o : LeaseOptions) (edge fuel : ℕ) (req : Request) (hs : Safe C g) :
    (localRuns wid).always (Safe C) (fallbackAllow o edge fuel rule req) (Checked wid rule req g) g := by
  unfold fallbackAllow
  apply Logic.always_bind
  refine always_apart (Lease.apart_allow o edge fuel req) hs fun res hres => ?_
  rcases res with (- | - | -) | d
  · rcases hr : rule req with - | sreq
    · exact ⟨hs, checked_foreign hres⟩
    · apply Logic.always_bind
      refine Logic.always_conseq (always_local edge sreq hs) fun d g' hs' h => ?_
      exact ⟨hs', checked_local hr h.1 h.2⟩
  · exact ⟨hs, checked_foreign hres⟩
  · exact ⟨hs, checked_foreign hres⟩
  · exact ⟨hs, checked_foreign hres⟩

/-- The checks `done` of a reservation that began at `g₀`: their costs are recorded and their
charges are in their windows. -/
structure Booked (wid : String → ℤ) (rule : Request → Option Request) (g₀ : LocalState) (done : List Request)
    (results : List Decision) (costs : List ℤ) (g : LocalState) : Prop where
  length : results.length = done.length
  costs_eq : costs = done.map recorded
  current : StillCurrent wid g₀ g
  holds : ∀ d ∈ results, Holds wid g d
  count : ∀ k, used wid g k = used wid g₀ k + admittedSum (charged rule) k results done

variable {g₀ : LocalState} {done : List Request} {results : List Decision} {costs : List ℤ}

theorem Booked.snoc (h : Booked wid rule g₀ done results costs g) {req : Request} {res : Except LimitErr Decision}
    {g' : LocalState} (hc : Checked wid rule req g res g') :
    Booked wid rule g₀ (done ++ [req]) (results ++ [outcome res]) (costs ++ [max req.cost 1]) g' := by
  refine ⟨by simp [h.length], by simp [h.costs_eq, recorded], fun k hk => hc.current k (h.current k hk), ?_, fun k => ?_⟩
  · intro d hd
    rcases List.mem_append.mp hd with hd | hd
    · exact (h.holds d hd).mono hc.current
    · rw [List.mem_singleton.mp hd]
      exact hc.holds
  · rw [hc.count, h.count, admittedSum_snoc _ _ h.length, add_assoc]

/-- A check that was not admitted leaves the reservation as it was. -/
theorem Booked.keep (h : Booked wid rule g₀ done results costs g) {req : Request} {res : Except LimitErr Decision}
    {g' : LocalState} (hc : Checked wid rule req g res g') (hd : (outcome res).allowed = false) :
    (outcome res).window? = none ∧ Booked wid rule g₀ done results costs g' := by
  have hw : (outcome res).window? = none := by
    rw [Option.eq_none_iff_forall_ne_some]
    intro k hk
    rw [hc.holds.allowed hk] at hd
    cases hd
  refine ⟨hw, h.length, h.costs_eq, fun k hk => hc.current k (h.current k hk),
    fun d hd => (h.holds d hd).mono hc.current, fun k => ?_⟩
  rw [hc.count, Decision.on_none hw, add_zero, h.count]

/-- Under `C` the counts were not negative before, and what is charged is what is recorded. -/
theorem Booked.refundable (h : Booked wid rule g₀ done results costs g) (hs : Safe C g)
    (hC : C → NonNeg g₀ ∧ ∀ q ∈ done, charged rule q = recorded q) : Refundable wid C g results costs := by
  refine ⟨h.holds, fun c hc => ?_, hs, fun c k => ?_⟩
  · rw [h.costs_eq] at hc
    obtain ⟨q, -, rfl⟩ := List.mem_map.mp hc
    exact (by omega : (0 : ℤ) ≤ 1).trans (le_max_right _ _)
  · by_cases hz : heldSum k results costs = 0
    · rw [hz]
      exact hs c k
    · obtain ⟨d, hd, hk⟩ := exists_of_heldSum hz
      have hcount := h.count k
      rw [used, if_pos ((h.holds d hd).current hk), admittedSum_congr k results (hC c).2, ← heldSum_map,
        ← h.costs_eq] at hcount
      have hnn : 0 ≤ used wid g₀ k := by
        unfold used
        split_ifs
        · exact (hC c).1 k
        · exact le_rfl
      omega

/-- What `Reserve` leaves behind. -/
structure AfterReserve (wid : String → ℤ) (rule : Request → Option Request) (g₀ : LocalState) (checks : List Request)
    (r : Reservation) (g : LocalState) : Prop where
  current : StillCurrent wid g₀ g
  admitted : r.allowed = true → Booked wid rule g₀ checks r.results r.costs g
  refused : r.allowed = false → ∀ k, used wid g k = used wid g₀ k +
    admittedSum (fun q => charged rule q - recorded q) k r.results checks

/-- The refund of the checks made so far, before one that fails. -/
theorem Booked.always_rollback (fuel : ℕ) (h : Booked wid rule g₀ done results costs g) (hs : Safe C g)
    (hC : C → NonNeg g₀ ∧ ∀ q ∈ done, charged rule q = recorded q) :
    (localRuns wid).always (Safe C) (rollback fuel results costs) (fun results' g' =>
      results' = results.map (fun d => { d with allowed := false }) ∧ StillCurrent wid g₀ g' ∧
      ∀ k, used wid g' k = used wid g₀ k +
        admittedSum (fun q => charged rule q - recorded q) k results done) g := by
  have hr := h.refundable hs hC
  have hlen : results.length = costs.length := by rw [h.length, h.costs_eq, List.length_map]
  refine Logic.always_conseq (hr.always_rollback fuel hlen) fun results' g' _ hg => ?_
  refine ⟨hg.1, fun k hk => hg.2.current k (h.current k hk), fun k => ?_⟩
  rw [hg.2.used fun hne => hr.current (neg_ne_zero.mp hne), h.count, admittedSum_sub, h.costs_eq, heldSum_map]
  omega

theorem always_reserveFrom (o : LeaseOptions) (edge fuel : ℕ) {checks rest : List Request} {r : Reservation}
    (hchecks : checks = done ++ rest) (h : Booked wid rule g₀ done r.results r.costs g) (hr : r.allowed = false)
    (hs : Safe C g) (hC : C → NonNeg g₀ ∧ ∀ q ∈ checks, charged rule q = recorded q) :
    (localRuns wid).always (Safe C) (reserveFrom (fallbackAllow o edge fuel rule) fuel checks rest r)
      (fun out g' => AfterReserve wid rule g₀ checks out.1 g') g := by
  induction rest generalizing done r g with
  | nil =>
    rw [List.append_nil] at hchecks
    subst hchecks
    exact ⟨hs, h.current, fun _ => h, nofun⟩
  | cons req rest ih =>
    have hC' : C → NonNeg g₀ ∧ ∀ q ∈ done, charged rule q = recorded q := fun c =>
      ⟨(hC c).1, fun q hq => (hC c).2 q (hchecks ▸ List.mem_append_left _ hq)⟩
    have hchecks' : checks = (done ++ [req]) ++ rest := by rw [hchecks, List.append_assoc]; rfl
    have refunded : ∀ k (ds : List Decision), (∀ d ∈ ds, d.window? = none) →
        admittedSum (fun q => charged rule q - recorded q) k
          (r.results.map (fun d => { d with allowed := false }) ++ ds) checks =
        admittedSum (fun q => charged rule q - recorded q) k r.results done := by
      intro k ds hds
      rw [hchecks, admittedSum_rolledBack _ k h.length hds]
    unfold reserveFrom
    apply Logic.always_bind
    refine Logic.always_conseq (always_fallback o edge fuel req hs) fun res g₁ hs₁ hc => ?_
    rcases res with e | d
    · by_cases hsh : req.shadow = true
      · simp only [hsh, if_true]
        exact ih hchecks' (h.snoc hc) hr hs₁
      · simp only [hsh]
        apply Logic.always_bind
        refine Logic.always_conseq ((h.keep hc rfl).2.always_rollback fuel hs₁ hC') fun results' g' hs' hg => ?_
        obtain ⟨rfl, hcur, hu⟩ := hg
        refine ⟨hs', hcur, fun ha => absurd (hr.symm.trans ha) nofun, fun _ k => ?_⟩
        rw [hu k]
        refine congrArg _ (refunded k _ fun d hd => ?_).symm
        rw [List.eq_of_mem_replicate hd]
        rfl
    · by_cases hd : d.allowed = true
      · simp only [hd, if_true]
        exact ih hchecks' (h.snoc hc) hr hs₁
      by_cases hsh : req.shadow = true
      · simp only [hd, hsh, if_true]
        exact ih hchecks' (h.snoc hc) hr hs₁
      · simp only [hd, hsh]
        have hkeep := h.keep hc (Bool.eq_false_of_not_eq_true hd)
        apply Logic.always_bind
        refine Logic.always_conseq (hkeep.2.always_rollback fuel hs₁ hC') fun results' g' hs' hg => ?_
        obtain ⟨rfl, hcur, hu⟩ := hg
        refine ⟨hs', hcur, fun ha => absurd (hr.symm.trans ha) nofun, fun _ k => ?_⟩
        rw [hu k]
        simp only [Reservation.pad, List.append_assoc]
        refine congrArg _ (refunded k _ fun d' hd' => ?_).symm
        rcases List.mem_append.mp hd' with hd' | hd'
        · rw [List.mem_singleton.mp hd']
          exact hkeep.1
        · rw [List.eq_of_mem_replicate hd']
          rfl

theorem always_reserve (o : LeaseOptions) (edge fuel : ℕ) (checks : List Request) (hs : Safe C g)
    (hC : C → ∀ q ∈ checks, charged rule q = recorded q) :
    (localRuns wid).always (Safe C) (reserve (fallbackAllow o edge fuel rule) fuel checks)
      (fun out g' => AfterReserve wid rule g checks out.1 g') g := by
  have h : Booked wid rule g [] [] [] g :=
    ⟨rfl, rfl, fun _ hk => hk, fun _ hd => absurd hd List.not_mem_nil, fun k => (add_zero _).symm⟩
  exact always_reserveFrom o edge fuel rfl h rfl hs fun c => ⟨hs c, hC c⟩

/-! ### A client's calls -/

/-- What a booking may still give back to a window. -/
def Booking.owed (b : Booking) (k : String) : ℤ := if b.live then heldSum k b.res.results b.res.costs else 0

/-- The open bookings of a client: their charges are in their windows. -/
structure Outstanding (wid : String → ℤ) (bs : List Booking) (g : LocalState) : Prop where
  holds : ∀ b ∈ bs, b.live = true → ∀ d ∈ b.res.results, Holds wid g d
  nonneg : ∀ b ∈ bs, b.live = true → ∀ c ∈ b.res.costs, 0 ≤ c
  covered : ∀ k, (bs.map (·.owed k)).sum ≤ used wid g k
  safe : NonNeg g

variable {bs : List Booking}

theorem Outstanding.owed_nonneg (h : Outstanding wid bs g) (k : String) : ∀ b ∈ bs, 0 ≤ b.owed k := by
  intro b hb
  unfold Booking.owed
  split_ifs with hl
  · exact heldSum_nonneg k (h.nonneg b hb hl)
  · exact le_rfl

theorem Outstanding.refundable (h : Outstanding wid bs g) {b : Booking} (hb : b ∈ bs) (hl : b.live = true) :
    Refundable wid True g b.res.results b.res.costs := by
  refine ⟨h.holds b hb hl, h.nonneg b hb hl, fun _ => h.safe, fun _ k => ?_⟩
  by_cases hz : heldSum k b.res.results b.res.costs = 0
  · rw [hz]
    exact h.safe k
  · obtain ⟨d, hd, hk⟩ := exists_of_heldSum hz
    have hle : b.owed k ≤ (bs.map (·.owed k)).sum := by
      refine List.single_le_sum (fun x hx => ?_) _ (List.mem_map_of_mem hb)
      obtain ⟨b', hb', rfl⟩ := List.mem_map.mp hx
      exact h.owed_nonneg k b' hb'
    have hused := hle.trans (h.covered k)
    rw [Booking.owed, if_pos hl, used, if_pos ((h.holds b hb hl d hd).current hk)] at hused
    exact hused

theorem Outstanding.reserved {checks : List Request} {r : Reservation} {g' : LocalState} (h : Outstanding wid bs g)
    (hfair : ∀ q ∈ checks, charged rule q = recorded q) (hr : AfterReserve wid rule g checks r g') (hs : NonNeg g') :
    Outstanding wid (bs ++ [⟨r, false⟩]) g' := by
  have hlive : Booking.live ⟨r, false⟩ = r.allowed := Bool.and_true _
  refine ⟨fun b hb hl => ?_, fun b hb hl => ?_, fun k => ?_, hs⟩
  · rcases List.mem_append.mp hb with hb | hb
    · exact fun d hd => (h.holds b hb hl d hd).mono hr.current
    · rw [List.mem_singleton] at hb
      subst hb
      exact (hr.admitted (hlive ▸ hl)).holds
  · rcases List.mem_append.mp hb with hb | hb
    · exact h.nonneg b hb hl
    · rw [List.mem_singleton] at hb
      subst hb
      exact ((hr.admitted (hlive ▸ hl)).refundable (C := False) nofun nofun).nonneg
  · have hk := h.covered k
    rw [List.map_append, List.sum_append, List.map_singleton, List.sum_singleton, Booking.owed, hlive]
    rcases ha : r.allowed with - | -
    · have hu := hr.refused ha k
      rw [admittedSum_sub, admittedSum_congr k r.results hfair, sub_self] at hu
      rw [if_neg (by simp)]
      omega
    · have hb := hr.admitted ha
      have hu := hb.count k
      rw [admittedSum_congr k r.results hfair, ← heldSum_map, ← hb.costs_eq] at hu
      rw [if_pos rfl]
      dsimp only
      omega

theorem heldSum_settle (k : String) (actual : ℤ) (ds : List Decision) (cs : List ℤ) :
    -heldSum k ds cs ≤ heldSum k ds (cs.map (max actual 0 - ·)) := by
  induction ds generalizing cs with
  | nil => exact le_rfl
  | cons d ds ih =>
    rcases cs with - | ⟨c, cs⟩
    · simp
    · have := ih cs
      rw [List.map_cons, heldSum_cons, heldSum_cons]
      unfold Decision.on
      split_ifs <;> omega

theorem Outstanding.settled {i : ℕ} {b : Booking} {actual : ℤ} {g' : LocalState} (h : Outstanding wid bs g)
    (hi : bs[i]? = some b) (hl : b.live = true)
    (hg : Shifted (fun k => heldSum k b.res.results (b.res.costs.map (max actual 0 - ·))) g g') (hs : NonNeg g') :
    Outstanding wid (bs.set i { b with settled := true }) g' := by
  have hb : b ∈ bs := List.mem_of_getElem? hi
  have hdead : Booking.live { b with settled := true } = false := Bool.and_false _
  have old : ∀ b' ∈ bs.set i { b with settled := true }, b'.live = true → b' ∈ bs := by
    intro b' hb' hl'
    rcases List.mem_or_eq_of_mem_set hb' with hb' | rfl
    · exact hb'
    · rw [hdead] at hl'
      cases hl'
  refine ⟨fun b' hb' hl' d hd => (h.holds b' (old b' hb' hl') hl' d hd).mono hg.current,
    fun b' hb' hl' => h.nonneg b' (old b' hb' hl') hl', fun k => ?_, hs⟩
  have hk := h.covered k
  have hused : used wid g' k = used wid g k + heldSum k b.res.results (b.res.costs.map (max actual 0 - ·)) :=
    hg.used fun hne => (h.refundable hb hl).current hne
  have hle := heldSum_settle k actual b.res.results b.res.costs
  have hlt : i < (bs.map (·.owed k)).length := by
    rw [List.length_map]
    exact (List.getElem?_eq_some_iff.mp hi).1
  have hbi : (bs.map (·.owed k))[i] = heldSum k b.res.results b.res.costs := by
    rw [List.getElem_map, (List.getElem?_eq_some_iff.mp hi).2, Booking.owed, if_pos hl]
  rw [List.map_set, List.sum_set', dif_pos hlt, hbi, Booking.owed, hdead, if_neg (by simp)]
  omega

/-- Every check of the calls is charged what is recorded. -/
def LimitCall.Fair : LimitCall → Prop
  | .reserve rule checks => ∀ q ∈ checks, charged rule q = recorded q
  | .settle _ _ => True

theorem always_client (o : LeaseOptions) (edge fuel : ℕ) {calls : List LimitCall} (hfair : ∀ c ∈ calls, c.Fair)
    (h : Outstanding wid bs g) :
    (localRuns wid).always (Safe True) (client o edge fuel calls bs) (fun _ _ => True) g := by
  induction calls generalizing bs g with
  | nil => exact ⟨fun _ => h.safe, trivial⟩
  | cons c calls ih =>
    have hfair' : ∀ c ∈ calls, c.Fair := fun c hc => hfair c (List.mem_cons_of_mem _ hc)
    rcases c with ⟨rule, checks⟩ | ⟨i, actual⟩
    · have hc : ∀ q ∈ checks, charged rule q = recorded q := hfair _ List.mem_cons_self
      rw [client]
      apply Logic.always_bind
      refine Logic.always_conseq (always_reserve o edge fuel checks (fun _ => h.safe) fun _ => hc)
        fun out g' hs hr => ?_
      exact ih hfair' (h.reserved hc hr (hs trivial))
    · rw [client]
      rcases hi : bs[i]? with - | b
      · exact ih hfair' h
      · by_cases hl : b.live = true
        · simp only [hl, if_true]
          apply Logic.always_bind
          refine Logic.always_conseq ((h.refundable (List.mem_of_getElem? hi) hl).always_settle fuel actual)
            fun _ g' hs hg => ?_
          exact ih hfair' (h.settled hi hl hg (hs trivial))
        · simp only [hl]
          exact ih hfair' h

/-! ### Refunds and charges -/

/-- A window that admitted a check of the reservation. -/
def Reservation.Admits (r : Reservation) (key : String) : Prop := ∃ d ∈ r.results, d.window? = some key

section
variable {o : LeaseOptions} {edge fuel : ℕ} {checks : List Request} {r : Reservation} {err : Option LimitErr} {g' : LocalState}

theorem reserved_of_reach
    (h : (localRuns wid).Reach (reserve (fallbackAllow o edge fuel rule) fuel checks) g (.ret (r, err)) g') :
    AfterReserve wid rule g checks r g' :=
  (Logic.always_reach (always_reserve (C := False) o edge fuel checks nofun nofun) h).2

theorem refused_unchanged_iff
    (h : (localRuns wid).Reach (reserve (fallbackAllow o edge fuel rule) fuel checks) g (.ret (r, err)) g')
    (hr : r.allowed = false) :
    (∀ k, used wid g' k = used wid g k) ↔
      ∀ k, admittedSum (charged rule) k r.results checks = admittedSum recorded k r.results checks := by
  refine forall_congr' fun k => ?_
  rw [(reserved_of_reach h).refused hr k, admittedSum_sub]
  omega

theorem settled_exact_iff {actual : ℤ} {g'' : LocalState}
    (h : (localRuns wid).Reach (reserve (fallbackAllow o edge fuel rule) fuel checks) g (.ret (r, err)) g')
    (hr : r.allowed = true)
    (hs : (localRuns wid).Reach (settle fuel actual r.results r.costs) g' (.ret ()) g'') :
    (∀ k, r.Admits k → used wid g'' k = used wid g k + max actual 0) ↔
      ∀ k, r.Admits k → admittedSum (fun q => charged rule q + (max actual 0 - recorded q)) k r.results checks =
        max actual 0 := by
  have hb := (reserved_of_reach h).admitted hr
  have hf : Refundable wid False g' r.results r.costs := hb.refundable nofun nofun
  have hg := (Logic.always_reach (hf.always_settle fuel actual) hs).2
  refine forall₂_congr fun k _ => ?_
  rw [hg.used fun hne => hf.current hne, hb.count, hb.costs_eq, List.map_map, heldSum_map, admittedSum_add]
  exact add_assoc (used wid g k) _ _ ▸ add_right_inj _

end

theorem client_nonneg {o : LeaseOptions} {edge fuel : ℕ} {calls : List LimitCall} (hfair : ∀ c ∈ calls, c.Fair)
    {p : Proc Unit} (h : (localRuns wid).Reach (client o edge fuel calls []) LocalState.start p g) : NonNeg g := by
  have h₀ : Outstanding wid [] LocalState.start := by
    refine ⟨fun _ hb => absurd hb List.not_mem_nil, fun _ hb => absurd hb List.not_mem_nil, fun k => ?_, fun _ => le_rfl⟩
    rw [used, LocalState.start, ite_self]
    exact le_rfl
  exact Logic.always_inv (Logic.always_reach (always_client o edge fuel hfair h₀) h) trivial

/-- The lease limiter finds no tokens and no hub. -/
def hubDown (now : ℤ) : (i : Instr) → i.Answer
  | .load _ | .add _ _ | .swap _ _ | .loadTokens _ | .addTokens _ _ | .swapTokens _ | .loadExpiry _ | .rand _ => (0 : ℤ)
  | .clock _ => now
  | .cas _ _ _ | .casTokens _ _ _ _ | .casCur _ _ _ | .attempt _ => true
  | .loadRate _ => (0 : ℚ)
  | .loadCur c => c.first
  | .newHeld c win parentWin => ⟨c, 1, win, parentWin⟩
  | .counter edge _ req => ⟨edge, 0, req⟩
  | .window edge key => ⟨edge, 0, key⟩
  | .counters _ | .windows _ => []
  | .doChan _ _ | .send _ _ | .post _ _ => (0 : ℕ)
  | .await _ => .error .unavailable
  | .receive _ _ => .error .unavailable
  | .store _ _ | .storeTokens _ _ | .storeExpiry _ _ | .storeRate _ _ | .delete _ | .deleteWindow _
  | .land _ _ _ | .goRenew _ _ | .answered _ _ | .reserved _ => ()

def outage (wid : String → ℤ) (now : ℤ) : (i : Instr) → LocalState → Option (i.Answer × LocalState)
  | .add (.windowConsumed w) d, g =>
    if (g w.key).id = wid w.key then localStep (.add (.windowConsumed w) d) g else none
  | i, g => some ((localStep i g).getD (hubDown now i, g))

theorem outage_post {now : ℤ} {i : Instr} {r : i.Answer} {g' : LocalState} (h : outage wid now i g = some (r, g')) :
    (localRuns wid).post i g r g' := by
  unfold outage at h
  split at h
  · split_ifs at h with hid
    cases h
    exact ⟨hid, rfl, rfl⟩
  · next hi =>
    have hin : InWindow wid i g := by
      unfold InWindow
      split
      · exact (hi _ _ rfl).elim
      · trivial
    refine ⟨hin, ?_⟩
    cases hs : localStep i g with
    | none =>
      rw [hs] at h
      cases h
      rfl
    | some out =>
      rw [hs] at h
      cases h
      exact ⟨rfl, rfl⟩

theorem reach_outage {α β : Type} (wid : String → ℤ) (now : ℤ) (p : Proc α) (g : LocalState) (f : α × LocalState → β)
    (v : β) (h : (p.follow (outage wid now) g).map f = some v) :
    ∃ a g', (localRuns wid).Reach p g (.ret a) g' ∧ f (a, g') = v := by
  obtain ⟨⟨a, g'⟩, hf, hv⟩ := Option.map_eq_some_iff.mp h
  exact ⟨a, g', Logic.reach_of_follow (fun _ _ _ _ => outage_post) hf, hv⟩

/-- `orders` with a fallback of 10 requests per edge and a second limit of 3. -/
def fallbackService (cost : UInt8) : Config.Service :=
  { Config.ordersService {} with
    limits := {
      window := 60 * second
      tiers := AList.singleton "free" { requests := 100, cost := AList.singleton "GET" cost }
      whenHubUnavailable := some { allow := 10 }
      also := [{ name := "burst", requests := 3 }] } }

/-- A caller of the free tier. -/
def fallbackState (cost : UInt8) : Edge.RequestState where
  scope := "v1"
  service := "orders"
  svc := Config.compileService (fallbackService cost)
  pfx := Edge.getPrefix (Config.compile { services := [fallbackService cost] }) "v1"
  key := "k"
  tier := Config.compileTier "free" { requests := 100, cost := AList.singleton "GET" cost } .unset
  org := ""
  clientIP := "10.0.0.1"

def fallbackChecks (cost : UInt8) : List Request :=
  Edge.checks id Types.defaultRuntimePolicy.edge ⟨"GET", fun _ => none⟩ (fallbackState cost)

def fallbackReserve (cost : UInt8) : Proc (Reservation × Option LimitErr) :=
  reserve (fallbackAllow (newLease ⟨0, 0, 0, 0, ""⟩) 0 1 (Edge.safetyRule (fallbackState cost) "GET")) 1
    (fallbackChecks cost)

end Gate
