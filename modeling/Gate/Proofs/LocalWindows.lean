import Gate.Sanity.LeaseApart

/-! The local limiter, instruction by instruction: what a check adds to its window, and what a
rollback or a settlement takes from it. -/

namespace Gate

open Conc

variable {wid : String → ℤ} {C : Prop} {g : LocalState}

def NonNeg (g : LocalState) : Prop := ∀ k, 0 ≤ (g k).consumed

/-- Under `C` no count is negative. -/
abbrev Safe (C : Prop) (g : LocalState) : Prop := C → NonNeg g

theorem NonNeg.update (h : NonNeg g) (key : String) {w : Win} (hw : 0 ≤ w.consumed) :
    NonNeg (Function.update g key w) := by
  intro k
  by_cases hk : k = key
  · subst hk
    rw [Function.update_self]
    exact hw
  · rw [Function.update_of_ne hk]
    exact h k

/-- A charge or refund on a window. -/
def bump (g : LocalState) (key : String) (delta : ℤ) : LocalState :=
  Function.update g key { g key with consumed := (g key).consumed + delta }

@[simp] theorem bump_id (g : LocalState) (key : String) (delta : ℤ) (k : String) : (bump g key delta k).id = (g k).id := by
  unfold bump
  by_cases hk : k = key
  · subst hk
    rw [Function.update_self]
  · rw [Function.update_of_ne hk]

theorem bump_consumed (g : LocalState) (key : String) (delta : ℤ) (k : String) :
    (bump g key delta k).consumed = (g k).consumed + if k = key then delta else 0 := by
  unfold bump
  by_cases hk : k = key
  · subst hk
    rw [Function.update_self, if_pos rfl]
  · rw [Function.update_of_ne hk, if_neg hk, add_zero]

theorem bump_zero (g : LocalState) (key : String) : bump g key 0 = g := by
  unfold bump
  rw [add_zero]
  exact Function.update_eq_self key g

theorem bump_bump (g : LocalState) (key : String) (a b : ℤ) : bump (bump g key a) key b = bump g key (a + b) := by
  unfold bump
  rw [Function.update_self, Function.update_idem, add_assoc]

theorem used_bump {key : String} (h : (g key).id = wid key) (delta : ℤ) (k : String) :
    used wid (bump g key delta) k = used wid g k + if k = key then delta else 0 := by
  unfold used
  rw [bump_id, bump_consumed]
  by_cases hk : k = key
  · subst hk
    rw [if_pos h, if_pos h]
  · rw [if_neg hk, add_zero, add_zero]

/-- A roll starts a window from zero; what was counted before belongs to another one. -/
theorem used_roll {key : String} {id : ℤ} (hne : (g key).id ≠ id) (hid : id = wid key) (k : String) :
    used wid (Function.update g key ⟨id, 0⟩) k = used wid g k := by
  unfold used
  by_cases hk : k = key
  · subst hk
    rw [Function.update_self, if_pos hid, if_neg (hid ▸ hne)]
  · rw [Function.update_of_ne hk]

/-! ### Instructions -/

section
variable {Inv : LocalState → Prop} {w : WPtr}

theorem always_load_id {Q : ℤ → LocalState → Prop} (hi : Inv g) (hq : Q (g w.key).id g) :
    (localRuns wid).always Inv (load (.windowID w)) Q g := by
  refine ⟨hi, fun r g' h => ?_⟩
  obtain ⟨-, rfl, rfl⟩ := h
  exact ⟨hi, hq⟩

theorem always_load_consumed {Q : ℤ → LocalState → Prop} (hi : Inv g) (hq : Q (g w.key).consumed g) :
    (localRuns wid).always Inv (load (.windowConsumed w)) Q g := by
  refine ⟨hi, fun r g' h => ?_⟩
  obtain ⟨-, rfl, rfl⟩ := h
  exact ⟨hi, hq⟩

theorem always_store_consumed {v : ℤ} {Q : Unit → LocalState → Prop} (hi : Inv g)
    (hi' : Inv (Function.update g w.key { g w.key with consumed := v }))
    (hq : Q () (Function.update g w.key { g w.key with consumed := v })) :
    (localRuns wid).always Inv (store (.windowConsumed w) v) Q g := by
  refine ⟨hi, fun r g' h => ?_⟩
  obtain ⟨-, rfl, rfl⟩ := h
  exact ⟨hi', hq⟩

theorem always_store_seen {v : ℤ} {Q : Unit → LocalState → Prop} (hi : Inv g) (hq : Q () g) :
    (localRuns wid).always Inv (store (.windowSeen w) v) Q g := by
  refine ⟨hi, fun r g' h => ?_⟩
  obtain ⟨-, rfl⟩ := h
  exact ⟨hi, hq⟩

/-- Alone, a thread never loses a compare-and-swap. -/
theorem always_cas_id {new : ℤ} {Q : Bool → LocalState → Prop} (hi : Inv g)
    (hi' : Inv (Function.update g w.key { g w.key with id := new }))
    (hq : Q true (Function.update g w.key { g w.key with id := new })) :
    (localRuns wid).always Inv (cas (.windowID w) (g w.key).id new) Q g := by
  refine ⟨hi, fun r g' h => ?_⟩
  have h := h.2
  simp only [localStep, if_true] at h
  obtain ⟨rfl, rfl⟩ := h
  exact ⟨hi', hq⟩

theorem always_add {d : ℤ} {Q : ℤ → LocalState → Prop} (hi : Inv g)
    (h : (g w.key).id = wid w.key → Inv (bump g w.key d) ∧ Q ((g w.key).consumed + d) (bump g w.key d)) :
    (localRuns wid).always Inv (add (.windowConsumed w) d) Q g := by
  refine ⟨hi, fun r g' hp => ?_⟩
  obtain ⟨hid, rfl, rfl⟩ := hp
  exact h hid

theorem always_getWindow {edge : ℕ} {key : String} {Q : WPtr → LocalState → Prop} (hi : Inv g)
    (hq : Q ⟨edge, 0, key⟩ g) : (localRuns wid).always Inv (getWindow edge key) Q g := by
  refine ⟨hi, fun r g' h => ?_⟩
  obtain ⟨-, rfl, rfl⟩ := h
  exact ⟨hi, hq⟩

theorem always_clock {edge : ℕ} {Q : ℤ → LocalState → Prop} (hi : Inv g) (hq : ∀ now, Q now g) :
    (localRuns wid).always Inv (clock edge) Q g := by
  refine ⟨hi, fun r g' h => ?_⟩
  obtain ⟨-, rfl⟩ := h
  exact ⟨hi, hq r⟩

end

/-! ### The local limiter -/

theorem always_roll {w : WPtr} (period now : ℤ) {Q : Option ℤ → LocalState → Prop} (hs : Safe C g)
    (same : ∀ stop, Q stop g)
    (rolled : ∀ stop id, (g w.key).id ≠ id → Q stop (Function.update g w.key ⟨id, 0⟩)) :
    (localRuns wid).always (Safe C) (Local.roll w period now) Q g := by
  unfold Local.roll
  apply Logic.always_bind
  apply always_store_seen hs
  dsimp only
  split_ifs
  · exact ⟨hs, same _⟩
  apply Logic.always_bind
  apply always_load_id hs
  by_cases hid : (g w.key).id = now.tdiv (milliseconds period)
  · rw [if_pos hid]
    exact ⟨hs, same _⟩
  rw [if_neg hid]
  apply Logic.always_bind
  have hs' : Safe C (Function.update g w.key { g w.key with id := now.tdiv (milliseconds period) }) :=
    fun hC => (hs hC).update _ (hs hC w.key)
  apply always_cas_id hs hs'
  rw [if_pos rfl]
  apply Logic.always_bind
  have heq : Function.update (Function.update g w.key { g w.key with id := now.tdiv (milliseconds period) }) w.key
      { Function.update g w.key { g w.key with id := now.tdiv (milliseconds period) } w.key with consumed := 0 } =
      Function.update g w.key ⟨now.tdiv (milliseconds period), 0⟩ := by
    rw [Function.update_idem, Function.update_self]
  have hs₀ : Safe C (Function.update g w.key ⟨now.tdiv (milliseconds period), 0⟩) :=
    fun hC => (hs hC).update _ le_rfl
  apply always_store_consumed hs' (heq ▸ hs₀)
  rw [heq]
  exact ⟨hs₀, rolled _ _ hid⟩

/-- Windows that are current stay so. -/
def StillCurrent (wid : String → ℤ) (g g' : LocalState) : Prop := ∀ k, (g k).id = wid k → (g' k).id = wid k

/-- What the local limiter answers to a request and does for it. -/
inductive LocalAnswer (wid : String → ℤ) (req : Request) (g : LocalState) (d : Decision) (g' : LocalState) : Prop where
  | denied (allowed : d.allowed = false) (adj : d.adj = none) (count : ∀ k, used wid g' k = used wid g k)
  | admitted (w : WPtr) (allowed : d.allowed = true) (adj : d.adj = some (.window w)) (gen : d.gen = wid w.key)
    (current : (g' w.key).id = wid w.key)
    (count : ∀ k, used wid g' k = used wid g k + if k = w.key then max req.cost 1 else 0)

theorem always_local (edge : ℕ) (req : Request) (hs : Safe C g) :
    (localRuns wid).always (Safe C) (Local.allow edge req)
      (fun d g' => LocalAnswer wid req g d g' ∧ StillCurrent wid g g') g := by
  -- after the roll: the window is current and counts what it counted before
  have charge : ∀ (stop : Option ℤ) (g₁ : LocalState), Safe C g₁ →
      ((g₁ (stateKey req)).id = wid (stateKey req) → (∀ k, used wid g₁ k = used wid g k) ∧ StillCurrent wid g g₁) →
      (localRuns wid).always (Safe C) (do
        let d := { Decision.zero with limit := req.limit, resetAt := stop }
        let used ← add (.windowConsumed ⟨edge, 0, stateKey req⟩) (max req.cost 1)
        if req.limit < used then
          let _ ← add (.windowConsumed ⟨edge, 0, stateKey req⟩) (-max req.cost 1)
          let consumed ← load (.windowConsumed ⟨edge, 0, stateKey req⟩)
          return { d with remaining := max 0 (req.limit - consumed) }
        else
          let gen ← load (.windowID ⟨edge, 0, stateKey req⟩)
          return { d with
            allowed := true, remaining := req.limit - used, adj := some (.window ⟨edge, 0, stateKey req⟩), gen := gen })
        (fun d g' => LocalAnswer wid req g d g' ∧ StillCurrent wid g g') g₁ := by
    intro stop g₁ hs₁ hcur
    apply Logic.always_bind
    refine always_add hs₁ fun hid => ?_
    change (g₁ (stateKey req)).id = wid (stateKey req) at hid
    obtain ⟨hused, hkept⟩ := hcur hid
    have hs₂ : Safe C (bump g₁ (stateKey req) (max req.cost 1)) := fun hC =>
      (hs₁ hC).update _ (add_nonneg (hs₁ hC _) (by omega))
    refine ⟨hs₂, ?_⟩
    dsimp only
    split_ifs
    · apply Logic.always_bind
      refine always_add hs₂ fun _ => ?_
      change Safe C (bump (bump g₁ (stateKey req) _) (stateKey req) _) ∧ _
      rw [bump_bump, add_neg_cancel, bump_zero]
      refine ⟨hs₁, ?_⟩
      apply Logic.always_bind
      apply always_load_consumed hs₁
      exact ⟨hs₁, .denied rfl rfl hused, hkept⟩
    · apply Logic.always_bind
      apply always_load_id hs₂
      refine ⟨hs₂, .admitted ⟨edge, 0, stateKey req⟩ rfl rfl ?_ ?_ ?_, fun k hk => ?_⟩
      · exact (bump_id ..).trans hid
      · exact (bump_id ..).trans hid
      · intro k
        rw [used_bump hid, hused]
      · rw [bump_id]
        exact hkept k hk
  unfold Local.allow
  apply Logic.always_bind
  apply always_getWindow hs
  apply Logic.always_bind
  refine always_clock hs fun now => ?_
  apply Logic.always_bind
  refine always_roll _ _ hs (fun stop => ?_) (fun stop id hne => ?_)
  · exact charge stop g hs fun _ => ⟨fun _ => rfl, fun _ hk => hk⟩
  · refine charge stop _ (fun hC => (hs hC).update _ le_rfl) fun hid => ?_
    rw [Function.update_self] at hid
    refine ⟨used_roll hne hid, fun k hk => ?_⟩
    by_cases hkey : k = stateKey req
    · subst hkey
      rw [Function.update_self]
      exact hid
    · rw [Function.update_of_ne hkey]
      exact hk

/-! ### Refunds -/

/-- A decision of the local limiter, with its charge still in the current window. -/
def Holds (wid : String → ℤ) (g : LocalState) (d : Decision) : Prop :=
  ∀ w, d.adj = some (.window w) → d.allowed = true ∧ d.gen = wid w.key ∧ (g w.key).id = wid w.key

theorem Holds.mono {g' : LocalState} {d : Decision} (h : Holds wid g d) (hk : StillCurrent wid g g') : Holds wid g' d :=
  fun w hw => ⟨(h w hw).1, (h w hw).2.1, hk _ (h w hw).2.2⟩

theorem holds_of_foreign {d : Decision} (h : d.window? = none) : Holds wid g d := by
  intro w hw
  rw [Decision.window?, hw] at h
  cases h

theorem Holds.current {d : Decision} {k : String} (h : Holds wid g d) (hk : d.window? = some k) : (g k).id = wid k := by
  unfold Decision.window? at hk
  split at hk
  · next w hw =>
    cases hk
    exact (h w hw).2.2
  · cases hk

theorem Holds.allowed {d : Decision} {k : String} (h : Holds wid g d) (hk : d.window? = some k) : d.allowed = true := by
  unfold Decision.window? at hk
  split at hk
  · next w hw => exact (h w hw).1
  · cases hk

/-- The counts move by `f`, the windows stay. -/
def Shifted (f : String → ℤ) (g g' : LocalState) : Prop :=
  ∀ k, (g' k).id = (g k).id ∧ (g' k).consumed = (g k).consumed + f k

theorem Shifted.current {f : String → ℤ} {g' : LocalState} (h : Shifted f g g') : StillCurrent wid g g' :=
  fun k hk => (h k).1.trans hk

theorem Shifted.trans {f f' : String → ℤ} {g₁ g₂ : LocalState} (h : Shifted f g g₁) (h' : Shifted f' g₁ g₂) :
    Shifted (fun k => f k + f' k) g g₂ :=
  fun k => ⟨(h' k).1.trans (h k).1, by rw [(h' k).2, (h k).2, add_assoc]⟩

theorem Shifted.congr {f f' : String → ℤ} {g' : LocalState} (h : Shifted f g g') (hf : ∀ k, f' k = f k) :
    Shifted f' g g' := by
  rwa [← funext hf] at h

theorem Shifted.used {f : String → ℤ} {g' : LocalState} (h : Shifted f g g') {k : String}
    (hk : f k ≠ 0 → (g k).id = wid k) : used wid g' k = used wid g k + f k := by
  unfold Gate.used
  rw [(h k).1, (h k).2]
  by_cases hid : (g k).id = wid k
  · rw [if_pos hid, if_pos hid]
  · rw [if_neg hid, if_neg hid, not_not.mp (mt hk hid), add_zero]

theorem shifted_bump (g : LocalState) (key : String) (delta : ℤ) :
    Shifted (fun k => if k = key then delta else 0) g (bump g key delta) :=
  fun k => ⟨bump_id g key delta k, bump_consumed g key delta k⟩

/-- A change of a decision's charge, as its window sees it. -/
def Decision.on (d : Decision) (delta : ℤ) (key : String) : ℤ := if d.window? = some key then delta else 0

theorem Decision.on_none {d : Decision} (h : d.window? = none) (delta : ℤ) (key : String) : d.on delta key = 0 := by
  rw [Decision.on, h, if_neg (by simp)]

theorem Decision.on_neg (d : Decision) (delta : ℤ) (key : String) : d.on (-delta) key = -d.on delta key := by
  unfold Decision.on
  split_ifs
  · rfl
  · rw [neg_zero]

theorem shifted_zero {f : String → ℤ} (h : ∀ k, f k = 0) : Shifted f g g :=
  fun k => ⟨rfl, by rw [h k, add_zero]⟩

theorem always_adjust (fuel : ℕ) {d : Decision} (delta : ℤ) (hd : Holds wid g d) (hs : Safe C g)
    (hb : C → ∀ k, d.window? = some k → 0 ≤ (g k).consumed + delta) :
    (localRuns wid).always (Safe C) (d.adjust fuel delta) (fun _ g' => Shifted (d.on delta) g g') g := by
  unfold Decision.adjust
  by_cases hz : delta = 0
  · rw [if_pos hz]
    refine ⟨hs, shifted_zero fun k => ?_⟩
    rw [Decision.on, hz, ite_self]
  rw [if_neg hz]
  rcases hadj : d.adj with - | (h | w)
  · exact ⟨hs, shifted_zero (Decision.on_none (by rw [Decision.window?, hadj]) delta)⟩
  · exact always_apart (Lease.apart_adjust fuel h delta d.maxDebt) hs
      fun _ _ => shifted_zero (Decision.on_none (by rw [Decision.window?, hadj]) delta)
  · obtain ⟨-, hgen, hid⟩ := hd w hadj
    have hw : d.window? = some w.key := by rw [Decision.window?, hadj]
    simp only [Local.adjust]
    apply Logic.always_bind
    apply always_load_id hs
    rw [if_pos (.inl (hid.trans hgen.symm))]
    apply Logic.always_bind
    refine always_add hs fun _ => ?_
    have hs' : Safe C (bump g w.key delta) := fun hC => (hs hC).update _ (hb hC _ hw)
    refine ⟨hs', hs', fun k => ⟨bump_id .., ?_⟩⟩
    simp only [bump_consumed, Decision.on, hw, Option.some.injEq, eq_comm]

/-- The sum of `cs` over the decisions of a key's window. -/
def heldSum (key : String) (ds : List Decision) (cs : List ℤ) : ℤ :=
  ((ds.zip cs).map fun x => if x.1.window? = some key then x.2 else 0).sum

@[simp] theorem heldSum_cons (key : String) (d : Decision) (ds : List Decision) (c : ℤ) (cs : List ℤ) :
    heldSum key (d :: ds) (c :: cs) = d.on c key + heldSum key ds cs := rfl

@[simp] theorem heldSum_nil (key : String) (cs : List ℤ) : heldSum key [] cs = 0 := rfl

@[simp] theorem heldSum_nil_right (key : String) (ds : List Decision) : heldSum key ds [] = 0 := by
  rw [heldSum, List.zip_nil_right]
  rfl

theorem heldSum_map (f : Request → ℤ) (key : String) (ds : List Decision) (qs : List Request) :
    heldSum key ds (qs.map f) = admittedSum f key ds qs := by
  unfold heldSum admittedSum
  rw [List.zip_map_right, List.map_map]
  rfl

theorem Decision.on_nonneg (d : Decision) {delta : ℤ} (h : 0 ≤ delta) (key : String) : 0 ≤ d.on delta key := by
  unfold Decision.on
  split_ifs
  · exact h
  · exact le_rfl

theorem heldSum_nonneg (key : String) {ds : List Decision} {cs : List ℤ} (h : ∀ c ∈ cs, 0 ≤ c) : 0 ≤ heldSum key ds cs := by
  induction ds generalizing cs with
  | nil => simp
  | cons d ds ih =>
    rcases cs with - | ⟨c, cs⟩
    · simp
    · rw [heldSum_cons]
      exact add_nonneg (d.on_nonneg (h c List.mem_cons_self) key) (ih fun c hc => h c (List.mem_cons_of_mem _ hc))

theorem exists_of_heldSum {key : String} {ds : List Decision} {cs : List ℤ} (h : heldSum key ds cs ≠ 0) :
    ∃ d ∈ ds, d.window? = some key := by
  induction ds generalizing cs with
  | nil => simp at h
  | cons d ds ih =>
    rcases cs with - | ⟨c, cs⟩
    · simp at h
    by_cases hd : d.window? = some key
    · exact ⟨d, List.mem_cons_self, hd⟩
    · rw [heldSum_cons, Decision.on, if_neg hd, zero_add] at h
      obtain ⟨d', hd', hk⟩ := ih h
      exact ⟨d', List.mem_cons_of_mem _ hd', hk⟩

/-- Charges of `cs` that are still in their windows, and under `C` covered by the counts. -/
structure Refundable (wid : String → ℤ) (C : Prop) (g : LocalState) (ds : List Decision) (cs : List ℤ) : Prop where
  holds : ∀ d ∈ ds, Holds wid g d
  nonneg : ∀ c ∈ cs, 0 ≤ c
  safe : Safe C g
  covered : C → ∀ k, heldSum k ds cs ≤ (g k).consumed

theorem Refundable.current {ds : List Decision} {cs cs' : List ℤ} (h : Refundable wid C g ds cs) {k : String}
    (hk : heldSum k ds cs' ≠ 0) : (g k).id = wid k := by
  obtain ⟨d, hd, hw⟩ := exists_of_heldSum hk
  exact (h.holds d hd).current hw

/-- A charge is moved, by no less than its refund; the others stay refundable. -/
theorem Refundable.always_adjust (fuel : ℕ) {d : Decision} {ds : List Decision} {c delta : ℤ} {cs : List ℤ}
    (h : Refundable wid C g (d :: ds) (c :: cs)) (hdelta : -c ≤ delta) :
    (localRuns wid).always (Safe C) (d.adjust fuel delta)
      (fun _ g' => Refundable wid C g' ds cs ∧ Shifted (d.on delta) g g') g := by
  have hnn : ∀ c ∈ cs, 0 ≤ c := fun c hc => h.nonneg c (List.mem_cons_of_mem _ hc)
  have bound : C → ∀ k, heldSum k ds cs ≤ (g k).consumed + d.on delta k := by
    intro hC k
    have hle := h.covered hC k
    rw [heldSum_cons] at hle
    unfold Decision.on at hle ⊢
    split_ifs at hle ⊢ <;> omega
  have moved := Gate.always_adjust fuel delta (h.holds d List.mem_cons_self) h.safe fun hC k hk => by
    have hle := bound hC k
    rw [Decision.on, if_pos hk] at hle
    exact (heldSum_nonneg k hnn).trans hle
  refine Logic.always_conseq moved fun _ g' hs hg => ⟨⟨fun d' hd' => ?_, hnn, hs, fun hC k => ?_⟩, hg⟩
  · exact (h.holds d' (List.mem_cons_of_mem _ hd')).mono hg.current
  · rw [(hg k).2]
    exact bound hC k

/-- A decision that was not admitted holds nothing. -/
theorem Refundable.skip {d : Decision} {ds : List Decision} {c : ℤ} {cs : List ℤ}
    (h : Refundable wid C g (d :: ds) (c :: cs)) (hd : ¬ d.allowed = true) :
    d.window? = none ∧ Refundable wid C g ds cs := by
  have hw : d.window? = none := by
    rw [Option.eq_none_iff_forall_ne_some]
    exact fun k hk => hd ((h.holds d List.mem_cons_self).allowed hk)
  refine ⟨hw, fun d' hd' => h.holds d' (List.mem_cons_of_mem _ hd'),
    fun c hc => h.nonneg c (List.mem_cons_of_mem _ hc), h.safe, fun hC k => ?_⟩
  have hle := h.covered hC k
  rw [heldSum_cons, Decision.on_none hw, zero_add] at hle
  exact hle

theorem Refundable.always_rollback (fuel : ℕ) {ds : List Decision} {cs : List ℤ} (h : Refundable wid C g ds cs)
    (hlen : ds.length = cs.length) :
    (localRuns wid).always (Safe C) (rollback fuel ds cs)
      (fun ds' g' => ds' = ds.map (fun d => { d with allowed := false }) ∧
        Shifted (fun k => -heldSum k ds cs) g g') g := by
  induction ds generalizing cs g with
  | nil =>
    rw [rollback.eq_def]
    exact ⟨h.safe, rfl, shifted_zero fun k => by simp⟩
  | cons d ds ih =>
    rcases cs with - | ⟨c, cs⟩
    · cases hlen
    rw [rollback.eq_def]
    by_cases hd : d.allowed = true
    · simp only [hd, if_true]
      apply Logic.always_bind
      refine Logic.always_conseq (h.always_adjust fuel le_rfl) fun _ g₁ _ hg => ?_
      apply Logic.always_bind
      refine Logic.always_conseq (ih hg.1 (Nat.succ.inj hlen)) fun ds' g₂ hs hr => ?_
      obtain ⟨rfl, hg₂⟩ := hr
      refine ⟨hs, rfl, (hg.2.trans hg₂).congr fun k => ?_⟩
      rw [heldSum_cons, neg_add, Decision.on_neg]
    · obtain ⟨hw, ht⟩ := h.skip hd
      simp only [hd]
      apply Logic.always_bind
      refine Logic.always_conseq (ih ht (Nat.succ.inj hlen)) fun ds' g₂ hs hr => ?_
      obtain ⟨rfl, hg₂⟩ := hr
      refine ⟨hs, ?_, hg₂.congr fun k => ?_⟩
      · rw [List.map_cons, ← Bool.eq_false_of_not_eq_true hd]
      · rw [heldSum_cons, Decision.on_none hw, zero_add]

theorem Refundable.always_settle (fuel : ℕ) (actual : ℤ) {ds : List Decision} {cs : List ℤ}
    (h : Refundable wid C g ds cs) :
    (localRuns wid).always (Safe C) (settle fuel actual ds cs)
      (fun _ g' => Shifted (fun k => heldSum k ds (cs.map (max actual 0 - ·))) g g') g := by
  induction ds generalizing cs g with
  | nil =>
    rw [settle.eq_def]
    exact ⟨h.safe, shifted_zero fun k => rfl⟩
  | cons d ds ih =>
    rcases cs with - | ⟨c, cs⟩
    · rw [settle.eq_def]
      exact ⟨h.safe, shifted_zero fun k => rfl⟩
    rw [settle.eq_def]
    by_cases hd : d.allowed = true
    · simp only [hd, if_true]
      apply Logic.always_bind
      refine Logic.always_conseq (h.always_adjust fuel (by omega)) fun _ g₁ _ hg => ?_
      refine Logic.always_conseq (ih hg.1) fun _ g₂ _ hg₂ => ?_
      exact hg.2.trans hg₂
    · obtain ⟨hw, ht⟩ := h.skip hd
      simp only [hd]
      refine Logic.always_conseq (ih ht) fun _ g₂ _ hg₂ => hg₂.congr fun k => ?_
      rw [List.map_cons, heldSum_cons, Decision.on_none hw, zero_add]

end Gate
