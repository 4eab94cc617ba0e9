import Gate.Spec.TierCache

/-! Pushed tiers stay in an edge's cache, unless a resolve that was answered before a change stores
its answer after the change was pushed. -/

namespace Gate

open Conc (Along runAll inv_runAll)

/-- No change is applied while a resolve of its key holds an older answer. -/
def NoOlderAnswer (w : TierWorld) (a : TierAct) : Prop :=
  a = .push → ∀ p ∈ w.pushes.head?, ∀ f ∈ w.flights p.1, ∀ ans ∈ f.answer?, p.2.change ≤ ans.change

instance (w : TierWorld) : DecidablePred (NoOlderAnswer w) := fun _ => inferInstanceAs (Decidable (_ → _))

/-- What a call holds is no older than what had been applied when it started. -/
structure TierGet.Fine (applied : String → ℕ) (g : TierGet) : Prop where
  since : g.since ≤ applied g.key
  looked : ∀ e, g.phase = .looked (some e) → g.since ≤ e.value.change
  returned : ∀ v, g.phase = .returned v → g.since ≤ v.change

/-- Nothing at the edge is older than the last change applied. -/
structure Current (w : TierWorld) : Prop where
  queued : ∀ p ∈ w.pushes, w.applied p.1 ≤ p.2.change ∧ p.2.change ≤ w.changes p.1
  ordered : w.pushes.Pairwise fun p q => p.1 = q.1 → p.2.change ≤ q.2.change
  made : ∀ key, w.applied key ≤ w.changes key
  cached : ∀ key, ∀ e ∈ w.cache key, w.applied key ≤ e.value.change
  flights : ∀ key, ∀ f ∈ w.flights key, ∀ v ∈ f.answer?, w.applied key ≤ v.change
  gets : ∀ g ∈ w.gets, g.Fine w.applied

variable {w w' : TierWorld}

theorem current_start (now : ℤ) (hub : String → String) : Current (.start now hub) where
  queued := by simp [TierWorld.start]
  ordered := List.Pairwise.nil
  made := by simp [TierWorld.start]
  cached := by simp [TierWorld.start]
  flights := by simp [TierWorld.start]
  gets := by simp [TierWorld.start]

theorem Current.change (h : Current w) {key tier : String} (hs : w.step (.change key tier) = some w') : Current w' := by
  cases hs
  have hle : ∀ k, w.changes k ≤ Function.update w.changes key (w.changes key + 1) k :=
    (Function.forall_update_iff w.changes fun k n => w.changes k ≤ n).mpr ⟨Nat.le_succ _, fun _ _ => le_rfl⟩
  refine ⟨fun p hp => ?_, ?_, fun k => (h.made k).trans (hle k), h.cached, h.flights, h.gets⟩
  · rcases List.mem_append.mp hp with hp | hp
    · exact ⟨(h.queued p hp).1, (h.queued p hp).2.trans (hle _)⟩
    · cases List.mem_singleton.mp hp
      refine ⟨(h.made key).trans (Nat.le_succ _), ?_⟩
      exact ((Function.update_self key (w.changes key + 1) w.changes).ge :)
  · refine List.pairwise_append.mpr ⟨h.ordered, List.pairwise_singleton _ _, fun p hp q hq hk => ?_⟩
    cases List.mem_singleton.mp hq
    have := (h.queued p hp).2
    rw [hk] at this
    exact this.trans (Nat.le_succ _)

/-- An entry or an answer of the key that is no older than what is applied to it. -/
theorem Current.store (h : Current w) {key : String} {v : Stamped} (hv : w.applied key ≤ v.change) (gen : ℕ) :
    ∀ k, ∀ e ∈ (w.store key v gen).cache k, w.applied k ≤ e.value.change := by
  refine (Function.forall_update_iff w.cache fun k e => ∀ x ∈ e, w.applied k ≤ x.value.change).mpr
    ⟨fun e he => ?_, fun k _ => h.cached k⟩
  cases he
  exact hv

theorem TierGet.Fine.mono {applied applied' : String → ℕ} {g : TierGet} (h : g.Fine applied)
    (hle : ∀ k, applied k ≤ applied' k) : g.Fine applied' := ⟨h.since.trans (hle _), h.looked, h.returned⟩

theorem Current.push (h : Current w) (hok : NoOlderAnswer w .push) (hs : w.step .push = some w') : Current w' := by
  unfold TierWorld.step at hs
  have hok := hok rfl
  cases hp : w.pushes with
  | nil =>
    rw [hp] at hs
    cases hs
  | cons p rest =>
    obtain ⟨key, v⟩ := p
    simp only [hp] at hs
    cases hs
    have hok : ∀ f ∈ w.flights key, ∀ ans ∈ f.answer?, v.change ≤ ans.change := hok _ (by rw [hp]; rfl)
    have hmem : (key, v) ∈ w.pushes := by
      rw [hp]
      exact List.mem_cons_self
    obtain ⟨hlow, hhigh⟩ := h.queued _ hmem
    have hord := hp ▸ h.ordered
    rw [List.pairwise_cons] at hord
    have hle : ∀ k, w.applied k ≤ Function.update w.applied key v.change k :=
      (Function.forall_update_iff w.applied fun k n => w.applied k ≤ n).mpr ⟨hlow, fun _ _ => le_rfl⟩
    -- what is new at the key is the change itself, and the rest of the queue comes after it
    have applied : ∀ (P : String → ℕ → Prop), P key v.change → (∀ k, k ≠ key → P k (w.applied k)) →
        ∀ k, P k (Function.update w.applied key v.change k) :=
      fun P hk hne => (Function.forall_update_iff w.applied P).mpr ⟨hk, hne⟩
    refine ⟨fun q hq => ⟨?_, (h.queued q (hp ▸ List.mem_cons_of_mem _ hq)).2⟩, hord.2, ?_, ?_, ?_,
      fun g hg => (h.gets g hg).mono hle⟩
    · exact applied (fun k n => q.1 = k → n ≤ q.2.change) (fun hk => hord.1 q hq hk.symm)
        (fun k _ hk => hk ▸ (h.queued q (hp ▸ List.mem_cons_of_mem _ hq)).1) q.1 rfl
    · exact applied (fun k n => n ≤ w.changes k) hhigh fun k _ => h.made k
    · refine applied (fun k n => ∀ e ∈ (w.store key v w.gen).cache k, n ≤ e.value.change) (fun e he => ?_)
        fun k _ => h.store hlow w.gen k
      simp only [TierWorld.store, Function.update_self, Option.mem_def, Option.some.injEq] at he
      rw [← he]
    · exact applied (fun k n => ∀ f ∈ w.flights k, ∀ ans ∈ f.answer?, n ≤ ans.change) hok fun k _ => h.flights k

theorem Current.of_gets (h : Current w) {gets : List TierGet} (hg : ∀ g ∈ gets, g.Fine w.applied) :
    Current { w with gets := gets } := ⟨h.queued, h.ordered, h.made, h.cached, h.flights, hg⟩

theorem Current.of_flight (h : Current w) {key : String} {f : Option TierFlight}
    (hf : ∀ x ∈ f, ∀ v ∈ x.answer?, w.applied key ≤ v.change) :
    Current { w with flights := Function.update w.flights key f } :=
  ⟨h.queued, h.ordered, h.made, h.cached,
    (Function.forall_update_iff w.flights fun k f => ∀ x ∈ f, ∀ v ∈ x.answer?, w.applied k ≤ v.change).mpr
      ⟨hf, fun k _ => h.flights k⟩, h.gets⟩

/-- A call that goes on. -/
theorem Current.set_get (h : Current w) {i : ℕ} {g : TierGet} (g' : TierGet) (hi : w.gets[i]? = some g) (hkey : g'.key = g.key)
    (hsince : g'.since = g.since) (hlooked : ∀ e, g'.phase ≠ .looked (some e))
    (hret : ∀ v, g'.phase = .returned v → g.since ≤ v.change) : Current { w with gets := w.gets.set i g' } := by
  refine h.of_gets fun x hx => ?_
  rcases List.mem_or_eq_of_mem_set hx with hx | rfl
  · exact h.gets x hx
  · have hg := h.gets g (List.mem_of_getElem? hi)
    refine ⟨?_, fun e he => absurd he (hlooked e), fun v hv => ?_⟩
    · rw [hsince, hkey]
      exact hg.since
    · rw [hsince]
      exact hret v hv

theorem Current.join (h : Current w) {i : ℕ} {g : TierGet} (hi : w.gets[i]? = some g) : Current (w.join i g) := by
  have hf : Current { w with flights := Function.update w.flights g.key (some ((w.flights g.key).getD .started)) } := by
    refine h.of_flight fun x hx v hv => ?_
    cases hw : w.flights g.key with
    | none =>
      rw [hw] at hx
      cases hx
      cases hv
    | some f =>
      rw [hw] at hx
      cases hx
      exact h.flights g.key f hw v hv
  exact hf.set_get { g with phase := .waiting } hi rfl rfl (fun _ => GetPhase.noConfusion)
    fun _ => GetPhase.noConfusion

/-- Those that wait for a flight get what it was told. -/
theorem Current.finish (h : Current w) {key : String} {phase : GetPhase} (hl : ∀ e, phase ≠ .looked (some e))
    (hr : ∀ v, phase = .returned v → w.applied key ≤ v.change) : Current (w.finish key phase) := by
  have hf : Current { w with flights := Function.update w.flights key none } := h.of_flight nofun
  refine hf.of_gets fun g hg => ?_
  obtain ⟨x, hx, rfl⟩ := List.mem_map.mp hg
  have hfine := h.gets x hx
  split_ifs with hw
  · refine ⟨hfine.since, fun e he => absurd he (hl e), fun v hv => hfine.since.trans ?_⟩
    rw [hw.1]
    exact hr v hv
  · exact hfine

theorem Current.check (h : Current w) {i : ℕ} (hs : w.step (.check i) = some w') : Current w' := by
  unfold TierWorld.step at hs
  dsimp only at hs
  split at hs
  · next key since latest e hi =>
    have he := (h.gets _ (List.mem_of_getElem? hi)).looked e rfl
    split_ifs at hs
    · cases hs
      refine h.set_get _ hi rfl rfl (fun _ => GetPhase.noConfusion) ?_
      rintro v ⟨⟩
      exact he
    · cases hs
      exact h.join hi
  · next key since latest hi =>
    cases hs
    exact h.join hi
  · cases hs

theorem Current.get (h : Current w) {key : String} (hs : w.step (.get key) = some w') : Current w' := by
  cases hs
  refine h.of_gets fun g hg => ?_
  rcases List.mem_append.mp hg with hg | hg
  · exact h.gets g hg
  · cases List.mem_singleton.mp hg
    refine ⟨le_rfl, fun e he => ?_, fun _ => GetPhase.noConfusion⟩
    have hfresh : w.fresh key = some e := GetPhase.looked.inj he
    exact h.cached key e (Option.filter_eq_some_iff.mp hfresh).1

/-- Each step leaves nothing older than what has been applied. -/
theorem current_step (a : TierAct) (h : Current w) (hok : NoOlderAnswer w a) (hs : w.step a = some w') : Current w' := by
  cases a with
  | change key tier => exact h.change hs
  | push => exact h.push hok hs
  | reset =>
    cases hs
    exact ⟨h.queued, h.ordered, h.made, h.cached, h.flights, h.gets⟩
  | tick d =>
    cases hs
    exact ⟨h.queued, h.ordered, h.made, h.cached, h.flights, h.gets⟩
  | evict key =>
    cases hs
    refine ⟨h.queued, h.ordered, h.made, ?_, h.flights, h.gets⟩
    exact (Function.forall_update_iff w.cache fun k e => ∀ x ∈ e, w.applied k ≤ x.value.change).mpr
      ⟨nofun, fun k _ => h.cached k⟩
  | get key => exact h.get hs
  | check i => exact h.check hs
  | resolve key =>
    unfold TierWorld.step at hs
    dsimp only at hs
    split at hs
    · cases hs
      exact h.of_flight (by rintro x ⟨⟩ v ⟨⟩)
    · cases hs
  | read key =>
    unfold TierWorld.step at hs
    dsimp only at hs
    split at hs
    · cases hs
      refine h.of_flight ?_
      rintro x ⟨⟩ v ⟨⟩
      exact h.made key
    · cases hs
  | fail key =>
    unfold TierWorld.step at hs
    dsimp only at hs
    split at hs
    · cases hs
      exact h.of_flight (by rintro x ⟨⟩ v ⟨⟩)
    · cases hs
  | store key =>
    unfold TierWorld.step at hs
    dsimp only at hs
    split at hs
    · next gen v hf =>
      cases hs
      have hv := h.flights key _ hf v rfl
      have hc : Current (w.store key v gen) := ⟨h.queued, h.ordered, h.made, h.store hv gen, h.flights, h.gets⟩
      refine hc.of_flight ?_
      rintro x ⟨⟩ u ⟨⟩
      exact hv
    · cases hs
  | land key =>
    unfold TierWorld.step at hs
    dsimp only at hs
    split at hs
    · next v hf =>
      cases hs
      refine h.finish (fun _ => GetPhase.noConfusion) ?_
      rintro u ⟨⟩
      exact h.flights key _ hf v rfl
    · cases hs
      exact h.finish (fun _ => GetPhase.noConfusion) fun _ => GetPhase.noConfusion
    · cases hs
  | cancel i =>
    unfold TierWorld.step at hs
    dsimp only at hs
    split at hs
    · next key since latest hi =>
      cases hs
      exact h.set_get _ hi rfl rfl (fun _ => GetPhase.noConfusion) fun _ => GetPhase.noConfusion
    · cases hs

/-- In every run in which no change is applied while a resolve of its key holds an older answer, no
call returns a tier that the hub had read before a change applied when the call started. -/
theorem pushed_changes_stick {now : ℤ} {hub : String → String} {acts : List TierAct}
    (hok : Along TierWorld.step NoOlderAnswer (.start now hub) acts)
    (hrun : runAll TierWorld.step (.start now hub) acts = some w) : ∀ g ∈ w.gets, g.Sticks := by
  have hc := inv_runAll (fun _ a _ hi hok hs => current_step a hi hok hs) acts _ _ (current_start now hub) hok hrun
  rintro g hg v hv - ⟨-, hlt⟩
  exact absurd ((hc.gets g hg).returned v hv) (not_le.mpr hlt)

/-- A resolve is answered, the key is revoked, the revocation is applied, and then the answer is
stored. -/
def revokedWhileResolving : List TierAct :=
  [.get "k", .check 0, .resolve "k", .read "k", .change "k" "", .push, .store "k", .land "k", .get "k", .check 1]

theorem revocation_undone :
    ∃ w, runAll TierWorld.step (.start 0 fun _ => "pro") revokedWhileResolving = some w ∧ w.hub "k" = "" ∧
      ∃ g ∈ w.gets, g.since = 1 ∧ g.phase = .returned ⟨"pro", 0, .read⟩ ∧ ¬ g.Sticks := by
  have hrun : (runAll TierWorld.step (.start 0 fun _ => "pro") revokedWhileResolving).map
      (fun w => (w.hub "k", w.gets[1]?)) = some ("", some ⟨"k", 1, 1, .returned ⟨"pro", 0, .read⟩⟩) := by
    decide +kernel
  obtain ⟨w, hw, hv⟩ := Option.map_eq_some_iff.mp hrun
  obtain ⟨hhub, hget⟩ := Prod.mk.inj hv
  refine ⟨w, hw, hhub, _, List.mem_of_getElem? hget, rfl, rfl, fun h => ?_⟩
  exact h _ rfl rfl ⟨rfl, by decide⟩

/-- The same calls, with the answer stored before the key is revoked. -/
def revokedAfterResolving : List TierAct :=
  [.get "k", .check 0, .resolve "k", .read "k", .store "k", .land "k", .change "k" "", .push, .get "k", .check 1]

theorem revocation_sticks :
    ∃ w, runAll TierWorld.step (.start 0 fun _ => "pro") revokedAfterResolving = some w ∧
      (∃ g ∈ w.gets, g.since = 1 ∧ g.phase = .returned ⟨"", 1, .pushed⟩) ∧ ∀ g ∈ w.gets, g.Sticks := by
  have hrun : (runAll TierWorld.step (.start 0 fun _ => "pro") revokedAfterResolving).map (fun w => w.gets[1]?) =
      some (some ⟨"k", 1, 1, .returned ⟨"", 1, .pushed⟩⟩) := by
    decide +kernel
  obtain ⟨w, hw, hget⟩ := Option.map_eq_some_iff.mp hrun
  have hok : Along TierWorld.step NoOlderAnswer (.start 0 fun _ => "pro") revokedAfterResolving := by decide +kernel
  exact ⟨w, hw, ⟨_, List.mem_of_getElem? hget, rfl, rfl⟩, pushed_changes_stick hok hw⟩

end Gate
