import Gate.Sanity.Validate
import Gate.Spec.Control

/-! Hubs agree on a config when no hub takes over another's config while a reload of its own is
still on its way through the channel. -/

namespace Gate

open Conc (Along runAll inv_runAll)

/-! ### Configs that reload to themselves -/

namespace Types

theorem positiveOr_idem (v d : ℤ) : positiveOr (positiveOr v d) d = positiveOr v d := by
  unfold positiveOr
  split_ifs <;> rfl

theorem percentOr_idem (v d : ℚ) : percentOr (percentOr v d) d = percentOr v d := by
  unfold percentOr
  split_ifs <;> rfl

theorem listOr_idem (v d : List String) : listOr (listOr v d) d = listOr v d := by
  unfold listOr
  split_ifs <;> rfl

theorem textOr_idem (v d : String) : textOr (textOr v d) d = textOr v d := by
  unfold textOr
  split_ifs <;> rfl

theorem RuntimePolicy.effective_idem (rp : RuntimePolicy) : rp.effective.effective = rp.effective := by
  simp only [RuntimePolicy.effective, HubRuntimePolicy.effective, EdgeRuntimePolicy.effective,
    AnalyticsRuntimePolicy.effective, positiveOr_idem, percentOr_idem, listOr_idem, textOr_idem]

end Types

section
variable {lib : Library} {cfg next : Types.GatewayConfig}

theorem reloadFromPayload_ok : reloadFromPayload lib cfg = .ok next ↔
    next = { cfg with runtime := cfg.runtime.effective } ∧ validateGatewayConfig lib (some next) = .ok () := by
  unfold reloadFromPayload
  constructor
  · intro h
    simp only at h
    split at h
    · cases h
    · next hv =>
      cases h
      exact ⟨rfl, hv⟩
  · rintro ⟨rfl, hv⟩
    simp only [hv]

/-- A config that another hub takes over as it is. -/
def Adoptable (lib : Library) (cfg : Types.GatewayConfig) : Prop := reloadFromPayload lib cfg = .ok cfg

theorem adoptable_of_payload (h : reloadFromPayload lib cfg = .ok next) : Adoptable lib next := by
  obtain ⟨rfl, hv⟩ := reloadFromPayload_ok.mp h
  refine reloadFromPayload_ok.mpr ⟨?_, hv⟩
  rw [Types.RuntimePolicy.effective_idem]

theorem adoptable_of_file {f : Config.File} (h : decodeAndValidate lib f = some cfg) : Adoptable lib cfg := by
  unfold decodeAndValidate at h
  split_ifs at h
  split at h
  · next hv =>
    cases h
    refine reloadFromPayload_ok.mpr ⟨?_, hv⟩
    have hrt : (Config.compile f).runtime.effective = (Config.compile f).runtime := Types.RuntimePolicy.effective_idem _
    rw [hrt]
  · cases h

theorem adoptable_of_reload {mode : ReloadMode} {f : Config.File} (h : reloadTarget lib mode f = some cfg) :
    Adoptable lib cfg := by
  unfold reloadTarget at h
  split at h
  · cases h
  · next c hc =>
    cases mode with
    | payload =>
      have h' : reloadFromPayload lib c = .ok cfg := by
        cases hr : reloadFromPayload lib c with
        | error e =>
          simp only [hr] at h
          cases h
        | ok n =>
          simp only [hr] at h
          cases h
          rfl
      exact adoptable_of_payload h'
    | file =>
      cases h
      exact adoptable_of_file hc

end

/-! ### Configs on the channel -/

section
variable {ι : Type} [DecidableEq ι]

def configs (ms : List (ControlMessage ι)) : List Types.GatewayConfig := ms.filterMap (·.body.config?)

/-- Those that the hub itself published. -/
def ownConfigs (h : ι) (ms : List (ControlMessage ι)) : List Types.GatewayConfig :=
  ms.filterMap fun m => if m.origin = h then m.body.config? else none

/-- The config published last, or the one all hubs started with. -/
def latest (c₀ : Types.GatewayConfig) (ms : List (ControlMessage ι)) : Types.GatewayConfig :=
  (configs ms).getLast?.getD c₀

variable {c₀ : Types.GatewayConfig} {ms log : List (ControlMessage ι)} {m : ControlMessage ι} {h : ι}

omit [DecidableEq ι] in
theorem configs_append (ms ns : List (ControlMessage ι)) : configs (ms ++ ns) = configs ms ++ configs ns :=
  List.filterMap_append

omit [DecidableEq ι] in
theorem configs_snoc_none (hm : m.body.config? = none) : configs (ms ++ [m]) = configs ms := by
  simp [configs, hm]

theorem ownConfigs_snoc_other (hm : m.origin = h → m.body.config? = none) :
    ownConfigs h (ms ++ [m]) = ownConfigs h ms := by
  simp only [ownConfigs, List.filterMap_append, List.filterMap_cons, List.filterMap_nil]
  by_cases ho : m.origin = h
  · simp [ho, hm ho]
  · simp [ho]

theorem ownConfigs_eq_nil (hms : configs ms = []) : ownConfigs h ms = [] := by
  rw [configs, List.filterMap_eq_nil_iff] at hms
  rw [ownConfigs, List.filterMap_eq_nil_iff]
  intro m hm
  rw [hms m hm, ite_self]

omit [DecidableEq ι] in
/-- A hub that has one config still to receive has the latest one to receive. -/
theorem latest_of_suffix {cfg : Types.GatewayConfig} (hs : ms <:+ log) (hc : configs ms = [cfg]) :
    latest c₀ log = cfg := by
  obtain ⟨front, rfl⟩ := hs
  simp [latest, configs_append, hc]

omit [DecidableEq ι] in
theorem snoc_suffix (hs : ms <:+ log) : ms ++ [m] <:+ log ++ [m] := by
  obtain ⟨front, rfl⟩ := hs
  exact ⟨front, (List.append_assoc ..).symm⟩

/-! ### One hub -/

/-- The hub has every config it still needs in its inbox. While a reload of its own is on its way to
the channel nothing is said about its active config but that the reload will publish it. -/
structure Tracks (lib : Library) (c₀ : Types.GatewayConfig) (log : List (ControlMessage ι)) (h : ι)
    (s : HubState ι) : Prop where
  suffix : s.inbox <:+ log
  reading : ∀ cfg, .read cfg ∈ s.reloads → cfg = s.active
  settled : s.reloads ≠ [] → Adoptable lib s.active
  own : s.reloads = [] → ∀ cfg, (ownConfigs h s.inbox).getLast? = some cfg → s.active = cfg
  caught : s.reloads = [] → configs s.inbox = [] → s.active = latest c₀ log

variable {lib : Library} {s : HubState ι} {cfg : Types.GatewayConfig}

theorem Tracks.reload (t : Tracks lib c₀ log h s) (hp : ∀ p ∈ s.reloads, p.isApplied) (hc : Adoptable lib cfg) :
    Tracks lib c₀ log h { s with active := cfg, reloads := s.reloads ++ [.applied] } where
  suffix := t.suffix
  reading c hmem := by
    rcases List.mem_append.mp hmem with hmem | hmem
    · cases hp _ hmem
    · cases List.mem_singleton.mp hmem
  settled _ := hc
  own hr := absurd hr (by simp)
  caught hr := absurd hr (by simp)

theorem Tracks.snapshot {i : ℕ} (t : Tracks lib c₀ log h s) (hi : s.reloads[i]? = some .applied) :
    Tracks lib c₀ log h { s with reloads := s.reloads.set i (.read s.active) } := by
  have hne : s.reloads ≠ [] := fun hnil => by simp [hnil] at hi
  have hne' : s.reloads.set i (.read s.active) ≠ [] := by simpa using hne
  refine ⟨t.suffix, fun c hmem => ?_, fun _ => t.settled hne, fun hr => absurd hr hne', fun hr => absurd hr hne'⟩
  rcases List.mem_or_eq_of_mem_set hmem with hmem | heq
  · exact t.reading c hmem
  · cases heq
    rfl

/-- A message of another hub, or one without a config. -/
theorem Tracks.receive (t : Tracks lib c₀ log h s) (hm : m.origin = h → m.body.config? = none) :
    Tracks lib c₀ (log ++ [m]) h (s.receive m) where
  suffix := snoc_suffix t.suffix
  reading := t.reading
  settled := t.settled
  own hr c hc := by
    rw [HubState.receive, ownConfigs_snoc_other hm] at hc
    exact t.own hr c hc
  caught hr hc := by
    rw [HubState.receive, configs_append, List.append_eq_nil_iff] at hc
    have hnone : m.body.config? = none := by simpa [configs] using hc.2
    rw [latest, configs_snoc_none hnone]
    exact t.caught hr hc.1

/-- The hub's own reload arrives in the channel. -/
theorem Tracks.publish {i : ℕ} (t : Tracks lib c₀ log h s) (hi : s.reloads[i]? = some (.read cfg)) :
    Tracks lib c₀ (log ++ [⟨h, .config cfg⟩]) h
      (HubState.receive { s with reloads := s.reloads.eraseIdx i } ⟨h, .config cfg⟩) where
  suffix := snoc_suffix t.suffix
  reading c hmem := t.reading c (List.mem_of_mem_eraseIdx hmem)
  settled _ := t.settled fun hnil => by simp [hnil] at hi
  own _ c hc := by
    have hlast : c = cfg := by simpa [HubState.receive, ownConfigs, ControlBody.config?] using hc.symm
    rw [hlast]
    exact (t.reading cfg (List.mem_of_getElem? hi)).symm
  caught _ hc := by
    rw [HubState.receive, configs_append, List.append_eq_nil_iff] at hc
    simp [configs, ControlBody.config?] at hc

/-- The relay receives a message. A config of another hub finds none of the hub's own on its way. -/
theorem Tracks.deliver {rest : List (ControlMessage ι)} (t : Tracks lib c₀ log h s) (hin : s.inbox = m :: rest)
    (hset : ∀ cfg, m.body = .config cfg → Adoptable lib cfg)
    (hok : m.origin ≠ h → m.body.config?.isSome → s.reloads = [] ∧ ownConfigs h rest = []) :
    Tracks lib c₀ log h { s with active := adopt lib h s.active m, inbox := rest } := by
  have hsuf : rest <:+ log := (List.suffix_cons m rest).trans (hin ▸ t.suffix)
  obtain ⟨origin, body⟩ := m
  cases body with
  | tier g k i =>
    have hrest : configs s.inbox = configs rest := by rw [hin]; rfl
    have hown : ownConfigs h s.inbox = ownConfigs h rest := by simp [hin, ownConfigs, ControlBody.config?]
    exact ⟨hsuf, t.reading, t.settled, fun hr c hc => t.own hr c (hown ▸ hc), fun hr hc => t.caught hr (hrest ▸ hc)⟩
  | config cfg =>
    have hone (hc : configs rest = []) : latest c₀ log = cfg := by
      refine latest_of_suffix t.suffix ?_
      rw [hin]
      exact congrArg (cfg :: ·) hc
    by_cases ho : origin = h
    · have hact : adopt lib h s.active ⟨origin, .config cfg⟩ = s.active := if_pos ho
      have hown : ownConfigs h s.inbox = cfg :: ownConfigs h rest := by
        simp [hin, ownConfigs, ho, ControlBody.config?]
      rw [hact]
      refine ⟨hsuf, t.reading, t.settled, fun hr c hc => t.own hr c ?_, fun hr hc => ?_⟩
      · rw [hown, List.getLast?_cons, hc]
        rfl
      · rw [hone hc]
        refine t.own hr cfg ?_
        rw [hown, ownConfigs_eq_nil hc]
        rfl
    · obtain ⟨hr, hnil⟩ := hok ho rfl
      have hact : adopt lib h s.active ⟨origin, .config cfg⟩ = cfg := by
        have hc : reloadFromPayload lib cfg = .ok cfg := hset cfg rfl
        simp [adopt, ho, hc]
      rw [hact]
      refine ⟨hsuf, fun c hmem => ?_, fun hne => absurd hr hne, fun _ c hc => ?_, fun _ hc => (hone hc).symm⟩
      · rw [hr] at hmem
        cases hmem
      · rw [hnil] at hc
        cases hc

/-! ### Runs -/

/-- A reload is not applied while another of the same hub stands between reading the active config
and publishing it, and a config of another hub is not delivered to a hub while one of its own has
still to come back to it. -/
def OwnReloadsFirst (w : Hubs ι) : HubAct ι → Prop
  | .reload h _ _ => ∀ p ∈ (w.hub h).reloads, p.isApplied
  | .deliver h => ∀ m ∈ (w.hub h).inbox.head?, m.origin ≠ h → m.body.config?.isSome →
      (w.hub h).reloads = [] ∧ ownConfigs h (w.hub h).inbox.tail = []
  | _ => True

instance (w : Hubs ι) : (act : HubAct ι) → Decidable (OwnReloadsFirst w act)
  | .reload h _ _ => inferInstanceAs (Decidable (∀ p ∈ (w.hub h).reloads, p.isApplied))
  | .deliver h => inferInstanceAs (Decidable (∀ m ∈ (w.hub h).inbox.head?, m.origin ≠ h → m.body.config?.isSome →
      (w.hub h).reloads = [] ∧ ownConfigs h (w.hub h).inbox.tail = []))
  | .snapshot _ _ => isTrue trivial
  | .publish _ _ => isTrue trivial
  | .publishTier _ _ _ _ => isTrue trivial

structure Agreeing (lib : Library) (c₀ : Types.GatewayConfig) (w : Hubs ι) : Prop where
  tracks : ∀ h, Tracks lib c₀ w.log h (w.hub h)
  settled : ∀ m ∈ w.log, ∀ cfg, m.body = .config cfg → Adoptable lib cfg

theorem agreeing_start : Agreeing lib c₀ (Hubs.start c₀ : Hubs ι) where
  tracks _ :=
    ⟨List.suffix_rfl, fun _ hmem => absurd hmem List.not_mem_nil, fun hne => absurd rfl hne,
      fun _ _ hc => absurd hc (by simp [ownConfigs, Hubs.start]), fun _ _ => rfl⟩
  settled _ hm := absurd hm List.not_mem_nil

theorem Agreeing.set {w : Hubs ι} (a : Agreeing lib c₀ w) (hs : Tracks lib c₀ w.log h s) :
    Agreeing lib c₀ (w.set h s) where
  tracks := (Function.forall_update_iff w.hub fun k s => Tracks lib c₀ w.log k s).mpr ⟨hs, fun k _ => a.tracks k⟩
  settled := a.settled

theorem agreeing_step {w w' : Hubs ι} {act : HubAct ι} (a : Agreeing lib c₀ w) (hok : OwnReloadsFirst w act)
    (hs : w.step lib act = some w') : Agreeing lib c₀ w' := by
  cases act with
  | reload h mode f =>
    simp only [Hubs.step] at hs
    split at hs
    · cases hs
    · next cfg hcfg =>
      cases hs
      exact a.set ((a.tracks h).reload hok (adoptable_of_reload hcfg))
  | snapshot h i =>
    simp only [Hubs.step] at hs
    split at hs
    · next hi =>
      cases hs
      exact a.set ((a.tracks h).snapshot hi)
    · cases hs
  | publish h i =>
    simp only [Hubs.step] at hs
    split at hs
    · next cfg hi =>
      cases hs
      refine ⟨fun k => ?_, fun m hm c hc => ?_⟩
      · by_cases hk : k = h
        · subst hk
          simpa [Hubs.post, Hubs.set] using (a.tracks k).publish hi
        · have := (a.tracks k).receive (m := ⟨h, .config cfg⟩) fun ho => absurd ho.symm hk
          simpa [Hubs.post, Hubs.set, hk] using this
      · rcases List.mem_append.mp hm with hm | hm
        · exact a.settled m hm c hc
        · obtain rfl := List.mem_singleton.mp hm
          cases hc
          have hmem := List.mem_of_getElem? hi
          rw [(a.tracks h).reading cfg hmem]
          exact (a.tracks h).settled (List.ne_nil_of_mem hmem)
    · cases hs
  | publishTier h g k t =>
    cases hs
    refine ⟨fun j => (a.tracks j).receive fun _ => rfl, fun m hm c hc => ?_⟩
    rcases List.mem_append.mp hm with hm | hm
    · exact a.settled m hm c hc
    · obtain rfl := List.mem_singleton.mp hm
      cases hc
  | deliver h =>
    simp only [Hubs.step] at hs
    split at hs
    · cases hs
    · next m rest hin =>
      cases hs
      have hm : m ∈ w.log := (a.tracks h).suffix.subset (hin ▸ List.mem_cons_self ..)
      simp only [OwnReloadsFirst, hin] at hok
      exact a.set ((a.tracks h).deliver hin (a.settled m hm) (hok m rfl))

theorem Agreeing.quiet {w : Hubs ι} (a : Agreeing lib c₀ w) (hq : w.Quiet) (h : ι) :
    (w.hub h).active = latest c₀ w.log := by
  obtain ⟨hr, hin⟩ := hq h
  exact (a.tracks h).caught hr (by rw [hin]; rfl)

/-- In every run in which the hubs' own reloads come first, all hubs hold the config published last
once everything is delivered. -/
theorem hubs_converge (lib : Library) (c₀ : Types.GatewayConfig) (acts : List (HubAct ι)) (w : Hubs ι)
    (hok : Along (Hubs.step lib) OwnReloadsFirst (Hubs.start c₀) acts)
    (hrun : runAll (Hubs.step lib) (Hubs.start c₀) acts = some w) (hq : w.Quiet) (h k : ι) :
    (w.hub h).active = (w.hub k).active := by
  have a : Agreeing lib c₀ w :=
    inv_runAll (fun _ _ _ ha ho hs => agreeing_step ha ho hs) acts _ w agreeing_start hok hrun
  rw [a.quiet hq h, a.quiet hq k]

end

/-- A reload of `h`, from applying its config to publishing it. -/
def reloadOn {ι : Type} (h : ι) (requests : UInt32) : List (HubAct ι) :=
  [.reload h .payload (Config.ordersFile { requests := requests }), .snapshot h 0, .publish h 0]

def deliverAll : List (HubAct Bool) := [.deliver false, .deliver false, .deliver true, .deliver true]

/-- Two hubs that both start with one of the example files. -/
def ordersHubs : Hubs Bool := .start (Config.compile (Config.ordersFile { requests := 100 }))

/-- Two hubs reload before either message is delivered: each ends with the other's config. -/
theorem crossed_reloads_swap : ∃ w,
    runAll (Hubs.step Config.plainLibrary) ordersHubs (reloadOn false 200 ++ reloadOn true 300 ++ deliverAll) = some w ∧
      w.Quiet ∧ (w.hub false).active ≠ (w.hub true).active := by
  have heval : (runAll (Hubs.step Config.plainLibrary) ordersHubs
      (reloadOn false 200 ++ reloadOn true 300 ++ deliverAll)).map (fun w =>
        (decide (∀ h, (w.hub h).reloads = [] ∧ (w.hub h).inbox = []),
          decide ((w.hub false).active.prefixes = (w.hub true).active.prefixes))) = some (true, false) := by
    decide +kernel
  obtain ⟨w, hrun, hw⟩ := Option.map_eq_some_iff.mp heval
  rw [Prod.mk.injEq, decide_eq_true_iff, decide_eq_false_iff_not] at hw
  exact ⟨w, hrun, hw.1, fun heq => hw.2 (congrArg _ heq)⟩

/-- The second hub reloads once it has the first one's config. -/
theorem reloads_in_turn_agree : ∃ w,
    runAll (Hubs.step Config.plainLibrary) ordersHubs
      (reloadOn false 200 ++ [.deliver true] ++ reloadOn true 300 ++ [.deliver false, .deliver true, .deliver false])
        = some w ∧ w.Quiet ∧ (w.hub false).active = (w.hub true).active := by
  have heval : (runAll (Hubs.step Config.plainLibrary) ordersHubs
      (reloadOn false 200 ++ [.deliver true] ++ reloadOn true 300 ++
        [.deliver false, .deliver true, .deliver false])).map (fun w =>
        decide (∀ h, (w.hub h).reloads = [] ∧ (w.hub h).inbox = [])) = some true := by
    decide +kernel
  obtain ⟨w, hrun, hw⟩ := Option.map_eq_some_iff.mp heval
  have hq : w.Quiet := fun h => decide_eq_true_iff.mp hw h
  exact ⟨w, hrun, hq, hubs_converge _ _ _ w (by decide +kernel) hrun hq false true⟩

end Gate
