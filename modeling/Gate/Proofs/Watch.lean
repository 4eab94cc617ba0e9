import Gate.Lib.Threads
import Gate.Proofs.HubAgreement
import Gate.Spec.Watch

/-! A watcher that is not dropped ends up with the hub's config. The config its stream ends with is
the active one, or the relay has still to offer it one: while the active config is newer than what
was offered last, a reload, a message or the relay itself is on its way to read it. -/

namespace Gate

open Conc (runAll inv_runAll along_of_forall)

variable {ι : Type}

/-! The last config of a stream. -/

theorem lastConfig_append (evs evs' : List ControlEvent) :
    lastConfig (evs ++ evs') = (lastConfig evs').or (lastConfig evs) := by
  unfold lastConfig
  rw [List.filterMap_append, List.getLast?_append]

theorem lastConfig_snoc {ev : ControlEvent} {cfg : Types.GatewayConfig} (h : ev.config? = some cfg) (evs : List ControlEvent) :
    lastConfig (evs ++ [ev]) = some cfg := by
  rw [lastConfig_append]
  simp [lastConfig, h]

theorem lastConfig_snoc_none {ev : ControlEvent} (h : ev.config? = none) (evs : List ControlEvent) :
    lastConfig (evs ++ [ev]) = lastConfig evs := by
  rw [lastConfig_append]
  simp [lastConfig, h]

/-! What is on its way. -/

/-- A config of the hub's own. -/
def ControlMessage.Own (h : ι) (m : ControlMessage ι) : Prop := m.origin = h ∧ m.body.config?.isSome = true

/-- The relay will read the active config for one more event. -/
def RelayPhase.Reads (h : ι) : RelayPhase ι → Prop
  | .received m => m.Own h
  | .adopted => True
  | _ => False

/-- It has an event with a config that the watcher is still to be offered. -/
def RelayPhase.Brings (i : ℕ) : RelayPhase ι → Prop
  | .made ev => ev.config?.isSome = true
  | .offering ev rest => ev.config?.isSome = true ∧ i ∈ rest
  | _ => False

/-- The event that the relay has made. -/
def RelayPhase.event : RelayPhase ι → Option ControlEvent
  | .made ev | .offering ev _ => some ev
  | _ => none

namespace WatchHub

def Pending (h : ι) (w : WatchHub ι) : Prop := w.reloads ≠ [] ∨ (∃ m ∈ w.channel, m.Own h) ∨ w.relay.Reads h

def Due (h : ι) (w : WatchHub ι) (i : ℕ) : Prop := w.Pending h ∨ w.relay.Brings i

end WatchHub

/-- The call goes on and the watcher has not been dropped. -/
def Watcher.Open (x : Watcher) : Prop := x.closed = false ∧ x.phase.isEnded = false

/-- What the edge will have is the config `active`; before the first snapshot it may have none. -/
def Watcher.Fresh (active : Types.GatewayConfig) (x : Watcher) : Prop :=
  (x.phase = .registered ∧ lastConfig x.queue = none) ∨ lastConfig x.stream = some active

structure WatchInv (h : ι) (w : WatchHub ι) : Prop where
  carried : ∀ ev ∈ w.relay.event, ∀ cfg ∈ ev.config?, cfg = w.active ∨ w.Pending h
  listed : ∀ (i : ℕ) (x : Watcher), w.watchers[i]? = some x → x.Open → x.listed = true
  fresh : ∀ (i : ℕ) (x : Watcher), w.watchers[i]? = some x → x.Open → x.Fresh w.active ∨ w.Due h i

variable {lib : Library} {h : ι} {w w' : WatchHub ι} {i : ℕ} {x x' : Watcher}

theorem watchInv_start (h : ι) (cfg : Types.GatewayConfig) : WatchInv h (.start cfg) where
  carried ev hev := by cases hev
  listed i x hx := by simp [WatchHub.start] at hx
  fresh i x hx := by simp [WatchHub.start] at hx

/-! Steps of the hub. -/

/-- A step that leaves the watchers alone, and the active config unless it is still to be read. -/
theorem WatchInv.of_hub (hi : WatchInv h w) (hw : w'.watchers = w.watchers)
    (hactive : w'.active = w.active ∨ w'.Pending h) (hpending : w.Pending h → w'.Pending h ∨ ∀ i, w'.relay.Brings i)
    (hbrings : ∀ (i : ℕ) (x : Watcher), w.watchers[i]? = some x → x.Open → w.relay.Brings i → w'.Due h i)
    (hcarried : ∀ ev ∈ w'.relay.event, ∀ cfg ∈ ev.config?, cfg = w'.active ∨ w'.Pending h) : WatchInv h w' where
  carried := hcarried
  listed i x hx ho := hi.listed i x (hw ▸ hx) ho
  fresh i x hx ho := by
    rw [hw] at hx
    rcases hi.fresh i x hx ho with hf | hp | hb
    · rcases hactive with ha | hp
      · rw [ha]
        exact .inl hf
      · exact .inr (.inl hp)
    · rcases hpending hp with hp | hb
      · exact .inr (.inl hp)
      · exact .inr (.inr (hb i))
    · exact .inr (hbrings i x hx ho hb)

/-- One that also leaves the relay and the active config alone. -/
theorem WatchInv.of_pending (hi : WatchInv h w) (hw : w'.watchers = w.watchers) (hactive : w'.active = w.active ∨ w'.Pending h)
    (hrelay : w'.relay = w.relay) (hpending : w.Pending h → w'.Pending h) : WatchInv h w' := by
  refine hi.of_hub hw hactive (fun hp => .inl (hpending hp)) (fun i x _ _ hb => .inr (hrelay ▸ hb)) fun ev hev cfg hc => ?_
  rw [hrelay] at hev
  rcases hi.carried ev hev cfg hc with ha | hp
  · rcases hactive with ha' | hp
    · exact .inl (ha.trans ha'.symm)
    · exact .inr hp
  · exact .inr (hpending hp)

/-! Steps of a watcher. -/

theorem WatchHub.getElem?_setWatcher {j : ℕ} {y : Watcher} (hy : (w.setWatcher i x').watchers[j]? = some y) :
    (j = i ∧ y = x') ∨ (j ≠ i ∧ w.watchers[j]? = some y) := Conc.getElem?_set_cases hy

theorem WatchInv.of_watcher (hi : WatchInv h w) (hlisted : x'.Open → x'.listed = true)
    (hfresh : x'.Open → x'.Fresh w.active ∨ w.Due h i) : WatchInv h (w.setWatcher i x') where
  carried := hi.carried
  listed j y hy := by
    rcases WatchHub.getElem?_setWatcher hy with ⟨-, rfl⟩ | ⟨-, hy⟩
    · exact hlisted
    · exact hi.listed j y hy
  fresh j y hy := by
    rcases WatchHub.getElem?_setWatcher hy with ⟨rfl, rfl⟩ | ⟨-, hy⟩
    · exact hfresh
    · exact hi.fresh j y hy

/-- The first snapshot comes before whatever has been queued since the call was registered. -/
theorem Watcher.Fresh.snap {active : Types.GatewayConfig} (hp : x.phase = .registered) (hf : x.Fresh active) :
    Watcher.Fresh active { x with phase := .snapped (.config active true) } := by
  right
  unfold Watcher.Fresh Watcher.stream at hf
  unfold Watcher.stream
  rw [hp] at hf
  simp only [WatchPhase.held, List.append_nil, lastConfig_append] at hf ⊢
  rcases hf with ⟨-, hq⟩ | hs
  · rw [hq]
    rfl
  · cases hq : lastConfig x.queue with
    | none => rfl
    | some c =>
      rw [hq] at hs
      simpa using hs

/-- The same stream, further on. -/
theorem Watcher.Fresh.of_stream {active : Types.GatewayConfig} (hp : x.phase ≠ .registered) (hs : x'.stream = x.stream)
    (hf : x.Fresh active) : x'.Fresh active := by
  rcases hf with ⟨hr, -⟩ | hf
  · exact absurd hr hp
  · right
    rw [hs]
    exact hf

/-- What a watcher does by itself. -/
theorem watch_spec {active : Types.GatewayConfig} {act : WatchAct ι} (hs : WatchHub.watch active x act = some x') (ho : x'.Open) :
    x.Open ∧ x'.listed = x.listed ∧ (x.Fresh active → x'.Fresh active) := by
  cases act with
  | snap =>
    simp only [WatchHub.watch] at hs
    split at hs
    next hp =>
      obtain rfl := Option.some.inj hs
      exact ⟨⟨ho.1, by rw [hp]; rfl⟩, rfl, .snap hp⟩
    next => cases hs
  | sendFirst =>
    simp only [WatchHub.watch] at hs
    split at hs
    next ev hp =>
      obtain rfl := Option.some.inj hs
      refine ⟨⟨ho.1, by rw [hp]; rfl⟩, rfl, .of_stream (by simp [hp]) ?_⟩
      simp [Watcher.stream, hp, WatchPhase.held]
    next => cases hs
  | dequeue =>
    simp only [WatchHub.watch] at hs
    split at hs
    next ev rest hp hq =>
      obtain rfl := Option.some.inj hs
      refine ⟨⟨ho.1, by rw [hp]; rfl⟩, rfl, .of_stream (by simp [hp]) ?_⟩
      simp [Watcher.stream, hp, hq, WatchPhase.held]
    next =>
      split_ifs at hs
      obtain rfl := Option.some.inj hs
      cases ho.2
    next => cases hs
  | send =>
    simp only [WatchHub.watch] at hs
    split at hs
    next ev hp =>
      obtain rfl := Option.some.inj hs
      refine ⟨⟨ho.1, by rw [hp]; rfl⟩, rfl, .of_stream (by simp [hp]) ?_⟩
      simp [Watcher.stream, hp, WatchPhase.held]
    next => cases hs
  | hangUp =>
    simp only [WatchHub.watch] at hs
    split at hs
    next => cases hs
    next => cases hs
    next =>
      obtain rfl := Option.some.inj hs
      cases ho.2
  | leave =>
    simp only [WatchHub.watch] at hs
    split at hs
    next why hp =>
      obtain rfl := Option.some.inj hs
      have hended := ho.2
      simp only [hp] at hended
      cases hended
    next => cases hs
  | _ => cases hs

theorem WatchInv.watchStep (hi : WatchInv h w) {act : WatchAct ι} (hs : w.watchStep i act = some w') : WatchInv h w' := by
  unfold WatchHub.watchStep at hs
  obtain ⟨x, hx, hs⟩ := Option.bind_eq_some_iff.mp hs
  obtain ⟨x', hx', hs⟩ := Option.bind_eq_some_iff.mp hs
  obtain rfl := Option.some.inj hs
  refine hi.of_watcher (fun ho => ?_) fun ho => ?_
  · obtain ⟨ho', hl, -⟩ := watch_spec hx' ho
    rw [hl]
    exact hi.listed i x hx ho'
  · obtain ⟨ho', -, hf⟩ := watch_spec hx' ho
    exact (hi.fresh i x hx ho').imp_left hf

/-! The relay. -/

theorem WatchHub.mem_listed {i : ℕ} (hx : w.watchers[i]? = some x) (hl : x.listed = true) : i ∈ w.listed := by
  obtain ⟨hlen, hget⟩ := List.getElem?_eq_some_iff.mp hx
  simp [WatchHub.listed, hlen, hget, hl]

variable [DecidableEq ι]

/-- `deliver`, up to the snapshot. -/
theorem WatchInv.begin (hi : WatchInv h w) {m : ControlMessage ι} (hr : w.relay = .received m) : WatchInv h (w.begin lib h m) := by
  have hnone : ∀ i, ¬ w.relay.Brings i := fun i hb => by
    rw [hr] at hb
    exact hb
  unfold WatchHub.begin
  obtain ⟨origin, body⟩ := m
  cases body with
  | tier group apiKey tierID =>
    refine hi.of_hub rfl (.inl rfl) (fun hp => .inl ?_) (fun i _ _ _ hb => absurd hb (hnone i)) fun ev hev cfg hc => ?_
    · rcases hp with hp | hp | hp
      · exact .inl hp
      · exact .inr (.inl hp)
      · rw [hr] at hp
        cases hp.2
    · obtain rfl := Option.some.inj hev
      cases hc
  | config cfg =>
    have hadopted : ∀ active, WatchInv h { w with active := active, relay := .adopted } := fun active =>
      hi.of_hub rfl (.inr (.inr (.inr trivial))) (fun _ => .inl (.inr (.inr trivial)))
        (fun i _ _ _ hb => absurd hb (hnone i)) fun ev hev => by cases hev
    dsimp only
    split_ifs with ho
    · exact hadopted w.active
    · cases reloadFromPayload lib cfg with
      | ok next => exact hadopted next
      | error e =>
        refine hi.of_hub rfl (.inl rfl) (fun hp => .inl ?_) (fun i _ _ _ hb => absurd hb (hnone i)) fun ev hev => by cases hev
        rcases hp with hp | hp | hp
        · exact .inl hp
        · exact .inr (.inl hp)
        · rw [hr] at hp
          exact absurd hp.1 ho

omit [DecidableEq ι] in
/-- The event goes to a watcher, or the watcher is dropped. -/
theorem WatchInv.offer (hi : WatchInv h w) {ev : ControlEvent} {rest : List ℕ} (hr : w.relay = .offering ev rest)
    (hx : w.watchers[i]? = some x) : WatchInv h { w.setWatcher i (x.offer ev) with relay := .offering ev (rest.erase i) } := by
  have hpending : w.Pending h → WatchHub.Pending h { w.setWatcher i (x.offer ev) with relay := .offering ev (rest.erase i) } := by
    rintro (hp | hp | hp)
    · exact .inl hp
    · exact .inr (.inl hp)
    · rw [hr] at hp
      cases hp
  have hcarried : ∀ cfg ∈ ev.config?, cfg = w.active ∨ w.Pending h := hi.carried ev (by rw [hr]; rfl)
  refine ⟨fun ev' hev cfg hc => ?_, fun j y hy ho => ?_, fun j y hy ho => ?_⟩
  · obtain rfl := Option.some.inj hev
    exact (hcarried cfg hc).imp_right hpending
  · rcases WatchHub.getElem?_setWatcher hy with ⟨-, rfl⟩ | ⟨-, hy⟩
    · unfold Watcher.offer at ho ⊢
      split_ifs at ho ⊢
      · exact hi.listed i x hx ho
      · cases ho.1
    · exact hi.listed j y hy ho
  · rcases WatchHub.getElem?_setWatcher hy with ⟨rfl, rfl⟩ | ⟨hji, hy⟩
    · unfold Watcher.offer at ho ⊢
      split_ifs at ho ⊢
      · cases hc : ev.config? with
        | some cfg =>
          rcases hcarried cfg hc with ha | hp
          · left
            right
            show lastConfig (x.sent ++ x.phase.held ++ (x.queue ++ [ev])) = some w.active
            rw [← List.append_assoc, lastConfig_snoc hc, ha]
          · exact .inr (.inl (hpending hp))
        | none =>
          have hsame : Watcher.Fresh w.active x → Watcher.Fresh w.active { x with queue := x.queue ++ [ev] } := by
            rintro (⟨hp, hq⟩ | hs)
            · exact .inl ⟨hp, (lastConfig_snoc_none hc x.queue).trans hq⟩
            · right
              show lastConfig (x.sent ++ x.phase.held ++ (x.queue ++ [ev])) = some w.active
              rw [← List.append_assoc, lastConfig_snoc_none hc]
              exact hs
          rcases hi.fresh j x hx ho with hf | hp | hb
          · exact .inl (hsame hf)
          · exact .inr (.inl (hpending hp))
          · rw [hr] at hb
            have hsome : ev.config?.isSome = true := hb.1
            rw [hc] at hsome
            cases hsome
      · cases ho.1
    · rcases hi.fresh j y hy ho with hf | hp | hb
      · exact .inl hf
      · exact .inr (.inl (hpending hp))
      · rw [hr] at hb
        exact .inr (.inr ⟨hb.1, (List.mem_erase_of_ne hji).mpr hb.2⟩)

omit [DecidableEq ι] in
theorem WatchInv.connect (hi : WatchInv h w) : WatchInv h { w with watchers := w.watchers ++ [.new] } := by
  have hnew : ∀ (j : ℕ) (y : Watcher), (w.watchers ++ [.new])[j]? = some y → w.watchers[j]? = some y ∨ y = .new := by
    intro j y hy
    rcases lt_or_ge j w.watchers.length with hlt | hge
    · rw [List.getElem?_append_left hlt] at hy
      exact .inl hy
    · rw [List.getElem?_append_right hge] at hy
      exact .inr (List.mem_singleton.mp (List.mem_of_getElem? hy))
  refine ⟨hi.carried, fun j y hy ho => ?_, fun j y hy ho => ?_⟩
  · rcases hnew j y hy with hy | rfl
    · exact hi.listed j y hy ho
    · rfl
  · rcases hnew j y hy with hy | rfl
    · exact hi.fresh j y hy ho
    · exact .inl (.inl ⟨rfl, rfl⟩)

theorem watchInv_step (w : WatchHub ι) (act : WatchAct ι) (w' : WatchHub ι) (hi : WatchInv h w) (hs : w.step lib h act = some w') :
    WatchInv h w' := by
  cases act with
  | reload mode f =>
    obtain ⟨cfg, -, hs⟩ := Option.bind_eq_some_iff.mp hs
    obtain rfl := Option.some.inj hs
    have hpend : WatchHub.Pending h { w with active := cfg, reloads := w.reloads ++ [.applied] } := .inl (by simp)
    exact hi.of_pending rfl (.inr hpend) rfl fun _ => hpend
  | snapshot i =>
    simp only [WatchHub.step] at hs
    split at hs
    next hp =>
      obtain rfl := Option.some.inj hs
      have hne : w.reloads ≠ [] := fun hnil => by simp [hnil] at hp
      exact hi.of_pending rfl (.inl rfl) rfl fun _ => .inl (by simpa using hne)
    next => cases hs
  | publish i =>
    simp only [WatchHub.step] at hs
    split at hs
    next cfg hp =>
      obtain rfl := Option.some.inj hs
      exact hi.of_pending rfl (.inl rfl) rfl fun _ => .inr (.inl ⟨_, List.mem_append_right _ List.mem_cons_self, rfl, rfl⟩)
    next => cases hs
  | publishTier group apiKey tierID =>
    obtain rfl := Option.some.inj hs
    refine hi.of_pending rfl (.inl rfl) rfl ?_
    rintro (hp | ⟨m, hm, ho⟩ | hp)
    · exact .inl hp
    · exact .inr (.inl ⟨m, List.mem_append_left _ hm, ho⟩)
    · exact .inr (.inr hp)
  | arrive m =>
    simp only [WatchHub.step] at hs
    split_ifs at hs
    obtain rfl := Option.some.inj hs
    refine hi.of_pending rfl (.inl rfl) rfl ?_
    rintro (hp | ⟨m, hm, ho⟩ | hp)
    · exact .inl hp
    · exact .inr (.inl ⟨m, List.mem_append_left _ hm, ho⟩)
    · exact .inr (.inr hp)
  | receive =>
    simp only [WatchHub.step] at hs
    split at hs
    next m rest hr hch =>
      obtain rfl := Option.some.inj hs
      have hnone : ∀ i, ¬ w.relay.Brings i := fun i hb => by
        rw [hr] at hb
        exact hb
      refine hi.of_hub rfl (.inl rfl) (fun hp => .inl ?_) (fun i _ _ _ hb => absurd hb (hnone i)) fun ev hev => by cases hev
      rcases hp with hp | ⟨m', hm, ho⟩ | hp
      · exact .inl hp
      · rw [hch] at hm
        rcases List.mem_cons.mp hm with rfl | hm
        · exact .inr (.inr ho)
        · exact .inr (.inl ⟨m', hm, ho⟩)
      · rw [hr] at hp
        cases hp
    next => cases hs
  | adopt =>
    simp only [WatchHub.step] at hs
    split at hs
    next m hr =>
      obtain rfl := Option.some.inj hs
      exact hi.begin hr
    next => cases hs
  | make =>
    simp only [WatchHub.step] at hs
    split at hs
    next hr =>
      obtain rfl := Option.some.inj hs
      refine hi.of_hub rfl (.inl rfl) (fun _ => .inr fun _ => rfl) (fun i _ _ _ hb => ?_) fun ev hev cfg hc => ?_
      · rw [hr] at hb
        cases hb
      · obtain rfl := Option.some.inj hev
        exact .inl (Option.some.inj hc).symm
    next => cases hs
  | lock =>
    simp only [WatchHub.step] at hs
    split at hs
    next ev hr =>
      obtain rfl := Option.some.inj hs
      have hpending : w.Pending h → WatchHub.Pending h { w with relay := .offering ev w.listed } := by
        rintro (hp | hp | hp)
        · exact .inl hp
        · exact .inr (.inl hp)
        · rw [hr] at hp
          cases hp
      refine hi.of_hub rfl (.inl rfl) (fun hp => .inl (hpending hp)) (fun i x hx ho hb => ?_) fun ev' hev cfg hc => ?_
      · rw [hr] at hb
        exact .inr ⟨hb, WatchHub.mem_listed hx (hi.listed i x hx ho)⟩
      · exact (hi.carried ev' (by rw [hr]; exact hev) cfg hc).imp_right hpending
    next => cases hs
  | offer i =>
    simp only [WatchHub.step] at hs
    split at hs
    next ev rest x hr hx =>
      split_ifs at hs
      obtain rfl := Option.some.inj hs
      exact hi.offer hr hx
    next => cases hs
  | unlock =>
    simp only [WatchHub.step] at hs
    split at hs
    next ev hr =>
      obtain rfl := Option.some.inj hs
      refine hi.of_hub rfl (.inl rfl) (fun hp => .inl ?_) (fun i x _ _ hb => ?_) fun ev' hev => by cases hev
      · rcases hp with hp | hp | hp
        · exact .inl hp
        · exact .inr (.inl hp)
        · rw [hr] at hp
          cases hp
      · rw [hr] at hb
        exact absurd hb.2 List.not_mem_nil
    next => cases hs
  | connect =>
    simp only [WatchHub.step] at hs
    split_ifs at hs
    obtain rfl := Option.some.inj hs
    exact hi.connect
  | leave i =>
    simp only [WatchHub.step] at hs
    split_ifs at hs
    exact hi.watchStep hs
  | snap i => exact hi.watchStep hs
  | sendFirst i => exact hi.watchStep hs
  | dequeue i => exact hi.watchStep hs
  | send i => exact hi.watchStep hs
  | hangUp i => exact hi.watchStep hs

/-! A dropped watcher. -/

omit [DecidableEq ι] in
theorem WatchHub.setWatcher_self (hx : w.watchers[i]? = some x) (x' : Watcher) :
    (w.setWatcher i x').watchers[i]? = some x' := by
  obtain ⟨hlen, -⟩ := List.getElem?_eq_some_iff.mp hx
  simp [WatchHub.setWatcher, hlen]

theorem step_of_watch {a : WatchAct ι} (ha : a.isOf i = true) (hx : w.watchers[i]? = some x)
    (hs : WatchHub.watch w.active x a = some x') : w.step lib h a = some (w.setWatcher i x') := by
  have hstep : w.watchStep i a = some (w.setWatcher i x') := by simp [WatchHub.watchStep, hx, hs]
  cases a with
  | snap j | sendFirst j | dequeue j | send j =>
    obtain rfl : i = j := of_decide_eq_true ha
    exact hstep
  | _ => cases ha

theorem EndsUnavailable.of_watch {a : WatchAct ι} (ha : a.isOf i = true) (hx : w.watchers[i]? = some x)
    (hs : WatchHub.watch w.active x a = some x') (he : EndsUnavailable lib h (w.setWatcher i x') i) : EndsUnavailable lib h w i := by
  obtain ⟨acts, w₁, x₁, hacts, hrun, hx₁, hp⟩ := he
  refine ⟨a :: acts, w₁, x₁, List.forall_mem_cons.mpr ⟨ha, hacts⟩, ?_, hx₁, hp⟩
  rw [runAll, step_of_watch ha hx hs]
  exact hrun

/-- At the `select` it takes what is queued, and then finds the channel closed. -/
theorem endsUnavailable_waiting (lib : Library) (h : ι) :
    ∀ (q : List ControlEvent) {w : WatchHub ι} {x : Watcher}, w.watchers[i]? = some x → x.phase = .waiting → x.queue = q →
      x.closed = true → EndsUnavailable lib h w i := by
  intro q
  induction q with
  | nil =>
    intro w x hx hp hq hc
    have hs : WatchHub.watch w.active x (.dequeue i : WatchAct ι) = some { x with phase := .ended .unavailable } := by
      simp [WatchHub.watch, hp, hq, hc]
    refine .of_watch (a := .dequeue i) (by simp [WatchAct.isOf]) hx hs ?_
    exact ⟨[], _, _, fun a ha => absurd ha List.not_mem_nil, rfl, WatchHub.setWatcher_self hx _, rfl⟩
  | cons ev q ih =>
    intro w x hx hp hq hc
    have htake : WatchHub.watch w.active x (.dequeue i : WatchAct ι) = some { x with phase := .holding ev, queue := q } := by
      simp [WatchHub.watch, hp, hq]
    refine .of_watch (a := .dequeue i) (by simp [WatchAct.isOf]) hx htake ?_
    have hx₁ := WatchHub.setWatcher_self hx { x with phase := .holding ev, queue := q }
    have hsend : WatchHub.watch w.active { x with phase := .holding ev, queue := q } (.send i : WatchAct ι) =
        some { x with phase := .waiting, queue := q, sent := x.sent ++ [ev] } := rfl
    refine .of_watch (a := .send i) (by simp [WatchAct.isOf]) hx₁ hsend ?_
    exact ih (WatchHub.setWatcher_self hx₁ _) rfl rfl hc

theorem endsUnavailable_of_closed (lib : Library) (h : ι) (hx : w.watchers[i]? = some x) (hc : x.closed = true)
    (hlive : x.phase.isEnded = false) : EndsUnavailable lib h w i := by
  have hsnapped : ∀ {w : WatchHub ι} {x : Watcher} (ev : ControlEvent), w.watchers[i]? = some x → x.phase = .snapped ev →
      x.closed = true → EndsUnavailable lib h w i := by
    intro w x ev hx hp hc
    have hs : WatchHub.watch w.active x (.sendFirst i : WatchAct ι) = some { x with phase := .waiting, sent := x.sent ++ [ev] } := by
      simp [WatchHub.watch, hp]
    refine .of_watch (a := .sendFirst i) (by simp [WatchAct.isOf]) hx hs ?_
    exact endsUnavailable_waiting lib h _ (WatchHub.setWatcher_self hx _) rfl rfl hc
  cases hp : x.phase with
  | registered =>
    have hs : WatchHub.watch w.active x (.snap i : WatchAct ι) = some { x with phase := .snapped (.config w.active true) } := by
      simp [WatchHub.watch, hp]
    refine .of_watch (a := .snap i) (by simp [WatchAct.isOf]) hx hs ?_
    exact hsnapped _ (WatchHub.setWatcher_self hx _) rfl hc
  | snapped ev => exact hsnapped ev hx hp hc
  | waiting => exact endsUnavailable_waiting lib h _ hx hp rfl hc
  | holding ev =>
    have hs : WatchHub.watch w.active x (.send i : WatchAct ι) = some { x with phase := .waiting, sent := x.sent ++ [ev] } := by
      simp [WatchHub.watch, hp]
    refine .of_watch (a := .send i) (by simp [WatchAct.isOf]) hx hs ?_
    exact endsUnavailable_waiting lib h _ (WatchHub.setWatcher_self hx _) rfl rfl hc
  | ended why =>
    rw [hp] at hlive
    cases hlive

/-! Runs. -/

/-- In every state that a hub and its watchers reach: an edge that was not dropped and whose stream
is drained has the active config once the hub is quiet, and one that was dropped is told so. -/
theorem watch_loses_no_config (lib : Library) (h : ι) (c₀ : Types.GatewayConfig) (acts : List (WatchAct ι)) {w : WatchHub ι}
    (hrun : runAll (WatchHub.step lib h) (.start c₀) acts = some w) {i : ℕ} {x : Watcher} (hx : w.watchers[i]? = some x)
    (hlive : x.phase.isEnded = false) :
    (x.closed = false → w.Quiet → x.phase = .waiting → x.queue = [] → lastConfig x.sent = some w.active) ∧
      (x.closed = true → EndsUnavailable lib h w i) := by
  have hstep : ∀ (s : WatchHub ι) (a : WatchAct ι) (s' : WatchHub ι), WatchInv h s → True → s.step lib h a = some s' →
      WatchInv h s' := fun s a s' hi _ hs => watchInv_step s a s' hi hs
  have hinv : WatchInv h w := inv_runAll hstep acts _ w (watchInv_start h c₀) (along_of_forall (fun _ _ => trivial) acts _) hrun
  refine ⟨fun hopen hq hp hempty => ?_, fun hc => endsUnavailable_of_closed lib h hx hc hlive⟩
  obtain ⟨hreloads, hchannel, hrelay⟩ := hq
  rcases hinv.fresh i x hx ⟨hopen, hlive⟩ with (⟨hr, -⟩ | hs) | hp' | hb
  · rw [hp] at hr
    cases hr
  · simpa [Watcher.stream, hp, hempty, WatchPhase.held] using hs
  · -- nothing is pending in a quiet hub
    rcases hp' with hp' | ⟨m, hm, -⟩ | hp'
    · exact absurd hreloads hp'
    · rw [hchannel] at hm
      exact absurd hm List.not_mem_nil
    · rw [hrelay] at hp'
      cases hp'
  · rw [hrelay] at hb
    cases hb

def WatchPhase.isWaiting : WatchPhase → Bool
  | .waiting => true
  | _ => false

theorem WatchPhase.isWaiting_iff {p : WatchPhase} : p.isWaiting = true ↔ p = .waiting := by
  cases p <;> simp [isWaiting]

def RelayPhase.isIdle : RelayPhase ι → Bool
  | .idle => true
  | _ => false

omit [DecidableEq ι] in
theorem RelayPhase.isIdle_iff {p : RelayPhase ι} : p.isIdle = true ↔ p = .idle := by
  cases p <;> simp [isIdle]

/-- An edge connects and its first snapshot is taken; then the hub reloads, and the new config is
queued before the snapshot is sent. -/
def reloadWhileConnecting : List (WatchAct Bool) :=
  [.connect, .snap 0, .reload .payload (Config.ordersFile { requests := 200 }), .snapshot 0, .publish 0, .receive, .adopt, .make,
    .lock, .offer 0, .unlock, .sendFirst 0, .dequeue 0, .send 0]

theorem watch_loses_no_config_connecting : ∃ w x,
    runAll (WatchHub.step Config.plainLibrary true) (.start (Config.compile (Config.ordersFile { requests := 100 })))
      reloadWhileConnecting = some w ∧ w.watchers[0]? = some x ∧ lastConfig x.sent = some w.active := by
  have heval : (runAll (WatchHub.step Config.plainLibrary true) (.start (Config.compile (Config.ordersFile { requests := 100 })))
      reloadWhileConnecting).map (fun w => (decide (w.reloads = []) && decide (w.channel = []) && w.relay.isIdle,
        (w.watchers[0]?).map fun x => (x.phase.isWaiting, decide (x.queue = []), x.closed))) =
      some (true, some (true, true, false)) := by decide +kernel
  obtain ⟨w, hrun, hw⟩ := Option.map_eq_some_iff.mp heval
  obtain ⟨hquiet, hwatch⟩ := Prod.mk.inj hw
  obtain ⟨x, hx, hstate⟩ := Option.map_eq_some_iff.mp hwatch
  simp only [Prod.mk.injEq, decide_eq_true_eq] at hstate
  simp only [Bool.and_eq_true, decide_eq_true_eq] at hquiet
  obtain ⟨hphase, hqueue, hclosed⟩ := hstate
  have hp : x.phase = .waiting := WatchPhase.isWaiting_iff.mp hphase
  have hq : w.Quiet := ⟨hquiet.1.1, hquiet.1.2, RelayPhase.isIdle_iff.mp hquiet.2⟩
  have hall := watch_loses_no_config Config.plainLibrary true _ _ hrun hx (by rw [hp]; rfl)
  exact ⟨w, x, hrun, hx, hall.1 hclosed hq hp hqueue⟩

end Gate
