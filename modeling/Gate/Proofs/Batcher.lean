import Gate.Spec.Batcher

/-! The batcher's schedule. No timer drives the queue: a request is sent because it finds a slot
free, or because a batch that ends takes it along. So the pending requests and the slots in use are
tied together by an invariant of the lock sections. -/

namespace Gate

open Conc

/-! Places in a list of lists. -/

/-- Where no value occurs twice, a value tells its place. -/
theorem place_unique {L : List (List ℕ)} (hL : L.flatten.Nodup) {j j' : ℕ} {x x' : List ℕ} {i i' v : ℕ}
    (hx : L[j]? = some x) (hi : x[i]? = some v) (hx' : L[j']? = some x') (hi' : x'[i']? = some v) : j = j' ∧ i = i' := by
  obtain ⟨hin, hout⟩ := List.nodup_flatten.mp hL
  obtain ⟨hj, rfl⟩ := List.getElem?_eq_some_iff.mp hx
  obtain ⟨hj', rfl⟩ := List.getElem?_eq_some_iff.mp hx'
  have hjj : j = j' := by
    rw [List.pairwise_iff_getElem] at hout
    rcases lt_trichotomy j j' with h | h | h
    · exact absurd (List.mem_of_getElem? hi') (hout j j' hj hj' h (List.mem_of_getElem? hi))
    · exact h
    · exact absurd (List.mem_of_getElem? hi) (hout j' j hj' hj h (List.mem_of_getElem? hi'))
  subst hjj
  obtain ⟨h, hv⟩ := List.getElem?_eq_some_iff.mp hi
  obtain ⟨h', hv'⟩ := List.getElem?_eq_some_iff.mp hi'
  exact ⟨rfl, ((hin _ (List.getElem_mem hj)).getElem_inj_iff).mp (hv.trans hv'.symm)⟩

/-- Where no key occurs twice, what is found for a key is all there is for it. -/
theorem filter_key {V : Type} {l : List (ℕ × V)} (hl : (l.map Prod.fst).Nodup) {k : ℕ} {v : V} (h : (k, v) ∈ l) :
    (l.filter fun x => x.1 = k) = [(k, v)] := by
  induction l with
  | nil => cases h
  | cons x l ih =>
    rw [List.map_cons, List.nodup_cons] at hl
    rcases List.mem_cons.mp h with rfl | h
    · have hnone : (l.filter fun x => x.1 = k) = [] := by
        simp only [List.filter_eq_nil_iff, decide_eq_true_eq]
        exact fun y hy hk => hl.1 (List.mem_map.mpr ⟨y, hy, hk⟩)
      simp [hnone]
    · have hne : x.1 ≠ k := fun hk => hl.1 (hk ▸ List.mem_map_of_mem h)
      simp [hne, ih hl.2 h]

namespace Batcher

/-- What holds throughout a lock section. -/
structure Core (b : Batcher) : Prop where
  flying : b.sending.length = b.inflight
  most : b.inflight ≤ batchMaxInflight
  sizes : ∀ x ∈ b.started, 1 ≤ x.length ∧ x.length ≤ batchMaxItems
  order : b.started.flatten ++ b.pending = b.arrived
  ids : b.arrived.map BatchCall.id = List.range b.arrived.length
  numbers : (b.sending.map Sender.number).Nodup
  sender : ∀ s ∈ b.sending, b.started[s.number]? = some s.batch ∧ (s.answered = false ↔ b.replies s.number = none)
  unreplied : ∀ j < b.started.length, b.replies j = none → ∃ s ∈ b.sending, s.number = j
  fresh : ∀ j, b.started.length ≤ j → b.replies j = none
  once : (b.closed.map Prod.fst).Nodup
  results : ∀ id o, (id, o) ∈ b.closed ↔ ∃ j i c r, b.placed j i = some c ∧ c.id = id ∧ b.replies j = some r ∧ r.result i = o
  returned : ∀ id o, b.callers id = .returned o → (id, o) ∈ b.closed

/-- What holds whenever the lock is free: requests wait only while every slot is taken. -/
structure Inv (b : Batcher) : Prop extends Core b where
  busy : b.pending ≠ [] → b.inflight = batchMaxInflight

variable {b : Batcher}

theorem placed_iff {j i : ℕ} {c : BatchCall} : b.placed j i = some c ↔ ∃ x, b.started[j]? = some x ∧ x[i]? = some c := by
  simp [placed, Option.bind_eq_some_iff]

theorem Core.ids_nodup (h : Core b) : ((b.started.map (List.map BatchCall.id)).flatten).Nodup := by
  have hall : (b.arrived.map BatchCall.id).Nodup := h.ids ▸ List.nodup_range
  rw [← h.order, List.map_append] at hall
  rw [← List.map_flatten]
  exact hall.of_append_left

/-- A call has one place in one batch. -/
theorem Core.place_eq (h : Core b) {j j' i i' : ℕ} {c c' : BatchCall} (hc : b.placed j i = some c)
    (hc' : b.placed j' i' = some c') (hid : c.id = c'.id) : j = j' ∧ i = i' := by
  obtain ⟨x, hx, hi⟩ := placed_iff.mp hc
  obtain ⟨x', hx', hi'⟩ := placed_iff.mp hc'
  have hplace : (b.started.map (List.map BatchCall.id))[j]? = some (x.map BatchCall.id) := by simp [hx]
  have hplace' : (b.started.map (List.map BatchCall.id))[j']? = some (x'.map BatchCall.id) := by simp [hx']
  exact place_unique (v := c.id) h.ids_nodup hplace (by simp [hi]) hplace' (by simp [hi', hid])

/-- The calls of a batch the hub has not replied to are not closed. -/
theorem Core.not_closed (h : Core b) {j i : ℕ} {c : BatchCall} (hc : b.placed j i = some c) (hr : b.replies j = none)
    (o : CallResult) : (c.id, o) ∉ b.closed := by
  intro hmem
  obtain ⟨j', i', c', r, hc', hid, hr', -⟩ := (h.results _ _).mp hmem
  obtain ⟨rfl, -⟩ := h.place_eq hc hc' hid.symm
  rw [hr] at hr'
  cases hr'

/-! Each operation keeps the core. -/

theorem core_newBatcher : Core newBatcher where
  flying := rfl
  most := by decide
  sizes := by simp [newBatcher]
  order := rfl
  ids := rfl
  numbers := List.nodup_nil
  sender := by simp [newBatcher]
  unreplied := by simp [newBatcher]
  fresh _ _ := rfl
  once := List.nodup_nil
  results := by simp [newBatcher, placed]
  returned := by simp [newBatcher]

theorem Core.enqueue (h : Core b) (req : QuotaLeaseRequest) : Core (b.enqueue req) where
  flying := h.flying
  most := h.most
  sizes := h.sizes
  order := by simp only [Batcher.enqueue, ← List.append_assoc, h.order]
  ids := by simp [Batcher.enqueue, h.ids, List.range_succ]
  numbers := h.numbers
  sender := h.sender
  unreplied := h.unreplied
  fresh := h.fresh
  once := h.once
  results := h.results
  returned := h.returned

theorem takeLocked_cases (b : Batcher) :
    (b.takeLocked = (none, b) ∧ (b.pending = [] ∨ batchMaxInflight ≤ b.inflight)) ∨
    (∃ batch rest, batch ++ rest = b.pending ∧ 1 ≤ batch.length ∧ batch.length ≤ batchMaxItems ∧
      (b.pending.length ≤ batchMaxItems → rest = []) ∧ b.inflight < batchMaxInflight ∧
      b.takeLocked = (some batch, { b with pending := rest, inflight := b.inflight + 1, started := b.started ++ [batch] })) := by
  rw [takeLocked]
  split
  case isTrue h =>
    left
    exact ⟨rfl, h.imp List.length_eq_zero_iff.mp id⟩
  case isFalse h =>
    right
    rw [not_or] at h
    have hpos : 0 < b.pending.length := Nat.pos_of_ne_zero h.1
    have hmax : 0 < batchMaxItems := by decide
    refine ⟨_, _, List.take_append_drop _ _, ?_, ?_, ?_, not_le.mp h.2, rfl⟩
    · simp only [List.length_take]
      omega
    · simp only [List.length_take]
      omega
    · intro hle
      rw [min_eq_left hle, List.drop_length]

/-- A batch is started under a number of its own, and nothing is closed by that. -/
theorem Core.launch (h : Core b) : Core b.launch := by
  rcases takeLocked_cases b with ⟨htake, -⟩ | ⟨batch, rest, hsplit, hpos, hmax, -, hslot, htake⟩
  · rwa [Batcher.launch, htake]
  · rw [Batcher.launch, htake]
    have hnumber : (b.started ++ [batch]).length - 1 = b.started.length := by simp
    have hlt : ∀ s ∈ b.sending, s.number < b.started.length :=
      fun s hs => (List.getElem?_eq_some_iff.mp (h.sender s hs).1).1
    have hold : ∀ j x, b.started[j]? = some x → (b.started ++ [batch])[j]? = some x :=
      fun j x hx => (List.getElem?_append_left (List.getElem?_eq_some_iff.mp hx).1).trans hx
    exact {
      flying := by simp [h.flying]
      most := hslot
      sizes := by
        intro x hx
        rcases List.mem_append.mp hx with hx | hx
        · exact h.sizes x hx
        · rw [List.mem_singleton.mp hx]
          exact ⟨hpos, hmax⟩
      order := by simpa [hsplit] using h.order
      ids := h.ids
      numbers := by
        rw [List.map_append, List.nodup_append]
        refine ⟨h.numbers, by simp, ?_⟩
        intro n hn m hm hnm
        obtain ⟨s, hs, rfl⟩ := List.mem_map.mp hn
        have := hlt s hs
        simp only [List.map_cons, List.map_nil, List.mem_singleton, hnumber] at hm
        omega
      sender := by
        intro s hs
        rcases List.mem_append.mp hs with hs | hs
        · exact ⟨hold _ _ (h.sender s hs).1, (h.sender s hs).2⟩
        · rw [List.mem_singleton.mp hs]
          simp only [hnumber]
          exact ⟨by simp, fun _ => h.fresh _ le_rfl, fun _ => trivial⟩
      unreplied := by
        intro j hj hr
        rw [List.length_append, List.length_singleton] at hj
        rcases Nat.lt_succ_iff_lt_or_eq.mp hj with hj | rfl
        · obtain ⟨s, hs, hn⟩ := h.unreplied j hj hr
          exact ⟨s, List.mem_append_left _ hs, hn⟩
        · exact ⟨_, List.mem_append_right _ (List.mem_singleton.mpr rfl), hnumber⟩
      fresh := fun j hj => h.fresh j (by simp only [List.length_append, List.length_singleton] at hj; omega)
      once := h.once
      results := by
        intro id o
        rw [h.results]
        -- the new batch has no reply, so it adds no result
        constructor
        · rintro ⟨j, i, c, r, hc, hid, hr, ho⟩
          obtain ⟨x, hx, hi⟩ := placed_iff.mp hc
          exact ⟨j, i, c, r, placed_iff.mpr ⟨x, hold j x hx, hi⟩, hid, hr, ho⟩
        · rintro ⟨j, i, c, r, hc, hid, hr, ho⟩
          obtain ⟨x, hx, hi⟩ := placed_iff.mp hc
          have hj : j < b.started.length := by
            by_contra hge
            rw [h.fresh j (not_lt.mp hge)] at hr
            cases hr
          exact ⟨j, i, c, r, placed_iff.mpr ⟨x, (List.getElem?_append_left hj).symm.trans hx, hi⟩, hid, hr, ho⟩
      returned := h.returned }

/-- After `takeLocked` requests wait only while every slot is taken, if there was at most one batch
of them or a slot in use before. -/
theorem Core.launch_busy (h : Core b) (hroom : b.pending.length ≤ batchMaxItems ∨ 1 ≤ b.inflight) :
    b.launch.pending ≠ [] → b.launch.inflight = batchMaxInflight := by
  have hmost := h.most
  rcases takeLocked_cases b with ⟨htake, hfull⟩ | ⟨batch, rest, -, -, -, hall, hslot, htake⟩
  · rw [Batcher.launch, htake]
    intro hne
    exact le_antisymm hmost (hfull.resolve_left hne)
  · rw [Batcher.launch, htake]
    intro hne
    have hone : 1 ≤ b.inflight := hroom.resolve_left fun hle => hne (hall hle)
    have htwo : batchMaxInflight = 2 := rfl
    simp only
    omega

@[simp] theorem exchange_replies_self (b : Batcher) (k : ℕ) (s : Sender) (r : HubReply) :
    (b.exchange k s r).replies s.number = some r := Function.update_self ..

theorem exchange_replies_ne (b : Batcher) (k : ℕ) (s : Sender) (r : HubReply) {j : ℕ} (hj : j ≠ s.number) :
    (b.exchange k s r).replies j = b.replies j := Function.update_of_ne hj ..

theorem Core.exchange (h : Core b) {k : ℕ} {s : Sender} (hk : b.sending[k]? = some s) (hopen : s.answered = false)
    (r : HubReply) : Core (b.exchange k s r) := by
  have hs : s ∈ b.sending := List.mem_of_getElem? hk
  obtain ⟨hlt, hget⟩ := List.getElem?_eq_some_iff.mp hk
  obtain ⟨hbatch, hnone⟩ := h.sender s hs
  replace hnone := hnone.mp hopen
  have hkeys : (s.batch.mapIdx fun i c => (c.id, r.result i)).map Prod.fst = s.batch.map BatchCall.id := by
    apply List.ext_getElem <;> simp
  have hmem : ∀ id o, (id, o) ∈ (s.batch.mapIdx fun i c => (c.id, r.result i)) ↔
      ∃ i c, s.batch[i]? = some c ∧ c.id = id ∧ r.result i = o := by
    intro id o
    simp only [List.mem_iff_getElem?, List.getElem?_mapIdx, Option.map_eq_some_iff, Prod.mk.injEq]
  have hnumbers : ((b.sending.set k { s with answered := true }).map Sender.number) = b.sending.map Sender.number := by
    apply List.ext_getElem
    · simp
    · intro i hi hi'
      simp only [List.getElem_map, List.getElem_set]
      split
      case isTrue hki => subst hki; rw [hget]
      case isFalse => rfl
  exact {
    flying := by simpa [Batcher.exchange] using h.flying
    most := h.most
    sizes := h.sizes
    order := h.order
    ids := h.ids
    numbers := by
      rw [Batcher.exchange, hnumbers]
      exact h.numbers
    sender := by
      intro t ht
      obtain ⟨i, hi⟩ := List.mem_iff_getElem?.mp ht
      simp only [Batcher.exchange, List.getElem?_set] at hi
      split at hi
      case isTrue hki =>
        obtain rfl := Option.some.inj hi
        exact ⟨hbatch, by simp⟩
      case isFalse hki =>
        have ht' := List.mem_of_getElem? hi
        -- another sender has another number
        have hne : t.number ≠ s.number := by
          intro heq
          have hnum : (b.sending.map Sender.number)[k]? = (b.sending.map Sender.number)[i]? := by simp [hk, hi, heq]
          exact hki ((List.getElem?_inj (by simpa using hlt) h.numbers).mp hnum)
        rw [exchange_replies_ne b k s r hne]
        exact h.sender t ht'
    unreplied := by
      intro j hj hr
      have hne : j ≠ s.number := by
        rintro rfl
        rw [exchange_replies_self] at hr
        cases hr
      rw [exchange_replies_ne b k s r hne] at hr
      obtain ⟨t, ht, hn⟩ := h.unreplied j hj hr
      have hin : j ∈ (b.sending.set k { s with answered := true }).map Sender.number := by
        rw [hnumbers, ← hn]
        exact List.mem_map_of_mem ht
      exact List.mem_map.mp hin
    fresh := by
      intro j hj
      have hne : j ≠ s.number := by
        rintro rfl
        exact absurd (List.getElem?_eq_some_iff.mp hbatch).1 (not_lt.mpr hj)
      rw [exchange_replies_ne b k s r hne]
      exact h.fresh j hj
    once := by
      rw [Batcher.exchange, List.map_append, List.nodup_append, hkeys]
      have hin : (s.batch.map BatchCall.id).Nodup := by
        apply (List.nodup_flatten.mp h.ids_nodup).1
        exact List.mem_map_of_mem (List.mem_of_getElem? hbatch)
      refine ⟨h.once, hin, ?_⟩
      intro n hn m hm hnm
      obtain ⟨⟨id, o⟩, hx, rfl⟩ := List.mem_map.mp hn
      obtain ⟨c, hc, rfl⟩ := List.mem_map.mp hm
      obtain ⟨i, hi⟩ := List.mem_iff_getElem?.mp hc
      obtain rfl : id = c.id := hnm
      exact h.not_closed (placed_iff.mpr ⟨_, hbatch, hi⟩) hnone o hx
    results := by
      intro id o
      have happ : (b.exchange k s r).closed = b.closed ++ s.batch.mapIdx fun i c => (c.id, r.result i) := rfl
      rw [happ, List.mem_append, hmem, h.results]
      constructor
      · rintro (⟨j, i, c, r', hc, hid, hr, ho⟩ | ⟨i, c, hi, hid, ho⟩)
        · have hne : j ≠ s.number := by
            rintro rfl
            rw [hnone] at hr
            cases hr
          exact ⟨j, i, c, r', hc, hid, (exchange_replies_ne b k s r hne).trans hr, ho⟩
        · exact ⟨s.number, i, c, r, placed_iff.mpr ⟨_, hbatch, hi⟩, hid, exchange_replies_self b k s r, ho⟩
      · rintro ⟨j, i, c, r', hc, hid, hr, ho⟩
        by_cases hj : j = s.number
        · subst hj
          right
          rw [exchange_replies_self] at hr
          obtain rfl := Option.some.inj hr
          obtain ⟨x, hx, hi⟩ := placed_iff.mp hc
          obtain rfl : s.batch = x := Option.some.inj (hbatch.symm.trans hx)
          exact ⟨i, c, hi, hid, ho⟩
        · left
          rw [exchange_replies_ne b k s r hj] at hr
          exact ⟨j, i, c, r', hc, hid, hr, ho⟩
    returned := fun id o ho => List.mem_append_left _ (h.returned id o ho) }

theorem Core.release (h : Core b) {k : ℕ} {s : Sender} (hk : b.sending[k]? = some s) (hdone : s.answered = true) :
    Core (b.release k) := by
  have hs : s ∈ b.sending := List.mem_of_getElem? hk
  obtain ⟨hlt, hget⟩ := List.getElem?_eq_some_iff.mp hk
  have hflying := h.flying
  have hmost := h.most
  exact {
    flying := by
      simp only [Batcher.release, List.length_eraseIdx, if_pos hlt]
      omega
    most := by
      simp only [Batcher.release]
      omega
    sizes := h.sizes
    order := h.order
    ids := h.ids
    numbers := h.numbers.sublist ((List.eraseIdx_sublist _ _).map _)
    sender := fun t ht => h.sender t ((List.eraseIdx_sublist _ _).subset ht)
    unreplied := by
      intro j hj hr
      obtain ⟨t, ht, rfl⟩ := h.unreplied j hj hr
      refine ⟨t, ?_, rfl⟩
      rw [Batcher.release, List.mem_eraseIdx_iff_getElem?]
      obtain ⟨i, hi⟩ := List.mem_iff_getElem?.mp ht
      refine ⟨i, ?_, hi⟩
      rintro rfl
      obtain rfl : s = t := Option.some.inj (hk.symm.trans hi)
      rw [(h.sender s hs).2.mpr hr] at hdone
      cases hdone
    fresh := h.fresh
    once := h.once
    results := h.results
    returned := h.returned }

/-! The steps. -/

theorem inv_newBatcher : Inv newBatcher := { core_newBatcher with busy := fun h => absurd rfl h }

theorem resultFor_mem {id : ℕ} {o : CallResult} (h : b.resultFor id = some o) : (id, o) ∈ b.closed := by
  obtain ⟨⟨k, v⟩, hfind, rfl⟩ := Option.map_eq_some_iff.mp h
  obtain rfl : k = id := by simpa using List.find?_some hfind
  exact List.mem_of_find?_eq_some hfind

/-- Of a caller only its own record changes, and it returns only what was written for it. -/
theorem Inv.setCaller (h : Inv b) (id : ℕ) (st : CallerState) (hst : ∀ o, st = .returned o → (id, o) ∈ b.closed) :
    Inv { b with callers := Function.update b.callers id st } :=
  { h with
    returned := by
      intro id' o ho
      by_cases hid : id' = id
      · subst hid
        exact hst o (by simpa using ho)
      · exact h.returned id' o (by simpa [hid] using ho) }

theorem Inv.requestQuotaLease (h : Inv b) (req : QuotaLeaseRequest) : Inv (b.requestQuotaLease req) := by
  rw [Batcher.requestQuotaLease]
  split
  · exact h
  · have hcore := h.toCore.enqueue req
    refine { hcore.launch with busy := hcore.launch_busy ?_ }
    -- with a slot free the request is the only one that waits
    by_cases hp : b.pending = []
    · left
      simp [Batcher.enqueue, hp, batchMaxItems]
    · right
      have hfull : b.inflight = 2 := h.busy hp
      simp [Batcher.enqueue, hfull]

theorem Inv.finish (h : Inv b) {k : ℕ} {s : Sender} (hk : b.sending[k]? = some s) (hdone : s.answered = true) :
    Inv (b.release k).launch := by
  have hcore := h.toCore.release hk hdone
  refine { hcore.launch with busy := hcore.launch_busy ?_ }
  by_cases hp : b.pending = []
  · left
    simp [Batcher.release, hp]
  · right
    have hfull : b.inflight = 2 := h.busy hp
    simp [Batcher.release, hfull]

theorem Inv.step (h : Inv b) {a : BatcherAct} {b' : Batcher} (hstep : b.step a = some b') : Inv b' := by
  cases a with
  | call req =>
    obtain rfl := Option.some.inj hstep
    exact h.requestQuotaLease req
  | reply k r =>
    simp only [Batcher.step] at hstep
    split at hstep
    case h_1 s hk =>
      split at hstep
      case isTrue => cases hstep
      case isFalse hopen =>
        obtain rfl := Option.some.inj hstep
        exact { h.toCore.exchange hk (by simpa using hopen) r with busy := h.busy }
    case h_2 => cases hstep
  | finish k =>
    simp only [Batcher.step] at hstep
    split at hstep
    case h_1 s hk =>
      split at hstep
      case isTrue hdone =>
        obtain rfl := Option.some.inj hstep
        exact h.finish hk hdone
      case isFalse => cases hstep
    case h_2 => cases hstep
  | receive id =>
    simp only [Batcher.step] at hstep
    split at hstep
    case h_1 o hw ho =>
      obtain rfl := Option.some.inj hstep
      exact h.setCaller id _ fun o' heq => CallerState.returned.inj heq ▸ resultFor_mem ho
    case h_2 => cases hstep
  | leave id =>
    simp only [Batcher.step] at hstep
    split at hstep
    case h_1 =>
      split at hstep
      case isTrue =>
        obtain rfl := Option.some.inj hstep
        exact h.setCaller id _ fun o' heq => by cases heq
      case isFalse => cases hstep
    case h_2 => cases hstep

theorem inv_reached {acts : List BatcherAct} (hrun : runAll Batcher.step newBatcher acts = some b) : Inv b := by
  have hany : Along Batcher.step (fun _ _ => True) newBatcher acts := along_of_forall (fun _ _ => trivial) _ _
  exact inv_runAll (fun _ _ _ h _ hs => h.step hs) acts newBatcher b inv_newBatcher hany hrun

/-- What is closed of a call that was sent. -/
theorem Core.closed_of_placed (h : Core b) {j i : ℕ} {c : BatchCall} (hc : b.placed j i = some c) :
    (b.closed.filter fun x => x.1 = c.id) = ((b.replies j).map fun r => (c.id, r.result i)).toList := by
  cases hr : b.replies j with
  | none =>
    simp only [Option.map_none, Option.toList_none, List.filter_eq_nil_iff, decide_eq_true_eq]
    rintro ⟨id, o⟩ hx rfl
    exact h.not_closed hc hr o hx
  | some r => exact filter_key h.once ((h.results _ _).mpr ⟨j, i, c, r, hc, rfl, hr, rfl⟩)

/-- With nothing in flight, every call that arrived was sent and has its result. -/
theorem Inv.all_closed (h : Inv b) (hidle : b.sending = []) {c : BatchCall} (hc : c ∈ b.arrived) :
    ∃ j i r, b.placed j i = some c ∧ b.replies j = some r := by
  have hpending : b.pending = [] := by
    by_contra hne
    have hfull := h.busy hne
    rw [← h.flying, hidle] at hfull
    exact absurd hfull (by decide)
  rw [← h.order, hpending, List.append_nil, List.mem_flatten] at hc
  obtain ⟨x, hx, hcx⟩ := hc
  obtain ⟨j, hj⟩ := List.mem_iff_getElem?.mp hx
  obtain ⟨i, hi⟩ := List.mem_iff_getElem?.mp hcx
  cases hr : b.replies j with
  | none =>
    obtain ⟨s, hs, -⟩ := h.unreplied j (List.getElem?_eq_some_iff.mp hj).1 hr
    rw [hidle] at hs
    cases hs
  | some r => exact ⟨j, i, r, placed_iff.mpr ⟨x, hj, hi⟩, hr⟩

end Batcher

/-- At any moment of any run: the slots and the batches in flight, what was sent, what waits, and what
every call was given. With no batch in flight, no call is left without a result. -/
theorem batcher_schedule {acts : List BatcherAct} {b : Batcher} (hrun : runAll Batcher.step newBatcher acts = some b) :
    (b.sending.length = b.inflight ∧ b.inflight ≤ 2) ∧
    (∀ batch ∈ b.started, 1 ≤ batch.length ∧ batch.length ≤ 256) ∧
    (b.started.flatten ++ b.pending = b.arrived ∧ (b.arrived.map BatchCall.id).Nodup) ∧
    (b.pending ≠ [] → b.inflight = 2) ∧
    (∀ j i c, b.placed j i = some c →
      (b.closed.filter fun x => x.1 = c.id) = ((b.replies j).map fun r => (c.id, r.result i)).toList) ∧
    (∀ id o, b.callers id = .returned o → (id, o) ∈ b.closed) ∧
    (b.sending = [] → ∀ c ∈ b.arrived, ∃ j i r, b.placed j i = some c ∧ b.replies j = some r) := by
  have h := Batcher.inv_reached hrun
  have hids : (b.arrived.map BatchCall.id).Nodup := h.ids ▸ List.nodup_range
  exact ⟨⟨h.flying, h.most⟩, h.sizes, ⟨h.order, hids⟩, h.busy, fun _ _ _ hc => h.closed_of_placed hc, h.returned,
    fun hidle _ hc => h.all_closed hidle hc⟩

/-- Two requests fill the slots, two wait, and the batch that ends takes both of them along. -/
theorem batcher_schedule_takes_waiting :
    ∃ b, runAll Batcher.step newBatcher
        (List.replicate 4 (.call ⟨"service", "svc", "key", "", "", "", 1, "edge", 0⟩) ++
          [.reply 0 ⟨.ok [], fun _ => .ok none⟩, .finish 0, .call ⟨"service", "svc", "key", "", "", "", 1, "edge", 0⟩]) = some b ∧
      b.started.map (List.map BatchCall.id) = [[0], [1], [2, 3]] ∧ b.inflight = 2 := by
  have heval : (runAll Batcher.step newBatcher
      (List.replicate 4 (.call ⟨"service", "svc", "key", "", "", "", 1, "edge", 0⟩) ++
        [.reply 0 ⟨.ok [], fun _ => .ok none⟩, .finish 0, .call ⟨"service", "svc", "key", "", "", "", 1, "edge", 0⟩])).map
      (fun b => (b.started.map (List.map BatchCall.id), b.pending.length)) = some ([[0], [1], [2, 3]], 1) := by
    decide +kernel
  obtain ⟨b, hrun, hb⟩ := Option.map_eq_some_iff.mp heval
  obtain ⟨hstarted, hpending⟩ := Prod.mk.inj hb
  have hne : b.pending ≠ [] := List.ne_nil_of_length_pos (by omega)
  exact ⟨b, hrun, hstarted, (batcher_schedule hrun).2.2.2.1 hne⟩

end Gate
