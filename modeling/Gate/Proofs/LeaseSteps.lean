import Gate.Proofs.LeasePrograms

/-! What a step of the edges can do, said once. `Base` holds in every run. An invariant of
the tokens has to be shown only for the steps that touch what it speaks of; those are the
fields of `Obeys`, and `Obeys.run` carries such an invariant over whole runs. -/

namespace Gate

open Conc

/-- Nothing that tokens depend on has changed. -/
structure World.Same (w w' : World) : Prop where
  time : w'.time = w.time
  tokens : w'.tokens = w.tokens
  expiresAt : w'.expiresAt = w.expiresAt
  cur : w'.cur = w.cur
  calls : w'.calls = w.calls
  replies : w'.replies = w.replies
  posts : w'.posts = w.posts
  reservations : w'.reservations = w.reservations
  ledger : w'.ledger = w.ledger
  log : w'.log = w.log

theorem World.Same.refl (w : World) : w.Same w := ⟨rfl, rfl, rfl, rfl, rfl, rfl, rfl, rfl, rfl, rfl⟩

/-- A lease request as an edge makes it. -/
def Regime.Made (R : Regime) (r : QuotaLeaseRequest) : Prop :=
  ∃ o req size rate, R.fits req ∧ r = Lease.leaseRequest o req size rate

/-- A return as an edge makes it. -/
def Regime.MadeReturn (R : Regime) (r : ReturnLeasesRequest) : Prop :=
  r.dedupe ≠ "" ∧ ∀ x ∈ r.returns, ∃ h n, R.fits h.c.req ∧ x = Lease.leaseReturn h n

/-- What holds in every run. -/
structure Base (R : Regime) (w : World) : Prop where
  cur : ∀ c, (w.cur c).c = c
  made : ∀ c ∈ w.made, R.fits c.req
  table : ∀ c ∈ w.table, R.fits c.req
  calls : ∀ c ∈ w.calls, R.Made c.body
  replies : ∀ r ∈ w.replies, r.call < w.calls.length ∧ R.Made r.req
  posts : ∀ p ∈ w.posts, R.MadeReturn p.body

/-- Every flight of a singleflight group is run by one goroutine, and no two flights are for
one counter. -/
structure Single (w : World) (gs : List Know) : Prop where
  flying : ∀ g ∈ gs, ∀ f, g.slot = some f → f ∈ w.flights
  alone : ∀ {t t' : ℕ} {g g' : Know} {f : Flight}, gs[t]? = some g → gs[t']? = some g' → g.slot = some f →
    g'.slot = some f → t = t'
  ids : ∀ f ∈ w.flights, ∀ f' ∈ w.flights, f.id = f'.id → f = f'
  keys : ∀ f ∈ w.flights, ∀ f' ∈ w.flights, f.edge = f'.edge → f.key = f'.key → f = f'
  fresh : ∀ f ∈ w.flights, f.id < w.fresh

/-- The steps an invariant of the tokens has to survive. -/
structure Obeys (dep : Deployment) (R : Regime) (cond : Pool.Cond Instr World Choice Input)
    (Inv : World → List Know → Prop) : Prop where
  same : ∀ {w w' gs}, w.Same w' → Inv w gs → Inv w' gs
  balance : ∀ {w gs} h, Inv w gs → R.balance (w.tokens h)
  expiry : ∀ {w gs} h, Inv w gs → R.expiry h (w.expiresAt h)
  spawn : ∀ {w gs} slot, Inv w gs → ∃ g : Know, g.phase = .idle ∧ g.slot = slot ∧ Inv w (gs ++ [g])
  land : ∀ {w gs} {t : ℕ} {g : Know}, Inv w gs → gs[t]? = some g →
    Inv w (gs.set t { g with phase := .idle, slot := none })
  clock : ∀ {w gs} {t : ℕ} {g : Know} edge ch, Inv w gs → gs[t]? = some g → cond.instr (.clock edge) ch w →
    R.reading ch.value ∧ Inv w (gs.set t { g with lo := max g.lo ch.value })
  loadCur : ∀ {w gs} {t : ℕ} {g : Know} c, Inv w gs → gs[t]? = some g →
    Inv w (gs.set t { g with seen := w.cur c :: g.seen })
  newHeld : ∀ {w gs} {t : ℕ} {g : Know} c win parentWin, Inv w gs → gs[t]? = some g → g.Begun c win →
    Inv (w.record (.create ⟨c, w.fresh, win, parentWin⟩ w.time))
      (gs.set t { g with seen := ⟨c, w.fresh, win, parentWin⟩ :: g.seen })
  casCur : ∀ {w gs} {t : ℕ} {g : Know} c new, Inv w gs → gs[t]? = some g → new ∈ g.seen →
    Inv { w with cur := Function.update w.cur c new } gs
  storeTokens : ∀ {w gs} h b, Inv w gs → R.balance b → Inv (w.setTokens h (min b 0)) gs
  take : ∀ {w gs} {t : ℕ} {g : Know} h cost now exp ch, Inv w gs → gs[t]? = some g →
    cond.instr (.casTokens h (w.tokens h) (w.tokens h - cost) (.take cost now exp)) ch w →
    0 ≤ w.tokens h - cost → 0 < cost → R.Takeable g h now exp →
    Inv ((w.setTokens h (w.tokens h - cost)).record (.take h cost now w.time))
      (gs.set t { g with taken := h :: g.taken })
  expire : ∀ {w gs} h, Inv w gs → 0 < w.tokens h → Inv (w.setTokens h 0) gs
  adjust : ∀ {w gs} {t : ℕ} {g : Know} h new delta, Inv w gs → gs[t]? = some g → R.charge delta →
    (delta < 0 → h ∈ g.taken ∧ new = w.tokens h - delta) → (0 < delta → new ≤ w.tokens h) → delta ≠ 0 →
    Inv ((w.setTokens h new).record (.adjust h (new - w.tokens h))) gs
  storeExpiry : ∀ {w gs} {t : ℕ} {g : Know} h exp r resp lo ch, Inv w gs → gs[t]? = some g →
    cond.instr (.storeExpiry h exp) ch w → g.phase = .answered r resp lo → g.Bankable h exp →
    (∀ t' g', gs[t']? = some g' → g'.Flying h.c → t' = t) →
    Inv { w with expiresAt := Function.update w.expiresAt h exp }
      (gs.set t { g with phase := .armed h exp r resp })
  deposit : ∀ {w gs} {t : ℕ} {g : Know} h exp r resp, Inv w gs → gs[t]? = some g → g.phase = .armed h exp r resp →
    Inv ((w.setTokens h (w.tokens h + resp.grantedTokens)).record (.deposit h resp.grantedTokens))
      (gs.set t { g with phase := .idle })
  withdraw : ∀ {w gs} {t : ℕ} {g : Know} h, Inv w gs → gs[t]? = some g →
    Inv ((w.setTokens h 0).record (.withdraw h (w.tokens h)))
      (gs.set t { g with bag := g.bag ++ [(h, w.tokens h)] })
  send : ∀ {w gs} {t : ℕ} {g : Know} edge r, Base R w → Inv w gs → gs[t]? = some g → g.phase = .idle → R.Made r →
    Inv { w with calls := w.calls ++ [⟨edge, r⟩] } (gs.set t { g with phase := .sent w.calls.length r g.lo })
  receive : ∀ {w gs} {t : ℕ} {g : Know} call r lo i rep resp, Base R w → Inv w gs → gs[t]? = some g →
    g.phase = .sent call r lo → w.replies[i]? = some rep → rep.call = call → rep.req = r →
    rep.body = .ok resp → Inv (w.receive i r (.ok resp)) (gs.set t { g with phase := .answered r resp lo })
  refused : ∀ {w gs} {t : ℕ} {g : Know} call r lo i rep code, Inv w gs → gs[t]? = some g →
    g.phase = .sent call r lo → w.replies[i]? = some rep → rep.call = call → rep.req = r →
    rep.body = .error code → Inv (w.receive i r (.error code)) (gs.set t { g with phase := .idle })
  lost : ∀ {w gs} {t : ℕ} {g : Know} call r lo, Inv w gs → gs[t]? = some g → g.phase = .sent call r lo →
    Inv w (gs.set t { g with phase := .idle })
  post : ∀ {w gs} {t : ℕ} {g : Know} edge r, Inv w gs → gs[t]? = some g → protocolPre R (.post edge r) g →
    Inv (({ w with posts := w.posts ++ [⟨edge, r⟩] } : World).record (.post r))
      (gs.set t { g with bag := [] })
  answer : ∀ {w gs} req res, Inv w gs → Inv (w.record (.answer req res)) gs
  reserved : ∀ {w gs} {t : ℕ} {g : Know} r, Inv w gs → gs[t]? = some g →
    (∀ d ∈ r.results, Lease.Ticketed g d) → Inv { w with reservations := w.reservations ++ [(r, false)] } gs
  fitsAllow : ∀ {w} edge fuel req, cond.event (.allow edge fuel req) w → R.fits req
  fitsReserve : ∀ {w} edge fuel checks, cond.event (.reserve edge fuel checks) w →
    (∀ d < 0, R.charge d) ∧ ∀ req ∈ checks, R.fits req
  tick : ∀ {w gs} d, Inv w gs → cond.event (.tick d) w → Inv { w with time := w.time + d } gs
  settle : ∀ {w gs} i actual fuel r, Inv w gs → cond.event (.settle i actual fuel) w →
    w.reservations[i]? = some (r, false) →
    (∀ c ∈ r.costs, max actual 0 - c ≠ 0 → R.charge (max actual 0 - c)) ∧
    ∃ g : Know, g.slot = none ∧ (∀ d ∈ r.results, Lease.Ticketed g d) ∧
      Inv { w with reservations := w.reservations.set i (r, true) } (gs ++ [g])
  serve : ∀ {w gs} i c now ord, Base R w → Inv w gs → cond.event (.serve i now ord) w →
    w.calls[i]? = some c → Inv (w.serve dep i c now ord) gs
  credit : ∀ {w gs} i p now, Base R w → Inv w gs → cond.event (.credit i now) w → w.posts[i]? = some p →
    Inv { w with ledger := (returnLeases dep.env dep.cfg (dep.cn p.edge) w.ledger now p.body).2 } gs

section

variable {dep : Deployment} {R : Regime} {cond : Pool.Cond Instr World Choice Input}
  {Inv : World → List Know → Prop}

theorem Base.same {w w' : World} (h : Base R w) (hs : w.Same w') (hm : w'.made = w.made)
    (ht : w'.table ⊆ w.table) : Base R w' where
  cur := hs.cur ▸ h.cur
  made := hm ▸ h.made
  table := fun c hc => h.table c (ht hc)
  calls := hs.calls ▸ h.calls
  replies := hs.replies ▸ hs.calls ▸ h.replies
  posts := hs.posts ▸ h.posts

theorem set_getElem? {A : Type} {l : List A} {t : ℕ} {a : A} (h : l[t]? = some a) : l.set t a = l := by
  obtain ⟨ht, rfl⟩ := List.getElem?_eq_some_iff.mp h
  exact List.set_getElem_self ht

/-! Flights. -/

/-- Goroutines that keep their flights leave everything as it is. -/
theorem Single.learn {w w' : World} {gs : List Know} {t : ℕ} {g g' : Know} (h : Single w gs)
    (hg : gs[t]? = some g) (hs : g'.slot = g.slot) (hf : w'.flights = w.flights) (hn : w.fresh ≤ w'.fresh) :
    Single w' (gs.set t g') where
  flying := by
    rw [hf]
    exact forall_mem_set h.flying t (hs ▸ h.flying g (List.mem_of_getElem? hg))
  alone := by
    -- whoever is found at `t` has the slot `g` had there
    have hold : ∀ {i : ℕ} {x : Know}, (gs.set t g')[i]? = some x →
        ∃ y : Know, gs[i]? = some y ∧ x.slot = y.slot := by
      intro i x hx
      rcases getElem?_set_cases hx with ⟨rfl, rfl⟩ | ⟨-, hx⟩
      · exact ⟨g, hg, hs⟩
      · exact ⟨x, hx, rfl⟩
    intro i j x y f hx hy hxf hyf
    obtain ⟨x', hx', hxs⟩ := hold hx
    obtain ⟨y', hy', hys⟩ := hold hy
    exact h.alone hx' hy' (hxs ▸ hxf) (hys ▸ hyf)
  ids := hf ▸ h.ids
  keys := hf ▸ h.keys
  fresh f hm := lt_of_lt_of_le (h.fresh f (hf ▸ hm)) hn

theorem Single.same {w w' : World} {gs : List Know} (h : Single w gs) (hf : w'.flights = w.flights)
    (hn : w.fresh ≤ w'.fresh) : Single w' gs :=
  ⟨hf ▸ h.flying, h.alone, hf ▸ h.ids, hf ▸ h.keys, fun f hm => lt_of_lt_of_le (h.fresh f (hf ▸ hm)) hn⟩

/-- Two goroutines never run a flight for one counter. -/
theorem Single.flight_alone {w : World} {gs : List Know} {t t' : ℕ} {g g' : Know} {c : CPtr} (h : Single w gs)
    (hg : gs[t]? = some g) (hg' : gs[t']? = some g') (hc : g.Flying c) (hc' : g'.Flying c) : t' = t := by
  obtain ⟨f, hs, he, hk⟩ := hc
  obtain ⟨f', hs', he', hk'⟩ := hc'
  have hf := h.flying g (List.mem_of_getElem? hg) f hs
  have hf' := h.flying g' (List.mem_of_getElem? hg') f' hs'
  obtain rfl := h.keys f hf f' hf' (he.trans he'.symm) (hk.trans hk'.symm)
  exact h.alone hg' hg hs' hs

theorem getElem?_snoc_cases {A : Type} {l : List A} {a x : A} {t : ℕ} (h : (l ++ [a])[t]? = some x) :
    l[t]? = some x ∨ (t = l.length ∧ x = a) := by
  rcases lt_trichotomy t l.length with ht | rfl | ht
  · rw [List.getElem?_append_left ht] at h
    exact .inl h
  · rw [List.getElem?_append_right le_rfl] at h
    simp only [Nat.sub_self, List.getElem?_cons_zero, Option.some.injEq] at h
    exact .inr ⟨rfl, h.symm⟩
  · rw [List.getElem?_eq_none (by rw [List.length_append]; simpa using ht)] at h
    cases h

/-- A goroutine that runs no flight is started. -/
theorem Single.spawn {w : World} {gs : List Know} {g : Know} (h : Single w gs) (hs : g.slot = none) :
    Single w (gs ++ [g]) where
  flying := forall_mem_snoc h.flying (by simp [hs])
  alone := by
    intro i j x y f hx hy hxf hyf
    rcases getElem?_snoc_cases hx with hx | ⟨-, rfl⟩
    · rcases getElem?_snoc_cases hy with hy | ⟨-, rfl⟩
      · exact h.alone hx hy hxf hyf
      · rw [hs] at hyf
        cases hyf
    · rw [hs] at hxf
      cases hxf
  ids := h.ids
  keys := h.keys
  fresh := h.fresh

/-- A flight nobody had for the counter is started. -/
theorem Single.launch {w : World} {gs : List Know} {g : Know} {edge : ℕ} {key : String} (h : Single w gs)
    (hnone : w.findFlight edge key = none) (hs : g.slot = some ⟨w.fresh, edge, key⟩) :
    Single (w.addFlight ⟨w.fresh, edge, key⟩) (gs ++ [g]) := by
  have hnew : ∀ f ∈ w.flights, ¬(f.edge = edge ∧ f.key = key) := by
    intro f hf hk
    have := List.find?_eq_none.mp hnone f hf
    simp [hk.1, hk.2] at this
  have hid : ∀ f ∈ w.flights, f.id ≠ w.fresh := fun f hf => (h.fresh f hf).ne
  refine ⟨forall_mem_snoc (fun x hx f hf => List.mem_append_left _ (h.flying x hx f hf)) ?_, ?_, ?_, ?_, ?_⟩
  · intro f hf
    rw [hs] at hf
    cases hf
    simp [World.addFlight]
  · intro i j x y f hx hy hxf hyf
    have hold : ∀ {k : ℕ} {z : Know}, gs[k]? = some z → z.slot ≠ some ⟨w.fresh, edge, key⟩ := fun hz hzs =>
      hid _ (h.flying _ (List.mem_of_getElem? hz) _ hzs) rfl
    rcases getElem?_snoc_cases hx with hx' | ⟨hi, hxg⟩
    · rcases getElem?_snoc_cases hy with hy' | ⟨-, hyg⟩
      · exact h.alone hx' hy' hxf hyf
      · rw [hyg, hs] at hyf
        cases hyf
        exact absurd hxf (hold hx')
    · rcases getElem?_snoc_cases hy with hy' | ⟨hj, -⟩
      · rw [hxg, hs] at hxf
        cases hxf
        exact absurd hyf (hold hy')
      · rw [hi, hj]
  · refine forall_mem_snoc (fun f hf => forall_mem_snoc (h.ids f hf) fun he => absurd he (hid f hf)) ?_
    exact forall_mem_snoc (fun f hf he => absurd he.symm (hid f hf)) fun _ => rfl
  · refine forall_mem_snoc (fun f hf => forall_mem_snoc (h.keys f hf) fun he hk => ?_) ?_
    · exact absurd ⟨he, hk⟩ (hnew f hf)
    · exact forall_mem_snoc (fun f hf he hk => absurd ⟨he.symm, hk.symm⟩ (hnew f hf)) fun _ _ => rfl
  · exact forall_mem_snoc (fun f hf => (h.fresh f hf).trans (Nat.lt_succ_self _)) (Nat.lt_succ_self _)

/-- A flight lands. -/
theorem Single.land {w w' : World} {gs : List Know} {t : ℕ} {g : Know} {f : Flight} (h : Single w gs)
    (hg : gs[t]? = some g) (hs : g.slot = some f)
    (hf : w'.flights = w.flights.filter fun x => x.id ≠ f.id) (hn : w'.fresh = w.fresh) :
    Single w' (gs.set t { g with phase := .idle, slot := none }) := by
  have hsub : w'.flights ⊆ w.flights := hf ▸ List.filter_subset_self _
  have hother : ∀ {i : ℕ} {x : Know}, (gs.set t { g with phase := .idle, slot := none })[i]? = some x → ∀ f', x.slot = some f' →
      i ≠ t ∧ gs[i]? = some x := by
    intro i x hx f' hf'
    rcases getElem?_set_cases hx with ⟨-, rfl⟩ | hx
    · cases hf'
    · exact hx
  refine ⟨fun x hx f' hf' => ?_, fun hx hy hxf hyf => ?_, fun a ha b hb => h.ids a (hsub ha) b (hsub hb),
    fun a ha b hb => h.keys a (hsub ha) b (hsub hb), fun a ha => hn ▸ h.fresh a (hsub ha)⟩
  · obtain ⟨i, hi⟩ := List.getElem?_of_mem hx
    obtain ⟨hne, hgi⟩ := hother hi f' hf'
    have hmem := h.flying x (List.mem_of_getElem? hgi) f' hf'
    rw [hf]
    refine List.mem_filter.mpr ⟨hmem, decide_eq_true fun hid => hne ?_⟩
    obtain rfl := h.ids f' hmem f (h.flying g (List.mem_of_getElem? hg) f hs) hid
    exact h.alone hgi hg hf' hs
  · exact h.alone (hother hx _ hxf).2 (hother hy _ hyf).2 hxf hyf

/-- The instructions that have nothing to do with tokens. -/
def Instr.plain : Instr → Bool
  | .load _ | .store _ _ | .add _ _ | .swap _ _ | .cas _ _ _ | .loadRate _
  | .storeRate _ _ | .rand _ | .window _ _ | .windows _ | .delete _ | .deleteWindow _ | .await _
  | .attempt _ => true
  | _ => false

/-- What a plain instruction can do to the state. -/
structure Plain (w w' : World) (new : List (Proc Unit)) : Prop where
  same : w.Same w'
  made : w'.made = w.made
  table : w'.table ⊆ w.table
  flights : w'.flights = w.flights
  fresh : w.fresh ≤ w'.fresh
  new : new = []

theorem Plain.refl (w : World) : Plain w w [] := ⟨.refl w, rfl, fun _ h => h, rfl, le_rfl, rfl⟩

theorem exec_plain {i : Instr} {ch : Choice} {w w' : World} {r : i.Answer} {new : List (Proc Unit)}
    (hi : i.plain = true) (h : execInstr dep i ch w = some (r, w', new)) : Plain w w' new := by
  cases i with
  | load | loadRate | attempt => cases h; exact .refl w
  | store | add | swap | storeRate | deleteWindow =>
    cases h
    exact ⟨⟨rfl, rfl, rfl, rfl, rfl, rfl, rfl, rfl, rfl, rfl⟩, rfl, fun _ h => h, rfl, le_rfl, rfl⟩
  | cas =>
    simp only [execInstr] at h
    split at h
    · cases h
      exact ⟨⟨rfl, rfl, rfl, rfl, rfl, rfl, rfl, rfl, rfl, rfl⟩, rfl, fun _ h => h, rfl, le_rfl, rfl⟩
    · cases h; exact .refl w
  | rand | windows =>
    simp only [execInstr] at h
    split at h
    · cases h; exact .refl w
    · cases h
  | window =>
    simp only [execInstr] at h
    split at h
    · cases h; exact .refl w
    · cases h
      exact ⟨⟨rfl, rfl, rfl, rfl, rfl, rfl, rfl, rfl, rfl, rfl⟩, rfl, fun _ h => h, rfl, Nat.le_succ _, rfl⟩
  | delete =>
    cases h
    exact ⟨⟨rfl, rfl, rfl, rfl, rfl, rfl, rfl, rfl, rfl, rfl⟩, rfl, List.filter_subset_self _, rfl, le_rfl, rfl⟩
  | await =>
    simp only [execInstr] at h
    split at h
    · obtain ⟨res, -, hr⟩ := Option.map_eq_some_iff.mp h
      cases hr
      exact .refl w
    · cases h; exact .refl w
  | _ => cases hi

theorem post_plain {i : Instr} (hi : i.plain = true) (g : Know) (r : i.Answer) : protocolPost R i g r g := by
  cases i <;> first | rfl | cases hi

/-- The threads' shares and the invariant, together. -/
def Full (R : Regime) (Inv : World → List Know → Prop) (w : World) (gs : List Know) : Prop :=
  Base R w ∧ Single w gs ∧ Inv w gs

/-- Ends a step that starts no thread. -/
theorem Full.alone {w' : World} {gs : List Know} {t : ℕ} {g' : Know} {i : Instr} {g : Know} {r : i.Answer}
    (hpost : protocolPost R i g r g') (hb : Base R w') (hs : Single w' (gs.set t g'))
    (hi : Inv w' (gs.set t g')) : Pool.Next (protocol R) (Full R Inv) gs t i g r w' [] :=
  ⟨g', [], hpost, .nil, by rw [List.append_nil]; exact ⟨hb, hs, hi⟩⟩

/-- Ends a step that teaches its thread nothing. -/
theorem Full.kept {w' : World} {gs : List Know} {t : ℕ} {i : Instr} {g : Know} {r : i.Answer}
    (hg : gs[t]? = some g) (hpost : protocolPost R i g r g) (hb : Base R w') (hs : Single w' gs)
    (hi : Inv w' gs) : Pool.Next (protocol R) (Full R Inv) gs t i g r w' [] :=
  ⟨g, [], hpost, .nil, by rw [set_getElem? hg, List.append_nil]; exact ⟨hb, hs, hi⟩⟩

/-- Ends a step that starts one thread. -/
theorem Full.started {w' : World} {gs : List Know} {t : ℕ} {g gnew : Know} {i : Instr} {r : i.Answer}
    {th : Proc Unit} (hg : gs[t]? = some g) (hpost : protocolPost R i g r g)
    (hth : (protocol R).wp th (fun _ _ => True) gnew) (hb : Base R w') (hs : Single w' (gs ++ [gnew]))
    (hi : Inv w' (gs ++ [gnew])) : Pool.Next (protocol R) (Full R Inv) gs t i g r w' [th] :=
  ⟨g, [gnew], hpost, .cons hth .nil, by rw [set_getElem? hg]; exact ⟨hb, hs, hi⟩⟩

theorem exec_casTokens (ho : Obeys dep R cond Inv) {h : HPtr} {old new : ℤ} {note : Note} {ch : Choice}
    {w w' : World} {gs : List Know} {t : ℕ} {g : Know} {b : Bool} {threads : List (Proc Unit)}
    (hg : gs[t]? = some g) (hb : Base R w) (hs : Single w gs) (hi : Inv w gs)
    (hc : cond.instr (.casTokens h old new note) ch w) (hpre : protocolPre R (.casTokens h old new note) g)
    (hex : execInstr dep (.casTokens h old new note) ch w = some (b, w', threads)) :
    Pool.Next (protocol R) (Full R Inv) gs t (.casTokens h old new note) g b w' threads := by
  simp only [execInstr] at hex
  split at hex
  · rename_i hold
    subst hold
    cases hex
    cases note with
    | take cost now exp =>
      obtain ⟨rfl, h0, h1, h2⟩ := hpre
      exact Full.alone rfl ⟨hb.cur, hb.made, hb.table, hb.calls, hb.replies, hb.posts⟩
        (hs.learn hg rfl rfl le_rfl) (ho.take h cost now exp ch hi hg hc h0 h1 h2)
    | expire =>
      obtain ⟨h0, rfl⟩ := hpre
      exact Full.kept hg rfl ⟨hb.cur, hb.made, hb.table, hb.calls, hb.replies, hb.posts⟩
        (hs.same rfl le_rfl) (ho.expire h hi h0)
    | adjust delta =>
      obtain ⟨h0, h1, h2, h3⟩ := hpre
      exact Full.kept hg rfl ⟨hb.cur, hb.made, hb.table, hb.calls, hb.replies, hb.posts⟩
        (hs.same rfl le_rfl) (ho.adjust h new delta hi hg h0 h1 h2 h3)
  · cases hex
    refine Full.kept hg ?_ hb hs hi
    cases note <;> rfl

theorem exec_receive (ho : Obeys dep R cond Inv) {call : ℕ} {r : QuotaLeaseRequest} {ch : Choice}
    {w w' : World} {gs : List Know} {t : ℕ} {g : Know} {ans : Except Code QuotaLeaseResponse}
    {threads : List (Proc Unit)} (hg : gs[t]? = some g) (hb : Base R w) (hs : Single w gs) (hi : Inv w gs)
    (hpre : protocolPre R (.receive call r) g)
    (hex : execInstr dep (.receive call r) ch w = some (ans, w', threads)) :
    Pool.Next (protocol R) (Full R Inv) gs t (.receive call r) g ans w' threads := by
  obtain ⟨lo, hp⟩ := hpre
  simp only [execInstr] at hex
  split at hex
  · split at hex
    · rename_i rep hrep
      split at hex
      · rename_i hcall
        have hb' : ∀ x ∈ w.replies.eraseIdx ch.index, x.call < w.calls.length ∧ R.Made x.req :=
          fun x hx => hb.replies x (List.mem_of_mem_eraseIdx hx)
        cases hbody : rep.body with
        | error code =>
          rw [hbody] at hex
          cases hex
          exact Full.alone rfl ⟨hb.cur, hb.made, hb.table, hb.calls, hb', hb.posts⟩
            (hs.learn hg rfl rfl le_rfl)
            (ho.refused call r lo ch.index rep code hi hg hp hrep hcall.1 hcall.2 hbody)
        | ok resp =>
          rw [hbody] at hex
          cases hex
          exact Full.alone ⟨lo, hp, rfl⟩ ⟨hb.cur, hb.made, hb.table, hb.calls, hb', hb.posts⟩
            (hs.learn hg rfl rfl le_rfl)
            (ho.receive call r lo ch.index rep resp hb hi hg hp hrep hcall.1 hcall.2 hbody)
      · cases hex
    · cases hex
  · cases hex
    exact Full.alone rfl hb (hs.learn hg rfl rfl le_rfl) (ho.lost call r lo hi hg hp)

/-- One instruction of a goroutine keeps an obedient invariant. -/
theorem Obeys.execOk (ho : Obeys dep R cond Inv) :
    Pool.ExecOk (sem dep) cond (protocol R) (Full R Inv) := by
  intro i ch w gs t g r w' new hg hinv hc hpre hex
  obtain ⟨hb, hs, hi⟩ := hinv
  change execInstr dep i ch w = some (r, w', new) at hex
  by_cases hp : i.plain = true
  · obtain ⟨hsame, hm, ht, hfl, hfr, rfl⟩ := exec_plain hp hex
    exact Full.kept hg (post_plain hp g r) (hb.same hsame hm ht) (hs.same hfl hfr) (ho.same hsame hi)
  cases i with
  | loadTokens h =>
    cases hex
    exact Full.kept hg ⟨ho.balance h hi, rfl⟩ hb hs hi
  | storeTokens h v =>
    obtain ⟨b, hbal, rfl⟩ := hpre
    cases hex
    exact Full.kept hg rfl ⟨hb.cur, hb.made, hb.table, hb.calls, hb.replies, hb.posts⟩
      (hs.same rfl le_rfl) (ho.storeTokens h b hi hbal)
  | addTokens h n =>
    obtain ⟨exp, r, resp, hph, rfl⟩ := hpre
    cases hex
    exact Full.alone rfl ⟨hb.cur, hb.made, hb.table, hb.calls, hb.replies, hb.posts⟩
      (hs.learn hg rfl rfl le_rfl) (ho.deposit h exp r resp hi hg hph)
  | swapTokens h =>
    cases hex
    exact Full.alone ⟨ho.balance h hi, rfl⟩ ⟨hb.cur, hb.made, hb.table, hb.calls, hb.replies, hb.posts⟩
      (hs.learn hg rfl rfl le_rfl) (ho.withdraw h hi hg)
  | casTokens h old new note => exact exec_casTokens ho hg hb hs hi hc hpre hex
  | storeExpiry h exp =>
    obtain ⟨r, resp, lo, hph, hfly, hrest⟩ := id hpre
    cases hex
    refine Full.alone ⟨r, resp, lo, hph, rfl⟩ ⟨hb.cur, hb.made, hb.table, hb.calls, hb.replies, hb.posts⟩
      (hs.learn hg rfl rfl le_rfl) (ho.storeExpiry h exp r resp lo ch hi hg hc hph hpre ?_)
    exact fun t' g' hg' hfly' => hs.flight_alone hg hg' hfly hfly'
  | loadCur c =>
    cases hex
    exact Full.alone ⟨hb.cur c, rfl⟩ hb (hs.learn hg rfl rfl le_rfl) (ho.loadCur c hi hg)
  | casCur c old new =>
    simp only [execInstr] at hex
    split at hex
    · cases hex
      refine Full.kept hg rfl ⟨fun c' => ?_, hb.made, hb.table, hb.calls, hb.replies, hb.posts⟩
        (hs.same rfl le_rfl) (ho.casCur c new hi hg hpre.2)
      by_cases h : c' = c
      · subst h
        simpa using hpre.1
      · simpa [h] using hb.cur c'
    · cases hex
      exact Full.kept hg rfl hb hs hi
  | newHeld c win parentWin =>
    cases hex
    refine Full.alone ⟨rfl, rfl, rfl⟩ ⟨hb.cur, hb.made, hb.table, hb.calls, hb.replies, hb.posts⟩
      (hs.learn hg rfl rfl (Nat.le_succ _)) ?_
    refine ho.same ?_ (ho.newHeld c win parentWin hi hg hpre)
    exact ⟨rfl, rfl, rfl, rfl, rfl, rfl, rfl, rfl, rfl, rfl⟩
  | clock edge =>
    cases hex
    obtain ⟨hr, hi'⟩ := ho.clock edge ch hi hg hc
    exact Full.alone ⟨hr, rfl⟩ hb (hs.learn hg rfl rfl le_rfl) hi'
  | loadExpiry h =>
    cases hex
    exact Full.kept hg ⟨ho.expiry h hi, rfl⟩ hb hs hi
  | counter edge leaseSize req =>
    simp only [execInstr] at hex
    split at hex
    · rename_i c hc
      have hk := List.find?_some hc
      simp only [Bool.and_eq_true, decide_eq_true_eq] at hk
      have hfit := hb.table c (List.mem_of_find?_eq_some hc)
      cases hex
      exact Full.kept hg ⟨hfit, hk.2, rfl⟩ hb hs hi
    · cases hex
      have hfit : R.fits req.identity := R.fits_identity req hpre
      refine Full.kept hg ⟨hfit, rfl, rfl⟩
        ⟨hb.cur, forall_mem_snoc hb.made hfit, forall_mem_snoc hb.table hfit, hb.calls, hb.replies, hb.posts⟩
        (hs.same rfl (Nat.le_succ _)) ?_
      refine ho.same ?_ hi
      exact ⟨rfl, rfl, rfl, rfl, rfl, rfl, rfl, rfl, rfl, rfl⟩
  | counters edge =>
    simp only [execInstr] at hex
    split at hex
    · rename_i hv
      cases hex
      exact Full.kept hg ⟨fun c hc => hb.made c (hv.1 c hc).1, rfl⟩ hb hs hi
    · cases hex
  | doChan c req =>
    simp only [execInstr] at hex
    split at hex
    · cases hex
      exact Full.kept hg rfl hb hs hi
    · rename_i hnone
      cases hex
      obtain ⟨gnew, hidle, hslot, hnew⟩ := ho.spawn (some ⟨w.fresh, c.edge, c.key⟩) hi
      refine Full.started hg rfl (Lease.wp_flight hpre hidle hslot)
        ⟨hb.cur, hb.made, hb.table, hb.calls, hb.replies, hb.posts⟩ (hs.launch hnone hslot) ?_
      refine ho.same ?_ hnew
      exact ⟨rfl, rfl, rfl, rfl, rfl, rfl, rfl, rfl, rfl, rfl⟩
  | goRenew c req =>
    cases hex
    obtain ⟨gnew, -, hslot, hnew⟩ := ho.spawn none hi
    exact Full.started hg rfl (Lease.wp_renewal hpre) hb (hs.spawn hslot) hnew
  | land id c res =>
    cases hex
    obtain ⟨f, hf, rfl⟩ := hpre
    refine Full.alone rfl ⟨hb.cur, hb.made, hb.table, hb.calls, hb.replies, hb.posts⟩ (hs.land hg hf rfl rfl) ?_
    refine ho.same ?_ (ho.land hi hg)
    exact ⟨rfl, rfl, rfl, rfl, rfl, rfl, rfl, rfl, rfl, rfl⟩
  | send edge r =>
    cases hex
    refine Full.alone rfl ⟨hb.cur, hb.made, hb.table, forall_mem_snoc hb.calls hpre.2, ?_, hb.posts⟩
      (hs.learn hg rfl rfl le_rfl) (ho.send edge r hb hi hg hpre.1 hpre.2)
    intro x hx
    obtain ⟨hlt, hm⟩ := hb.replies x hx
    exact ⟨by rw [List.length_append]; omega, hm⟩
  | receive call r => exact exec_receive ho hg hb hs hi hpre hex
  | post edge r =>
    cases hex
    obtain ⟨hd, l, -, hl, hf⟩ := id hpre
    refine Full.alone rfl
      ⟨hb.cur, hb.made, hb.table, hb.calls, hb.replies, forall_mem_snoc hb.posts ⟨hd, fun x hx => ?_⟩⟩
      (hs.learn hg rfl rfl le_rfl) (ho.post edge r hi hg hpre)
    rw [hl] at hx
    obtain ⟨y, hy, rfl⟩ := List.mem_map.mp hx
    exact ⟨y.1, y.2, hf y hy, rfl⟩
  | answered req res =>
    cases hex
    exact Full.kept hg rfl ⟨hb.cur, hb.made, hb.table, hb.calls, hb.replies, hb.posts⟩
      (hs.same rfl le_rfl) (ho.answer req res hi)
  | reserved r =>
    cases hex
    exact Full.kept hg rfl ⟨hb.cur, hb.made, hb.table, hb.calls, hb.replies, hb.posts⟩
      (hs.same rfl le_rfl) (ho.reserved r hi hg hpre)
  | _ => exact absurd rfl hp

theorem Base.serve {w : World} (hb : Base R w) {i : ℕ} {c : Call} (hc : w.calls[i]? = some c) (now : ℤ)
    (ord : RangeOrder) : Base R (w.serve dep i c now ord) := by
  have hlt : i < w.calls.length := (List.getElem?_eq_some_iff.mp hc).1
  have hr : ∀ body, ∀ x ∈ w.replies ++ [⟨i, c.body, body, now⟩], x.call < w.calls.length ∧ R.Made x.req :=
    fun body => forall_mem_snoc hb.replies ⟨hlt, hb.calls c (List.mem_of_getElem? hc)⟩
  unfold World.serve
  dsimp only
  split
  · exact ⟨hb.cur, hb.made, hb.table, hb.calls, hr _, hb.posts⟩
  · exact ⟨hb.cur, hb.made, hb.table, hb.calls, hr _, hb.posts⟩

theorem Single.serve {w : World} {gs : List Know} (hs : Single w gs) {i : ℕ} (c : Call) (now : ℤ)
    (ord : RangeOrder) : Single (w.serve dep i c now ord) gs := by
  unfold World.serve
  dsimp only
  split
  · exact hs.same rfl le_rfl
  · exact hs.same rfl le_rfl

/-- An outside event keeps an obedient invariant. -/
theorem Obeys.extOk (ho : Obeys dep R cond Inv) : Pool.ExtOk (sem dep) cond (protocol R) (Full R Inv) := by
  intro e w gs w' new hinv hc hex
  obtain ⟨hb, hs, hi⟩ := hinv
  change execInput dep e w = some (w', new) at hex
  have started : ∀ {th : Proc Unit}, (∀ g : Know, g.phase = .idle → (protocol R).wp th (fun _ _ => True) g) →
      ∃ gnew, Pool.Covers (protocol R) [th] gnew ∧ Full R Inv w (gs ++ gnew) := by
    intro th hth
    obtain ⟨g, hidle, hslot, hg⟩ := ho.spawn none hi
    exact ⟨[g], .cons (hth g hidle) .nil, hb, hs.spawn hslot, hg⟩
  cases e with
  | tick d =>
    cases hex
    refine ⟨[], .nil, ⟨hb.cur, hb.made, hb.table, hb.calls, hb.replies, hb.posts⟩, ?_⟩
    rw [List.append_nil]
    exact ⟨hs.same rfl le_rfl, ho.tick d hi hc⟩
  | allow edge fuel req =>
    cases hex
    exact started fun g _ => wp_allowThread dep edge fuel (ho.fitsAllow edge fuel req hc)
  | reserve edge fuel checks =>
    cases hex
    obtain ⟨hrefund, hfits⟩ := ho.fitsReserve edge fuel checks hc
    exact started fun g _ => wp_reserveThread dep edge fuel hrefund hfits
  | sweep edge cutoff => cases hex; exact started fun g _ => Lease.wp_sweep _ _ edge cutoff
  | drain edge => cases hex; exact started fun g _ => Lease.wp_drain _ _ edge
  | sweepLocal edge cutoff => cases hex; exact started fun g _ => Local.wp_sweep edge cutoff
  | settle i actual fuel =>
    simp only [execInput, World.settle] at hex
    split at hex
    · rename_i r hr
      split at hex
      · cases hex
        obtain ⟨hcharge, g, hslot, ht, hg⟩ := ho.settle i actual fuel r hi hc hr
        refine ⟨[g], .cons ?_ .nil, ⟨hb.cur, hb.made, hb.table, hb.calls, hb.replies, hb.posts⟩,
          (hs.spawn hslot).same rfl le_rfl, hg⟩
        exact (moves_settle fuel actual r.results r.costs hcharge).wp ht fun _ _ _ _ => trivial
      · cases hex
    · cases hex
  | serve i now ord =>
    obtain ⟨c, hcall, hw⟩ := Option.map_eq_some_iff.mp hex
    cases hw
    refine ⟨[], .nil, hb.serve hcall now ord, ?_⟩
    rw [List.append_nil]
    exact ⟨hs.serve c now ord, ho.serve i c now ord hb hi hc hcall⟩
  | credit i now =>
    obtain ⟨p, hpost, hw⟩ := Option.map_eq_some_iff.mp hex
    cases hw
    refine ⟨[], .nil, ⟨hb.cur, hb.made, hb.table, hb.calls, hb.replies, hb.posts⟩, ?_⟩
    rw [List.append_nil]
    exact ⟨hs.same rfl le_rfl, ho.credit i p now hb hi hc hpost⟩

theorem base_init (R : Regime) (time : ℤ) (m : Mem) : Base R (World.init time m) where
  cur _ := rfl
  made := by simp [World.init]
  table := by simp [World.init]
  calls := by simp [World.init]
  replies := by simp [World.init]
  posts := by simp [World.init]

theorem single_init (time : ℤ) (m : Mem) : Single (World.init time m) [] where
  flying := by simp
  alone := by simp
  ids := by simp [World.init]
  keys := by simp [World.init]
  fresh := by simp [World.init]

/-- An obedient invariant that holds at the start holds in every run. -/
theorem Obeys.run (ho : Obeys dep R cond Inv) {time : ℤ} {m : Mem} (h0 : Inv (World.init time m) [])
    {acts : List EdgeAct} {p : Edges}
    (ha : Along (Edges.step dep) (Pool.Meets cond) (Edges.init time m) acts)
    (hr : runAll (Edges.step dep) (Edges.init time m) acts = some p) :
    ∃ gs, Base R p.shared ∧ Inv p.shared gs := by
  have h : Pool.Holds (protocol R) (Full R Inv) (Edges.init time m) := ⟨[], .nil, base_init R time m, single_init time m, h0⟩
  obtain ⟨gs, -, hb, -, hi⟩ := Pool.holds_run ho.execOk ho.extOk h ha hr
  exact ⟨gs, hb, hi⟩

end

end Gate
