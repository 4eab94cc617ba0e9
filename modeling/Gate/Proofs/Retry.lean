import Gate.Spec.Retry

/-! Retries are bounded and move. What `pick` gives is described once, over the circular scan; a turn of
the loop is described by what it adds to the attempts, the picks and the counts of requests in flight;
the loop follows by induction on the attempts that may still come. -/

namespace Gate

open Types

variable {n : ℕ}

namespace UpstreamPool

variable {p : UpstreamPool n} {now : ℤ}

/-! The scan. -/

/-- The scan visits every replica. -/
theorem mem_scan (start : ℕ) (t : Fin n) : t ∈ scan n start := by
  have hn : 0 < n := t.pos
  refine List.mem_map.mpr ⟨⟨(t + (n - start % n)) % n, Nat.mod_lt _ hn⟩, List.mem_finRange _, ?_⟩
  apply Fin.ext
  have hlt : start % n < n := Nat.mod_lt _ hn
  have hsum : start % n + (t + (n - start % n)) = t + n := by omega
  calc (start + (t + (n - start % n)) % n) % n
      = (start % n + (t + (n - start % n))) % n := by rw [Nat.add_mod_mod, ← Nat.mod_add_mod]
    _ = (t : ℕ) := by rw [hsum, Nat.add_mod_right, Nat.mod_eq_of_lt t.isLt]

/-- What the loop has found so far: a replica that is not skipped. -/
def Found (p : UpstreamPool n) (now : ℤ) (avoid : Option (Fin n)) (best : Option (Fin n)) : Prop :=
  ∀ b, best = some b → p.skips now avoid b = false

/-- `t` may be picked, and in least-requests mode is no busier than `u`. -/
def Beats (p : UpstreamPool n) (now : ℤ) (avoid : Option (Fin n)) (t u : Fin n) : Prop :=
  p.skips now avoid t = false ∧ (p.balance = leastRequests → p.inflight t ≤ p.inflight u)

variable {avoid : Option (Fin n)}

theorem pickFrom_cons (t : Fin n) (rest : List (Fin n)) (best : Option (Fin n)) :
    p.pickFrom now avoid (t :: rest) best =
      if p.skips now avoid t then p.pickFrom now avoid rest best
      else if p.balance ≠ leastRequests then some t
      else p.pickFrom now avoid rest (some (best.elim t fun b => if p.inflight t < p.inflight b then t else b)) := by
  cases best <;> rw [pickFrom] <;> rfl

/-- What the loop has found is beaten by the result. -/
theorem pickFrom_best (l : List (Fin n)) {b : Fin n} (hb : p.skips now avoid b = false) :
    ∃ t, p.pickFrom now avoid l (some b) = some t ∧ p.Beats now avoid t b := by
  induction l generalizing b with
  | nil => exact ⟨b, rfl, hb, fun _ => le_rfl⟩
  | cons u rest ih =>
    rw [pickFrom_cons, Option.elim_some]
    split_ifs with hskip hbal hless
    · exact ih hb
    · exact ⟨u, rfl, by simpa using hskip, fun h => absurd h hbal⟩
    · obtain ⟨t, ht, hbeats⟩ := ih (b := u) (by simpa using hskip)
      exact ⟨t, ht, hbeats.1, fun h => (hbeats.2 h).trans hless.le⟩
    · exact ih hb

/-- A replica that is not skipped is beaten by the result. -/
theorem pickFrom_mem (l : List (Fin n)) {best : Option (Fin n)} (hbest : p.Found now avoid best) {u : Fin n} (hu : u ∈ l)
    (hfree : p.skips now avoid u = false) : ∃ t, p.pickFrom now avoid l best = some t ∧ p.Beats now avoid t u := by
  induction l generalizing best with
  | nil => cases hu
  | cons v rest ih =>
    rw [pickFrom_cons]
    split_ifs with hskip hbal
    · have hne : u ≠ v := by
        rintro rfl
        rw [hfree] at hskip
        cases hskip
      exact ih hbest ((List.mem_cons.mp hu).resolve_left hne)
    · exact ⟨v, rfl, by simpa using hskip, fun h => absurd h hbal⟩
    · have hv : p.skips now avoid v = false := by simpa using hskip
      obtain ⟨b, hb, hfound, hle⟩ : ∃ b, best.elim v (fun b => if p.inflight v < p.inflight b then v else b) = b ∧
          p.skips now avoid b = false ∧ p.inflight b ≤ p.inflight v := by
        cases best with
        | none => exact ⟨v, rfl, hv, le_rfl⟩
        | some b =>
          rw [Option.elim_some]
          split_ifs with hless
          · exact ⟨v, rfl, hv, le_rfl⟩
          · exact ⟨b, rfl, hbest b rfl, not_lt.mp hless⟩
      rw [hb]
      rcases List.mem_cons.mp hu with rfl | hin
      · obtain ⟨t, ht, hbeats⟩ := pickFrom_best rest hfound
        exact ⟨t, ht, hbeats.1, fun h => (hbeats.2 h).trans hle⟩
      · exact ih (fun b' hb' => Option.some.inj hb' ▸ hfound) hin

/-- With every replica skipped only the previous one is left. -/
theorem pickFrom_none (l : List (Fin n)) (hall : ∀ u ∈ l, p.skips now avoid u = true) :
    p.pickFrom now avoid l none = avoid.filter fun a => !p.ejected now a := by
  induction l with
  | nil => rfl
  | cons v rest ih =>
    rw [pickFrom_cons, if_pos (hall v List.mem_cons_self)]
    exact ih fun u hu => hall u (List.mem_cons_of_mem v hu)

theorem not_ejected_of_skips {t : Fin n} (h : p.skips now avoid t = false) : p.ejected now t = false := by
  simp only [skips, Bool.or_eq_false_iff] at h
  exact h.1

/-- A replica other than the previous one is skipped only if it is ejected. -/
theorem skips_of_ne {a t : Fin n} (h : t ≠ a) : p.skips now (some a) t = p.ejected now t := by
  simp [skips, h]

theorem pick_moves (p : UpstreamPool n) (now : ℤ) (a : Fin n) : Repick.Moves ⟨p, now, a, (p.pick now (some a)).1⟩ := by
  have hnone : p.Found now (some a) none := fun b hb => by cases hb
  have hscan : ∀ u, p.skips now (some a) u = false → ∃ t, (p.pick now (some a)).1 = some t ∧ p.Beats now (some a) t u :=
    fun u hu => pickFrom_mem _ hnone (mem_scan _ u) hu
  by_cases hfree : ∃ u, p.skips now (some a) u = false
  · obtain ⟨u, hu⟩ := hfree
    obtain ⟨t, ht, hbeats⟩ := hscan u hu
    rw [Repick.Moves, ht]
    refine ⟨not_ejected_of_skips hbeats.1, fun v hv hev => ?_⟩
    -- two replicas differ, so the previous one is skipped
    have hone : 1 < n := by
      have := Fin.val_ne_of_ne hv
      have := v.isLt
      have := a.isLt
      omega
    obtain ⟨t', ht', hbeats'⟩ := hscan v ((skips_of_ne hv).trans hev)
    obtain rfl : t = t' := Option.some.inj (ht.symm.trans ht')
    refine ⟨?_, hbeats'.2⟩
    rintro rfl
    have := hbeats.1
    simp [skips, hone] at this
  · have hall : ∀ u, p.skips now (some a) u = true := fun u => by
      by_contra h
      exact hfree ⟨u, by simpa using h⟩
    have hres : (p.pick now (some a)).1 = (some a).filter fun a => !p.ejected now a := pickFrom_none _ fun u _ => hall u
    have hothers : ∀ u, u ≠ a → p.ejected now u = true := fun u hu => (skips_of_ne hu).symm.trans (hall u)
    rw [Repick.Moves, hres]
    cases ha : p.ejected now a with
    | true =>
      simp only [Option.filter, ha]
      intro t
      by_cases hta : t = a
      · exact hta ▸ ha
      · exact hothers t hta
    | false =>
      simp only [Option.filter, ha, Bool.not_false, if_true]
      refine ⟨trivial, fun u hu hev => ?_⟩
      rw [hothers u hu] at hev
      cases hev

/-! Requests in flight. -/

@[simp] theorem inflight_pick (p : UpstreamPool n) (now : ℤ) (avoid : Option (Fin n)) : (p.pick now avoid).2.inflight = p.inflight := rfl

@[simp] theorem inflight_report (p : UpstreamPool n) (t : Fin n) (ok : Bool) (now : ℤ) : (p.report t ok now).inflight = p.inflight := by
  funext u
  rw [report]
  cases p.breaker with
  | none => rfl
  | some b =>
    by_cases hu : u = t
    · subst hu
      simp only
      split_ifs <;> simp [inflight, setTarget]
    · simp only
      split_ifs <;> simp [inflight, setTarget, hu]

@[simp] theorem inflight_addInflight (p : UpstreamPool n) (t : Fin n) (d : ℤ) :
    (p.addInflight t d).inflight = Function.update p.inflight t (p.inflight t + d) := by
  funext u
  by_cases hu : u = t
  · subst hu
    simp [inflight, addInflight, setTarget]
  · simp [inflight, addInflight, setTarget, hu]

end UpstreamPool

/-! A turn of the loop. -/

/-- The replica that the end of a turn leaves busy. -/
def TurnEnd.busy : TurnEnd n → Option (Fin n)
  | .response _ busy => busy
  | .fails _ | .retries _ => none

/-- One request in flight for the busy replica. -/
def oneFor (busy : Option (Fin n)) (u : Fin n) : ℤ := if busy = some u then 1 else 0

@[simp] theorem oneFor_none (u : Fin n) : oneFor none u = 0 := rfl

/-- What an attempt does: nothing, if its body cannot be read again; else it is sent to the target,
whose count ends as it was unless a body keeps it busy. -/
structure Attempted (s : TripState n) (i : ℕ) (s' : TripState n) (e : TurnEnd n) : Prop where
  picks : s'.picks = s.picks
  target : s'.target = s.target
  inflight : ∀ u, s'.pool.inflight u = s.pool.inflight u + oneFor e.busy u
  sent : (s'.attempts = s.attempts ∧ 0 < i ∧ ∃ err, e = .fails err) ∨ (s'.attempts = s.attempts ++ [s.target] ∧ ∀ err, e ≠ .fails err)
  closed : e ≠ .fails .circuitOpen ∧ e ≠ .retries .circuitOpen

theorem newAttempt_error {req : UpstreamRequest} {i : ℕ} {o : AttemptOracle} {e : RetryError} (h : newAttempt req i o = .error e) :
    0 < i ∧ e ≠ .circuitOpen := by
  rw [newAttempt] at h
  split_ifs at h with hi
  cases hb : o.getBody with
  | none => simp [hb] at h
  | some msg =>
    rw [hb] at h
    obtain rfl : RetryError.getBody msg = e := Except.error.inj h
    exact ⟨hi.1, by simp⟩

section

variable {p : UpstreamFailurePolicy} {req : UpstreamRequest}

theorem attempt_spec (s : TripState n) (p : UpstreamFailurePolicy) (req : UpstreamRequest) (i : ℕ) (o : AttemptOracle) :
    Attempted s i (s.attempt p req i o).1 (s.attempt p req i o).2 := by
  rw [TripState.attempt]
  split
  case h_1 e he =>
    obtain ⟨hi, hne⟩ := newAttempt_error he
    exact ⟨rfl, rfl, fun u => by simp [TurnEnd.busy], .inl ⟨rfl, hi, e, rfl⟩, fun h => hne (TurnEnd.fails.inj h), by simp⟩
  case h_2 =>
    split
    case h_1 e he => exact ⟨rfl, rfl, fun u => by simp [TurnEnd.busy], .inr ⟨rfl, by simp⟩, by simp⟩
    case h_2 code hcode =>
      split_ifs
      · exact ⟨rfl, rfl, fun u => by simp [TurnEnd.busy], .inr ⟨rfl, by simp⟩, by simp⟩
      · exact ⟨rfl, rfl, fun u => by simp [TurnEnd.busy], .inr ⟨rfl, by simp⟩, by simp⟩
      · refine ⟨rfl, rfl, fun u => ?_, .inr ⟨rfl, by simp⟩, by simp⟩
        by_cases hu : u = s.target
        · subst hu
          simp [oneFor, TurnEnd.busy]
        · simp [oneFor, TurnEnd.busy, hu, Ne.symm hu]

/-! The trail of attempts and picks. -/

/-- The first attempt goes to the first target, every other one where the pick before it says. -/
structure Trail (target₀ : Fin n) (attempts : List (Fin n)) (picks : List (Repick n)) : Prop where
  first : attempts.head? = some target₀
  linked : ∀ k t, attempts[k + 1]? = some t → ∃ r, picks[k]? = some r ∧ r.picked = some t ∧ attempts[k]? = some r.previous
  moves : ∀ r ∈ picks, r.Moves

/-- Before attempt `i`, which is a retry. -/
structure Under (target₀ : Fin n) (pool₀ : UpstreamPool n) (i : ℕ) (s : TripState n) : Prop where
  trail : Trail target₀ s.attempts s.picks
  count : s.attempts.length = i
  picks : s.picks.length + 1 = i
  last : s.attempts[i - 1]? = some s.target
  closed : ∀ r ∈ s.picks, r.picked ≠ none
  inflight : ∀ u, s.pool.inflight u = pool₀.inflight u

/-- After the turn of attempt `i`. -/
structure AfterTurn (target₀ : Fin n) (pool₀ : UpstreamPool n) (i : ℕ) (s : TripState n) (e : TurnEnd n) : Prop where
  trail : Trail target₀ s.attempts s.picks
  count : s.attempts.length ≤ i + 1
  inflight : ∀ u, s.pool.inflight u = pool₀.inflight u + oneFor e.busy u
  opens : e = .fails .circuitOpen ↔ ∃ r ∈ s.picks, r.picked = none
  again : ∀ err, e = .retries err → err ≠ .circuitOpen ∧ Under target₀ pool₀ (i + 1) s

theorem first_turn (pool : UpstreamPool n) (target : Fin n) (o : AttemptOracle) :
    AfterTurn target pool 0 (TripState.turn ⟨pool, target, [], []⟩ p req 0 o).1 (TripState.turn ⟨pool, target, [], []⟩ p req 0 o).2 := by
  rw [TripState.turn, if_pos rfl]
  obtain ⟨hpicks, htarget, hinflight, hsent, hclosed⟩ := attempt_spec ⟨pool, target, [], []⟩ p req 0 o
  obtain ⟨hattempts, -⟩ := hsent.resolve_left fun h => absurd h.2.1 (lt_irrefl 0)
  have htrail : Trail target (TripState.attempt ⟨pool, target, [], []⟩ p req 0 o).1.attempts
      (TripState.attempt ⟨pool, target, [], []⟩ p req 0 o).1.picks := by
    rw [hattempts, hpicks]
    exact ⟨rfl, fun k t h => by simp at h, fun r hr => by cases hr⟩
  refine ⟨htrail, by simp [hattempts], hinflight, ?_, fun err he =>
    ⟨fun h => hclosed.2 (h ▸ he), htrail, by simp [hattempts], by simp [hpicks], ?_, ?_, ?_⟩⟩
  · simp [hclosed.1, hpicks]
  · simp [hattempts, htarget]
  · simp [hpicks]
  · intro u
    rw [hinflight, he]
    simp [TurnEnd.busy]

theorem Trail.retry {target₀ : Fin n} {attempts : List (Fin n)} {picks : List (Repick n)} (h : Trail target₀ attempts picks)
    (hcount : picks.length + 1 = attempts.length) {r : Repick n} (hr : r.Moves) (hlast : attempts[attempts.length - 1]? = some r.previous)
    {t : Fin n} (ht : r.picked = some t) : Trail target₀ (attempts ++ [t]) (picks ++ [r]) where
  first := by
    rw [List.head?_append, h.first]
    rfl
  linked := by
    intro k u hu
    rcases lt_trichotomy (k + 1) attempts.length with hlt | heq | hgt
    · rw [List.getElem?_append_left hlt] at hu
      obtain ⟨r', hr', hpicked, hprev⟩ := h.linked k u hu
      refine ⟨r', ?_, hpicked, ?_⟩
      · rwa [List.getElem?_append_left (List.getElem?_eq_some_iff.mp hr').1]
      · rwa [List.getElem?_append_left (by omega)]
    · obtain rfl : t = u := by
        rw [heq, List.getElem?_append_right le_rfl] at hu
        simpa using hu
      obtain rfl : k = picks.length := by omega
      refine ⟨r, by simp, ht, ?_⟩
      rw [List.getElem?_append_left (by omega)]
      rwa [← heq, Nat.add_sub_cancel] at hlast
    · rw [List.getElem?_eq_none (by simp; omega)] at hu
      cases hu
  moves := by
    intro r' hr'
    rcases List.mem_append.mp hr' with hr' | hr'
    · exact h.moves r' hr'
    · exact List.mem_singleton.mp hr' ▸ hr

/-- A pick that is not followed by an attempt leaves the trail as it was. -/
theorem Trail.picked {target₀ : Fin n} {attempts : List (Fin n)} {picks : List (Repick n)} (h : Trail target₀ attempts picks)
    {r : Repick n} (hr : r.Moves) : Trail target₀ attempts (picks ++ [r]) where
  first := h.first
  linked := by
    intro k u hu
    obtain ⟨r', hr', hpicked, hprev⟩ := h.linked k u hu
    exact ⟨r', by rwa [List.getElem?_append_left (List.getElem?_eq_some_iff.mp hr').1], hpicked, hprev⟩
  moves := by
    intro r' hr'
    rcases List.mem_append.mp hr' with hr' | hr'
    · exact h.moves r' hr'
    · exact List.mem_singleton.mp hr' ▸ hr

theorem retry_turn {target₀ : Fin n} {pool₀ : UpstreamPool n} {i : ℕ} {s : TripState n} (h : Under target₀ pool₀ i s) (o : AttemptOracle) :
    AfterTurn target₀ pool₀ i (s.turn p req i o).1 (s.turn p req i o).2 := by
  have hi : 0 < i := by
    have := h.picks
    omega
  have hcount := h.count
  have hpicks := h.picks
  rw [TripState.turn, if_neg hi.ne']
  have hmoves := s.pool.pick_moves o.pickNow s.target
  cases hpick : (s.pool.pick o.pickNow (some s.target)).1 with
  | none =>
    rw [hpick] at hmoves
    simp only [hpick]
    exact ⟨h.trail.picked hmoves, by simp [hcount], fun u => by simp [TurnEnd.busy, h.inflight], by simp, fun err he => by cases he⟩
  | some t =>
    rw [hpick] at hmoves
    simp only [hpick]
    set r : Repick n := ⟨s.pool, o.pickNow, s.target, some t⟩ with hr
    set s₁ : TripState n := ⟨(s.pool.pick o.pickNow (some s.target)).2, t, s.attempts, s.picks ++ [r]⟩ with hs₁
    obtain ⟨hpk, htarget, hinflight, hsent, hclosed⟩ := attempt_spec s₁ p req i o
    have hlast : s.attempts[s.attempts.length - 1]? = some r.previous := by
      rw [hcount]
      exact h.last
    have hopen : ∀ r' ∈ s.picks ++ [r], r'.picked ≠ none := by
      intro r' hr'
      rcases List.mem_append.mp hr' with hr' | hr'
      · exact h.closed r' hr'
      · rw [List.mem_singleton.mp hr', hr]
        simp
    have hflight : ∀ u, (s₁.attempt p req i o).1.pool.inflight u = pool₀.inflight u + oneFor (s₁.attempt p req i o).2.busy u := by
      intro u
      rw [hinflight, ← h.inflight u]
      rfl
    have hopens : (s₁.attempt p req i o).2 = .fails .circuitOpen ↔ ∃ r' ∈ (s₁.attempt p req i o).1.picks, r'.picked = none := by
      rw [hpk]
      exact ⟨fun he => absurd he hclosed.1, fun ⟨r', hr', hnone⟩ => absurd hnone (hopen r' hr')⟩
    rcases hsent with ⟨hattempts, -, err, hfails⟩ | ⟨hattempts, hnot⟩
    · refine ⟨?_, ?_, hflight, hopens, fun err' he => ?_⟩
      · rw [hattempts, hpk]
        exact h.trail.picked hmoves
      · rw [hattempts]
        exact hcount.le.trans (Nat.le_succ i)
      · rw [hfails] at he
        cases he
    · have htrail : Trail target₀ (s₁.attempt p req i o).1.attempts (s₁.attempt p req i o).1.picks := by
        rw [hattempts, hpk]
        exact h.trail.retry (by omega) hmoves hlast rfl
      have hlen : (s₁.attempt p req i o).1.attempts.length = i + 1 := by
        rw [hattempts, List.length_append, List.length_singleton, ← hcount]
      refine ⟨htrail, hlen.le, hflight, hopens, fun err he =>
        ⟨fun h => hclosed.2 (h ▸ he), htrail, hlen, ?_, ?_, ?_, ?_⟩⟩
      · rw [hpk, List.length_append, List.length_singleton, hpicks]
      · rw [hattempts, htarget, Nat.add_sub_cancel, ← hcount]
        exact List.getElem?_concat_length
      · rw [hpk]
        exact hopen
      · intro u
        rw [hflight, he]
        simp [TurnEnd.busy]

/-! The loop. -/

/-- A trip that has returned, with at most `bound` attempts. -/
structure Trip.Fine (target₀ : Fin n) (pool₀ : UpstreamPool n) (bound : ℕ) (trip : Trip n) : Prop where
  trail : Trail target₀ trip.attempts trip.picks
  count : trip.attempts.length ≤ bound
  inflight : ∀ u, trip.pool.inflight u = pool₀.inflight u + oneFor (trip.body.map ClosingBody.target) u
  opens : trip.result = .error .circuitOpen ↔ ∃ r ∈ trip.picks, r.picked = none
  fresh : ∀ b, trip.body = some b → b.closed = false

theorem AfterTurn.finish {target₀ : Fin n} {pool₀ : UpstreamPool n} {i bound : ℕ} {s : TripState n} {e : TurnEnd n}
    (h : AfterTurn target₀ pool₀ i s e) (hbound : i + 1 ≤ bound) {result : Except RetryError ℤ}
    (hresult : result = .error .circuitOpen ↔ e = .fails .circuitOpen) : (s.finish result e.busy).Fine target₀ pool₀ bound where
  trail := h.trail
  count := h.count.trans hbound
  inflight u := by
    have hbusy : ((s.finish result e.busy).body.map ClosingBody.target) = e.busy := by simp [TripState.finish, Function.comp_def]
    rw [hbusy]
    exact h.inflight u
  opens := hresult.trans h.opens
  fresh b hb := by
    obtain ⟨t, -, rfl⟩ := Option.map_eq_some_iff.mp hb
    rfl

/-- By induction on the attempts to come: each turn either ends the trip or comes before a retry. -/
theorem fine_tripLoop {target₀ : Fin n} {pool₀ : UpstreamPool n} (oracle : ℕ → AttemptOracle) (more i : ℕ) (s : TripState n)
    (h : AfterTurn target₀ pool₀ i (s.turn p req i (oracle i)).1 (s.turn p req i (oracle i)).2) :
    (tripLoop p req oracle more i s).Fine target₀ pool₀ (i + 1 + more) := by
  induction more generalizing i s with
  | zero =>
    rw [tripLoop]
    generalize s.turn p req i (oracle i) = after at h ⊢
    obtain ⟨s', e⟩ := after
    cases e with
    | response code busy => exact h.finish le_rfl (by simp)
    | fails err => exact h.finish le_rfl (by simp)
    | retries err => exact h.finish le_rfl (by simp [(h.again err rfl).1])
  | succ more ih =>
    rw [tripLoop]
    generalize s.turn p req i (oracle i) = after at h ⊢
    obtain ⟨s', e⟩ := after
    cases e with
    | response code busy => exact h.finish (by omega) (by simp)
    | fails err => exact h.finish (by omega) (by simp)
    | retries err =>
      simp only
      split_ifs
      · have hfine := ih (i + 1) s' (retry_turn (h.again err rfl).2 _)
        rwa [show i + 1 + 1 + more = i + 1 + (more + 1) by omega] at hfine
      · exact h.finish (by omega) (by simp)

end

/-! Closing the body. -/

theorem Trip.close_pool {trip : Trip n} {b : ClosingBody n} (hb : trip.body = some b) (hopen : b.closed = false) :
    trip.close.pool = trip.pool.addInflight b.target (-1) ∧ trip.close.body = some ⟨b.target, true⟩ := by
  rw [Trip.close, hb]
  simp [hopen]

/-- Once there is nothing to close, closing changes nothing. -/
theorem Trip.close_idle {trip : Trip n} (h : ∀ b, trip.body = some b → b.closed = true) : trip.close = trip := by
  rw [Trip.close]
  split
  case h_1 b hb => rw [if_pos (h b hb)]
  case h_2 => rfl

theorem Trip.close_iterate {trip : Trip n} (h : ∀ b, trip.body = some b → b.closed = true) (k : ℕ) : Trip.close^[k] trip = trip := by
  induction k with
  | zero => rfl
  | succ k ih => rw [Function.iterate_succ_apply, Trip.close_idle h, ih]

theorem Trip.Fine.close {target₀ : Fin n} {pool₀ : UpstreamPool n} {bound : ℕ} {trip : Trip n} (h : trip.Fine target₀ pool₀ bound)
    (k : ℕ) (u : Fin n) : (Trip.close^[k + 1] trip).pool.inflight u = pool₀.inflight u := by
  rw [Function.iterate_succ_apply]
  cases hb : trip.body with
  | none =>
    have hidle : ∀ b, trip.body = some b → b.closed = true := by simp [hb]
    rw [Trip.close_idle hidle, Trip.close_iterate hidle, h.inflight, hb]
    simp
  | some b =>
    obtain ⟨hpool, hbody⟩ := Trip.close_pool hb (h.fresh b hb)
    have hidle : ∀ b', trip.close.body = some b' → b'.closed = true := by
      intro b' hb'
      rw [← Option.some.inj (hbody.symm.trans hb')]
    rw [Trip.close_iterate hidle, hpool, UpstreamPool.inflight_addInflight]
    have hbefore := h.inflight u
    rw [hb] at hbefore
    by_cases hu : u = b.target
    · subst hu
      rw [Function.update_self, hbefore]
      simp [oneFor]
    · rw [Function.update_of_ne hu, hbefore]
      simp [oneFor, Ne.symm hu]

theorem effective_maxRetries (fc : FailureConfig) : (fc.effectiveUpstreamPolicy.maxRetries.toNat : ℤ) = max fc.upstream.maxRetries 0 := by
  simp only [FailureConfig.effectiveUpstreamPolicy]
  split_ifs <;> omega

end Gate
