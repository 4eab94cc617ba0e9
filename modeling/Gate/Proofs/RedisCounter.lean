import Gate.Proofs.Redis
import Gate.Spec.RedisCounter

/-! The central limiter is exact: its counter is what was admitted in the window, as long as the key
does not expire between two scripts of the window. -/

namespace Gate.RedisCounter

variable {key : String} {r : Redis} {calls : List Call} {log : List (Call × Decision)} {c : Call}

/-- The counter of the key holds what was admitted, past the last of the calls. -/
def Tracks (calls : List Call) (key : String) (r : Redis) (used : ℤ) : Prop :=
  (r.strs key = none ∧ used = 0) ∨
    ∃ e, r.strs key = some ⟨used, some e⟩ ∧ ∀ c ∈ calls, c.key = key → c.now < e

/-- No script of the key runs as late as the counter that another one made is kept. -/
def InTime (calls : List Call) (key : String) : Prop :=
  ∀ c ∈ calls, ∀ c' ∈ calls, c.key = key → c'.key = key → c'.now < c.now + 2 * milliseconds c.window

theorem find_of_tracks {used : ℤ} (h : Tracks calls c.key r used) (hc : c ∈ calls) :
    (r.find c.now c.key = none ∧ used = 0) ∨
      ∃ e, r.find c.now c.key = some ⟨used, some e⟩ ∧ ∀ c' ∈ calls, c'.key = c.key → c'.now < e := by
  rcases h with ⟨hnone, rfl⟩ | ⟨e, hsome, hlive⟩
  · exact .inl ⟨by rw [Redis.find, hnone, Option.filter_none], rfl⟩
  · refine .inr ⟨e, ?_, hlive⟩
    rw [Redis.find, hsome]
    exact Option.filter_some_pos (decide_eq_true (hlive c hc rfl))

/-- `INCRBY`, and `PEXPIRE` when the counter was at zero. -/
theorem counted {used : ℤ} (hin : InTime calls c.key) (h : Tracks calls c.key r used) (hc : c ∈ calls) :
    (r.incrBy c.now c.key c.cost).1 = used + c.cost ∧
    ∃ e, (∀ c' ∈ calls, c'.key = c.key → c'.now < e) ∧
      (if used + c.cost = c.cost then ((r.incrBy c.now c.key c.cost).2).pexpire c.now c.key (2 * milliseconds c.window)
        else (r.incrBy c.now c.key c.cost).2) = r.put c.key ⟨used + c.cost, some e⟩ := by
  have hget : (r.get c.now c.key).getD 0 = used := by
    rcases find_of_tracks h hc with ⟨hnone, rfl⟩ | ⟨e, hsome, -⟩
    · rw [Redis.get, hnone]
      rfl
    · rw [Redis.get, hsome]
      rfl
  refine ⟨by rw [Redis.incrBy_fst, hget], ?_⟩
  split_ifs with hzero
  · refine ⟨c.now + 2 * milliseconds c.window, fun c' hc' hk => hin c hc c' hc' rfl hk, ?_⟩
    rw [Redis.incrBy_pexpire, hget]
  · rcases find_of_tracks h hc with ⟨-, rfl⟩ | ⟨e, hsome, hlive⟩
    · exact absurd (zero_add _) hzero
    · refine ⟨e, hlive, ?_⟩
      rw [Redis.incrBy, hsome]

/-- A script admits the cost if it fits, and takes it back otherwise. -/
theorem allow_exact {used : ℤ} (hin : InTime calls c.key) (h : Tracks calls c.key r used) (hc : c ∈ calls) :
    ((allow r c).1.allowed = true ↔ used + c.cost ≤ c.req.limit) ∧
      ∃ used', used' = used + (if (allow r c).1.allowed then c.cost else 0) ∧
        (allow r c).1.remaining = max 0 (c.req.limit - used') ∧ Tracks calls c.key (allow r c).2 used' := by
  obtain ⟨hused, e, hlive, hput⟩ := counted hin h hc
  have hnow : c.now < e := hlive c hc rfl
  have hlua : counterLua r c.now c.key c.cost c.req.limit (2 * milliseconds c.window) =
      if c.req.limit < used + c.cost then ((false, used + c.cost - c.cost), r.put c.key ⟨used, some e⟩)
      else ((true, used + c.cost), r.put c.key ⟨used + c.cost, some e⟩) := by
    have hfound : (r.put c.key ⟨used + c.cost, some e⟩).find c.now c.key = some ⟨used + c.cost, some e⟩ :=
      Redis.find_put_self (decide_eq_true hnow)
    have hback : (((r.put c.key ⟨used + c.cost, some e⟩).incrBy c.now c.key (-c.cost)).2) = r.put c.key ⟨used, some e⟩ := by
      rw [Redis.incrBy, hfound]
      dsimp only
      rw [Redis.put_put, add_neg_cancel_right]
    unfold counterLua
    simp only [hused, hput, hback]
  unfold allow
  rw [hlua]
  by_cases hfits : c.req.limit < used + c.cost
  · rw [if_pos hfits, add_sub_cancel_right]
    exact ⟨⟨fun hf => absurd hf Bool.false_ne_true, fun hle => absurd hfits (not_lt.mpr hle)⟩, used, (add_zero _).symm, rfl,
      .inr ⟨e, Redis.strs_put_self _ _ _, hlive⟩⟩
  · rw [if_neg hfits]
    exact ⟨⟨fun _ => not_lt.mp hfits, fun _ => rfl⟩, _, rfl, rfl, .inr ⟨e, Redis.strs_put_self _ _ _, hlive⟩⟩

/-- A script of another key leaves the counter alone. -/
theorem tracks_of_ne {used : ℤ} (h : Tracks calls key r used) (hne : c.key ≠ key) : Tracks calls key (allow r c).2 used := by
  have hincr : ∀ (r : Redis) d, (r.incrBy c.now c.key d).2.strs key = r.strs key := by
    intro r d
    unfold Redis.incrBy
    cases r.find c.now c.key with
    | none => exact Redis.strs_put_of_ne hne.symm _
    | some s => exact Redis.strs_put_of_ne hne.symm _
  have hpexpire : ∀ (r : Redis) ttl, (r.pexpire c.now c.key ttl).strs key = r.strs key := by
    intro r ttl
    unfold Redis.pexpire
    cases r.find c.now c.key with
    | none => rfl
    | some s => exact Redis.strs_put_of_ne hne.symm _
  have hsame : (allow r c).2.strs key = r.strs key := by
    unfold allow counterLua
    dsimp only
    split_ifs <;> simp only [hincr, hpexpire]
  unfold Tracks
  rw [hsame]
  exact h

theorem admitted_snoc (x : Call × Decision) :
    admitted key (log ++ [x]) = admitted key log + if x.1.key = key ∧ x.2.allowed then x.1.cost else 0 := by
  simp [admitted]

/-- What a run does to the counter, from any point of it on. -/
theorem run_exact (hin : InTime calls key) (cs : List Call) (hcs : ∀ c ∈ cs, c ∈ calls) (r : Redis) (log : List (Call × Decision))
    (h : Tracks calls key r (admitted key log)) (i : ℕ) (c : Call) (d : Decision) (hget : (run r cs)[i]? = some (c, d))
    (hkey : c.key = key) :
    (d.allowed = true ↔ admitted key (log ++ (run r cs).take i) + c.cost ≤ c.req.limit) ∧
      d.remaining = max 0 (c.req.limit - admitted key (log ++ (run r cs).take (i + 1))) := by
  induction cs generalizing r log i with
  | nil => exact absurd hget (by simp [run])
  | cons x cs ih =>
    have hx := hcs x List.mem_cons_self
    have hnext : Tracks calls key (allow r x).2 (admitted key (log ++ [(x, (allow r x).1)])) := by
      rw [admitted_snoc]
      by_cases hk : x.key = key
      · subst hk
        obtain ⟨-, used', hused, -, htracks⟩ := allow_exact hin h hx
        simpa [hused] using htracks
      · simpa [hk] using tracks_of_ne h hk
    cases i with
    | zero =>
      obtain ⟨rfl, rfl⟩ : x = c ∧ (allow r x).1 = d := by simpa [run] using hget
      subst hkey
      obtain ⟨hiff, used', hused, hremaining, -⟩ := allow_exact hin h hx
      simp only [run, List.take_zero, List.append_nil, List.take_succ_cons, admitted_snoc]
      refine ⟨hiff, ?_⟩
      rw [hremaining, hused]
      simp
    | succ i =>
      have hrest := ih (fun c hc => hcs c (List.mem_cons_of_mem _ hc)) (allow r x).2 (log ++ [(x, (allow r x).1)]) hnext i hget
      simpa [run, List.append_assoc] using hrest

theorem mem_of_run {i : ℕ} {d : Decision} (h : (run r calls)[i]? = some (c, d)) : c ∈ calls := by
  induction calls generalizing r i with
  | nil => exact absurd h (by simp [run])
  | cons x calls ih =>
    cases i with
    | zero =>
      obtain ⟨rfl, -⟩ : x = c ∧ (allow r x).1 = d := by simpa [run] using h
      exact List.mem_cons_self
    | succ i => exact List.mem_cons_of_mem _ (ih h)

/-- Every decision is the one that the cost admitted so far in the window calls for, so no more than the
limit is ever admitted. -/
theorem central_counter_exact (calls : List Call) (key : String) (hin : InTime calls key) (limit : ℤ) (hpos : 0 ≤ limit)
    (hlimit : ∀ c ∈ calls, c.key = key → c.req.limit ≤ limit) :
    (∀ i c d, (run .new calls)[i]? = some (c, d) → c.key = key →
      (d.allowed = true ↔ admitted key ((run .new calls).take i) + c.cost ≤ c.req.limit) ∧
        d.remaining = max 0 (c.req.limit - admitted key ((run .new calls).take (i + 1)))) ∧
      ∀ i, admitted key ((run .new calls).take i) ≤ limit := by
  have hexact := run_exact hin calls (fun _ h => h) .new [] (.inl ⟨rfl, rfl⟩)
  simp only [List.nil_append] at hexact
  refine ⟨hexact, fun i => ?_⟩
  induction i with
  | zero => exact hpos
  | succ i ih =>
    rw [List.take_add_one]
    cases hget : (run .new calls)[i]? with
    | none => simpa using ih
    | some x =>
      obtain ⟨c, d⟩ := x
      rw [Option.toList_some, admitted_snoc]
      split_ifs with hx
      · have hfits := ((hexact i c d hget hx.1).1.mp hx.2)
        exact hfits.trans (hlimit c (mem_of_run hget) hx.1)
      · simpa using ih

namespace Sample

def sixty : Request := ⟨"v1", "orders", "", "k", "free", "", 100, 60, 60 * second, .fixedWindow, 0, false, 0⟩

/-- Two requests that cost 60 of 100, a second apart. -/
def sixties : List Call := [⟨sixty, 1000, 1000⟩, ⟨sixty, 2000, 2000⟩]

end Sample

theorem central_counter_exact_sixties :
    (run .new Sample.sixties).map (fun x => (x.2.allowed, x.2.remaining)) = [(true, 40), (false, 40)] ∧
      ∀ i, admitted (Call.key ⟨Sample.sixty, 1000, 1000⟩) ((run .new Sample.sixties).take i) ≤ 100 := by
  have hin : InTime Sample.sixties (Call.key ⟨Sample.sixty, 1000, 1000⟩) := by
    unfold InTime
    decide +kernel
  exact ⟨by decide +kernel, (central_counter_exact Sample.sixties _ hin 100 (by decide) (by decide +kernel)).2⟩

end Gate.RedisCounter
