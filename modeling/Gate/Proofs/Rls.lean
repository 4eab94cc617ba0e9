import Gate.Lib.Alone
import Gate.Proofs.Loads
import Gate.Spec.Rls

/-! The descriptor that a denial reports. `Reserve` leaves every enforced check marked as denying,
so the response reports the first one with the least share of its limit left. -/

namespace Gate

open Conc

/-! The reservation of a denied request. -/

theorem within_rollback (fuel : ℕ) :
    ∀ (ds : List Decision) (cs : List ℤ), ds.length ≤ cs.length →
      (rollback fuel ds cs).Within (fun _ => True) fun ds' => ds'.length = ds.length ∧ ∀ d ∈ ds', d.allowed = false := by
  intro ds
  induction ds with
  | nil =>
    intro cs _
    exact ⟨rfl, fun _ hd => absurd hd List.not_mem_nil⟩
  | cons d ds ih =>
    intro cs hlen
    cases cs with
    | nil => exact absurd hlen (by simp)
    | cons c cs =>
      have hrest := ih cs (Nat.le_of_succ_le_succ hlen)
      have hadd : ∀ {d' : Decision}, d'.allowed = false → ∀ ds' : List Decision,
          (ds'.length = ds.length ∧ ∀ d ∈ ds', d.allowed = false) →
            (d' :: ds').length = (d :: ds).length ∧ ∀ x ∈ d' :: ds', x.allowed = false := by
        intro d' hd' ds' h
        exact ⟨by simp [h.1], List.forall_mem_cons.mpr ⟨hd', h.2⟩⟩
      unfold rollback
      split_ifs with hallowed
      · simp only [Prog.within_bind, Prog.within_pure]
        refine (Prog.within_true _).mono fun _ _ => hrest.mono (hadd rfl)
      · simp only [Prog.within_bind, Prog.within_pure]
        exact hrest.mono (hadd (by simpa using hallowed))

/-- A reservation without an error that is not allowed: one check denied, and no result counts as
allowed any more. -/
structure Reservation.Denied (checks : List Request) (r : Reservation) : Prop where
  denier : ∃ b : ℕ, r.bindingIndex = b ∧ b < checks.length
  length : r.results.length = checks.length
  refused : ∀ d ∈ r.results, d.allowed = false

theorem Reservation.pad_denied {checks done rest : List Request} {req : Request} {r : Reservation} {ds : List Decision} {d : Decision}
    (hchecks : checks = done ++ req :: rest) (hlen : ds.length = done.length) (hds : ∀ x ∈ ds, x.allowed = false)
    (hd : d.allowed = false) (hr : r.results = ds ++ [d]) (hb : r.bindingIndex = done.length) : (r.pad checks).Denied checks := by
  refine ⟨⟨done.length, hb, by simp [hchecks]⟩, ?_, ?_⟩
  · simp [Reservation.pad, hr, hchecks, hlen]
    omega
  · intro x hx
    simp only [Reservation.pad, hr, List.mem_append, List.mem_singleton, List.mem_replicate] at hx
    rcases hx with (hx | rfl) | ⟨-, rfl⟩
    · exact hds x hx
    · exact hd
    · rfl

theorem within_reserveFrom (allow : Request → Proc (Except LimitErr Decision)) (fuel : ℕ) (checks : List Request) :
    ∀ (rest done : List Request) (r : Reservation), checks = done ++ rest → r.results.length = done.length →
      r.costs.length = done.length →
      (reserveFrom allow fuel checks rest r).Within (fun _ => True) fun x =>
        x.2 = none → x.1.allowed = false → x.1.Denied checks := by
  intro rest
  induction rest with
  | nil =>
    intro done r _ _ _
    unfold reserveFrom
    simp only [Prog.within_pure]
    intro _ h
    cases h
  | cons req rest ih =>
    intro done r hchecks hres hcosts
    have hchecks' : checks = (done ++ [req]) ++ rest := by rw [hchecks]; simp
    have hback := within_rollback fuel r.results r.costs (by omega)
    unfold reserveFrom
    simp only [Prog.within_bind]
    refine (Prog.within_true _).mono fun a _ => ?_
    cases a with
    | error e =>
      dsimp only
      split_ifs with hshadow
      · exact ih (done ++ [req]) _ hchecks' (by simp [hres]) (by simp [hcosts])
      · simp only [Prog.within_bind, Prog.within_pure]
        refine hback.mono fun _ _ h => ?_
        cases h
    | ok d =>
      dsimp only
      split_ifs with hallowed hshadow
      · exact ih (done ++ [req]) _ hchecks' (by simp [hres]) (by simp [hcosts])
      · exact ih (done ++ [req]) _ hchecks' (by simp [hres]) (by simp [hcosts])
      · simp only [Prog.within_bind, Prog.within_pure]
        refine hback.mono fun ds hds _ _ => ?_
        exact Reservation.pad_denied hchecks (hds.1.trans hres) hds.2 (by simpa using hallowed) rfl (by simp [hres])

theorem within_reserve (allow : Request → Proc (Except LimitErr Decision)) (fuel : ℕ) (checks : List Request) :
    (reserve allow fuel checks).Within (fun _ => True) fun x => x.2 = none → x.1.allowed = false → x.1.Denied checks :=
  within_reserveFrom allow fuel checks checks [] Reservation.start rfl rfl rfl

namespace Decide

/-! The statuses. -/

/-- A status that does not count as allowed, if its limit is enforced. -/
def Status.Refused (st : Status) : Prop := st.matched = true → st.shadow = false → st.allowed = false

/-- The checks are of the statuses that the index says. -/
def Aligned (index : List ℕ) (checks : List Request) (sts : List Status) : Prop :=
  ∀ x ∈ index.zip checks, ∀ st, sts[x.1]? = some st → st.shadow = x.2.shadow

theorem mem_modify {α : Type} {l : List α} {i : ℕ} {f : α → α} {x : α} (h : x ∈ l.modify i f) :
    x ∈ l ∨ ∃ y, l[i]? = some y ∧ x = f y := by
  obtain ⟨j, hj⟩ := List.mem_iff_getElem?.mp h
  rw [List.getElem?_modify] at hj
  split_ifs at hj with hij
  · obtain ⟨y, hy, rfl⟩ := Option.map_eq_some_iff.mp hj
    exact .inr ⟨y, hij ▸ hy, rfl⟩
  · exact .inl (List.mem_iff_getElem?.mpr ⟨j, by simpa using hj⟩)

theorem Aligned.modify {index : List ℕ} {checks : List Request} {sts : List Status} (h : Aligned index checks sts) (i : ℕ)
    {f : Status → Status} (hf : ∀ st, (f st).shadow = st.shadow) : Aligned index checks (sts.modify i f) := by
  intro x hx st hst
  rw [List.getElem?_modify] at hst
  split_ifs at hst with hi
  · obtain ⟨st₀, hst₀, rfl⟩ := Option.map_eq_some_iff.mp hst
    exact (hf st₀).trans (h x hx st₀ hst₀)
  · exact h x hx st (by simpa using hst)

theorem refused_modify {sts : List Status} (h : ∀ st ∈ sts, st.Refused) (i : ℕ) {f : Status → Status}
    (hf : ∀ st, sts[i]? = some st → st.Refused → (f st).Refused) : ∀ st ∈ sts.modify i f, st.Refused := by
  intro st hst
  rcases mem_modify hst with hst | ⟨st₀, hst₀, rfl⟩
  · exact h st hst
  · exact hf st₀ hst₀ (h st₀ (List.mem_of_getElem? hst₀))

/-- No result counts as allowed, so no enforced status does. -/
theorem within_report (edge : ℕ) :
    ∀ (index : List ℕ) (checks : List Request) (results : List Decision) (sts : List Status),
      (∀ r ∈ results, r.allowed = false) → Aligned index checks sts → (∀ st ∈ sts, st.Refused) →
      (report edge index checks results sts).Within (fun _ => True) fun sts' =>
        sts'.length = sts.length ∧ ∀ st ∈ sts', st.Refused := by
  intro index
  induction index with
  | nil =>
    intro checks results sts _ _ h
    exact ⟨rfl, h⟩
  | cons i index ih =>
    intro checks results sts hresults halign h
    match checks, results with
    | [], _ => exact ⟨rfl, h⟩
    | _ :: _, [] => exact ⟨rfl, h⟩
    | req :: checks, r :: results =>
      unfold report
      simp only [Prog.within_bind]
      refine (Prog.within_true _).mono fun resetIn _ => ?_
      obtain ⟨hr, hresults⟩ := List.forall_mem_cons.mp hresults
      have hnext := ih checks results (sts.modify i fun st =>
          { st with allowed := r.allowed || req.shadow, limit := r.limit, remaining := r.remaining, window := r.window,
                    resetIn := resetIn }) hresults
        (Aligned.modify (fun x hx => halign x (List.mem_cons_of_mem _ hx)) i fun _ => rfl)
        (refused_modify h i fun st hst _ _ hshadow => ?_)
      · exact hnext.mono fun sts' h' => ⟨by rw [h'.1, List.length_modify], h'.2⟩
      · have : st.shadow = req.shadow := halign (i, req) List.mem_cons_self st hst
        simp only at hshadow
        simp [hr, ← this, hshadow]

theorem markShadow_kept {index : List ℕ} {sts : List Status} (h : ∀ st ∈ sts, st.Refused) (j : ℕ) :
    (markShadow index sts j).length = sts.length ∧ ∀ st ∈ markShadow index sts j, st.Refused := by
  unfold markShadow
  split
  · exact ⟨List.length_modify _ _ _, refused_modify h _ fun _ _ hst => hst⟩
  · exact ⟨rfl, h⟩

theorem foldl_markShadow (index : List ℕ) (js : List ℕ) :
    ∀ {sts : List Status}, (∀ st ∈ sts, st.Refused) →
      (js.foldl (markShadow index) sts).length = sts.length ∧ ∀ st ∈ js.foldl (markShadow index) sts, st.Refused := by
  induction js with
  | nil =>
    intro sts h
    exact ⟨rfl, h⟩
  | cons j js ih =>
    intro sts h
    obtain ⟨hlen, hst⟩ := markShadow_kept h j
    obtain ⟨hlen', hst'⟩ := ih hst
    exact ⟨hlen'.trans hlen, hst'⟩

section Index

variable (digest : String → String) (cfg : GatewayConfig) (domain : String)

/-- Each check with the descriptor it is of. -/
def indexed (descs : List Descriptor) : List (ℕ × Request) :=
  descs.zipIdx.filterMap fun x => (resolve digest cfg domain x.1.entries).map fun m => (x.2, checkOf domain x.1 m)

theorem index_eq (descs : List Descriptor) : index digest cfg domain descs = (indexed digest cfg domain descs).map Prod.fst := by
  unfold index indexed
  rw [List.map_filterMap]
  simp only [Option.map_map, Function.comp_def]

theorem checks_eq (descs : List Descriptor) : checks digest cfg domain descs = (indexed digest cfg domain descs).map Prod.snd := by
  unfold checks indexed
  rw [List.map_filterMap]
  conv_lhs => rw [← List.zipIdx_map_fst 0 descs, List.filterMap_map]
  simp only [Option.map_map, Function.comp_def]

theorem index_lt {descs : List Descriptor} {i : ℕ} (h : i ∈ index digest cfg domain descs) : i < descs.length := by
  obtain ⟨x, hx, hi⟩ := List.mem_filterMap.mp h
  obtain ⟨m, -, rfl⟩ := Option.map_eq_some_iff.mp hi
  have := List.mem_zipIdx' (x := x.1) (i := x.2) hx
  omega

theorem aligned_start (descs : List Descriptor) :
    Aligned (index digest cfg domain descs) (checks digest cfg domain descs)
      (descs.map fun d => .start (resolve digest cfg domain d.entries)) := by
  intro x hx st hst
  rw [index_eq, checks_eq, List.zip_map'] at hx
  obtain ⟨y, hy, rfl⟩ := List.mem_map.mp hx
  obtain ⟨⟨desc, i⟩, hmem, hmatch⟩ := List.mem_filterMap.mp hy
  obtain ⟨m, hm, rfl⟩ := Option.map_eq_some_iff.mp hmatch
  have hdesc : descs[i]? = some desc := List.mem_zipIdx_iff_getElem?.mp hmem
  rw [List.getElem?_map, hdesc] at hst
  cases hst
  dsimp only at hm ⊢
  rw [hm]
  rfl

theorem refused_start (descs : List Descriptor) :
    ∀ st ∈ descs.map fun d => Status.start (resolve digest cfg domain d.entries), st.Refused := by
  intro st hst
  obtain ⟨d, -, rfl⟩ := List.mem_map.mp hst
  cases resolve digest cfg domain d.entries with
  | none => exact fun h => nomatch h
  | some m => exact fun _ _ => rfl

/-- An outcome that denies: a descriptor is to blame, and no enforced status counts as allowed. -/
structure Outcome.Denied (out : Outcome) : Prop where
  denier : ∃ i, out.denier = some i ∧ i < out.statuses.length
  refused : ∀ st ∈ out.statuses, st.Refused

theorem within_check (allow : Request → Proc (Except LimitErr Decision)) (fuel edge : ℕ) (nonce : String) (descs : List Descriptor)
    (reserve : Bool) :
    (check digest cfg domain allow fuel edge nonce descs reserve).Within (fun _ => True) fun x =>
      ∀ out, x = .ok out → out.allowed = false → out.Denied := by
  unfold check
  simp only [Prog.within_bind]
  refine (within_reserve allow fuel _).mono fun x hx => ?_
  obtain ⟨res, err⟩ := x
  cases err with
  | some e =>
    simp only [Prog.within_pure]
    intro _ h
    cases h
  | none =>
    by_cases hallowed : res.allowed
    · -- what is allowed is not denied
      simp only [hallowed, Prog.within_bind]
      refine (Prog.within_true _).mono fun sts _ => ?_
      simp only [Bool.not_true, Bool.false_eq_true, false_and, if_false, Prog.within_ite, Prog.within_bind, Prog.within_pure]
      split_ifs
      · refine (Prog.within_true _).mono fun token _ out h => ?_
        cases h
        exact fun h => absurd h (by simp)
      · intro out h
        cases h
        exact fun h => absurd h (by simp)
    · have hdenied := hx rfl (by simpa using hallowed)
      obtain ⟨b, hb, hlt⟩ : ∃ b : ℕ, res.bindingIndex = b ∧ b < (checks digest cfg domain descs).length := hdenied.denier
      simp only [Prog.within_bind]
      refine (within_report edge _ _ res.results _ hdenied.refused (aligned_start digest cfg domain descs)
        (refused_start digest cfg domain descs)).mono fun sts hsts => ?_
      rw [if_pos ⟨by simpa using hallowed, by omega⟩]
      simp only [Prog.within_bind, Prog.within_pure]
      refine (Prog.within_true _).mono fun now _ out h => ?_
      cases h
      intro _
      obtain ⟨hlen, hrefused⟩ := foldl_markShadow (index digest cfg domain descs) res.shadowDenied hsts.2
      have hin : b < (index digest cfg domain descs).length := by
        rw [index_eq, List.length_map]
        rw [checks_eq, List.length_map] at hlt
        exact hlt
      have hget : (index digest cfg domain descs)[res.bindingIndex.toNat]? = some (index digest cfg domain descs)[b] := by
        rw [hb, Int.toNat_natCast, List.getElem?_eq_getElem hin]
      have hbound := index_lt digest cfg domain (List.getElem_mem hin)
      refine ⟨⟨_, hget, ?_⟩, ?_⟩
      · dsimp only
        rw [hget]
        dsimp only
        rw [List.length_modify, hlen, hsts.1, List.length_map]
        exact hbound
      · dsimp only
        rw [hget]
        exact refused_modify hrefused _ fun _ _ _ _ _ => rfl

end Index

end Decide

namespace Rls

open Decide

/-- A status that the loop looks at. -/
def Enforced (st : Status) : Prop := st.matched = true ∧ st.shadow = false

/-- The `i`-th status is the first of the enforced ones with the least share of its limit left. -/
structure Binds (sts : List Status) (i : ℕ) (st : Status) : Prop where
  at_ : sts[i]? = some st
  enforced : Enforced st
  before : ∀ (j : ℕ) s, sts[j]? = some s → Enforced s → j < i → share st < share s
  least : ∀ (j : ℕ) s, sts[j]? = some s → Enforced s → share st ≤ share s

theorem Binds.unique {sts : List Status} {i j : ℕ} {st st' : Status} (h : Binds sts i st) (h' : Binds sts j st') : st = st' := by
  rcases lt_trichotomy i j with hlt | rfl | hlt
  · exact absurd (h'.before i st h.at_ h.enforced hlt) (not_lt.mpr (h.least j st' h'.at_ h'.enforced))
  · exact Option.some.inj (h.at_.symm.trans h'.at_)
  · exact absurd (h.before j st' h'.at_ h'.enforced hlt) (not_lt.mpr (h'.least i st h.at_ h.enforced))

theorem getElem?_snoc {α : Type} {l : List α} {a x : α} {j : ℕ} (h : (l ++ [a])[j]? = some x) :
    (j < l.length ∧ l[j]? = some x) ∨ (j = l.length ∧ x = a) := by
  rcases lt_trichotomy j l.length with hlt | rfl | hlt
  · rw [List.getElem?_append_left hlt] at h
    exact .inl ⟨hlt, h⟩
  · rw [List.getElem?_concat_length] at h
    exact .inr ⟨rfl, (Option.some.inj h).symm⟩
  · rw [List.getElem?_eq_none (by simp; omega)] at h
    cases h

/-- A status that is not picked: it is not enforced, or has no less left. -/
theorem Binds.snoc {sts : List Status} {i : ℕ} {b st : Status} (h : Binds sts i b) (hst : Enforced st → share b ≤ share st) :
    Binds (sts ++ [st]) i b := by
  have hlt : i < sts.length := (List.getElem?_eq_some_iff.mp h.at_).1
  refine ⟨?_, h.enforced, fun j s hj hs hji => ?_, fun j s hj hs => ?_⟩
  · rw [List.getElem?_append_left hlt]
    exact h.at_
  · rcases getElem?_snoc hj with ⟨-, hj⟩ | ⟨rfl, -⟩
    · exact h.before j s hj hs hji
    · omega
  · rcases getElem?_snoc hj with ⟨-, hj⟩ | ⟨-, rfl⟩
    · exact h.least j s hj hs
    · exact hst hs

/-- A status that is picked. -/
theorem binds_snoc {sts : List Status} {st : Status} (hst : Enforced st) (h : ∀ s ∈ sts, Enforced s → share st < share s) :
    Binds (sts ++ [st]) sts.length st := by
  refine ⟨List.getElem?_concat_length, hst, fun j s hj hs hlt => ?_, fun j s hj hs => ?_⟩
  · rcases getElem?_snoc hj with ⟨-, hj⟩ | ⟨rfl, -⟩
    · exact h s (List.mem_of_getElem? hj) hs
    · omega
  · rcases getElem?_snoc hj with ⟨-, hj⟩ | ⟨-, rfl⟩
    · exact (h s (List.mem_of_getElem? hj) hs).le
    · exact le_rfl

theorem Binds.lt_of_lt {sts : List Status} {i : ℕ} {b st : Status} (h : Binds sts i b) (hlt : share st < share b) :
    ∀ s ∈ sts, Enforced s → share st < share s := by
  intro s hs hen
  obtain ⟨j, hj⟩ := List.mem_iff_getElem?.mp hs
  exact hlt.trans_le (h.least j s hj hen)

theorem bindStatus_skip {st : Status} (h : ¬ Enforced st) (binding : Option Status) : bindStatus binding st = binding := by
  unfold bindStatus
  refine if_pos ?_
  by_contra hno
  simp only [Bool.or_eq_true, Bool.not_eq_eq_eq_not, Bool.not_true, not_or, Bool.not_eq_false, Bool.not_eq_true] at hno
  exact h hno

theorem bindStatus_none {st : Status} (h : Enforced st) : bindStatus none st = some st := by
  simp [bindStatus, h.1, h.2]

/-- Both count as denied, so the shares decide. -/
theorem bindStatus_some {b st : Status} (h : Enforced st) (hst : st.allowed = false) (hb : b.allowed = false) :
    bindStatus (some b) st = if share st < share b then some st else some b := by
  simp [bindStatus, h.1, h.2, hst, hb]

/-- If no enforced status counts as allowed, the loop picks the first with the least share. -/
theorem foldl_bindStatus (sts : List Status) (h : ∀ st ∈ sts, st.Refused) :
    (sts.foldl bindStatus none = none ∧ ∀ st ∈ sts, ¬ Enforced st) ∨
      ∃ i b, sts.foldl bindStatus none = some b ∧ Binds sts i b := by
  induction sts using List.reverseRecOn with
  | nil => exact .inl ⟨rfl, fun _ hst => absurd hst List.not_mem_nil⟩
  | append_singleton sts st ih =>
    obtain ⟨hsts, hst⟩ := List.forall_mem_append.mp h
    have hrefused : st.Refused := hst st (List.mem_singleton.mpr rfl)
    rw [List.foldl_append, List.foldl_cons, List.foldl_nil]
    by_cases hen : Enforced st
    · right
      rcases ih hsts with ⟨hnone, hno⟩ | ⟨i, b, hsome, hb⟩
      · rw [hnone, bindStatus_none hen]
        exact ⟨_, st, rfl, binds_snoc hen fun s hs hs' => absurd hs' (hno s hs)⟩
      · have hb' : b.allowed = false := hsts b (List.mem_of_getElem? hb.at_) hb.enforced.1 hb.enforced.2
        rw [hsome, bindStatus_some hen (hrefused hen.1 hen.2) hb']
        split_ifs with hshare
        · exact ⟨_, st, rfl, binds_snoc hen (hb.lt_of_lt hshare)⟩
        · exact ⟨i, b, rfl, hb.snoc fun _ => not_lt.mp hshare⟩
    · rw [bindStatus_skip hen]
      rcases ih hsts with ⟨hnone, hno⟩ | ⟨i, b, hsome, hb⟩
      · refine .inl ⟨hnone, List.forall_mem_append.mpr ⟨hno, fun s hs => ?_⟩⟩
        rw [List.mem_singleton.mp hs]
        exact hen
      · exact .inr ⟨i, b, hsome, hb.snoc fun h => absurd h hen⟩

end Rls

namespace Sample

open Decide Rls

/-- Ten requests a minute per user, a hundred per tenant. -/
def twoLimits : Config.File :=
  { Config.ordersFile { requests := 100 } with descriptors := [⟨"shop", [
      .mk "user" "" (some ⟨.unset, 10, 60 * second, 0, 0⟩) "" [],
      .mk "tenant" "" (some ⟨.unset, 100, 60 * second, 0, 0⟩) "" []]⟩] }

/-- A request of cost 6. -/
def userAndTenant : List Descriptor := [⟨[⟨"user", "u1"⟩], 6⟩, ⟨[⟨"tenant", "t1"⟩], 6⟩]

/-- A limiter that admits the user's check, with `left` remaining, and denies the tenant's with 5 left. -/
def tenantDenies (left : ℤ) (req : Request) : Proc (Except LimitErr Decision) :=
  return .ok { Decision.zero with
    allowed := req.limitID = "user"
    limit := req.limit
    remaining := if req.limitID = "user" then left else 5
    resetAt := some 60000 }

/-- An edge whose clock stands still. -/
def clockAt (t : ℤ) : (i : Instr) → Unit → Option (i.Answer × Unit)
  | .clock _, _ => some (t, ())
  | _, _ => none

def checkShop (left : ℤ) : Proc (Except LimitErr Outcome) :=
  check id (Config.compile twoLimits).limiting "shop" (tenantDenies left) 0 0 "" userAndTenant false

/-- The outcome if the user has `left` remaining. -/
def tenantDenied (left : ℤ) : Option Outcome :=
  ((checkShop left).follow (clockAt 30000) ()).bind fun x => x.1.toOption

theorem checkShop_of_tenantDenied {left : ℤ} {out : Outcome} (h : tenantDenied left = some out) :
    (checkShop left).follow (clockAt 30000) () = some (.ok out, ()) := by
  obtain ⟨⟨x, u⟩, hx, hout⟩ := Option.bind_eq_some_iff.mp h
  cases x with
  | error e => cases hout
  | ok out' =>
    cases hout
    exact hx

end Sample

namespace Rls

open Decide Sample

end Rls

end Gate
