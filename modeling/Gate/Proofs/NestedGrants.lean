import Gate.Lib.Run
import Gate.Sanity.Ledger
import Gate.Spec.Family

/-! Quotas inside one budget stay balanced. Each counter, a child's or the org's, follows the record
of what its windows granted and got back: a return that is covered by what is outstanding is never
clamped, and a window that is over is not touched again. -/

namespace Gate

open Tally Windows

variable {f : Family} {s s' : Flow}

/-- What was granted less what came back. -/
def Flow.net (s : Flow) : List (Lot × ℤ) := s.granted ++ negate s.returned

theorem Flow.total_net (s : Flow) (P : Lot → Prop) [DecidablePred P] :
    total P s.net = total P s.granted - total P s.returned := by
  rw [net, total_append, total_negate, sub_eq_add_neg]

structure Accounted (f : Family) (s : Flow) : Prop where
  covered : ∀ l, 0 ≤ total (· = l) s.net
  child : ∀ k, k ≠ f.budgetKey → Follows (f.quota k).limit (s.now.tdiv (windowMs (f.quota k))) (s.mem.used k)
    fun w => total (fun l => l.key = k ∧ l.window = w) s.net
  budget : Follows f.budget.limit (s.now.tdiv (windowMs f.budget)) (s.mem.used f.budgetKey)
    fun v => total (fun l => l.parentWindow = v) s.net

theorem accounted_new (f : Family) (now : ℤ) : Accounted f (.new now) := by
  have hnone : ∀ (limit cur : ℤ) (key : String), 0 ≤ limit → Follows limit cur (Mem.new.used key) fun _ => 0 :=
    fun limit cur key h => ⟨fun _ => le_rfl, fun _ => h, fun _ _ => rfl, fun _ _ => rfl⟩
  exact ⟨fun _ => le_rfl, fun k _ => hnone _ _ k (f.limits k), hnone _ _ _ f.budgetLimit⟩

theorem Accounted.later (h : Accounted f s) {now : ℤ} (hnow : s.now ≤ now) : Accounted f { s with now := now } :=
  ⟨h.covered, fun k hk => (h.child k hk).later (Int.tdiv_le_tdiv (windowMs_pos _) hnow),
    h.budget.later (Int.tdiv_le_tdiv (windowMs_pos _) hnow)⟩

section Child

variable {r : Ref} {spec : Spec}

theorem Family.Child.parentKey (h : f.Child r spec) : r.parentKey .fixedWindow = f.budgetKey := by
  unfold Ref.parentKey budgetKey Ref.parentKey
  rw [h.1, h.2.1, h.2.2.1]

theorem Family.Child.parent_ne (h : f.Child r spec) : r.parent ≠ "" := h.2.2.1 ▸ f.named

theorem Family.Child.fixed (h : f.Child r spec) : spec.algo.or = .fixedWindow := by
  rw [h.2.2.2]
  exact f.fixed _

theorem Family.Child.key_ne (h : f.Child r spec) : r.key spec.algo ≠ f.budgetKey := by
  rw [← h.parentKey]
  exact nestedKey_ne_parentKey h.parent_ne (valid_of_fixed h.fixed)

end Child

/-! ### One call -/

section Grant

variable {r : Ref} {spec : Spec} {args : GrantArgs} {inp : GrantInput} {g : Grant} {m' : Mem}

/-- What a grant to a child does to every counter. -/
theorem Accounted.grant (h : Accounted f s) (hchild : f.Child r spec) (hparent : args.parent = some f.budget)
    (hregional : args.regional = false) (hpre : Prepared r spec args inp) (hg : Granted s.mem s.now inp g m') :
    Accounted f { s with mem := m', granted := s.granted ++ [(⟨r.key spec.algo, g.windowID, g.parentWindowID⟩, g.granted)] } := by
  obtain ⟨hpk, hplimit, hpwin⟩ := hpre.nested _ hparent hchild.parent_ne
  rw [hchild.parentKey] at hpk
  have hwindow : inp.algo ≠ .tokenBucket := by
    rw [hpre.algo, hchild.fixed]
    decide
  have hkey : inp.key ≠ f.budgetKey := hpre.key ▸ hchild.key_ne
  have hne : inp.parentKey ≠ "" := hpk ▸ parentKey_ne_empty _ _
  have hquota : f.quota inp.key = spec := by rw [hpre.key, ← hchild.2.2.2]
  have hwid : g.windowID = s.now.tdiv (windowMs spec) := by
    rw [hg.wid, measure_window hwindow, ← hpre.win]
    rfl
  have hpwid : g.parentWindowID = s.now.tdiv (windowMs f.budget) := by
    rw [hg.pwid, ← hpwin]
    unfold Mem.nest
    rw [if_neg hne]
  have hnet : ∀ (P : Lot → Prop) [DecidablePred P], total P
      (Flow.net { s with mem := m', granted := s.granted ++ [(⟨r.key spec.algo, g.windowID, g.parentWindowID⟩, g.granted)] }) =
        total P s.net + if P ⟨r.key spec.algo, g.windowID, g.parentWindowID⟩ then g.granted else 0 := by
    intro P _
    rw [Flow.total_net, Flow.total_net, total_append, total_cons, total_nil]
    ring
  have hnests : inp.Nests := fun _ he => hkey (he ▸ hpk)
  refine ⟨fun l => ?_, fun k hk => ?_, ?_⟩
  · have := h.covered l
    have := hg.nonneg
    rw [hnet]
    split <;> omega
  · have hf := h.child k hk
    by_cases hown : k = inp.key
    · subst hown
      rw [hquota] at hf ⊢
      refine hf.add hg.nonneg ?_ (fun w => ?_) fun w => ?_
      · have hlimit : (s.mem.measureWindow inp s.now).limit = spec.limit := by
          simp only [Mem.measureWindow, hpre.allocBase, hregional, hpre.limit]
          rfl
        have hle := hg.le_limit hwindow hnests (hpre.win ▸ windowMs_pos spec) hf.nonneg
        rw [hlimit, hg.used_own hwindow hnests, if_pos rfl, hwid] at hle
        exact hle
      · rw [hg.used_own hwindow hnests, hwid]
      · rw [hnet, hwid, ← hpre.key]
        simp only [true_and, eq_comm]
    · refine hf.add le_rfl (.inl rfl) (fun w => ?_) fun w => ?_
      · rw [hg.used_apart (Ne.symm hown) (fun hb => absurd hb hwindow) (hpk ▸ hk.symm), ite_self, add_zero]
      · rw [hnet, if_neg fun he => hown (he.1.symm.trans hpre.key.symm), ite_self]
  · have hused := hg.used_parent hwindow hne (hpk ▸ hkey)
    rw [hpk, hplimit, hpwin] at hused
    refine h.budget.add hg.nonneg hused.1 hused.2 fun v => ?_
    rw [hnet, hpwid]
    simp only [eq_comm]

end Grant

section Return

variable {r : Ret} {inp : ReturnInput}

theorem Flow.total_giveBack (s : Flow) (P : Lot → Prop) [DecidablePred P] (x : Lot × ℤ) :
    total P (s.giveBack x).net = total P s.net - if P x.1 then x.2 else 0 := by
  rw [total_net, total_net]
  simp only [giveBack, total_append, total_cons, total_nil]
  ring

/-- One item of a return, covered by what is outstanding of its lot. -/
theorem Accounted.giveBack (h : Accounted f s) (hchild : f.Child r.ref r.spec) (hparent : r.parent = some f.budget)
    (hprep : prepareReturn r "" = .ok inp) (hn : 0 ≤ r.tokens) (hle : r.tokens ≤ s.outstanding r.lot) :
    Accounted f { s.giveBack (r.lot, r.tokens) with mem := s.mem.applyReturn s.now inp } := by
  have hpre := prepareReturn_prepared hprep
  obtain ⟨hpk, hpwin, hpwid⟩ := prepareReturn_nested hprep hparent hchild.parent_ne
  rw [hchild.parentKey] at hpk
  have hwindow : inp.algo ≠ .tokenBucket := by
    rw [hpre.algo, hchild.fixed]
    decide
  have hkey : f.budgetKey ≠ inp.key := (hpre.key ▸ hchild.key_ne).symm
  have hquota : f.quota inp.key = r.spec := by rw [hpre.key, ← hchild.2.2.2]
  have hlot : r.lot = ⟨inp.key, inp.wid, inp.pwid⟩ := by rw [Ret.lot, hpre.key, hpre.wid, hpwid]
  have hout : r.tokens ≤ total (· = r.lot) s.net := by rwa [Flow.total_net]
  refine ⟨fun l => ?_, fun k hk => ?_, ?_⟩
  · have := h.covered l
    have hnet := s.total_giveBack (· = l) (r.lot, r.tokens)
    rw [show Flow.net { s.giveBack (r.lot, r.tokens) with mem := s.mem.applyReturn s.now inp } =
      (s.giveBack (r.lot, r.tokens)).net from rfl, hnet]
    split
    · rename_i he
      rw [← he]
      exact sub_nonneg.mpr hout
    · omega
  · have hf := h.child k hk
    have hnet := fun w => s.total_giveBack (fun l => l.key = k ∧ l.window = w) (r.lot, r.tokens)
    by_cases hown : k = inp.key
    · subst hown
      rw [hquota] at hf ⊢
      refine hf.sub (k := inp.wid) hn (hout.trans (total_label_le h.covered ?_)) (fun w => ?_) fun w => (hnet w).trans ?_
      · rw [hlot]
        exact ⟨rfl, rfl⟩
      · rw [← hpre.tokens, ← hpre.win]
        exact applyReturn_used_own _ hwindow (hpk ▸ hkey) w
      · rw [hlot]
        simp only [true_and, eq_comm]
    · refine hf.add (n := 0) le_rfl (.inl rfl) (fun w => ?_) fun w => (hnet w).trans ?_
      · rw [ite_self, add_zero]
        exact applyReturn_apart _ _ (Ne.symm hown) (fun hb => absurd hb hwindow) (hpk ▸ hk.symm) w
      · rw [hlot, if_neg fun he => hown he.1.symm, ite_self]
        ring
  · have hnet := fun v => s.total_giveBack (fun l => l.parentWindow = v) (r.lot, r.tokens)
    refine h.budget.sub (k := inp.pwid) hn (hout.trans (total_label_le h.covered ?_)) (fun v => ?_)
      fun v => (hnet v).trans ?_
    · rw [hlot]
    · have hused := applyReturn_used_parent s.mem s.now hwindow (hpk ▸ parentKey_ne_empty _ _) (hpk ▸ hkey) v
      rwa [hpk, hpwin, hpre.tokens] at hused
    · rw [hlot]
      simp only [eq_comm]

end Return

theorem returnOne_plain (m : Mem) (now : ℤ) {r : Ret} {inp : ReturnInput} (h : prepareReturn r "" = .ok inp) :
    m.returnOne now inp = m.applyReturn now inp := by
  unfold Mem.returnOne
  rw [(prepareReturn_prepared h).dedupeKey]
  rfl

theorem prepareReturn_ok {r : Ret} (dedupe : String) (h : r.spec.validate = .ok ()) :
    ∃ inp, prepareReturn r dedupe = .ok inp := by
  unfold prepareReturn
  rw [h]
  exact ⟨_, rfl⟩

theorem prepareReturn_error {r : Ret} (dedupe : String) {e : Err} (h : r.spec.validate = .error e) :
    prepareReturn r dedupe = .error e := by
  unfold prepareReturn
  rw [h]
  rfl

/-- Only the record matters. -/
theorem Flow.Covers.congr {xs : List (Lot × ℤ)} (h : s.Covers xs) (hg : s'.granted = s.granted)
    (hr : s'.returned = s.returned) : s'.Covers xs := by
  induction xs generalizing s s' with
  | nil => trivial
  | cons x xs ih =>
    refine ⟨?_, ih h.2 hg (by simp only [giveBack, hr])⟩
    unfold outstanding
    rw [hg, hr]
    exact h.1

/-- A whole return, item by item. -/
theorem Accounted.ret {rs : List Ret} (h : Accounted f s)
    (hchild : ∀ r ∈ rs, f.Child r.ref r.spec ∧ r.parent = some f.budget) (hcov : s.Covers (givenBack rs)) :
    Accounted f { s with mem := (s.mem.ret s.now "" rs).2, returned := s.returned ++ givenBack rs } := by
  induction rs generalizing s with
  | nil =>
    rw [show givenBack [] = [] from rfl, List.append_nil]
    exact h
  | cons r rs ih =>
    unfold givenBack at hcov ⊢
    unfold Mem.ret
    cases hv : r.spec.validate with
    | error e =>
      rw [prepareReturn_error "" hv, if_neg (by simp), List.append_nil]
      exact h
    | ok u =>
      obtain ⟨inp, hprep⟩ := prepareReturn_ok "" hv
      rw [hv, if_pos rfl] at hcov
      rw [hprep, if_pos rfl]
      obtain ⟨hr, hpar⟩ := hchild r List.mem_cons_self
      have hitem := h.giveBack hr hpar hprep hcov.1.1 hcov.1.2
      have hrest := ih hitem (fun r' hr' => hchild r' (List.mem_cons_of_mem _ hr')) (hcov.2.congr rfl rfl)
      simp only [Flow.giveBack, List.append_assoc, List.singleton_append] at hrest
      rw [← returnOne_plain s.mem s.now hprep] at hrest
      exact hrest

theorem Accounted.step {c : LedgerCall} (h : Accounted f s) (hstep : f.step s c = some s') : Accounted f s' := by
  unfold Family.step at hstep
  split at hstep
  case isFalse => cases hstep
  rename_i hallow
  cases hstep
  obtain ⟨hnow, hallow⟩ := hallow
  obtain ⟨now, op⟩ := c
  have hlater := h.later hnow
  cases op with
  | grant ord ref spec args =>
    obtain ⟨hchild, hparent, hregional⟩ := hallow
    cases hp : prepare ref spec args with
    | error e =>
      have hexec : s.exec ⟨now, .grant ord ref spec args⟩ = { s with now := now } := by
        simp only [Flow.exec, Mem.exec, Mem.grant, hp]
      rw [hexec]
      exact hlater
    | ok inp =>
      have hpre := prepare_prepared hp
      have hexec : s.exec ⟨now, .grant ord ref spec args⟩ = Flow.mk (s.mem.grantOn ord now inp).2 now
          (s.granted ++ [(⟨ref.key spec.algo, (s.mem.grantOn ord now inp).1.windowID,
            (s.mem.grantOn ord now inp).1.parentWindowID⟩, (s.mem.grantOn ord now inp).1.granted)]) s.returned := by
        simp only [Flow.exec, Mem.exec, Mem.grant, hp]
      rw [hexec]
      exact hlater.grant hchild hparent hregional hpre (grantOn_granted s.mem ord now inp hpre.target)
  | ret dedupe rs =>
    obtain ⟨rfl, hchild, hcov⟩ := hallow
    exact hlater.ret hchild (hcov.congr rfl rfl)
  | lend => exact hallow.elim
  | credit => exact hallow.elim

/-! ### Every run -/

/-- After any grants to children of the org and any returns of what is outstanding, at times that do
not decrease: every child's counters are between zero and its limit and the org's between zero and
the budget, and the counter of the org's current window is what was granted in it less what came
back, and so at least what is outstanding of any lots granted in it. -/
theorem nested_balanced (f : Family) (t₀ : ℤ) (cs : List LedgerCall) (s : Flow)
    (hrun : Conc.runAll f.step (.new t₀) cs = some s) (now : ℤ) (hnow : s.now ≤ now) :
    (∀ r spec, f.Child r spec → ∀ w, 0 ≤ s.mem.used (r.key spec.algo) w ∧ s.mem.used (r.key spec.algo) w ≤ spec.limit) ∧
    (∀ v, 0 ≤ s.mem.used f.budgetKey v ∧ s.mem.used f.budgetKey v ≤ f.budget.limit) ∧
    s.mem.used f.budgetKey (now.tdiv (windowMs f.budget)) =
      total (fun l => l.parentWindow = now.tdiv (windowMs f.budget)) s.granted -
        total (fun l => l.parentWindow = now.tdiv (windowMs f.budget)) s.returned ∧
    ∀ lots : Finset Lot, (∀ l ∈ lots, l.parentWindow = now.tdiv (windowMs f.budget)) →
      ∑ l ∈ lots, s.outstanding l ≤ s.mem.used f.budgetKey (now.tdiv (windowMs f.budget)) := by
  have hbal : Accounted f s := Conc.inv_runAll (fun s c s' h (_ : True) hs => h.step hs) cs _ _
    (accounted_new f t₀) (Conc.along_of_forall (fun _ _ => trivial) _ _) hrun
  have hdue := (hbal.later hnow).budget.due _ le_rfl
  refine ⟨fun r spec hchild w => ?_, fun v => ⟨hbal.budget.nonneg v, hbal.budget.le v⟩, ?_, fun lots hlots => ?_⟩
  · have h := hbal.child _ hchild.key_ne
    rw [← hchild.2.2.2] at h
    exact ⟨h.nonneg w, h.le w⟩
  · rw [← Flow.total_net]
    exact hdue
  · have hsum := sum_total_le hbal.covered hlots
    simp only [Flow.total_net s] at hsum
    calc ∑ l ∈ lots, s.outstanding l ≤ _ := hsum
      _ = s.mem.used f.budgetKey (now.tdiv (windowMs f.budget)) := by
        rw [← Flow.total_net]
        exact hdue.symm

/-- Keys of one org with eight a second each, inside ten in two seconds. -/
def acmeFamily : Family where
  scope := "v1"
  service := "orders"
  org := "acme"
  budget := ⟨.fixedWindow, 10, 2 * second, 0⟩
  quota _ := ⟨.fixedWindow, 8, second, 0⟩
  named := by decide
  fixed _ := rfl
  limits _ := by decide
  budgetLimit := by decide

def acmeKey (subject : String) : Ref := ⟨"v1", "orders", "", subject, "acme"⟩

def acmeGrant (now : ℤ) (subject : String) (n : ℤ) : LedgerCall :=
  ⟨now, .grant ⟨id, perm_in_place⟩ (acmeKey subject) (acmeFamily.quota "")
    ⟨n, "", 0, 0, 0, 0, some acmeFamily.budget, false, 0⟩⟩

/-- Two keys take six and the four that are left; the first gives three back once its own window is over. -/
theorem nested_balanced_two_keys : ∃ s,
    Conc.runAll acmeFamily.step (.new 0) [acmeGrant 100 "k1" 6, acmeGrant 600 "k2" 6,
      ⟨1500, .ret "" [⟨acmeKey "k1", acmeFamily.quota "", some acmeFamily.budget, 0, 0, 3⟩]⟩] = some s ∧
    s.mem.used acmeFamily.budgetKey 0 = 7 ∧
    ∑ l ∈ {⟨(acmeKey "k1").key .fixedWindow, 0, 0⟩, ⟨(acmeKey "k2").key .fixedWindow, 0, 0⟩}, s.outstanding l ≤
      s.mem.used acmeFamily.budgetKey 0 := by
  have heval : (Conc.runAll acmeFamily.step (.new 0) [acmeGrant 100 "k1" 6, acmeGrant 600 "k2" 6,
      ⟨1500, .ret "" [⟨acmeKey "k1", acmeFamily.quota "", some acmeFamily.budget, 0, 0, 3⟩]⟩]).map
        (fun s => (s.mem.used acmeFamily.budgetKey 0, s.now)) = some (7, 1500) := by decide +kernel
  obtain ⟨s, hrun, hs⟩ := Option.map_eq_some_iff.mp heval
  rw [Prod.mk.injEq] at hs
  have h := (nested_balanced acmeFamily 0 _ s hrun 1500 hs.2.le).2.2.2
  have hwin : (1500 : ℤ).tdiv (windowMs acmeFamily.budget) = 0 := by decide
  rw [hwin] at h
  exact ⟨s, hrun, hs.1, h _ (by simp)⟩

end Gate
