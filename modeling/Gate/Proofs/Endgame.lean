import Gate.Sanity.Regions
import Gate.Proofs.GrantBounds

/-! Near the end of a quota its active edges share what is left. Each grant is a share of what
earlier ones left, rounded up; a round of grants still leaves at least one token for every edge
that has not asked, and repeated rounds hand out all of it. -/

namespace Gate

/-! The arithmetic of one share. -/

section Share
variable {avail n target k : ℤ}

/-- A share is at most a fair one, rounded up. -/
theorem grantSize_le_share (ha : 0 < avail) (hn : 0 < n) : grantSize avail n target ≤ ⌈(avail : ℚ) / n⌉ := by
  have hn' : (0 : ℚ) < n := by exact_mod_cast hn
  unfold grantSize
  refine (min_le_left _ _).trans ?_
  split
  · rw [Int.tdiv_eq_ediv_of_nonneg (by omega)]
    have h : (((avail + n - 1) / n - 1 : ℤ) : ℚ) < avail / n := by
      rw [lt_div_iff₀ hn']
      have hmul := Int.ediv_mul_le (avail + n - 1) hn.ne'
      exact_mod_cast (by linarith : ((avail + n - 1) / n - 1) * n < avail)
    have := Int.lt_ceil.mpr h
    omega
  · rename_i h
    have hle : (target : ℚ) ≤ avail / n := by
      rw [le_div_iff₀ hn']
      exact_mod_cast (by linarith : target * n ≤ avail)
    exact_mod_cast hle.trans (Int.le_ceil _)

theorem grantSize_le_target (ha : 0 < avail) (hn : 0 < n) : grantSize avail n target ≤ target := by
  unfold grantSize
  refine (min_le_left _ _).trans ?_
  split
  · rw [Int.tdiv_eq_ediv_of_nonneg (by omega)]
    have : (avail + n - 1) / n < target + 1 := (Int.ediv_lt_iff_lt_mul hn).mpr (by linarith)
    omega
  · exact le_rfl

/-- While each of `k` of the `n` edges could have a token, a share leaves one for each of the rest. -/
theorem grantSize_leaves (ht : 0 < target) (hk : 0 < k) (hkn : k ≤ n) (hka : k ≤ avail) :
    k - 1 ≤ avail - grantSize avail n target := by
  have hn : 0 < n := by omega
  unfold grantSize
  split
  · rw [Int.tdiv_eq_ediv_of_nonneg (by omega)]
    set c := (avail + n - 1) / n
    have hc : c * n ≤ avail + n - 1 := Int.ediv_mul_le _ hn.ne'
    have hmin := min_le_left c avail
    by_cases h1 : c ≤ 1
    · omega
    · have hprod : 0 ≤ (n - 1) * (c - 2) := mul_nonneg (by omega) (by omega)
      nlinarith
  · rename_i h
    have hmin := min_le_left target avail
    have hprod : 0 ≤ (n - 1) * (target - 1) := mul_nonneg (by omega) (by omega)
    nlinarith

/-- What is granted when `A` tokens are left to `n` edges. -/
def shareOf (n T A : ℤ) : ℤ := if A ≤ 0 then 0 else grantSize A n T

/-- What `k` requests in a row are granted. -/
def shares (n T : ℤ) : ℤ → ℕ → List ℤ
  | _, 0 => []
  | A, k + 1 => shareOf n T A :: shares n T (A - shareOf n T A) k

section Shares
variable {n T A : ℤ}

theorem shareOf_eq_zero (hn : 0 ≤ n) (hT : 0 < T) (hA : 0 ≤ A) : shareOf n T A = 0 ↔ A = 0 := by
  unfold shareOf
  split
  · exact ⟨fun _ => by omega, fun _ => rfl⟩
  · have := grantSize_pos (by omega : 0 < A) hn hT
    exact ⟨fun h => by omega, fun h => by omega⟩

theorem shareOf_le (hA : 0 ≤ A) : shareOf n T A ≤ A := by
  unfold shareOf
  split
  · exact hA
  · exact grantSize_le _ _ _

theorem shareOf_nonneg (hn : 0 ≤ n) (hT : 0 < T) : 0 ≤ shareOf n T A := by
  unfold shareOf
  split
  · exact le_rfl
  · exact (grantSize_pos (by omega) hn hT).le

/-- While a token is left for everyone who has yet to ask, each gets one, and nobody more than a fair share. -/
theorem shares_fair (hT : 0 < T) {k : ℕ} (hkn : (k : ℤ) ≤ n) (hkA : (k : ℤ) ≤ A) :
    ∀ g ∈ shares n T A k, 1 ≤ g ∧ g ≤ min T ⌈(A : ℚ) / n⌉ := by
  induction k generalizing A with
  | zero => exact fun g hg => absurd hg List.not_mem_nil
  | succ k ih =>
    push_cast at hkn hkA
    have hA : 0 < A := by omega
    have hn : 0 < n := by omega
    have hshare : shareOf n T A = grantSize A n T := if_neg (by omega)
    have hpos := grantSize_pos hA hn.le hT
    rw [shares, hshare]
    refine List.forall_mem_cons.mpr ⟨⟨hpos, le_min (grantSize_le_target hA hn) (grantSize_le_share hA hn)⟩, fun g hg => ?_⟩
    have hleft := grantSize_leaves hT (by omega : (0 : ℤ) < k + 1) hkn hkA
    obtain ⟨h1, h2⟩ := ih (by omega) (by omega) g hg
    refine ⟨h1, h2.trans (min_le_min_left T (Int.ceil_le_ceil ?_))⟩
    have hcast : ((A - grantSize A n T : ℤ) : ℚ) ≤ A := by exact_mod_cast (by omega : A - grantSize A n T ≤ A)
    exact div_le_div_of_nonneg_right hcast (by exact_mod_cast hn.le)

/-- A request is refused once all is granted, and not before. -/
theorem shares_refused (hn : 0 ≤ n) (hT : 0 < T) (hA : 0 ≤ A) {k i : ℕ} {g : ℤ} (hg : (shares n T A k)[i]? = some g) :
    g = 0 ↔ ((shares n T A k).take i).sum = A := by
  induction k generalizing A i with
  | zero => cases hg
  | succ k ih =>
    rw [shares] at hg ⊢
    cases i with
    | zero =>
      rw [List.getElem?_cons_zero, Option.some.injEq] at hg
      rw [← hg, shareOf_eq_zero hn hT hA, List.take_zero, List.sum_nil, eq_comm]
    | succ i =>
      rw [List.getElem?_cons_succ] at hg
      have hle := shareOf_le (n := n) (T := T) hA
      rw [ih (by omega) hg, List.take_succ_cons, List.sum_cons]
      omega

/-- Enough requests are granted all that was left. -/
theorem shares_sum (hn : 0 ≤ n) (hT : 0 < T) (hA : 0 ≤ A) {k : ℕ} (hk : A ≤ k) : (shares n T A k).sum = A := by
  induction k generalizing A with
  | zero =>
    rw [shares, List.sum_nil]
    push_cast at hk
    omega
  | succ k ih =>
    push_cast at hk
    have hle := shareOf_le (n := n) (T := T) hA
    have hzero := shareOf_eq_zero hn hT hA
    have hnonneg := shareOf_nonneg (A := A) hn hT
    rw [shares, List.sum_cons, ih (by omega) (by omega)]
    omega

end Shares

end Share

/-! Counting the active edges. -/

/-- The names of the edges that asked after `since`. -/
def activeNames (since : ℤ) (set : List (String × ℤ)) : List String := (set.filter fun e => since < e.2).map Prod.fst

section Count
variable {now activeMs : ℤ} {set : List (String × ℤ)}

theorem foldl_countEdge_count (l : List (String × ℤ)) (acc : ℤ × List (String × ℤ)) :
    (l.foldl (countEdge now activeMs) acc).1 = acc.1 + (l.filter fun e => now - activeMs < e.2).length := by
  induction l generalizing acc with
  | nil => simp
  | cons e l ih =>
    rw [List.foldl_cons, ih]
    by_cases h : now - activeMs < e.2
    · simp [countEdge, h]
      omega
    · have : (countEdge now activeMs acc e).1 = acc.1 := by
        unfold countEdge
        rw [if_neg (by simpa using h)]
        split <;> rfl
      simp [this, h]

/-- The loop drops stale edges only. -/
theorem foldl_countEdge_keeps (now activeMs : ℤ) {l : List (String × ℤ)} (acc : ℤ × List (String × ℤ)) (hn : (set.map Prod.fst).Nodup)
    (hl : ∀ e ∈ l, e ∈ set) (hacc : acc.2.Sublist set) :
    (l.foldl (countEdge now activeMs) acc).2.Sublist set ∧
      ∀ e ∈ acc.2, now - activeMs < e.2 → e ∈ (l.foldl (countEdge now activeMs) acc).2 := by
  induction l generalizing acc with
  | nil => exact ⟨hacc, fun e he _ => he⟩
  | cons d l ih =>
    obtain ⟨hd, hl⟩ := List.forall_mem_cons.mp hl
    rw [List.foldl_cons]
    have hsub : (countEdge now activeMs acc d).2.Sublist set := by
      unfold countEdge
      split
      · exact hacc
      · split
        · exact (List.filter_sublist).trans hacc
        · exact hacc
    obtain ⟨hres, hkeep⟩ := ih _ hl hsub
    refine ⟨hres, fun e he hlive => hkeep e ?_ hlive⟩
    unfold countEdge
    split
    · exact he
    · rename_i hstale
      split
      · -- a name stands for one entry of the set, so what is dropped is the stale entry itself
        refine List.mem_filter.mpr ⟨he, ?_⟩
        simp only [ne_eq, decide_not, Bool.not_eq_eq_eq_not, Bool.not_true, decide_eq_false_iff_not]
        intro hname
        have heq := List.inj_on_of_nodup_map hn (hacc.subset he) hd hname
        rw [heq] at hlive
        exact hstale hlive
      · exact he

theorem mem_activeNames {since : ℤ} {name : String} : name ∈ activeNames since set ↔ ∃ at_, (name, at_) ∈ set ∧ since < at_ := by
  simp [activeNames]

theorem touchEdge_nodup (hn : (set.map Prod.fst).Nodup) (edge : String) :
    ((touchEdge set edge now).map Prod.fst).Nodup := by
  unfold touchEdge
  rw [List.map_append, List.map_singleton, List.nodup_append]
  refine ⟨(List.filter_sublist.map _).nodup hn, List.nodup_singleton _, fun a ha b hb => ?_⟩
  obtain ⟨e, he, rfl⟩ := List.mem_map.mp ha
  rw [List.mem_singleton.mp hb]
  simpa using (List.mem_filter.mp he).2

theorem mem_touchEdge {edge name : String} {at_ : ℤ} :
    (name, at_) ∈ touchEdge set edge now ↔ (name = edge ∧ at_ = now) ∨ (name ≠ edge ∧ (name, at_) ∈ set) := by
  unfold touchEdge
  rw [List.mem_append, List.mem_filter, List.mem_singleton, Prod.mk.injEq]
  simp only [ne_eq, decide_not, Bool.not_eq_eq_eq_not, Bool.not_true, decide_eq_false_iff_not]
  tauto

variable {E : Finset String} {edge : String}

/-- An edge that asks again is active since any earlier time. -/
theorem activeNames_touchEdge {since : ℤ} (hE : (activeNames since set).toFinset = E) (hedge : edge ∈ E) (hnow : since < now) :
    (activeNames since (touchEdge set edge now)).toFinset = E := by
  ext name
  rw [← hE] at hedge ⊢
  rw [List.mem_toFinset, List.mem_toFinset, mem_activeNames] at *
  simp only [mem_touchEdge]
  constructor
  · rintro ⟨at_, ⟨rfl, -⟩ | ⟨-, hmem⟩, hlt⟩
    · exact mem_activeNames.mpr hedge
    · exact mem_activeNames.mpr ⟨at_, hmem, hlt⟩
  · intro h
    obtain ⟨at_, hmem, hlt⟩ := mem_activeNames.mp h
    by_cases he : name = edge
    · exact ⟨now, .inl ⟨he, rfl⟩, hnow⟩
    · exact ⟨at_, .inr ⟨he, hmem⟩, hlt⟩

theorem length_active (hn : (set.map Prod.fst).Nodup) {since : ℤ} (hE : (activeNames since set).toFinset = E) :
    (set.filter fun e => since < e.2).length = E.card := by
  have hnodup : (activeNames since set).Nodup := (List.filter_sublist.map _).nodup hn
  rw [← hE, List.toFinset_card_of_nodup hnodup, activeNames, List.length_map]

/-- What remains of the set after the loop has the same active edges, for any request that counts them alike. -/
theorem activeNames_kept {kept : List (String × ℤ)} {since since' : ℤ} (hn : (set.map Prod.fst).Nodup) (hsub : kept.Sublist set)
    (hkeep : ∀ e ∈ set, since < e.2 → e ∈ kept) (hE : (activeNames since set).toFinset = E)
    (hE' : (activeNames since' set).toFinset = E) : (activeNames since' kept).toFinset = E := by
  ext name
  constructor
  · intro h
    obtain ⟨at_, hmem, hlt⟩ := mem_activeNames.mp (List.mem_toFinset.mp h)
    rw [← hE', List.mem_toFinset]
    exact mem_activeNames.mpr ⟨at_, hsub.subset hmem, hlt⟩
  · intro h
    obtain ⟨at_, hmem, hlt⟩ := mem_activeNames.mp (List.mem_toFinset.mp (hE.symm ▸ h))
    obtain ⟨at', hmem', hlt'⟩ := mem_activeNames.mp (List.mem_toFinset.mp (hE'.symm ▸ h))
    have heq := List.inj_on_of_nodup_map hn hmem hmem' rfl
    rw [List.mem_toFinset]
    exact mem_activeNames.mpr ⟨at_, hkeep _ hmem hlt, by rw [(Prod.mk.inj heq).2]; exact hlt'⟩

end Count

/-- `args` is a request of one of the edges `E` for `T` tokens of a windowed quota without an enclosing
one, of which `A` are left; its active edges are those of `E`. `inp` is the request as the ledger reads it. -/
structure Asks (m : Mem) (now : ℤ) (ref : Ref) (spec : Spec) (T A : ℤ) (E : Finset String) (args : GrantArgs)
    (inp : GrantInput) : Prop where
  prepared : prepare ref spec args = .ok inp
  windowed : spec.algo.or ≠ .tokenBucket
  target : inp.target = T
  alone : inp.parentKey = ""
  edge : args.edgeID ∈ E
  named : args.edgeID ≠ ""
  active : (activeNames (now - inp.activeMs) (m.edges (ref.key spec.algo))).toFinset = E
  avail : (m.measure inp now).avail = A

section Round
variable {m m' : Mem} {now T A : ℤ} {ref : Ref} {spec : Spec} {E : Finset String} {args : GrantArgs} {inp : GrantInput}

/-- What `prepare` keeps of the asking edge. -/
theorem prepare_edge (h : prepare ref spec args = .ok inp) :
    inp.edge = args.edgeID ∧ inp.activeMs = milliseconds (max (2 * args.horizon) (2 * second)) := by
  unfold prepare at h
  cases hv : spec.validate with
  | error e => simp [hv, bind, Except.bind] at h
  | ok u =>
    simp only [hv, bind, Except.bind, pure, Except.pure, throw, throwThe, MonadExceptOf.throw] at h
    split at h
    · cases h
    · split at h
      · split at h
        · cases h
          exact ⟨rfl, rfl⟩
        · split at h
          · cases h
          · cases h
            exact ⟨rfl, rfl⟩
      · cases h
        exact ⟨rfl, rfl⟩

theorem Asks.recent (h : Asks m now ref spec T A E args inp) : now - inp.activeMs < now := by
  rw [(prepare_edge h.prepared).2]
  have h2 : (2000 : ℤ) = milliseconds (2 * second) := by decide
  have hle : milliseconds (2 * second) ≤ milliseconds (max (2 * args.horizon) (2 * second)) :=
    Int.tdiv_le_tdiv (by decide) (le_max_right _ _)
  omega

/-- The loop over the edges counts those of `E`, and leaves them active for every request of the round. -/
theorem Asks.count (h : Asks m now ref spec T A E args inp) (hmap : ((m.edges (ref.key spec.algo)).map Prod.fst).Nodup)
    (hend : A < 64 * T) (ord : RangeOrder) :
    (m.countEdges ord inp A now).1 = E.card ∧
      (((m.countEdges ord inp A now).2.edges (ref.key spec.algo)).map Prod.fst).Nodup ∧
      ∀ {args' inp'}, Asks m now ref spec T A E args' inp' →
        (activeNames (now - inp'.activeMs) ((m.countEdges ord inp A now).2.edges (ref.key spec.algo))).toFinset = E := by
  have hpre := prepare_prepared h.prepared
  have hedge := (prepare_edge h.prepared).1
  have hcond : inp.edge ≠ "" ∧ A < 64 * inp.target := ⟨hedge ▸ h.named, h.target.symm ▸ hend⟩
  unfold Mem.countEdges
  rw [if_pos hcond]
  dsimp only
  rw [hpre.key, hedge, Function.update_self]
  set touched := touchEdge (m.edges (ref.key spec.algo)) args.edgeID now
  have hnodup : (touched.map Prod.fst).Nodup := touchEdge_nodup hmap _
  have hactive : ∀ {args' inp'}, Asks m now ref spec T A E args' inp' →
      (activeNames (now - inp'.activeMs) touched).toFinset = E := fun h' =>
    activeNames_touchEdge h'.active h.edge h'.recent
  have hperm := ord.perm touched
  obtain ⟨hsub, hkeep⟩ := foldl_countEdge_keeps now inp.activeMs (0, touched) hnodup (fun e he => hperm.mem_iff.mp he)
    (List.Sublist.refl _)
  refine ⟨?_, (hsub.map _).nodup hnodup, fun h' => activeNames_kept hnodup hsub hkeep (hactive h) (hactive h')⟩
  rw [foldl_countEdge_count, (hperm.filter _).length_eq, length_active hnodup (hactive h), zero_add]

theorem allocKey_ne_winKey (key : String) (w w' : ℤ) : allocKey key w ≠ winKey key w' := by
  intro h
  rw [allocKey_eq] at h
  have hlen := congrArg String.length (snoc_colon_inj (colon_notMem_int w) (colon_notMem_int w') h).1
  rw [String.length_append, String.length_append] at hlen
  have halloc : "alloc".length = 5 := rfl
  omega

/-- Tokens taken from a window are missing from what it has left. -/
theorem avail_take (hw : inp.algo ≠ .tokenBucket) {n : ℤ}
    (hvals : m'.vals = (m.addVal (winKey inp.key (now.tdiv inp.win)) n).vals) :
    (m'.measure inp now).avail = (m.measure inp now).avail - n := by
  have hget : ∀ k ≠ winKey inp.key (now.tdiv inp.win), ∀ d, m'.getInt k d = m.getInt k d := by
    intro k hk d
    rw [Mem.getInt, hvals, m.vals_addVal_of_ne hk]
    rfl
  have hcur : m'.getInt (winKey inp.key (now.tdiv inp.win)) 0 = m.getInt (winKey inp.key (now.tdiv inp.win)) 0 + n := by
    simp [Mem.getInt, hvals, Mem.addVal, Mem.setVal]
  rw [measure_window hw, measure_window hw]
  unfold Mem.measureWindow
  dsimp only
  rw [hcur, hget (allocKey inp.key _) (allocKey_ne_winKey _ _ _), hget (winKey inp.key (now.tdiv inp.win - 1)) (by simp [winKey_inj])]
  split_ifs <;> omega

/-- One request of the round. -/
theorem Asks.step (h : Asks m now ref spec T A E args inp) (hmap : ((m.edges (ref.key spec.algo)).map Prod.fst).Nodup)
    (hend : A < 64 * T) (ord : RangeOrder) :
    ∃ g m', m.grant ord now ref spec args = (.ok g, m') ∧ g.granted = shareOf E.card T A ∧
      ((m'.edges (ref.key spec.algo)).map Prod.fst).Nodup ∧
      ∀ {args' inp'}, Asks m now ref spec T A E args' inp' → Asks m' now ref spec T (A - g.granted) E args' inp' := by
  have hpre := prepare_prepared h.prepared
  obtain ⟨hcount, hnodup, hactive⟩ := h.count hmap hend ord
  have hne : m.nest inp (m.measure inp now) now = ⟨A, (m.measure inp now).expires, "", 0, 0, false⟩ := by
    rw [nest_alone h.alone, h.avail]
  unfold Mem.grant
  rw [h.prepared]
  dsimp only
  refine ⟨_, _, rfl, ?_⟩
  unfold Mem.grantOn
  dsimp only
  rw [hne]
  unfold shareOf
  split
  · refine ⟨rfl, hnodup, fun h' => ?_⟩
    have hsame : ∀ inp', (m.countEdges ord inp A now).2.measure inp' now = m.measure inp' now := by
      intro inp'
      simp [Mem.measure, Mem.measureBucket, Mem.measureWindow, Mem.getInt]
    exact ⟨h'.prepared, h'.windowed, h'.target, h'.alone, h'.edge, h'.named, hactive h', by rw [hsame, h'.avail]; exact (sub_zero A).symm⟩
  · rw [hcount, h.target]
    have hw : inp.algo ≠ .tokenBucket := hpre.algo ▸ h.windowed
    have hkey : (m.measure inp now).key = winKey inp.key (now.tdiv inp.win) := by
      rw [measure_window hw]
      rfl
    refine ⟨rfl, ?_, fun {args' inp'} h' => ?_⟩
    · simpa [Mem.debit, hw, Mem.addVal, Mem.setVal] using hnodup
    · have hpre' := prepare_prepared h'.prepared
      refine ⟨h'.prepared, h'.windowed, h'.target, h'.alone, h'.edge, h'.named, ?_, ?_⟩
      · simpa [Mem.debit, hw, Mem.addVal, Mem.setVal] using hactive h'
      · rw [← h'.avail]
        refine avail_take (hpre'.algo ▸ h'.windowed) ?_
        simp [Mem.debit, hw, hkey, Mem.addVal, Mem.setVal, hpre.key, hpre'.key, hpre.win, hpre'.win, Mem.getInt, result]

/-- The request of an edge, as a ledger call; the ledger may visit its set of edges in any order. -/
def askCall (now : ℤ) (ref : Ref) (spec : Spec) (x : RangeOrder × GrantArgs) : LedgerCall := ⟨now, .grant x.1 ref spec x.2⟩

/-- What requests made one after the other at one instant are granted. -/
def granted (m : Mem) (now : ℤ) (ref : Ref) (spec : Spec) (xs : List (RangeOrder × GrantArgs)) : List ℤ :=
  (grantLog (ref.key spec.algo) m (xs.map (askCall now ref spec))).map Prod.snd

theorem granted_eq_shares {xs : List (RangeOrder × GrantArgs)} (hmap : ((m.edges (ref.key spec.algo)).map Prod.fst).Nodup)
    (hT : 0 < T) (hA : 0 ≤ A) (hend : A < 64 * T) (hxs : ∀ x ∈ xs, ∃ inp, Asks m now ref spec T A E x.2 inp) :
    granted m now ref spec xs = shares E.card T A xs.length := by
  induction xs generalizing m A with
  | nil => rfl
  | cons x xs ih =>
    obtain ⟨⟨inp, hx⟩, hxs⟩ := List.forall_mem_cons.mp hxs
    obtain ⟨g, m', hgrant, hg, hmap', hnext⟩ := hx.step hmap hend x.1
    have hle := shareOf_le (n := E.card) (T := T) hA
    have hexec : m.exec (askCall now ref spec x) = (.granted (.ok g), m') := by
      simp only [Mem.exec, askCall, hgrant]
    have hnonneg := shareOf_nonneg (A := A) (Int.natCast_nonneg E.card) hT
    have htail := ih hmap' (A := A - g.granted) (by omega) (by omega) fun y hy => (hxs y hy).imp fun _ hy' => hnext hy'
    unfold granted at htail ⊢
    rw [List.map_cons, grantLog, hexec, List.map_cons, htail, List.length_cons, shares, ← hg]
    simp [LedgerCall.tokens, askCall]

end Round

/-- Of a windowed quota with no enclosing one, `A` tokens are left to the `n` edges `E`, all of them active,
and `n ≤ A < 64 * T`. If each asks once at one instant, each is granted at least one token and at most
a fair share; if they keep asking, they are refused once all is granted and not before, and all is granted. -/
theorem endgame_fair {m : Mem} {now T A : ℤ} {ref : Ref} {spec : Spec} {E : Finset String} (hE : E.Nonempty) (hT : 1 ≤ T)
    (hn : (E.card : ℤ) ≤ A) (hend : A < 64 * T) (hmap : ((m.edges (ref.key spec.algo)).map Prod.fst).Nodup)
    {xs : List (RangeOrder × GrantArgs)} (hxs : ∀ x ∈ xs, ∃ inp, Asks m now ref spec T A E x.2 inp) :
    ((xs.map fun x => x.2.edgeID).Nodup →
      ∀ g ∈ granted m now ref spec xs, 1 ≤ g ∧ g ≤ max 1 (min T ⌈(A : ℚ) / E.card⌉)) ∧
    (∀ i g, (granted m now ref spec xs)[i]? = some g → (g = 0 ↔ ((granted m now ref spec xs).take i).sum = A)) ∧
    (A ≤ xs.length → (granted m now ref spec xs).sum = A) := by
  have hcard : (0 : ℤ) < E.card := by exact_mod_cast hE.card_pos
  rw [granted_eq_shares hmap (by omega) (by omega) hend hxs]
  refine ⟨fun hnodup g hg => ?_, fun i g hg => ?_, fun hlen => ?_⟩
  · have hsub : (xs.map fun x => x.2.edgeID).toFinset ⊆ E := by
      intro name hname
      obtain ⟨x, hx, rfl⟩ := List.mem_map.mp (List.mem_toFinset.mp hname)
      obtain ⟨inp, h⟩ := hxs x hx
      exact h.edge
    have hlen := Finset.card_le_card hsub
    rw [List.toFinset_card_of_nodup hnodup, List.length_map] at hlen
    have hfair := shares_fair (by omega) (by exact_mod_cast hlen) (by omega) g hg
    exact ⟨hfair.1, hfair.2.trans (le_max_right _ _)⟩
  · exact shares_refused hcard.le (by omega) (by omega) hg
  · exact shares_sum hcard.le (by omega) (by omega) hlen

namespace Sample

def aThousand : Spec := ⟨.fixedWindow, 1000, 60 * second, 0⟩

/-- Ten tokens of a thousand are left in window 5, and three edges have asked. -/
def tenLeft : Mem :=
  { Mem.new.setVal (winKey (oneKey.key .fixedWindow) 5) 990 with
    edges := fun _ => [("a", 300400), ("b", 300450), ("c", 300450)] }

def askAs (edge : String) : RangeOrder × GrantArgs := (anyOrder, { askFor 50 with edgeID := edge })

end Sample

open Sample in
theorem endgame_fair_ten_left :
    granted tenLeft 300500 oneKey aThousand (["b", "c", "a"].map askAs) = [4, 2, 2] ∧
      ∀ g ∈ granted tenLeft 300500 oneKey aThousand (["b", "c", "a"].map askAs), 1 ≤ g ∧ g ≤ max 1 (min 50 ⌈(10 : ℚ) / 3⌉) := by
  refine ⟨by decide +kernel, ?_⟩
  have hasks : ∀ x ∈ ["b", "c", "a"].map askAs,
      ∃ inp, Asks tenLeft 300500 oneKey aThousand 50 10 {"a", "b", "c"} x.2 inp := by
    intro x hx
    have hx' : x = askAs "b" ∨ x = askAs "c" ∨ x = askAs "a" := by simpa using hx
    rcases hx' with rfl | rfl | rfl <;>
      exact ⟨prepareOwn oneKey aThousand (askAs _).2, rfl, by decide, by decide +kernel, rfl, by decide, by decide,
        by decide +kernel, by decide +kernel⟩
  exact (endgame_fair (by decide) (by decide) (by decide) (by decide) (by decide) hasks).1 (by decide)

end Gate
