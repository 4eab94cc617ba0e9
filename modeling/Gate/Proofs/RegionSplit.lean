import Gate.Sanity.Regions

/-! How a quota is split between the regions of a map. The floors' rounding losses go to one
region, the subject's home, so the allocations sum to the quota; and the home is the region of
the highest score, the first by name among several, which another region can only take over. -/

namespace Gate

section Home
variable {score : String → String → ℕ} {subject : String}

/-- The region whose score no other one's exceeds, and the first by name of those that reach it. -/
structure Wins (score : String → String → ℕ) (subject : String) (names : List String) (m : String) : Prop where
  mem : m ∈ names
  best : ∀ a ∈ names, score a subject < score m subject ∨ (score a subject = score m subject ∧ m ≤ a)

theorem Wins.unique {names : List String} {m m' : String} (h : Wins score subject names m)
    (h' : Wins score subject names m') : m = m' := by
  rcases h.best m' h'.mem with h₁ | ⟨h₁, hle⟩
  · rcases h'.best m h.mem with h₂ | ⟨h₂, -⟩ <;> omega
  · rcases h'.best m h.mem with h₂ | ⟨-, hle'⟩
    · omega
    · exact le_antisymm hle hle'

/-- The loop over sorted names, from a region that comes before them. -/
theorem foldl_homeStep (names : List String) (first : String) (hfirst : first ≠ "") (hnames : ∀ a ∈ names, a ≠ "")
    (hsorted : (first :: names).Pairwise (· ≤ ·)) :
    Wins score subject (first :: names)
      (names.foldl (homeStep score subject) (first, score first subject)).1 := by
  -- by induction on the names still to come; the best so far is before all of them
  induction names generalizing first with
  | nil => exact ⟨List.mem_singleton_self _, fun a ha => .inr (by simp [List.mem_singleton.mp ha])⟩
  | cons n names ih =>
    obtain ⟨hle, htail⟩ := List.pairwise_cons.mp hsorted
    obtain ⟨hn, hnames⟩ := List.forall_mem_cons.mp hnames
    rw [List.foldl_cons]
    by_cases hlt : score first subject < score n subject
    · have hstep : homeStep score subject (first, score first subject) n = (n, score n subject) := if_pos (.inr hlt)
      rw [hstep]
      have hw := ih n hn hnames htail
      refine ⟨List.mem_cons_of_mem _ hw.mem, List.forall_mem_cons.mpr ⟨.inl ?_, hw.best⟩⟩
      rcases hw.best n (List.mem_cons_self ..) with h | ⟨h, -⟩ <;> omega
    · have hstep : homeStep score subject (first, score first subject) n = (first, score first subject) :=
        if_neg (by simp [hfirst, hlt])
      rw [hstep]
      have hsub : (first :: names).Sublist (first :: n :: names) := (List.sublist_cons_self n names).cons_cons first
      have hw := ih first hfirst hnames (hsorted.sublist hsub)
      refine ⟨hsub.subset hw.mem, fun a ha => ?_⟩
      rcases List.mem_cons.mp ha with rfl | ha
      · exact hw.best a (List.mem_cons_self ..)
      · rcases List.mem_cons.mp ha with rfl | ha
        · -- a name passed over: the first region's score is no lower, and its name comes before
          rcases hw.best first (List.mem_cons_self ..) with h | ⟨h, hm⟩
          · exact .inl (by omega)
          · rcases (not_lt.mp hlt).lt_or_eq with h' | h'
            · exact .inl (by omega)
            · exact .inr ⟨by omega, hm.trans (hle a (List.mem_cons_self ..))⟩
        · exact hw.best a (List.mem_cons_of_mem _ ha)

theorem home_wins (score : String → String → ℕ) (subject : String) {floors : List (String × ℚ)} (hne : floors ≠ []) (hname : ∀ e ∈ floors, e.1 ≠ "") :
    Wins score subject (floors.map Prod.fst) (home score floors subject) := by
  have hperm : (regionNames floors).Perm (floors.map Prod.fst) := List.perm_insertionSort _ _
  have hsorted : (regionNames floors).Pairwise (· ≤ ·) := List.pairwise_insertionSort _ _
  have hnames : ∀ a ∈ regionNames floors, a ≠ "" := by
    intro a ha
    obtain ⟨e, he, rfl⟩ := List.mem_map.mp (hperm.mem_iff.mp ha)
    exact hname e he
  suffices h : Wins score subject (regionNames floors) (home score floors subject) from
    ⟨hperm.mem_iff.mp h.mem, fun a ha => h.best a (hperm.mem_iff.mpr ha)⟩
  unfold home
  cases hl : regionNames floors with
  | nil =>
    rw [hl] at hperm
    exact absurd (List.map_eq_nil_iff.mp hperm.nil_eq.symm) hne
  | cons first rest =>
    rw [hl] at hsorted hnames
    obtain ⟨hfirst, hrest⟩ := List.forall_mem_cons.mp hnames
    exact foldl_homeStep rest first hfirst hrest hsorted

/-- A region that joins a map takes a subject over, or leaves it where it was. -/
theorem Wins.join {names names' : List String} {r m m' : String} (h : Wins score subject names m)
    (hjoin : names'.Perm (r :: names)) (h' : Wins score subject names' m') : m' = m ∨ m' = r := by
  by_cases hr : m' = r
  · exact .inr hr
  · have hmem := List.mem_of_ne_of_mem hr (hjoin.mem_iff.mp h'.mem)
    exact .inl (Wins.unique ⟨hmem, fun a ha => h'.best a (hjoin.mem_iff.mpr (List.mem_cons_of_mem _ ha))⟩ h)

end Home

/-- One region of a map without repeated names gets what the floors leave. -/
theorem sum_home {names : List String} (hn : names.Nodup) {m : String} (hm : m ∈ names) (rest : ℤ) :
    (names.map fun a => if m = a then rest else 0).sum = rest := by
  induction names with
  | nil => cases hm
  | cons a names ih =>
    obtain ⟨ha, hn⟩ := List.nodup_cons.mp hn
    rw [List.map_cons, List.sum_cons]
    rcases List.mem_cons.mp hm with rfl | hm
    · have hzero : ∀ b ∈ names, (if m = b then rest else 0) = 0 := fun b hb =>
        if_neg fun (h : m = b) => ha (h ▸ hb)
      rw [if_pos rfl, List.map_congr_left hzero]
      simp
    · rw [if_neg fun (h : m = a) => ha (h ▸ hm), ih hn hm, zero_add]

/-- The allocations of a quota are not negative and sum to it, and a region added to the map
leaves a subject's home as it was or becomes it. -/
theorem regional_split (score : String → String → ℕ) (floors : List (String × ℚ)) {q : ℤ} (subject : String) (hq : 0 ≤ q)
    (hne : floors ≠ []) (hn : (floors.map Prod.fst).Nodup) (hname : ∀ e ∈ floors, e.1 ≠ "")
    (hshare : ∀ e ∈ floors, 0 ≤ e.2 ∧ e.2 ≤ 1) (hsum : (floors.map Prod.snd).sum ≤ 1) :
    (∀ region, 0 ≤ regionBase score q floors region subject) ∧
      (floors.map fun e => regionBase score q floors e.1 subject).sum = q ∧
      ∀ r ≠ "", r ∉ floors.map Prod.fst → ∀ floors' : List (String × ℚ),
        (floors'.map Prod.fst).Perm (r :: floors.map Prod.fst) →
          home score floors' subject = home score floors subject ∨ home score floors' subject = r := by
  have hhome := home_wins score subject hne hname
  refine ⟨fun region => ?_, ?_, fun r hr _ floors' hjoin => ?_⟩
  · exact (regionBase_bounds score region subject hq hn (fun e he => (hshare e he).1) hsum).1
  · have hbase : ∀ e ∈ floors, regionBase score q floors e.1 subject = regionFloor q e.2 +
        if home score floors subject = e.1 then q - (floors.map fun e => regionFloor q e.2).sum else 0 := by
      intro e he
      unfold regionBase
      rw [share_of_mem hn he, floor_sum hn]
    rw [List.map_congr_left hbase, List.sum_map_add]
    have hrest := sum_home hn hhome.mem (q - (floors.map fun e => regionFloor q e.2).sum)
    rw [List.map_map] at hrest
    simp only [Function.comp_def] at hrest
    omega
  · have hname' : ∀ e ∈ floors', e.1 ≠ "" := by
      intro e he
      rcases List.mem_cons.mp (hjoin.mem_iff.mp (List.mem_map_of_mem he)) with h | h
      · exact h ▸ hr
      · obtain ⟨d, hd, hde⟩ := List.mem_map.mp h
        exact hde ▸ hname d hd
    have hne' : floors' ≠ [] := by
      rintro rfl
      exact absurd hjoin.nil_eq (List.cons_ne_nil _ _).symm
    exact hhome.join hjoin (home_wins score subject hne' hname')

namespace Sample

/-- Three regions with a floor each, and a third of the quota left for the home. -/
def thirds : List (String × ℚ) := [("eu", 1 / 3), ("us", 1 / 4), ("ap", 1 / 12)]

end Sample

open Sample in
theorem regional_split_thirds :
    (thirds.map fun e => regionBase (fun _ _ => 7) 100 thirds e.1 "key").sum = 100 ∧
      home (fun _ _ => 7) thirds "key" = "ap" ∧
      (home (fun _ _ => 7) (("af", 0) :: thirds) "key" = "ap" ∨ home (fun _ _ => 7) (("af", 0) :: thirds) "key" = "af") := by
  have h := regional_split (fun _ _ => 7) thirds (q := 100) "key" (by decide) (by decide) (by decide) (by decide)
    (by decide +kernel) (by decide +kernel)
  have hap : home (fun _ _ => 7) thirds "key" = "ap" := by decide
  refine ⟨h.2.1, hap, ?_⟩
  rw [← hap]
  exact h.2.2 "af" (by decide) (by decide) (("af", 0) :: thirds) (List.Perm.refl _)

end Gate
