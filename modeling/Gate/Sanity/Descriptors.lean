import Gate.Sanity.Resolve

/-! A descriptor's path names its limit: no key or value has a separator in it, and a level has no
two entries alike, so the hub finds what the decision service matched. -/

namespace Gate.Decide

theorem cut_plain {c : Char} {s : String} (h : c ∉ s.toList) : cut c s = (s, "") := by
  have hall : ∀ x ∈ s.toList, decide (x ≠ c) = true := fun x hx => decide_eq_true fun he => h (he ▸ hx)
  have hspan : s.toList.span (· ≠ c) = (s.toList, []) := by
    rw [List.span_eq_takeWhile_dropWhile, ← List.append_nil s.toList, List.takeWhile_append_of_pos hall,
      List.dropWhile_append_of_pos hall]
    rfl
  unfold cut
  rw [hspan]
  simp

theorem cut_pair {c : Char} {a b : String} (h : c ∉ a.toList) : cut c (a ++ String.singleton c ++ b) = (a, b) := by
  have hl : (a ++ String.singleton c ++ b).toList = a.toList ++ c :: b.toList := by simp
  have hall : ∀ x ∈ a.toList, decide (x ≠ c) = true := fun x hx => decide_eq_true fun he => h (he ▸ hx)
  have hspan : (a.toList ++ c :: b.toList).span (· ≠ c) = (a.toList, c :: b.toList) := by
    rw [List.span_eq_takeWhile_dropWhile, List.takeWhile_append_of_pos hall, List.dropWhile_append_of_pos hall]
    simp
  unfold cut
  rw [hl, hspan]
  simp

theorem split_intercalate {c : Char} {xs : List String} (hne : xs ≠ []) (h : ∀ x ∈ xs, c ∉ x.toList) :
    split c ((String.singleton c).intercalate xs) = xs := by
  have hsplit : ([c].intercalate (xs.map String.toList)).splitOn c = xs.map String.toList := by
    apply List.splitOn_intercalate
    · intro l hl
      obtain ⟨x, hx, rfl⟩ := List.mem_map.mp hl
      exact h x hx
    · simpa using hne
  unfold split
  rw [String.toList_intercalate, String.toList_singleton, hsplit, List.map_map]
  conv_rhs => rw [← List.map_id xs]
  exact List.map_congr_left fun x _ => String.ofList_toList

section
variable {level : List DescriptorEntry} {e : DescriptorEntry}

theorem Level.plain (hl : Level level) (he : e ∈ level) :
    e.key ≠ "" ∧ ∀ c ∈ e.key.toList ++ e.value.toList, c ≠ '/' ∧ c ≠ '=' := by
  obtain ⟨named, -, -, -⟩ := hl
  obtain ⟨hk, hs⟩ := named e he
  refine ⟨hk, fun c hc => ?_⟩
  have := List.any_eq_false.mp hs c (by simpa using hc)
  simpa using this

theorem Level.deeper (hl : Level level) (he : e ∈ level) : Level e.entries := by
  obtain ⟨-, -, -, deeper⟩ := hl
  exact deeper e he

/-- An entry is found under its own key and value. -/
theorem Level.matching (hl : Level level) (he : e ∈ level) : matching level e.key e.value = some e := by
  obtain ⟨-, distinct, -, -⟩ := hl
  obtain ⟨d, hd⟩ : ∃ d, Decide.matching level e.key e.value = some d :=
    Option.isSome_iff_exists.mp (List.find?_isSome.mpr ⟨e, he, by simp⟩)
  obtain ⟨hmem, hk, hv⟩ := matching_mem hd
  rw [hd, List.inj_on_of_nodup_map distinct hmem he (by rw [hk, hv])]

theorem Level.cut_segment (hl : Level level) (he : e ∈ level) : cut '=' (segment e) = (e.key, e.value) := by
  have hkey : '=' ∉ e.key.toList := fun h => ((hl.plain he).2 _ (List.mem_append_left _ h)).2 rfl
  unfold segment
  split_ifs with hv
  · rw [cut_plain hkey, hv]
  · exact cut_pair hkey

theorem Level.segment_ne (hl : Level level) (he : e ∈ level) : segment e ≠ "" := by
  have hkey := (hl.plain he).1
  unfold segment
  split_ifs with hv
  · exact hkey
  · intro h
    have := congrArg String.toList h
    simp at this

theorem Level.slash_segment (hl : Level level) (he : e ∈ level) : '/' ∉ (segment e).toList := by
  have hplain := (hl.plain he).2
  unfold segment
  split_ifs with hv
  · exact fun h => (hplain _ (List.mem_append_left _ h)).1 rfl
  · intro h
    rw [String.toList_append, String.toList_append, List.mem_append, List.mem_append] at h
    rcases h with (h | h) | h
    · exact (hplain _ (List.mem_append_left _ h)).1 rfl
    · exact absurd h (by decide)
    · exact (hplain _ (List.mem_append_right _ h)).1 rfl

theorem descend_mem {x : Entry} {vs : List String} (h : descend level x = some (e, vs)) : e ∈ level := by
  unfold descend at h
  split at h
  · rename_i node hn
    cases h
    exact (matching_mem hn).1
  · obtain ⟨node, hn, heq⟩ := Option.map_eq_some_iff.mp h
    obtain ⟨rfl, -⟩ := Prod.mk.inj heq
    exact (matching_mem hn).1

/-- The way down a tree can be found again from the segments it passed. -/
theorem findPath_walk (hl : Level level) {es : List Entry} {nodes : List DescriptorEntry} {vs : List String}
    (h : walk level es = some (nodes, vs)) :
    findPath level (nodes.map segment) = some nodes.getLast? ∧
      ∀ n ∈ nodes, segment n ≠ "" ∧ '/' ∉ (segment n).toList := by
  induction es generalizing level nodes vs with
  | nil =>
    cases h
    exact ⟨rfl, by simp⟩
  | cons x es ih =>
    obtain ⟨⟨node, v⟩, hdesc, h⟩ := Option.bind_eq_some_iff.mp h
    obtain ⟨⟨rest, vs'⟩, hrest, h⟩ := Option.bind_eq_some_iff.mp h
    cases h
    have hmem := descend_mem hdesc
    obtain ⟨hpath, hsegs⟩ := ih (hl.deeper hmem) hrest
    refine ⟨?_, List.forall_mem_cons.mpr ⟨⟨hl.segment_ne hmem, hl.slash_segment hmem⟩, hsegs⟩⟩
    rw [List.map_cons, findPath, hl.cut_segment hmem, hl.matching hmem]
    simp only [Option.bind_eq_bind, Option.bind_some, hpath]
    cases rest with
    | nil => rfl
    | cons r rest =>
      rw [List.getLast?_cons_cons]
      cases hlast : (r :: rest).getLast? with
      | none => simp at hlast
      | some last => rfl

end

/-- The hub finds the limit that a descriptor was matched to. -/
theorem find_of_resolve {digest : String → String} {cfg : GatewayConfig} {domain : String} {es : List Entry}
    {m : Match} (hl : ∀ d, findDomain cfg domain = some d → Level d.entries)
    (h : resolve digest cfg domain es = some m) : find cfg domain m.limitID = some m.spec := by
  obtain ⟨d, hd, h⟩ := Option.bind_eq_some_iff.mp h
  obtain ⟨⟨nodes, vs⟩, hwalk, h⟩ := Option.bind_eq_some_iff.mp h
  obtain ⟨last, hlast, h⟩ := Option.bind_eq_some_iff.mp h
  obtain ⟨spec, hspec, h⟩ := Option.bind_eq_some_iff.mp h
  cases h
  obtain ⟨hpath, hsegs⟩ := findPath_walk (hl d hd) hwalk
  have hne : nodes ≠ [] := by
    rintro rfl
    cases hlast
  have hsplit : split '/' ("/".intercalate (nodes.map segment)) = nodes.map segment := by
    apply split_intercalate
    · simpa using hne
    · intro x hx
      obtain ⟨n, hn, rfl⟩ := List.mem_map.mp hx
      exact (hsegs n hn).2
  refine find_eq_some.mpr ⟨d, last, hd, fun hempty => ?_, by rw [hsplit, hpath, hlast], hspec⟩
  -- an empty path would be one empty segment
  change "/".intercalate (nodes.map segment) = "" at hempty
  rw [hempty] at hsplit
  have hmem : "" ∈ nodes.map segment := by
    rw [← hsplit]
    decide
  obtain ⟨n, hn, hseg⟩ := List.mem_map.mp hmem
  exact (hsegs n hn).1 hseg

end Gate.Decide
