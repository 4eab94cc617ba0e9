import Gate.Sanity.Descriptors
import Gate.Proofs.Loads

/-! Descriptors and their counters. A limit's ID is the way to it in the tree, so the hub finds the
limit that was matched and no two nodes share an ID. The subject is the open values, but an empty
one is left out and the rest are joined with a character that they may contain. -/

namespace Gate.Decide

section
variable {level : List DescriptorEntry} {e e' : Entry} {n n' : DescriptorEntry} {v v' : List String}

theorem matching_eq_getElem? (level : List DescriptorEntry) (key value : String) :
    matching level key value = level[level.findIdx fun n => n.key = key ∧ n.value = value]? :=
  List.find?_eq_getElem?_findIdx

theorem getElem?_descendAt (h : descend level e = some (n, v)) : level[descendAt level e]? = some n := by
  unfold descend at h
  unfold descendAt
  rw [matching_eq_getElem?, matching_eq_getElem?] at h
  dsimp only
  split at h
  · rename_i node hn
    cases h
    have hlt := (List.getElem?_eq_some_iff.mp hn).1
    rw [if_pos hlt]
    exact hn
  · rename_i hn
    obtain ⟨node, hn', h⟩ := Option.map_eq_some_iff.mp h
    cases h
    rw [if_neg (not_lt.mpr (List.getElem?_eq_none_iff.mp hn))]
    exact hn'

/-- Two ways on that are written alike are the same. -/
theorem descend_inj (hl : Level level) (h : descend level e = some (n, v)) (h' : descend level e' = some (n', v'))
    (hseg : segment n = segment n') : n = n' ∧ descendAt level e = descendAt level e' := by
  have hmem := descend_mem h
  have hmem' := descend_mem h'
  have hkv : (n.key, n.value) = (n'.key, n'.value) := by rw [← hl.cut_segment hmem, ← hl.cut_segment hmem', hseg]
  obtain ⟨hk, hv⟩ := Prod.mk.inj hkv
  have hnode : some n = some n' := by rw [← hl.matching hmem, ← hl.matching hmem', hk, hv]
  refine ⟨Option.some.inj hnode, ?_⟩
  obtain ⟨hi, hn⟩ := List.getElem?_eq_some_iff.mp (getElem?_descendAt h)
  obtain ⟨hi', hn'⟩ := List.getElem?_eq_some_iff.mp (getElem?_descendAt h')
  obtain ⟨-, distinct, -, -⟩ := hl
  apply distinct.getElem_inj_iff.mp
  · rw [List.getElem_map, List.getElem_map, hn, hn', hkv]
    · simpa using hi'
    · simpa using hi

/-- Two descriptors whose paths are written alike are matched to one node. -/
theorem walk_inj (hl : Level level) {es es' : List Entry} {nodes nodes' : List DescriptorEntry} {vs vs' : List String}
    (h : walk level es = some (nodes, vs)) (h' : walk level es' = some (nodes', vs'))
    (hseg : nodes.map segment = nodes'.map segment) : nodes = nodes' ∧ position level es = position level es' := by
  induction es generalizing level es' nodes nodes' vs vs' with
  | nil =>
    cases h
    cases es' with
    | nil =>
      cases h'
      exact ⟨rfl, rfl⟩
    | cons x' es' =>
      obtain ⟨⟨node', v'⟩, -, h'⟩ := Option.bind_eq_some_iff.mp h'
      obtain ⟨⟨rest', vs''⟩, -, h'⟩ := Option.bind_eq_some_iff.mp h'
      cases h'
      cases hseg
  | cons x es ih =>
    obtain ⟨⟨node, v⟩, hdesc, h⟩ := Option.bind_eq_some_iff.mp h
    obtain ⟨⟨rest, vs₁⟩, hrest, h⟩ := Option.bind_eq_some_iff.mp h
    cases h
    cases es' with
    | nil =>
      cases h'
      cases hseg
    | cons x' es' =>
      obtain ⟨⟨node', v'⟩, hdesc', h'⟩ := Option.bind_eq_some_iff.mp h'
      obtain ⟨⟨rest', vs₁'⟩, hrest', h'⟩ := Option.bind_eq_some_iff.mp h'
      cases h'
      rw [List.map_cons, List.map_cons, List.cons.injEq] at hseg
      obtain ⟨rfl, hat⟩ := descend_inj hl hdesc hdesc' hseg.1
      obtain ⟨hnodes, hpos⟩ := ih (hl.deeper (descend_mem hdesc)) hrest hrest' hseg.2
      refine ⟨by rw [hnodes], ?_⟩
      rw [position, position, getElem?_descendAt hdesc, getElem?_descendAt hdesc', hat]
      simp only [Option.bind_eq_bind, Option.bind_some, hpos]

/-- The walk records the open values, but for empty ones: those are found as configured values. -/
theorem walk_values {es : List Entry} {nodes : List DescriptorEntry} {vs : List String}
    (h : walk level es = some (nodes, vs)) :
    vs = (((nodes.zip es).filter fun x => x.1.value = "").map fun x => x.2.value).filter (· ≠ "") := by
  induction es generalizing level nodes vs with
  | nil =>
    cases h
    rfl
  | cons x es ih =>
    obtain ⟨⟨node, v⟩, hdesc, h⟩ := Option.bind_eq_some_iff.mp h
    obtain ⟨⟨rest, vs₁⟩, hrest, h⟩ := Option.bind_eq_some_iff.mp h
    cases h
    rw [List.zip_cons_cons, ih hrest]
    unfold descend at hdesc
    split at hdesc
    · rename_i hn
      cases hdesc
      obtain ⟨-, -, hv⟩ := matching_mem hn
      by_cases hx : x.value = "" <;> simp [hv, hx]
    · rename_i hnone
      obtain ⟨n, hn, heq⟩ := Option.map_eq_some_iff.mp hdesc
      cases heq
      obtain ⟨-, -, hv⟩ := matching_mem hn
      have hx : x.value ≠ "" := by
        intro hx
        rw [hx, hn] at hnone
        cases hnone
      simp [hv, hx]

end

/-- What a match stands for. -/
theorem resolve_walk {digest : String → String} {cfg : GatewayConfig} {domain : String} {es : List Entry} {m : Match}
    (h : resolve digest cfg domain es = some m) : ∃ d nodes vs, findDomain cfg domain = some d ∧
      walk d.entries es = some (nodes, vs) ∧ nodes ≠ [] ∧ m.limitID = "/".intercalate (nodes.map segment) ∧
      m.subject = subject digest vs := by
  obtain ⟨d, hd, h⟩ := Option.bind_eq_some_iff.mp h
  obtain ⟨⟨nodes, vs⟩, hwalk, h⟩ := Option.bind_eq_some_iff.mp h
  obtain ⟨last, hlast, h⟩ := Option.bind_eq_some_iff.mp h
  obtain ⟨spec, -, h⟩ := Option.bind_eq_some_iff.mp h
  cases h
  refine ⟨d, nodes, vs, hd, hwalk, ?_, rfl, rfl⟩
  rintro rfl
  cases hlast

/-- A limit's ID leads back to the segments it was made of. -/
theorem segments_inj {level : List DescriptorEntry} (hl : Level level) {es es' : List Entry}
    {nodes nodes' : List DescriptorEntry} {vs vs' : List String} (h : walk level es = some (nodes, vs))
    (h' : walk level es' = some (nodes', vs')) (hne : nodes ≠ []) (hne' : nodes' ≠ [])
    (hid : "/".intercalate (nodes.map segment) = "/".intercalate (nodes'.map segment)) :
    nodes.map segment = nodes'.map segment := by
  have hplain : ∀ {ns : List DescriptorEntry}, (∀ n ∈ ns, segment n ≠ "" ∧ '/' ∉ (segment n).toList) →
      ∀ s ∈ ns.map segment, '/' ∉ s.toList := by
    intro ns hns s hs
    obtain ⟨n, hn, rfl⟩ := List.mem_map.mp hs
    exact (hns n hn).2
  rw [← split_intercalate (by simpa using hne) (hplain (findPath_walk hl h).2),
    ← split_intercalate (by simpa using hne') (hplain (findPath_walk hl h').2)]
  exact congrArg (split '/') hid

end Gate.Decide

namespace Gate.Config

open Decide

section
variable {lib : Library} {f : File}

/-- Descriptors of one domain with the same limit ID are matched to one node. -/
theorem matched_of_limitID (h : Accepted lib f) {digest : String → String} {domain : String} {es es' : List Decide.Entry}
    {m m' : Decide.Match} (hm : Decide.resolve digest (compile f).limiting domain es = some m)
    (hm' : Decide.resolve digest (compile f).limiting domain es' = some m') (hid : m.limitID = m'.limitID) :
    ∃ d nodes vs vs', findDomain (compile f).limiting domain = some d ∧ walk d.entries es = some (nodes, vs) ∧
      walk d.entries es' = some (nodes, vs') ∧ m.subject = subject digest vs ∧ m'.subject = subject digest vs' ∧
      position d.entries es = position d.entries es' := by
  obtain ⟨d, nodes, vs, hd, hwalk, hne, hid₁, hsub⟩ := resolve_walk hm
  obtain ⟨d', nodes', vs', hd', hwalk', hne', hid₂, hsub'⟩ := resolve_walk hm'
  obtain rfl : d = d' := Option.some.inj (hd.symm.trans hd')
  have hl := findDomain_compile h.sound hd
  have hseg := segments_inj hl hwalk hwalk' hne hne' (by rw [← hid₁, ← hid₂, hid])
  obtain ⟨rfl, hpos⟩ := walk_inj hl hwalk hwalk' hseg
  exact ⟨d, nodes, vs, vs', hd, hwalk, hwalk', hsub, hsub', hpos⟩

/-- The hub finds the limit a descriptor was matched to, and different nodes have different IDs. -/
theorem descriptor_limits_found (h : Accepted lib f) {digest : String → String} {domain : String} {es : List Decide.Entry}
    {m : Decide.Match} (hm : Decide.resolve digest (compile f).limiting domain es = some m) :
    Decide.find (compile f).limiting domain m.limitID = some m.spec ∧
      ∀ es' m', Decide.resolve digest (compile f).limiting domain es' = some m' →
        matchedAt (compile f).limiting domain es ≠ matchedAt (compile f).limiting domain es' →
          m.limitID ≠ m'.limitID := by
  refine ⟨find_of_resolve (fun d hd => findDomain_compile h.sound hd) hm, fun es' m' hm' hne hid => hne ?_⟩
  obtain ⟨d, nodes, vs, vs', hd, -, -, -, -, hpos⟩ := matched_of_limitID h hm hm' hid
  unfold matchedAt
  simp only [hd, Option.bind_eq_bind, Option.bind_some, hpos]

end

/-- Ten orders of an item a minute for each user and item, and five for one user. -/
def perItemFile : File :=
  { ordersFile { requests := 100 } with descriptors := [⟨"checkout", [
      .mk "user" "" none "" [.mk "item" "" (some ⟨.unset, 10, 60 * second, 0, 0⟩) "" []],
      .mk "user" "guest" (some ⟨.unset, 5, 60 * second, 0, 0⟩) "" []]⟩] }

def userItem (user item : String) : List Decide.Entry := [⟨"user", user⟩, ⟨"item", item⟩]

/-- The match of a user's order of an item. -/
def perItemMatch (user item : String) : Decide.Match :=
  ⟨"user/item", subject id ([user, item].filter (· ≠ "")), ⟨"item", .unset, 10, 60 * second, 0, false⟩⟩

theorem descriptor_limits_found_per_item :
    Decide.find (compile perItemFile).limiting "checkout" "user/item" = some (perItemMatch "u" "i").spec ∧
      "user/item" ≠ "user=guest" := by
  have hacc : Accepted plainLibrary perItemFile := by decide +kernel
  have hm : Decide.resolve id (compile perItemFile).limiting "checkout" (userItem "u" "i") = some (perItemMatch "u" "i") := by
    with_unfolding_all rfl
  have hfound := descriptor_limits_found hacc hm
  refine ⟨hfound.1, hfound.2 [⟨"user", "guest"⟩] ⟨"user=guest", "_all", ⟨"user", .unset, 5, 60 * second, 0, false⟩⟩ ?_ ?_⟩
  · with_unfolding_all rfl
  · decide +kernel

end Gate.Config

namespace Gate.Decide

/-- The text whose digest is the subject: the open values that are not empty. -/
def recorded (vs : List String) : String := "\x00".intercalate (vs.filter (· ≠ ""))

theorem recorded_eq_empty {vs : List String} : recorded vs = "" ↔ vs.filter (· ≠ "") = [] := by
  unfold recorded
  constructor
  · intro h
    cases hl : vs.filter (· ≠ "") with
    | nil => rfl
    | cons v rest =>
      have hv : v ≠ "" := by
        have hmem : v ∈ vs.filter (· ≠ "") := hl ▸ List.mem_cons_self ..
        simpa using (List.mem_filter.mp hmem).2
      rw [hl] at h
      cases rest with
      | nil => exact absurd (by simpa using h) hv
      | cons w rest =>
        rw [String.intercalate_cons_cons] at h
        have := congrArg String.toList h
        simp at this
  · intro h
    rw [h]
    rfl

/-- With a digest that tells texts apart, subjects are equal exactly when the recorded texts are. -/
theorem subject_eq_iff {digest : String → String} (hd : Function.Injective digest) (vs vs' : List String) :
    subject digest (vs.filter (· ≠ "")) = subject digest (vs'.filter (· ≠ "")) ↔ recorded vs = recorded vs' := by
  have hall : ∀ t : String, "v" ++ t ≠ "_all" := by
    intro t ht
    have := congrArg String.toList ht
    simp at this
  have hv : ∀ s t : String, "v" ++ digest s = "v" ++ digest t ↔ s = t := by
    intro s t
    rw [String.append_right_inj]
    exact hd.eq_iff
  unfold subject
  by_cases h : vs.filter (· ≠ "") = []
  · rw [if_pos h, recorded_eq_empty.mpr h]
    by_cases h' : vs'.filter (· ≠ "") = []
    · rw [if_pos h', recorded_eq_empty.mpr h']
      exact ⟨fun _ => rfl, fun _ => rfl⟩
    · rw [if_neg h', eq_comm (b := recorded vs'), recorded_eq_empty]
      exact ⟨fun he => absurd he.symm (hall _), fun he => absurd he h'⟩
  · rw [if_neg h]
    by_cases h' : vs'.filter (· ≠ "") = []
    · rw [if_pos h', recorded_eq_empty.mpr h', recorded_eq_empty]
      exact ⟨fun he => absurd he (hall _), fun he => absurd he h⟩
    · rw [if_neg h']
      exact hv _ _

/-- Values that are not empty and have no separator in them are told apart. -/
theorem recorded_inj {vs vs' : List String} (h : ∀ v ∈ vs, v ≠ "" ∧ '\x00' ∉ v.toList)
    (h' : ∀ v ∈ vs', v ≠ "" ∧ '\x00' ∉ v.toList) (he : recorded vs = recorded vs') : vs = vs' := by
  have hkeep : ∀ {ws : List String}, (∀ v ∈ ws, v ≠ "" ∧ '\x00' ∉ v.toList) → ws.filter (· ≠ "") = ws := fun hw =>
    List.filter_eq_self.mpr fun v hv => by simpa using (hw v hv).1
  have hnil : ∀ {ws : List String}, (∀ v ∈ ws, v ≠ "" ∧ '\x00' ∉ v.toList) → recorded ws = "" → ws = [] := fun hw hr =>
    hkeep hw ▸ recorded_eq_empty.mp hr
  by_cases hne : vs = []
  · rw [hne, hnil h' (by rw [← he, hne]; rfl)]
  by_cases hne' : vs' = []
  · exact absurd (hnil h (by rw [he, hne']; rfl)) hne
  unfold recorded at he
  rw [hkeep h, hkeep h'] at he
  rw [← split_intercalate hne fun v hv => (h v hv).2, ← split_intercalate hne' fun v hv => (h' v hv).2]
  exact congrArg (split '\x00') he

end Gate.Decide

namespace Gate.Config

open Decide

/-- Two descriptors with the same limit ID share a counter exactly when they agree on the open values,
unless the values differ and the recorded texts do not. -/
theorem one_counter_iff {lib : Library} {f : File} (h : Accepted lib f) {digest : String → String}
    (hd : Function.Injective digest) {domain : String} {es es' : List Decide.Entry} {m m' : Decide.Match} {vs vs' : List String}
    (hm : Decide.resolve digest (compile f).limiting domain es = some m)
    (hm' : Decide.resolve digest (compile f).limiting domain es' = some m') (hid : m.limitID = m'.limitID)
    (hv : openValues (compile f).limiting domain es = some vs) (hv' : openValues (compile f).limiting domain es' = some vs') :
    (m.subject = m'.subject ↔ vs = vs') ↔ (Decide.recorded vs = Decide.recorded vs' → vs = vs') := by
  obtain ⟨d, nodes, ws, ws', hdom, hwalk, hwalk', hsub, hsub', -⟩ := matched_of_limitID h hm hm' hid
  unfold openValues at hv hv'
  simp only [hdom, hwalk, hwalk', Option.bind_eq_bind, Option.bind_some, Option.pure_def, Option.some.injEq] at hv hv'
  rw [hsub, hsub', walk_values hwalk, walk_values hwalk', hv, hv', subject_eq_iff hd]
  exact ⟨fun hiff => hiff.mp, fun himp => ⟨himp, fun heq => by rw [heq]⟩⟩

/-- An empty value is not recorded, and a separator in a value is read as one: in both pairs the
descriptors differ at each open entry and share a counter. -/
theorem open_values_collide :
    Accepted plainLibrary perItemFile ∧
      ∀ p ∈ [(("", "x"), ("x", "")), (("a\x00b", "c"), ("a", "b\x00c"))], ∃ m m' : Decide.Match,
        Decide.resolve id (compile perItemFile).limiting "checkout" (userItem p.1.1 p.1.2) = some m ∧
        Decide.resolve id (compile perItemFile).limiting "checkout" (userItem p.2.1 p.2.2) = some m' ∧
        m.limitID = m'.limitID ∧ m.subject = m'.subject ∧
        openValues (compile perItemFile).limiting "checkout" (userItem p.1.1 p.1.2) = some [p.1.1, p.1.2] ∧
        openValues (compile perItemFile).limiting "checkout" (userItem p.2.1 p.2.2) = some [p.2.1, p.2.2] ∧
        [p.1.1, p.1.2] ≠ [p.2.1, p.2.2] := by
  refine ⟨by decide +kernel, fun p hp => ?_⟩
  rcases List.mem_pair.mp hp with rfl | rfl
  · exact ⟨perItemMatch "" "x", perItemMatch "x" "", by with_unfolding_all rfl, by with_unfolding_all rfl, rfl,
      by decide, by decide +kernel, by decide +kernel, by decide⟩
  · exact ⟨perItemMatch "a\x00b" "c", perItemMatch "a" "b\x00c", by with_unfolding_all rfl, by with_unfolding_all rfl, rfl,
      by decide, by decide +kernel, by decide +kernel, by decide⟩

theorem one_counter_per_item : (perItemMatch "u" "i").subject = (perItemMatch "u" "j").subject ↔ ["u", "i"] = ["u", "j"] := by
  have hacc : Accepted plainLibrary perItemFile := by decide +kernel
  have hiff := one_counter_iff hacc Function.injective_id
    (by with_unfolding_all rfl : Decide.resolve id _ "checkout" (userItem "u" "i") = some (perItemMatch "u" "i"))
    (by with_unfolding_all rfl : Decide.resolve id _ "checkout" (userItem "u" "j") = some (perItemMatch "u" "j")) rfl
    (by decide +kernel : _ = some ["u", "i"]) (by decide +kernel : _ = some ["u", "j"])
  exact hiff.mpr (Decide.recorded_inj (by decide) (by decide))

end Gate.Config
