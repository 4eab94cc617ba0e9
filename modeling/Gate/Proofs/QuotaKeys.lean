import Gate.Lib.Fields
import Gate.Proofs.ValidSpecs
import Gate.Spec.Touched

/-! Which quotas share ledger keys. A quota's keys all continue its base key, with fields that have
no underscore in them; the exception is a dedupe key, where free text follows `:ret:`. -/

namespace Gate

open Fields

/-- A dedupe key of `b`. -/
def Continues (a b : String) : Prop := ∃ x, a = retKey b x

/-- What makes two items share keys they should not. -/
def Clash (i j : Item) : Prop :=
  i.base = j.base ∨ Continues i.base j.base ∨ Continues j.base i.base ∨
    (i.ref.parent ≠ "" ∧ (i.orgBase = j.base ∨ Continues i.orgBase j.base)) ∨
    (j.ref.parent ≠ "" ∧ (j.orgBase = i.base ∨ Continues j.orgBase i.base))

/-! ### Keys that continue a base key -/

theorem Stem.marked {a : String} (h : Stem a) (hn : a ≠ "") : Marked ':' '_' a.toList := by
  rcases h with h | ⟨b, s, rfl, hc, hu⟩
  · exact absurd h hn
  · exact ⟨b.toList, s.toList, by simp, hc, hu⟩

theorem marked_base {i : Item} (h : i.Grounded) : Marked ':' '_' i.base.toList := by
  have hv := (Spec.validate_ok.mp h.spec).1
  refine (key_stem i.ref hv).marked fun he => ?_
  have := congrArg String.length he
  rw [Ref.key] at this
  simp at this

theorem marked_orgBase (i : Item) : Marked ':' '_' i.orgBase.toList :=
  (parentKey_stem i.ref).marked (parentKey_ne_empty i.ref .fixedWindow)

/-- What follows the base key in a key of the quota. -/
inductive Suffix : String → Prop where
  | plain (s : String) (hs : s = "" ∨ ∃ t, s = ":" ++ t) (h : '_' ∉ s.toList) : Suffix s
  | ret (d : String) : Suffix (":ret:" ++ d)

theorem Suffix.cons {s : String} (h : Suffix s) : s.toList = [] ∨ ∃ t, s.toList = ':' :: t := by
  rcases h with ⟨s, rfl | ⟨t, rfl⟩, -⟩ | ⟨d⟩
  · exact .inl rfl
  · exact .inr ⟨t.toList, by simp⟩
  · exact .inr ⟨"ret:".toList ++ d.toList, by rw [String.toList_append]; rfl⟩

theorem Suffix.continues {a b s : String} {u : List Char} (h : Suffix s) (hu : u <+: s.toList) (hm : '_' ∈ u)
    (hb : b.toList = a.toList ++ u) : (∃ d, s = ":ret:" ++ d) ∧ Continues b a := by
  rcases h with ⟨s, -, hn⟩ | ⟨d⟩
  · exact absurd (hu.subset hm) hn
  · rw [String.toList_append] at hu
    obtain ⟨x, rfl⟩ := continues_of_prefix hu (by decide) hm
    refine ⟨⟨d, rfl⟩, String.ofList x, String.toList_inj.mp ?_⟩
    have hx : (String.ofList x).toList = x := String.toList_ofList
    rw [hb, retKey, String.toList_append, String.toList_append, hx, List.append_assoc]

/-- Where keys of two quotas meet. -/
theorem meet {a b s t : String} (ha : Marked ':' '_' a.toList) (hb : Marked ':' '_' b.toList) (hs : Suffix s)
    (ht : Suffix t) (h : a ++ s = b ++ t) :
    a = b ∨ ((∃ d, s = ":ret:" ++ d) ∧ Continues b a) ∨ ((∃ d, t = ":ret:" ++ d) ∧ Continues a b) := by
  have hl : a.toList ++ s.toList = b.toList ++ t.toList := by
    rw [← String.toList_append, h, String.toList_append]
  rcases ha.append_eq hb hs.cons ht.cons hl with h | ⟨u, hu, hp, hm⟩ | ⟨u, hu, hp, hm⟩
  · exact .inl (String.toList_inj.mp h)
  · exact .inr (.inl (hs.continues hp hm hu))
  · exact .inr (.inr (ht.continues hp hm hu))

theorem suffix_int (w : ℤ) : Suffix (":" ++ toString w) := by
  refine .plain _ (.inr ⟨_, rfl⟩) ?_
  rw [String.toList_append, List.mem_append, not_or]
  exact ⟨by decide, (word_int w).2⟩

theorem touches_cases {i : Item} {key : String} (h : Touches i key) :
    (∃ s, Suffix s ∧ key = i.base ++ s) ∨ (i.ref.parent ≠ "" ∧ ∃ w, key = winKey i.orgBase w) := by
  cases h with
  | bucket h => exact .inl ⟨"", .plain _ (.inl rfl) (by decide), (String.append_empty).symm⟩
  | window h w => exact .inl ⟨_, suffix_int w, String.append_assoc ..⟩
  | alloc h w =>
    refine .inl ⟨":alloc:" ++ toString w, .plain _ (.inr ⟨"alloc:" ++ toString w, ?_⟩) ?_, String.append_assoc ..⟩
    · rw [← String.append_assoc]
      rfl
    · rw [String.toList_append, List.mem_append, not_or]
      exact ⟨by decide, (word_int w).2⟩
  | edges => exact .inl ⟨":edges", .plain _ (.inr ⟨"edges", by decide⟩) (by decide), rfl⟩
  | ret cn r h => exact .inl ⟨_, .ret _, String.append_assoc ..⟩
  | parent h hp w => exact .inr ⟨h, w, rfl⟩

/-! ### What the hub resolves -/

/-- An item of a checked config. -/
structure Item.Drawn (i : Item) : Prop where
  grounded : i.Grounded
  scope : ':' ∉ i.ref.scope.toList
  gateway : i.ref.scope ≠ Decide.scope → ':' ∉ i.ref.service.toList ∧ ':' ∉ i.ref.limit.toList
  descriptor : i.ref.scope = Decide.scope → i.ref.limit ≠ ""
  nested : i.ref.parent ≠ "" → i.ref.scope ≠ Decide.scope ∧ i.ref.limit = "" ∧ ':' ∉ i.ref.parent.toList

/-- The fields of a key. -/
def fieldsOf (s : String) : List (List Char) := s.toList.splitOn ':'

theorem fieldsOf_snoc (a b : String) : fieldsOf (a ++ ":" ++ b) = fieldsOf a ++ fieldsOf b := by
  unfold fieldsOf
  rw [← splitOn_snoc]
  congr 1
  simp

theorem fieldsOf_plain {s : String} (h : ':' ∉ s.toList) : fieldsOf s = [s.toList] := splitOn_plain h

theorem fieldsOf_ne_nil (s : String) : fieldsOf s ≠ [] := splitOn_ne_nil _

theorem notMem_append {a b : String} (ha : ':' ∉ a.toList) (hb : ':' ∉ b.toList) : ':' ∉ (a ++ b).toList := by
  rw [String.toList_append, List.mem_append, not_or]
  exact ⟨ha, hb⟩

/-- The name of the limit in a key. -/
def Ref.name (r : Ref) : String := if r.limit = "" then "tier" else r.limit

theorem Ref.key_plain {r : Ref} (h : r.parent = "") (algo : Algo) :
    r.key algo = "gate" ++ ":" ++ ("\x7b" ++ r.scope) ++ ":" ++ r.service ++ ":" ++ (r.subject ++ "\x7d") ++ ":" ++ r.name ++
      ":" ++ algo.or.text := by
  unfold Ref.key Ref.name
  rw [h, show "gate:\x7b" = "gate" ++ ":" ++ "\x7b" by decide, show "\x7d:" = "\x7d" ++ ":" by decide]
  simp only [ne_eq, not_true_eq_false, if_false, String.append_assoc, String.empty_append]

theorem Ref.key_nested {r : Ref} (h : r.parent ≠ "") (algo : Algo) :
    r.key algo = "gate" ++ ":" ++ ("\x7b" ++ r.scope) ++ ":" ++ r.service ++ ":" ++ "org" ++ ":" ++ (r.parent ++ "\x7d") ++ ":" ++
      r.name ++ ":" ++ r.subject ++ ":" ++ algo.or.text := by
  unfold Ref.key Ref.name
  rw [show "gate:\x7b" = "gate" ++ ":" ++ "\x7b" by decide, show "\x7d:" = "\x7d" ++ ":" by decide,
    show "org:" = "org" ++ ":" by decide]
  simp only [ne_eq, h, not_false_eq_true, if_true, String.append_assoc]

theorem Ref.parentKey_fields (r : Ref) (algo : Algo) :
    r.parentKey algo = "gate" ++ ":" ++ ("\x7b" ++ r.scope) ++ ":" ++ r.service ++ ":" ++ "org" ++ ":" ++ (r.parent ++ "\x7d") ++
      ":" ++ "org" ++ ":" ++ algo.or.text := by
  unfold Ref.parentKey
  rw [show "gate:\x7b" = "gate" ++ ":" ++ "\x7b" by decide, show "\x7d:org:" = "\x7d" ++ ":" ++ "org" ++ ":" by decide,
    show ":org:" = ":" ++ "org" ++ ":" by decide]
  simp only [String.append_assoc]

theorem Item.Drawn.fields_orgBase {i : Item} (h : i.Drawn) (hn : i.ref.parent ≠ "") :
    fieldsOf i.orgBase = ["gate".toList, ("\x7b" ++ i.ref.scope).toList, i.ref.service.toList, "org".toList,
      (i.ref.parent ++ "\x7d").toList, "org".toList, "fixed_window".toList] := by
  obtain ⟨hs, -, hp⟩ := h.nested hn
  rw [Item.orgBase, Ref.parentKey_fields]
  simp only [fieldsOf_snoc]
  rw [fieldsOf_plain (notMem_append (by decide) h.scope), fieldsOf_plain (h.gateway hs).1,
    fieldsOf_plain (notMem_append hp (by decide))]
  rfl

/-- Two tiers' items inside budgets with one key are inside one budget. -/
theorem sharedOrg_of_orgBase {i j : Item} (hi : i.Drawn) (hj : j.Drawn) (hn : i.ref.parent ≠ "") (hn' : j.ref.parent ≠ "")
    (h : i.orgBase = j.orgBase) : SharedOrg i j := by
  have hf := hi.fields_orgBase hn
  rw [h, hj.fields_orgBase hn'] at hf
  simp only [List.cons.injEq, and_true, true_and, String.toList_inj, String.toList_append, List.append_cancel_left_eq,
    List.append_cancel_right_eq] at hf
  exact ⟨hn, hf.2.2.symm, hf.1.symm, hf.2.1.symm⟩

theorem orgBase_of_shared {i j : Item} (h : SharedOrg i j) : i.orgBase = j.orgBase := by
  unfold Item.orgBase Ref.parentKey
  rw [h.scope, h.service, h.parent]

section
variable {i j : Item}

theorem touches_ret (j : Item) (x y : String) (hy : y ≠ "") : Touches j (retKey j.base (x ++ ":" ++ y)) := by
  have h := @Touches.ret j "" ⟨x, y, []⟩ hy
  have hid : edgeIdentity "" x = x := by
    unfold edgeIdentity
    split_ifs with hx h
    · exact hx.symm
    · exact absurd rfl h
    · rfl
  rwa [returnDedupe, if_neg hy, hid] at h

theorem edgesKey_ne_winKey (a b : String) (w : ℤ) : edgesKey a ≠ winKey b w := by
  intro h
  have he : edgesKey a = a ++ ":" ++ "edges" := by
    rw [edgesKey, String.append_assoc]
    rfl
  rw [he] at h
  obtain ⟨-, hw⟩ := snoc_colon_inj (by decide) (colon_notMem_int w) h
  have hd : 'e' ∈ (toString w).toList := hw ▸ by decide
  rcases digits_of_mem_int hd with hd | hd
  · exact absurd hd (by decide)
  · exact absurd hd (by decide)

theorem not_apart_of_edges {a : String} (hi : Touches i (edgesKey a)) (hj : Touches j (edgesKey a)) : ¬ KeysApart i j := by
  intro h
  obtain ⟨-, w, hw⟩ := (h _).mp ⟨hi, hj⟩
  exact edgesKey_ne_winKey _ _ _ hw

theorem touches_edges_of_continues (h : Continues i.base j.base) : Touches j (edgesKey i.base) := by
  obtain ⟨x, hx⟩ := h
  have := touches_ret j x "edges" (by decide)
  rwa [show retKey j.base (x ++ ":" ++ "edges") = edgesKey i.base by
    rw [hx, edgesKey, retKey, retKey, show ":edges" = ":" ++ "edges" by decide]
    simp only [String.append_assoc]] at this

/-- A budget's counter that is a key of a tier inside it would have to be one of another. -/
theorem not_apart_of_org (hi : i.Drawn) (hj : j.Drawn) (hn : i.ref.parent ≠ "")
    (h : i.orgBase = j.base ∨ Continues i.orgBase j.base) : ¬ KeysApart i j ∧ ¬ KeysApart j i := by
  have hkey : Touches j (winKey i.orgBase 0) := by
    rcases h with h | ⟨x, hx⟩
    · have hb : j.spec.algo.or ≠ .tokenBucket := by
        intro hb
        rw [Item.orgBase, Ref.parentKey_fields, Item.base, Ref.key, hb] at h
        exact absurd (snoc_colon_inj (by decide) (by decide) h).2 (by decide)
      rw [h]
      exact .window hb 0
    · have := touches_ret j x "0" (by decide)
      rwa [show retKey j.base (x ++ ":" ++ "0") = winKey i.orgBase 0 by
        rw [hx, winKey, retKey, retKey, show toString (0 : ℤ) = "0" by decide]
        simp only [String.append_assoc]] at this
  have horg : Touches i (winKey i.orgBase 0) := .parent hn (hi.grounded.nested hn) 0
  have hne : ¬ SharedOrg i j := by
    intro hs
    have hn' : j.ref.parent ≠ "" := hs.parent ▸ hs.nested
    obtain ⟨-, hl, -⟩ := hj.nested hn'
    rw [orgBase_of_shared hs] at h
    rcases h with h | ⟨x, hx⟩
    · exact tierKey_ne_parentKey hl hn' _ _ h.symm
    · refine tierKey_append_ne_parentKey hl hn' j.spec.algo .fixedWindow (":ret:" ++ x) ?_
      rw [← String.append_assoc]
      exact hx.symm
  refine ⟨fun ha => hne ((ha _).mp ⟨horg, hkey⟩).1, fun ha => ?_⟩
  have hs := ((ha _).mp ⟨hkey, horg⟩).1
  exact hne ⟨hn, hs.parent.symm, hs.scope.symm, hs.service.symm⟩

theorem not_apart_of_clash (hi : i.Drawn) (hj : j.Drawn) (h : Clash i j) : ¬ KeysApart i j := by
  rcases h with h | h | h | ⟨hn, h⟩ | ⟨hn, h⟩
  · exact not_apart_of_edges .edges (h ▸ .edges)
  · exact not_apart_of_edges .edges (touches_edges_of_continues h)
  · exact not_apart_of_edges (touches_edges_of_continues h) .edges
  · exact (not_apart_of_org hi hj hn h).1
  · exact (not_apart_of_org hj hi hn h).2

/-- A key of a quota that is a budget's counter. -/
theorem meet_org (hi : i.Drawn) {s : String} (hs : Suffix s) {w : ℤ} (h : i.base ++ s = winKey j.orgBase w) :
    j.orgBase = i.base ∨ Continues j.orgBase i.base := by
  rw [winKey, String.append_assoc] at h
  rcases meet (marked_base hi.grounded) (marked_orgBase j) hs (suffix_int w) h with h | ⟨-, h⟩ | ⟨⟨d, hd⟩, -⟩
  · exact .inl h.symm
  · exact .inr h
  · -- a window number has no `:ret:` in it
    have hl := congrArg String.toList hd
    rw [String.toList_append, String.toList_append] at hl
    have ht : (toString w).toList = "ret:".toList ++ d.toList := List.cons.inj hl |>.2
    exact absurd (ht ▸ List.mem_append_left _ (by decide)) (colon_notMem_int w)

theorem apart_of_not_clash (hi : i.Drawn) (hj : j.Drawn) (h : ¬ Clash i j) : KeysApart i j := by
  intro key
  constructor
  · rintro ⟨hk, hk'⟩
    rcases touches_cases hk with ⟨s, hs, rfl⟩ | ⟨hn, w, rfl⟩
    · rcases touches_cases hk' with ⟨t, ht, he⟩ | ⟨hn, w, he⟩
      · rcases meet (marked_base hi.grounded) (marked_base hj.grounded) hs ht he with he | ⟨-, he⟩ | ⟨-, he⟩
        · exact absurd (.inl he) h
        · exact absurd (.inr (.inr (.inl he))) h
        · exact absurd (.inr (.inl he)) h
      · exact absurd (.inr (.inr (.inr (.inr ⟨hn, meet_org hi hs he⟩)))) h
    · rcases touches_cases hk' with ⟨t, ht, he⟩ | ⟨hn', w', he⟩
      · exact absurd (.inr (.inr (.inr (.inl ⟨hn, meet_org hj ht he.symm⟩)))) h
      · exact ⟨sharedOrg_of_orgBase hi hj hn hn' (winKey_inj' he).1, w, rfl⟩
  · rintro ⟨hs, w, rfl⟩
    have hn' : j.ref.parent ≠ "" := hs.parent ▸ hs.nested
    refine ⟨.parent hs.nested (hi.grounded.nested hs.nested) w, ?_⟩
    rw [orgBase_of_shared hs]
    exact .parent hn' (hj.grounded.nested hn') w

theorem keysApart_iff (hi : i.Drawn) (hj : j.Drawn) : KeysApart i j ↔ ¬ Clash i j :=
  ⟨fun h hc => not_apart_of_clash hi hj hc h, apart_of_not_clash hi hj⟩

end

/-! ### Names without a colon -/

theorem fieldsOf_retKey (b x : String) : fieldsOf (retKey b x) = fieldsOf b ++ "ret".toList :: fieldsOf x := by
  have h : retKey b x = b ++ ":" ++ "ret" ++ ":" ++ x := by
    rw [retKey, show ":ret:" = ":" ++ "ret" ++ ":" by decide]
    simp only [String.append_assoc]
  rw [h, fieldsOf_snoc, fieldsOf_snoc, List.append_assoc]
  rfl

section
variable {i j : Item}

theorem Item.Drawn.algo_plain (h : i.Drawn) : fieldsOf i.spec.algo.or.text = [i.spec.algo.or.text.toList] :=
  fieldsOf_plain (algo_text (Spec.validate_ok.mp h.grounded.spec).1).1

/-- A key that begins with the scope and the service of the item. -/
def Item.Heads (i : Item) (key : String) : Prop :=
  ∃ r, fieldsOf key = "gate".toList :: ("\x7b" ++ i.ref.scope).toList :: (fieldsOf i.ref.service ++ r)

theorem Item.Drawn.heads_base (h : i.Drawn) : i.Heads i.base := by
  have hs := fieldsOf_plain (notMem_append (by decide) h.scope : ':' ∉ ("\x7b" ++ i.ref.scope).toList)
  unfold Item.Heads
  by_cases hp : i.ref.parent = ""
  · rw [Item.base, Ref.key_plain hp]
    simp only [fieldsOf_snoc, hs, List.append_assoc]
    exact ⟨_, rfl⟩
  · rw [Item.base, Ref.key_nested hp]
    simp only [fieldsOf_snoc, hs, List.append_assoc]
    exact ⟨_, rfl⟩

theorem Item.Drawn.heads_orgBase (h : i.Drawn) (hn : i.ref.parent ≠ "") : i.Heads i.orgBase := by
  unfold Item.Heads
  rw [h.fields_orgBase hn, fieldsOf_plain (h.gateway (h.nested hn).1).1]
  exact ⟨_, rfl⟩

theorem Item.Heads.continues {a b : String} (h : i.Heads b) (hc : Continues a b) : i.Heads a := by
  obtain ⟨r, hr⟩ := h
  obtain ⟨x, rfl⟩ := hc
  refine ⟨r ++ "ret".toList :: fieldsOf x, ?_⟩
  rw [fieldsOf_retKey, hr]
  simp only [List.cons_append, List.append_assoc]

theorem Clash.meets (hi : i.Drawn) (hj : j.Drawn) (h : Clash i j) : ∃ key, i.Heads key ∧ j.Heads key := by
  rcases h with h | h | h | ⟨hn, h | h⟩ | ⟨hn, h | h⟩
  · exact ⟨i.base, hi.heads_base, h ▸ hj.heads_base⟩
  · exact ⟨i.base, hi.heads_base, hj.heads_base.continues h⟩
  · exact ⟨j.base, hi.heads_base.continues h, hj.heads_base⟩
  · exact ⟨i.orgBase, hi.heads_orgBase hn, h ▸ hj.heads_base⟩
  · exact ⟨i.orgBase, hi.heads_orgBase hn, hj.heads_base.continues h⟩
  · exact ⟨j.orgBase, h ▸ hi.heads_base, hj.heads_orgBase hn⟩
  · exact ⟨j.orgBase, hi.heads_base.continues h, hj.heads_orgBase hn⟩

/-- Quotas of different scopes never clash, nor do those of different services behind the gateway. -/
theorem Clash.same_service (hi : i.Drawn) (hj : j.Drawn) (h : Clash i j) :
    i.ref.scope = j.ref.scope ∧ (i.ref.scope ≠ Decide.scope → i.ref.service = j.ref.service) := by
  obtain ⟨key, ⟨r, hr⟩, ⟨r', hr'⟩⟩ := h.meets hi hj
  rw [hr] at hr'
  simp only [List.cons.injEq, true_and, String.toList_append, List.append_cancel_left_eq, String.toList_inj] at hr'
  obtain ⟨hscope, hservice⟩ := hr'
  refine ⟨hscope, fun hs => ?_⟩
  rw [fieldsOf_plain (hi.gateway hs).1, fieldsOf_plain (hj.gateway (hscope ▸ hs)).1] at hservice
  exact String.toList_inj.mp (List.cons.inj hservice).1

/-- The item's free text has no colon in it. -/
structure Item.Plain (i : Item) : Prop where
  service : ':' ∉ i.ref.service.toList
  limit : ':' ∉ i.ref.limit.toList
  subject : ':' ∉ i.ref.subject.toList

theorem Ref.name_plain {r : Ref} (h : ':' ∉ r.limit.toList) : ':' ∉ r.name.toList := by
  unfold Ref.name
  split_ifs
  · decide
  · exact h

theorem Item.Drawn.fields_plain (h : i.Drawn) (ht : i.Plain) (hp : i.ref.parent = "") :
    fieldsOf i.base = ["gate".toList, ("\x7b" ++ i.ref.scope).toList, i.ref.service.toList,
      (i.ref.subject ++ "\x7d").toList, i.ref.name.toList, i.spec.algo.or.text.toList] := by
  rw [Item.base, Ref.key_plain hp]
  simp only [fieldsOf_snoc, h.algo_plain]
  rw [fieldsOf_plain (notMem_append (by decide) h.scope), fieldsOf_plain ht.service,
    fieldsOf_plain (notMem_append ht.subject (by decide)), fieldsOf_plain (Ref.name_plain ht.limit)]
  rfl

theorem Item.Drawn.fields_nested (h : i.Drawn) (ht : i.Plain) (hn : i.ref.parent ≠ "") :
    fieldsOf i.base = ["gate".toList, ("\x7b" ++ i.ref.scope).toList, i.ref.service.toList, "org".toList,
      (i.ref.parent ++ "\x7d").toList, i.ref.name.toList, i.ref.subject.toList, i.spec.algo.or.text.toList] := by
  rw [Item.base, Ref.key_nested hn]
  simp only [fieldsOf_snoc, h.algo_plain]
  rw [fieldsOf_plain (notMem_append (by decide) h.scope), fieldsOf_plain ht.service,
    fieldsOf_plain (notMem_append (h.nested hn).2.2 (by decide)), fieldsOf_plain (Ref.name_plain ht.limit),
    fieldsOf_plain ht.subject]
  rfl

/-- A limit called `tier` beside the quota of the caller's tier. -/
structure TierLimit (i j : Item) : Prop where
  scope : i.ref.scope = j.ref.scope
  service : i.ref.service = j.ref.service
  subject : i.ref.subject = j.ref.subject
  algo : i.spec.algo.or = j.spec.algo.or
  orgs : i.ref.parent = "" ∧ j.ref.parent = ""
  limits : i.ref.limit = "" ∧ j.ref.limit = "tier" ∨ i.ref.limit = "tier" ∧ j.ref.limit = ""

theorem TierLimit.base (h : TierLimit i j) : i.base = j.base := by
  have hname : i.ref.name = j.ref.name := by
    unfold Ref.name
    rcases h.limits with ⟨hi, hj⟩ | ⟨hi, hj⟩
    · rw [hi, hj]
      rfl
    · rw [hi, hj]
      rfl
  rw [Item.base, Item.base, Ref.key_plain h.orgs.1, Ref.key_plain h.orgs.2, h.scope, h.service, h.subject, h.algo,
    hname]

/-- Of plain items, the one is no dedupe key of the other. -/
theorem not_continues (hi : i.Drawn) (hj : j.Drawn) (ti : i.Plain) (tj : j.Plain) : ¬ Continues i.base j.base := by
  rintro ⟨x, hx⟩
  have hf := congrArg fieldsOf hx
  rw [fieldsOf_retKey] at hf
  obtain ⟨y, ys, hy⟩ := List.exists_cons_of_ne_nil (fieldsOf_ne_nil x)
  by_cases hp : i.ref.parent = "" <;> by_cases hp' : j.ref.parent = ""
  · rw [hi.fields_plain ti hp, hj.fields_plain tj hp', hy] at hf
    simp at hf
  · rw [hi.fields_plain ti hp, hj.fields_nested tj hp', hy] at hf
    simp at hf
  · -- the fields are as many, but the fourth ends in a brace on one side only
    rw [hi.fields_nested ti hp, hj.fields_plain tj hp', hy] at hf
    have h4 := congrArg (fun l => (l.getD 3 []).getLast?) hf
    simp at h4
  · rw [hi.fields_nested ti hp, hj.fields_nested tj hp', hy] at hf
    simp at hf

/-- Nor is an org's counter a key of a plain item. -/
theorem orgBase_apart (hi : i.Drawn) (hj : j.Drawn) (tj : j.Plain) (hn : i.ref.parent ≠ "") :
    ¬ (i.orgBase = j.base ∨ Continues i.orgBase j.base) := by
  have seven : (fieldsOf i.orgBase).length = 7 := by
    rw [hi.fields_orgBase hn]
    rfl
  have six : (fieldsOf j.base).length = 6 ∨ (fieldsOf j.base).length = 8 := by
    by_cases hp : j.ref.parent = ""
    · rw [hj.fields_plain tj hp]
      exact .inl rfl
    · rw [hj.fields_nested tj hp]
      exact .inr rfl
  rintro (h | ⟨x, h⟩)
  · rw [h] at seven
    omega
  · rw [h, fieldsOf_retKey, List.length_append, List.length_cons] at seven
    have := List.length_pos_of_ne_nil (fieldsOf_ne_nil x)
    omega

theorem name_eq {r r' : Ref} (h : r.name = r'.name) (hne : r.limit ≠ r'.limit) :
    r.limit = "" ∧ r'.limit = "tier" ∨ r.limit = "tier" ∧ r'.limit = "" := by
  unfold Ref.name at h
  split_ifs at h with h₁ h₂ h₂
  · exact absurd (h₁.trans h₂.symm) hne
  · exact .inl ⟨h₁, h.symm⟩
  · exact .inr ⟨h, h₂⟩
  · exact absurd h hne

/-- Plain items clash in one way only. -/
theorem clash_plain_iff (hi : i.Drawn) (hj : j.Drawn) (ti : i.Plain) (tj : j.Plain) (hd : i.Differs j) :
    Clash i j ↔ TierLimit i j := by
  refine ⟨fun h => ?_, fun h => .inl h.base⟩
  rcases h with h | h | h | ⟨hn, h⟩ | ⟨hn, h⟩
  · have hf := congrArg fieldsOf h
    by_cases hp : i.ref.parent = "" <;> by_cases hp' : j.ref.parent = ""
    · rw [hi.fields_plain ti hp, hj.fields_plain tj hp'] at hf
      simp only [List.cons.injEq, and_true, true_and, String.toList_append, List.append_cancel_left_eq,
        List.append_cancel_right_eq, String.toList_inj] at hf
      obtain ⟨hscope, hservice, hsubject, hname, htext⟩ := hf
      have hlimit : i.ref.limit ≠ j.ref.limit := by
        intro hl
        rcases hd with hd | hd | hd | hd | hd
        · exact hd hscope
        · exact hd hservice
        · exact hd hl
        · exact hd hsubject
        · exact hd (by rw [hp, hp'])
      exact ⟨hscope, hservice, hsubject, algo_eq_of_text (Spec.validate_ok.mp hi.grounded.spec).1
        (Spec.validate_ok.mp hj.grounded.spec).1 htext, ⟨hp, hp'⟩, name_eq hname hlimit⟩
    · rw [hi.fields_plain ti hp, hj.fields_nested tj hp'] at hf
      simp at hf
    · rw [hi.fields_nested ti hp, hj.fields_plain tj hp'] at hf
      simp at hf
    · -- the tier's quota of one subject in one org is one quota
      rw [hi.fields_nested ti hp, hj.fields_nested tj hp'] at hf
      simp only [List.cons.injEq, and_true, true_and, String.toList_append, List.append_cancel_left_eq,
        List.append_cancel_right_eq, String.toList_inj] at hf
      obtain ⟨hscope, hservice, -, -, hsubject, -⟩ := hf
      rcases hd with hd | hd | hd | hd | hd
      · exact absurd hscope hd
      · exact absurd hservice hd
      · exact absurd ((hi.nested hp).2.1.trans (hj.nested hp').2.1.symm) hd
      · exact absurd hsubject hd
      · exact absurd ⟨fun h => absurd h hp, fun h => absurd h hp'⟩ hd
  · exact absurd h (not_continues hi hj ti tj)
  · exact absurd h (not_continues hj hi tj ti)
  · exact absurd h (orgBase_apart hi hj tj hn)
  · exact absurd h (orgBase_apart hj hi ti hn)

end

/-! ### The quotas of a checked config -/

theorem mem_trimSpace {s : String} {c : Char} (h : c ∈ s.toList) (hc : isSpace c = false) : c ∈ (trimSpace s).toList := by
  have keep : ∀ l : List Char, c ∈ l → c ∈ l.dropWhile isSpace := by
    intro l hl
    rw [← List.takeWhile_append_dropWhile (p := isSpace) (l := l), List.mem_append] at hl
    rcases hl with hl | hl
    · have := List.mem_takeWhile_imp hl
      rw [hc] at this
      cases this
    · exact hl
  unfold trimSpace
  rw [String.toList_ofList, List.mem_reverse]
  exact keep _ (List.mem_reverse.mpr (keep _ h))

namespace Config

section
variable {lib : Library} {f : File} {env : HubEnv} {scope service subject limitID tierID org : String} {it : Item}

theorem colon_of_trim {s t : String} (h : t = trimSpace s) (ht : ∀ c ∈ t.toList, NameChar c) : ':' ∉ s.toList := by
  intro hs
  have := mem_trimSpace hs (by decide)
  rw [← h] at this
  exact (ht _ this).plain.2.2.1 rfl

/-- The ref of a tier's item, in or out of an org's budget. -/
theorem tier_ref (env : HubEnv) (p : PrefixConfig) (svc : ServiceConfig) (o subject : String) (it : Item) :
    ∃ parent, (withOrg env p svc o (withRegion env svc subject it)).ref = { it.ref with parent := parent } ∧
      (parent = it.ref.parent ∨ parent = env.orgID o) := by
  have hr : (withRegion env svc subject it).ref = it.ref := by
    rcases withRegion_cases env svc subject it with h | ⟨g, name, -, -, h⟩ <;> rw [h]
  rcases withOrg_cases env p svc o (withRegion env svc subject it) with h | ⟨l, -, -, h⟩
  · rw [h, hr]
    exact ⟨it.ref.parent, rfl, .inl rfl⟩
  · rw [h, hr]
    exact ⟨env.orgID o, rfl, .inr rfl⟩

theorem resolved_drawn (hf : f.Sound lib) (hid : ∀ o, ':' ∉ (env.orgID o).toList)
    (h : Resolved env (compile f).limiting scope service subject limitID tierID org it) : it.Drawn := by
  have hg := resolved_grounded hf h
  have names : ∀ {p svc}, (compile f).limiting.findService scope service = some (p, svc) →
      ':' ∉ scope.toList ∧ ':' ∉ service.toList := by
    intro p svc hp
    obtain ⟨s, hs, -, -, hgroup, hname⟩ := hub_findService hf hp
    exact ⟨colon_of_trim hgroup (hf.services s hs).group.2, colon_of_trim hname (nameRe_chars (hf.services s hs).name).2⟩
  cases h with
  | descriptor hs hl =>
    obtain ⟨-, -, -, hn, -⟩ := Decide.find_eq_some.mp hl
    have hscope : ':' ∉ Decide.scope.toList := by decide
    exact ⟨hg, hscope, fun h => absurd rfl h, fun _ => hn, fun h => absurd rfl h⟩
  | named hs hp hn hl =>
    obtain ⟨s, hmem, rfl, -⟩ := hub_findService hf hp
    obtain ⟨a, -, -, rfl, ha⟩ := findLimit_compile (hf.services s hmem) hl
    have hlimit : ':' ∉ a.name.toList := fun hc => ((nameRe_chars ha.name).2 _ hc).plain.2.2.1 rfl
    exact ⟨hg, (names hp).1, fun _ => ⟨(names hp).2, hlimit⟩, fun h => absurd h hs, fun h => absurd rfl h⟩
  | @tier p svc t o tier hs hp hn hc ht =>
    have hlimit : ':' ∉ limitID.toList := by
      rw [hn]
      decide
    obtain ⟨parent, href, hpar⟩ := tier_ref env p svc o subject {
      ref := ⟨scope, service, limitID, subject, ""⟩
      spec := ⟨t.algorithm, t.quota, p.quotaPeriod, t.rate⟩
      args := leaseArgs svc.lease }
    refine ⟨hg, ?_, ?_, ?_, ?_⟩
    all_goals rw [href]
    · exact (names hp).1
    · exact fun _ => ⟨(names hp).2, hlimit⟩
    · exact fun h => absurd h hs
    · refine fun hne => ⟨hs, hn, ?_⟩
      rcases hpar with rfl | rfl
      · exact absurd rfl hne
      · exact hid o

/-- The name `orgID` gives an owner: part of a hash, in hexadecimal. -/
def Hex (s : String) : Prop := ∀ c ∈ s.toList, c ∈ "0123456789abcdef".toList

theorem Hex.plain {s : String} (h : Hex s) : ':' ∉ s.toList := fun hc => absurd (h _ hc) (by decide)

/-- Two quotas of a checked config share no ledger key, the counter of a common org apart, unless
their keys clash. With no colon in the subjects, the domains and the descriptor paths, they do in
one case only: a limit called `tier` beside the tier's own quota. -/
theorem quota_keys_apart_iff {env₁ env₂ : HubEnv} {r₁ r₂ : QuotaLeaseRequest} {i j : Item} (h : Accepted lib f)
    (hid₁ : ∀ o, Hex (env₁.orgID o)) (hid₂ : ∀ o, Hex (env₂.orgID o))
    (hi : resolve env₁ (compile f).limiting r₁.scope r₁.serviceId r₁.apiKey r₁.limitId r₁.tierId r₁.org = .ok i)
    (hj : resolve env₂ (compile f).limiting r₂.scope r₂.serviceId r₂.apiKey r₂.limitId r₂.tierId r₂.org = .ok j)
    (hd : i.Differs j) :
    (KeysApart i j ↔ ¬ Clash i j) ∧
    (i.ref.scope ≠ j.ref.scope ∨ i.ref.scope ≠ Decide.scope ∧ i.ref.service ≠ j.ref.service → KeysApart i j) ∧
    (i.Plain → j.Plain → (KeysApart i j ↔ ¬ TierLimit i j)) := by
  have di := resolved_drawn h.sound (fun o => (hid₁ o).plain) (resolve_ok_iff.mp hi).2
  have dj := resolved_drawn h.sound (fun o => (hid₂ o).plain) (resolve_ok_iff.mp hj).2
  refine ⟨keysApart_iff di dj, fun hs => (keysApart_iff di dj).mpr fun hc => ?_, fun ti tj => ?_⟩
  · obtain ⟨hscope, hservice⟩ := hc.same_service di dj
    rcases hs with hs | ⟨hs, hne⟩
    · exact hs hscope
    · exact hne (hservice hs)
  · rw [keysApart_iff di dj, clash_plain_iff di dj ti tj hd]

/-- `orders` with a second limit called `tier`. -/
def tierNamedFile : File := { services := [{ ordersService {} with
  limits := {
    window := 60 * second
    tiers := AList.singleton "free" { requests := 100 }
    also := [{ name := "tier", requests := 10 }] } }] }

def hexHub : HubEnv := { oneKeyHub with orgID := fun _ => "0" }

def leaseOf (subject limitID : String) : QuotaLeaseRequest := ⟨"v1", "orders", subject, "", limitID, "", 1, "edge", 0⟩

def resolved (r : QuotaLeaseRequest) : Except Code Item :=
  resolve hexHub (compile tierNamedFile).limiting r.scope r.serviceId r.apiKey r.limitId r.tierId r.org

/-- What the hub makes of it. -/
def ordersItem (subject limit : String) (quota : ℤ) : Item where
  ref := ⟨"v1", "orders", limit, subject, ""⟩
  spec := ⟨.unset, quota, 60 * second, 0⟩
  args := { noArgs with horizon := 2 * second, minGrant := 1 }

theorem tier_limit_shares_counter :
    Accepted plainLibrary tierNamedFile ∧ ∃ i j, resolved (leaseOf "k" "") = .ok i ∧ resolved (leaseOf "k" "tier") = .ok j ∧
      i.Differs j ∧ Touches i "gate:\x7bv1:orders:k\x7d:tier:fixed_window:7" ∧
      Touches j "gate:\x7bv1:orders:k\x7d:tier:fixed_window:7" ∧ ¬ KeysApart i j := by
  have hi : Touches (ordersItem "k" "" 100) "gate:\x7bv1:orders:k\x7d:tier:fixed_window:7" :=
    Touches.window (by decide) 7
  have hj : Touches (ordersItem "k" "tier" 10) "gate:\x7bv1:orders:k\x7d:tier:fixed_window:7" :=
    Touches.window (by decide) 7
  refine ⟨by decide +kernel, ordersItem "k" "" 100, ordersItem "k" "tier" 10, by decide +kernel, by decide +kernel,
    .inr (.inr (.inl (by decide))), hi, hj, fun h => ?_⟩
  exact ((h _).mp ⟨hi, hj⟩).1.nested rfl

theorem two_keys_apart :
    Accepted plainLibrary tierNamedFile ∧ resolved (leaseOf "a" "") = .ok (ordersItem "a" "" 100) ∧
      resolved (leaseOf "b" "tier") = .ok (ordersItem "b" "tier" 10) ∧
      KeysApart (ordersItem "a" "" 100) (ordersItem "b" "tier" 10) := by
  have hacc : Accepted plainLibrary tierNamedFile := by decide +kernel
  have hi : resolved (leaseOf "a" "") = .ok (ordersItem "a" "" 100) := by decide +kernel
  have hj : resolved (leaseOf "b" "tier") = .ok (ordersItem "b" "tier" 10) := by decide +kernel
  have zero : Hex "0" := by
    intro c hc
    obtain rfl : c = '0' := List.mem_singleton.mp hc
    decide
  have hex : ∀ o, Hex (hexHub.orgID o) := fun _ => zero
  have hd : (ordersItem "a" "" 100).Differs (ordersItem "b" "tier" 10) := .inr (.inr (.inl (by decide)))
  refine ⟨hacc, hi, hj, ((quota_keys_apart_iff hacc hex hex hi hj hd).2.2 ?_ ?_).mpr fun ht => ?_⟩
  · exact ⟨by decide, by decide, by decide⟩
  · exact ⟨by decide, by decide, by decide⟩
  · exact absurd ht.subject (by decide)

end

end Config

end Gate
