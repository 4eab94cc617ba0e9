import Mathlib
import Gate.Spec.Ledger

/-! Ledger keys do not run into each other: a key ends in its last component, and a window
number or an algorithm name has no colon in it. -/

namespace Gate

/-- Keys split in one way at their last colon. -/
theorem snoc_colon_inj {a b s t : String} (hs : ':' ∉ s.toList) (ht : ':' ∉ t.toList)
    (h : a ++ ":" ++ s = b ++ ":" ++ t) : a = b ∧ s = t := by
  have hl : a.toList ++ ':' :: s.toList = b.toList ++ ':' :: t.toList := by
    simpa [String.toList_append] using congrArg String.toList h
  rcases List.append_eq_append_iff.mp hl with ⟨l, hb, hr⟩ | ⟨l, ha, hr⟩
  · cases l with
    | nil =>
      simp only [List.nil_append, List.cons.injEq, true_and] at hr
      exact ⟨String.toList_inj.mp (by simpa using hb.symm), String.toList_inj.mp hr⟩
    | cons c l =>
      simp only [List.cons_append, List.cons.injEq] at hr
      exact absurd (hr.2 ▸ by simp) hs
  · cases l with
    | nil =>
      simp only [List.nil_append, List.cons.injEq, true_and] at hr
      exact ⟨String.toList_inj.mp (by simpa using ha), String.toList_inj.mp hr.symm⟩
    | cons c l =>
      simp only [List.cons_append, List.cons.injEq] at hr
      exact absurd (hr.2 ▸ by simp) ht

theorem snoc_colon_ne_empty (a s : String) : a ++ ":" ++ s ≠ "" := by
  intro h
  have := congrArg String.toList h
  simp at this

theorem digits_of_mem_int {n : ℤ} {c : Char} (h : c ∈ (toString n).toList) : c.isDigit ∨ c = '-' := by
  have digits : ∀ k : ℕ, c ∈ k.repr.toList → c.isDigit = true := by
    intro k hk
    rw [Nat.toList_repr] at hk
    exact Nat.isDigit_of_mem_toDigits (by decide) (by decide) hk
  rw [Int.toString_eq_repr, Int.repr_eq_if] at h
  split at h
  · exact .inl (digits _ h)
  · rw [String.toList_append, List.mem_append] at h
    rcases h with h | h
    · exact .inr (by simpa using h)
    · exact .inl (digits _ h)

theorem colon_notMem_int (n : ℤ) : ':' ∉ (toString n).toList := by
  intro h
  rcases digits_of_mem_int h with h | h
  · exact absurd h (by decide)
  · exact absurd h (by decide)

theorem winKey_inj' {a b : String} {w w' : ℤ} (h : winKey a w = winKey b w') : a = b ∧ w = w' := by
  obtain ⟨ha, hw⟩ := snoc_colon_inj (colon_notMem_int w) (colon_notMem_int w') h
  rw [Int.toString_eq_repr, Int.toString_eq_repr] at hw
  exact ⟨ha, Int.repr_inj.mp hw⟩

theorem winKey_inj {base : String} {w w' : ℤ} : winKey base w = winKey base w' ↔ w = w' :=
  ⟨fun h => (winKey_inj' h).2, fun h => h ▸ rfl⟩

/-- A bucket's key is no window's counter. -/
theorem bucketKey_ne_winKey {r : Ref} {algo : Algo} (ha : algo.or = .tokenBucket) (b : String) (w : ℤ) :
    r.key algo ≠ winKey b w := by
  intro h
  unfold Ref.key winKey at h
  rw [ha] at h
  obtain ⟨-, ht⟩ := snoc_colon_inj (by decide) (colon_notMem_int w) h
  have hmem : 't' ∈ (toString w).toList := by
    rw [← ht]
    decide
  rcases digits_of_mem_int hmem with h | h
  · exact absurd h (by decide)
  · exact absurd h (by decide)

theorem algo_text {algo : Algo} (h : algo.valid = true) :
    ':' ∉ algo.or.text.toList ∧ '_' ∈ algo.or.text.toList := by
  cases algo with
  | other name => cases h
  | _ => decide

theorem valid_of_fixed {algo : Algo} (h : algo.or = .fixedWindow) : algo.valid = true := by
  cases algo with
  | other name => cases h
  | _ => rfl

theorem algo_eq_of_text {a b : Algo} (ha : a.valid = true) (hb : b.valid = true) (h : a.or.text = b.or.text) :
    a.or = b.or := by
  have known : ∀ {a : Algo}, a.valid = true → a.or = .fixedWindow ∨ a.or = .slidingWindow ∨ a.or = .tokenBucket := by
    intro a ha
    cases a with
    | unset => exact .inl rfl
    | fixedWindow => exact .inl rfl
    | slidingWindow => exact .inr (.inl rfl)
    | tokenBucket => exact .inr (.inr rfl)
    | other name => cases ha
  rcases known ha with h₁ | h₁ | h₁ <;> rcases known hb with h₂ | h₂ | h₂ <;> rw [h₁, h₂] at h ⊢ <;>
    exact absurd h (by decide)

/-- A key names its algorithm. -/
theorem key_algo {r r' : Ref} {a a' : Algo} (ha : a.valid) (ha' : a'.valid) (h : r.key a = r'.key a') : a.or = a'.or :=
  algo_eq_of_text ha ha' (snoc_colon_inj (algo_text ha).1 (algo_text ha').1 h).2

theorem parentKey_eq_snoc (r : Ref) (algo : Algo) : r.parentKey algo =
    "gate:\x7b" ++ r.scope ++ ":" ++ r.service ++ ":org:" ++ r.parent ++ "\x7d:org" ++ ":" ++ algo.or.text := by
  unfold Ref.parentKey
  rw [show "\x7d:org:" = "\x7d:org" ++ ":" by decide]
  simp only [String.append_assoc]

/-- The budget of an org is a fixed window. -/
theorem parentKey_ne_key {r r' : Ref} {a : Algo} (ha : a.valid) (hne : a.or ≠ .fixedWindow) :
    r'.parentKey .fixedWindow ≠ r.key a := by
  intro h
  rw [parentKey_eq_snoc] at h
  have htext := (snoc_colon_inj (@algo_text .fixedWindow rfl).1 (algo_text ha).1 h).2
  exact hne (@algo_eq_of_text .fixedWindow a rfl ha htext).symm

/-- A tier's quota inside an org's budget is not the budget, nor is a key that continues it. -/
theorem tierKey_append_ne_parentKey {r : Ref} (hl : r.limit = "") (hp : r.parent ≠ "") (algo algo' : Algo)
    (x : String) : r.key algo ++ x ≠ r.parentKey algo' := by
  intro h
  unfold Ref.key Ref.parentKey at h
  have h' := congrArg String.toList h
  simp only [hl, hp, ne_eq, not_false_eq_true, if_true, String.toList_append, List.append_assoc] at h'
  -- both begin alike, up to the closing brace; there one goes on with `tier` and the other with `org`
  have h₁ := List.append_cancel_left (List.append_cancel_left (List.append_cancel_left
    (List.append_cancel_left h')))
  have h₂ : ':' :: 'o' :: 'r' :: 'g' :: ':' :: (r.parent.toList ++ ('\x7d' :: ':' :: 't' :: _)) =
    ':' :: 'o' :: 'r' :: 'g' :: ':' :: (r.parent.toList ++ ('\x7d' :: ':' :: 'o' :: _)) := h₁
  simp only [List.cons.injEq, true_and] at h₂
  have h₃ := List.append_cancel_left h₂
  simp at h₃

theorem tierKey_ne_parentKey {r : Ref} (hl : r.limit = "") (hp : r.parent ≠ "") (algo algo' : Algo) :
    r.key algo ≠ r.parentKey algo' := by
  have h := tierKey_append_ne_parentKey hl hp algo algo' ""
  rwa [String.append_empty] at h

/-- Nor is any quota inside it: its name has the caller's after a colon. -/
theorem nestedKey_ne_parentKey {r : Ref} {a : Algo} (hp : r.parent ≠ "") (ha : a.valid) :
    r.key a ≠ r.parentKey .fixedWindow := by
  intro h
  unfold Ref.key at h
  rw [parentKey_eq_snoc] at h
  have hpre := (snoc_colon_inj (algo_text ha).1 (@algo_text .fixedWindow rfl).1 h).1
  have h' := congrArg String.toList hpre
  simp only [hp, ne_eq, not_false_eq_true, if_true, String.toList_append, List.append_assoc] at h'
  have h₁ := List.append_cancel_left (List.append_cancel_left (List.append_cancel_left
    (List.append_cancel_left h')))
  have h₂ : ':' :: 'o' :: 'r' :: 'g' :: ':' :: (r.parent.toList ++ ('\x7d' :: ':' :: (_ ++ (':' :: _)))) =
    ':' :: 'o' :: 'r' :: 'g' :: ':' :: (r.parent.toList ++ ['\x7d', ':', 'o', 'r', 'g']) := h₁
  simp only [List.cons.injEq, true_and] at h₂
  have h₃ := List.append_cancel_left h₂
  simp only [List.cons.injEq, true_and] at h₃
  have hmem : ':' ∈ ['o', 'r', 'g'] := h₃ ▸ List.mem_append_right _ List.mem_cons_self
  exact absurd hmem (by decide)

theorem parentKey_ne_empty (r : Ref) (algo : Algo) : r.parentKey algo ≠ "" := by
  intro h
  unfold Ref.parentKey at h
  have hlen := congrArg String.length h
  simp only [String.length_append] at hlen
  have h₁ : 1 ≤ "gate:\x7b".length := by decide
  have h₂ : "".length = 0 := by decide
  omega

end Gate
