import Mathlib.Tactic

/-! Edits of lists: an edit puts an element in, takes one out or replaces one. The recurrence `dist`
over the heads of two lists is the least number of edits between them, and it does not matter from
which end the lists are read. -/

namespace Edits

variable {α : Type} {a b c : List α} {m n : ℕ}

inductive Edit : List α → List α → Prop where
  | insert (u v : List α) (x : α) : Edit (u ++ v) (u ++ x :: v)
  | remove (u v : List α) (x : α) : Edit (u ++ x :: v) (u ++ v)
  | replace (u v : List α) (x y : α) : Edit (u ++ x :: v) (u ++ y :: v)

/-- So many edits, one after the other, lead from the first list to the second. -/
inductive Reaches : ℕ → List α → List α → Prop where
  | refl (a : List α) : Reaches 0 a a
  | step {n : ℕ} {a b c : List α} : Reaches n a b → Edit b c → Reaches (n + 1) a c

/-- The lists are put side by side; the places that differ are the cost. -/
inductive Aligned : List α → List α → ℕ → Prop where
  | nil : Aligned [] [] 0
  | insert {a b : List α} {n : ℕ} (y : α) : Aligned a b n → Aligned a (y :: b) (n + 1)
  | remove {a b : List α} {n : ℕ} (x : α) : Aligned a b n → Aligned (x :: a) b (n + 1)
  | replace {a b : List α} {n : ℕ} (x y : α) : Aligned a b n → Aligned (x :: a) (y :: b) (n + 1)
  | keep {a b : List α} {n : ℕ} (x : α) : Aligned a b n → Aligned (x :: a) (x :: b) n

/-! ### Alignments -/

namespace Aligned

theorem refl (a : List α) : Aligned a a 0 := by
  induction a with
  | nil => exact .nil
  | cons x a ih => exact .keep x ih

theorem append {a' b' : List α} (h : Aligned a b m) (h' : Aligned a' b' n) : Aligned (a ++ a') (b ++ b') (m + n) := by
  induction h with
  | nil => rwa [Nat.zero_add]
  | insert y _ ih => rw [Nat.add_right_comm]; exact ih.insert y
  | remove x _ ih => rw [Nat.add_right_comm]; exact ih.remove x
  | replace x y _ ih => rw [Nat.add_right_comm]; exact ih.replace x y
  | keep x _ ih => exact ih.keep x

theorem reverse (h : Aligned a b n) : Aligned a.reverse b.reverse n := by
  induction h with
  | nil => exact .nil
  | insert y _ ih =>
    have := ih.append (Aligned.nil.insert y)
    rwa [List.append_nil, ← List.reverse_cons] at this
  | remove x _ ih =>
    have := ih.append (Aligned.nil.remove x)
    rwa [List.append_nil, ← List.reverse_cons] at this
  | replace x y _ ih =>
    have := ih.append (Aligned.nil.replace x y)
    rwa [← List.reverse_cons, ← List.reverse_cons] at this
  | keep x _ ih =>
    have := ih.append (Aligned.nil.keep x)
    rwa [← List.reverse_cons, ← List.reverse_cons] at this

end Aligned

/-- Aligned at a cost of at most `n`. -/
def Near (a b : List α) (n : ℕ) : Prop := ∃ k ≤ n, Aligned a b k

theorem Near.mono (h : Near a b m) (hmn : m ≤ n) : Near a b n := by
  obtain ⟨k, hk, hal⟩ := h
  exact ⟨k, hk.trans hmn, hal⟩

/-- One more place, at a cost of `d`. -/
theorem Near.more {a' b' : List α} {d : ℕ} (h : Near a b m) (hmore : ∀ {k}, Aligned a b k → Aligned a' b' (k + d))
    (hmn : m + d ≤ n) : Near a' b' n := by
  obtain ⟨k, hk, hal⟩ := h
  exact ⟨k + d, by omega, hmore hal⟩

/-- Alignments from `e` on to what `z :: b` is aligned with, given those to what `b` is aligned with. -/
theorem near_cons {e : List α} {z : α} (h : Aligned (z :: b) c n) (hremove : ∀ {c n}, Aligned b c n → Near e c (m + (n + 1)))
    (hreplace : ∀ {c n} (x : α), Aligned b c n → Near e (x :: c) (m + (n + 1)))
    (hkeep : ∀ {c n}, Aligned b c n → Near e (z :: c) (m + n)) : Near e c (m + n) := by
  generalize hb : z :: b = b' at h
  induction h with
  | nil => cases hb
  | insert x _ ih => exact (ih hb).more (·.insert x) (by omega)
  | remove x h _ =>
    obtain ⟨rfl, rfl⟩ := List.cons.inj hb
    exact hremove h
  | replace x y h _ =>
    obtain ⟨rfl, rfl⟩ := List.cons.inj hb
    exact hreplace y h
  | keep x h _ =>
    obtain ⟨rfl, rfl⟩ := List.cons.inj hb
    exact hkeep h

theorem Aligned.trans (h : Aligned a b m) (h' : Aligned b c n) : Near a c (m + n) := by
  induction h generalizing c n with
  | nil => exact ⟨n, by omega, h'⟩
  | remove x _ ih => exact (ih h').more (·.remove x) (by omega)
  | insert y _ ih =>
    apply near_cons h'
    · exact fun h => (ih h).mono (by omega)
    · exact fun x h => (ih h).more (·.insert x) (by omega)
    · exact fun h => (ih h).more (·.insert y) (by omega)
  | replace x y _ ih =>
    apply near_cons h'
    · exact fun h => (ih h).more (·.remove x) (by omega)
    · exact fun z h => (ih h).more (·.replace x z) (by omega)
    · exact fun h => (ih h).more (·.replace x y) (by omega)
  | keep x _ ih =>
    apply near_cons h'
    · exact fun h => (ih h).more (·.remove x) (by omega)
    · exact fun z h => (ih h).more (·.replace x z) (by omega)
    · exact fun h => (ih h).more (d := 0) (·.keep x) (by omega)

/-! ### Alignments and edits -/

theorem Edit.aligned (h : Edit a b) : Aligned a b 1 := by
  cases h with
  | insert u v x => exact (Aligned.refl u).append ((Aligned.refl v).insert x)
  | remove u v x => exact (Aligned.refl u).append ((Aligned.refl v).remove x)
  | replace u v x y => exact (Aligned.refl u).append ((Aligned.refl v).replace x y)

theorem Reaches.near (h : Reaches n a b) : Near a b n := by
  induction h with
  | refl a => exact ⟨0, le_rfl, .refl a⟩
  | step _ he ih =>
    obtain ⟨k, hk, hal⟩ := ih
    exact (hal.trans he.aligned).mono (by omega)

theorem Edit.cons (h : Edit a b) (x : α) : Edit (x :: a) (x :: b) := by
  cases h with
  | insert u v y => exact .insert (x :: u) v y
  | remove u v y => exact .remove (x :: u) v y
  | replace u v y z => exact .replace (x :: u) v y z

theorem Reaches.cons (h : Reaches n a b) (x : α) : Reaches n (x :: a) (x :: b) := by
  induction h with
  | refl a => exact .refl _
  | step _ he ih => exact .step ih (he.cons x)

theorem Aligned.reaches (h : Aligned a b n) : Reaches n a b := by
  induction h with
  | nil => exact .refl _
  | insert y _ ih => exact ih.step (.insert [] _ y)
  | remove x _ ih => exact (ih.cons x).step (.remove [] _ x)
  | replace x y _ ih => exact (ih.cons x).step (.replace [] _ x y)
  | keep x _ ih => exact ih.cons x

/-! ### The recurrence -/

section Dist

variable [DecidableEq α]

def dist : List α → List α → ℕ
  | [], ys => ys.length
  | x :: xs, [] => (x :: xs).length
  | x :: xs, y :: ys =>
    min (min (dist xs (y :: ys) + 1) (dist (x :: xs) ys + 1)) (dist xs ys + if x = y then 0 else 1)
termination_by xs ys => xs.length + ys.length

@[simp] theorem dist_nil_left (ys : List α) : dist [] ys = ys.length := by rw [dist]

@[simp] theorem dist_nil_right (xs : List α) : dist xs [] = xs.length := by
  cases xs with
  | nil => rw [dist]
  | cons x xs => rw [dist]

theorem dist_cons_cons (x y : α) (xs ys : List α) : dist (x :: xs) (y :: ys) =
    min (min (dist xs (y :: ys) + 1) (dist (x :: xs) ys + 1)) (dist xs ys + if x = y then 0 else 1) := by
  rw [dist]

theorem dist_insert_le (xs : List α) (y : α) (ys : List α) : dist xs (y :: ys) ≤ dist xs ys + 1 := by
  cases xs with
  | nil => simp
  | cons x xs =>
    rw [dist_cons_cons]
    exact (min_le_left _ _).trans (min_le_right _ _)

theorem dist_remove_le (x : α) (xs ys : List α) : dist (x :: xs) ys ≤ dist xs ys + 1 := by
  cases ys with
  | nil => simp
  | cons y ys =>
    rw [dist_cons_cons]
    exact (min_le_left _ _).trans (min_le_left _ _)

theorem dist_le (h : Aligned a b n) : dist a b ≤ n := by
  induction h with
  | nil => simp
  | insert y _ ih => exact (dist_insert_le _ _ _).trans (by omega)
  | remove x _ ih => exact (dist_remove_le _ _ _).trans (by omega)
  | replace x y _ ih =>
    rw [dist_cons_cons]
    refine (min_le_right _ _).trans ?_
    split_ifs
    · omega
    · omega
  | keep x _ ih =>
    rw [dist_cons_cons, if_pos rfl]
    exact (min_le_right _ _).trans ih

theorem aligned_dist (a b : List α) : Aligned a b (dist a b) := by
  induction a, b using dist.induct with
  | case1 ys =>
    rw [dist_nil_left]
    induction ys with
    | nil => exact .nil
    | cons y ys ih => exact ih.insert y
  | case2 x xs =>
    rw [dist_nil_right]
    generalize x :: xs = l
    induction l with
    | nil => exact .nil
    | cons x xs ih => exact ih.remove x
  | case3 x xs y ys ih₁ ih₂ ih₃ =>
    rw [dist_cons_cons]
    -- the least of the three ways is one of them
    rcases min_choice (min (dist xs (y :: ys) + 1) (dist (x :: xs) ys + 1)) (dist xs ys + if x = y then 0 else 1) with h | h
    · rw [h]
      rcases min_choice (dist xs (y :: ys) + 1) (dist (x :: xs) ys + 1) with h | h
      · rw [h]
        exact ih₁.remove x
      · rw [h]
        exact ih₂.insert y
    · rw [h]
      split_ifs with hxy
      · subst hxy
        exact ih₃.keep x
      · exact ih₃.replace x y

theorem dist_reverse (a b : List α) : dist a.reverse b.reverse = dist a b := by
  apply le_antisymm
  · exact dist_le (aligned_dist a b).reverse
  · have := dist_le (aligned_dist a.reverse b.reverse).reverse
    rwa [List.reverse_reverse, List.reverse_reverse] at this

/-- The recurrence gives the least number of edits. -/
theorem dist_isLeast (a b : List α) : IsLeast {n | Reaches n a b} (dist a b) := by
  constructor
  · exact (aligned_dist a b).reaches
  · intro n hn
    obtain ⟨k, hk, hal⟩ := Reaches.near hn
    exact (dist_le hal).trans hk

end Dist

end Edits
