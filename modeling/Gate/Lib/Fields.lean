import Mathlib

/-! Text in fields, with a separator between them. -/

namespace Fields

variable {α : Type} {c m : α}

section
variable [DecidableEq α]

theorem splitOn_snoc (a b : List α) : (a ++ c :: b).splitOn c = a.splitOn c ++ b.splitOn c :=
  List.splitOnP_append_cons a b (beq_self_eq_true c)

theorem splitOn_plain {l : List α} (h : c ∉ l) : l.splitOn c = [l] := by
  have hl : ∀ l' ∈ [l], c ∉ l' := by simpa using h
  simpa using List.splitOn_intercalate c hl (List.cons_ne_nil _ _)

theorem splitOn_ne_nil (l : List α) : l.splitOn c ≠ [] := List.splitOnP_ne_nil _ _

end

/-- A text whose last field has a mark in it. -/
def Marked (c m : α) (l : List α) : Prop := ∃ e f, l = e ++ c :: f ∧ c ∉ f ∧ m ∈ f

/-- Where a continued text ends in a marked field, the mark is in what was added. -/
theorem Marked.mem_of_append {a u : List α} (h : Marked c m (a ++ u)) (hu : c ∈ u) : m ∈ u := by
  obtain ⟨e, f, he, hf, hm⟩ := h
  rcases List.append_eq_append_iff.mp he with ⟨v, -, hr⟩ | ⟨v, -, hr⟩
  · rw [hr]
    exact List.mem_append_right _ (List.mem_cons_of_mem _ hm)
  · rcases v with - | ⟨x, v⟩
    · rw [List.nil_append] at hr
      rw [← hr]
      exact List.mem_cons_of_mem _ hm
    · rw [List.cons_append, List.cons.injEq] at hr
      exact absurd (hr.2 ▸ List.mem_append_right v hu) hf

/-- Two texts with a marked last field, continued to the same text: they are the same, or one of
them has a marked start of its continuation more. -/
theorem Marked.append_eq {a b s t : List α} (ha : Marked c m a) (hb : Marked c m b)
    (hs : s = [] ∨ ∃ s', s = c :: s') (ht : t = [] ∨ ∃ t', t = c :: t') (h : a ++ s = b ++ t) :
    a = b ∨ (∃ u, b = a ++ u ∧ u <+: s ∧ m ∈ u) ∨ ∃ u, a = b ++ u ∧ u <+: t ∧ m ∈ u := by
  have mark : ∀ {a u s : List α}, Marked c m (a ++ u) → (s = [] ∨ ∃ s', s = c :: s') → u <+: s → u ≠ [] → m ∈ u := by
    rintro a u s hau hs ⟨v, rfl⟩ hu
    apply hau.mem_of_append
    rcases hs with hs | ⟨s', hs⟩
    · exact absurd (List.append_eq_nil_iff.mp hs).1 hu
    · rcases u with - | ⟨x, u⟩
      · exact absurd rfl hu
      · rw [List.cons_append, List.cons.injEq] at hs
        rw [hs.1]
        exact List.mem_cons_self
  rcases List.append_eq_append_iff.mp h with ⟨u, rfl, hu⟩ | ⟨u, rfl, hu⟩
  · by_cases hn : u = []
    · exact .inl (by rw [hn, List.append_nil])
    · exact .inr (.inl ⟨u, rfl, ⟨t, hu.symm⟩, mark hb hs ⟨t, hu.symm⟩ hn⟩)
  · by_cases hn : u = []
    · exact .inl (by rw [hn, List.append_nil])
    · exact .inr (.inr ⟨u, rfl, ⟨s, hu.symm⟩, mark ha ht ⟨s, hu.symm⟩ hn⟩)

/-- Behind an unmarked tag, a marked start of the text goes past the tag. -/
theorem continues_of_prefix {u tag d : List α} (h : u <+: tag ++ d) (htag : m ∉ tag) (hm : m ∈ u) : ∃ x, u = tag ++ x := by
  rcases List.prefix_or_prefix_of_prefix h (List.prefix_append tag d) with hu | ⟨x, hx⟩
  · exact absurd (hu.subset hm) htag
  · exact ⟨x, hx.symm⟩

end Fields
