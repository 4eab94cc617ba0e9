import Mathlib.Algebra.Order.BigOperators.Group.Finset
import Mathlib.Tactic

/-! Bounds on balances kept in unboundedly many accounts. `Within P f n bound` says that the
amount `n` kept elsewhere and the balances of any finitely many accounts that meet `P`
together stay within `bound`. -/

namespace Accounts

variable {ι : Type} {P P' : ι → Prop} {f : ι → ℤ} {n n' bound bound' v : ℤ} {x : ι}

def Within (P : ι → Prop) (f : ι → ℤ) (n bound : ℤ) : Prop :=
  ∀ F : Finset ι, (∀ h ∈ F, P h) → n + ∑ h ∈ F, f h ≤ bound

theorem within_zero (h : n ≤ bound) : Within P (fun _ : ι => 0) n bound := by
  intro F _
  simpa using h

theorem Within.le (h : Within P f n bound) : n ≤ bound := by
  simpa using h ∅ (by simp)

theorem Within.mono (h : Within P f n bound) (hn : n' - bound' ≤ n - bound) : Within P f n' bound' := by
  intro F hF
  have := h F hF
  linarith

theorem Within.imp (h : Within P f n bound) (hP : ∀ y, P' y → P y) : Within P' f n bound :=
  fun F hF => h F fun y hy => hP y (hF y hy)

variable [DecidableEq ι]

/-- An account outside `P` may hold anything. -/
theorem Within.update_not (h : Within P f n bound) (hx : ¬P x) (v : ℤ) :
    Within P (Function.update f x v) n bound := by
  intro F hF
  have hxF : x ∉ F := fun hm => hx (hF x hm)
  rw [Finset.sum_update_of_notMem hxF]
  exact h F hF

/-- The balance of `x` becomes `v`, and what is kept elsewhere makes up for it. -/
theorem Within.update (h : Within P f n bound) (hx : P x) (hv : 0 ≤ v) (hn : n' + v ≤ n + f x) :
    Within P (Function.update f x v) n' bound := by
  intro F hF
  by_cases hxF : x ∈ F
  · have hs : ∑ y ∈ F, f y = f x + ∑ y ∈ F \ {x}, f y := by
      rw [Finset.sum_sdiff_eq_sub (by simpa using hxF)]
      simp
    rw [Finset.sum_update_of_mem hxF]
    have := h F hF
    linarith
  · rw [Finset.sum_update_of_notMem hxF]
    have := h (insert x F) fun y hy => by
      rcases Finset.mem_insert.mp hy with rfl | hy
      · exact hx
      · exact hF y hy
    rw [Finset.sum_insert hxF] at this
    linarith

/-- An account that holds nothing may come in. -/
theorem Within.insert (h : Within P f n bound) (hP : ∀ y, P' y → P y ∨ y = x) (hx : f x ≤ 0) :
    Within P' f n bound := by
  intro F hF
  have hs : ∑ y ∈ F, f y ≤ ∑ y ∈ F.erase x, f y := by
    by_cases hxF : x ∈ F
    · rw [← Finset.add_sum_erase F f hxF]
      linarith
    · rw [Finset.erase_eq_of_notMem hxF]
  have := h (F.erase x) fun y hy => by
    obtain ⟨hne, hy⟩ := Finset.mem_erase.mp hy
    exact (hP y (hF y hy)).resolve_right hne
  linarith

/-! Sums over finitely many accounts. -/

theorem sum_map_set {A : Type} (f : A → ℤ) {l : List A} {t : ℕ} {a : A} (h : l[t]? = some a) (a' : A) :
    ((l.set t a').map f).sum = (l.map f).sum + (f a' - f a) := by
  obtain ⟨ht, rfl⟩ := List.getElem?_eq_some_iff.mp h
  rw [List.map_set, List.sum_set', dif_pos (by simpa using ht), List.getElem_map]
  ring

theorem sum_map_eraseIdx {A : Type} (f : A → ℤ) {l : List A} {i : ℕ} {x : A} (h : l[i]? = some x) :
    ((l.eraseIdx i).map f).sum = (l.map f).sum - f x := by
  obtain ⟨hi, rfl⟩ := List.getElem?_eq_some_iff.mp h
  have hp := ((List.getElem_cons_eraseIdx_perm hi).map f).sum_eq
  rw [List.map_cons, List.sum_cons] at hp
  linarith

theorem sum_update [Fintype ι] (f : ι → ℤ) (x : ι) (v : ℤ) :
    ∑ y, Function.update f x v y = ∑ y, f y + (v - f x) := by
  rw [Finset.sum_update_of_mem (Finset.mem_univ x), Finset.sum_sdiff_eq_sub (Finset.subset_univ _),
    Finset.sum_singleton]
  ring

end Accounts
