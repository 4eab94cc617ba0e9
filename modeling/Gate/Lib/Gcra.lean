import Mathlib.Algebra.Order.Field.Basic
import Mathlib.Data.Rat.Floor
import Mathlib.Tactic

/-! The generic cell rate algorithm, in exact arithmetic. A bucket of depth `tau` (a time) is
drained by `T` per cell; its whole state is the theoretical arrival time `tat`. A grant of
`n` cells at `now` needs `n * T ≤ now + tau - max tat now`, and moves `tat` on by `n * T`. -/

namespace Gcra

variable {T tau s b tat tat' now sum n : ℚ}

/-- `sum` cells were granted from `s` on and by `b`: they have pushed the arrival time on, and
did not pass the bucket's depth. -/
def Paced (T tau s b sum tat : ℚ) : Prop := s + sum * T ≤ tat ∧ s + sum * T ≤ b + tau

/-- A first grant, from `s` on. -/
theorem paced_first (hs : s ≤ now) (hb : now ≤ b) (hn : n * T ≤ now + tau - max tat now)
    (ht : max tat now + n * T ≤ tat') : Paced T tau s b n tat' := by
  have hnow : now ≤ max tat now := le_max_right _ _
  exact ⟨by linarith, by linarith⟩

/-- A further grant by `b`. -/
theorem Paced.grant (h : Paced T tau s b sum tat) (hb : now ≤ b) (hn : n * T ≤ now + tau - max tat now)
    (ht : max tat now + n * T ≤ tat') : Paced T tau s b (sum + n) tat' := by
  have htat : tat ≤ max tat now := le_max_left _ _
  have hmul : (sum + n) * T = sum * T + n * T := by ring
  obtain ⟨h₁, -⟩ := h
  exact ⟨by rw [hmul]; linarith, by rw [hmul]; linarith⟩

/-- The arrival time moves on. -/
theorem Paced.mono (h : Paced T tau s b sum tat) (ht : tat ≤ tat') : Paced T tau s b sum tat' :=
  ⟨h.1.trans ht, h.2⟩

/-- A bucket of `B` cells drained at `r` a second, in milliseconds: what is granted in the
interval is at most `B` and what the interval drains. -/
theorem Paced.le {B r : ℚ} (hr : 0 < r) (h : Paced (1000 / r) (B * (1000 / r)) s b sum tat) :
    sum ≤ B + r * (b - s) / 1000 := by
  have h₁ : (sum - B) * (1000 / r) ≤ b - s := by
    have := h.2
    have hmul : (sum - B) * (1000 / r) = sum * (1000 / r) - B * (1000 / r) := by ring
    rw [hmul]
    linarith
  have h₂ : (sum - B) * 1000 ≤ (b - s) * r := by
    calc (sum - B) * 1000 = (sum - B) * (1000 / r) * r := by field_simp
      _ ≤ (b - s) * r := mul_le_mul_of_nonneg_right h₁ hr.le
  linarith

/-- When an empty bucket has a cell again, in whole units of the clock: `x` is the arrival time, and
the bucket holds at least one cell when full. -/
theorem hint {x t R : ℤ} (htau : T ≤ tau) (hempty : (t : ℚ) + tau - x < T) (hR : R = max ⌈(x : ℚ) + T - tau - t⌉ 1) :
    T ≤ ((t + R : ℤ) : ℚ) + tau - max (x : ℚ) (t + R : ℤ) ∧
      ∀ t' : ℤ, t' < t + R → (t' : ℚ) + tau - max (x : ℚ) t' < T := by
  have hpos : 0 < ⌈(x : ℚ) + T - tau - t⌉ := Int.ceil_pos.mpr (by linarith)
  have hR' : R = ⌈(x : ℚ) + T - tau - t⌉ := by rw [hR, max_eq_left (by omega)]
  constructor
  · have hle : (x : ℚ) + T - tau - t ≤ R := hR' ▸ Int.le_ceil _
    push_cast
    rcases le_total (x : ℚ) (t + R) with h | h
    · rw [max_eq_right h]
      linarith
    · rw [max_eq_left h]
      linarith
  · intro t' ht'
    have hlt : ((t' - t : ℤ) : ℚ) < (x : ℚ) + T - tau - t := Int.lt_ceil.mp (by omega)
    push_cast at hlt
    have hmax : (x : ℚ) ≤ max (x : ℚ) t' := le_max_left _ _
    linarith

end Gcra
