import Mathlib.Data.Rat.Floor
import Mathlib.Tactic

/-! Logs of labelled amounts, and windows counted from zero by truncating division. A log labelled by
times is smooth when every amount fits its window's limit together with what the window already has
and the share of the window before it that still weighs on the moment. A smooth log passes the limit
by at most the fraction of a window that an interval covers. -/

namespace Windows

variable {w t u : ℤ}

theorem lt_end (hw : 0 < w) (t : ℤ) : t < (t.tdiv w + 1) * w := by
  have h : t / w ≤ t.tdiv w := by
    rw [Int.tdiv_eq_ediv]
    split
    · omega
    · rw [Int.sign_eq_one_of_pos hw]
      omega
  calc t < (t / w + 1) * w := Int.lt_ediv_add_one_mul_self t hw
    _ ≤ (t.tdiv w + 1) * w := Int.mul_le_mul_of_nonneg_right (by omega) hw.le

theorem start_le (hw : 0 < w) (ht : 0 ≤ t) : t.tdiv w * w ≤ t := by
  rw [Int.tdiv_eq_ediv_of_nonneg ht]
  exact Int.ediv_mul_le t hw.ne'

/-- A moment lies before the window after its own begins, also for the windows before zero. -/
theorem le_start_of_tdiv (hw : 0 < w) (h : u.tdiv w = t.tdiv w - 1) : u ≤ t.tdiv w * w := by
  have := lt_end hw u
  rw [h, sub_add_cancel] at this
  exact this.le

/-- Moments less than a window apart are in the same window or in adjacent ones. -/
theorem tdiv_near (hw : 0 < w) (hut : u ≤ t) (htu : t ≤ u + w) : u.tdiv w = t.tdiv w ∨ u.tdiv w = t.tdiv w - 1 := by
  have hle : u.tdiv w ≤ t.tdiv w := Int.tdiv_le_tdiv hw hut
  have hnext : t.tdiv w ≤ u.tdiv w + 1 := by
    calc t.tdiv w ≤ (u + w).tdiv w := Int.tdiv_le_tdiv hw htu
      _ ≤ u.tdiv w + 1 := ?_
    have hdiv : (u + w) / w = u / w + 1 := by rw [Int.add_ediv_of_dvd_right dvd_rfl, Int.ediv_self hw.ne']
    have himp : 0 ≤ u ∨ w ∣ u → 0 ≤ u + w ∨ w ∣ u + w := Or.imp (by omega) dvd_add_self_right.mpr
    rw [Int.tdiv_eq_ediv, Int.tdiv_eq_ediv, hdiv, Int.sign_eq_one_of_pos hw]
    split_ifs with h₁ h₂ h₂
    · omega
    · omega
    · exact absurd (himp h₂) h₁
    · omega
  omega

/-- A quota's counters `u`, one for each window: within the limit, and from the current window `cur` on
what is due to the window. -/
structure Follows (limit cur : ℤ) (u due : ℤ → ℤ) : Prop where
  nonneg : ∀ v, 0 ≤ u v
  le : ∀ v, u v ≤ limit
  due : ∀ v, cur ≤ v → u v = due v
  ahead : ∀ v, cur < v → u v = 0

variable {limit cur cur' n k : ℤ} {c c' due due' : ℤ → ℤ}

theorem Follows.later (h : Follows limit cur c due) (hcur : cur ≤ cur') : Follows limit cur' c due :=
  ⟨h.nonneg, h.le, fun v hv => h.due v (hcur.trans hv), fun v hv => h.ahead v (hcur.trans_lt hv)⟩

/-- More is charged to the current window, within the limit. -/
theorem Follows.add (h : Follows limit cur c due) (hn : 0 ≤ n) (hle : n = 0 ∨ c cur + n ≤ limit)
    (hc : ∀ v, c' v = c v + if v = cur then n else 0) (hdue : ∀ v, due' v = due v + if v = cur then n else 0) :
    Follows limit cur c' due' := by
  refine ⟨fun v => ?_, fun v => ?_, fun v hv => ?_, fun v hv => ?_⟩
  · have := h.nonneg v
    rw [hc]
    split <;> omega
  · have := h.le v
    rw [hc]
    split
    · rename_i hv
      rw [hv] at this ⊢
      omega
    · omega
  · rw [hc, hdue, h.due v hv]
  · rw [hc, if_neg hv.ne', add_zero, h.ahead v hv]

/-- Some of what is due to a window is given back: the counter follows if the window is still
current, and is never clamped. -/
theorem Follows.sub (h : Follows limit cur c due) (hn : 0 ≤ n) (hle : n ≤ due k)
    (hc : ∀ v, c' v = if v = k ∧ cur = k then c k - min n (c k) else c v)
    (hdue : ∀ v, due' v = due v - if v = k then n else 0) : Follows limit cur c' due' := by
  have hfit : cur ≤ k → n ≤ c k := fun hv => (h.due k hv).symm ▸ hle
  refine ⟨fun v => ?_, fun v => ?_, fun v hv => ?_, fun v hv => ?_⟩
  · have := h.nonneg v
    rw [hc]
    split <;> omega
  · have := h.le v
    rw [hc]
    split
    · rename_i hv
      rw [hv.1] at this
      have := hfit hv.2.le
      omega
    · exact this
  · have hv' := h.due v hv
    rw [hc, hdue]
    by_cases he : v = k
    · rw [he] at hv hv' ⊢
      have := hfit hv
      by_cases hcur : cur = k
      · rw [if_pos ⟨rfl, hcur⟩, if_pos rfl]
        omega
      · -- nothing is due to a window that has not begun
        have := h.ahead k (lt_of_le_of_ne hv hcur)
        rw [if_neg fun hh => hcur hh.2, if_pos rfl]
        omega
    · rw [if_neg fun hh => he hh.1, if_neg he]
      omega
  · rw [hc, if_neg (by omega), h.ahead v hv]

end Windows

namespace Tally

variable {α : Type} {P P' : α → Prop} [DecidablePred P] [DecidablePred P'] {log : List (α × ℤ)}

/-- The amounts logged under labels that meet `P`. -/
def total (P : α → Prop) [DecidablePred P] (log : List (α × ℤ)) : ℤ := ((log.filter fun x => P x.1).map Prod.snd).sum

def NonNeg (log : List (α × ℤ)) : Prop := ∀ x ∈ log, 0 ≤ x.2

@[simp] theorem total_nil : total P [] = 0 := rfl

@[simp] theorem total_append (l l' : List (α × ℤ)) : total P (l ++ l') = total P l + total P l' := by
  simp [total]

@[simp] theorem total_cons (x : α × ℤ) (l : List (α × ℤ)) :
    total P (x :: l) = (if P x.1 then x.2 else 0) + total P l := by
  by_cases h : P x.1 <;> simp [total, h]

/-- The same amounts, taken away. -/
def negate (log : List (α × ℤ)) : List (α × ℤ) := log.map fun x => (x.1, -x.2)

@[simp] theorem total_negate (log : List (α × ℤ)) : total P (negate log) = -total P log := by
  induction log with
  | nil => rfl
  | cons x l ih =>
    have hcons : negate (x :: l) = (x.1, -x.2) :: negate l := rfl
    rw [hcons, total_cons, total_cons, ih]
    split <;> ring

theorem total_nonneg (h : NonNeg log) : 0 ≤ total P log := by
  refine List.sum_nonneg fun n hn => ?_
  obtain ⟨x, hx, rfl⟩ := List.mem_map.mp hn
  exact h x (List.mem_of_mem_filter hx)

theorem total_le_add {A B : α → Prop} [DecidablePred A] [DecidablePred B] (hn : NonNeg log)
    (h : ∀ x ∈ log, P x.1 → A x.1 ∨ B x.1) : total P log ≤ total A log + total B log := by
  induction log with
  | nil => exact le_rfl
  | cons x l ih =>
    have hx : 0 ≤ x.2 := hn x List.mem_cons_self
    have hl := ih (fun y hy => hn y (List.mem_cons_of_mem _ hy)) fun y hy => h y (List.mem_cons_of_mem _ hy)
    have hh := h x List.mem_cons_self
    simp only [total_cons]
    by_cases hP : P x.1
    · rcases hh hP with hA | hB
      · rw [if_pos hP, if_pos hA]
        split <;> omega
      · rw [if_pos hP, if_pos hB]
        split <;> omega
    · rw [if_neg hP]
      split <;> split <;> omega

theorem total_false (log : List (α × ℤ)) : total (fun _ : α => False) log = 0 := by
  simp [total]

theorem total_mono (hn : NonNeg log) (h : ∀ x ∈ log, P x.1 → P' x.1) : total P log ≤ total P' log := by
  have := total_le_add (B := fun _ => False) hn fun x hx hP => .inl (h x hx hP)
  rwa [total_false, add_zero] at this

/-- The last amount that counts. -/
theorem total_last (P : α → Prop) [DecidablePred P] (log : List (α × ℤ)) :
    total P log = 0 ∨ ∃ l t n l', log = l ++ (t, n) :: l' ∧ P t ∧ n ≠ 0 ∧ total P log = total P l + n := by
  induction log using List.reverseRecOn with
  | nil => exact .inl rfl
  | append_singleton log x ih =>
    by_cases hx : P x.1 ∧ x.2 ≠ 0
    · exact .inr ⟨log, x.1, x.2, [], rfl, hx.1, hx.2, by simp [hx.1]⟩
    · have hsame : total P (log ++ [x]) = total P log := by
        rw [total_append, total_cons, total_nil, add_zero, add_eq_left, ite_eq_right_iff]
        exact fun hP => not_not.mp fun hn => hx ⟨hP, hn⟩
      rw [hsame]
      rcases ih with h | ⟨l, t, n, l', rfl, h⟩
      · exact .inl h
      · exact .inr ⟨l, t, n, l' ++ [x], by simp, h⟩

theorem total_split (P P' : α → Prop) [DecidablePred P] [DecidablePred P'] (log : List (α × ℤ)) :
    total P log = total (fun a => P a ∧ P' a) log + total (fun a => P a ∧ ¬ P' a) log := by
  induction log with
  | nil => rfl
  | cons x l ih =>
    rw [total_cons, total_cons, total_cons, ih]
    by_cases hP : P x.1 <;> by_cases hP' : P' x.1 <;> simp [hP, hP'] <;> ring

section Labels

variable [DecidableEq α]

theorem sum_total (F : Finset α) (log : List (α × ℤ)) : ∑ a ∈ F, total (· = a) log = total (· ∈ F) log := by
  induction log with
  | nil => simp
  | cons x l ih =>
    simp only [total_cons, Finset.sum_add_distrib, ih, Finset.sum_ite_eq]

/-- What no label owes, no set of labels owes. -/
theorem total_nonneg_of_labels (h : ∀ a, 0 ≤ total (· = a) log) : 0 ≤ total P log := by
  have heq : total P log = total (· ∈ (log.map Prod.fst).toFinset.filter P) log := by
    unfold total
    congr 2
    refine List.filter_congr fun x hx => ?_
    have hmem : x.1 ∈ (log.map Prod.fst).toFinset := List.mem_toFinset.mpr (List.mem_map_of_mem hx)
    simp [hmem]
  rw [heq, ← sum_total]
  exact Finset.sum_nonneg fun a _ => h a

theorem sum_total_le (h : ∀ a, 0 ≤ total (· = a) log) {F : Finset α} (hF : ∀ a ∈ F, P a) :
    ∑ a ∈ F, total (· = a) log ≤ total P log := by
  have hsub : total (fun a => P a ∧ a ∈ F) log = total (· ∈ F) log := by
    unfold total
    congr 2
    refine List.filter_congr fun x _ => ?_
    simpa using hF x.1
  rw [sum_total, total_split P (· ∈ F), hsub]
  exact le_add_of_nonneg_right (total_nonneg_of_labels h)

theorem total_label_le (h : ∀ a, 0 ≤ total (· = a) log) {a : α} (ha : P a) : total (· = a) log ≤ total P log := by
  have := sum_total_le h (F := {a}) (P := P) (by simpa using ha)
  rwa [Finset.sum_singleton] at this

end Labels

/-! ### Smoothing -/

/-- The share of the window before `t`'s own that still weighs on `t`. -/
def weight (w t : ℤ) : ℚ := 1 - (t - t.tdiv w * w : ℤ) / w

/-- What window `k` has. -/
def inWindow (w k : ℤ) (log : List (ℤ × ℤ)) : ℤ := total (fun t => t.tdiv w = k) log

/-- The amount `n` logged at `t` fits after `log`. -/
def Fits (Q w : ℤ) (log : List (ℤ × ℤ)) (t n : ℤ) : Prop :=
  0 ≤ n ∧ (n ≠ 0 → (inWindow w (t.tdiv w) log + n : ℚ) + inWindow w (t.tdiv w - 1) log * weight w t ≤ Q)

def Smooth (Q w : ℤ) (log : List (ℤ × ℤ)) : Prop := ∀ l t n l', log = l ++ (t, n) :: l' → Fits Q w l t n

variable {log : List (ℤ × ℤ)} {Q w t n : ℤ}

theorem smooth_nil : Smooth Q w [] := by
  intro l t n l' h
  simp at h

theorem Smooth.snoc (h : Smooth Q w log) (hf : Fits Q w log t n) : Smooth Q w (log ++ [(t, n)]) := by
  intro l t' n' l' heq
  rcases List.eq_nil_or_concat l' with rfl | ⟨l', y, rfl⟩
  · obtain ⟨rfl, hx⟩ := List.append_inj' heq rfl
    cases hx
    exact hf
  · have : log ++ [(t, n)] = (l ++ (t', n') :: l') ++ [y] := by simpa using heq
    exact h l t' n' l' (List.append_inj' this rfl).1

theorem Smooth.nonNeg (h : Smooth Q w log) : NonNeg log := by
  intro x hx
  obtain ⟨l, l', rfl⟩ := List.append_of_mem hx
  exact (h l x.1 x.2 l' rfl).1

theorem weight_nonneg (hw : 0 < w) (t : ℤ) : 0 ≤ weight w t := by
  have hw' : (0 : ℚ) < w := by exact_mod_cast hw
  have hlt := Windows.lt_end hw t
  rw [weight, sub_nonneg, div_le_one hw']
  exact_mod_cast (by linarith : t - t.tdiv w * w ≤ w)

/-- No window passes the limit. -/
theorem Smooth.inWindow_le (hw : 0 < w) (hQ : 0 ≤ Q) (h : Smooth Q w log) (k : ℤ) : inWindow w k log ≤ Q := by
  rcases total_last (fun t => t.tdiv w = k) log with h0 | ⟨l, t, n, l', rfl, rfl, hn, hsum⟩
  · rw [inWindow, h0]
    exact hQ
  · have hl : NonNeg l := fun x hx => h.nonNeg x (List.mem_append_left _ hx)
    have hfit := (h l t n l' rfl).2 hn
    have hprev : (0 : ℚ) ≤ inWindow w (t.tdiv w - 1) l * weight w t :=
      mul_nonneg (by exact_mod_cast total_nonneg hl) (weight_nonneg hw t)
    rw [inWindow, hsum]
    have hle : (inWindow w (t.tdiv w) l : ℚ) + n ≤ Q := by linarith
    exact_mod_cast hle

/-- What an interval of at most a window has. -/
theorem Smooth.interval_le (hw : 0 < w) (hQ : 0 ≤ Q) (h : Smooth Q w log) (hs : log.Pairwise fun x y => x.1 ≤ y.1)
    {a d : ℚ} (hd : 0 ≤ d) (hdw : d ≤ w) : (total (fun t : ℤ => a ≤ t ∧ (t : ℚ) ≤ a + d) log : ℚ) ≤ Q + Q * d / w := by
  have hw' : (0 : ℚ) < w := by exact_mod_cast hw
  have hQ' : (0 : ℚ) ≤ Q := by exact_mod_cast hQ
  have hQd : (0 : ℚ) ≤ Q * d / w := by positivity
  rcases total_last (fun t : ℤ => a ≤ t ∧ (t : ℚ) ≤ a + d) log with h0 | ⟨l, t, n, l', rfl, ht, hn, hsum⟩
  · rw [h0, Int.cast_zero]
    linarith
  have hl : NonNeg l := fun x hx => h.nonNeg x (List.mem_append_left _ hx)
  have hfit := (h l t n l' rfl).2 hn
  -- what came before in the interval is in the window of `t` or in the one before it
  have hbefore : ∀ x ∈ l, x.1 ≤ t := fun x hx => (List.pairwise_append.mp hs).2.2 x hx (t, n) List.mem_cons_self
  have hnear : ∀ x ∈ l, a ≤ x.1 ∧ (x.1 : ℚ) ≤ a + d → x.1.tdiv w = t.tdiv w ∨ x.1.tdiv w = t.tdiv w - 1 := by
    intro x hx hin
    refine Windows.tdiv_near hw (hbefore x hx) ?_
    exact_mod_cast (by linarith [ht.2, hin.1] : (t : ℚ) ≤ x.1 + w)
  by_cases hex : ∃ x ∈ l, (a ≤ x.1 ∧ (x.1 : ℚ) ≤ a + d) ∧ x.1.tdiv w = t.tdiv w - 1
  · obtain ⟨x, hx, hin, hwin⟩ := hex
    have hfrac : ((t - t.tdiv w * w : ℤ) : ℚ) / w ≤ d / w := by
      have hstart : (x.1 : ℚ) ≤ (t.tdiv w * w : ℤ) := by exact_mod_cast Windows.le_start_of_tdiv hw hwin
      refine div_le_div_of_nonneg_right ?_ hw'.le
      push_cast at hstart ⊢
      linarith [ht.2, hin.1]
    have hle : total (fun u : ℤ => a ≤ u ∧ (u : ℚ) ≤ a + d) l ≤
        inWindow w (t.tdiv w) l + inWindow w (t.tdiv w - 1) l := total_le_add hl hnear
    have hle' : ((total (fun u : ℤ => a ≤ u ∧ (u : ℚ) ≤ a + d) l : ℤ) : ℚ) ≤
        inWindow w (t.tdiv w) l + inWindow w (t.tdiv w - 1) l := by exact_mod_cast hle
    have hl' : Smooth Q w l := fun p u m p' heq => h p u m (p' ++ (t, n) :: l') (by simp [heq])
    have hprev0 : (0 : ℚ) ≤ inWindow w (t.tdiv w - 1) l := by exact_mod_cast total_nonneg hl
    have hprevQ : (inWindow w (t.tdiv w - 1) l : ℚ) ≤ Q := by exact_mod_cast hl'.inWindow_le hw hQ _
    have hdw0 : (0 : ℚ) ≤ d / w := by positivity
    rw [hsum, Int.cast_add]
    rw [weight] at hfit
    calc ((total (fun u : ℤ => a ≤ u ∧ (u : ℚ) ≤ a + d) l : ℤ) : ℚ) + n
        ≤ Q + inWindow w (t.tdiv w - 1) l * (((t - t.tdiv w * w : ℤ) : ℚ) / w) := by linarith
      _ ≤ Q + inWindow w (t.tdiv w - 1) l * (d / w) := by gcongr
      _ ≤ Q + Q * (d / w) := by gcongr
      _ = Q + Q * d / w := by rw [mul_div_assoc]
  · have hle : total (fun u : ℤ => a ≤ u ∧ (u : ℚ) ≤ a + d) l ≤ inWindow w (t.tdiv w) l :=
      total_mono hl fun x hx hin => (hnear x hx hin).resolve_right fun hk => hex ⟨x, hx, hin, hk⟩
    have hle' : ((total (fun u : ℤ => a ≤ u ∧ (u : ℚ) ≤ a + d) l : ℤ) : ℚ) ≤ inWindow w (t.tdiv w) l := by
      exact_mod_cast hle
    have hprev : (0 : ℚ) ≤ inWindow w (t.tdiv w - 1) l * weight w t :=
      mul_nonneg (by exact_mod_cast total_nonneg hl) (weight_nonneg hw t)
    rw [hsum, Int.cast_add]
    linarith

end Tally
