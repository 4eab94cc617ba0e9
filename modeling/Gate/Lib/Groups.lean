import Mathlib.Data.List.AList
import Mathlib.Tactic

/-! Gathering by key: maps from keys to accumulators, updated one key at a time, what such a map adds
up to, and sums over the elements of a list that have a key. -/

namespace Groups

variable {K A E M : Type} [DecidableEq K] [AddCommMonoid M]

/-- The accumulator of `k` is made from the one there was. -/
def upsert (m : AList fun _ : K => A) (k : K) (f : Option A → A) : AList fun _ : K => A := m.insert k (f (m.lookup k))

/-- What the map adds up to. -/
def total (μ : A → M) (m : AList fun _ : K => A) : M := (m.entries.map fun x => μ x.2).sum

/-- What the map has for one key. -/
def value (μ : A → M) (m : AList fun _ : K => A) (k : K) : M := ((m.lookup k).map μ).getD 0

variable {μ : A → M} {m : AList fun _ : K => A} {k : K} {f : Option A → A} {d : M}

omit [DecidableEq K] in
@[simp] theorem total_empty : total μ (∅ : AList fun _ : K => A) = 0 := rfl

@[simp] theorem value_empty : value μ (∅ : AList fun _ : K => A) k = 0 := rfl

theorem sum_kerase (μ : A → M) (k : K) (l : List (Sigma fun _ : K => A)) :
    (l.map fun x => μ x.2).sum = ((l.dlookup k).map μ).getD 0 + ((l.kerase k).map fun x => μ x.2).sum := by
  induction l with
  | nil => simp
  | cons x l ih =>
    obtain ⟨k', a⟩ := x
    by_cases hk : k = k'
    · subst hk
      simp [List.kerase_cons_eq, List.dlookup_cons_eq]
    · rw [List.kerase_cons_ne hk, List.dlookup_cons_ne l ⟨k', a⟩ hk]
      simp only [List.map_cons, List.sum_cons, ih]
      exact add_left_comm _ _ _

theorem total_eq (μ : A → M) (m : AList fun _ : K => A) (k : K) :
    total μ m = value μ m k + ((m.entries.kerase k).map fun x => μ x.2).sum := sum_kerase μ k m.entries

/-- An update that adds `d` for its key adds `d` to the whole. -/
theorem total_upsert (h : μ (f (m.lookup k)) = value μ m k + d) : total μ (upsert m k f) = total μ m + d := by
  have hinsert : total μ (upsert m k f) = μ (f (m.lookup k)) + ((m.entries.kerase k).map fun x => μ x.2).sum := by
    simp [total, upsert, AList.entries_insert]
  rw [hinsert, h, total_eq μ m k]
  exact add_right_comm _ _ _

theorem value_upsert_self (h : μ (f (m.lookup k)) = value μ m k + d) : value μ (upsert m k f) k = value μ m k + d := by
  rw [← h]
  simp [value, upsert]

theorem value_upsert_ne {k' : K} (hk : k' ≠ k) : value μ (upsert m k f) k' = value μ m k' := by
  simp [value, upsert, AList.lookup_insert_ne hk]

theorem lookup_upsert_self : (upsert m k f).lookup k = some (f (m.lookup k)) := AList.lookup_insert m

theorem lookup_upsert_ne {k' : K} (hk : k' ≠ k) : (upsert m k f).lookup k' = m.lookup k' := AList.lookup_insert_ne hk

/-- What holds of the new accumulator and of the old ones holds of all. -/
theorem forall_upsert {P : A → Prop} (hm : ∀ x ∈ m.entries, P x.2) (h : P (f (m.lookup k))) :
    ∀ x ∈ (upsert m k f).entries, P x.2 := by
  intro x hx
  rw [upsert, AList.entries_insert, List.mem_cons] at hx
  rcases hx with rfl | hx
  · exact h
  · exact hm x ((List.kerase_sublist k m.entries).subset hx)

/-- What holds of all accumulators, and of none, holds of the one of a key. -/
theorem of_lookup {P : A → Prop} (hm : ∀ x ∈ m.entries, P x.2) {a : A} (h : m.lookup k = some a) : P a :=
  hm ⟨k, a⟩ (List.of_mem_dlookup h)

/-! Sums over the elements of a list that have a key. -/

section

variable (key : E → K) (w : E → M)

def sumAt (l : List E) (k : K) : M := ((l.filter fun e => key e = k).map w).sum

@[simp] theorem sumAt_nil (k : K) : sumAt key w [] k = 0 := rfl

theorem sumAt_cons (e : E) (l : List E) (k : K) : sumAt key w (e :: l) k = (if key e = k then w e else 0) + sumAt key w l k := by
  by_cases h : key e = k <;> simp [sumAt, h]

theorem sumAt_append (l l' : List E) (k : K) : sumAt key w (l ++ l') k = sumAt key w l k + sumAt key w l' k := by
  simp [sumAt]

/-- Gathering a list by key, where every element adds its weight to the accumulator of its key. -/
theorem value_gather {f : E → Option A → A} (h : ∀ e o, μ (f e o) = (o.map μ).getD 0 + w e) (l : List E)
    (m : AList fun _ : K => A) (k : K) :
    value μ (l.foldl (fun m e => upsert m (key e) (f e)) m) k = value μ m k + sumAt key w l k := by
  induction l generalizing m with
  | nil => simp
  | cons e l ih =>
    rw [List.foldl_cons, ih, sumAt_cons, ← add_assoc]
    congr 1
    by_cases hk : key e = k
    · subst hk
      rw [if_pos rfl]
      exact value_upsert_self (h e _)
    · rw [if_neg hk, add_zero]
      exact value_upsert_ne (Ne.symm hk)

theorem total_gather {f : E → Option A → A} (h : ∀ e o, μ (f e o) = (o.map μ).getD 0 + w e) (l : List E)
    (m : AList fun _ : K => A) : total μ (l.foldl (fun m e => upsert m (key e) (f e)) m) = total μ m + (l.map w).sum := by
  induction l generalizing m with
  | nil => simp
  | cons e l ih =>
    rw [List.foldl_cons, ih, List.map_cons, List.sum_cons, ← add_assoc]
    congr 1
    exact total_upsert (h e _)

/-- Summed over different keys, every element that has one of them counts once. -/
theorem sum_sumAt {ks : List K} (hks : ks.Nodup) (l : List E) :
    (ks.map (sumAt key w l)).sum = ((l.filter fun e => key e ∈ ks).map w).sum := by
  induction l with
  | nil =>
    have hzero : sumAt key w [] = fun _ => 0 := rfl
    simp [hzero]
  | cons e l ih =>
    have hone : (ks.map fun k => if key e = k then w e else 0).sum = if key e ∈ ks then w e else 0 := by
      clear ih
      induction ks with
      | nil => simp
      | cons k ks ihk =>
        rw [List.nodup_cons] at hks
        simp only [List.map_cons, List.sum_cons, List.mem_cons, ihk hks.2]
        by_cases hk : key e = k
        · simp [hk, hks.1]
        · simp [hk]
    have hsplit : (ks.map (sumAt key w (e :: l))).sum =
        (ks.map fun k => if key e = k then w e else 0).sum + (ks.map (sumAt key w l)).sum := by
      rw [← List.sum_map_add]
      exact congrArg List.sum (List.map_congr_left fun k _ => sumAt_cons key w e l k)
    rw [hsplit, hone, ih]
    by_cases he : key e ∈ ks <;> simp [he]

/-- The same, where the keys are looked up by `u`. -/
theorem sum_sumAt_map {T : Type} {ts : List T} {u : T → K} (hts : (ts.map u).Nodup) (l : List E) :
    (ts.map fun t => sumAt key w l (u t)).sum = ((l.filter fun e => key e ∈ ts.map u).map w).sum := by
  rw [← sum_sumAt key w hts l, List.map_map]
  rfl

end

/-! A loop whose turns gather under keys of their own. -/

section Turns

variable {S B N : Type} {g : S → B → S} (shows : S → K → N → Prop) (mine : B → K → Prop) (adds : B → K → N → Prop)

omit [DecidableEq K] in
/-- Each turn adds what it has to add where nothing is yet, and no other turn writes there: the loop
then shows what some turn adds, or what was there before. -/
theorem shows_foldl (l : List B) (hturn : ∀ s, ∀ x ∈ l, (∀ k v, mine x k → ¬shows s k v) →
      ∀ k v, shows (g s x) k v ↔ adds x k v ∨ shows s k v)
    (happart : l.Pairwise fun x y => ∀ k v, adds x k v → ¬mine y k) (s : S)
    (hfresh : ∀ x ∈ l, ∀ k v, mine x k → ¬shows s k v) (k : K) (v : N) :
    shows (l.foldl g s) k v ↔ (∃ x ∈ l, adds x k v) ∨ shows s k v := by
  induction l generalizing s with
  | nil => simp
  | cons x l ih =>
    have hx := hturn s x List.mem_cons_self (hfresh x List.mem_cons_self)
    obtain ⟨hothers, hrest⟩ := List.pairwise_cons.mp happart
    have hnext : ∀ y ∈ l, ∀ k v, mine y k → ¬shows (g s x) k v := by
      intro y hy k v hm hs
      rcases (hx k v).mp hs with ha | hold
      · exact hothers y hy k v ha hm
      · exact hfresh y (List.mem_cons_of_mem _ hy) k v hm hold
    rw [List.foldl_cons, ih (fun s y hy => hturn s y (List.mem_cons_of_mem _ hy)) hrest _ hnext, hx k v]
    simp only [List.mem_cons, exists_eq_or_imp]
    rw [← or_assoc, or_comm (a := ∃ y ∈ l, _)]

end Turns

end Groups
