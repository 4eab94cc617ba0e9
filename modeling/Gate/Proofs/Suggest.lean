import Gate.Lib.Edits
import Gate.Spec.Suggest

/-! The two rows of `editDistance` hold the recurrence of `Edits.dist` for the bytes read so far, last
byte first; what comes out is the least number of edits, whichever end the strings are read from. -/

namespace Gate

open Edits

/-- A row: the distances of `r` to `q` and to what the bytes of the list, one by one, make of it. -/
def distRow (r : List UInt8) : List UInt8 → List UInt8 → List ℕ
  | q, [] => [dist r q]
  | q, y :: ys => dist r q :: distRow r (y :: q) ys

theorem distRow_ne_nil (r q ys : List UInt8) : ∃ rest, distRow r q ys = dist r q :: rest := by
  cases ys with
  | nil => exact ⟨[], rfl⟩
  | cons y ys => exact ⟨_, rfl⟩

theorem editRow_dist (x : UInt8) (r q ys : List UInt8) :
    dist (x :: r) q :: editRow x ys (distRow r q ys) (dist (x :: r) q) = distRow (x :: r) q ys := by
  induction ys generalizing q with
  | nil => rfl
  | cons y ys ih =>
    obtain ⟨rest, hrest⟩ := distRow_ne_nil r (y :: q) ys
    have hnext := ih (y :: q)
    rw [hrest, dist_cons_cons] at hnext
    rw [distRow, distRow, hrest, editRow, ← hnext]

theorem distRow_nil (q ys : List UInt8) : distRow [] q ys = List.range' q.length (ys.length + 1) := by
  induction ys generalizing q with
  | nil => simp [distRow]
  | cons y ys ih =>
    rw [distRow, ih, dist_nil_left, List.length_cons, List.length_cons, ← List.range'_succ]

theorem editRows_dist (b a r : List UInt8) :
    editRows b a (r.length + 1) (distRow r [] b) = distRow (a.reverse ++ r) [] b := by
  induction a generalizing r with
  | nil => rfl
  | cons x a ih =>
    have hrow : (r.length + 1) :: editRow x b (distRow r [] b) (r.length + 1) = distRow (x :: r) [] b := by
      rw [← editRow_dist x r [] b, dist_nil_right, List.length_cons]
    rw [editRows, hrow, ← List.length_cons, ih, List.reverse_cons, List.append_assoc, List.singleton_append]

theorem distRow_getD (r q ys : List UInt8) : (distRow r q ys).getD ys.length 0 = dist r (ys.reverse ++ q) := by
  induction ys generalizing q with
  | nil => rfl
  | cons y ys ih =>
    rw [distRow, List.length_cons, List.getD_cons_succ, ih, List.reverse_cons, List.append_assoc, List.singleton_append]

theorem editDistance_eq (a b : String) : editDistance a b = dist (stringBytes a) (stringBytes b) := by
  have hstart : List.range ((stringBytes b).length + 1) = distRow [] [] (stringBytes b) := by
    rw [distRow_nil, List.range_eq_range', List.length_nil]
  have hrows := editRows_dist (stringBytes b) (stringBytes a) []
  rw [List.length_nil, Nat.zero_add, List.append_nil] at hrows
  unfold editDistance
  dsimp only
  rw [hstart, hrows, distRow_getD, List.append_nil, dist_reverse]

/-- What the loop of `suggest` has found among the candidates so far: nothing closer than what it
started with, or the first of the closest. -/
theorem foldl_closer (word : String) (cs : List String) (best : String × ℕ) :
    (cs.foldl (closer word) best = best ∧ ∀ c ∈ cs, best.2 ≤ editDistance word c) ∨
      ∃ pre s post, cs = pre ++ s :: post ∧ cs.foldl (closer word) best = (s, editDistance word s) ∧
        editDistance word s < best.2 ∧ (∀ c ∈ pre, editDistance word s < editDistance word c) ∧
        ∀ c ∈ cs, editDistance word s ≤ editDistance word c := by
  induction cs generalizing best with
  | nil => exact .inl ⟨rfl, fun c hc => absurd hc List.not_mem_nil⟩
  | cons c cs ih =>
    rw [List.foldl_cons]
    by_cases hd : editDistance word c < best.2
    · have hstep : closer word best c = (c, editDistance word c) := if_pos hd
      rw [hstep]
      right
      rcases ih (c, editDistance word c) with ⟨hsame, hle⟩ | ⟨pre, s, post, hcs, hfold, hlt, hpre, hle⟩
      · exact ⟨[], c, cs, rfl, hsame, hd, fun c' hc' => absurd hc' List.not_mem_nil, List.forall_mem_cons.mpr ⟨le_rfl, hle⟩⟩
      · exact ⟨c :: pre, s, post, by rw [hcs, List.cons_append], hfold, hlt.trans hd, List.forall_mem_cons.mpr ⟨hlt, hpre⟩,
          List.forall_mem_cons.mpr ⟨hlt.le, hle⟩⟩
    · have hstep : closer word best c = best := if_neg hd
      have hc := not_lt.mp hd
      rw [hstep]
      rcases ih best with ⟨hsame, hle⟩ | ⟨pre, s, post, hcs, hfold, hlt, hpre, hle⟩
      · exact .inl ⟨hsame, List.forall_mem_cons.mpr ⟨hc, hle⟩⟩
      · exact .inr ⟨c :: pre, s, post, by rw [hcs, List.cons_append], hfold, hlt, List.forall_mem_cons.mpr ⟨hlt.trans_le hc, hpre⟩,
          List.forall_mem_cons.mpr ⟨hlt.le.trans hc, hle⟩⟩

/-- `n` edits of single bytes make the second string of the first. -/
def EditsTo (n : ℕ) (a b : String) : Prop := Reaches n (stringBytes a) (stringBytes b)

theorem editDistance_isLeast (a b : String) : IsLeast {n | EditsTo n a b} (editDistance a b) := by
  rw [editDistance_eq]
  exact dist_isLeast _ _

example : suggest id "reqests" ["burst", "per", "requests", "window"] = "requests" := by decide +kernel

end Gate
