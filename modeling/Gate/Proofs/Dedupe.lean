import Gate.Sanity.Quota
import Gate.Proofs.GrantBounds

/-! Returns with a dedupe ID. The ID is kept per quota, and a list may have several items for one
quota: from the second on they look like repeats of the first. -/

namespace Gate

def Ret.key (r : Ret) : String := r.ref.key r.spec.algo

/-- The first item of each quota that is not among those seen. -/
def firsts (seen : List String) : List Ret → List Ret
  | [] => []
  | r :: rs => if r.key ∈ seen then firsts seen rs else r :: firsts (r.key :: seen) rs

/-- Items of different quotas are all first. -/
theorem firsts_of_nodup {seen : List String} {rs : List Ret} (h : (rs.map Ret.key).Nodup) (hs : ∀ r ∈ rs, r.key ∉ seen) :
    firsts seen rs = rs := by
  induction rs generalizing seen with
  | nil => rfl
  | cons r rs ih =>
    obtain ⟨hr, hrs⟩ := List.nodup_cons.mp h
    rw [firsts, if_neg (hs r (List.mem_cons_self ..)), ih hrs]
    intro x hx hmem
    rcases List.mem_cons.mp hmem with he | hmem
    · exact hr (he ▸ List.mem_map_of_mem hx)
    · exact hs x (List.mem_cons_of_mem _ hx) hmem

section
variable {m m' : Mem} {dedupe : String} {r : Ret}

theorem retKey_inj {a b : String} : retKey a dedupe = retKey b dedupe ↔ a = b := by
  unfold retKey
  rw [String.append_left_inj, String.append_left_inj]

/-- An item's input with an ID differs from the one without in what only the ID is for. -/
theorem prepareReturn_dedupe (dedupe : String) (hv : r.spec.validate = .ok ()) (now : ℤ) : ∃ inp inp₀ : ReturnInput,
    prepareReturn r dedupe = .ok inp ∧ prepareReturn r "" = .ok inp₀ ∧ inp₀.dedupeKey = "" ∧
      ∀ m : Mem, m.applyReturn now inp = m.applyReturn now inp₀ := by
  unfold prepareReturn
  rw [hv]
  exact ⟨_, _, rfl, rfl, rfl, fun _ => rfl⟩

theorem getInt_congr (h : m.vals = m'.vals) (key : String) (dflt : ℤ) : m.getInt key dflt = m'.getInt key dflt := by
  unfold Mem.getInt
  rw [h]

theorem credit_congr (h : m.vals = m'.vals) (key : String) (n : ℤ) : (m.credit key n).vals = (m'.credit key n).vals := by
  simp [Mem.credit, Mem.setVal, getInt_congr h, h]

theorem setVal_congr (h : m.vals = m'.vals) (key : String) (v : ℤ) : (m.setVal key v).vals = (m'.setVal key v).vals := by
  simp [Mem.setVal, h]

/-- What a return does to the counters does not depend on the marks. -/
theorem applyReturn_congr (h : m.vals = m'.vals) (now : ℤ) (inp : ReturnInput) :
    (m.applyReturn now inp).vals = (m'.applyReturn now inp).vals := by
  unfold Mem.applyReturn
  rw [getInt_congr h]
  dsimp only
  by_cases hp : inp.parentKey ≠ "" ∧ now.tdiv inp.pwin = inp.pwid
  · rw [if_pos hp, if_pos hp]
    apply credit_congr
    split_ifs
    · exact setVal_congr h _ _
    · exact credit_congr h _ _
    · exact h
  · rw [if_neg hp, if_neg hp]
    split_ifs
    · exact setVal_congr h _ _
    · exact credit_congr h _ _
    · exact h

/-- The marks of an ID after one more quota. -/
theorem deduped_mark_ret (key base : String) :
    (m.mark (retKey key dedupe)).deduped (retKey base dedupe) = (decide (base = key) || m.deduped (retKey base dedupe)) := by
  rw [Mem.deduped_mark]
  simp [retKey_inj]

/-- A delivery counts the first item of each quota that the ID has not marked. -/
theorem ret_vals_firsts (hd : dedupe ≠ "") (now : ℤ) {rs : List Ret} (hv : ∀ r ∈ rs, r.spec.validate = .ok ())
    {seen : List String} (hm : m.vals = m'.vals) (hseen : ∀ base, m.deduped (retKey base dedupe) = true ↔ base ∈ seen) :
    (m.ret now dedupe rs).2.vals = (m'.ret now "" (firsts seen rs)).2.vals := by
  induction rs generalizing m m' seen with
  | nil => exact hm
  | cons r rs ih =>
    obtain ⟨hr, hrs⟩ := List.forall_mem_cons.mp hv
    obtain ⟨inp, inp₀, hp, hp₀, hkey₀, happ⟩ := prepareReturn_dedupe dedupe hr now
    have hkey : inp.dedupeKey = retKey r.key dedupe := by
      rw [(prepareReturn_prepared hp).dedupeKey, if_pos hd]
      rfl
    rw [Mem.ret, hp, firsts]
    dsimp only
    by_cases hmem : r.key ∈ seen
    · have hrepeat : m.returnOne now inp = m :=
        returnOne_repeat (hkey ▸ retKey_ne_empty _ _) (hkey ▸ (hseen r.key).mpr hmem)
      rw [if_pos hmem, hrepeat]
      exact ih hrs hm hseen
    · have hunmarked : m.deduped inp.dedupeKey = false := by
        rw [hkey, Bool.eq_false_iff]
        exact fun h => hmem ((hseen r.key).mp h)
      have hfirst : m.returnOne now inp = (m.mark inp.dedupeKey).applyReturn now inp :=
        returnOne_first (hkey ▸ retKey_ne_empty _ _) hunmarked
      have hplain : m'.returnOne now inp₀ = m'.applyReturn now inp₀ := by simp [Mem.returnOne, hkey₀]
      rw [if_neg hmem, Mem.ret, hp₀, hfirst]
      dsimp only
      rw [hplain, happ]
      refine ih hrs (applyReturn_congr ?_ now inp₀) fun base => ?_
      · exact hm
      · rw [deduped_applyReturn, hkey, deduped_mark_ret, Bool.or_eq_true, decide_eq_true_iff, hseen, List.mem_cons]

end

namespace Sample

/-- Ten tokens of a window of a minute are in use. -/
def tenUsed : Mem := Mem.new.setVal (winKey (oneKey.key .fixedWindow) 5) 10

def aMinute : Spec := ⟨.fixedWindow, 10, 60 * second, 0⟩

def giveBack (ref : Ref) (tokens : ℤ) : Ret := ⟨ref, aMinute, none, 5, 0, tokens⟩

end Sample

end Gate
