import Mathlib
import Gate.Spec.ResponseCache

/-! A cache key's template is read without loss: its parts, written out again, are the template, and a
dollar stays a dollar only where no token follows. -/

namespace Gate.Edge

/-- The parts of a template, each with the piece of it that it stands for. -/
inductive Reads : List CacheTemplatePart → List (List Char) → Prop
  | nil : Reads [] []
  | plain {parts pieces} {text : String} (h : '$' ∉ text.toList) (rest : Reads parts pieces) :
    Reads (.literal text :: parts) (text.toList :: pieces)
  | dollar {parts pieces} (h : matchCacheToken ('$' :: pieces.flatten) = none) (rest : Reads parts pieces) :
    Reads (.literal "$" :: parts) (['$'] :: pieces)
  | token {parts pieces} {name : String} {t : CacheToken} {s : List Char} (hname : (name, t) ∈ tokenNames)
    (hs : equalFold s name.toList) (rest : Reads parts pieces) : Reads (.token t :: parts) (('$' :: s) :: pieces)

variable {parts : List CacheTemplatePart} {pieces : List (List Char)}

theorem matchCacheToken_some {s : List Char} {t : CacheToken} {n : ℕ} (h : matchCacheToken ('$' :: s) = some (t, n)) :
    ∃ name, (name, t) ∈ tokenNames ∧ equalFold (s.take name.length) name.toList ∧ n = name.length + 1 := by
  obtain ⟨⟨name, token⟩, hmem, hfound⟩ := List.exists_of_findSome?_eq_some h
  dsimp only at hfound
  split_ifs at hfound with hm
  obtain ⟨rfl, rfl⟩ := Prod.mk.inj (Option.some.inj hfound)
  exact ⟨name, hmem, by simpa using hm.2, rfl⟩

/-- The text before the next dollar is a part of its own, unless there is none. -/
theorem Reads.before {before : List Char} (h : '$' ∉ before) (hr : Reads parts pieces) :
    ∃ pieces', Reads ((if before = [] then [] else [.literal (String.ofList before)]) ++ parts) pieces' ∧
      pieces'.flatten = before ++ pieces.flatten := by
  by_cases hb : before = []
  · subst hb
    exact ⟨pieces, hr, rfl⟩
  · rw [if_neg hb]
    have hplain : '$' ∉ (String.ofList before).toList := by rwa [String.toList_ofList]
    exact ⟨_, .plain hplain hr, by simp⟩

theorem reads_templateParts (n : ℕ) (tpl : List Char) (hn : tpl.length ≤ n) :
    ∃ pieces, Reads (templateParts n tpl) pieces ∧ pieces.flatten = tpl := by
  induction n generalizing tpl with
  | zero =>
    obtain rfl := List.eq_nil_of_length_eq_zero (Nat.le_zero.mp hn)
    exact ⟨[], .nil, rfl⟩
  | succ n ih =>
    cases tpl with
    | nil => exact ⟨[], .nil, rfl⟩
    | cons c cs =>
      have hwhole := List.takeWhile_append_dropWhile (p := (· ≠ '$')) (l := c :: cs)
      have hbefore : '$' ∉ (c :: cs).takeWhile (· ≠ '$') := fun hmem => by simpa using List.mem_takeWhile_imp hmem
      unfold templateParts
      dsimp only
      cases hdrop : (c :: cs).dropWhile (· ≠ '$') with
      | nil =>
        rw [hdrop, List.append_nil] at hwhole
        rw [hwhole] at hbefore
        exact ⟨_, .plain (by rwa [String.toList_ofList]) .nil, by simp⟩
      | cons d tail =>
        have hd : d = '$' := by
          have hhead := List.head?_dropWhile_not (· ≠ '$') (c :: cs)
          rw [hdrop] at hhead
          simpa using hhead
        subst hd
        rw [hdrop] at hwhole
        have hlen : tail.length ≤ n := by
          have := congrArg List.length hwhole
          simp only [List.length_append, List.length_cons] at this hn
          omega
        dsimp only
        -- a token takes its name, and a dollar without one only itself
        cases hmatch : matchCacheToken ('$' :: tail) with
        | none =>
          obtain ⟨pieces, hreads, hflat⟩ := ih tail hlen
          obtain ⟨pieces', hreads', hflat'⟩ := Reads.before hbefore (.dollar (hflat ▸ hmatch) hreads)
          refine ⟨pieces', hreads', hflat'.trans ?_⟩
          rw [List.flatten_cons, hflat]
          exact hwhole
        | some found =>
          obtain ⟨t, size⟩ := found
          obtain ⟨name, hname, hfold, rfl⟩ := matchCacheToken_some hmatch
          obtain ⟨pieces, hreads, hflat⟩ := ih (tail.drop name.length) (by simp; omega)
          obtain ⟨pieces', hreads', hflat'⟩ := Reads.before hbefore (.token hname hfold hreads)
          refine ⟨pieces', hreads', hflat'.trans ?_⟩
          rw [List.flatten_cons, hflat, List.cons_append, List.take_append_drop]
          exact hwhole

end Gate.Edge
