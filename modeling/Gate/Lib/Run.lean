import Mathlib.Tactic

/-! Runs of a partial step function. `runAll` executes a list of actions; `Along` says
that each action of the run meets a side condition in the state it is taken in. An
invariant of the steps that meet the condition holds at the end of every such run. -/

namespace Conc

variable {σ α : Type}

def runAll (step : σ → α → Option σ) : σ → List α → Option σ
  | s, [] => some s
  | s, a :: as => (step s a).bind fun s' => runAll step s' as

def Along (step : σ → α → Option σ) (ok : σ → α → Prop) : σ → List α → Prop
  | _, [] => True
  | s, a :: as => ok s a ∧ match step s a with
    | some s' => Along step ok s' as
    | none => True

instance decidableAlong (step : σ → α → Option σ) (ok : σ → α → Prop) [∀ s a, Decidable (ok s a)] :
    ∀ (s : σ) (as : List α), Decidable (Along step ok s as)
  | _, [] => isTrue trivial
  | s, a :: as =>
    match h : step s a with
    | some s' =>
      have := decidableAlong step ok s' as
      decidable_of_iff (ok s a ∧ Along step ok s' as) (by simp only [Along, h])
    | none => decidable_of_iff (ok s a) (by simp only [Along, h, and_true])

theorem runAll_cons {step : σ → α → Option σ} {s s' : σ} {a : α} {as : List α}
    (h : runAll step s (a :: as) = some s') :
    ∃ s₁, step s a = some s₁ ∧ runAll step s₁ as = some s' := by
  simpa [runAll, Option.bind_eq_some_iff] using h

theorem Along.next {step : σ → α → Option σ} {ok : σ → α → Prop} {s s' : σ} {a : α} {as : List α}
    (h : Along step ok s (a :: as)) (hs : step s a = some s') : Along step ok s' as := by
  have := h.2
  rwa [hs] at this

theorem along_of_forall {step : σ → α → Option σ} {ok : σ → α → Prop} (h : ∀ s a, ok s a) :
    ∀ (as : List α) (s : σ), Along step ok s as
  | [], _ => trivial
  | a :: as, s => ⟨h s a, by
    cases step s a with
    | none => trivial
    | some s' => exact along_of_forall h as s'⟩

/-- The invariant rule: what every step meeting `ok` keeps, every run meeting it keeps. -/
theorem inv_runAll {step : σ → α → Option σ} {ok : σ → α → Prop} {Inv : σ → Prop}
    (hstep : ∀ s a s', Inv s → ok s a → step s a = some s' → Inv s') :
    ∀ (as : List α) (s s' : σ), Inv s → Along step ok s as → runAll step s as = some s' → Inv s' := by
  intro as
  induction as with
  | nil =>
    intro s s' hi _ hr
    obtain rfl : s = s' := by simpa [runAll] using hr
    exact hi
  | cons a as ih =>
    intro s s' hi ha hr
    obtain ⟨s₁, h₁, h₂⟩ := runAll_cons hr
    exact ih s₁ s' (hstep s a s₁ hi ha.1 h₁) (ha.next h₁) h₂

end Conc
