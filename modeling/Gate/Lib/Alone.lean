import Gate.Lib.Threads

/-! A thread that runs alone. `Logic.post` is then the whole effect of an instruction, and a
program can be followed from a state to every state it reaches. -/

namespace Conc

variable {I : Type} {R : I → Type} {G α β : Type}

namespace Prog

/-- Every instruction of the program is in `P` and every answer in `Q`, whatever the instructions
answer. -/
def Within (P : I → Prop) (Q : α → Prop) : Prog R α → Prop
  | .ret a => Q a
  | .spin => True
  | .op i k => P i ∧ ∀ r, (k r).Within P Q

variable {P : I → Prop}

@[simp] theorem within_pure (a : α) (Q : α → Prop) : (pure a : Prog R α).Within P Q ↔ Q a := Iff.rfl

@[simp] theorem within_spin (Q : α → Prop) : (.spin : Prog R α).Within P Q ↔ True := Iff.rfl

@[simp] theorem within_exec (i : I) (Q : R i → Prop) : (exec i : Prog R (R i)).Within P Q ↔ P i ∧ ∀ r, Q r :=
  Iff.rfl

@[simp] theorem within_bind (p : Prog R α) (f : α → Prog R β) (Q : β → Prop) :
    (p >>= f).Within P Q ↔ p.Within P fun a => (f a).Within P Q := by
  induction p with
  | ret a => rfl
  | spin => rfl
  | op i k ih => exact and_congr_right fun _ => forall_congr' ih

@[simp] theorem within_ite (b : Prop) [Decidable b] (p p' : Prog R α) (Q : α → Prop) :
    (if b then p else p').Within P Q ↔ if b then p.Within P Q else p'.Within P Q := by
  split <;> rfl

theorem Within.mono {Q Q' : α → Prop} (h : ∀ a, Q a → Q' a) {p : Prog R α} (hp : p.Within P Q) : p.Within P Q' := by
  induction p with
  | ret a => exact h a hp
  | spin => trivial
  | op i k ih => exact ⟨hp.1, fun r => ih r (hp.2 r)⟩

instance decidableEnded : (p : Prog R Unit) → Decidable (p = .ret ())
  | .ret () => isTrue rfl
  | .spin => isFalse nofun
  | .op _ _ => isFalse nofun

/-- The program run with one answer to each instruction. -/
def follow (next : (i : I) → G → Option (R i × G)) : Prog R α → G → Option (α × G)
  | .ret a, g => some (a, g)
  | .spin, _ => none
  | .op i k, g =>
    match next i g with
    | some (r, g') => (k r).follow next g'
    | none => none

theorem follow_bind (next : (i : I) → G → Option (R i × G)) (p : Prog R α) (f : α → Prog R β) (g : G) :
    (p >>= f).follow next g = (p.follow next g).bind fun out => (f out.1).follow next out.2 := by
  induction p generalizing g with
  | ret a => rfl
  | spin => rfl
  | op i k ih =>
    rw [bind_op, follow, follow]
    split
    next r g' _ => exact ih r g'
    next => rfl

section Ends

variable (next : (i : I) → G → Option (R i × G))

/-- The program ends, in a state and with an answer that meet `Q`. -/
def Ends (p : Prog R α) (Q : α → G → Prop) (g : G) : Prop := ∃ a g', p.follow next g = some (a, g') ∧ Q a g'

@[simp] theorem ends_pure (a : α) (Q : α → G → Prop) (g : G) : (pure a : Prog R α).Ends next Q g ↔ Q a g := by
  constructor
  · rintro ⟨_, _, h, hq⟩
    cases h
    exact hq
  · exact fun h => ⟨a, g, rfl, h⟩

@[simp] theorem ends_exec (i : I) (Q : R i → G → Prop) (g : G) :
    (exec i : Prog R (R i)).Ends next Q g ↔ ∃ r g', next i g = some (r, g') ∧ Q r g' := by
  have hf : (exec i : Prog R (R i)).follow next g = next i g := by
    rw [exec, follow]
    cases next i g <;> rfl
  rw [Ends, hf]

@[simp] theorem ends_bind (p : Prog R α) (f : α → Prog R β) (Q : β → G → Prop) (g : G) :
    (p >>= f).Ends next Q g ↔ p.Ends next (fun a => (f a).Ends next Q) g := by
  rw [Ends, follow_bind]
  constructor
  · rintro ⟨b, g', h, hq⟩
    obtain ⟨⟨a, g₁⟩, ha, hb⟩ := Option.bind_eq_some_iff.mp h
    exact ⟨a, g₁, ha, b, g', hb, hq⟩
  · rintro ⟨a, g₁, ha, b, g', hb, hq⟩
    exact ⟨b, g', Option.bind_eq_some_iff.mpr ⟨(a, g₁), ha, hb⟩, hq⟩

@[simp] theorem ends_ite (b : Prop) [Decidable b] (p p' : Prog R α) (Q : α → G → Prop) (g : G) :
    (if b then p else p').Ends next Q g ↔ if b then p.Ends next Q g else p'.Ends next Q g := by
  split <;> rfl

end Ends

/-- The program run only up to the first instruction in `stop`; that one is not executed. -/
def upTo (stop : I → Bool) (next : (i : I) → G → Option (R i × G)) : Prog R α → G → Option ((α ⊕ I) × G)
  | .ret a, g => some (.inl a, g)
  | .spin, _ => none
  | .op i k, g =>
    if stop i then some (.inr i, g)
    else match next i g with
      | some (r, g') => (k r).upTo stop next g'
      | none => none

section UpTo

variable {stop : I → Bool} {next : (i : I) → G → Option (R i × G)} {g g' : G}

theorem upTo_op {i : I} {k : R i → Prog R α} : (Prog.op i k).upTo stop next g =
    if stop i then some (.inr i, g)
    else match next i g with
      | some (r, g') => (k r).upTo stop next g'
      | none => none := by
  rw [upTo]

theorem upTo_exec {i : I} {r : R i} (hs : stop i = false) (h : next i g = some (r, g')) :
    (exec i : Prog R (R i)).upTo stop next g = some (.inl r, g') := by
  simp [exec, upTo, hs, h]

theorem upTo_exec_stop {i : I} (hs : stop i = true) : (exec i : Prog R (R i)).upTo stop next g = some (.inr i, g) := by
  simp [exec, upTo, hs]

theorem upTo_bind {p : Prog R α} {f : α → Prog R β} {a : α} (h : p.upTo stop next g = some (.inl a, g')) :
    (p >>= f).upTo stop next g = (f a).upTo stop next g' := by
  induction p generalizing g with
  | ret b =>
    cases h
    rfl
  | spin => cases h
  | op i k ih =>
    rw [bind_op, upTo_op]
    rw [upTo_op] at h
    split at h
    · cases h
    · rename_i hs
      rw [if_neg hs]
      split at h
      next r g₁ _ => exact ih r h
      next => cases h

theorem upTo_bind_stop {p : Prog R α} {f : α → Prog R β} {i : I} (h : p.upTo stop next g = some (.inr i, g')) :
    (p >>= f).upTo stop next g = some (.inr i, g') := by
  induction p generalizing g with
  | ret b => cases h
  | spin => cases h
  | op j k ih =>
    rw [bind_op, upTo_op]
    rw [upTo_op] at h
    split at h
    · rename_i hs
      cases h
      rw [if_pos hs]
    · rename_i hs
      rw [if_neg hs]
      split at h
      next r g₁ _ => exact ih r h
      next => cases h

end UpTo

theorem within_true (p : Prog R α) : p.Within (fun _ => True) fun _ => True := by
  induction p with
  | ret a => trivial
  | spin => trivial
  | op i k ih => exact ⟨trivial, ih⟩

theorem Within.of_follow {next : (i : I) → G → Option (R i × G)} {Q : α → Prop} {a : α} {g' : G} :
    ∀ {p : Prog R α} {g : G}, p.Within P Q → p.follow next g = some (a, g') → Q a := by
  intro p
  induction p with
  | ret a =>
    intro g h hf
    cases hf
    exact h
  | spin =>
    intro g _ hf
    cases hf
  | op i k ih =>
    intro g h hf
    unfold follow at hf
    split at hf
    next r g₁ _ => exact ih r (h.2 r) hf
    next => cases hf

end Prog

namespace Logic

variable (L : Logic R G)

/-- Every state on the way meets `Inv`, and the last one `Q` with the answer. -/
def always (Inv : G → Prop) : Prog R α → (α → G → Prop) → G → Prop
  | .ret a, Q, g => Inv g ∧ Q a g
  | .spin, _, g => Inv g
  | .op i k, Q, g => Inv g ∧ ∀ r g', L.post i g r g' → always Inv (k r) Q g'

/-- The states a program reaches, with what is left of it. -/
inductive Reach : Prog R α → G → Prog R α → G → Prop where
  | refl {p : Prog R α} {g : G} : Reach p g p g
  | step {p : Prog R α} {g : G} {i : I} {k : R i → Prog R α} {g' g'' : G} {r : R i}
    (before : Reach p g (.op i k) g') (next : L.post i g' r g'') : Reach p g (k r) g''

variable {L} {Inv : G → Prop}

theorem always_inv {p : Prog R α} {Q : α → G → Prop} {g : G} (h : L.always Inv p Q g) : Inv g := by
  cases p with
  | ret a => exact h.1
  | spin => exact h
  | op i k => exact h.1

theorem always_reach {p p' : Prog R α} {Q : α → G → Prop} {g g' : G} (h : L.always Inv p Q g)
    (hr : L.Reach p g p' g') : L.always Inv p' Q g' := by
  induction hr with
  | refl => exact h
  | step _ next ih => exact ih.2 _ _ next

theorem Reach.head {i : I} {k : R i → Prog R α} {g g₁ g' : G} {r : R i} {p' : Prog R α} (h : L.post i g r g₁)
    (hr : L.Reach (k r) g₁ p' g') : L.Reach (.op i k) g p' g' := by
  induction hr with
  | refl => exact .step .refl h
  | step _ next ih => exact .step ih next

theorem reach_of_follow {next : (i : I) → G → Option (R i × G)}
    (hn : ∀ i g r g', next i g = some (r, g') → L.post i g r g') {p : Prog R α} {g g' : G} {a : α}
    (h : p.follow next g = some (a, g')) : L.Reach p g (.ret a) g' := by
  induction p generalizing g with
  | ret b =>
    cases h
    exact .refl
  | spin => cases h
  | op i k ih =>
    unfold Prog.follow at h
    rcases hi : next i g with - | ⟨r, g₁⟩
    · rw [hi] at h
      cases h
    · rw [hi] at h
      exact .head (hn i g r g₁ hi) (ih r h)

@[simp] theorem always_pure (a : α) (Q : α → G → Prop) (g : G) :
    L.always Inv (pure a : Prog R α) Q g ↔ Inv g ∧ Q a g := Iff.rfl

@[simp] theorem always_exec (i : I) (Q : R i → G → Prop) (g : G) :
    L.always Inv (Prog.exec i) Q g ↔ Inv g ∧ ∀ r g', L.post i g r g' → Inv g' ∧ Q r g' := Iff.rfl

/-- The rule of consequence; the last state is one of the states on the way. -/
theorem always_conseq {p : Prog R α} {Q Q' : α → G → Prop} {g : G} (hp : L.always Inv p Q g)
    (h : ∀ a g', Inv g' → Q a g' → Q' a g') : L.always Inv p Q' g := by
  induction p generalizing g with
  | ret a => exact ⟨hp.1, h _ _ hp.1 hp.2⟩
  | spin => exact hp
  | op i k ih => exact ⟨hp.1, fun r g' hr => ih r (hp.2 r g' hr)⟩

theorem always_bind (p : Prog R α) (f : α → Prog R β) {Q : β → G → Prop} {g : G}
    (h : L.always Inv p (fun a g' => L.always Inv (f a) Q g') g) : L.always Inv (p >>= f) Q g := by
  induction p generalizing g with
  | ret a => exact h.2
  | spin => exact h
  | op i k ih => exact ⟨h.1, fun r g' hr => ih r (h.2 r g' hr)⟩

/-- A program whose instructions leave the state alone. -/
theorem always_within {P : I → Prop} (hP : ∀ i g r g', P i → L.post i g r g' → g' = g) {p : Prog R α}
    {A : α → Prop} {Q : α → G → Prop} {g : G} (hp : p.Within P A) (hi : Inv g) (hQ : ∀ a, A a → Q a g) :
    L.always Inv p Q g := by
  induction p with
  | ret a => exact ⟨hi, hQ a hp⟩
  | spin => exact hi
  | op i k ih =>
    refine ⟨hi, fun r g' hr => ?_⟩
    rw [hP i g r g' hp.1 hr]
    exact ih r (hp.2 r)

end Logic

end Conc
