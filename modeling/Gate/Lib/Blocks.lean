import Gate.Lib.Alone

/-! Pools whose threads run in blocks. A thread gives way only where it waits: it runs from
one waiting instruction to the next with nobody in between. `BlockLogic.wp` follows a
program through its blocks. Inside a block the state is known; at a waiting instruction the
invariant has to hold, and what is known afterwards is the invariant and whatever of the
earlier state is there for good. -/

namespace Conc

variable {I : Type} {R : I → Type} {S C E α β : Type}

/-- Finished, or about to wait. -/
def Prog.rests (waits : I → Bool) : Prog R α → Bool
  | .ret _ => true
  | .spin => false
  | .op i _ => waits i

inductive BlockAct (C E : Type) where
  /-- the thread `t` runs on, with these choices, until it rests -/
  | block (t : ℕ) (cs : List C)
  | env (e : E)

namespace Pool

def blockStep (sem : Sem R S C E) (waits : I → Bool) (p : Pool R S) : BlockAct C E → Option (Pool R S)
  | .block t cs =>
    (runAll (step sem) p (cs.map (.run t))).filter fun p' => (p'.threads[t]?).any (Prog.rests waits)
  | .env e => p.step sem (.env e)

/-- Every step of the block meets the condition. -/
def MeetsBlock (sem : Sem R S C E) (cond : Cond I S C E) (p : Pool R S) : BlockAct C E → Prop
  | .block t cs => Along (step sem) (Meets cond) p (cs.map (.run t))
  | .env e => cond.event e p.shared

instance (sem : Sem R S C E) (cond : Cond I S C E) [∀ i c s, Decidable (cond.instr i c s)]
    [∀ e s, Decidable (cond.event e s)] (p : Pool R S) : ∀ a : BlockAct C E, Decidable (MeetsBlock sem cond p a)
  | .block t cs => inferInstanceAs (Decidable (Along (step sem) (Meets cond) p (cs.map (.run t))))
  | .env e => inferInstanceAs (Decidable (cond.event e p.shared))

end Pool

/-- What the blocks of a pool rely on and guarantee. -/
structure BlockLogic (R : I → Type) (S C E : Type) where
  sem : Sem R S C E
  cond : Pool.Cond I S C E
  waits : I → Bool
  /-- holds whenever every thread rests -/
  Inv : S → Prop
  /-- what a waiting thread may count on -/
  Later : S → S → Prop
  /-- the threads that may be started in a state -/
  Starts : Prog R Unit → S → Prop

namespace BlockLogic

variable (B : BlockLogic R S C E)

/-- However the instruction goes, `Q` holds of its answer and of the state after it. -/
def Does (i : I) (Q : R i → S → Prop) (s : S) : Prop :=
  ∀ c r s' new, B.cond.instr i c s → B.sem.exec i c s = some (r, s', new) →
    B.Later s s' ∧ (∀ th ∈ new, B.Starts th s') ∧ Q r s'

/-- However the program goes, block after block, it ends in `Q` if it ends. -/
def wp : Prog R α → (α → S → Prop) → S → Prop
  | .ret a, Q, s => Q a s
  | .spin, _, _ => True
  | .op i k, Q, s =>
    if B.waits i then B.Inv s ∧ ∀ s₁, B.Inv s₁ → B.Later s s₁ → B.Does i (fun r => wp (k r) Q) s₁
    else B.Does i (fun r => wp (k r) Q) s

/-- A resting thread that may go on in any later state. -/
def Ready (th : Prog R Unit) (s : S) : Prop := ∀ s₁, B.Inv s₁ → B.Later s s₁ → B.wp th (fun _ => B.Inv) s₁

/-- What has to be shown of a pool. -/
structure Sound : Prop where
  refl : ∀ s, B.Later s s
  trans : ∀ s s' s'', B.Later s s' → B.Later s' s'' → B.Later s s''
  starts : ∀ th s, B.Starts th s → B.Ready th s
  event : ∀ e s s' new, B.Inv s → B.cond.event e s → B.sem.ext e s = some (s', new) →
    B.Inv s' ∧ B.Later s s' ∧ ∀ th ∈ new, B.Starts th s'

variable {B}

theorem Does.mono {i : I} {Q Q' : R i → S → Prop} {s : S} (h : ∀ r s', Q r s' → Q' r s') (hd : B.Does i Q s) :
    B.Does i Q' s :=
  fun c r s' new hc hx => ⟨(hd c r s' new hc hx).1, (hd c r s' new hc hx).2.1, h r s' (hd c r s' new hc hx).2.2⟩

@[simp] theorem wp_ret (a : α) (Q : α → S → Prop) (s : S) : B.wp (.ret a) Q s ↔ Q a s := Iff.rfl

@[simp] theorem wp_pure (a : α) (Q : α → S → Prop) (s : S) : B.wp (pure a : Prog R α) Q s ↔ Q a s := Iff.rfl

@[simp] theorem wp_spin (Q : α → S → Prop) (s : S) : B.wp .spin Q s ↔ True := Iff.rfl

theorem wp_op {i : I} {k : R i → Prog R α} {Q : α → S → Prop} {s : S} :
    B.wp (.op i k) Q s ↔
      if B.waits i then B.Inv s ∧ ∀ s₁, B.Inv s₁ → B.Later s s₁ → B.Does i (fun r => B.wp (k r) Q) s₁
      else B.Does i (fun r => B.wp (k r) Q) s := Iff.rfl

/-- An instruction that does not wait. -/
theorem wp_exec {i : I} (hi : B.waits i = false) (Q : R i → S → Prop) (s : S) :
    B.wp (Prog.exec i) Q s ↔ B.Does i Q s := by
  rw [Prog.exec, wp_op, if_neg (by simp [hi])]
  rfl

theorem wp_wait {i : I} (hi : B.waits i = true) (Q : R i → S → Prop) (s : S) :
    B.wp (Prog.exec i) Q s ↔ B.Inv s ∧ ∀ s₁, B.Inv s₁ → B.Later s s₁ → B.Does i Q s₁ := by
  rw [Prog.exec, wp_op, if_pos hi]
  rfl

theorem wp_mono {p : Prog R α} {Q Q' : α → S → Prop} (h : ∀ a s, Q a s → Q' a s) :
    ∀ {s : S}, B.wp p Q s → B.wp p Q' s := by
  induction p with
  | ret a => intro s; exact h a s
  | spin => intro s _; trivial
  | op i k ih =>
    intro s hp
    rw [wp_op] at hp ⊢
    split at hp
    · rename_i hw
      rw [if_pos hw]
      exact ⟨hp.1, fun s₁ hi hl => (hp.2 s₁ hi hl).mono fun r _ => ih r⟩
    · rename_i hw
      rw [if_neg hw]
      exact hp.mono fun r _ => ih r

@[simp] theorem wp_bind (p : Prog R α) (f : α → Prog R β) (Q : β → S → Prop) (s : S) :
    B.wp (p >>= f) Q s ↔ B.wp p (fun a s' => B.wp (f a) Q s') s := by
  induction p generalizing s with
  | ret a => rfl
  | spin => rfl
  | op i k ih =>
    have hdo : ∀ s', B.Does i (fun r => B.wp (k r >>= f) Q) s' ↔
        B.Does i (fun r => B.wp (k r) fun a s' => B.wp (f a) Q s') s' :=
      fun s' => ⟨.mono fun r _ => (ih r _).mp, .mono fun r _ => (ih r _).mpr⟩
    rw [Prog.bind_op, wp_op, wp_op]
    simp only [hdo]

theorem wp_ite (b : Prop) [Decidable b] (p p' : Prog R α) (Q : α → S → Prop) (s : S) :
    B.wp (if b then p else p') Q s ↔ if b then B.wp p Q s else B.wp p' Q s := by
  split <;> rfl

/-- A run of the program alone is one of the ways it may go. -/
theorem wp_upTo {stop : I → Bool} {next : (i : I) → S → Option (R i × S)}
    (hn : ∀ i s r s', next i s = some (r, s') →
      B.waits i = false ∧ ∃ c new, B.cond.instr i c s ∧ B.sem.exec i c s = some (r, s', new))
    {p : Prog R α} {Q : α → S → Prop} {s s' : S} {a : α} (hp : B.wp p Q s)
    (h : p.upTo stop next s = some (.inl a, s')) : Q a s' := by
  induction p generalizing s with
  | ret b =>
    cases h
    exact hp
  | spin => cases h
  | op i k ih =>
    unfold Prog.upTo at h
    split at h
    · cases h
    · split at h
      next r s₁ hi =>
        obtain ⟨hw, c, new, hc, hx⟩ := hn i s r s₁ hi
        rw [wp_op, if_neg (by simp [hw])] at hp
        exact ih r (hp c r s₁ new hc hx).2.2 h
      next => cases h

/-- The state of a pool when every thread rests. -/
def Rested (B : BlockLogic R S C E) (p : Pool R S) : Prop := B.Inv p.shared ∧ ∀ th ∈ p.threads, B.Ready th p.shared

theorem Ready.later (hb : B.Sound) {th : Prog R Unit} {s s' : S} (h : B.Ready th s) (hl : B.Later s s') : B.Ready th s' :=
  fun s₁ hi hl₁ => h s₁ hi (hb.trans s s' s₁ hl hl₁)

/-- A thread that has come to rest holds up the invariant, and may go on later. -/
theorem rested_thread (hb : B.Sound) {th : Prog R Unit} {s : S} (hr : th.rests B.waits = true)
    (h : B.wp th (fun _ => B.Inv) s) : B.Inv s ∧ B.Ready th s := by
  cases th with
  | ret a => exact ⟨h, fun _ hi _ => hi⟩
  | spin => cases hr
  | op i k =>
    rw [wp_op, if_pos (show B.waits i = true from hr)] at h
    refine ⟨h.1, fun s₁ hi hl => ?_⟩
    rw [wp_op, if_pos (show B.waits i = true from hr)]
    exact ⟨hi, fun s₂ hi₂ hl₂ => h.2 s₂ hi₂ (hb.trans s s₁ s₂ hl hl₂)⟩

/-- One instruction of a thread, whether it waited for it or not. -/
theorem wp_step (hb : B.Sound) {i : I} {k : R i → Prog R α} {Q : α → S → Prop} {s : S} (h : B.wp (.op i k) Q s) :
    B.Does i (fun r => B.wp (k r) Q) s := by
  rw [wp_op] at h
  split at h
  · exact h.2 s h.1 (hb.refl s)
  · exact h

/-- From the middle of a block to its end. -/
theorem rested_block (hb : B.Sound) {t : ℕ} (cs : List C) {p p' : Pool R S} {th : Prog R Unit}
    (hth : p.threads[t]? = some th) (hwp : B.wp th (fun _ => B.Inv) p.shared)
    (hothers : ∀ t' th', t' ≠ t → p.threads[t']? = some th' → B.Ready th' p.shared)
    (ha : Along (Pool.step B.sem) (Pool.Meets B.cond) p (cs.map (.run t)))
    (hrun : runAll (Pool.step B.sem) p (cs.map (.run t)) = some p') (hrest : (p'.threads[t]?).any (Prog.rests B.waits) = true) :
    B.Rested p' := by
  induction cs generalizing p th with
  | nil =>
    obtain rfl : p = p' := by simpa [runAll] using hrun
    rw [hth, Option.any_some] at hrest
    obtain ⟨hinv, hready⟩ := rested_thread hb hrest hwp
    refine ⟨hinv, fun th' hm => ?_⟩
    obtain ⟨t', ht'⟩ := List.mem_iff_getElem?.mp hm
    by_cases he : t' = t
    · rw [he, hth] at ht'
      cases ht'
      exact hready
    · exact hothers t' th' he ht'
  | cons c cs ih =>
    obtain ⟨p₁, hstep, hrun⟩ := runAll_cons hrun
    have hm := ha.1
    have ha₁ := ha.next hstep
    simp only [Pool.step, hth] at hstep
    simp only [Pool.Meets, hth] at hm
    cases th with
    | ret a => cases hstep
    | spin => cases hstep
    | op i k =>
      obtain ⟨⟨r, s', new⟩, hx, rfl⟩ := Option.map_eq_some_iff.mp hstep
      obtain ⟨hlater, hnew, hnext⟩ := wp_step hb hwp c r s' new hm hx
      have hlt : t < (p.threads.set t (k r)).length := by
        rw [List.length_set]
        exact (List.getElem?_eq_some_iff.mp hth).1
      refine ih (?_ : _ = some (k r)) hnext (fun t' th' he ht' => ?_) ha₁ hrun
      · rw [List.getElem?_append_left hlt, List.getElem?_set_self (by rwa [List.length_set] at hlt)]
      · have hmem : p.threads[t']? = some th' ∨ th' ∈ new := by
          rw [List.getElem?_append] at ht'
          split at ht'
          · rw [List.getElem?_set_ne (Ne.symm he)] at ht'
            exact .inl ht'
          · exact .inr (List.mem_of_getElem? ht')
        rcases hmem with hold | hn
        · exact (hothers t' th' he hold).later hb hlater
        · exact hb.starts th' s' (hnew th' hn)

theorem rested_step (hb : B.Sound) (p : Pool R S) (a : BlockAct C E) (p' : Pool R S) (hp : B.Rested p)
    (hm : p.MeetsBlock B.sem B.cond a) (hs : p.blockStep B.sem B.waits a = some p') : B.Rested p' := by
  cases a with
  | block t cs =>
    obtain ⟨hrun, hrest⟩ := Option.filter_eq_some_iff.mp hs
    cases hth : p.threads[t]? with
    | none =>
      -- no such thread: it makes no step, and does not rest either
      cases cs with
      | nil =>
        obtain rfl : p = p' := by simpa [runAll] using hrun
        exact hp
      | cons c cs =>
        obtain ⟨p₁, hstep, -⟩ := runAll_cons hrun
        simp [Pool.step, hth] at hstep
    | some th =>
      exact rested_block hb cs hth (hp.2 th (List.mem_of_getElem? hth) p.shared hp.1 (hb.refl _))
        (fun t' th' _ ht' => hp.2 th' (List.mem_of_getElem? ht')) hm hrun hrest
  | env e =>
    obtain ⟨⟨s', new⟩, hx, rfl⟩ := Option.map_eq_some_iff.mp hs
    obtain ⟨hinv, hlater, hnew⟩ := hb.event e p.shared s' new hp.1 hm hx
    refine ⟨hinv, fun th hth => ?_⟩
    rcases List.mem_append.mp hth with hold | hn
    · exact (hp.2 th hold).later hb hlater
    · exact hb.starts th s' (hnew th hn)

/-- The invariant holds whenever every thread rests. -/
theorem rested_run (hb : B.Sound) {p p' : Pool R S} {as : List (BlockAct C E)} (hp : B.Rested p)
    (ha : Along (Pool.blockStep B.sem B.waits) (Pool.MeetsBlock B.sem B.cond) p as)
    (hr : runAll (Pool.blockStep B.sem B.waits) p as = some p') : B.Rested p' :=
  inv_runAll (rested_step hb) as p p' hp ha hr

end BlockLogic

end Conc
