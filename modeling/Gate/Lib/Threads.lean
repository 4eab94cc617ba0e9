import Gate.Lib.Run

/-! Programs made of atomic instructions, run by a pool of threads. A program is a tree of
instructions: an instruction answers with a value and the program goes on from there. A
retry loop is unrolled as often as a fuel argument says and spins after that, so a finite
run of the loop is a run of the unrolled program for enough fuel.

A logic gives each instruction a rule on a ghost resource of the thread that executes it.
`wp` lifts the rules to programs, and `Pool.holds_step` to pools: threads may interfere in
any order, provided one instruction keeps the shared invariant. -/

namespace Conc

/-- A program over instructions `I`, where instruction `i` answers in `R i`. -/
inductive Prog {I : Type} (R : I → Type) (α : Type) : Type where
  | ret (a : α)
  | spin
  | op (i : I) (k : R i → Prog R α)

namespace Prog

variable {I : Type} {R : I → Type} {α β : Type}

def bind : Prog R α → (α → Prog R β) → Prog R β
  | .ret a, f => f a
  | .spin, _ => .spin
  | .op i k, f => .op i fun r => (k r).bind f

instance : Monad (Prog R) where
  pure := .ret
  bind := bind

/-- The program that executes one instruction and answers what it answers. -/
def exec (i : I) : Prog R (R i) := .op i .ret

@[simp] theorem bind_ret (a : α) (f : α → Prog R β) : (Prog.ret a : Prog R α) >>= f = f a := rfl

@[simp] theorem bind_pure' (a : α) (f : α → Prog R β) : (pure a : Prog R α) >>= f = f a := rfl

@[simp] theorem bind_spin (f : α → Prog R β) : (Prog.spin : Prog R α) >>= f = .spin := rfl

@[simp] theorem bind_op (i : I) (k : R i → Prog R α) (f : α → Prog R β) :
    (Prog.op i k : Prog R α) >>= f = .op i fun r => k r >>= f := rfl

/-- A program over some of the instructions. -/
def hoist {J : Type} {R : J → Type} (f : I → J) : Prog (fun i => R (f i)) α → Prog R α
  | .ret a => .ret a
  | .spin => .spin
  | .op i k => .op (f i) fun r => (k r).hoist f

end Prog

/-- A rule for each instruction: what the executing thread needs in hand, and with what it
may go on for each answer. -/
structure Logic {I : Type} (R : I → Type) (G : Type) where
  pre : I → G → Prop
  post : (i : I) → G → R i → G → Prop

namespace Logic

variable {I : Type} {R : I → Type} {G α β : Type} (L : Logic R G)

def wp : Prog R α → (α → G → Prop) → G → Prop
  | .ret a, Q, g => Q a g
  | .spin, _, _ => True
  | .op i k, Q, g => L.pre i g ∧ ∀ r g', L.post i g r g' → wp (k r) Q g'

@[simp] theorem wp_ret (a : α) (Q : α → G → Prop) (g : G) : L.wp (.ret a) Q g ↔ Q a g := Iff.rfl

@[simp] theorem wp_pure (a : α) (Q : α → G → Prop) (g : G) :
    L.wp (pure a : Prog R α) Q g ↔ Q a g := Iff.rfl

@[simp] theorem wp_spin (Q : α → G → Prop) (g : G) : L.wp .spin Q g ↔ True := Iff.rfl

@[simp] theorem wp_exec (i : I) (Q : R i → G → Prop) (g : G) :
    L.wp (Prog.exec i) Q g ↔ L.pre i g ∧ ∀ r g', L.post i g r g' → Q r g' := Iff.rfl

theorem wp_mono {p : Prog R α} {Q Q' : α → G → Prop} (h : ∀ a g, Q a g → Q' a g) :
    ∀ {g : G}, L.wp p Q g → L.wp p Q' g := by
  induction p with
  | ret a => intro g; exact h a g
  | spin => intro g _; trivial
  | op i k ih => intro g hp; exact ⟨hp.1, fun r g' hr => ih r (hp.2 r g' hr)⟩

@[simp] theorem wp_bind (p : Prog R α) (f : α → Prog R β) (Q : β → G → Prop) (g : G) :
    L.wp (p >>= f) Q g ↔ L.wp p (fun a g' => L.wp (f a) Q g') g := by
  induction p generalizing g with
  | ret a => rfl
  | spin => rfl
  | op i k ih =>
    constructor
    · exact fun h => ⟨h.1, fun r g' hr => (ih r g').mp (h.2 r g' hr)⟩
    · exact fun h => ⟨h.1, fun r g' hr => (ih r g').mpr (h.2 r g' hr)⟩

@[simp] theorem wp_ite (b : Prop) [Decidable b] (p p' : Prog R α) (Q : α → G → Prop) (g : G) :
    L.wp (if b then p else p') Q g ↔ if b then L.wp p Q g else L.wp p' Q g := by
  split <;> rfl

/-- The rules for some of the instructions. -/
def comap {J : Type} (L : Logic R G) (f : J → I) : Logic (fun j => R (f j)) G := ⟨fun j => L.pre (f j), fun j => L.post (f j)⟩

theorem wp_hoist {J : Type} (f : J → I) (p : Prog (fun j => R (f j)) α) (Q : α → G → Prop) (g : G) :
    L.wp (p.hoist f) Q g ↔ (L.comap f).wp p Q g := by
  induction p generalizing g with
  | ret a => rfl
  | spin => rfl
  | op j k ih => exact and_congr_right fun _ => forall_congr' fun r => forall_congr' fun g' => imp_congr_right fun _ => ih r g'

/-- From a resource that meets `A`, the program only moves up, to an answer and a resource
that meet `B`. -/
def Moves [Preorder G] (A : G → Prop) (p : Prog R α) (B : α → G → Prop) : Prop :=
  ∀ g, A g → L.wp p (fun a g' => g ≤ g' ∧ B a g') g

variable {L}

theorem Moves.wp [Preorder G] {A : G → Prop} {p : Prog R α} {B : α → G → Prop} (h : L.Moves A p B)
    {g : G} {Q : α → G → Prop} (hA : A g) (hQ : ∀ a g', g ≤ g' → B a g' → Q a g') : L.wp p Q g :=
  L.wp_mono (fun a g' hg => hQ a g' hg.1 hg.2) (h g hA)

end Logic

section Lists

variable {A B : Type} {l : List A} {t t' : ℕ} {a b x : A}

/-- An entry of a list after one entry is replaced. -/
theorem getElem?_set_cases (h : (l.set t a)[t']? = some x) : (t' = t ∧ x = a) ∨ (t' ≠ t ∧ l[t']? = some x) := by
  by_cases ht : t' = t
  · subst ht
    obtain ⟨hlt, hx⟩ := List.getElem?_eq_some_iff.mp h
    rw [List.getElem_set_self] at hx
    exact .inl ⟨rfl, hx.symm⟩
  · rw [List.getElem?_set_ne (Ne.symm ht)] at h
    exact .inr ⟨ht, h⟩

theorem getElem?_concat_cases (h : (l ++ [a])[t']? = some x) : l[t']? = some x ∨ t' = l.length ∧ x = a := by
  rcases lt_trichotomy t' l.length with hlt | rfl | hgt
  · rw [List.getElem?_append_left hlt] at h
    exact .inl h
  · rw [List.getElem?_concat_length] at h
    exact .inr ⟨rfl, (Option.some.inj h).symm⟩
  · rw [List.getElem?_eq_none (by simp; omega)] at h
    exact absurd h (Option.some_ne_none x).symm

theorem mem_set_of_ne (ht : l[t]? = some a) (hx : x ∈ l) (hne : x ≠ a) : x ∈ l.set t b := by
  obtain ⟨i, hi⟩ := List.mem_iff_getElem?.mp hx
  have hit : t ≠ i := by
    rintro rfl
    exact hne (Option.some.inj (hi.symm.trans ht))
  exact List.mem_of_getElem? ((List.getElem?_set_ne hit).trans hi)

theorem map_set_self {f : A → B} (ha : l[t]? = some a) (hf : f b = f a) : (l.set t b).map f = l.map f := by
  obtain ⟨hlt, rfl⟩ := List.getElem?_eq_some_iff.mp ha
  rw [List.map_set, hf, ← List.map_set, List.set_getElem_self]

end Lists

/-- A pool: the shared state, and the threads in the order they were started. -/
structure Pool {I : Type} (R : I → Type) (S : Type) where
  shared : S
  threads : List (Prog R Unit)

/-- What instructions and outside events do. `C` resolves an instruction's choices. Both may
be disabled (`none`) and both may start threads. -/
structure Sem {I : Type} (R : I → Type) (S C E : Type) where
  exec : (i : I) → C → S → Option (R i × S × List (Prog R Unit))
  ext : E → S → Option (S × List (Prog R Unit))

inductive Act (C E : Type) where
  | run (t : ℕ) (c : C)
  | env (e : E)

namespace Pool

variable {I : Type} {R : I → Type} {S C E G : Type}

def step (sem : Sem R S C E) (p : Pool R S) : Act C E → Option (Pool R S)
  | .run t c =>
    match p.threads[t]? with
    | some (.op i k) =>
      (sem.exec i c p.shared).map fun out => ⟨out.2.1, p.threads.set t (k out.1) ++ out.2.2⟩
    | _ => none
  | .env e => (sem.ext e p.shared).map fun out => ⟨out.1, p.threads ++ out.2⟩

/-- A side condition on steps: on the instruction about to be executed, and on outside events. -/
structure Cond (I S C E : Type) where
  instr : I → C → S → Prop
  event : E → S → Prop

def Cond.and (a b : Cond I S C E) : Cond I S C E where
  instr i c s := a.instr i c s ∧ b.instr i c s
  event e s := a.event e s ∧ b.event e s

instance (a b : Cond I S C E) (i : I) (c : C) (s : S) [Decidable (a.instr i c s)] [Decidable (b.instr i c s)] :
    Decidable ((a.and b).instr i c s) := inferInstanceAs (Decidable (_ ∧ _))

instance (a b : Cond I S C E) (e : E) (s : S) [Decidable (a.event e s)] [Decidable (b.event e s)] :
    Decidable ((a.and b).event e s) := inferInstanceAs (Decidable (_ ∧ _))

def Meets (cond : Cond I S C E) (p : Pool R S) : Act C E → Prop
  | .run t c =>
    match p.threads[t]? with
    | some (.op i _) => cond.instr i c p.shared
    | _ => True
  | .env e => cond.event e p.shared

instance (cond : Cond I S C E) [∀ i c s, Decidable (cond.instr i c s)] [∀ e s, Decidable (cond.event e s)]
    (p : Pool R S) (a : Act C E) : Decidable (Meets cond p a) :=
  match a with
  | .run t c =>
    show Decidable (match p.threads[t]? with
      | some (.op i _) => cond.instr i c p.shared
      | _ => True) from
    match p.threads[t]? with
    | some (.op i _) => inferInstanceAs (Decidable (cond.instr i c p.shared))
    | some (.ret _) | some .spin | none => isTrue trivial
  | .env e => inferInstanceAs (Decidable (cond.event e p.shared))

/-- Each thread can run with its share of the resources, and leaves one that meets `Q` if it ends. -/
def CoversTo (L : Logic R G) (Q : G → Prop) (threads : List (Prog R Unit)) (gs : List G) : Prop :=
  List.Forall₂ (fun th g => L.wp th (fun _ g' => Q g') g) threads gs

/-- Each thread can run with its share of the resources. -/
def Covers (L : Logic R G) (threads : List (Prog R Unit)) (gs : List G) : Prop :=
  List.Forall₂ (fun th g => L.wp th (fun _ _ => True) g) threads gs

/-- Every thread is covered by its share of the resources, and the shares meet `Inv`. -/
def Holds (L : Logic R G) (Inv : S → List G → Prop) (p : Pool R S) : Prop :=
  ∃ gs, Covers L p.threads gs ∧ Inv p.shared gs

def HoldsTo (L : Logic R G) (Q : G → Prop) (Inv : S → List G → Prop) (p : Pool R S) : Prop :=
  ∃ gs, CoversTo L Q p.threads gs ∧ Inv p.shared gs

/-- The thread `t` goes on with a share that its rule allows, the threads it started are
covered, and the shares meet `Inv` again. -/
def Next (L : Logic R G) (Inv : S → List G → Prop) (gs : List G) (t : ℕ) (i : I) (g : G) (r : R i) (s' : S)
    (new : List (Prog R Unit)) : Prop :=
  ∃ g' gnew, L.post i g r g' ∧ Covers L new gnew ∧ Inv s' (gs.set t g' ++ gnew)

/-- What has to be shown of one instruction. -/
def ExecOk (sem : Sem R S C E) (cond : Cond I S C E) (L : Logic R G) (Inv : S → List G → Prop) : Prop :=
  ∀ (i : I) (c : C) (s : S) (gs : List G) (t : ℕ) (g : G) (r : R i) (s' : S)
    (new : List (Prog R Unit)), gs[t]? = some g → Inv s gs → cond.instr i c s → L.pre i g →
    sem.exec i c s = some (r, s', new) → Next L Inv gs t i g r s' new

def ExecOkTo (sem : Sem R S C E) (cond : Cond I S C E) (L : Logic R G) (Q : G → Prop) (Inv : S → List G → Prop) : Prop :=
  ∀ (i : I) (c : C) (s : S) (gs : List G) (t : ℕ) (g : G) (r : R i) (s' : S)
    (new : List (Prog R Unit)), gs[t]? = some g → Inv s gs → cond.instr i c s → L.pre i g →
    sem.exec i c s = some (r, s', new) →
    ∃ g' gnew, L.post i g r g' ∧ CoversTo L Q new gnew ∧ Inv s' (gs.set t g' ++ gnew)

/-- What has to be shown of one outside event. -/
def ExtOk (sem : Sem R S C E) (cond : Cond I S C E) (L : Logic R G) (Inv : S → List G → Prop) : Prop :=
  ∀ (e : E) (s : S) (gs : List G) (s' : S) (new : List (Prog R Unit)), Inv s gs → cond.event e s →
    sem.ext e s = some (s', new) → ∃ gnew, Covers L new gnew ∧ Inv s' (gs ++ gnew)

theorem forall₂_get {A B : Type} {P : A → B → Prop} {as : List A} {bs : List B}
    (h : List.Forall₂ P as bs) {t : ℕ} {a : A} (ha : as[t]? = some a) :
    ∃ b, bs[t]? = some b ∧ P a b := by
  induction h generalizing t with
  | nil => simp at ha
  | cons hp _ ih =>
    cases t with
    | zero => simp only [List.getElem?_cons_zero, Option.some.injEq] at ha; subst ha; exact ⟨_, rfl, hp⟩
    | succ t => exact ih (by simpa using ha)

theorem forall₂_set {A B : Type} {P : A → B → Prop} {as : List A} {bs : List B}
    (h : List.Forall₂ P as bs) (t : ℕ) {a : A} {b : B} (hp : P a b) :
    List.Forall₂ P (as.set t a) (bs.set t b) := by
  induction h generalizing t with
  | nil => exact .nil
  | cons h₁ h₂ ih =>
    cases t with
    | zero => exact .cons hp h₂
    | succ t => exact .cons h₁ (ih t)

theorem forall₂_append {A B : Type} {P : A → B → Prop} {as as' : List A} {bs bs' : List B}
    (h : List.Forall₂ P as bs) (h' : List.Forall₂ P as' bs') :
    List.Forall₂ P (as ++ as') (bs ++ bs') := by
  induction h with
  | nil => exact h'
  | cons h₁ _ ih => exact .cons h₁ ih

/-- One instruction of any thread keeps a pool covered. -/
theorem holdsTo_run {sem : Sem R S C E} {cond : Cond I S C E} {L : Logic R G} {Q : G → Prop} {Inv : S → List G → Prop}
    (hx : ExecOkTo sem cond L Q Inv) {p p' : Pool R S} {t : ℕ} {c : C} (hp : HoldsTo L Q Inv p) (hm : Meets cond p (.run t c))
    (hs : p.step sem (.run t c) = some p') : HoldsTo L Q Inv p' := by
  obtain ⟨gs, hcov, hinv⟩ := hp
  simp only [step] at hs
  simp only [Meets] at hm
  split at hs
  · rename_i i k hth
    rw [hth] at hm
    obtain ⟨⟨r, s', new⟩, hex, rfl⟩ := Option.map_eq_some_iff.mp hs
    obtain ⟨g, hg, hwp⟩ := forall₂_get hcov hth
    obtain ⟨g', gnew, hpost, hnew, hinv'⟩ := hx i c p.shared gs t g r s' new hg hinv hm hwp.1 hex
    exact ⟨_, forall₂_append (forall₂_set hcov t (hwp.2 r g' hpost)) hnew, hinv'⟩
  · cases hs

def ExtOkTo (sem : Sem R S C E) (cond : Cond I S C E) (L : Logic R G) (Q : G → Prop) (Inv : S → List G → Prop) : Prop :=
  ∀ (e : E) (s : S) (gs : List G) (s' : S) (new : List (Prog R Unit)), Inv s gs → cond.event e s →
    sem.ext e s = some (s', new) → ∃ gnew, CoversTo L Q new gnew ∧ Inv s' (gs ++ gnew)

/-- Every run whose steps meet the condition keeps a covered pool covered, and the threads that have
ended have left what they must. -/
theorem holdsTo_runAll {sem : Sem R S C E} {cond : Cond I S C E} {L : Logic R G} {Q : G → Prop} {Inv : S → List G → Prop}
    (hx : ExecOkTo sem cond L Q Inv) (he : ExtOkTo sem cond L Q Inv) {p p' : Pool R S} {as : List (Act C E)}
    (hp : HoldsTo L Q Inv p) (ha : Along (step sem) (Meets cond) p as) (hr : runAll (step sem) p as = some p') :
    HoldsTo L Q Inv p' := by
  apply inv_runAll _ as p p' hp ha hr
  intro p a p' hp hm hs
  cases a with
  | run t c => exact holdsTo_run hx hp hm hs
  | env e =>
    obtain ⟨gs, hcov, hinv⟩ := hp
    simp only [step] at hs
    obtain ⟨⟨s', new⟩, hex, rfl⟩ := Option.map_eq_some_iff.mp hs
    obtain ⟨gnew, hnew, hinv'⟩ := he e p.shared gs s' new hinv hm hex
    exact ⟨_, forall₂_append hcov hnew, hinv'⟩

/-- The threads that have ended have left what they must. -/
theorem CoversTo.ended {L : Logic R G} {Q : G → Prop} {threads : List (Prog R Unit)} {gs : List G}
    (h : CoversTo L Q threads gs) (hover : ∀ th ∈ threads, th = .ret ()) : ∀ g ∈ gs, Q g := by
  induction h with
  | nil => exact fun g hg => absurd hg List.not_mem_nil
  | @cons th g ths gs hwp _ ih =>
    intro x hx
    rcases List.mem_cons.mp hx with rfl | hx
    · obtain rfl := hover th List.mem_cons_self
      exact hwp
    · exact ih (fun th hth => hover th (List.mem_cons_of_mem _ hth)) x hx

/-- One step of any thread, or an outside event, keeps a pool covered. -/
theorem holds_step {sem : Sem R S C E} {cond : Cond I S C E} {L : Logic R G}
    {Inv : S → List G → Prop} (hx : ExecOk sem cond L Inv) (he : ExtOk sem cond L Inv)
    (p : Pool R S) (a : Act C E) (p' : Pool R S) (hp : Holds L Inv p) (hm : Meets cond p a)
    (hs : p.step sem a = some p') : Holds L Inv p' := by
  cases a with
  | run t c =>
    have hx' : ExecOkTo sem cond L (fun _ => True) Inv := hx
    exact holdsTo_run hx' hp hm hs
  | env e =>
    obtain ⟨gs, hcov, hinv⟩ := hp
    simp only [step] at hs
    obtain ⟨⟨s', new⟩, hex, rfl⟩ := Option.map_eq_some_iff.mp hs
    obtain ⟨gnew, hnew, hinv'⟩ := he e p.shared gs s' new hinv hm hex
    exact ⟨_, forall₂_append hcov hnew, hinv'⟩

/-- Every run whose steps meet the condition keeps a covered pool covered. -/
theorem holds_run {sem : Sem R S C E} {cond : Cond I S C E} {L : Logic R G}
    {Inv : S → List G → Prop} (hx : ExecOk sem cond L Inv) (he : ExtOk sem cond L Inv)
    {p p' : Pool R S} {as : List (Act C E)} (hp : Holds L Inv p)
    (ha : Along (step sem) (Meets cond) p as) (hr : runAll (step sem) p as = some p') :
    Holds L Inv p' :=
  inv_runAll (holds_step hx he) as p p' hp ha hr

end Pool

end Conc
