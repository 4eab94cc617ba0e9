import Gate.Lib.Threads

/-! Programs that run alone, and pools that take turns. `after` says what holds when a
program has run from a state with nobody else about. If in a pool a thread executes an
entry instruction only while no other thread is past its own, then what every program
keeps when it runs alone holds whenever no thread is inside. -/

namespace Conc

variable {I : Type} {R : I → Type} {S C E α β : Type}

section Alone

variable (ex : (i : I) → C → S → Option (R i × S)) (ok : (i : I) → C → S → Prop)

/-- Whichever choices `ok` allows, the program ends in `Q` if it ends. -/
def after : Prog R α → (α → S → Prop) → S → Prop
  | .ret a, Q, s => Q a s
  | .spin, _, _ => True
  | .op i k, Q, s => ∀ c r s', ok i c s → ex i c s = some (r, s') → after (k r) Q s'

/-- The run with the given choices, one for each instruction. -/
def alone : Prog R α → List C → S → Option (α × S)
  | .ret a, [], s => some (a, s)
  | .op i k, c :: cs, s => (ex i c s).bind fun out => alone (k out.1) cs out.2
  | _, _, _ => none

@[simp] theorem after_ret (a : α) (Q : α → S → Prop) (s : S) : after ex ok (.ret a : Prog R α) Q s ↔ Q a s := Iff.rfl

@[simp] theorem after_pure (a : α) (Q : α → S → Prop) (s : S) : after ex ok (pure a : Prog R α) Q s ↔ Q a s := Iff.rfl

@[simp] theorem after_exec (i : I) (Q : R i → S → Prop) (s : S) :
    after ex ok (Prog.exec i) Q s ↔ ∀ c r s', ok i c s → ex i c s = some (r, s') → Q r s' := Iff.rfl

variable {ex ok}

theorem after_mono {p : Prog R α} {Q Q' : α → S → Prop} (h : ∀ a s, Q a s → Q' a s) :
    ∀ {s : S}, after ex ok p Q s → after ex ok p Q' s := by
  induction p with
  | ret a => intro s; exact h a s
  | spin => intro s _; trivial
  | op i k ih => intro s hp c r s' hc hx; exact ih r (hp c r s' hc hx)

@[simp] theorem after_bind (p : Prog R α) (f : α → Prog R β) (Q : β → S → Prop) (s : S) :
    after ex ok (p >>= f) Q s ↔ after ex ok p (fun a s' => after ex ok (f a) Q s') s := by
  induction p generalizing s with
  | ret a => rfl
  | spin => rfl
  | op i k ih =>
    constructor
    · exact fun h c r s' hc hx => (ih r s').mp (h c r s' hc hx)
    · exact fun h c r s' hc hx => (ih r s').mpr (h c r s' hc hx)

@[simp] theorem after_ite (b : Prop) [Decidable b] (p p' : Prog R α) (Q : α → S → Prop) (s : S) :
    after ex ok (if b then p else p') Q s ↔ if b then after ex ok p Q s else after ex ok p' Q s := by
  split <;> rfl

theorem after_alone {p : Prog R α} {Q : α → S → Prop} {cs : List C} {s s' : S} {a : α}
    (hok : ∀ i c s, ok i c s) (h : after ex ok p Q s) (hr : alone ex p cs s = some (a, s')) : Q a s' := by
  induction p generalizing cs s with
  | ret b =>
    cases cs with
    | nil => cases hr; exact h
    | cons c cs => cases hr
  | spin => cases cs <;> cases hr
  | op i k ih =>
    cases cs with
    | nil => cases hr
    | cons c cs =>
      obtain ⟨⟨r, s₁⟩, hx, hr⟩ := Option.bind_eq_some_iff.mp hr
      exact ih r (h c r s₁ (hok i c s) hx) hr

end Alone

/-- A pool whose instructions start no threads and whose events start one each. -/
def starting (ex : (i : I) → C → S → Option (R i × S)) (start : E → Prog R Unit) : Sem R S C E where
  exec i c s := (ex i c s).map fun out => (out.1, out.2, [])
  ext e s := some (s, [start e])

section Turns

variable (entry : I → Prop)

/-- Past the entry and not finished. -/
def Prog.Inside : Prog R α → Prop
  | .ret _ => False
  | .spin => True
  | .op i _ => ¬entry i

instance [DecidablePred entry] : ∀ p : Prog R α, Decidable (p.Inside entry)
  | .ret _ => isFalse id
  | .spin => isTrue trivial
  | .op i _ => inferInstanceAs (Decidable (¬entry i))

/-- No entry instruction is left. -/
def Prog.Entered : Prog R α → Prop
  | .ret _ => True
  | .spin => True
  | .op i k => ¬entry i ∧ ∀ r, (k r).Entered

/-- The first instruction, and no other, is an entry. -/
def Prog.Enters (p : Prog R α) : Prop := ∃ i k, p = .op i k ∧ entry i ∧ ∀ r, (k r).Entered entry

/-- A thread enters only while no other is inside, and choices are such as `ok` allows. -/
def Turns (ok : (i : I) → C → S → Prop) (p : Pool R S) : Act C E → Prop
  | .run t c =>
    match p.threads[t]? with
    | some (.op i _) => ok i c p.shared ∧ (entry i → ∀ th ∈ p.threads.eraseIdx t, ¬th.Inside entry)
    | _ => True
  | .env _ => True

instance [DecidablePred entry] (ok : (i : I) → C → S → Prop) [∀ i c s, Decidable (ok i c s)] (p : Pool R S)
    (a : Act C E) : Decidable (Turns entry ok p a) :=
  match a with
  | .run t c =>
    show Decidable (match p.threads[t]? with
      | some (.op i _) => ok i c p.shared ∧ (entry i → ∀ th ∈ p.threads.eraseIdx t, ¬th.Inside entry)
      | _ => True) from
    match p.threads[t]? with
    | some (.op _ _) => inferInstanceAs (Decidable (_ ∧ _))
    | some (.ret _) | some .spin | none => isTrue trivial
  | .env _ => isTrue trivial

variable (ex : (i : I) → C → S → Option (R i × S)) (ok : (i : I) → C → S → Prop) (Inv : S → Prop)

/-- About to enter, with a program that keeps `Inv` when it runs alone. -/
def Prog.Waiting (p : Prog R Unit) : Prop := p.Enters entry ∧ ∀ s, Inv s → after ex ok p (fun _ => Inv) s

def Prog.Outside (p : Prog R Unit) : Prop := p = .ret () ∨ p.Waiting entry ex ok Inv

/-- Nobody is inside and `Inv` holds, or one thread is and will have restored it when it
is done. -/
def Turn (p : Pool R S) : Prop :=
  (Inv p.shared ∧ ∀ th ∈ p.threads, th.Outside entry ex ok Inv) ∨
  ∃ (t : ℕ) (th : Prog R Unit), p.threads[t]? = some th ∧ th.Entered entry ∧
    after ex ok th (fun _ => Inv) p.shared ∧ ∀ th' ∈ p.threads.eraseIdx t, th'.Outside entry ex ok Inv

variable {entry ex ok Inv}

theorem Prog.Entered.bind {p : Prog R α} {f : α → Prog R β} (hp : p.Entered entry) (hf : ∀ a, (f a).Entered entry) :
    (p >>= f).Entered entry := by
  induction p with
  | ret a => exact hf a
  | spin => trivial
  | op i k ih => exact ⟨hp.1, fun r => ih r (hp.2 r)⟩

theorem Prog.Enters.bind {p : Prog R α} {f : α → Prog R β} (hp : p.Enters entry) (hf : ∀ a, (f a).Entered entry) :
    (p >>= f).Enters entry := by
  obtain ⟨i, k, rfl, he, hk⟩ := hp
  exact ⟨i, _, rfl, he, fun r => (hk r).bind hf⟩

theorem Prog.Entered.done {th : Prog R Unit} (h : th.Entered entry) (hi : ¬th.Inside entry) : th = .ret () := by
  cases th with
  | ret a => rfl
  | spin => exact absurd trivial hi
  | op i k => exact absurd h.1 hi

theorem eraseIdx_set_self {A : Type} (l : List A) (t : ℕ) (a : A) : (l.set t a).eraseIdx t = l.eraseIdx t := by
  induction l generalizing t with
  | nil => rfl
  | cons b l ih =>
    cases t with
    | zero => rfl
    | succ t => simp [ih]

theorem mem_eraseIdx_or {A : Type} {l : List A} {t : ℕ} {a x : A} (h : l[t]? = some a) (hx : x ∈ l) :
    x = a ∨ x ∈ l.eraseIdx t := by
  obtain ⟨ht, rfl⟩ := List.getElem?_eq_some_iff.mp h
  have := (List.getElem_cons_eraseIdx_perm ht).mem_iff.mpr hx
  simpa using this

/-- Whenever nobody is inside, `Inv` holds. -/
theorem Turn.quiet {p : Pool R S} (h : Turn entry ex ok Inv p) (hq : ∀ th ∈ p.threads, ¬th.Inside entry) :
    Inv p.shared ∧ ∀ th ∈ p.threads, th.Outside entry ex ok Inv := by
  rcases h with h | ⟨t, th, ht, hen, haft, hout⟩
  · exact h
  · obtain rfl := hen.done (hq th (List.mem_of_getElem? ht))
    refine ⟨haft, fun th' hth' => ?_⟩
    rcases mem_eraseIdx_or ht hth' with rfl | hm
    · exact .inl rfl
    · exact hout th' hm

/-- The thread that has entered goes on. -/
theorem Turn.advance {p : Pool R S} {t : ℕ} {i : I} {k : R i → Prog R Unit} {c : C} {r : R i} {s' : S}
    (hout : ∀ th' ∈ p.threads.eraseIdx t, th'.Outside entry ex ok Inv) (ht : p.threads[t]? = some (.op i k))
    (hen : (k r).Entered entry) (haft : after ex ok (.op i k) (fun _ => Inv) p.shared) (hc : ok i c p.shared)
    (hx : ex i c p.shared = some (r, s')) : Turn entry ex ok Inv ⟨s', p.threads.set t (k r) ++ []⟩ := by
  have hlt := (List.getElem?_eq_some_iff.mp ht).1
  refine .inr ⟨t, k r, ?_, hen, haft c r s' hc hx, ?_⟩
  · simp [hlt]
  · rw [List.append_nil]
    dsimp only
    rw [eraseIdx_set_self]
    exact hout

theorem Turn.step {start : E → Prog R Unit} (hstart : ∀ e, (start e).Waiting entry ex ok Inv)
    {p p' : Pool R S} {a : Act C E} (h : Turn entry ex ok Inv p) (hc : Turns entry ok p a)
    (hs : p.step (starting ex start) a = some p') : Turn entry ex ok Inv p' := by
  cases a with
  | env e =>
    cases hs
    have hnew : (start e).Outside entry ex ok Inv := .inr (hstart e)
    rcases h with ⟨hi, hout⟩ | ⟨t, th, ht, hen, haft, hout⟩
    · refine .inl ⟨hi, fun th hth => ?_⟩
      rcases List.mem_append.mp hth with hth | hth
      · exact hout th hth
      · cases List.mem_singleton.mp hth
        exact hnew
    · have hlt := (List.getElem?_eq_some_iff.mp ht).1
      refine .inr ⟨t, th, (List.getElem?_append_left hlt).trans ht, hen, haft, fun th' hth' => ?_⟩
      rw [List.eraseIdx_append_of_lt_length hlt] at hth'
      rcases List.mem_append.mp hth' with hth' | hth'
      · exact hout th' hth'
      · cases List.mem_singleton.mp hth'
        exact hnew
  | run t c =>
    simp only [Pool.step] at hs
    simp only [Turns] at hc
    split at hs
    · rename_i i k ht
      rw [ht] at hc
      obtain ⟨out, hex, rfl⟩ := Option.map_eq_some_iff.mp hs
      obtain ⟨⟨r, s'⟩, hx, rfl⟩ := Option.map_eq_some_iff.mp hex
      -- a thread about to enter finds nobody inside, so `Inv` holds and it may begin
      have henter : Inv p.shared → (∀ th ∈ p.threads, th.Outside entry ex ok Inv) →
          Turn entry ex ok Inv ⟨s', p.threads.set t (k r) ++ []⟩ := by
        intro hi hout
        rcases hout _ (List.mem_of_getElem? ht) with hr | ⟨⟨i', k', he, -, hk⟩, haft⟩
        · cases hr
        · cases he
          exact Turn.advance (fun th' hth' => hout th' (List.mem_of_mem_eraseIdx hth')) ht (hk r)
            (haft _ hi) hc.1 hx
      rcases h with ⟨hi, hout⟩ | ⟨t₀, th, ht₀, hen, haft, hout⟩
      · exact henter hi hout
      · by_cases htt : t = t₀
        · subst htt
          rw [ht] at ht₀
          cases ht₀
          exact Turn.advance hout ht (hen.2 r) haft hc.1 hx
        · have hmem : ∀ x, p.threads[t]? = some x → x ∈ p.threads.eraseIdx t₀ := fun x hx =>
            List.mem_eraseIdx_iff_getElem?.mpr ⟨t, htt, hx⟩
          rcases hout _ (hmem _ ht) with hr | ⟨⟨i', k', he, hentry, -⟩, -⟩
          · cases hr
          · cases he
            have hquiet : ∀ x ∈ p.threads, ¬x.Inside entry := by
              intro x hxm
              rcases mem_eraseIdx_or ht hxm with rfl | hm
              · exact fun hin => hin hentry
              · exact hc.2 hentry x hm
            obtain ⟨hi, hout'⟩ := Turn.quiet (.inr ⟨t₀, th, ht₀, hen, haft, hout⟩) hquiet
            exact henter hi hout'
    · cases hs

/-- Over a whole run of turns, `Inv` holds whenever nobody is inside. -/
theorem turns_run {start : E → Prog R Unit} (hstart : ∀ e, (start e).Waiting entry ex ok Inv) {s : S} (hi : Inv s)
    {as : List (Act C E)} {p : Pool R S} (hc : Along (Pool.step (starting ex start)) (Turns entry ok) ⟨s, []⟩ as)
    (hr : runAll (Pool.step (starting ex start)) ⟨s, []⟩ as = some p) (hq : ∀ th ∈ p.threads, ¬th.Inside entry) :
    Inv p.shared := by
  have h : Turn entry ex ok Inv p := by
    refine inv_runAll (fun _ _ _ h hc hs => Turn.step hstart h hc hs) as ⟨s, []⟩ p (.inl ⟨hi, ?_⟩) hc hr
    intro th hth
    cases hth
  exact (h.quiet hq).1

end Turns

end Conc
