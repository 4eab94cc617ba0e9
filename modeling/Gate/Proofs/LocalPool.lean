import Gate.Lib.Accounts
import Gate.Lib.Serial
import Gate.Spec.LocalPool

/-! The safety limit with calls at once. The counter is what its window admitted and what calls under
way have charged, so no window admits more than the limit, as long as the counter stays at the
window that the calls under way have read. -/

namespace Gate

open Conc Accounts

/-- Where a call is: `k` is the window it read, `cost` what it has charged. -/
inductive CallState where
  /-- before the clock reading, or returned -/
  | idle
  /-- the counter is at the window it read -/
  | reader (k : ℤ)
  /-- it finds the counter at another window, with nobody else about -/
  | roller (k : ℤ)
  | swapper (k prev : ℤ)
  /-- it has moved the window on -/
  | rolled (k : ℤ)
  /-- its charge passed the limit and is taken back -/
  | beyond (k cost : ℤ)
  | undone (k : ℤ)
  /-- its charge was within the limit -/
  | within (k cost : ℤ)

namespace CallState

def inside : CallState → ℤ
  | .idle => 0
  | _ => 1

/-- What it has in the counter. -/
def held : CallState → ℤ
  | .beyond _ cost | .within _ cost => cost
  | _ => 0

/-- What it will have been admitted in window `k`. -/
def promised (k : ℤ) : CallState → ℤ
  | .within k' cost => if k' = k then cost else 0
  | _ => 0

/-- It finds, or found, the counter at another window. -/
def moving : CallState → Bool
  | .roller _ | .swapper _ _ | .rolled _ => true
  | _ => false

end CallState

/-! ### The program -/

section Program

variable (rule : Request)

def windowNeeds : Instr → CallState → Prop
  | .window _ _, g => g = .idle
  | .clock _, g => g = .idle
  | .store (.windowSeen _) _, g => g ≠ .idle
  | .load (.windowID _), g => (∃ k, g = .reader k ∨ g = .roller k) ∨ ∃ k cost, g = .within k cost
  | .cas (.windowID _) old new, g => g = .swapper new old
  | .store (.windowConsumed _) v, g => v = 0 ∧ ∃ k, g = .rolled k
  | .add (.windowConsumed _) d, g => (0 ≤ d ∧ ∃ k, g = .reader k) ∨ ∃ k, g = .beyond k (-d)
  | .load (.windowConsumed _), g => ∃ k, g = .undone k
  | .answered req (.ok d), g =>
    (d.allowed = false ∧ ∃ k, g = .undone k) ∨
      (d.allowed = true ∧ ∃ k, d.resetAt = some (stopOf rule k) ∧ g = .within k (max req.cost 1))
  | _, _ => False

/-- How a call goes on. -/
def windowGoes : (i : Instr) → CallState → i.Answer → CallState → Prop
  | .clock _, _, now, g' =>
    g' = .reader (now.tdiv (milliseconds rule.window)) ∨ g' = .roller (now.tdiv (milliseconds rule.window))
  | .load (.windowID _), .reader k, id, g' => id = k ∧ g' = .reader k
  | .load (.windowID _), .roller k, id, g' => id ≠ k ∧ g' = .swapper k id
  | .cas _ _ _, .swapper k _, swapped, g' => swapped = true ∧ g' = .rolled k
  | .store (.windowConsumed _) _, .rolled k, _, g' => g' = .reader k
  | .add _ d, .reader k, used, g' => g' = if rule.limit < (show ℤ from used) then .beyond k d else .within k d
  | .add _ _, .beyond k _, _, g' => g' = .undone k
  | .answered _ _, _, _, g' => g' = .idle
  | _, g, _, g' => g' = g

def windowLogic : Logic Instr.Answer CallState := ⟨windowNeeds rule, windowGoes rule⟩

variable {rule}

namespace WindowRules

variable {x : Cell} {v : ℤ} {g : CallState}

theorem wp_load {Q : ℤ → CallState → Prop} : (windowLogic rule).wp (load x) Q g ↔
    windowNeeds rule (.load x) g ∧ ∀ (r : ℤ) g', windowGoes rule (.load x) g r g' → Q r g' := Iff.rfl

theorem wp_store {Q : Unit → CallState → Prop} : (windowLogic rule).wp (store x v) Q g ↔
    windowNeeds rule (.store x v) g ∧ ∀ (r : Unit) g', windowGoes rule (.store x v) g r g' → Q r g' := Iff.rfl

theorem wp_add {Q : ℤ → CallState → Prop} : (windowLogic rule).wp (add x v) Q g ↔
    windowNeeds rule (.add x v) g ∧ ∀ (r : ℤ) g', windowGoes rule (.add x v) g r g' → Q r g' := Iff.rfl

theorem wp_cas {old new : ℤ} {Q : Bool → CallState → Prop} : (windowLogic rule).wp (cas x old new) Q g ↔
    windowNeeds rule (.cas x old new) g ∧ ∀ (r : Bool) g', windowGoes rule (.cas x old new) g r g' → Q r g' := Iff.rfl

theorem wp_clock {edge : ℕ} {Q : ℤ → CallState → Prop} : (windowLogic rule).wp (clock edge) Q g ↔
    windowNeeds rule (.clock edge) g ∧ ∀ (r : ℤ) g', windowGoes rule (.clock edge) g r g' → Q r g' := Iff.rfl

theorem wp_getWindow {edge : ℕ} {key : String} {Q : WPtr → CallState → Prop} : (windowLogic rule).wp (getWindow edge key) Q g ↔
    windowNeeds rule (.window edge key) g ∧ ∀ (r : WPtr) g', windowGoes rule (.window edge key) g r g' → Q r g' := Iff.rfl

end WindowRules

/-- What comes after the roll. -/
theorem wp_charge {w : WPtr} {req : Request} {k : ℤ} {Q : Decision → CallState → Prop} (hlimit : req.limit = rule.limit)
    (hover : ∀ d, d.allowed = false → Q d (.undone k))
    (hwithin : ∀ d, d.allowed = true → d.resetAt = some (stopOf rule k) → Q d (.within k (max req.cost 1))) :
    (windowLogic rule).wp (do
      let used ← add (.windowConsumed w) (max req.cost 1)
      if req.limit < used then
        let _ ← add (.windowConsumed w) (-(max req.cost 1))
        let consumed ← load (.windowConsumed w)
        return { { Decision.zero with limit := req.limit, resetAt := some (stopOf rule k) } with
          remaining := max 0 (req.limit - consumed) }
      else
        let gen ← load (.windowID w)
        return { { Decision.zero with limit := req.limit, resetAt := some (stopOf rule k) } with
          allowed := true, remaining := req.limit - used, adj := some (.window w), gen := gen }) Q (.reader k) := by
  rw [Logic.wp_bind, WindowRules.wp_add]
  refine ⟨.inl ⟨by omega, k, rfl⟩, fun used g' hg => ?_⟩
  rw [Logic.wp_ite]
  by_cases hused : req.limit < used
  · rw [if_pos hused]
    have hg' : g' = .beyond k (max req.cost 1) := hg.trans (if_pos (hlimit ▸ hused))
    subst hg'
    refine ⟨.inr ⟨k, by rw [neg_neg]⟩, fun _ g' hg => ?_⟩
    obtain rfl : g' = .undone k := hg
    refine ⟨⟨k, rfl⟩, fun _ g' hg => ?_⟩
    obtain rfl : g' = .undone k := hg
    exact hover _ rfl
  · rw [if_neg hused]
    have hg' : g' = .within k (max req.cost 1) := hg.trans (if_neg (hlimit ▸ hused))
    subst hg'
    refine ⟨.inr ⟨k, _, rfl⟩, fun _ g' hg => ?_⟩
    obtain rfl : g' = .within k (max req.cost 1) := hg
    exact hwithin _ rfl rfl

/-- A roll ends with the counter at the window that was read. -/
theorem wp_roll {w : WPtr} {now : ℤ} {g : CallState} {Q : Option ℤ → CallState → Prop} (hms : 0 < milliseconds rule.window)
    (hg : g = .reader (now.tdiv (milliseconds rule.window)) ∨ g = .roller (now.tdiv (milliseconds rule.window)))
    (hq : Q (some (stopOf rule (now.tdiv (milliseconds rule.window)))) (.reader (now.tdiv (milliseconds rule.window)))) :
    (windowLogic rule).wp (Local.roll w rule.window now) Q g := by
  unfold Local.roll
  rw [Logic.wp_bind, WindowRules.wp_store]
  refine ⟨?_, fun _ g' hg' => ?_⟩
  · rcases hg with rfl | rfl
    · exact CallState.noConfusion
    · exact CallState.noConfusion
  obtain rfl : g' = g := hg'
  dsimp only
  rw [if_neg (not_le.mpr hms), Logic.wp_bind, WindowRules.wp_load]
  refine ⟨.inl ⟨_, hg⟩, fun prev g' hg' => ?_⟩
  rcases hg with rfl | rfl
  · obtain ⟨rfl, rfl⟩ : prev = _ ∧ g' = _ := hg'
    rw [if_pos rfl]
    exact hq
  · obtain ⟨hne, rfl⟩ : prev ≠ _ ∧ g' = _ := hg'
    rw [if_neg hne, Logic.wp_bind, WindowRules.wp_cas]
    refine ⟨rfl, fun swapped g' hg' => ?_⟩
    obtain ⟨rfl, rfl⟩ : swapped = true ∧ g' = _ := hg'
    rw [if_pos rfl]
    refine ⟨⟨rfl, _, rfl⟩, fun _ g' hg' => ?_⟩
    obtain rfl : g' = _ := hg'
    exact hq

theorem wp_localThread (cost : ℤ) (hms : 0 < milliseconds rule.window) :
    (windowLogic rule).wp (localThread { rule with cost := cost }) (fun _ _ => True) .idle := by
  unfold localThread Local.allow
  rw [Logic.wp_bind, Logic.wp_bind, WindowRules.wp_getWindow]
  refine ⟨rfl, fun w g' hg => ?_⟩
  obtain rfl : g' = .idle := hg
  rw [Logic.wp_bind, WindowRules.wp_clock]
  refine ⟨rfl, fun now g' hg => ?_⟩
  rw [Logic.wp_bind]
  refine wp_roll hms hg ?_
  refine wp_charge rfl (fun d hd => ?_) fun d hd hstop => ?_
  · exact ⟨.inl ⟨hd, _, rfl⟩, fun _ _ _ => trivial⟩
  · exact ⟨.inr ⟨hd, _, hstop, rfl⟩, fun _ _ _ => trivial⟩

end Program

/-! ### What a step keeps -/

section Steps

variable {rule : Request} {w w' : WindowWorld} {gs : List CallState} {g g' : CallState} {t : ℕ} {k : ℤ}

/-- The window of the clock. -/
def WindowWorld.current (rule : Request) (w : WindowWorld) : ℤ := w.now.tdiv (milliseconds rule.window)

/-- A call that rolls the window is alone, and all that was admitted is of earlier windows. -/
structure WindowWorld.Alone (rule : Request) (w : WindowWorld) (k : ℤ) : Prop where
  inside : w.inside = 1
  rolling : w.rolling = true
  read : k ≤ w.current rule
  earlier : ∀ x ∈ w.log, x.2.allowed = true → ∃ j < k, x.2.resetAt = some (stopOf rule j)

def WindowWorld.At (rule : Request) (w : WindowWorld) (k : ℤ) : Prop := w.win.id = k ∧ k ≤ w.current rule

/-- What holds of a call under way. -/
def CallOk (rule : Request) (w : WindowWorld) : CallState → Prop
  | .idle => True
  | .reader k | .undone k => w.At rule k
  | .beyond k cost | .within k cost => w.At rule k ∧ 0 ≤ cost
  | .roller k => w.win.id ≠ k ∧ w.Alone rule k
  | .swapper k prev => w.win.id = prev ∧ w.Alone rule k
  | .rolled k => w.win.id = k ∧ w.Alone rule k

def CallsOk (rule : Request) (w : WindowWorld) (gs : List CallState) : Prop := ∀ g ∈ gs, CallOk rule w g

structure Counting (rule : Request) (w : WindowWorld) (gs : List CallState) : Prop where
  calls : CallsOk rule w gs
  inside : (w.inside : ℤ) = (gs.map CallState.inside).sum
  entries : ∀ x ∈ w.log, x.2.allowed = true → w.win.id ≤ w.current rule ∧ ∃ j ≤ w.win.id, x.2.resetAt = some (stopOf rule j)
  consumed : (∀ k, .rolled k ∉ gs) → w.win.consumed = windowTotal rule w.win.id w.log + (gs.map CallState.held).sum
  bound : ∀ k, windowTotal rule k w.log + (gs.map (CallState.promised k)).sum ≤ rule.limit

theorem CallState.inside_nonneg (g : CallState) : 0 ≤ g.inside := by
  cases g with
  | idle => exact le_rfl
  | _ => exact zero_le_one

theorem CallState.inside_eq_zero {g : CallState} (h : g.inside = 0) : g = .idle := by
  cases g with
  | idle => rfl
  | _ => cases h

/-- With one call under way, all others are idle. -/
theorem Counting.sole (h : Counting rule w gs) (ht : gs[t]? = some g) (hg : g.inside = 1) (hin : w.inside = 1)
    (x : CallState) : ∀ y ∈ gs.set t x, y = x ∨ y = .idle := by
  intro y hy
  obtain ⟨hlt, -⟩ := List.getElem?_eq_some_iff.mp ht
  have hsum : ((gs.eraseIdx t).map CallState.inside).sum = 0 := by
    rw [sum_map_eraseIdx _ ht, ← h.inside, hin, hg]
    rfl
  have hset : (gs.set t x)[t]? = some x := List.getElem?_set_self hlt
  rcases mem_eraseIdx_or hset hy with rfl | hy
  · exact .inl rfl
  · rw [eraseIdx_set_self] at hy
    refine .inr (CallState.inside_eq_zero ?_)
    refine List.all_zero_of_le_zero_le_of_sum_eq_zero (fun n hn => ?_) hsum (List.mem_map_of_mem hy)
    obtain ⟨z, -, rfl⟩ := List.mem_map.mp hn
    exact z.inside_nonneg

/-- What a rolling call has in the sums is all there is. -/
theorem sum_sole {f : CallState → ℤ} {x : CallState} (hidle : f .idle = 0) (hx : f x = 0) (h : ∀ y ∈ gs, y = x ∨ y = .idle) :
    (gs.map f).sum = 0 := by
  refine List.sum_eq_zero fun n hn => ?_
  obtain ⟨y, hy, rfl⟩ := List.mem_map.mp hn
  rcases h y hy with rfl | rfl
  · exact hx
  · exact hidle

theorem CallOk.alone (h : CallOk rule w g) (hm : g.moving = true) : ∃ k, w.Alone rule k := by
  cases g with
  | roller k | swapper k prev | rolled k => exact ⟨k, h.2⟩
  | _ => cases hm

/-- A call that is not rolling the window is not under way together with one that is. -/
theorem Counting.steady (h : Counting rule w gs) (ht : gs[t]? = some g) (hin : g.inside = 1) (hm : g.moving = false) :
    ∀ y ∈ gs, y.moving = false := by
  intro y hy
  have hset : gs.set t g = gs := by
    obtain ⟨hlt, rfl⟩ := List.getElem?_eq_some_iff.mp ht
    exact List.set_getElem_self hlt
  by_contra hne
  obtain ⟨k, ha⟩ := (h.calls y hy).alone (Bool.not_eq_false _ ▸ hne)
  rcases h.sole ht hin ha.inside g y (hset.symm ▸ hy) with rfl | rfl
  · exact hne hm
  · exact hne rfl

theorem not_rolled (h : ∀ y ∈ gs, y.moving = false) (k : ℤ) : .rolled k ∉ gs := by
  intro hm
  cases h _ hm

theorem CallOk.keep (h : CallOk rule w g) (hm : g.moving = false) (hid : w'.win.id = w.win.id)
    (hnow : w.current rule ≤ w'.current rule) : CallOk rule w' g := by
  have hat : ∀ k, w.At rule k → w'.At rule k := fun k ha => ⟨hid.trans ha.1, ha.2.trans hnow⟩
  cases g with
  | idle => trivial
  | reader k => exact hat k h
  | undone k => exact hat k h
  | beyond k cost => exact ⟨hat k h.1, h.2⟩
  | within k cost => exact ⟨hat k h.1, h.2⟩
  | _ => cases hm

theorem forall_set {P : CallState → Prop} (h : ∀ y ∈ gs, P y) {x : CallState} (hx : P x) : ∀ y ∈ gs.set t x, P y := by
  intro y hy
  rcases List.mem_or_eq_of_mem_set hy with hy | rfl
  · exact h y hy
  · exact hx

/-- One call goes on; the others are not rolling, and the counter stays at its window. -/
theorem Counting.calls_set {x : CallState} (h : Counting rule w gs) (hsteady : ∀ y ∈ gs, y.moving = false)
    (hid : w'.win.id = w.win.id) (hnow : w'.now = w.now) (hx : CallOk rule w' x) :
    CallsOk rule w' (gs.set t x) := by
  refine forall_set (fun y hy => (h.calls y hy).keep (hsteady y hy) hid (le_of_eq ?_)) hx
  unfold WindowWorld.current
  rw [hnow]

/-- A call returns. -/
theorem Counting.leave (h : Counting rule w gs) (ht : gs[t]? = some g) (hin : g.inside = 1) :
    ((w.inside - 1 : ℕ) : ℤ) = ((gs.set t .idle).map CallState.inside).sum := by
  have hle : g.inside ≤ (gs.map CallState.inside).sum := by
    refine List.single_le_sum (fun n hn => ?_) _ (List.mem_map_of_mem (List.mem_of_getElem? ht))
    obtain ⟨z, -, rfl⟩ := List.mem_map.mp hn
    exact z.inside_nonneg
  have hidle : CallState.idle.inside = 0 := rfl
  rw [sum_map_set _ ht, ← h.inside, hin, hidle]
  rw [hin, ← h.inside] at hle
  omega

theorem sum_set_same {f : CallState → ℤ} (ht : gs[t]? = some g) (h : f g' = f g) :
    ((gs.set t g').map f).sum = (gs.map f).sum := by
  rw [sum_map_set _ ht, h, sub_self, add_zero]

/-- A call goes on without changing the counter. -/
theorem Counting.pass (h : Counting rule w gs) (ht : gs[t]? = some g) (hok : CallOk rule w g')
    (hin : g'.inside = g.inside) (hheld : g'.held = g.held) (hprom : ∀ k, g'.promised k = g.promised k)
    (hrolled : ∀ k, g ≠ .rolled k) : Counting rule w (gs.set t g') := by
  refine ⟨forall_set h.calls hok, ?_, h.entries, fun hno => ?_, fun k => ?_⟩
  · rw [sum_set_same ht hin]
    exact h.inside
  · rw [sum_set_same ht hheld]
    refine h.consumed fun k hk => ?_
    -- a rolled call elsewhere is still there
    obtain ⟨i, hi⟩ := List.mem_iff_getElem?.mp hk
    refine hno k (List.mem_iff_getElem?.mpr ⟨i, ?_⟩)
    rw [List.getElem?_set_ne, hi]
    rintro rfl
    rw [ht] at hi
    exact hrolled k (Option.some.inj hi)
  · rw [sum_set_same ht (hprom k)]
    exact h.bound k

/-- A call reads the clock. -/
theorem Counting.clock (h : Counting rule w gs) (ht : gs[t]? = some .idle)
    (hc : w.inside = 0 ∨ w.win.id = w.current rule ∧ w.rolling = false) :
    ∃ g', (g' = .reader (w.current rule) ∨ g' = .roller (w.current rule)) ∧
      Counting rule { w with inside := w.inside + 1, rolling := w.rolling || w.win.id ≠ w.current rule } (gs.set t g') := by
  have hquiet : w.inside = 0 → ∀ y ∈ gs, y = .idle := by
    intro h0 y hy
    have hsum : (gs.map CallState.inside).sum = 0 := by
      rw [← h.inside, h0]
      rfl
    refine CallState.inside_eq_zero (List.all_zero_of_le_zero_le_of_sum_eq_zero (fun n hn => ?_) hsum (List.mem_map_of_mem hy))
    obtain ⟨z, -, rfl⟩ := List.mem_map.mp hn
    exact z.inside_nonneg
  have hsteady : ∀ y ∈ gs, y.moving = false := by
    intro y hy
    rcases hc with h0 | ⟨-, hr⟩
    · rw [hquiet h0 y hy]
      rfl
    · by_contra hne
      obtain ⟨k, ha⟩ := (h.calls y hy).alone (Bool.not_eq_false _ ▸ hne)
      rw [ha.rolling] at hr
      cases hr
  have hrest : ∀ g', CallOk rule { w with inside := w.inside + 1, rolling := w.rolling || w.win.id ≠ w.current rule } g' →
      g'.inside = 1 → g'.held = 0 → (∀ k, g'.promised k = 0) →
      Counting rule { w with inside := w.inside + 1, rolling := w.rolling || w.win.id ≠ w.current rule } (gs.set t g') := by
    intro g' hok hin hheld hprom
    refine ⟨h.calls_set hsteady rfl rfl hok, ?_, h.entries, fun _ => ?_, fun k => ?_⟩
    · rw [sum_map_set _ ht, ← h.inside, hin]
      push_cast
      rfl
    · rw [sum_set_same ht hheld]
      exact h.consumed (not_rolled hsteady)
    · rw [sum_set_same ht (hprom k)]
      exact h.bound k
  by_cases hid : w.win.id = w.current rule
  · exact ⟨_, .inl rfl, hrest _ ⟨hid, le_rfl⟩ rfl rfl fun _ => rfl⟩
  · have h0 : w.inside = 0 := hc.resolve_right fun hr => hid hr.1
    refine ⟨_, .inr rfl, hrest _ ⟨hid, ?_⟩ rfl rfl fun _ => rfl⟩
    refine ⟨by rw [h0], by simp [hid], le_rfl, fun x hx hal => ?_⟩
    obtain ⟨hle, j, hj, hstop⟩ := h.entries x hx hal
    exact ⟨j, lt_of_le_of_lt hj (lt_of_le_of_ne hle hid), hstop⟩

/-- A rolling call moves the counter to the window it read. -/
theorem Counting.swap {prev : ℤ} (h : Counting rule w gs) (ht : gs[t]? = some (.swapper k prev)) :
    w.win.id = prev ∧ Counting rule { w with win := { w.win with id := k } } (gs.set t (.rolled k)) := by
  obtain ⟨hprev, ha⟩ := h.calls _ (List.mem_of_getElem? ht)
  have hsole := h.sole ht rfl ha.inside (.rolled k)
  refine ⟨hprev, fun y hy => ?_, ?_, fun x hx hal => ?_, fun hno => ?_, fun j => ?_⟩
  · rcases hsole y hy with rfl | rfl
    · exact ⟨rfl, ha.inside, ha.rolling, ha.read, ha.earlier⟩
    · trivial
  · rw [sum_set_same ht (by rfl)]
    exact h.inside
  · obtain ⟨j, hj, hstop⟩ := ha.earlier x hx hal
    exact ⟨ha.read, j, hj.le, hstop⟩
  · exact absurd (List.mem_set (List.getElem?_eq_some_iff.mp ht).1 _) (hno k)
  · rw [sum_set_same ht (by rfl)]
    exact h.bound j

/-- And zeroes it: nothing was admitted in that window before. -/
theorem Counting.zero (h : Counting rule w gs) (hms : 0 < milliseconds rule.window) (ht : gs[t]? = some (.rolled k)) :
    Counting rule { w with win := { w.win with consumed := 0 }, rolling := false } (gs.set t (.reader k)) := by
  obtain ⟨hid, ha⟩ := h.calls _ (List.mem_of_getElem? ht)
  have hsole := h.sole ht rfl ha.inside (.reader k)
  have hnone : windowTotal rule k w.log = 0 := by
    refine List.sum_eq_zero fun n hn => ?_
    obtain ⟨x, hx, rfl⟩ := List.mem_map.mp hn
    refine if_neg fun hh => ?_
    obtain ⟨j, hj, hstop⟩ := ha.earlier x hx hh.1
    rw [hh.2] at hstop
    have hmul : (k + 1) * milliseconds rule.window = (j + 1) * milliseconds rule.window := Option.some.inj hstop
    have := mul_right_cancel₀ hms.ne' hmul
    omega
  refine ⟨fun y hy => ?_, ?_, h.entries, fun _ => ?_, fun j => ?_⟩
  · rcases hsole y hy with rfl | rfl
    · exact ⟨hid, ha.read⟩
    · trivial
  · rw [sum_set_same ht (by rfl)]
    exact h.inside
  · rw [sum_sole rfl rfl hsole, add_zero]
    change 0 = windowTotal rule w.win.id w.log
    rw [hid, hnone]
  · rw [sum_set_same ht (by rfl)]
    exact h.bound j

theorem promised_le_held (h : CallsOk rule w gs) (k : ℤ) :
    (gs.map (CallState.promised k)).sum ≤ (gs.map CallState.held).sum := by
  refine List.sum_le_sum fun y hy => ?_
  have hok := h y hy
  cases y with
  | within k' cost =>
    change (if k' = k then cost else 0) ≤ cost
    split
    · exact le_rfl
    · exact hok.2
  | beyond k' cost => exact hok.2
  | _ => exact le_rfl

/-- A call charges its cost. -/
theorem Counting.charge {d : ℤ} (h : Counting rule w gs) (ht : gs[t]? = some (.reader k)) (hd : 0 ≤ d) :
    Counting rule { w with win := { w.win with consumed := w.win.consumed + d } }
      (gs.set t (if rule.limit < w.win.consumed + d then .beyond k d else .within k d)) := by
  have hat : w.At rule k := h.calls _ (List.mem_of_getElem? ht)
  have hsteady := h.steady ht rfl rfl
  have hcons := h.consumed (not_rolled hsteady)
  split
  · refine ⟨h.calls_set hsteady rfl rfl ⟨hat, hd⟩, ?_, h.entries, fun _ => ?_, fun j => ?_⟩
    · rw [sum_set_same ht (by rfl)]
      exact h.inside
    · rw [sum_map_set _ ht]
      simp only [CallState.held, hcons]
      ring
    · rw [sum_set_same ht (by rfl)]
      exact h.bound j
  · rename_i hle
    refine ⟨h.calls_set hsteady rfl rfl ⟨hat, hd⟩, ?_, h.entries, fun _ => ?_, fun j => ?_⟩
    · rw [sum_set_same ht (by rfl)]
      exact h.inside
    · rw [sum_map_set _ ht]
      simp only [CallState.held, hcons]
      ring
    · rw [sum_map_set _ ht]
      have hbound := h.bound j
      simp only [CallState.promised, sub_zero]
      split
      · rename_i hkj
        have hprom := promised_le_held h.calls j
        rw [hat.1, hkj] at hcons
        omega
      · omega

/-- A charge that passed the limit is taken back. -/
theorem Counting.undo {cost : ℤ} (h : Counting rule w gs) (ht : gs[t]? = some (.beyond k cost)) :
    Counting rule { w with win := { w.win with consumed := w.win.consumed + -cost } } (gs.set t (.undone k)) := by
  have hok : w.At rule k ∧ 0 ≤ cost := h.calls _ (List.mem_of_getElem? ht)
  have hsteady := h.steady ht rfl rfl
  have hcons := h.consumed (not_rolled hsteady)
  refine ⟨h.calls_set hsteady rfl rfl hok.1, ?_, h.entries, fun _ => ?_, fun j => ?_⟩
  · rw [sum_set_same ht (by rfl)]
    exact h.inside
  · rw [sum_map_set _ ht]
    simp only [CallState.held, hcons]
    ring
  · rw [sum_set_same ht (by rfl)]
    exact h.bound j

theorem windowTotal_cons (x : Request × Decision) (log : List (Request × Decision)) :
    windowTotal rule k (x :: log) =
      (if x.2.allowed ∧ x.2.resetAt = some (stopOf rule k) then max x.1.cost 1 else 0) + windowTotal rule k log := by
  simp [windowTotal]

/-- A denied call returns. -/
theorem Counting.deny {req : Request} {d : Decision} (h : Counting rule w gs) (ht : gs[t]? = some (.undone k))
    (hd : d.allowed = false) :
    Counting rule { w with inside := w.inside - 1, log := (req, d) :: w.log } (gs.set t .idle) := by
  have hsteady := h.steady ht rfl rfl
  have hnot : ¬ d.allowed = true := by rw [hd]; decide
  have htotal : ∀ j, windowTotal rule j ((req, d) :: w.log) = windowTotal rule j w.log := fun j => by
    rw [windowTotal_cons, if_neg fun hh => hnot hh.1, zero_add]
  refine ⟨h.calls_set hsteady rfl rfl trivial, h.leave ht rfl, fun x hx hal => ?_, fun _ => ?_, fun j => ?_⟩
  · rcases List.mem_cons.mp hx with rfl | hx
    · exact absurd hal hnot
    · exact h.entries x hx hal
  · rw [sum_set_same ht (by rfl), htotal]
    exact h.consumed (not_rolled hsteady)
  · rw [sum_set_same ht (by rfl), htotal]
    exact h.bound j

/-- An admitted call returns: what it was promised goes on record. -/
theorem Counting.admit {req : Request} {d : Decision} (h : Counting rule w gs) (hms : 0 < milliseconds rule.window)
    (ht : gs[t]? = some (.within k (max req.cost 1))) (hd : d.allowed = true) (hstop : d.resetAt = some (stopOf rule k)) :
    Counting rule { w with inside := w.inside - 1, log := (req, d) :: w.log } (gs.set t .idle) := by
  have hok : w.At rule k ∧ _ := h.calls _ (List.mem_of_getElem? ht)
  have hsteady := h.steady ht rfl rfl
  have htotal : ∀ j, windowTotal rule j ((req, d) :: w.log) =
      (if k = j then max req.cost 1 else 0) + windowTotal rule j w.log := by
    intro j
    rw [windowTotal_cons]
    congr 1
    refine if_congr ⟨fun hh => ?_, fun hkj => ⟨hd, hkj ▸ hstop⟩⟩ rfl rfl
    rw [hstop] at hh
    have hmul : (k + 1) * milliseconds rule.window = (j + 1) * milliseconds rule.window := Option.some.inj hh.2
    have := mul_right_cancel₀ hms.ne' hmul
    omega
  refine ⟨h.calls_set hsteady rfl rfl trivial, h.leave ht rfl, fun x hx hal => ?_, fun _ => ?_, fun j => ?_⟩
  · rcases List.mem_cons.mp hx with rfl | hx
    · exact ⟨hok.1.1 ▸ hok.1.2, k, hok.1.1.ge, hstop⟩
    · exact h.entries x hx hal
  · have hcons := h.consumed (not_rolled hsteady)
    rw [sum_map_set _ ht, htotal]
    simp only [CallState.held]
    rw [if_pos hok.1.1.symm]
    omega
  · have hbound := h.bound j
    rw [sum_map_set _ ht, htotal]
    simp only [CallState.promised]
    omega

theorem Counting.same (h : Counting rule w gs) (ht : gs[t]? = some g) : Counting rule w (gs.set t g) := by
  obtain ⟨hlt, rfl⟩ := List.getElem?_eq_some_iff.mp ht
  rwa [List.set_getElem_self hlt]

/-! ### Every run -/

theorem window_execOk (hms : 0 < milliseconds rule.window) :
    Pool.ExecOk (windowSem rule) (rollsAlone rule) (windowLogic rule) (Counting rule) := by
  intro i u w gs t g r w' new ht h hcond hpre hex
  obtain ⟨⟨r', w''⟩, hrun, heq⟩ := Option.map_eq_some_iff.mp hex
  cases heq
  -- it remains to say how the call goes on, and that the count is kept
  suffices hnext : ∃ g', windowGoes rule i g r' g' ∧ Counting rule w'' (gs.set t g') by
    obtain ⟨g', hgoes, hc⟩ := hnext
    exact ⟨g', [], hgoes, .nil, (List.append_nil _).symm ▸ hc⟩
  cases i with
  | window edge key =>
    cases hrun
    exact ⟨g, rfl, h.same ht⟩
  | clock edge =>
    cases hrun
    obtain rfl : g = .idle := hpre
    exact h.clock ht (hcond rfl)
  | load x =>
    cases x with
    | windowID p =>
      cases hrun
      rcases hpre with ⟨k, rfl | rfl⟩ | ⟨k, cost, rfl⟩
      · have hat : w.At rule k := h.calls _ (List.mem_of_getElem? ht)
        exact ⟨_, ⟨hat.1, rfl⟩, h.same ht⟩
      · obtain ⟨hne, ha⟩ := h.calls _ (List.mem_of_getElem? ht)
        exact ⟨_, ⟨hne, rfl⟩, h.pass ht ⟨rfl, ha⟩ rfl rfl (fun _ => rfl) fun _ => CallState.noConfusion⟩
      · exact ⟨_, rfl, h.same ht⟩
    | windowConsumed p =>
      cases hrun
      obtain ⟨k, rfl⟩ := hpre
      exact ⟨_, rfl, h.same ht⟩
    | _ => exact hpre.elim
  | store x v =>
    cases x with
    | windowSeen p =>
      cases hrun
      exact ⟨g, rfl, h.same ht⟩
    | windowConsumed p =>
      cases hrun
      obtain ⟨rfl, k, rfl⟩ := hpre
      exact ⟨_, rfl, h.zero hms ht⟩
    | _ => exact hpre.elim
  | cas x old new =>
    cases x with
    | windowID p =>
      obtain rfl : g = .swapper new old := hpre
      obtain ⟨hid, hc⟩ := h.swap ht
      simp only [windowExec, if_pos hid] at hrun
      cases hrun
      exact ⟨_, ⟨rfl, rfl⟩, hc⟩
    | _ => exact hpre.elim
  | add x d =>
    cases x with
    | windowConsumed p =>
      cases hrun
      rcases hpre with ⟨hd, k, rfl⟩ | ⟨k, rfl⟩
      · exact ⟨_, rfl, h.charge ht hd⟩
      · have hc := h.undo ht
        rw [neg_neg] at hc
        exact ⟨_, rfl, hc⟩
    | _ => exact hpre.elim
  | answered req res =>
    cases res with
    | error e => exact hpre.elim
    | ok d =>
      cases hrun
      rcases hpre with ⟨hd, k, rfl⟩ | ⟨hd, k, hstop, rfl⟩
      · exact ⟨_, rfl, h.deny ht hd⟩
      · exact ⟨_, rfl, h.admit hms ht hd hstop⟩
  | _ => exact hpre.elim

/-- The clock goes on. -/
theorem Counting.tick (h : Counting rule w gs) (hms : 0 < milliseconds rule.window) (d : ℕ) :
    Counting rule { w with now := w.now + d } gs := by
  have hle : w.current rule ≤ WindowWorld.current rule { w with now := w.now + d } :=
    Int.tdiv_le_tdiv hms (by change w.now ≤ w.now + d; omega)
  have halone : ∀ k, w.Alone rule k → WindowWorld.Alone rule { w with now := w.now + d } k :=
    fun k ha => ⟨ha.inside, ha.rolling, ha.read.trans hle, ha.earlier⟩
  refine ⟨fun y hy => ?_, h.inside, fun x hx hal => ?_, h.consumed, h.bound⟩
  · have hok := h.calls y hy
    cases y with
    | roller k => exact ⟨hok.1, halone k hok.2⟩
    | swapper k prev => exact ⟨hok.1, halone k hok.2⟩
    | rolled k => exact ⟨hok.1, halone k hok.2⟩
    | _ => exact hok.keep rfl rfl hle
  · obtain ⟨hid, hj⟩ := h.entries x hx hal
    exact ⟨hid.trans hle, hj⟩

theorem sum_started {f : CallState → ℤ} (hidle : f .idle = 0) : ((gs ++ [CallState.idle]).map f).sum = (gs.map f).sum := by
  simp [hidle]

theorem window_extOk (hms : 0 < milliseconds rule.window) :
    Pool.ExtOk (windowSem rule) (rollsAlone rule) (windowLogic rule) (Counting rule) := by
  intro e w gs w' new h _ hex
  cases e with
  | tick d =>
    cases hex
    exact ⟨[], .nil, (List.append_nil gs).symm ▸ h.tick hms d⟩
  | call cost =>
    cases hex
    refine ⟨[.idle], .cons (wp_localThread cost hms) .nil, fun y hy => ?_, ?_, h.entries, fun hno => ?_, fun k => ?_⟩
    · rcases List.mem_append.mp hy with hy | hy
      · exact h.calls y hy
      · rw [List.mem_singleton.mp hy]
        trivial
    · rw [sum_started (by rfl)]
      exact h.inside
    · rw [sum_started (by rfl)]
      exact h.consumed fun k hk => hno k (List.mem_append_left _ hk)
    · rw [sum_started (by rfl)]
      exact h.bound k

/-- Any number of calls at once, with any costs, on a clock that does not go back. If a call reads
the clock only while no other is under way, or in the window that the counter is at and that no call
is rolling: the calls admitted on readings in a window cost at most the limit together. -/
theorem local_limit_holds (rule : Request) (hms : 0 < milliseconds rule.window) (hlimit : 0 ≤ rule.limit) (now : ℤ)
    (acts : List WindowAct) (p : Pool Instr.Answer WindowWorld)
    (halone : Along (Pool.step (windowSem rule)) (Pool.Meets (rollsAlone rule)) ⟨.start now, []⟩ acts)
    (hrun : runAll (Pool.step (windowSem rule)) ⟨.start now, []⟩ acts = some p) (k : ℤ) :
    windowTotal rule k p.shared.log ≤ rule.limit := by
  have hstart : Pool.Holds (windowLogic rule) (Counting rule) ⟨.start now, []⟩ :=
    ⟨[], .nil, fun y hy => (nomatch hy), rfl, fun x hx => (nomatch hx), fun _ => rfl, fun _ => hlimit⟩
  obtain ⟨gs, -, h⟩ := Pool.holds_run (window_execOk hms) (window_extOk hms) hstart halone hrun
  have hbound := h.bound k
  have hnonneg : 0 ≤ (gs.map (CallState.promised k)).sum := by
    refine List.sum_nonneg fun n hn => ?_
    obtain ⟨y, hy, rfl⟩ := List.mem_map.mp hn
    have hok := h.calls y hy
    cases y with
    | within k' cost =>
      change 0 ≤ if k' = k then cost else 0
      split
      · exact hok.2
      · exact le_rfl
    | _ => exact le_rfl
  omega

end Steps

/-! Runs. -/

namespace SafetyLimit

/-- Ten a second. -/
def rule : Request := ⟨"v1", "orders", "", "key", "free", "", 10, 1, second, .fixedWindow, 0, false, 0⟩

def steps (t n : ℕ) : List WindowAct := List.replicate n (.run t ())

end SafetyLimit

open SafetyLimit in
/-- A call reads the clock just before a window ends, and acts after another call has used up the
next window: it rolls the counter back, and the next call rolls it on to zero once more. -/
theorem stale_reading_doubles_limit : ∃ p,
    runAll (Pool.step (windowSem rule)) ⟨.start 1999, []⟩
      ([.env (.call 1)] ++ steps 0 2 ++ [.env (.tick 1), .env (.call 10)] ++ steps 1 9 ++ steps 0 7 ++ [.env (.call 10)] ++
        steps 2 9) = some p ∧
    windowTotal rule 2 p.shared.log = 20 := by
  have heval : (runAll (Pool.step (windowSem rule)) ⟨.start 1999, []⟩
      ([.env (.call 1)] ++ steps 0 2 ++ [.env (.tick 1), .env (.call 10)] ++ steps 1 9 ++ steps 0 7 ++ [.env (.call 10)] ++
        steps 2 9)).map (fun p => windowTotal rule 2 p.shared.log) = some 20 := by decide +kernel
  obtain ⟨p, hrun, hp⟩ := Option.map_eq_some_iff.mp heval
  exact ⟨p, hrun, hp⟩

open SafetyLimit in
/-- Two calls at once that want six each, after a first one has rolled the window. -/
theorem local_limit_holds_two_calls : ∃ p,
    runAll (Pool.step (windowSem rule)) ⟨.start 2000, []⟩
      ([.env (.call 1)] ++ steps 0 9 ++ [.env (.call 6), .env (.call 6)] ++ steps 1 3 ++ steps 2 5 ++ steps 1 4 ++ steps 2 2)
        = some p ∧
    windowTotal rule 2 p.shared.log = 7 ∧ windowTotal rule 2 p.shared.log ≤ 10 := by
  have heval : (runAll (Pool.step (windowSem rule)) ⟨.start 2000, []⟩
      ([.env (.call 1)] ++ steps 0 9 ++ [.env (.call 6), .env (.call 6)] ++ steps 1 3 ++ steps 2 5 ++ steps 1 4 ++
        steps 2 2)).map (fun p => windowTotal rule 2 p.shared.log) = some 7 := by decide +kernel
  obtain ⟨p, hrun, hp⟩ := Option.map_eq_some_iff.mp heval
  exact ⟨p, hrun, hp, local_limit_holds rule (by decide) (by decide) 2000 _ p (by decide +kernel) hrun 2⟩

end Gate
