import Gate.Lib.Accounts
import Gate.Spec.Concurrency

/-! A counter is the number of calls that have added to it and not yet taken back, so a call that reads
a value within the cap finds fewer than that many admitted before it. A sweep may forget a counter while
calls still hold its address; a key then has one more counter, and each of them keeps to the cap. -/

namespace Gate

open Conc Accounts

/-- Where a thread is: the counter that it has the address of, and whether it counts there. -/
inductive SlotState where
  | idle
  | found (key : String) (n : SlotPtr)
  /-- `ok`: what it read was within the cap -/
  | inside (key : String) (n : SlotPtr) (ok : Bool)
  | serving (key : String) (n : SlotPtr)
  deriving DecidableEq

namespace SlotState

/-- What it has in counter `n`. -/
def weight (n : SlotPtr) : SlotState → ℤ
  | .inside _ m _ | .serving _ m => if m = n then 1 else 0
  | _ => 0

/-- Does it have a slot of counter `n`? -/
def slots (n : SlotPtr) : SlotState → ℤ
  | .inside _ m ok => if m = n ∧ ok then 1 else 0
  | .serving _ m => if m = n then 1 else 0
  | _ => 0

def serves (key : String) : SlotState → ℤ
  | .serving k _ => if k = key then 1 else 0
  | _ => 0

/-- The counter it knows, with the key it knows it for. -/
def place : SlotState → Option (String × SlotPtr)
  | .idle => none
  | .found key n | .inside key n _ | .serving key n => some (key, n)

theorem slots_nonneg (n : SlotPtr) (g : SlotState) : 0 ≤ g.slots n := by
  cases g with
  | idle | found => exact le_rfl
  | inside key m ok => unfold slots; split <;> omega
  | serving key m => unfold slots; split <;> omega

theorem serves_nonneg (key : String) (g : SlotState) : 0 ≤ g.serves key := by
  cases g with
  | idle | found | inside => exact le_rfl
  | serving k n => unfold serves; split <;> omega

theorem slots_le_weight (n : SlotPtr) (g : SlotState) : g.slots n ≤ g.weight n := by
  cases g with
  | idle | found | serving => exact le_rfl
  | inside key m ok =>
    change (if m = n ∧ ok then (1 : ℤ) else 0) ≤ if m = n then 1 else 0
    split_ifs with h₁ h₂
    · exact le_rfl
    · exact absurd h₁.1 h₂
    · exact zero_le_one
    · exact le_rfl

theorem place_of_weight {n : SlotPtr} (g : SlotState) (h : g.weight n ≠ 0) : ∃ key, g.place = some (key, n) := by
  cases g with
  | idle | found => exact absurd rfl h
  | inside key m _ | serving key m =>
    have hm : m = n := by
      by_contra hne
      exact h (if_neg hne)
    exact ⟨key, hm ▸ rfl⟩

end SlotState

/-! ### The programs -/

def slotNeeds : SlotInstr → SlotState → Prop
  | .load _, g | .loadOrStore _, g | .value _, g | .next, g | .delete _, g => g = .idle
  | .add n d, g => (d = 1 ∧ ∃ key, g = .found key n) ∨ (d = -1 ∧ ∃ key ok, g = .inside key n ok)
  | .limits, g => ∃ key n, g = .inside key n true
  | .serve key, g => ∃ n, g = .inside key n true
  | .served key, g => ∃ n, g = .serving key n

/-- How a thread goes on. -/
def slotGoes (cap : String → ℕ) : (i : SlotInstr) → SlotState → i.Answer → SlotState → Prop
  | .load key, _, r, g' => g' = match r with
    | some n => .found key n
    | none => .idle
  | .loadOrStore key, _, n, g' => g' = .found key n
  | .add _ _, .found key n, v, g' => g' = .inside key n (decide ((show ℤ from v) ≤ cap key))
  | .add _ _, _, _, g' => g' = .idle
  | .serve key, .inside _ n _, _, g' => g' = .serving key n
  | .served key, .serving _ n, _, g' => g' = .inside key n true
  | _, g, _, g' => g' = g

def slotLogic (cap : String → ℕ) : Logic SlotInstr.Answer SlotState := ⟨slotNeeds, slotGoes cap⟩

namespace Concurrency

variable {cap : String → ℕ}

theorem wp_add {n : SlotPtr} {d : ℤ} {Q : ℤ → SlotState → Prop} {g : SlotState} : (slotLogic cap).wp (Concurrency.add n d) Q g ↔
    slotNeeds (.add n d) g ∧ ∀ (v : ℤ) g', slotGoes cap (.add n d) g v g' → Q v g' := Iff.rfl

theorem wp_value {n : SlotPtr} {Q : ℤ → SlotState → Prop} {g : SlotState} : (slotLogic cap).wp (Concurrency.value n) Q g ↔
    slotNeeds (.value n) g ∧ ∀ (v : ℤ) g', slotGoes cap (.value n) g v g' → Q v g' := Iff.rfl

theorem wp_limits {Q : Bool → SlotState → Prop} {g : SlotState} : (slotLogic cap).wp Concurrency.limits Q g ↔
    slotNeeds .limits g ∧ ∀ (b : Bool) g', slotGoes cap .limits g b g' → Q b g' := Iff.rfl

theorem wp_next {Q : Option (String × SlotPtr) → SlotState → Prop} {g : SlotState} : (slotLogic cap).wp Concurrency.next Q g ↔
    slotNeeds .next g ∧ ∀ (r : Option (String × SlotPtr)) g', slotGoes cap .next g r g' → Q r g' := Iff.rfl

theorem wp_get (key : String) {Q : SlotPtr → SlotState → Prop} (hQ : ∀ n, Q n (.found key n)) :
    (slotLogic cap).wp (Concurrency.get key) Q .idle := by
  unfold Concurrency.get
  rw [Logic.wp_bind]
  refine ⟨rfl, fun r g' hg => ?_⟩
  cases r with
  | some n =>
    obtain rfl : g' = .found key n := hg
    exact hQ n
  | none =>
    obtain rfl : g' = .idle := hg
    refine ⟨rfl, fun n g' hg => ?_⟩
    obtain rfl : g' = .found key n := hg
    exact hQ n

theorem wp_release {key : String} {n : SlotPtr} {ok : Bool} {Q : ℤ → SlotState → Prop} (hQ : ∀ v, Q v .idle) :
    (slotLogic cap).wp (Concurrency.add n (-1)) Q (.inside key n ok) := by
  refine ⟨.inr ⟨rfl, key, ok, rfl⟩, fun v g' hg => ?_⟩
  obtain rfl : g' = .idle := hg
  exact hQ v

theorem wp_acquire {key : String} {limit : ℤ} (hlimit : limit ≤ cap key) {Q : Option SlotPtr → SlotState → Prop}
    (hnone : Q none .idle) (hsome : ∀ n, Q (some n) (.inside key n true)) :
    (slotLogic cap).wp (Concurrency.acquire key limit) Q .idle := by
  unfold Concurrency.acquire
  rw [Logic.wp_bind]
  apply wp_get
  intro n
  rw [Logic.wp_bind, wp_add]
  refine ⟨.inl ⟨rfl, key, rfl⟩, fun v g' hg => ?_⟩
  obtain rfl : g' = .inside key n (decide (v ≤ cap key)) := hg
  rw [Logic.wp_ite]
  split_ifs with hv
  · rw [Logic.wp_bind]
    apply wp_release
    intro _
    exact hnone
  · have hok : v ≤ cap key := (not_lt.mp hv).trans hlimit
    rw [decide_eq_true hok]
    exact hsome n

theorem wp_proceed {key : String} {n : SlotPtr} {Q : Unit → SlotState → Prop} (hQ : Q () (.inside key n true)) :
    (slotLogic cap).wp (Concurrency.proceed key) Q (.inside key n true) := by
  unfold Concurrency.proceed
  rw [Logic.wp_bind, wp_limits]
  refine ⟨⟨key, n, rfl⟩, fun b g' hg => ?_⟩
  obtain rfl : g' = .inside key n true := hg
  rw [Logic.wp_ite]
  split_ifs
  · rw [Logic.wp_bind]
    refine ⟨⟨n, rfl⟩, fun _ g' hg => ?_⟩
    obtain rfl : g' = .serving key n := hg
    refine ⟨⟨n, rfl⟩, fun _ g' hg => ?_⟩
    obtain rfl : g' = .inside key n true := hg
    exact hQ
  · exact hQ

theorem wp_rateLimit {key : String} {limit : ℤ} (hpos : 0 < limit) (hlimit : limit ≤ cap key) :
    (slotLogic cap).wp (Concurrency.rateLimit key limit) (fun _ g => g = .idle) .idle := by
  unfold Concurrency.rateLimit
  rw [if_pos hpos, Logic.wp_bind]
  apply wp_acquire hlimit
  · rfl
  · intro n
    dsimp only
    rw [Logic.wp_bind]
    apply wp_proceed
    rw [Logic.wp_bind]
    apply wp_release
    intro _
    rfl

theorem wp_sweep (visits : ℕ) : (slotLogic cap).wp (Concurrency.sweep visits) (fun _ g => g = .idle) .idle := by
  induction visits with
  | zero => rfl
  | succ visits ih =>
    unfold Concurrency.sweep
    rw [Logic.wp_bind, wp_next]
    refine ⟨rfl, fun r g' hg => ?_⟩
    obtain rfl : g' = .idle := hg
    match r with
    | none => rfl
    | some (key, n) =>
      dsimp only
      rw [Logic.wp_bind, wp_value]
      refine ⟨rfl, fun v g' hg => ?_⟩
      obtain rfl : g' = .idle := hg
      rw [Logic.wp_ite]
      split_ifs
      · rw [Logic.wp_bind]
        refine ⟨rfl, fun _ g' hg => ?_⟩
        obtain rfl : g' = .idle := hg
        exact ih
      · exact ih

end Concurrency

/-! ### What a step keeps -/

def SlotWorld.Has (w : SlotWorld) (key : String) (n : SlotPtr) : Prop := ∃ c, w.counters[n]? = some c ∧ c.key = key

structure SlotBooks (cap : String → ℕ) (w : SlotWorld) (gs : List SlotState) : Prop where
  places : ∀ g ∈ gs, ∀ key n, g.place = some (key, n) → w.Has key n
  table : ∀ key n, w.table key = some n → w.Has key n
  value : ∀ n c, w.counters[n]? = some c → c.value = (gs.map (SlotState.weight n)).sum
  slots : ∀ n c, w.counters[n]? = some c → (gs.map (SlotState.slots n)).sum ≤ cap c.key
  serving : ∀ key, (w.serving key : ℤ) = (gs.map (SlotState.serves key)).sum
  made : ∀ key, w.count key = w.evicted key + if (w.table key).isSome then 1 else 0

namespace SlotBooks

variable {cap : String → ℕ} {w : SlotWorld} {gs : List SlotState} {g g' : SlotState} {t : ℕ} {key : String} {n : SlotPtr}

theorem forall_mem_set {P : SlotState → Prop} (h : ∀ y ∈ gs, P y) (hx : P g') : ∀ y ∈ gs.set t g', P y := by
  intro y hy
  rcases List.mem_or_eq_of_mem_set hy with hy | rfl
  · exact h y hy
  · exact hx

theorem sum_set_same {f : SlotState → ℤ} (ht : gs[t]? = some g) (h : f g' = f g) :
    ((gs.set t g').map f).sum = (gs.map f).sum := by
  rw [sum_map_set _ ht, h, sub_self, add_zero]

/-- A thread goes on; its counts stay. -/
theorem pass (h : SlotBooks cap w gs) (ht : gs[t]? = some g) (hplace : ∀ key n, g'.place = some (key, n) → w.Has key n)
    (hw : ∀ n, g'.weight n = g.weight n) (hs : ∀ n, g'.slots n = g.slots n) (hv : ∀ key, g'.serves key = g.serves key) :
    SlotBooks cap w (gs.set t g') where
  places := forall_mem_set h.places hplace
  table := h.table
  value n c hc := by rw [sum_set_same ht (hw n)]; exact h.value n c hc
  slots n c hc := by rw [sum_set_same ht (hs n)]; exact h.slots n c hc
  serving key := by rw [sum_set_same ht (hv key)]; exact h.serving key
  made := h.made

theorem stay (h : SlotBooks cap w gs) (ht : gs[t]? = some g) : SlotBooks cap w (gs.set t g) :=
  h.pass ht (h.places g (List.mem_of_getElem? ht)) (fun _ => rfl) (fun _ => rfl) fun _ => rfl

/-- A thread that had no counter has found one. -/
theorem find (h : SlotBooks cap w gs) (ht : gs[t]? = some .idle) (hn : w.Has key n) :
    SlotBooks cap w (gs.set t (.found key n)) := by
  apply h.pass ht
  · intro k m hk
    obtain ⟨rfl, rfl⟩ : key = k ∧ n = m := by simpa [SlotState.place] using hk
    exact hn
  · exact fun _ => rfl
  · exact fun _ => rfl
  · exact fun _ => rfl

theorem has_append (hn : w.Has key n) (c : SlotCounter) : ∃ c', (w.counters ++ [c])[n]? = some c' ∧ c'.key = key := by
  obtain ⟨c', hc, hk⟩ := hn
  exact ⟨c', List.getElem?_append_left (List.getElem?_eq_some_iff.mp hc).1 ▸ hc, hk⟩

/-- A new counter, which nobody knows yet. -/
theorem store (h : SlotBooks cap w gs) (hnone : w.table key = none) : SlotBooks cap (w.stored key) gs := by
  have hold : ∀ g ∈ gs, ∀ k m, g.place = some (k, m) → m < w.counters.length := by
    intro g hg k m hp
    obtain ⟨c, hc, -⟩ := h.places g hg k m hp
    exact (List.getElem?_eq_some_iff.mp hc).1
  have hweight : (gs.map (SlotState.weight w.counters.length)).sum = 0 := by
    apply List.sum_eq_zero
    intro x hx
    obtain ⟨g, hg, rfl⟩ := List.mem_map.mp hx
    by_contra hne
    obtain ⟨k, hk⟩ := g.place_of_weight hne
    exact lt_irrefl _ (hold g hg k _ hk)
  have hcase : ∀ n c, (w.stored key).counters[n]? = some c → w.counters[n]? = some c ∨ (n = w.counters.length ∧ c = ⟨key, 0⟩) :=
    fun n c hc => getElem?_concat_cases hc
  refine ⟨fun g hg k m hp => has_append (h.places g hg k m hp) _, ?_, ?_, ?_, h.serving, ?_⟩
  · intro k m hm
    by_cases hk : k = key
    · subst hk
      have hm : Function.update w.table k (some w.counters.length) k = some m := hm
      rw [Function.update_self, Option.some.injEq] at hm
      subst hm
      exact ⟨⟨k, 0⟩, List.getElem?_concat_length .., rfl⟩
    · have hm : Function.update w.table key (some w.counters.length) k = some m := hm
      rw [Function.update_of_ne hk] at hm
      exact has_append (h.table k m hm) _
  · intro n c hc
    rcases hcase n c hc with hc | ⟨rfl, rfl⟩
    · exact h.value n c hc
    · exact hweight.symm
  · intro n c hc
    rcases hcase n c hc with hc | ⟨rfl, rfl⟩
    · exact h.slots n c hc
    · refine le_trans (le_of_le_of_eq (List.sum_le_sum fun g _ => g.slots_le_weight _) hweight) ?_
      exact Int.natCast_nonneg _
  · intro k
    have hcount : (w.stored key).count k = w.count k + if key = k then 1 else 0 := by
      unfold SlotWorld.count SlotWorld.stored
      rw [List.countP_append, List.countP_singleton]
      simp only [decide_eq_true_eq]
    rw [hcount, h.made k]
    by_cases hk : k = key
    · subst hk
      simp [SlotWorld.stored, hnone]
    · simp [SlotWorld.stored, hk, Ne.symm hk]

theorem added_getElem? {c : SlotCounter} {d : ℤ} {m : SlotPtr} {c' : SlotCounter}
    (h : (w.added n c d).counters[m]? = some c') :
    (m = n ∧ c' = { c with value := c.value + d }) ∨ (m ≠ n ∧ w.counters[m]? = some c') :=
  getElem?_set_cases h

theorem has_added {c : SlotCounter} (hc : w.counters[n]? = some c) (d : ℤ) {m : SlotPtr} (h : w.Has key m) :
    (w.added n c d).Has key m := by
  obtain ⟨c', hc', hk⟩ := h
  by_cases hm : m = n
  · subst hm
    obtain rfl : c' = c := Option.some.inj (hc'.symm.trans hc)
    exact ⟨_, List.getElem?_set_self (List.getElem?_eq_some_iff.mp hc).1, hk⟩
  · exact ⟨c', (List.getElem?_set_ne (Ne.symm hm)).trans hc', hk⟩

theorem count_added {c : SlotCounter} (hc : w.counters[n]? = some c) (d : ℤ) (k : String) : (w.added n c d).count k = w.count k := by
  have hkeys : (w.added n c d).counters.map SlotCounter.key = w.counters.map SlotCounter.key := map_set_self hc rfl
  have hcount : ∀ l : List SlotCounter, l.countP (fun c => c.key = k) = (l.map SlotCounter.key).countP (· = k) := by
    intro l
    rw [List.countP_map]
    rfl
  unfold SlotWorld.count
  rw [hcount, hcount, hkeys]

/-- A thread adds to a counter what it then counts there. -/
theorem charge (h : SlotBooks cap w gs) {c : SlotCounter} {d : ℤ} (hc : w.counters[n]? = some c) (ht : gs[t]? = some g)
    (hplace : ∀ k m, g'.place = some (k, m) → w.Has k m)
    (hw : ∀ m, g'.weight m = g.weight m + if m = n then d else 0)
    (hs : ∀ m, m ≠ n → g'.slots m = g.slots m) (hself : ((gs.set t g').map (SlotState.slots n)).sum ≤ cap c.key)
    (hv : ∀ k, g'.serves k = g.serves k) : SlotBooks cap (w.added n c d) (gs.set t g') := by
  refine ⟨forall_mem_set (fun y hy k m hp => has_added hc d (h.places y hy k m hp)) fun k m hp => has_added hc d (hplace k m hp),
    fun k m hm => has_added hc d (h.table k m hm), fun m c' hm => ?_, fun m c' hm => ?_, fun k => ?_, fun k => ?_⟩
  · rcases added_getElem? hm with ⟨rfl, rfl⟩ | ⟨hne, hm⟩
    · have := h.value m c hc
      rw [sum_map_set _ ht, hw m, if_pos rfl, ← this]
      change c.value + d = _
      ring
    · rw [sum_set_same ht (by rw [hw m, if_neg hne, add_zero])]
      exact h.value m c' hm
  · rcases added_getElem? hm with ⟨rfl, rfl⟩ | ⟨hne, hm⟩
    · exact hself
    · rw [sum_set_same ht (hs m hne)]
      exact h.slots m c' hm
  · rw [sum_set_same ht (hv k)]
    exact h.serving k
  · rw [count_added hc]
    exact h.made k

/-- A thread adds one to the counter it found. The others in it with a slot are at most the old value. -/
theorem enter (h : SlotBooks cap w gs) {c : SlotCounter} (hc : w.counters[n]? = some c) (ht : gs[t]? = some (.found key n)) :
    SlotBooks cap (w.added n c 1) (gs.set t (.inside key n (decide (c.value + 1 ≤ cap key)))) := by
  have hkey : c.key = key := by
    obtain ⟨c', hc', hk⟩ := h.places _ (List.mem_of_getElem? ht) key n rfl
    rw [← Option.some.inj (hc'.symm.trans hc)]
    exact hk
  have hle : (gs.map (SlotState.slots n)).sum ≤ c.value := by
    rw [h.value n c hc]
    exact List.sum_le_sum fun g _ => g.slots_le_weight n
  apply h.charge hc ht
  · intro k m hp
    exact h.places _ (List.mem_of_getElem? ht) k m hp
  · intro m
    simp only [SlotState.weight, zero_add, eq_comm]
  · intro m hm
    exact if_neg fun hh => hm hh.1.symm
  · rw [sum_map_set _ ht, hkey]
    simp only [SlotState.slots, true_and, decide_eq_true_eq, sub_zero]
    split_ifs with hv
    · omega
    · rw [add_zero, ← hkey]
      exact h.slots n c hc
  · exact fun _ => rfl

/-- A thread takes its one back. -/
theorem leave {ok : Bool} (h : SlotBooks cap w gs) {c : SlotCounter} (hc : w.counters[n]? = some c)
    (ht : gs[t]? = some (.inside key n ok)) : SlotBooks cap (w.added n c (-1)) (gs.set t .idle) := by
  apply h.charge hc ht
  · intro k m hp
    cases hp
  · intro m
    simp only [SlotState.weight, eq_comm (a := n)]
    split_ifs
    · rfl
    · rfl
  · intro m hm
    exact (if_neg fun hh => hm hh.1.symm).symm
  · rw [sum_map_set _ ht]
    have h0 := (SlotState.inside key n ok).slots_nonneg n
    have hle := h.slots n c hc
    change _ + (0 - _) ≤ _
    omega
  · exact fun _ => rfl

/-- A thread that is in the counter in the same way as before begins, or ends, to serve a request. -/
theorem handler (h : SlotBooks cap w gs) {v : ℕ} {d : ℤ} (ht : gs[t]? = some g) (hp : g'.place = g.place)
    (hw : ∀ m, g'.weight m = g.weight m) (hs : ∀ m, g'.slots m = g.slots m)
    (hd : ∀ k, g'.serves k = g.serves k + if key = k then d else 0) (hv : (v : ℤ) = w.serving key + d) :
    SlotBooks cap { w with serving := Function.update w.serving key v } (gs.set t g') := by
  refine ⟨forall_mem_set h.places ?_, h.table, fun m c hc => ?_, fun m c hc => ?_, fun k => ?_, h.made⟩
  · rw [hp]
    exact h.places g (List.mem_of_getElem? ht)
  · rw [sum_set_same ht (hw m)]
    exact h.value m c hc
  · rw [sum_set_same ht (hs m)]
    exact h.slots m c hc
  · rw [sum_map_set _ ht, hd k, ← h.serving k]
    change ((Function.update w.serving key v k : ℕ) : ℤ) = _
    by_cases hk : key = k
    · subst hk
      rw [Function.update_self, hv, if_pos rfl]
      ring
    · rw [Function.update_of_ne (Ne.symm hk), if_neg hk]
      ring

theorem slots_inside (key : String) (n m : SlotPtr) : (SlotState.inside key n true).slots m = (SlotState.serving key n).slots m := by
  simp [SlotState.slots]

theorem serve (h : SlotBooks cap w gs) (ht : gs[t]? = some (.inside key n true)) :
    SlotBooks cap { w with serving := Function.update w.serving key (w.serving key + 1) } (gs.set t (.serving key n)) := by
  apply h.handler ht
  · rfl
  · exact fun _ => rfl
  · exact fun m => (slots_inside key n m).symm
  · intro k
    exact (zero_add _).symm
  · push_cast
    rfl

theorem served (h : SlotBooks cap w gs) (ht : gs[t]? = some (.serving key n)) :
    SlotBooks cap { w with serving := Function.update w.serving key (w.serving key - 1) } (gs.set t (.inside key n true)) := by
  have hone : (SlotState.serving key n).serves key ≤ w.serving key := by
    rw [h.serving key]
    apply List.single_le_sum _ _ (List.mem_map_of_mem (List.mem_of_getElem? ht))
    intro x hx
    obtain ⟨g, -, rfl⟩ := List.mem_map.mp hx
    exact g.serves_nonneg key
  have hself : (SlotState.serving key n).serves key = 1 := if_pos rfl
  apply h.handler (d := -1) ht
  · rfl
  · exact fun _ => rfl
  · exact slots_inside key n
  · intro k
    change (0 : ℤ) = (if key = k then 1 else 0) + if key = k then -1 else 0
    split_ifs
    · rfl
    · rfl
  · omega

theorem evicted_deleted (w : SlotWorld) (key k : String) :
    (w.deleted key).evicted k = w.evicted k + if k = key ∧ (w.table key).isSome then 1 else 0 := by
  unfold SlotWorld.deleted
  dsimp only
  by_cases hs : (w.table key).isSome
  · rw [if_pos hs]
    by_cases hk : k = key
    · subst hk
      rw [Function.update_self, if_pos ⟨rfl, hs⟩]
    · rw [Function.update_of_ne hk, if_neg fun hh => hk hh.1, add_zero]
  · rw [if_neg hs, if_neg fun hh => hs hh.2, add_zero]

theorem delete (h : SlotBooks cap w gs) (key : String) : SlotBooks cap (w.deleted key) gs := by
  refine ⟨h.places, fun k m hm => ?_, h.value, h.slots, h.serving, fun k => ?_⟩
  · have hm : Function.update w.table key none k = some m := hm
    by_cases hk : k = key
    · subst hk
      rw [Function.update_self] at hm
      cases hm
    · rw [Function.update_of_ne hk] at hm
      exact h.table k m hm
  · have hcount : (w.deleted key).count k = w.count k := rfl
    have htable : (w.deleted key).table k = Function.update w.table key none k := rfl
    rw [hcount, htable, evicted_deleted, h.made k]
    by_cases hk : k = key
    · subst hk
      simp
    · simp [hk]

/-! ### How many are served -/

/-- A thread that serves a request has a slot of one of the key's counters. -/
theorem serves_le (hp : ∀ key n, g.place = some (key, n) → w.Has key n) (key : String) :
    g.serves key ≤ (w.counters.zipIdx.map fun x => if x.1.key = key then g.slots x.2 else 0).sum := by
  have hnonneg : ∀ x ∈ w.counters.zipIdx.map fun x => if x.1.key = key then g.slots x.2 else 0, (0 : ℤ) ≤ x := by
    intro x hx
    obtain ⟨y, -, rfl⟩ := List.mem_map.mp hx
    split_ifs
    · exact g.slots_nonneg _
    · exact le_rfl
  cases g with
  | idle | found | inside => exact List.sum_nonneg hnonneg
  | serving k n =>
    by_cases hk : k = key
    · subst hk
      obtain ⟨c, hc, hck⟩ := hp k n rfl
      have hmem : (c, n) ∈ w.counters.zipIdx := List.mem_zipIdx_iff_getElem?.mpr hc
      have hone := List.single_le_sum hnonneg _ (List.mem_map_of_mem hmem)
      simpa [SlotState.serves, SlotState.slots, hck] using hone
    · have hzero : SlotState.serves key (.serving k n) = 0 := if_neg hk
      rw [hzero]
      exact List.sum_nonneg hnonneg

/-- All that are served have a slot of one of the key's counters. -/
theorem sum_serves_le (hp : ∀ g ∈ gs, ∀ key n, g.place = some (key, n) → w.Has key n) (key : String) :
    (gs.map (SlotState.serves key)).sum ≤
      (w.counters.zipIdx.map fun x => if x.1.key = key then (gs.map (SlotState.slots x.2)).sum else 0).sum := by
  induction gs with
  | nil => simp
  | cons g gs ih =>
    have hrest := ih fun y hy => hp y (List.mem_cons_of_mem _ hy)
    have hfirst := serves_le (hp g List.mem_cons_self) key
    have hsplit : (w.counters.zipIdx.map fun x => if x.1.key = key then ((g :: gs).map (SlotState.slots x.2)).sum else 0).sum =
        (w.counters.zipIdx.map fun x => if x.1.key = key then g.slots x.2 else 0).sum +
          (w.counters.zipIdx.map fun x => if x.1.key = key then (gs.map (SlotState.slots x.2)).sum else 0).sum := by
      rw [← List.sum_map_add]
      congr 1
      apply List.map_congr_left
      intro x _
      simp only [List.map_cons, List.sum_cons]
      split_ifs
      · rfl
      · rfl
    rw [hsplit, List.map_cons, List.sum_cons]
    exact add_le_add hfirst hrest

theorem sum_caps (l : List SlotCounter) (key : String) (v : ℤ) :
    (l.map fun c => if c.key = key then v else 0).sum = l.countP (fun c => c.key = key) * v := by
  induction l with
  | nil => simp
  | cons c l ih =>
    rw [List.map_cons, List.sum_cons, ih, List.countP_cons]
    by_cases hk : c.key = key
    · simp [hk]
      ring
    · simp [hk]

/-- A key's requests are within the cap for each of its counters. -/
theorem bounded (h : SlotBooks cap w gs) (key : String) : (w.serving key : ℤ) ≤ (w.evicted key + 1) * cap key := by
  calc (w.serving key : ℤ) = (gs.map (SlotState.serves key)).sum := h.serving key
    _ ≤ (w.counters.zipIdx.map fun x => if x.1.key = key then (gs.map (SlotState.slots x.2)).sum else 0).sum :=
      sum_serves_le h.places key
    _ ≤ (w.counters.zipIdx.map fun x => if x.1.key = key then (cap key : ℤ) else 0).sum := by
      apply List.sum_le_sum
      rintro ⟨c, n⟩ hx
      dsimp only
      split_ifs with hk
      · rw [← hk]
        exact h.slots n c (List.mem_zipIdx_iff_getElem?.mp hx)
      · exact le_rfl
    _ = (w.counters.map fun c => if c.key = key then (cap key : ℤ) else 0).sum := by
      conv_rhs => rw [← List.zipIdx_map_fst 0 w.counters, List.map_map]
      rfl
    _ = w.count key * cap key := sum_caps _ _ _
    _ ≤ (w.evicted key + 1) * cap key := by
      apply mul_le_mul_of_nonneg_right _ (Int.natCast_nonneg _)
      have := h.made key
      split at this
      · omega
      · omega

/-- With every thread idle, every counter is at zero. -/
theorem rests (h : SlotBooks cap w gs) (hidle : ∀ g ∈ gs, g = .idle) : ∀ c ∈ w.counters, c.value = 0 := by
  intro c hc
  obtain ⟨n, hn⟩ := List.mem_iff_getElem?.mp hc
  rw [h.value n c hn]
  apply List.sum_eq_zero
  intro x hx
  obtain ⟨g, hg, rfl⟩ := List.mem_map.mp hx
  rw [hidle g hg]
  rfl

end SlotBooks

/-! ### Runs -/

section Runs

variable {cap : String → ℕ}

theorem slot_exec : Pool.ExecOkTo slotSem (capped cap) (slotLogic cap) (· = .idle) (SlotBooks cap) := by
  intro i c w gs t g r w' new ht h _ hpre hex
  obtain ⟨⟨r', w''⟩, hex', hout⟩ := Option.map_eq_some_iff.mp hex
  obtain ⟨rfl, rfl, rfl⟩ : r' = r ∧ w'' = w' ∧ [] = new := by simpa using hout
  suffices hs : ∃ g', slotGoes cap i g r' g' ∧ SlotBooks cap w'' (gs.set t g') by
    obtain ⟨g', hgoes, hbooks⟩ := hs
    exact ⟨g', [], hgoes, .nil, by rwa [List.append_nil]⟩
  cases i with
  | load key =>
    obtain ⟨rfl, rfl⟩ : w.table key = r' ∧ w = w'' := by simpa [SlotWorld.exec] using hex'
    obtain rfl : g = .idle := hpre
    cases hn : w.table key with
    | none => exact ⟨.idle, rfl, h.stay ht⟩
    | some n => exact ⟨.found key n, rfl, h.find ht (h.table key n hn)⟩
  | loadOrStore key =>
    obtain rfl : g = .idle := hpre
    cases hn : w.table key with
    | some n =>
      obtain ⟨rfl, rfl⟩ : n = r' ∧ w = w'' := by simpa [SlotWorld.exec, hn] using hex'
      exact ⟨.found key n, rfl, h.find ht (h.table key n hn)⟩
    | none =>
      obtain ⟨rfl, rfl⟩ : w.counters.length = r' ∧ w.stored key = w'' := by simpa [SlotWorld.exec, hn] using hex'
      exact ⟨.found key _, rfl, (h.store hn).find ht ⟨⟨key, 0⟩, List.getElem?_concat_length .., rfl⟩⟩
  | add n d =>
    cases hc : w.counters[n]? with
    | none => simp [SlotWorld.exec, hc] at hex'
    | some cnt =>
      obtain ⟨rfl, rfl⟩ : cnt.value + d = r' ∧ w.added n cnt d = w'' := by simpa [SlotWorld.exec, hc] using hex'
      rcases hpre with ⟨rfl, key, rfl⟩ | ⟨rfl, key, ok, rfl⟩
      · exact ⟨_, rfl, h.enter hc ht⟩
      · exact ⟨.idle, rfl, h.leave hc ht⟩
  | value n =>
    obtain ⟨cnt, -, hout⟩ := Option.map_eq_some_iff.mp hex'
    obtain ⟨-, rfl⟩ := Prod.mk.inj hout
    exact ⟨g, rfl, h.stay ht⟩
  | limits =>
    obtain ⟨-, rfl⟩ : c.admitted = r' ∧ w = w'' := by simpa [SlotWorld.exec] using hex'
    exact ⟨g, rfl, h.stay ht⟩
  | serve key =>
    obtain ⟨n, rfl⟩ := hpre
    obtain rfl : _ = w'' := by simpa [SlotWorld.exec] using hex'
    exact ⟨.serving key n, rfl, h.serve ht⟩
  | served key =>
    obtain ⟨n, rfl⟩ := hpre
    obtain rfl : _ = w'' := by simpa [SlotWorld.exec] using hex'
    exact ⟨.inside key n true, rfl, h.served ht⟩
  | next =>
    obtain rfl : w = w'' := by
      cases hs : c.shown with
      | none => simpa [SlotWorld.exec, hs] using (Prod.mk.inj (Option.some.inj (by simpa [SlotWorld.exec, hs] using hex'))).2
      | some key =>
        have : (w.table key).map (fun n => (some (key, n), w)) = some (r', w'') := by simpa [SlotWorld.exec, hs] using hex'
        obtain ⟨n, -, hout⟩ := Option.map_eq_some_iff.mp this
        exact (Prod.mk.inj hout).2
    exact ⟨g, rfl, h.stay ht⟩
  | delete key =>
    obtain rfl : w.deleted key = w'' := by simpa [SlotWorld.exec] using hex'
    exact ⟨g, rfl, (h.delete key).stay ht⟩

theorem SlotBooks.append_idle {w : SlotWorld} {gs : List SlotState} (h : SlotBooks cap w gs) : SlotBooks cap w (gs ++ [.idle]) := by
  have hsum : ∀ f : SlotState → ℤ, f .idle = 0 → ((gs ++ [SlotState.idle]).map f).sum = (gs.map f).sum := by
    intro f hf
    simp [hf]
  refine ⟨fun g hg k n hp => ?_, h.table, fun n c hc => ?_, fun n c hc => ?_, fun k => ?_, h.made⟩
  · rcases List.mem_append.mp hg with hg | hg
    · exact h.places g hg k n hp
    · obtain rfl := List.mem_singleton.mp hg
      cases hp
  · rw [hsum _ rfl]
    exact h.value n c hc
  · rw [hsum _ rfl]
    exact h.slots n c hc
  · rw [hsum _ rfl]
    exact h.serving k

theorem slot_event : Pool.ExtOkTo slotSem (capped cap) (slotLogic cap) (· = .idle) (SlotBooks cap) := by
  intro e w gs w' new h hm hex
  cases e with
  | request key limit =>
    obtain ⟨rfl, rfl⟩ : w = w' ∧ [Concurrency.rateLimit key limit] = new := by simpa [slotSem] using hex
    exact ⟨[.idle], .cons (Concurrency.wp_rateLimit hm.1 hm.2) .nil, h.append_idle⟩
  | sweep visits =>
    obtain ⟨rfl, rfl⟩ : w = w' ∧ [Concurrency.sweep visits] = new := by simpa [slotSem] using hex
    exact ⟨[.idle], .cons (Concurrency.wp_sweep visits) .nil, h.append_idle⟩

theorem SlotBooks.empty : SlotBooks cap .empty [] where
  places g hg := absurd hg List.not_mem_nil
  table key n h := by cases h
  value n c h := by cases h
  slots n c h := by cases h
  serving key := rfl
  made key := rfl

/-- In any interleaving of requests and sweeps, the next handler serves at most `cap key` requests of a
key for each counter that the key has had: the cap itself while its counter was never forgotten. Once
every call has returned, every counter is back at zero, so nothing keeps a slot. -/
theorem in_flight_capped (acts : List (Act SlotChoice SlotEvent)) (p : SlotPool)
    (hcap : Along (Pool.step slotSem) (Pool.Meets (capped cap)) SlotPool.start acts)
    (hrun : runAll (Pool.step slotSem) SlotPool.start acts = some p) :
    (∀ key, (p.shared.serving key : ℤ) ≤ (p.shared.evicted key + 1) * cap key) ∧
      (p.Over → ∀ c ∈ p.shared.counters, c.value = 0) := by
  have hstart : Pool.HoldsTo (slotLogic cap) (· = .idle) (SlotBooks cap) SlotPool.start := ⟨[], .nil, .empty⟩
  obtain ⟨gs, hcov, hbooks⟩ := Pool.holdsTo_runAll slot_exec slot_event hstart hcap hrun
  constructor
  · exact hbooks.bounded
  · intro hover
    exact hbooks.rests (hcov.ended hover)

/-- A request has the address of its key's counter when a sweep forgets it, and a second one makes a
new counter: both are served under a cap of one. -/
def Sample.forgotten : List (Act SlotChoice SlotEvent) :=
  let go (t : ℕ) : Act SlotChoice SlotEvent := .run t ⟨some "k", true⟩
  [.env (.request "k" 1), go 0, go 0, .env (.sweep 1), go 1, go 1, go 1, go 0, go 0, go 0,
    .env (.request "k" 1), go 2, go 2, go 2, go 2, go 2]

theorem in_flight_capped_forgotten : ∃ p : SlotPool, runAll (Pool.step slotSem) SlotPool.start Sample.forgotten = some p ∧
    p.shared.serving "k" = 2 ∧ p.shared.evicted "k" = 1 ∧ (p.shared.serving "k" : ℤ) ≤ (p.shared.evicted "k" + 1) * (1 : ℕ) := by
  have heval : (runAll (Pool.step slotSem) SlotPool.start Sample.forgotten).map
      (fun p : SlotPool => (p.shared.serving "k", p.shared.evicted "k")) = some (2, 1) := by decide +kernel
  obtain ⟨p, hrun, hp⟩ := Option.map_eq_some_iff.mp heval
  obtain ⟨hserving, hevicted⟩ := Prod.mk.inj hp
  have hcap : Along (Pool.step slotSem) (Pool.Meets (capped fun _ => 1)) SlotPool.start Sample.forgotten := by decide +kernel
  exact ⟨p, hrun, hserving, hevicted, (in_flight_capped Sample.forgotten p hcap hrun).1 "k"⟩

end Runs

end Gate
