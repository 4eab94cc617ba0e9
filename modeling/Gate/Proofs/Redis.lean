import Gate.Proofs.Endgame
import Gate.Spec.Redis

/-! The two ledgers are the same machine. Redis forgets keys and `Mem` does not, but a key that has
expired is one that no call reads any more: a window's counter outlives the window after it, an
arrival time lies in the past, an edge's entry no longer counts. `Mirrors` says so key by key, and
every write of a call keeps it. -/

namespace Gate

open Conc (Along)

/-! Commands. -/

theorem Stored.live_iff {α : Type} {s : Stored α} {now e : ℤ} (h : s.exp = some e) : s.live now = true ↔ now < e := by
  unfold Stored.live
  rw [h]
  simp

theorem Stored.filter_live {α : Type} {s : Stored α} {now : ℤ} (h : s.live now = true) :
    (some s).filter (fun s => s.live now) = some s := by
  rw [Option.filter_some, if_pos h]

theorem Stored.filter_gone {α : Type} {s : Stored α} {now : ℤ} (h : ¬ s.live now = true) :
    (some s).filter (fun s => s.live now) = none := by
  rw [Option.filter_some, if_neg h]

namespace Redis

variable {r : Redis} {now : ℤ} {key : String}

@[simp] theorem strs_put_self (r : Redis) (key : String) (s : Stored ℤ) : (r.put key s).strs key = some s :=
  Function.update_self _ _ _

theorem strs_put_of_ne {k : String} (h : k ≠ key) (s : Stored ℤ) : (r.put key s).strs k = r.strs k :=
  Function.update_of_ne h _ _

theorem put_put (s s' : Stored ℤ) : (r.put key s).put key s' = r.put key s' := by
  simp [put, Function.update_idem]

theorem find_put_self {s : Stored ℤ} (h : s.live now = true) : (r.put key s).find now key = some s := by
  simp [find, h]

theorem incrBy_fst (d : ℤ) : (r.incrBy now key d).1 = (r.get now key).getD 0 + d := by
  unfold incrBy get
  cases r.find now key <;> simp

/-- `INCRBY` and `PEXPIRE` together. -/
theorem incrBy_pexpire (d ttl : ℤ) :
    ((r.incrBy now key d).2).pexpire now key ttl = r.put key ⟨(r.get now key).getD 0 + d, some (now + ttl)⟩ := by
  unfold incrBy get
  cases hf : r.find now key with
  | none =>
    unfold pexpire
    rw [find_put_self rfl]
    simp [put_put]
  | some s =>
    have hlive : s.live now = true := (Option.filter_eq_some_iff.mp hf).2
    unfold pexpire
    dsimp only
    have hlive' : (⟨s.val + d, s.exp⟩ : Stored ℤ).live now = true := hlive
    rw [find_put_self hlive']
    simp [put_put]

end Redis

/-! What the two ledgers have in common. -/

/-- A counter: equal in both, and not expired before `stop`. -/
def SameCount (m : Mem) (r : Redis) (text : String) (stop : ℤ) : Prop :=
  match r.strs text with
  | none => m.getInt text 0 = 0
  | some s => s.val = m.getInt text 0 ∧ ∃ e, s.exp = some e ∧ stop ≤ e

/-- The active edges: those that count are the same, and a set expires when none of it counts. -/
structure SameEdges (active now : ℤ) (set : List (String × ℤ)) (z : Option (Stored (List (String × ℤ)))) : Prop where
  names : (set.map Prod.fst).Nodup
  names' : ∀ s ∈ z, (s.val.map Prod.fst).Nodup
  same : ∀ x : String × ℤ, now - active < x.2 → (x ∈ set ↔ ∃ s ∈ z, x ∈ s.val)
  lasts : ∀ s ∈ z, ∃ e, s.exp = some e ∧ ∀ x ∈ s.val, x.2 + active ≤ e
  past : ∀ s ∈ z, ∀ x ∈ s.val, x.2 ≤ now

def Mirror (st : Setting) (now : ℤ) (m : Mem) (r : Redis) : LedgerKey → Prop
  | .arrival base => r.strs base = (m.vals base).map fun v => ⟨v, some (v + 1000)⟩
  | .counter base w => SameCount m r (winKey base w) ((w + 2) * st.win base)
  | .alloc base w => SameCount m r (allocKey base w) ((w + 2) * st.win base)
  | .edges base => SameEdges (st.activeMs base) now (m.edges base) (r.zsets (Redis.edgesKey base))
  | .loan base id => (r.strs (lendKey base id)).map Stored.val = m.vals (lendKey base id)
  | .returned base dedupe => (r.strs (retKey base dedupe)).isSome = m.deduped (retKey base dedupe)
  | .credited base id => (r.strs (creditKey base id)).isSome = m.deduped (creditKey base id)

/-- The keys in `A` agree, and the IDs of the call under way have not expired. -/
structure Mirrors (A S : LedgerKey → Prop) (st : Setting) (now : ℤ) (m : Mem) (r : Redis) : Prop where
  mirror : ∀ x, A x → Mirror st now m r x
  live : ∀ x, A x → S x → x.isID = true → ∀ s ∈ r.strs x.text, s.live now = true

/-- A write to one key. -/
structure Writes (x : LedgerKey) (m m' : Mem) (r r' : Redis) : Prop where
  vals : ∀ k, k ≠ x.text → m'.vals k = m.vals k
  deduped : ∀ k, k ≠ x.text → m'.deduped k = m.deduped k
  edges : ∀ base, x ≠ .edges base → m'.edges base = m.edges base
  strs : ∀ k, k ≠ x.text → r'.strs k = r.strs k
  zsets : ∀ k, k ≠ x.text → r'.zsets k = r.zsets k

variable {A S : LedgerKey → Prop} {st : Setting} {now : ℤ} {m m' : Mem} {r r' : Redis} {x : LedgerKey}

theorem mirrors_new (A : LedgerKey → Prop) (st : Setting) (now : ℤ) : Mirrors A (fun _ => False) st now .new .new := by
  refine ⟨fun x _ => ?_, fun _ _ h => h.elim⟩
  cases x with
  | edges base => exact ⟨List.nodup_nil, nofun, fun x _ => by simp [Mem.new, Redis.new], nofun, nofun⟩
  | _ => rfl

theorem Mirror.of_same (hv : m'.vals x.text = m.vals x.text) (hd : m'.deduped x.text = m.deduped x.text)
    (he : ∀ base, x = .edges base → m'.edges base = m.edges base) (hs : r'.strs x.text = r.strs x.text)
    (hz : r'.zsets x.text = r.zsets x.text) (h : Mirror st now m r x) : Mirror st now m' r' x := by
  cases x with
  | edges base =>
    simp only [LedgerKey.text] at hz
    simp only [Mirror, hz, he base rfl] at h ⊢
    exact h
  | _ =>
    simp only [LedgerKey.text] at hv hd hs
    simp only [Mirror, SameCount, Mem.getInt, hv, hd, hs] at h ⊢
    exact h

/-- The keys that the calls use are written differently. -/
def LedgerKey.Apart (A : LedgerKey → Prop) : Prop := ∀ x y, A x → A y → x.text = y.text → x = y

theorem Mirrors.write (h : Mirrors A S st now m r) (hA : LedgerKey.Apart A) (hx : A x) (hw : Writes x m m' r r')
    (hnew : Mirror st now m' r' x) (hlive : x.isID = true → ∀ s ∈ r'.strs x.text, s.live now = true) :
    Mirrors A S st now m' r' := by
  have hne : ∀ y, A y → y ≠ x → y.text ≠ x.text := fun y hy hyx ht => hyx (hA y x hy hx ht)
  refine ⟨fun y hy => ?_, fun y hy hS hid => ?_⟩
  · by_cases hyx : y = x
    · rw [hyx]
      exact hnew
    · have ht := hne y hy hyx
      refine (h.mirror y hy).of_same (hw.vals _ ht) (hw.deduped _ ht) (fun base hb => ?_) (hw.strs _ ht) (hw.zsets _ ht)
      exact hw.edges base fun hxe => hyx (hb.trans hxe.symm)
  · by_cases hyx : y = x
    · rw [hyx] at hid ⊢
      exact hlive hid
    · rw [hw.strs _ (hne y hy hyx)]
      exact h.live y hy hS hid

/-! Reading. -/

section Read

/-- A counter is there to be read in its window and in the next one. -/
theorem SameCount.get {text : String} {stop : ℤ} (h : SameCount m r text stop) (hnow : now < stop) :
    (r.get now text).getD 0 = m.getInt text 0 := by
  unfold SameCount at h
  unfold Redis.get Redis.find
  cases hs : r.strs text with
  | none =>
    rw [hs] at h
    simpa using h.symm
  | some s =>
    rw [hs] at h
    obtain ⟨hval, e, he, hstop⟩ := h
    have hlive : s.live now = true := (Stored.live_iff he).mpr (hnow.trans_le hstop)
    rw [Stored.filter_live hlive]
    exact hval

/-- An arrival time expires when it has long passed. -/
theorem Mirrors.arrival (h : Mirrors A S st now m r) {base : String} (hx : A (.arrival base)) :
    (if (r.get now base).getD now < now then now else (r.get now base).getD now) = max (m.getInt base now) now := by
  have hm : r.strs base = (m.vals base).map fun v => ⟨v, some (v + 1000)⟩ := h.mirror _ hx
  unfold Redis.get Redis.find Mem.getInt
  rw [hm]
  cases m.vals base with
  | none => simp
  | some v =>
    by_cases hv : now < v + 1000
    · simp only [Option.map_some, Stored.live, Option.filter_some, decide_eq_true hv, if_true, Option.getD_some]
      rcases lt_or_ge v now with hlt | hge
      · rw [if_pos hlt, max_eq_right hlt.le]
      · rw [if_neg (not_lt.mpr hge), max_eq_left hge]
    · simp only [Option.map_some, Stored.live, Option.filter_some, decide_eq_false hv, Bool.false_eq_true, if_false,
        Option.map_none, Option.getD_none, lt_self_iff_false, Option.getD_some]
      omega

end Read

/-! Writing. -/

section Write

variable {base : String} {w : ℤ}

/-- The key of a window: its counter or its allocation. -/
def LedgerKey.OfWindow (base : String) (w : ℤ) (x : LedgerKey) : Prop := x = .counter base w ∨ x = .alloc base w

theorem LedgerKey.OfWindow.mirror (hx : x.OfWindow base w) :
    Mirror st now m r x ↔ SameCount m r x.text ((w + 2) * st.win base) := by
  rcases hx with rfl | rfl <;> rfl

theorem LedgerKey.OfWindow.not_id (hx : x.OfWindow base w) : x.isID = false := by
  rcases hx with rfl | rfl <;> rfl

theorem Mirrors.counted (h : Mirrors A S st now m r) (hA : A x) (hx : x.OfWindow base w) (hnow : now < (w + 2) * st.win base) :
    (r.get now x.text).getD 0 = m.getInt x.text 0 := (hx.mirror.mp (h.mirror x hA)).get hnow

theorem Mirrors.get_counter (h : Mirrors A S st now m r) (hA : A (.counter base w)) (hnow : now < (w + 2) * st.win base) :
    (r.get now (winKey base w)).getD 0 = m.getInt (winKey base w) 0 := h.counted hA (.inl rfl) hnow

theorem Mirrors.get_alloc (h : Mirrors A S st now m r) (hA : A (.alloc base w)) (hnow : now < (w + 2) * st.win base) :
    (r.get now (allocKey base w)).getD 0 = m.getInt (allocKey base w) 0 := h.counted hA (.inr rfl) hnow

theorem writes_put (v : ℤ) (s : Stored ℤ) : Writes x m (m.setVal x.text v) r (r.put x.text s) where
  vals _ hk := Function.update_of_ne hk _ _
  deduped _ _ := rfl
  edges _ _ := rfl
  strs _ hk := Redis.strs_put_of_ne hk s
  zsets _ _ := rfl

/-- A window's key that is written while the window lasts outlives the next one. -/
theorem Mirrors.put_counter (h : Mirrors A S st now m r) (hap : LedgerKey.Apart A) (hA : A x) (hx : x.OfWindow base w) {v e : ℤ}
    (he : (w + 2) * st.win base ≤ e) : Mirrors A S st now (m.setVal x.text v) (r.put x.text ⟨v, some e⟩) := by
  refine h.write hap hA (writes_put v _) ?_ fun hid => ?_
  · rw [hx.mirror]
    simp [SameCount, Mem.getInt, Mem.setVal, he]
  · rw [hx.not_id] at hid
    cases hid

theorem Mirrors.incr (h : Mirrors A S st now m r) (hap : LedgerKey.Apart A) (hA : A x) (hx : x.OfWindow base w)
    (hw : w * st.win base ≤ now) (hnow : now < (w + 2) * st.win base) (d : ℤ) :
    Mirrors A S st now (m.addVal x.text d) (((r.incrBy now x.text d).2).pexpire now x.text (Redis.windowTTL (st.win base))) := by
  rw [Redis.incrBy_pexpire, h.counted hA hx hnow]
  apply h.put_counter hap hA hx
  unfold Redis.windowTTL
  linarith

/-- Nothing is added to a counter. -/
theorem Mirrors.add_zero (h : Mirrors A S st now m r) (hap : LedgerKey.Apart A) (hA : A x) (hx : x.OfWindow base w) :
    Mirrors A S st now (m.addVal x.text 0) r := by
  have hw : Writes x m (m.addVal x.text 0) r r :=
    ⟨fun _ hk => Function.update_of_ne hk _ _, fun _ _ => rfl, fun _ _ => rfl, fun _ _ => rfl, fun _ _ => rfl⟩
  refine h.write hap hA hw ?_ fun hid => ?_
  · have hm := hx.mirror.mp (h.mirror x hA)
    rw [hx.mirror]
    unfold SameCount at hm ⊢
    simpa [Mem.addVal, Mem.setVal, Mem.getInt] using hm
  · rw [hx.not_id] at hid
    cases hid

/-- A counter is lowered by what is given, if anything is. -/
theorem Mirrors.lower (h : Mirrors A S st now m r) (hap : LedgerKey.Apart A) (hA : A (.alloc base w))
    (hw : w * st.win base ≤ now) (hnow : now < (w + 2) * st.win base) {give : ℤ} (hgive : 0 ≤ give) :
    Mirrors A S st now (m.addVal (allocKey base w) (-give))
      (if 0 < give then ((r.incrBy now (allocKey base w) (-give)).2).pexpire now (allocKey base w) (Redis.windowTTL (st.win base))
        else r) := by
  split_ifs with hpos
  · exact h.incr hap hA (.inr rfl) hw hnow _
  · obtain rfl : give = 0 := le_antisymm (not_lt.mp hpos) hgive
    exact h.add_zero hap hA (.inr rfl)

/-- A grant sets the TTL of a counter that it starts; one that goes on has its own. -/
theorem Mirrors.grant_counter (h : Mirrors A S st now m r) (hap : LedgerKey.Apart A) (hA : A x) (hx : x.OfWindow base w)
    (hw : w * st.win base ≤ now) (hnow : now < (w + 2) * st.win base) (d : ℤ) :
    Mirrors A S st now (m.addVal x.text d)
      (if (r.incrBy now x.text d).1 = d then ((r.incrBy now x.text d).2).pexpire now x.text (Redis.windowTTL (st.win base))
        else (r.incrBy now x.text d).2) := by
  split_ifs with hv
  · exact h.incr hap hA hx hw hnow d
  · have hget := h.counted hA hx hnow
    have hcounted := hx.mirror.mp (h.mirror x hA)
    rw [Redis.incrBy_fst] at hv
    unfold Redis.incrBy
    unfold Redis.get at hget hv
    cases hf : r.find now x.text with
    | none =>
      rw [hf] at hv
      simp at hv
    | some s =>
      rw [hf] at hget
      have hs : r.strs x.text = some s := (Option.filter_eq_some_iff.mp hf).1
      unfold SameCount at hcounted
      rw [hs] at hcounted
      obtain ⟨-, e, he, hstop⟩ := hcounted
      dsimp only
      rw [he, show s.val = m.getInt x.text 0 from hget]
      exact h.put_counter hap hA hx hstop

theorem Mirrors.put_arrival (h : Mirrors A S st now m r) (hap : LedgerKey.Apart A) (hA : A (.arrival base)) (tat : ℤ) :
    Mirrors A S st now (m.setVal base tat) (r.set now base tat (tat - now + 1000)) := by
  have hexp : now + (tat - now + 1000) = tat + 1000 := by ring
  refine h.write hap hA (writes_put tat _) ?_ nofun
  simp [Mirror, Mem.setVal, Redis.set, hexp]

/-- What `credit` does to a counter, in both. -/
theorem Mirrors.credit (h : Mirrors A S st now m r) (hap : LedgerKey.Apart A) (hA : A (.counter base w))
    (hw : w * st.win base ≤ now) (hnow : now < (w + 2) * st.win base) (tokens : ℤ) :
    Mirrors A S st now (m.credit (winKey base w) tokens)
      (r.credit now (winKey base w) tokens (Redis.windowTTL (st.win base))) := by
  have hx : (LedgerKey.counter base w).OfWindow base w := .inl rfl
  have hget := h.get_counter hA hnow
  have hmem : m.credit (winKey base w) tokens = m.addVal (winKey base w) (-min tokens (m.getInt (winKey base w) 0)) := by
    unfold Mem.credit Mem.addVal
    rw [← sub_eq_add_neg]
  have hc : (if m.getInt (winKey base w) 0 < tokens then m.getInt (winKey base w) 0 else tokens) =
      min tokens (m.getInt (winKey base w) 0) := by
    split_ifs <;> omega
  rw [hmem]
  unfold Redis.credit
  dsimp only
  rw [hget, hc]
  split_ifs with hzero
  · exact h.incr hap hA hx hw hnow _
  · rw [not_not.mp hzero]
    exact h.add_zero hap hA hx

/-- A dedupe ID that is marked, in both. -/
theorem Mirrors.mark (h : Mirrors A S st now m r) (hap : LedgerKey.Apart A) (hA : A x)
    (hx : (∃ b d, x = .returned b d) ∨ ∃ b id, x = .credited b id) {px : ℤ} (hpx : 0 < px) :
    Mirrors A S st now (m.mark x.text) (r.set now x.text 1 px) := by
  have hw : Writes x m (m.mark x.text) r (r.set now x.text 1 px) :=
    ⟨fun _ _ => rfl, fun _ hk => Function.update_of_ne hk _ _, fun _ _ => rfl, fun _ hk => Redis.strs_put_of_ne hk _, fun _ _ => rfl⟩
  refine h.write hap hA hw ?_ fun _ s hs => ?_
  · rcases hx with ⟨b, d, rfl⟩ | ⟨b, id, rfl⟩ <;> simp [Mirror, Redis.set, Mem.mark, LedgerKey.text]
  · simp only [Redis.set, Redis.strs_put_self, Option.mem_def, Option.some.injEq] at hs
    rw [← hs]
    exact (Stored.live_iff rfl).mpr (by omega)

/-- An ID's key has not expired if it was ever set. -/
theorem Mirrors.find_id (h : Mirrors A S st now m r) (hA : A x) (hS : S x) (hid : x.isID = true) :
    r.find now x.text = r.strs x.text := by
  unfold Redis.find
  cases hs : r.strs x.text with
  | none => rfl
  | some s => simp [h.live x hA hS hid s hs]

end Write

/-! The active edges. -/

section Edges

variable {active : ℤ} {set : List (String × ℤ)} {z : Option (Stored (List (String × ℤ)))}

theorem SameEdges.later (h : SameEdges active now set z) {now' : ℤ} (hle : now ≤ now') : SameEdges active now' set z :=
  ⟨h.names, h.names', fun x hx => h.same x (by omega), h.lasts, fun s hs x hx => (h.past s hs x hx).trans hle⟩

theorem nodup_members (h : SameEdges active now set (r.zsets (Redis.edgesKey base))) :
    ((r.members now (Redis.edgesKey base)).map Prod.fst).Nodup := by
  unfold Redis.members
  split
  next s hs => exact h.names' s (Option.filter_eq_some_iff.mp hs).1
  next => exact List.nodup_nil

theorem SameEdges.past_members (h : SameEdges active now set (r.zsets (Redis.edgesKey base))) :
    ∀ x ∈ r.members now (Redis.edgesKey base), x.2 ≤ now := by
  unfold Redis.members
  split
  next s hs => exact h.past s (Option.filter_eq_some_iff.mp hs).1
  next => exact fun _ hx => absurd hx List.not_mem_nil

/-- What counts is in both; a set that has expired has nothing that does. -/
theorem SameEdges.mem_members (h : SameEdges active now set (r.zsets (Redis.edgesKey base))) {x : String × ℤ}
    (hx : now - active < x.2) : x ∈ r.members now (Redis.edgesKey base) ↔ x ∈ set := by
  rw [h.same x hx]
  unfold Redis.members
  cases hz : r.zsets (Redis.edgesKey base) with
  | none => simp
  | some s =>
    rw [hz] at h
    obtain ⟨e, he, hlast⟩ := h.lasts s rfl
    by_cases hlive : s.live now = true
    · rw [Stored.filter_live hlive]
      simp
    · have hgone : e ≤ now := not_lt.mp fun hlt => hlive ((Stored.live_iff he).mpr hlt)
      rw [Stored.filter_gone hlive]
      simp only [List.not_mem_nil, Option.mem_def, Option.some.injEq, exists_eq_left', false_iff]
      intro hmem
      have := hlast x hmem
      omega

theorem mem_touchEdge_iff {edge : String} {t : ℤ} {l l' : List (String × ℤ)} {x : String × ℤ} (h : x ∈ l ↔ x ∈ l') :
    x ∈ touchEdge l edge t ↔ x ∈ touchEdge l' edge t := by
  obtain ⟨name, at_⟩ := x
  rw [mem_touchEdge, mem_touchEdge, h]

/-- Two sets with the same active edges have as many. -/
theorem length_filter_eq {l l' : List (String × ℤ)} {since : ℤ} (hl : (l.map Prod.fst).Nodup) (hl' : (l'.map Prod.fst).Nodup)
    (h : ∀ x : String × ℤ, since < x.2 → (x ∈ l ↔ x ∈ l')) :
    (l.filter fun x => since < x.2).length = (l'.filter fun x => since < x.2).length := by
  apply List.Perm.length_eq
  rw [List.perm_ext_iff_of_nodup (hl.of_map _ |>.filter _) (hl'.of_map _ |>.filter _)]
  intro x
  simp only [List.mem_filter, decide_eq_true_eq]
  constructor
  · rintro ⟨hx, hlt⟩
    exact ⟨(h x hlt).mp hx, hlt⟩
  · rintro ⟨hx, hlt⟩
    exact ⟨(h x hlt).mpr hx, hlt⟩

theorem members_zaddExpire (edge : String) {ttl : ℤ} (hpos : 0 < ttl) :
    (r.zaddExpire now base edge ttl).members now base = touchEdge (r.members now base) edge now := by
  have hlive : (⟨touchEdge (r.members now base) edge now, some (now + ttl)⟩ : Stored (List (String × ℤ))).live now = true :=
    (Stored.live_iff rfl).mpr (by omega)
  unfold Redis.zaddExpire
  rw [Redis.members]
  dsimp only
  rw [Function.update_self, Stored.filter_live hlive]

/-- Counting the edges, in both. -/
theorem Mirrors.countEdges (h : Mirrors A S st now m r) (hap : LedgerKey.Apart A) (ord : RangeOrder) {inp : GrantInput}
    (hA : inp.edge ≠ "" → A (.edges inp.key)) (hactive : inp.activeMs = st.activeMs inp.key) (hpos : 0 < inp.activeMs) (avail : ℤ) :
    (r.countEdges inp avail now).1 = (m.countEdges ord inp avail now).1 ∧
      Mirrors A S st now (m.countEdges ord inp avail now).2 (r.countEdges inp avail now).2 := by
  unfold Redis.countEdges Mem.countEdges
  split_ifs with hc
  · have hedges : SameEdges (st.activeMs inp.key) now (m.edges inp.key) (r.zsets (Redis.edgesKey inp.key)) := h.mirror _ (hA hc.1)
    rw [← hactive] at hedges
    have hmem : ∀ x : String × ℤ, now - inp.activeMs < x.2 →
        (x ∈ touchEdge (r.members now (Redis.edgesKey inp.key)) inp.edge now ↔ x ∈ touchEdge (m.edges inp.key) inp.edge now) :=
      fun x hx => mem_touchEdge_iff (hedges.mem_members hx)
    have hnodup : ((touchEdge (m.edges inp.key) inp.edge now).map Prod.fst).Nodup := touchEdge_nodup hedges.names inp.edge
    have hnodup' : ((touchEdge (r.members now (Redis.edgesKey inp.key)) inp.edge now).map Prod.fst).Nodup :=
      touchEdge_nodup (nodup_members hedges) inp.edge
    -- the loop over the edges, in any order, counts those that are active and drops none of them
    set touched := touchEdge (m.edges inp.key) inp.edge now with htouched
    have hvisit : ∀ e ∈ ord.visit touched, e ∈ touched := fun e he => (ord.perm touched).mem_iff.mp he
    obtain ⟨hsub, hkeep⟩ := foldl_countEdge_keeps now inp.activeMs (0, touched) hnodup hvisit (List.Sublist.refl _)
    constructor
    · dsimp only
      rw [foldl_countEdge_count, Redis.zcount, members_zaddExpire inp.edge hpos, zero_add]
      rw [((ord.perm touched).filter _).length_eq]
      exact_mod_cast length_filter_eq hnodup' hnodup hmem
    · refine h.write hap (hA hc.1) ⟨fun _ _ => rfl, fun _ _ => rfl, fun b hb => ?_, fun _ _ => rfl, fun k hk => ?_⟩ ?_ nofun
      · exact Function.update_of_ne (fun he => hb (by rw [he])) _ _
      · exact Function.update_of_ne hk _ _
      · unfold Mirror Redis.zaddExpire
        dsimp only
        rw [Function.update_self, Function.update_self, ← hactive]
        have hpast : ∀ x ∈ touchEdge (r.members now (Redis.edgesKey inp.key)) inp.edge now, x.2 ≤ now := by
          rintro ⟨name, at_⟩ hx
          rcases mem_touchEdge.mp hx with ⟨-, hat⟩ | ⟨-, hx⟩
          · exact hat.le
          · exact hedges.past_members _ hx
        refine ⟨(hsub.map _).nodup hnodup, fun s hs => ?_, fun x hx => ?_, fun s hs => ?_, fun s hs => ?_⟩
        · obtain rfl := Option.some.inj hs
          exact hnodup'
        · simp only [Option.mem_def, Option.some.injEq, exists_eq_left']
          rw [hmem x hx]
          exact ⟨fun hin => hsub.subset hin, fun hin => hkeep x hin hx⟩
        · obtain rfl := Option.some.inj hs
          refine ⟨_, rfl, fun x hx => ?_⟩
          have := hpast x hx
          omega
        · obtain rfl := Option.some.inj hs
          exact hpast
  · exact ⟨rfl, h⟩

end Edges

/-! Grants. -/

section Grant

/-- A grant on the keys in `A`, with their windows. -/
structure GrantInput.Fits (A : LedgerKey → Prop) (st : Setting) (now : ℤ) (inp : GrantInput) : Prop where
  keys : ∀ x ∈ inp.keys now, A x
  win : inp.win = st.win inp.key
  winPos : 0 < inp.win
  pwin : inp.parentKey ≠ "" → inp.pwin = st.win inp.parentKey ∧ 0 < inp.pwin
  active : inp.activeMs = st.activeMs inp.key
  activePos : 0 < inp.activeMs

variable {inp : GrantInput}

theorem GrantInput.Fits.arrival (hf : inp.Fits A st now) (ha : inp.algo = .tokenBucket) : A (.arrival inp.key) :=
  hf.keys _ (by simp [GrantInput.keys, ha])

theorem GrantInput.Fits.counter (hf : inp.Fits A st now) (ha : inp.algo ≠ .tokenBucket) : A (.counter inp.key (now / inp.win)) :=
  hf.keys _ (by simp [GrantInput.keys, ha])

theorem GrantInput.Fits.alloc (hf : inp.Fits A st now) (ha : inp.algo ≠ .tokenBucket) (hb : 0 ≤ inp.allocBase) :
    A (.alloc inp.key (now / inp.win)) :=
  hf.keys _ (by simp [GrantInput.keys, ha, hb])

theorem GrantInput.Fits.prev (hf : inp.Fits A st now) (ha : inp.algo = .slidingWindow) : A (.counter inp.key (now / inp.win - 1)) :=
  hf.keys _ (by simp [GrantInput.keys, ha])

theorem GrantInput.Fits.parent (hf : inp.Fits A st now) (hp : inp.parentKey ≠ "") : A (.counter inp.parentKey (now / inp.pwin)) :=
  hf.keys _ (by simp [GrantInput.keys, hp])

theorem GrantInput.Fits.edges (hf : inp.Fits A st now) (he : inp.edge ≠ "") : A (.edges inp.key) :=
  hf.keys _ (by simp [GrantInput.keys, he])

/-- The time is in its window, and before the end of the next. -/
theorem in_window {win : ℤ} (hw : 0 < win) (now : ℤ) : now / win * win ≤ now ∧ now < (now / win + 1) * win := by
  have h := Int.emod_add_mul_ediv now win
  have h₁ := Int.emod_nonneg now hw.ne'
  have h₂ := Int.emod_lt_of_pos now hw
  constructor <;> linarith

theorem before_next {win : ℤ} (hw : 0 < win) (now : ℤ) : now < (now / win + 2) * win := by
  have := (in_window hw now).2
  linarith

theorem Mirrors.measure (h : Mirrors A S st now m r) (hf : inp.Fits A st now) (h0 : 0 ≤ now) :
    r.measure inp now = m.measure inp now := by
  unfold Redis.measure Mem.measure
  split_ifs with ha
  · unfold Redis.measureBucket Mem.measureBucket
    dsimp only
    rw [h.arrival (hf.arrival ha)]
  · have hnow := in_window hf.winPos now
    have hnext := before_next hf.winPos now
    have hcur := h.get_counter (hf.counter ha) (by rw [← hf.win]; exact hnext)
    have hlimit : (if 0 ≤ inp.allocBase then inp.allocBase + (r.get now (allocKey inp.key (now / inp.win))).getD 0 else inp.limit) =
        if 0 ≤ inp.allocBase then inp.allocBase + m.getInt (allocKey inp.key (now / inp.win)) 0 else inp.limit := by
      split_ifs with hb
      · congr 1
        exact h.get_alloc (hf.alloc ha hb) (by rw [← hf.win]; exact hnext)
      · rfl
    have hprev : (if inp.algo = .slidingWindow then (r.get now (winKey inp.key (now / inp.win - 1))).getD 0 else 0) =
        if inp.algo = .slidingWindow then m.getInt (winKey inp.key (now / inp.win - 1)) 0 else 0 := by
      split_ifs with hs
      · refine h.get_counter (hf.prev hs) ?_
        rw [← hf.win]
        linarith
      · rfl
    unfold Redis.measureWindow Mem.measureWindow
    dsimp only
    rw [Int.tdiv_eq_ediv_of_nonneg h0, hcur, hlimit, hprev]

theorem Mirrors.nest (h : Mirrors A S st now m r) (hf : inp.Fits A st now) (h0 : 0 ≤ now) (ms : Measure) :
    r.nest inp ms now = m.nest inp ms now := by
  unfold Redis.nest Mem.nest
  split_ifs with hp
  · rfl
  · obtain ⟨hpwin, hpos⟩ := hf.pwin hp
    have hget := h.get_counter (hf.parent hp) (by rw [← hpwin]; exact before_next hpos now)
    dsimp only
    rw [Int.tdiv_eq_ediv_of_nonneg h0, hget]
    congr 1
    split_ifs <;> omega

theorem retry_eq (hw : 0 ≤ inp.win) {ms : Measure} {ne : Nested} (hp : ne.parentBinds = true → 0 ≤ inp.pwin) (now : ℤ) :
    Redis.retry inp ms ne now = retryMs inp ms ne now := by
  unfold Redis.retry retryMs
  split_ifs with hb
  · rw [Int.tdiv_eq_ediv_of_nonneg (hp hb)]
  · rfl
  · rfl
  · rw [Int.tdiv_eq_ediv_of_nonneg hw]

theorem size_eq {avail n : ℤ} (ha : 0 < avail) (hn : 0 ≤ n) (target : ℤ) : Redis.size avail n target = grantSize avail n target := by
  unfold Redis.size grantSize
  rw [Int.tdiv_eq_ediv_of_nonneg (by omega)]

/-- A grant is debited, in both. -/
theorem Mirrors.debit (h : Mirrors A S st now m r) (hap : LedgerKey.Apart A) (hf : inp.Fits A st now) {ms : Measure} {ne : Nested}
    (hkey : ms.key = if inp.algo = .tokenBucket then inp.key else winKey inp.key (now / inp.win))
    (hpkey : ne.pkey = if inp.parentKey = "" then "" else winKey inp.parentKey (now / inp.pwin)) (n : ℤ) :
    Mirrors A S st now (m.debit inp ms ne n) (r.debit inp ms ne now n) := by
  -- the quota's own key first
  have hown : Mirrors A S st now
      (if inp.algo = .tokenBucket then m.setVal ms.key (nextTat inp ms.tat n) else m.addVal ms.key n)
      (if inp.algo = .tokenBucket then r.set now ms.key (nextTat inp ms.tat n) (nextTat inp ms.tat n - now + 1000)
        else if (r.incrBy now ms.key n).1 = n then ((r.incrBy now ms.key n).2).pexpire now ms.key (Redis.windowTTL inp.win)
        else (r.incrBy now ms.key n).2) := by
    by_cases ha : inp.algo = .tokenBucket
    · rw [if_pos ha] at hkey
      rw [if_pos ha, if_pos ha, hkey]
      exact h.put_arrival hap (hf.arrival ha) _
    · rw [if_neg ha] at hkey
      rw [if_neg ha, if_neg ha, hkey, hf.win]
      have hpos := hf.winPos
      rw [hf.win] at hpos
      have hA := hf.counter ha
      rw [hf.win] at hA
      exact h.grant_counter hap hA (.inl rfl) (in_window hpos now).1 (before_next hpos now) n
  unfold Mem.debit Redis.debit
  dsimp only
  by_cases hp : inp.parentKey = ""
  · rw [if_pos hp] at hpkey
    have hempty : ¬ ne.pkey ≠ "" := not_not.mpr hpkey
    rw [if_neg hempty, if_neg hempty]
    exact hown
  · rw [if_neg hp] at hpkey
    have hne : ne.pkey ≠ "" := by
      rw [hpkey]
      exact snoc_colon_ne_empty _ _
    obtain ⟨hpwin, hpos⟩ := hf.pwin hp
    have hA := hf.parent hp
    rw [hpwin] at hpos hA
    rw [if_pos hne, if_pos hne, hpkey, hpwin]
    exact hown.incr hap hA (.inl rfl) (in_window hpos now).1 (before_next hpos now) n

theorem measure_key (m : Mem) (h0 : 0 ≤ now) :
    (m.measure inp now).key = if inp.algo = .tokenBucket then inp.key else winKey inp.key (now / inp.win) := by
  rw [← Int.tdiv_eq_ediv_of_nonneg h0]
  unfold Mem.measure
  split_ifs <;> rfl

theorem nest_key (m : Mem) (ms : Measure) (h0 : 0 ≤ now) :
    (m.nest inp ms now).pkey = if inp.parentKey = "" then "" else winKey inp.parentKey (now / inp.pwin) := by
  rw [← Int.tdiv_eq_ediv_of_nonneg h0]
  unfold Mem.nest
  split_ifs <;> rfl

theorem nest_binds {m : Mem} {ms : Measure} (h : (m.nest inp ms now).parentBinds = true) : inp.parentKey ≠ "" := by
  intro hp
  simp [Mem.nest, hp] at h

theorem Mirrors.grantLua (h : Mirrors A S st now m r) (hap : LedgerKey.Apart A) (ord : RangeOrder) (hf : inp.Fits A st now)
    (h0 : 0 ≤ now) :
    (r.grantLua now inp).1 = (m.grantOn ord now inp).1 ∧
      Mirrors A S st now (m.grantOn ord now inp).2 (r.grantLua now inp).2 := by
  obtain ⟨hn, hedges⟩ := h.countEdges hap ord hf.edges hf.active hf.activePos (m.nest inp (m.measure inp now) now).avail
  have hcount : 0 ≤ (m.countEdges ord inp (m.nest inp (m.measure inp now) now).avail now).1 := Mem.countEdges_nonneg _ _ _ _ _
  unfold Redis.grantLua Mem.grantOn
  dsimp only
  rw [h.measure hf h0, h.nest hf h0, hn]
  by_cases havail : (m.nest inp (m.measure inp now) now).avail ≤ 0
  · rw [if_pos havail, if_pos havail, retry_eq hf.winPos.le fun hb => (hf.pwin (nest_binds hb)).2.le]
    exact ⟨rfl, hedges⟩
  · rw [if_neg havail, if_neg havail, size_eq (not_le.mp havail) hcount]
    exact ⟨rfl, hedges.debit hap hf (measure_key m h0) (nest_key m _ h0) _⟩

theorem milliseconds_pos {d : ℤ} (h : second ≤ d) : 0 < milliseconds d := by
  unfold second at h
  unfold milliseconds millisecond
  rw [Int.tdiv_eq_ediv_of_nonneg (by omega)]
  omega

theorem prepare_unparented {ref : Ref} {spec : Spec} {args : GrantArgs} {inp : GrantInput} (h : prepare ref spec args = .ok inp)
    (hr : ref.parent = "") : inp.parentKey = "" := by
  unfold prepare at h
  cases hv : spec.validate with
  | error e => simp [hv, bind, Except.bind] at h
  | ok u =>
    simp only [hv, bind, Except.bind, pure, Except.pure, throw, throwThe, MonadExceptOf.throw, hr, if_true] at h
    split at h
    · cases h
    · split at h <;> cases h <;> rfl

theorem prepare_fits {ref : Ref} {spec : Spec} {args : GrantArgs} {inp : GrantInput} (h : prepare ref spec args = .ok inp)
    (hkeys : ∀ x ∈ inp.keys now, A x) (hwin : windowMs spec = st.win (ref.key spec.algo))
    (hpar : ∀ p ∈ args.parent, ref.parent ≠ "" → windowMs p = st.win (ref.parentKey .fixedWindow))
    (hactive : milliseconds (max (2 * args.horizon) (2 * second)) = st.activeMs (ref.key spec.algo)) : inp.Fits A st now := by
  have hp := prepare_prepared h
  obtain ⟨-, hact⟩ := prepare_edge h
  refine ⟨hkeys, by rw [hp.win, hp.key, hwin], by rw [hp.win]; exact windowMs_pos spec, fun hne => ?_, by rw [hact, hp.key, hactive], ?_⟩
  · refine ⟨?_, hp.pwin hne⟩
    cases hpa : args.parent with
    | none => exact absurd (hp.alone hpa) hne
    | some p =>
      have hkey := hp.parentKey.resolve_left hne
      by_cases href : ref.parent = ""
      · -- without a parent's name there is no parent
        exact absurd (prepare_unparented h href) hne
      · obtain ⟨-, -, hpw⟩ := hp.nested p hpa href
        rw [hpw, hkey]
        exact hpar p hpa href
  · rw [hact]
    apply milliseconds_pos
    have := le_max_right (2 * args.horizon) (2 * second)
    unfold second at this ⊢
    omega

end Grant

/-! Returns. -/

section Return

variable {inp : ReturnInput}

/-- A return on the keys in `A` and `S`, with their windows. -/
structure ReturnInput.Fits (A S : LedgerKey → Prop) (st : Setting) (dedupe : String) (inp : ReturnInput) : Prop where
  keys : ∀ x ∈ inp.keys dedupe, A x ∧ S x
  win : inp.win = st.win inp.key
  winPos : 0 < inp.win
  pwin : inp.parentKey ≠ "" → inp.pwin = st.win inp.parentKey ∧ 0 < inp.pwin
  dedupeKey : inp.dedupeKey = if dedupe ≠ "" then retKey inp.key dedupe else ""
  dedupeTTL : dedupe ≠ "" → 0 < inp.dedupeTTL

theorem max_eq_ite (a b : ℤ) : (if a < b then b else a) = max a b := by
  split_ifs <;> omega

/-- The quota's own part of a return, in both. -/
theorem Mirrors.returnOwn (h : Mirrors A S st now m r) (hap : LedgerKey.Apart A) {dedupe : String} (hf : inp.Fits A S st dedupe) :
    Mirrors A S st now
      (if inp.algo = .tokenBucket then
          m.setVal inp.key (max ⌈((max (m.getInt inp.key now) now : ℤ) : ℚ) - inp.tokens * (1000 / inp.rate)⌉ now)
        else if now / inp.win = inp.wid then m.credit (winKey inp.key inp.wid) inp.tokens else m)
      (r.returnOwn now inp) := by
  unfold Redis.returnOwn
  by_cases ha : inp.algo = .tokenBucket
  · have hA : A (.arrival inp.key) := (hf.keys _ (by simp [ReturnInput.keys, ha])).1
    rw [if_pos ha, if_pos ha]
    dsimp only
    rw [h.arrival hA, max_eq_ite]
    exact h.put_arrival hap hA _
  · have hA : A (.counter inp.key inp.wid) := (hf.keys _ (by simp [ReturnInput.keys, ha])).1
    rw [if_neg ha, if_neg ha]
    split_ifs with hw
    · have hpos := hf.winPos
      rw [hf.win] at hpos hw ⊢
      rw [← hw] at hA ⊢
      exact h.credit hap hA (in_window hpos now).1 (before_next hpos now) _
    · exact h

theorem Mirrors.applyReturn (h : Mirrors A S st now m r) (hap : LedgerKey.Apart A) {dedupe : String}
    (hf : inp.Fits A S st dedupe) (h0 : 0 ≤ now) : Mirrors A S st now (m.applyReturn now inp) (r.applyReturn now inp) := by
  have hown := h.returnOwn hap hf
  unfold Mem.applyReturn Redis.applyReturn
  dsimp only
  rw [Int.tdiv_eq_ediv_of_nonneg h0, Int.tdiv_eq_ediv_of_nonneg h0]
  by_cases hp : inp.parentKey ≠ "" ∧ now / inp.pwin = inp.pwid
  · rw [if_pos hp, if_pos hp]
    obtain ⟨hne, hpw⟩ := hp
    have hA : A (.counter inp.parentKey inp.pwid) := (hf.keys _ (by simp [ReturnInput.keys, hne])).1
    obtain ⟨hpwin, hpos⟩ := hf.pwin hne
    rw [hpwin] at hpos hpw ⊢
    rw [← hpw] at hA ⊢
    exact hown.credit hap hA (in_window hpos now).1 (before_next hpos now) _
  · rw [if_neg hp, if_neg hp]
    exact hown

theorem Mirrors.returnLua (h : Mirrors A S st now m r) (hap : LedgerKey.Apart A) {dedupe : String}
    (hf : inp.Fits A S st dedupe) (h0 : 0 ≤ now) : Mirrors A S st now (m.returnOne now inp) (r.returnLua now inp) := by
  unfold Mem.returnOne Redis.returnLua
  by_cases hd : dedupe = ""
  · have hkey : ¬ inp.dedupeKey ≠ "" := by simp [hf.dedupeKey, hd]
    rw [if_neg hkey, if_neg hkey]
    exact h.applyReturn hap hf h0
  · have hkey : inp.dedupeKey = retKey inp.key dedupe := by simp [hf.dedupeKey, hd]
    have hne : inp.dedupeKey ≠ "" := by
      rw [hkey]
      exact retKey_ne_empty _ _
    obtain ⟨hA, hS⟩ := hf.keys (.returned inp.key dedupe) (by simp [ReturnInput.keys, hd])
    have hseen : (r.find now (retKey inp.key dedupe)).isSome = m.deduped (retKey inp.key dedupe) := by
      have hfind : r.find now (retKey inp.key dedupe) = r.strs (retKey inp.key dedupe) := h.find_id hA hS rfl
      rw [hfind]
      exact h.mirror _ hA
    rw [if_pos hne, if_pos hne, hkey]
    unfold Redis.setNX
    rw [hseen]
    split_ifs with hdup
    · exact h
    · exact (h.mark hap hA (.inl ⟨_, _, rfl⟩) (hf.dedupeTTL hd)).applyReturn hap hf h0

/-- What else `prepareReturn` keeps of its arguments. -/
theorem prepareReturn_ttl {x : Ret} {dedupe : String} {inp : ReturnInput} (h : prepareReturn x dedupe = .ok inp) :
    (dedupe ≠ "" → 0 < inp.dedupeTTL) ∧
      (inp.parentKey ≠ "" → ∃ p ∈ x.parent, x.ref.parent ≠ "" ∧ inp.pwin = windowMs p) := by
  unfold prepareReturn at h
  cases hv : x.spec.validate with
  | error e => simp [hv, bind, Except.bind] at h
  | ok u =>
    simp only [hv, bind, Except.bind, pure, Except.pure, Except.ok.injEq] at h
    subst h
    refine ⟨fun hd => ?_, fun hne => ?_⟩
    · dsimp only
      rw [if_pos hd]
      exact mul_pos two_pos (milliseconds_pos (le_max_right _ _))
    · by_cases hr : x.ref.parent = ""
      · simp [hr] at hne
      · cases hp : x.parent with
        | none => simp [hp] at hne
        | some p => exact ⟨p, rfl, hr, by simp [hr]⟩

theorem prepareReturn_fits {x : Ret} {dedupe : String} {inp : ReturnInput} (h : prepareReturn x dedupe = .ok inp)
    (hkeys : ∀ k ∈ inp.keys dedupe, A k ∧ S k) (huses : x.Uses st) : inp.Fits A S st dedupe := by
  have hp := prepareReturn_prepared h
  obtain ⟨httl, hpar⟩ := prepareReturn_ttl h
  refine ⟨hkeys, by rw [hp.win, hp.key, huses.1], by rw [hp.win]; exact windowMs_pos _, fun hne => ?_, by rw [hp.dedupeKey, hp.key], httl⟩
  obtain ⟨p, hpa, href, hpw⟩ := hpar hne
  rw [hpw, hp.parentKey.resolve_left hne]
  exact ⟨huses.2 p hpa href, windowMs_pos p⟩

theorem Mirrors.ret (hap : LedgerKey.Apart A) (h0 : 0 ≤ now) (dedupe : String) :
    ∀ (xs : List Ret) {m : Mem} {r : Redis}, Mirrors A S st now m r → (∀ k ∈ retKeys dedupe xs, A k ∧ S k) →
      (∀ x ∈ xs, x.Uses st) →
      (r.ret now dedupe xs).1 = (m.ret now dedupe xs).1 ∧ Mirrors A S st now (m.ret now dedupe xs).2 (r.ret now dedupe xs).2 := by
  intro xs
  induction xs with
  | nil =>
    intro m r h _ _
    exact ⟨rfl, h⟩
  | cons x xs ih =>
    intro m r h hkeys huses
    obtain ⟨hx, huses⟩ := List.forall_mem_cons.mp huses
    unfold Mem.ret Redis.ret
    unfold retKeys at hkeys
    cases hp : prepareReturn x dedupe with
    | error e => exact ⟨rfl, h⟩
    | ok inp =>
      rw [hp] at hkeys
      obtain ⟨hown, hrest⟩ := List.forall_mem_append.mp hkeys
      exact ih (h.returnLua hap (prepareReturn_fits hp hown hx) h0) hrest huses

end Return

/-! Loans and credits. -/

section Regions

variable {base : String} {w : ℤ}

theorem Mirrors.put_loan (h : Mirrors A S st now m r) (hap : LedgerKey.Apart A) {id : String} (hA : A (.loan base id)) (v : ℤ)
    {px : ℤ} (hpx : 0 < px) : Mirrors A S st now (m.setVal (lendKey base id) v) (r.set now (lendKey base id) v px) := by
  refine h.write hap hA (writes_put v _) ?_ fun _ s hs => ?_
  · simp [Mirror, Mem.setVal, Redis.set]
  · simp only [LedgerKey.text, Redis.set, Redis.strs_put_self, Option.mem_def, Option.some.injEq] at hs
    rw [← hs]
    exact (Stored.live_iff rfl).mpr (by omega)

theorem Mirrors.get_loan (h : Mirrors A S st now m r) {id : String} (hA : A (.loan base id)) (hS : S (.loan base id)) :
    r.get now (lendKey base id) = m.vals (lendKey base id) := by
  have hm := h.mirror _ hA
  have hfind := h.find_id hA hS rfl
  simp only [Mirror] at hm
  simp only [LedgerKey.text] at hfind
  unfold Redis.get
  rw [hfind, hm]

theorem Mirrors.find_credited (h : Mirrors A S st now m r) {id : String} (hA : A (.credited base id)) (hS : S (.credited base id)) :
    (r.find now (creditKey base id)).isSome = m.deduped (creditKey base id) := by
  have hm := h.mirror _ hA
  have hfind := h.find_id hA hS rfl
  simp only [Mirror] at hm
  simp only [LedgerKey.text] at hfind
  rw [hfind, hm]

theorem windowTTL_pos {win : ℤ} (h : 0 < win) : 0 < Redis.windowTTL win := by
  unfold Redis.windowTTL
  omega

theorem Mirrors.lend (h : Mirrors A S st now m r) (hap : LedgerKey.Apart A) (h0 : 0 ≤ now) {ref : Ref} {spec : Spec}
    {wid : ℤ} {id : String} (huses : windowMs spec = st.win (ref.key spec.algo))
    (hkeys : spec.algo.or = .fixedWindow ∧ now / windowMs spec = wid → ∀ k ∈ [LedgerKey.loan (ref.key spec.algo) id,
      .alloc (ref.key spec.algo) wid, .counter (ref.key spec.algo) wid], A k ∧ S k) (b want margin : ℤ) :
    (r.lend now ref spec b wid want margin id).1 = (m.lend now now ref spec b wid want margin id).1 ∧
      Mirrors A S st now (m.lend now now ref spec b wid want margin id).2 (r.lend now ref spec b wid want margin id).2 := by
  unfold Mem.lend Redis.lend Redis.lendLua
  by_cases ha : spec.algo.or = .fixedWindow
  · have hpos := windowMs_pos spec
    simp only [ne_eq, ha, not_true_eq_false, if_false]
    rw [Int.tdiv_eq_ediv_of_nonneg h0]
    by_cases hw : now / windowMs spec = wid
    · simp only [List.forall_mem_cons] at hkeys
      obtain ⟨⟨hloan, hS⟩, ⟨halloc, -⟩, ⟨hcounter, -⟩, -⟩ := hkeys ⟨ha, hw⟩
      rw [if_neg (not_not.mpr hw), if_neg (not_not.mpr hw)]
      have hin : wid * st.win (ref.key spec.algo) ≤ now ∧ now < (wid + 2) * st.win (ref.key spec.algo) := by
        rw [← huses, ← hw]
        exact ⟨(in_window hpos now).1, before_next hpos now⟩
      have hseen := h.get_loan hloan hS
      rw [hseen, h.get_counter hcounter hin.2, h.get_alloc halloc hin.2, max_eq_ite]
      cases m.vals (lendKey (ref.key spec.algo) id) with
      | some v => exact ⟨rfl, h⟩
      | none =>
        refine ⟨rfl, ?_⟩
        dsimp only
        refine Mirrors.put_loan ?_ hap hloan _ (windowTTL_pos hpos)
        rw [huses]
        exact h.lower hap halloc hin.1 hin.2 (le_max_right _ _)
    · rw [if_pos hw, if_pos hw]
      exact ⟨rfl, h⟩
  · rw [if_pos ha, if_pos ha]
    exact ⟨rfl, h⟩

theorem Mirrors.creditAlloc (h : Mirrors A S st now m r) (hap : LedgerKey.Apart A) (h0 : 0 ≤ now) {ref : Ref} {spec : Spec}
    {wid : ℤ} {id : String} (huses : windowMs spec = st.win (ref.key spec.algo))
    (hkeys : spec.algo.or = .fixedWindow ∧ now / windowMs spec = wid → ∀ k ∈ [LedgerKey.credited (ref.key spec.algo) id,
      .alloc (ref.key spec.algo) wid], A k ∧ S k) (amount : ℤ) :
    (r.creditAlloc now ref spec wid amount id).1 = (m.creditAlloc now ref spec wid amount id).1 ∧
      Mirrors A S st now (m.creditAlloc now ref spec wid amount id).2 (r.creditAlloc now ref spec wid amount id).2 := by
  unfold Mem.creditAlloc Redis.creditAlloc Redis.creditLua
  by_cases ha : spec.algo.or = .fixedWindow
  · have hpos := windowMs_pos spec
    simp only [ne_eq, ha, not_true_eq_false, if_false]
    rw [Int.tdiv_eq_ediv_of_nonneg h0]
    by_cases hw : now / windowMs spec = wid
    · simp only [List.forall_mem_cons] at hkeys
      obtain ⟨⟨hcredited, hS⟩, ⟨halloc, -⟩, -⟩ := hkeys ⟨ha, hw⟩
      rw [if_neg (not_not.mpr hw), if_neg (not_not.mpr hw)]
      have hin : wid * st.win (ref.key spec.algo) ≤ now ∧ now < (wid + 2) * st.win (ref.key spec.algo) := by
        rw [← huses, ← hw]
        exact ⟨(in_window hpos now).1, before_next hpos now⟩
      have hseen := h.find_credited hcredited hS
      unfold Redis.setNX
      rw [hseen]
      cases m.deduped (creditKey (ref.key spec.algo) id) with
      | true => exact ⟨rfl, h⟩
      | false =>
        refine ⟨rfl, ?_⟩
        have hmark := h.mark hap hcredited (.inr ⟨_, _, rfl⟩) (windowTTL_pos hpos)
        have hadd := hmark.incr hap halloc (.inr rfl) hin.1 hin.2 amount
        rw [← huses] at hadd
        simp only [LedgerKey.text] at hadd
        simpa only [Bool.false_eq_true, if_false, Bool.not_true] using hadd
    · rw [if_pos hw, if_pos hw]
      exact ⟨rfl, h⟩
  · rw [if_pos ha, if_pos ha]
    exact ⟨rfl, h⟩

end Regions

/-! Runs. -/

theorem Mirrors.later {now' : ℤ} (h : Mirrors A (fun _ => False) st now m r) (hle : now ≤ now')
    (hlive : ∀ x, A x → S x → x.isID = true → ∀ s ∈ r.strs x.text, s.live now' = true) : Mirrors A S st now' m r := by
  refine ⟨fun x hx => ?_, hlive⟩
  have hm := h.mirror x hx
  cases x with
  | edges base => exact SameEdges.later hm hle
  | _ => exact hm

/-- A call that both ledgers answer alike. -/
theorem Mirrors.exec (h : Mirrors A (fun _ => False) st now m r) (hap : LedgerKey.Apart A) {c : LedgerCall} (hle : now ≤ c.now)
    (h0 : 0 ≤ c.now) (hkeys : ∀ x ∈ c.keys, A x) (huses : c.Uses st) (httl : c.InTTL r) :
    (r.exec c).1 = (m.exec c).1 ∧ Mirrors A (fun _ => False) st c.now (m.exec c).2 (r.exec c).2 := by
  have hcall : Mirrors A (fun x => x ∈ c.keys) st c.now m r := h.later hle fun x _ hx hid => httl x hx hid
  have hboth : ∀ x ∈ c.keys, A x ∧ x ∈ c.keys := fun x hx => ⟨hkeys x hx, hx⟩
  have hdrop : ∀ {m' r'}, Mirrors A (fun x => x ∈ c.keys) st c.now m' r' → Mirrors A (fun _ => False) st c.now m' r' :=
    fun h' => ⟨h'.mirror, fun _ _ hf => hf.elim⟩
  obtain ⟨t, op⟩ := c
  cases op with
  | grant ord ref spec args =>
    unfold Mem.exec Redis.exec Mem.grant Redis.grant
    dsimp only
    cases hp : prepare ref spec args with
    | error e => exact ⟨rfl, hdrop hcall⟩
    | ok inp =>
      simp only [LedgerCall.keys, hp] at hkeys
      have hfits := prepare_fits hp hkeys huses.1 huses.2.1 huses.2.2
      obtain ⟨hreply, hafter⟩ := hcall.grantLua hap ord hfits h0
      dsimp only
      rw [hreply]
      exact ⟨rfl, hdrop hafter⟩
  | ret dedupe xs =>
    obtain ⟨hreply, hafter⟩ := Mirrors.ret hap h0 dedupe xs hcall hboth huses
    unfold Mem.exec Redis.exec
    dsimp only
    rw [hreply]
    exact ⟨rfl, hdrop hafter⟩
  | lend ref spec b wid want margin id =>
    have hk : spec.algo.or = .fixedWindow ∧ t / windowMs spec = wid → ∀ k ∈ [LedgerKey.loan (ref.key spec.algo) id,
        .alloc (ref.key spec.algo) wid, .counter (ref.key spec.algo) wid], A k ∧ k ∈ LedgerCall.keys ⟨t, .lend ref spec b wid want margin id⟩ := by
      intro hcur k hmem
      exact hboth k (by simpa [LedgerCall.keys, hcur] using hmem)
    obtain ⟨hreply, hafter⟩ := hcall.lend hap h0 huses hk b want margin
    unfold Mem.exec Redis.exec
    dsimp only
    rw [hreply]
    exact ⟨rfl, hdrop hafter⟩
  | credit ref spec wid amount id =>
    have hk : spec.algo.or = .fixedWindow ∧ t / windowMs spec = wid → ∀ k ∈ [LedgerKey.credited (ref.key spec.algo) id,
        .alloc (ref.key spec.algo) wid], A k ∧ k ∈ LedgerCall.keys ⟨t, .credit ref spec wid amount id⟩ := by
      intro hcur k hmem
      exact hboth k (by simpa [LedgerCall.keys, hcur] using hmem)
    obtain ⟨hreply, hafter⟩ := hcall.creditAlloc hap h0 huses hk amount
    unfold Mem.exec Redis.exec
    dsimp only
    rw [hreply]
    exact ⟨rfl, hdrop hafter⟩

theorem replies_agree (hap : LedgerKey.Apart A) :
    ∀ (cs : List LedgerCall) {now : ℤ} {m : Mem} {r : Redis}, Mirrors A (fun _ => False) st now m r → InOrder cs →
      (∀ c ∈ cs, now ≤ c.now) → (∀ c ∈ cs, 0 ≤ c.now) → (∀ c ∈ cs, ∀ x ∈ c.keys, A x) → (∀ c ∈ cs, c.Uses st) →
      Along (fun r c => some (Redis.exec r c).2) LedgerCall.InTTL r cs → r.replies cs = m.replies cs := by
  intro cs
  induction cs with
  | nil => exact fun _ _ _ _ _ _ _ => rfl
  | cons c cs ih =>
    intro now m r h hord hle h0 hkeys huses httl
    obtain ⟨hlater, hord⟩ := List.pairwise_cons.mp hord
    obtain ⟨hle, -⟩ := List.forall_mem_cons.mp hle
    obtain ⟨h0, h0s⟩ := List.forall_mem_cons.mp h0
    obtain ⟨hkeys, hkeyss⟩ := List.forall_mem_cons.mp hkeys
    obtain ⟨huses, husess⟩ := List.forall_mem_cons.mp huses
    obtain ⟨hreply, hafter⟩ := h.exec hap hle h0 hkeys huses httl.1
    unfold Redis.replies Mem.replies
    rw [hreply, ih hafter hord hlater h0s hkeyss husess (httl.next rfl)]

/-- The two ledgers give the same answers to any sequence of calls whose keys are written apart. -/
theorem ledgers_agree (st : Setting) (cs : List LedgerCall) (hord : InOrder cs) (h0 : ∀ c ∈ cs, 0 ≤ c.now)
    (huses : ∀ c ∈ cs, c.Uses st) (httl : Along (fun r c => some (Redis.exec r c).2) LedgerCall.InTTL .new cs)
    (hap : WrittenApart cs) : Redis.new.replies cs = Mem.new.replies cs := by
  have hapart : LedgerKey.Apart fun x => ∃ c ∈ cs, x ∈ c.keys := by
    rintro x y ⟨c, hc, hx⟩ ⟨d, hd, hy⟩ ht
    exact hap c hc d hd x hx y hy ht
  exact replies_agree hapart cs (mirrors_new _ st 0) hord h0 h0 (fun c hc x hx => ⟨c, hc, hx⟩) huses httl

namespace Sample

/-- What is left after a grant. -/
def left : LedgerReply → Option ℤ
  | .granted (.ok g) => some g.remaining
  | _ => none

def give (dedupe : String) (t tokens : ℤ) : LedgerCall := ⟨t, .ret dedupe [⟨oneKey, aThousand, none, 0, 0, tokens⟩]⟩

/-- A grant of 50, 20 of which are returned and delivered twice; a loan and a credit; and a grant
when all that has expired. -/
def sevenMinutes : List LedgerCall :=
  [⟨1000, .grant anyOrder oneKey aThousand (askAs "a").2⟩, give "e1:1" 2000 20, give "e1:1" 3000 20,
   ⟨4000, .lend oneKey aThousand 100 0 10 0 "t1"⟩, ⟨5000, .credit oneKey aThousand 0 5 "t2"⟩,
   ⟨6000, .grant anyOrder oneKey aThousand (askAs "b").2⟩, ⟨400000, .grant anyOrder oneKey aThousand (askAs "a").2⟩]

def aMinuteEach : Setting := ⟨fun _ => 60000, fun _ => 2000⟩

/-- A limit whose name continues the key of another. -/
def longName : Ref := ⟨"v1", "orders", "tier:fixed_window:ret:x", "key", ""⟩

/-- A return, and a grant on the counter that is written like the return's dedupe key. -/
def sameText : List LedgerCall := [give "x:fixed_window:0" 0 1, ⟨0, .grant anyOrder longName aThousand (askAs "a").2⟩]

end Sample

open Sample in
theorem ledgers_agree_seven_minutes :
    (Redis.new.replies sevenMinutes).map left = [some 950, none, none, none, none, some 920, some 950] ∧
      Redis.new.replies sevenMinutes = Mem.new.replies sevenMinutes := by
  refine ⟨by decide +kernel, ?_⟩
  exact ledgers_agree aMinuteEach sevenMinutes (by decide) (by decide) (by decide +kernel) (by decide +kernel) (by decide +kernel)

open Sample in
/-- A dedupe key can be written like a counter, and then Redis counts it. -/
theorem ledgers_differ :
    InOrder sameText ∧ (∀ c ∈ sameText, 0 ≤ c.now) ∧ (∀ c ∈ sameText, c.Uses aMinuteEach) ∧
      Along (fun r c => some (Redis.exec r c).2) LedgerCall.InTTL .new sameText ∧
      Redis.new.replies sameText ≠ Mem.new.replies sameText := by
  refine ⟨by decide, by decide, by decide +kernel, by decide +kernel, fun heq => ?_⟩
  have hleft : (Redis.new.replies sameText).map left ≠ (Mem.new.replies sameText).map left := by decide +kernel
  exact hleft (by rw [heq])

end Gate
