import Gate.Sanity.KeyAdmin

/-! What the key handlers promise: only the secret in a key's record works, a revoked key
stays revoked, and a change that was reported has been made. Each holds when requests take
turns and finish; at the end of each section a run shows what goes wrong when they do not. -/

namespace Gate

open Conc (Along runAll)

/-- A record names a secret that was issued, and a tier. -/
def Known (w : KeyWorld) : Prop := ∀ key, w.record = some key → key.hash ∈ w.issued ∧ key.tier ≠ ""

theorem known_of {w : KeyWorld} {key : KeyRecord} (hrec : w.record = some key) (hi : key.hash ∈ w.issued)
    (ht : key.tier ≠ "") : Known w := by
  intro k hk
  rw [hrec] at hk
  cases hk
  exact ⟨hi, ht⟩

/-! Requests at once. -/

section Lifecycle

variable {hash : String → String}

/-- The tier store, if only the secret on record has a tier. -/
def tiersOf : Option KeyRecord → String → String → Option String
  | none => fun _ _ => none
  | some key => update₂ (fun _ _ => none) key.group key.hash (some key.tier)

/-- The stores agree, and a deleted key is gone. -/
structure Tidy (w : KeyWorld) : Prop where
  tier : w.tier = tiersOf w.record
  known : Known w
  deleted : .noContent ∈ w.log → w.record = none

theorem update₂_update₂ {α : Type} (f : String → String → α) (g h : String) (u v : α) :
    update₂ (update₂ f g h u) g h v = update₂ f g h v := by
  funext g' h'
  unfold update₂
  split <;> rfl

/-- A rotation leaves the new hash only. -/
theorem update₂_replace {α : Type} (f : String → String → Option α) {g h h' : String} (hne : h' ≠ h)
    (hf : f g h = none) (u v : α) :
    update₂ (update₂ (update₂ f g h (some u)) g h' (some v)) g h none = update₂ f g h' (some v) := by
  funext x y
  unfold update₂
  by_cases hx : x = g ∧ y = h
  · obtain ⟨rfl, rfl⟩ := hx
    simp [Ne.symm hne, hf]
  · simp [hx]

theorem Tidy.reply {w : KeyWorld} (h : Tidy w) {r : KeyReply} (hr : r = .noContent → w.record = none) :
    Tidy { w with log := r :: w.log } := by
  refine ⟨h.tier, h.known, fun hm => ?_⟩
  rcases List.mem_cons.mp hm with he | hm
  · exact hr he.symm
  · exact h.deleted hm

theorem Tidy.update {w : KeyWorld} (h : Tidy w) (cfg : GatewayConfig) (body : Except String KeyRequest) :
    Conc.after (KeyOp.run hash) (mayFail false) (updateKey cfg body)
      (fun r w' => Tidy w' ∧ (r = .noContent → w'.record = none)) w := by
  have hlog : ∀ {key}, w.record = some key → .noContent ∉ w.log := by
    intro key hrec hm
    rw [h.deleted hm] at hrec
    cases hrec
  refine after_updateKey (fun key hrec => (h.known key hrec).2) (fun r _ hn _ => ⟨h, fun he => absurd he hn⟩)
    (fun key req hrec _ hs => ⟨⟨?_, ?_, fun hm => absurd hm (hlog hrec)⟩, KeyReply.noConfusion⟩)
    fun key req hrec hne => ⟨fun hb => Bool.noConfusion hb,
      ⟨⟨?_, ?_, fun hm => absurd hm (hlog hrec)⟩, KeyReply.noConfusion⟩⟩
  · -- the record keeps its hash and its tier
    change w.tier = update₂ _ key.group key.hash (some (key.patch req).tier)
    rw [h.tier, hrec, (patch_silent hs).1]
    rfl
  · exact known_of rfl (h.known key hrec).1 ((patch_silent hs).1 ▸ (h.known key hrec).2)
  · change update₂ w.tier key.group key.hash _ = tiersOf (some (key.patch req))
    rw [h.tier, hrec]
    exact update₂_update₂ _ _ _ _ _
  · exact known_of rfl (h.known key hrec).1 hne

theorem Tidy.rotate {w : KeyWorld} (h : Tidy w) :
    Conc.after (KeyOp.run hash) (mayFail false) (rotateKey hash)
      (fun r w' => Tidy w' ∧ (r = .noContent → w'.record = none)) w := by
  refine after_rotateKey (fun key hrec => (h.known key hrec).2) ⟨h, KeyReply.noConfusion⟩
    (fun _ => ⟨h, KeyReply.noConfusion⟩) fun key secret hrec hfresh => ⟨fun hb => Bool.noConfusion hb, ⟨?_, ?_, ?_⟩,
      KeyReply.noConfusion⟩
  · change update₂ (update₂ w.tier key.group (hash secret) (some key.tier)) key.group key.hash none =
      tiersOf (some { key with hash := hash secret })
    rw [h.tier, hrec]
    have hne : hash secret ≠ key.hash := fun he => hfresh (he ▸ (h.known key hrec).1)
    exact update₂_replace _ hne rfl _ _
  · exact known_of rfl List.mem_cons_self (h.known key hrec).2
  · intro hm
    have := h.deleted hm
    rw [hrec] at this
    cases this

theorem Tidy.delete {w : KeyWorld} (h : Tidy w) :
    Conc.after (KeyOp.run hash) (mayFail false) deleteKey
      (fun r w' => Tidy w' ∧ (r = .noContent → w'.record = none)) w := by
  refine after_deleteKey ⟨h, KeyReply.noConfusion⟩ (fun _ => ⟨h, KeyReply.noConfusion⟩) fun key hrec =>
    ⟨fun hb => Bool.noConfusion hb, ⟨?_, fun _ he => (by cases he), fun _ => rfl⟩, fun _ => rfl⟩
  change update₂ w.tier key.group key.hash none = fun _ _ => none
  rw [h.tier, hrec]
  refine (update₂_update₂ _ _ _ _ _).trans ?_
  funext x y
  unfold update₂
  split <;> rfl

theorem Tidy.change {w : KeyWorld} (h : Tidy w) (e : KeyChange) :
    Conc.after (KeyOp.run hash) (mayFail false) (e.call.thread hash) (fun _ => Tidy) w := by
  have hreply : ∀ {p : KeyProg KeyReply}, Conc.after (KeyOp.run hash) (mayFail false) p
      (fun r w' => Tidy w' ∧ (r = .noContent → w'.record = none)) w →
      Conc.after (KeyOp.run hash) (mayFail false) (p >>= fun r => (KeyOp.reply r).call) (fun _ => Tidy) w := by
    intro p hp
    rw [Conc.after_bind]
    refine Conc.after_mono (fun r w' hr => ?_) hp
    rw [after_reply]
    exact hr.1.reply hr.2
  cases e with
  | update cfg body => exact hreply (h.update cfg body)
  | rotate => exact hreply h.rotate
  | delete => exact hreply h.delete

/-! Every handler loads the record first and never again. -/

def entersAtLoad (i : KeyOp) : Prop := i.isLoad = true

instance : DecidablePred entersAtLoad := fun i => inferInstanceAs (Decidable (i.isLoad = true))

theorem entered_call {i : KeyOp} (h : i.isLoad = false) : i.call.Entered entersAtLoad :=
  ⟨by simp [entersAtLoad, h], fun _ => trivial⟩

theorem entered_assign (g h t : String) (o : Option String) : (assign g h t o).Entered entersAtLoad := by
  unfold assign
  split
  · refine (entered_call rfl).bind fun r => ?_
    cases r with
    | error e => trivial
    | ok u => exact entered_call rfl
  · refine (entered_call rfl).bind fun r => ?_
    cases r with
    | error e => trivial
    | ok u =>
      cases o with
      | none => trivial
      | some o => exact entered_call rfl

theorem enters_keyFromPath {f : KeyRecord → KeyProg KeyReply} (hf : ∀ key, (f key).Entered entersAtLoad) :
    (keyFromPath >>= fun r => match r with
      | .error r => pure r
      | .ok key => f key).Enters entersAtLoad := by
  have hload : loadKey.Enters entersAtLoad := ⟨.load, .ret, rfl, rfl, fun _ => trivial⟩
  refine Conc.Prog.Enters.bind (hload.bind fun r => ?_) fun r => ?_
  · match r with
    | .error _ => trivial
    | .ok none => trivial
    | .ok (some _) => trivial
  · cases r with
    | error r => trivial
    | ok key => exact hf key

theorem enters_change (e : KeyChange) : (e.call.thread hash).Enters entersAtLoad := by
  refine Conc.Prog.Enters.bind ?_ fun r => entered_call rfl
  cases e with
  | update cfg body =>
    refine enters_keyFromPath fun key => ?_
    cases body with
    | error e => trivial
    | ok req =>
      dsimp only
      split
      · trivial
      split
      · trivial
      refine (entered_call rfl).bind fun r => ?_
      cases r with
      | error e => trivial
      | ok u =>
        dsimp only
        split
        · refine (entered_assign _ _ _ _).bind fun r => ?_
          cases r <;> trivial
        · trivial
  | rotate =>
    refine enters_keyFromPath fun key => (entered_call rfl).bind fun secret => (entered_call rfl).bind fun r => ?_
    cases r with
    | error e => trivial
    | ok u =>
      refine (entered_assign _ _ _ _).bind fun r => ?_
      cases r with
      | error e => trivial
      | ok u =>
        refine (entered_assign _ _ _ _).bind fun r => ?_
        cases r <;> trivial
  | delete =>
    refine enters_keyFromPath fun key => (entered_assign _ _ _ _).bind fun r => ?_
    cases r with
    | error e => trivial
    | ok u =>
      refine (entered_call rfl).bind fun r => ?_
      cases r <;> trivial

theorem tidy_created (key : KeyRecord) (ht : key.tier ≠ "") : Tidy (.created key) :=
  ⟨rfl, known_of rfl (List.mem_singleton_self _) ht, fun hm => by cases hm⟩

/-- If no request loads the record while another is past its load, then between requests
only the secret on record has a tier, and after a deletion none ever has. -/
theorem key_lifecycle (hash : String → String) (key : KeyRecord) (ht : key.tier ≠ "") {as : List KeyAct} {p : KeyPool}
    (hc : Along (Conc.Pool.step (keySem hash)) (Conc.Turns entersAtLoad (mayFail false)) ⟨.created key, []⟩ as)
    (hr : runAll (Conc.Pool.step (keySem hash)) ⟨.created key, []⟩ as = some p)
    (hq : ∀ th ∈ p.threads, ¬th.Inside entersAtLoad) :
    (∀ g, ∀ h ∈ p.shared.issued, p.shared.tier g h ≠ none ↔
      ∃ key', p.shared.record = some key' ∧ key'.group = g ∧ key'.hash = h) ∧
    (.noContent ∈ p.shared.log → ∀ g, ∀ h ∈ p.shared.issued, p.shared.tier g h = none) := by
  have hi : Tidy p.shared :=
    Conc.turns_run (fun e => ⟨enters_change e, fun _ h => h.change e⟩) (tidy_created key ht) hc hr hq
  refine ⟨fun g h _ => ?_, fun hm g h _ => ?_⟩
  · rw [hi.tier]
    cases hrec : p.shared.record with
    | none => simp [tiersOf]
    | some key' =>
      simp only [tiersOf, update₂]
      split
      · rename_i he
        simp [he.1, he.2]
      · rename_i he
        simp only [ne_eq, not_true_eq_false, false_iff]
        rintro ⟨key'', hk, rfl, rfl⟩
        cases hk
        exact he ⟨rfl, rfl⟩
  · rw [hi.tier, hi.deleted hm]
    rfl

namespace KeySample

def key : KeyRecord := ⟨"id", "v1", "free", "", "", "h0"⟩

/-- A call that goes through; the random source gives `s`. -/
def ok (s : String) : KeyChoice := ⟨false, s⟩

def run (t n : ℕ) (s : String) : List KeyAct := List.replicate n (.run t (ok s))

/-- A rotation and a deletion, one after the other. -/
def turns : List KeyAct := [.env .rotate, .env .delete] ++ run 0 8 "a" ++ run 1 5 ""

/-- Two rotations that load the record before either saves it; a deletion that runs while
another rotation is under way. -/
def races : List KeyAct :=
  [.env .rotate, .env .rotate] ++ run 0 1 "a" ++ run 1 1 "b" ++ run 0 7 "a" ++ run 1 7 "b"

def revival : List KeyAct :=
  [.env .rotate, .env .delete] ++ run 0 1 "a" ++ run 1 5 "" ++ run 0 7 "a"

end KeySample

open KeySample in
theorem key_lifecycle_turns :
    ∃ p : KeyPool, runAll (Conc.Pool.step (keySem id)) ⟨.created key, []⟩ turns = some p ∧
      .noContent ∈ p.shared.log ∧ ∀ g, ∀ h ∈ p.shared.issued, p.shared.tier g h = none := by
  have hn : (runAll (Conc.Pool.step (keySem id)) ⟨.created key, []⟩ turns).map (fun p : KeyPool =>
      decide ((∀ th ∈ p.threads, ¬th.Inside entersAtLoad) ∧ .noContent ∈ p.shared.log)) = some true := by
    decide +kernel
  obtain ⟨p, hr, hp⟩ := Option.map_eq_some_iff.mp hn
  obtain ⟨hq, hm⟩ := of_decide_eq_true hp
  exact ⟨p, hr, hm, (key_lifecycle id key (by decide) (by decide +kernel) hr hq).2 hm⟩

/-- Two rotations at once leave a secret that works beside the one on record; a rotation
brings a deleted key back. -/
theorem races_break_lifecycle :
    ((runAll (Conc.Pool.step (keySem id)) ⟨.created KeySample.key, []⟩ KeySample.races).map (fun p : KeyPool =>
      decide ((∀ th ∈ p.threads, ¬th.Inside entersAtLoad) ∧ p.shared.record.map (·.hash) = some "gk_id_b" ∧
        "gk_id_a" ∈ p.shared.issued ∧ p.shared.tier "v1" "gk_id_a" = some "free")) = some true) ∧
    ((runAll (Conc.Pool.step (keySem id)) ⟨.created KeySample.key, []⟩ KeySample.revival).map (fun p : KeyPool =>
      decide ((∀ th ∈ p.threads, ¬th.Inside entersAtLoad) ∧ .noContent ∈ p.shared.log ∧
        "gk_id_a" ∈ p.shared.issued ∧ p.shared.tier "v1" "gk_id_a" = some "free")) = some true) := by
  decide +kernel

end Lifecycle

/-! Requests one after the other, in which calls fail. -/

section Revocation

variable {hash : String → String}

/-- Only the hash on record may have a tier. -/
structure Held (w : KeyWorld) : Prop where
  tier : ∀ g h, w.tier g h ≠ none → ∃ key, w.record = some key ∧ key.group = g ∧ key.hash = h
  known : Known w

/-- What an answer says about the tier store. -/
structure Revoked (r : KeyReply) (w : KeyWorld) : Prop where
  deleted : r = .noContent → ∀ g h, w.tier g h = none
  rotated : ∀ key s, r = .rotated key s → ∀ g h, w.tier g h ≠ none → h = key.hash

theorem revoked_problem (status : ℕ) (code detail : String) (w : KeyWorld) : Revoked (.problem status code detail) w :=
  ⟨KeyReply.noConfusion, fun _ _ => KeyReply.noConfusion⟩

theorem update₂_ne_none {α : Type} {f : String → String → Option α} {g h : String} {v : Option α} {x y : String}
    (hn : update₂ f g h v x y ≠ none) : (x = g ∧ y = h) ∨ f x y ≠ none := by
  unfold update₂ at hn
  split at hn
  · rename_i he
    exact .inl he
  · exact .inr hn

theorem update₂_none_ne_none {α : Type} {f : String → String → Option α} {g h x y : String}
    (hn : update₂ f g h none x y ≠ none) : ¬(x = g ∧ y = h) ∧ f x y ≠ none := by
  unfold update₂ at hn
  split at hn
  · exact absurd rfl hn
  · rename_i he
    exact ⟨he, hn⟩

/-- The record keeps its hash, and only that hash is touched in the tier store. -/
theorem Held.same {w w' : KeyWorld} (h : Held w) {key key' : KeyRecord} (hrec : w.record = some key)
    (hrec' : w'.record = some key') (hg : key'.group = key.group) (hh : key'.hash = key.hash) (ht : key'.tier ≠ "")
    (hi : w'.issued = w.issued)
    (htier : ∀ x y, w'.tier x y ≠ none → (x = key.group ∧ y = key.hash) ∨ w.tier x y ≠ none) : Held w' := by
  refine ⟨fun x y hxy => ⟨key', hrec', ?_⟩, known_of hrec' (by rw [hh, hi]; exact (h.known key hrec).1) ht⟩
  rw [hg, hh]
  rcases htier x y hxy with ⟨rfl, rfl⟩ | hxy
  · exact ⟨rfl, rfl⟩
  · obtain ⟨k, hk, rfl, rfl⟩ := h.tier x y hxy
    rw [hrec] at hk
    cases hk
    exact ⟨rfl, rfl⟩

theorem Held.update {w : KeyWorld} (h : Held w) (cfg : GatewayConfig) (body : Except String KeyRequest) :
    Conc.after (KeyOp.run hash) (mayFail true) (updateKey cfg body) (fun r w' => Held w' ∧ Revoked r w') w := by
  have hupd : ∀ key w', Revoked (.updated key) w' := fun _ _ => ⟨KeyReply.noConfusion, fun _ _ => KeyReply.noConfusion⟩
  refine after_updateKey (fun key hrec => (h.known key hrec).2)
    (fun r _ hn hr => ⟨h, fun he => absurd he hn, fun key s he => absurd he (hr key s)⟩)
    (fun key req hrec _ hs => ⟨?_, hupd _ _⟩)
    fun key req hrec hne => ⟨fun _ => ⟨⟨?_, revoked_problem _ _ _ _⟩, ?_, revoked_problem _ _ _ _⟩, ?_, hupd _ _⟩
  · exact h.same hrec rfl rfl rfl ((patch_silent hs).1 ▸ (h.known key hrec).2) rfl fun _ _ hxy => .inr hxy
  · exact h.same hrec rfl rfl rfl hne rfl fun _ _ hxy => .inr hxy
  · exact h.same hrec rfl rfl rfl hne rfl fun _ _ hxy => update₂_ne_none hxy
  · exact h.same hrec rfl rfl rfl hne rfl fun _ _ hxy => update₂_ne_none hxy

/-- A rotation that got past its save, if the old hash has lost its tier. -/
theorem Held.replaced {w w' : KeyWorld} (h : Held w) {key : KeyRecord} {hash' : String} (hrec : w.record = some key)
    (hnew : hash' ∉ w.issued) (hrec' : w'.record = some { key with hash := hash' })
    (hi : w'.issued = hash' :: w.issued) (hno : ¬w.Orphans w')
    (htier : ∀ x y, w'.tier x y ≠ none → (x = key.group ∧ y = hash') ∨ w.tier x y ≠ none) : Held w' := by
  have hold : w'.tier key.group key.hash = none := by
    unfold KeyWorld.Orphans at hno
    rw [hrec, hrec'] at hno
    by_contra hc
    have hne : hash' ≠ key.hash := fun he => hnew (he ▸ (h.known key hrec).1)
    exact hno ⟨hne, hc⟩
  refine ⟨fun x y hxy => ⟨_, hrec', ?_⟩, known_of hrec' (by rw [hi]; exact List.mem_cons_self) (h.known key hrec).2⟩
  rcases htier x y hxy with ⟨rfl, rfl⟩ | hxy'
  · exact ⟨rfl, rfl⟩
  · obtain ⟨k, hk, rfl, rfl⟩ := h.tier x y hxy'
    rw [hrec] at hk
    cases hk
    exact absurd hold hxy

theorem Held.rotate {w : KeyWorld} (h : Held w) :
    Conc.after (KeyOp.run hash) (mayFail true) (rotateKey hash)
      (fun r w' => ¬w.Orphans w' → Held w' ∧ Revoked r w') w := by
  refine after_rotateKey (fun key hrec => (h.known key hrec).2) (fun _ => ⟨h, revoked_problem _ _ _ _⟩)
    (fun _ _ => ⟨h, revoked_problem _ _ _ _⟩) fun key secret hrec hfresh =>
      ⟨fun _ => ⟨fun _ => ⟨⟨h.tier, fun k hk => ?_⟩, revoked_problem _ _ _ _⟩, fun hno => ⟨?_, revoked_problem _ _ _ _⟩,
        fun hno => ⟨?_, revoked_problem _ _ _ _⟩, fun hno => ⟨?_, revoked_problem _ _ _ _⟩,
        fun hno => ⟨?_, revoked_problem _ _ _ _⟩⟩, fun hno => ?_⟩
  · exact ⟨List.mem_cons_of_mem _ (h.known k hk).1, (h.known k hk).2⟩
  · exact h.replaced hrec hfresh rfl rfl hno fun _ _ hxy => .inr hxy
  · exact h.replaced hrec hfresh rfl rfl hno fun _ _ hxy => update₂_ne_none hxy
  · exact h.replaced hrec hfresh rfl rfl hno fun _ _ hxy => update₂_ne_none hxy
  · exact h.replaced hrec hfresh rfl rfl hno fun _ _ hxy => update₂_ne_none (update₂_none_ne_none hxy).2
  · have hheld := h.replaced hrec hfresh rfl rfl hno fun _ _ hxy => update₂_ne_none (update₂_none_ne_none hxy).2
    refine ⟨hheld, KeyReply.noConfusion, fun key' s he x y hxy => ?_⟩
    cases he
    obtain ⟨k, hk, -, rfl⟩ := hheld.tier x y hxy
    cases hk
    rfl

theorem Held.delete {w : KeyWorld} (h : Held w) :
    Conc.after (KeyOp.run hash) (mayFail true) deleteKey (fun r w' => Held w' ∧ Revoked r w') w := by
  have hgone : ∀ key, w.record = some key → ∀ x y, update₂ w.tier key.group key.hash none x y = none := by
    intro key hrec x y
    by_contra hxy
    obtain ⟨hne, hxy⟩ := update₂_none_ne_none hxy
    obtain ⟨k, hk, rfl, rfl⟩ := h.tier x y hxy
    rw [hrec] at hk
    cases hk
    exact hne ⟨rfl, rfl⟩
  refine after_deleteKey ⟨h, revoked_problem _ _ _ _⟩ (fun _ => ⟨h, revoked_problem _ _ _ _⟩) fun key hrec =>
    ⟨fun _ => ⟨⟨⟨fun x y hxy => absurd (hgone key hrec x y) hxy, h.known⟩, revoked_problem _ _ _ _⟩,
      ⟨fun x y hxy => absurd (hgone key hrec x y) hxy, h.known⟩, revoked_problem _ _ _ _⟩,
      ⟨fun x y hxy => absurd (hgone key hrec x y) hxy, fun k hk => ?_⟩, fun _ => hgone key hrec,
      fun _ _ => KeyReply.noConfusion⟩
  cases hk

theorem Held.create {w : KeyWorld} (h : Held w) (cfg : GatewayConfig) (body : Except String KeyRequest) :
    Conc.after (KeyOp.run hash) (mayFail true) (createKey hash cfg body) (fun r w' => Held w' ∧ Revoked r w') w := by
  refine after_createKey (fun _ _ _ => ⟨h, revoked_problem _ _ _ _⟩) fun key secret hi ht _ => ?_
  -- an unused ID has no record, so nothing has a tier
  have hnone : w.record = none := by
    by_contra hc
    obtain ⟨k, hk⟩ := Option.ne_none_iff_exists'.mp hc
    have := (h.known k hk).1
    rw [hi] at this
    cases this
  have hempty : ∀ x y, ¬w.tier x y ≠ none := by
    intro x y hxy
    obtain ⟨k, hk, -⟩ := h.tier x y hxy
    rw [hnone] at hk
    cases hk
  have hset : ∀ x y, update₂ w.tier key.group key.hash (some key.tier) x y ≠ none →
      ∃ k, some key = some k ∧ k.group = x ∧ k.hash = y := by
    intro x y hxy
    obtain ⟨rfl, rfl⟩ := (update₂_ne_none hxy).resolve_right (hempty x y)
    exact ⟨key, rfl, rfl, rfl⟩
  refine ⟨fun _ => ⟨⟨⟨fun x y hxy => absurd hxy (hempty x y), fun k hk => ?_⟩, revoked_problem _ _ _ _⟩,
    ⟨⟨fun x y hxy => absurd hxy (hempty x y), known_of rfl (List.mem_singleton_self _) ht⟩, revoked_problem _ _ _ _⟩,
    ⟨hset, known_of rfl (List.mem_singleton_self _) ht⟩, revoked_problem _ _ _ _⟩,
    ⟨hset, known_of rfl (List.mem_singleton_self _) ht⟩, KeyReply.noConfusion, fun _ _ => KeyReply.noConfusion⟩
  change w.record = some k at hk
  rw [hnone] at hk
  cases hk

theorem Held.call {w : KeyWorld} (h : Held w) (call : KeyCall) :
    Conc.after (KeyOp.run hash) (mayFail true) (call.handler hash)
      (fun r w' => ¬w.Orphans w' → Held w' ∧ Revoked r w') w := by
  have hweak : ∀ {p : KeyProg KeyReply}, Conc.after (KeyOp.run hash) (mayFail true) p
      (fun r w' => Held w' ∧ Revoked r w') w → Conc.after (KeyOp.run hash) (mayFail true) p
      (fun r w' => ¬w.Orphans w' → Held w' ∧ Revoked r w') w := by
    intro p hp
    refine Conc.after_mono ?_ hp
    exact fun _ _ hw _ => hw
  cases call with
  | create cfg body => exact hweak (h.create cfg body)
  | update cfg body => exact hweak (h.update cfg body)
  | rotate => exact h.rotate
  | delete => exact hweak h.delete

/-- The last answer is right about the tier store. -/
def Revocations (s : KeyHistory) : Prop := Held s.world ∧ ∀ r ∈ s.world.log.head?, Revoked r s.world

theorem Revocations.step {s s' : KeyHistory} (h : Revocations s) {a : KeyCall × List KeyChoice}
    (hc : s.finishes hash a) (hs : s.step hash a = some s') : Revocations s' := by
  have hno := hc s' hs
  obtain ⟨⟨r, w⟩, hr, rfl⟩ := Option.map_eq_some_iff.mp hs
  have hw := Conc.after_alone (fun _ _ _ _ => rfl) (h.1.call a.1) hr hno
  refine ⟨⟨hw.1.tier, hw.1.known⟩, fun r' hr' => ?_⟩
  cases hr'
  exact ⟨hw.2.deleted, hw.2.rotated⟩

namespace KeySample

def cfg : GatewayConfig :=
  ⟨[⟨"v1", second, [⟨"svc", [⟨"free", 8, .fixedWindow, 0⟩, ⟨"pro", 80, .fixedWindow, 0⟩], none, "", [], none,
    ⟨"fixed", 0, 0, 0⟩, none⟩]⟩], [], ""⟩

/-- The key is created in the free tier. -/
def create : KeyCall × List KeyChoice :=
  (.create cfg (.ok ⟨some "v1", some "free", none, none⟩), [ok "a", ok "", ok "", ok ""])

def rotate : KeyCall × List KeyChoice := (.rotate, [ok "", ok "b", ok "", ok "", ok "", ok "", ok ""])

/-- A rotation whose fourth call, the new hash's tier, fails. -/
def rotateFails : KeyCall × List KeyChoice := (.rotate, [ok "", ok "b", ok "", ⟨true, ""⟩])

def delete : KeyCall × List KeyChoice := (.delete, [ok "", ok "", ok "", ok ""])

end KeySample

end Revocation

/-! Updates that take effect. -/

section Effect

variable {hash : String → String}

/-- The tier store has the record's tier and owner under the record's hash. -/
def Agrees (w : KeyWorld) : Prop :=
  ∀ key, w.record = some key → w.tier key.group key.hash = some key.tier ∧ w.ownerOf key.group key.hash = key.owner

/-- What a request started in `w` and answered with `r` leaves. -/
structure Settled (w : KeyWorld) (r : KeyReply) (w' : KeyWorld) : Prop where
  known : Known w'
  idle : w'.writes = w.writes → Agrees w → Agrees w'
  wrote : w'.writes ≠ w.writes → r ≠ internalError → Agrees w'
  updated : ∀ key, r = .updated key → w'.record = some key ∧ Agrees w'

theorem Settled.unchanged {w : KeyWorld} (h : Known w) {r : KeyReply} (hr : ∀ key, r ≠ .updated key) : Settled w r w :=
  ⟨h, fun _ ha => ha, fun hn => absurd rfl hn, fun key he => absurd he (hr key)⟩

theorem Settled.failed {w w' : KeyWorld} (h : Known w') (hw : w'.writes ≠ w.writes) : Settled w internalError w' :=
  ⟨h, fun he => absurd he hw, fun _ hn => absurd rfl hn, fun _ => KeyReply.noConfusion⟩

theorem Settled.done {w w' : KeyWorld} {r : KeyReply} (h : Known w') (ha : Agrees w')
    (hr : ∀ key, r = .updated key → w'.record = some key) : Settled w r w' :=
  ⟨h, fun _ _ => ha, fun _ _ => ha, fun key he => ⟨hr key he, ha⟩⟩

theorem update₂_self {α : Type} (f : String → String → α) (g h : String) (v : α) : update₂ f g h v g h = v :=
  if_pos ⟨rfl, rfl⟩

theorem update₂_of_ne {α : Type} (f : String → String → α) {g h h' : String} (hne : h' ≠ h) (v : α) :
    update₂ f g h v g h' = f g h' := if_neg fun he => hne he.2

/-- Assigning what the record says makes the stores agree. -/
theorem agrees_assigned {w : KeyWorld} {key : KeyRecord} (hrec : w.record = some key) :
    Agrees (w.assigned key.group key.hash key.tier key.owner) := by
  intro k hk
  have hk' : w.record = some k := hk
  rw [hrec] at hk'
  cases hk'
  refine ⟨update₂_self _ _ _ _, ?_⟩
  unfold KeyWorld.ownerOf KeyWorld.assigned
  dsimp only
  rw [update₂_self]
  split
  · rename_i ho
    exact ho.symm
  · rfl

theorem settled_update {w : KeyWorld} (h : Known w) (cfg : GatewayConfig) (body : Except String KeyRequest)
    (hs : ∀ req key, body = .ok req → w.record = some key → req.Silent key → Agrees w) :
    Conc.after (KeyOp.run hash) (mayFail true) (updateKey cfg body) (Settled w) w := by
  refine after_updateKey (fun key hrec => (h key hrec).2) (fun r hu _ _ => .unchanged h hu) (fun key req hrec hb hsil => ?_)
    fun key req hrec hne => ⟨fun _ => ⟨?_, ?_⟩, ?_⟩
  · obtain ⟨ht, ho⟩ := patch_silent hsil
    refine .done (known_of rfl (h key hrec).1 (ht ▸ (h key hrec).2)) (fun k hk => ?_) fun k he => by cases he; rfl
    cases hk
    rw [ht, ho]
    exact hs req key hb hrec hsil key hrec
  · exact .failed (known_of rfl (h key hrec).1 hne) (Nat.succ_ne_self _)
  · exact .failed (known_of rfl (h key hrec).1 hne) (by dsimp only; omega)
  · have ha := @agrees_assigned (w.saved (key.patch req)) (key.patch req) rfl
    refine .done (known_of rfl (h key hrec).1 hne) ha fun k he => ?_
    cases he
    rfl

theorem settled_rotate {w : KeyWorld} (h : Known w) :
    Conc.after (KeyOp.run hash) (mayFail true) (rotateKey hash) (Settled w) w := by
  refine after_rotateKey (fun key hrec => (h key hrec).2) (.unchanged h fun _ => KeyReply.noConfusion)
    (fun _ => .unchanged h fun _ => KeyReply.noConfusion) fun key secret hrec hfresh => ?_
  have hn := (h key hrec).2
  refine ⟨fun _ => ⟨?_, ?_, ?_, ?_, ?_⟩, ?_⟩
  · exact ⟨fun k hk => ⟨List.mem_cons_of_mem _ (h k hk).1, (h k hk).2⟩, fun _ ha => ha, fun hne => absurd rfl hne, fun _ => KeyReply.noConfusion⟩
  · exact .failed (known_of rfl List.mem_cons_self hn) (Nat.succ_ne_self _)
  · exact .failed (known_of rfl List.mem_cons_self hn) (by dsimp only; omega)
  · exact .failed (known_of rfl List.mem_cons_self hn) (by change w.writes + 1 + 2 ≠ w.writes; omega)
  · exact .failed (known_of rfl List.mem_cons_self hn) (by change w.writes + 1 + 2 + 1 ≠ w.writes; omega)
  · refine .done (known_of rfl List.mem_cons_self hn) (fun k he => ?_) fun _ => KeyReply.noConfusion
    cases he
    -- revoking the old hash does not touch the new one
    have hne : hash secret ≠ key.hash := fun he => hfresh (he ▸ (h key hrec).1)
    have ha := @agrees_assigned ((w.drawn (hash secret)).saved { key with hash := hash secret }) _ rfl _ rfl
    refine ⟨(update₂_of_ne _ hne _).trans ha.1, ?_⟩
    unfold KeyWorld.ownerOf KeyWorld.revoked
    dsimp only
    rw [update₂_of_ne _ hne]
    exact ha.2

theorem settled_delete {w : KeyWorld} (h : Known w) :
    Conc.after (KeyOp.run hash) (mayFail true) deleteKey (Settled w) w := by
  refine after_deleteKey (.unchanged h fun _ => KeyReply.noConfusion)
    (fun _ => .unchanged h fun _ => KeyReply.noConfusion) fun key hrec => ⟨fun _ => ⟨?_, ?_⟩, ?_⟩
  · exact .failed h (by dsimp only; omega)
  · exact .failed h (by change w.writes + 2 ≠ w.writes; omega)
  · exact .done (fun _ hk => (by cases hk)) (fun _ hk => (by cases hk)) fun _ => KeyReply.noConfusion

theorem settled_create {w : KeyWorld} (h : Known w) (cfg : GatewayConfig) (body : Except String KeyRequest) :
    Conc.after (KeyOp.run hash) (mayFail true) (createKey hash cfg body) (Settled w) w := by
  refine after_createKey (fun _ _ _ => .unchanged h fun _ => KeyReply.noConfusion) fun key secret hi ht _ =>
    ⟨fun _ => ⟨?_, ?_, ?_⟩, ?_⟩
  · exact ⟨fun k hk => (by have := (h k hk).1; rw [hi] at this; cases this), fun _ ha => ha, fun hne => absurd rfl hne, fun _ => KeyReply.noConfusion⟩
  · exact .failed (known_of rfl (List.mem_singleton_self _) ht) (Nat.succ_ne_self _)
  · exact .failed (known_of rfl (List.mem_singleton_self _) ht) (by dsimp only; omega)
  · exact .done (known_of rfl (List.mem_singleton_self _) ht) (agrees_assigned rfl) fun _ => KeyReply.noConfusion

/-- The stores agree unless the last request that wrote to them failed. -/
structure Effective (s : KeyHistory) : Prop where
  known : Known s.world
  agrees : s.torn = false → Agrees s.world
  updated : ∀ key, s.world.log.head? = some (.updated key) → s.world.record = some key ∧ Agrees s.world

theorem Effective.step {s s' : KeyHistory} (h : Effective s) {a : KeyCall × List KeyChoice} (hc : s.settles a)
    (hs : s.step hash a = some s') : Effective s' := by
  obtain ⟨⟨r, w⟩, hr, rfl⟩ := Option.map_eq_some_iff.mp hs
  have haft : Conc.after (KeyOp.run hash) (mayFail true) (a.1.handler hash) (Settled s.world) s.world := by
    obtain ⟨call, cs⟩ := a
    cases call with
    | create cfg body => exact settled_create h.known cfg body
    | update cfg body =>
      refine settled_update h.known cfg body fun req key hb hrec hsil => ?_
      subst hb
      unfold KeyHistory.settles at hc
      rw [hrec] at hc
      exact h.agrees (hc hsil)
    | rotate => exact settled_rotate h.known
    | delete => exact settled_delete h.known
  have hw := Conc.after_alone (fun _ _ _ _ => rfl) haft hr
  refine ⟨hw.known, fun ht => ?_, fun key hk => ?_⟩
  · dsimp only at ht ⊢
    split at ht
    · rename_i hsame
      exact hw.idle hsame (h.agrees ht)
    · rename_i hdiff
      exact hw.wrote hdiff (of_decide_eq_false ht)
  · cases hk
    exact hw.updated key rfl

/-- If an update that names no owner and no other tier is made only when the last request
that wrote to the stores did not fail, then an update that is reported has been made. -/
theorem update_takes_effect (hash : String → String) (id : String) {calls : List (KeyCall × List KeyChoice)}
    {s : KeyHistory} (hc : Along (KeyHistory.step hash) KeyHistory.settles (.init id) calls)
    (hr : runAll (KeyHistory.step hash) (.init id) calls = some s) {key : KeyRecord}
    (hl : s.world.log.head? = some (.updated key)) :
    s.world.record = some key ∧ s.world.tier key.group key.hash = some key.tier ∧
      s.world.ownerOf key.group key.hash = key.owner := by
  have hinit : Effective (.init id) :=
    ⟨fun _ hk => (by cases hk), fun _ _ hk => (by cases hk), fun _ hk => (by cases hk)⟩
  have hi : Effective s := Conc.inv_runAll (fun _ _ _ h hc hs => h.step hc hs) calls _ s hinit hc hr
  obtain ⟨hrec, ha⟩ := hi.updated key hl
  exact ⟨hrec, ha key hrec⟩

namespace KeySample

/-- A request to move the key to the paid tier, which goes through. -/
def upgrade : KeyCall × List KeyChoice :=
  (.update cfg (.ok ⟨none, some "pro", none, none⟩), [ok "", ok "", ok "", ok ""])

/-- The same, when the tier store cannot be reached. -/
def upgradeFails : KeyCall × List KeyChoice :=
  (.update cfg (.ok ⟨none, some "pro", none, none⟩), [ok "", ok "", ⟨true, ""⟩])

/-- The same again: the record has the tier already. -/
def upgradeAgain : KeyCall × List KeyChoice := (.update cfg (.ok ⟨none, some "pro", none, none⟩), [ok "", ok ""])

end KeySample

open KeySample in
theorem update_takes_effect_upgrade :
    ∃ (s : KeyHistory) (key : KeyRecord), runAll (KeyHistory.step id) (.init "id") [create, upgrade] = some s ∧ key.tier = "pro" ∧
      s.world.tier key.group key.hash = some key.tier := by
  have hn : (runAll (KeyHistory.step id) (.init "id") [create, upgrade]).map (fun s => s.world.log.head?) =
      some (some (.updated ⟨"id", "v1", "pro", "", "", "gk_id_a"⟩)) := by decide +kernel
  obtain ⟨s, hr, hl⟩ := Option.map_eq_some_iff.mp hn
  exact ⟨s, _, hr, rfl, (update_takes_effect id "id" (by decide +kernel) hr hl).2.1⟩

/-- A failed upgrade, tried again, is reported as made; the tier store still has the old tier. -/
theorem repeated_update_has_no_effect :
    (runAll (KeyHistory.step id) (.init "id") [KeySample.create, KeySample.upgradeFails, KeySample.upgradeAgain]).map
      (fun s => (s.world.log.head?, s.world.tier "v1" "gk_id_a")) =
      some (some (.updated ⟨"id", "v1", "pro", "", "", "gk_id_a"⟩), some "free") := by
  decide +kernel

end Effect

end Gate
