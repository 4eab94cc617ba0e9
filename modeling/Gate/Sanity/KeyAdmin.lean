import Mathlib.Tactic
import Gate.Spec.KeyAdmin

/-! What each store call of a key handler can end in, and what a handler run alone ends in:
one rule for each, so that the proofs about keys never unfold a handler. -/

namespace Gate

section Rules

variable {hash : String → String} {b : Bool} {w : KeyWorld}

theorem after_write {i : KeyOp} {w' : KeyWorld} {Q : Except StoreFailure Unit → KeyWorld → Prop}
    {ex : KeyChoice → Option (Except StoreFailure Unit × KeyWorld)} (hex : ∀ c, ex c = some (attemptWrite c w w')) :
    (∀ c r s, mayFail b i c w → ex c = some (r, s) → Q r s) ↔
      (b = true → Q (.error .failed) w) ∧ Q (.ok ()) { w' with writes := w.writes + 1 } := by
  constructor
  · intro h
    refine ⟨fun hb => h ⟨true, ""⟩ _ _ (fun _ => hb) (hex _), h ⟨false, ""⟩ _ _ (fun hf => ?_) (hex _)⟩
    cases hf
  · rintro ⟨h₁, h₂⟩ ⟨fails, random⟩ r s hm he
    rw [hex] at he
    cases fails with
    | true => cases he; exact h₁ (hm rfl)
    | false => cases he; exact h₂

@[simp] theorem after_loadKey {Q : Except StoreFailure (Option KeyRecord) → KeyWorld → Prop} :
    Conc.after (KeyOp.run hash) (mayFail b) loadKey Q w ↔ (b = true → Q (.error .failed) w) ∧ Q (.ok w.record) w := by
  constructor
  · intro h
    refine ⟨fun hb => h ⟨true, ""⟩ _ _ (fun _ => hb) rfl, h ⟨false, ""⟩ _ _ (fun hf => ?_) rfl⟩
    cases hf
  · rintro ⟨h₁, h₂⟩ ⟨fails, random⟩ r s hm he
    cases fails with
    | true => cases he; exact h₁ (hm rfl)
    | false => cases he; exact h₂

@[simp] theorem after_saveKey {key : KeyRecord} {Q : Except StoreFailure Unit → KeyWorld → Prop} :
    Conc.after (KeyOp.run hash) (mayFail b) (saveKey key) Q w ↔ (b = true → Q (.error .failed) w) ∧
      Q (.ok ()) { w with record := some key, writes := w.writes + 1 } := after_write fun _ => rfl

@[simp] theorem after_deleteRecord {Q : Except StoreFailure Unit → KeyWorld → Prop} :
    Conc.after (KeyOp.run hash) (mayFail b) deleteRecord Q w ↔ (b = true → Q (.error .failed) w) ∧
      Q (.ok ()) { w with record := none, writes := w.writes + 1 } := after_write fun _ => rfl

@[simp] theorem after_setTier {g h t : String} {Q : Except StoreFailure Unit → KeyWorld → Prop} :
    Conc.after (KeyOp.run hash) (mayFail b) (setTier g h t) Q w ↔ (b = true → Q (.error .failed) w) ∧
      Q (.ok ()) { w with tier := update₂ w.tier g h (some t), writes := w.writes + 1 } := after_write fun _ => rfl

@[simp] theorem after_deleteTier {g h : String} {Q : Except StoreFailure Unit → KeyWorld → Prop} :
    Conc.after (KeyOp.run hash) (mayFail b) (deleteTier g h) Q w ↔ (b = true → Q (.error .failed) w) ∧
      Q (.ok ()) { w with tier := update₂ w.tier g h none, writes := w.writes + 1 } := after_write fun _ => rfl

@[simp] theorem after_setOwner {g h o : String} {Q : Except StoreFailure Unit → KeyWorld → Prop} :
    Conc.after (KeyOp.run hash) (mayFail b) (setOwner g h o) Q w ↔ (b = true → Q (.error .failed) w) ∧
      Q (.ok ()) { w with owner := update₂ w.owner g h (if o = "" then none else some o), writes := w.writes + 1 } :=
  after_write fun _ => rfl

theorem after_newKey {Q : String × String → KeyWorld → Prop} :
    (∀ secret, w.issued = [] → Q (w.id, secret) { w with issued := [hash secret] }) →
      Conc.after (KeyOp.run hash) (mayFail b) newKey Q w := by
  intro h c r s _ hx
  have hx' : (if w.issued = [] then some ((w.id, keysRotate w.id c.random),
      { w with issued := [hash (keysRotate w.id c.random)] }) else none) = some (r, s) := hx
  split at hx'
  · rename_i hi
    cases hx'
    exact h _ hi
  · cases hx'

theorem after_newSecret {id : String} {Q : String → KeyWorld → Prop} :
    (∀ secret, hash secret ∉ w.issued → Q secret { w with issued := hash secret :: w.issued }) →
      Conc.after (KeyOp.run hash) (mayFail b) (newSecret id) Q w := by
  intro h c r s _ hx
  have hx' : (if hash (keysRotate id c.random) ∈ w.issued then none else some (keysRotate id c.random,
      { w with issued := hash (keysRotate id c.random) :: w.issued })) = some (r, s) := hx
  split at hx'
  · cases hx'
  · rename_i hi
    cases hx'
    exact h _ hi

@[simp] theorem after_reply {r : KeyReply} {Q : Unit → KeyWorld → Prop} :
    Conc.after (KeyOp.run hash) (mayFail b) (KeyOp.reply r).call Q w ↔ Q () { w with log := r :: w.log } := by
  constructor
  · intro h
    refine h ⟨false, ""⟩ _ _ (fun hf => ?_) rfl
    cases hf
  · intro h c x s _ hx
    cases hx
    exact h

/-- The stores after a hash has been given a tier and an owner. -/
def KeyWorld.assigned (w : KeyWorld) (g h t o : String) : KeyWorld :=
  { w with tier := update₂ w.tier g h (some t), owner := update₂ w.owner g h (if o = "" then none else some o),
           writes := w.writes + 2 }

/-- The stores after a hash has been revoked. -/
def KeyWorld.revoked (w : KeyWorld) (g h : String) : KeyWorld :=
  { w with tier := update₂ w.tier g h none, owner := update₂ w.owner g h none, writes := w.writes + 2 }

theorem after_assign {g h t o : String} (ht : t ≠ "") {Q : Except StoreFailure Unit → KeyWorld → Prop} :
    Conc.after (KeyOp.run hash) (mayFail b) (assign g h t (some o)) Q w ↔
      (b = true → Q (.error .failed) w ∧
        Q (.error .failed) { w with tier := update₂ w.tier g h (some t), writes := w.writes + 1 }) ∧
      Q (.ok ()) (w.assigned g h t o) := by
  simp only [assign, if_neg ht, Conc.after_bind, after_setTier, after_setOwner, Conc.after_pure]
  constructor
  · rintro ⟨h₁, h₂, h₃⟩
    exact ⟨fun hb => ⟨h₁ hb, h₂ hb⟩, h₃⟩
  · rintro ⟨h₁, h₂⟩
    exact ⟨fun hb => (h₁ hb).1, fun hb => (h₁ hb).2, h₂⟩

theorem after_revoke {g h : String} {o : Option String} {Q : Except StoreFailure Unit → KeyWorld → Prop} :
    Conc.after (KeyOp.run hash) (mayFail b) (assign g h "" o) Q w ↔
      (b = true → Q (.error .failed) w ∧
        Q (.error .failed) { w with tier := update₂ w.tier g h none, writes := w.writes + 1 }) ∧
      Q (.ok ()) (w.revoked g h) := by
  simp only [assign, if_true, Conc.after_bind, after_deleteTier, after_setOwner, Conc.after_pure]
  constructor
  · rintro ⟨h₁, h₂, h₃⟩
    exact ⟨fun hb => ⟨h₁ hb, h₂ hb⟩, h₃⟩
  · rintro ⟨h₁, h₂⟩
    exact ⟨fun hb => (h₁ hb).1, fun hb => (h₁ hb).2, h₂⟩

/-- A handler that begins with the record answers on its own if there is none, and otherwise
goes on with it. -/
theorem after_keyFromPath {f : KeyRecord → KeyProg KeyReply} {Q : KeyReply → KeyWorld → Prop}
    (hfail : Q internalError w) (hnone : w.record = none → Q (.problem 404 "no_such_key" "") w)
    (hsome : ∀ key, w.record = some key → Conc.after (KeyOp.run hash) (mayFail b) (f key) Q w) :
    Conc.after (KeyOp.run hash) (mayFail b) (keyFromPath >>= fun r => match r with
      | .error r => pure r
      | .ok key => f key) Q w := by
  simp only [keyFromPath, Conc.after_bind, after_loadKey, Conc.after_pure]
  refine ⟨fun _ => hfail, ?_⟩
  cases hrec : w.record with
  | none => exact hnone hrec
  | some key => exact hsome key hrec

/-- The stores after a record has been saved. -/
def KeyWorld.saved (w : KeyWorld) (key : KeyRecord) : KeyWorld := { w with record := some key, writes := w.writes + 1 }

/-- The stores while a new secret is in the handler's hands. -/
def KeyWorld.drawn (w : KeyWorld) (hash : String) : KeyWorld := { w with issued := hash :: w.issued }

theorem patch_tier_ne {cfg : GatewayConfig} {key : KeyRecord} {req : KeyRequest} (ht : key.tier ≠ "")
    (h : ¬(req.tierChanged key && !tierDefinedInPrefix cfg key.group (deref req.tier)) = true) :
    (key.patch req).tier ≠ "" := by
  unfold KeyRecord.patch
  dsimp only
  split
  · rename_i hc
    rw [hc, Bool.true_and, Bool.not_eq_true, Bool.not_eq_false'] at h
    unfold tierDefinedInPrefix at h
    rw [Bool.and_eq_true] at h
    exact of_decide_eq_true h.1
  · exact ht

theorem patch_silent {key : KeyRecord} {req : KeyRequest} (h : req.Silent key) :
    (key.patch req).tier = key.tier ∧ (key.patch req).owner = key.owner := by
  unfold KeyRecord.patch
  simp [h.1, h.2]

theorem silent_iff {key : KeyRecord} {req : KeyRequest} :
    (req.tierChanged key || req.owner.isSome) = true ↔ ¬req.Silent key := by
  unfold KeyRequest.Silent
  cases req.tierChanged key <;> cases req.owner <;> simp

variable {Q : KeyReply → KeyWorld → Prop}

theorem after_updateKey {cfg : GatewayConfig} {body : Except String KeyRequest}
    (ht : ∀ key, w.record = some key → key.tier ≠ "") (hstay : ∀ r, (∀ key, r ≠ .updated key) → r ≠ .noContent →
      (∀ key s, r ≠ .rotated key s) → Q r w)
    (hsilent : ∀ key req, w.record = some key → body = .ok req → req.Silent key →
      Q (.updated (key.patch req)) (w.saved (key.patch req)))
    (hassign : ∀ key req, w.record = some key → (key.patch req).tier ≠ "" →
      (b = true → Q internalError (w.saved (key.patch req)) ∧
        Q internalError { w.saved (key.patch req) with
          tier := update₂ w.tier key.group key.hash (some (key.patch req).tier), writes := w.writes + 1 + 1 }) ∧
      Q (.updated (key.patch req))
        ((w.saved (key.patch req)).assigned key.group key.hash (key.patch req).tier (key.patch req).owner)) :
    Conc.after (KeyOp.run hash) (mayFail b) (updateKey cfg body) Q w := by
  have hproblem : ∀ status code detail, Q (.problem status code detail) w := fun _ _ _ =>
    hstay _ (fun _ => KeyReply.noConfusion) KeyReply.noConfusion fun _ _ => KeyReply.noConfusion
  refine after_keyFromPath (hproblem _ _ _) (fun _ => hproblem _ _ _) fun key hrec => ?_
  cases body with
  | error e => exact hproblem _ _ _
  | ok req =>
    dsimp only
    rw [Conc.after_ite]
    split
    · exact hproblem _ _ _
    rw [Conc.after_ite]
    split
    · exact hproblem _ _ _
    · rename_i hdef
      have hne := patch_tier_ne (ht key hrec) hdef
      rw [Conc.after_bind, after_saveKey]
      refine ⟨fun _ => hproblem _ _ _, ?_⟩
      dsimp only
      rw [Conc.after_ite]
      split
      · rw [Conc.after_bind, after_assign hne]
        exact hassign key req hrec hne
      · rename_i hs
        rw [silent_iff, not_not] at hs
        exact hsilent key req hrec rfl hs

theorem after_rotateKey (ht : ∀ key, w.record = some key → key.tier ≠ "") (hfail : Q internalError w)
    (hnone : w.record = none → Q (.problem 404 "no_such_key" "") w)
    (hrotate : ∀ key secret, w.record = some key → hash secret ∉ w.issued →
      let key' := { key with hash := hash secret }
      let w₁ := (w.drawn (hash secret)).saved key'
      let w₂ := w₁.assigned key.group (hash secret) key.tier key.owner
      (b = true → Q internalError (w.drawn (hash secret)) ∧ Q internalError w₁ ∧
        Q internalError { w₁ with
          tier := update₂ w.tier key.group (hash secret) (some key.tier), writes := w.writes + 1 + 1 } ∧
        Q internalError w₂ ∧
        Q internalError { w₂ with tier := update₂ w₂.tier key.group key.hash none, writes := w₂.writes + 1 }) ∧
      Q (.rotated key' secret) (w₂.revoked key.group key.hash)) :
    Conc.after (KeyOp.run hash) (mayFail b) (rotateKey hash) Q w := by
  refine after_keyFromPath hfail hnone fun key hrec => ?_
  rw [Conc.after_bind]
  refine after_newSecret fun secret hfresh => ?_
  obtain ⟨hbad, hgood⟩ := hrotate key secret hrec hfresh
  dsimp only
  rw [Conc.after_bind, after_saveKey]
  refine ⟨fun hb => (hbad hb).1, ?_⟩
  dsimp only
  rw [Conc.after_bind, after_assign (ht key hrec)]
  refine ⟨fun hb => ⟨(hbad hb).2.1, (hbad hb).2.2.1⟩, ?_⟩
  dsimp only
  rw [Conc.after_bind, after_revoke]
  exact ⟨fun hb => ⟨(hbad hb).2.2.2.1, (hbad hb).2.2.2.2⟩, hgood⟩

theorem after_deleteKey (hfail : Q internalError w) (hnone : w.record = none → Q (.problem 404 "no_such_key" "") w)
    (hdelete : ∀ key, w.record = some key →
      (b = true → Q internalError { w with tier := update₂ w.tier key.group key.hash none, writes := w.writes + 1 } ∧
        Q internalError (w.revoked key.group key.hash)) ∧
      Q .noContent { w.revoked key.group key.hash with record := none, writes := w.writes + 2 + 1 }) :
    Conc.after (KeyOp.run hash) (mayFail b) deleteKey Q w := by
  refine after_keyFromPath hfail hnone fun key hrec => ?_
  obtain ⟨hbad, hgood⟩ := hdelete key hrec
  rw [Conc.after_bind, after_revoke]
  refine ⟨fun hb => ⟨hfail, (hbad hb).1⟩, ?_⟩
  dsimp only
  rw [Conc.after_bind, after_deleteRecord]
  exact ⟨fun hb => (hbad hb).2, hgood⟩

theorem after_createKey {cfg : GatewayConfig} {body : Except String KeyRequest}
    (hproblem : ∀ status code detail, Q (.problem status code detail) w)
    (hcreate : ∀ key secret, w.issued = [] → key.tier ≠ "" → key.hash = hash secret →
      (b = true → Q internalError { w with issued := [key.hash] } ∧
        Q internalError (({ w with issued := [key.hash] } : KeyWorld).saved key) ∧
        Q internalError { ({ w with issued := [key.hash] } : KeyWorld).saved key with
          tier := update₂ w.tier key.group key.hash (some key.tier), writes := w.writes + 1 + 1 }) ∧
      Q (.created key secret) ((({ w with issued := [key.hash] } : KeyWorld).saved key).assigned key.group key.hash
        key.tier key.owner)) :
    Conc.after (KeyOp.run hash) (mayFail b) (createKey hash cfg body) Q w := by
  unfold createKey
  cases body with
  | error e => exact hproblem _ _ _
  | ok req =>
    dsimp only
    rw [Conc.after_ite]
    split
    · exact hproblem _ _ _
    rw [Conc.after_ite]
    split
    · exact hproblem _ _ _
    · rename_i hdef
      have hne : deref req.tier ≠ "" := by
        rw [Bool.not_eq_true, Bool.not_eq_false'] at hdef
        unfold tierDefinedInPrefix at hdef
        rw [Bool.and_eq_true] at hdef
        exact of_decide_eq_true hdef.1
      rw [Conc.after_bind]
      refine after_newKey fun secret hi => ?_
      obtain ⟨hbad, hgood⟩ := hcreate ⟨w.id, deref req.group, deref req.tier, deref req.owner, deref req.name,
        hash secret⟩ secret hi hne rfl
      dsimp only
      rw [Conc.after_bind, after_saveKey]
      refine ⟨fun hb => (hbad hb).1, ?_⟩
      dsimp only
      rw [Conc.after_bind, after_assign hne]
      exact ⟨fun hb => (hbad hb).2, hgood⟩

end Rules

end Gate
