import Gate.Spec.Migration

/-! The migration, with the admin API at work. Each thread knows of some IDs that they are done: they
have been copied, or were no legacy keys. It writes to the new layout and deletes from the old one
only for such IDs, and a record is copied while its ID is not done. -/

namespace Gate

open Conc (Along runAll Logic Pool)

/-- What a thread knows: IDs that are done, and IDs whose record it deleted. -/
structure LayoutFacts where
  done : Set String
  gone : Set String

namespace LayoutFacts

def none : LayoutFacts := ⟨∅, ∅⟩

def addDone (g : LayoutFacts) (ids : List String) : LayoutFacts := { g with done := g.done ∪ { id | id ∈ ids } }

def addGone (g : LayoutFacts) (id : String) : LayoutFacts := { g with gone := insert id g.gone }

end LayoutFacts

variable {l : LegacyLayout}

section Rules

variable (l)

/-- What a thread needs to know. -/
def LayoutOp.needs : LayoutOp → LayoutFacts → Prop
  | .key id (.save _), g => id ∈ g.done
  | .key id .deleteRecord, g => id ∈ g.done
  | .key id (.reply .noContent), g => id ∈ g.gone
  | .copy id _, _ => l.legacy id ≠ none
  | .legacyDel id, g => id ∈ g.done
  | .delIndex, g => ∀ id ∈ l.index, id ∈ g.done
  | .returnNil, g => ∀ id ∈ l.index, id ∈ g.done
  | _, _ => True

/-- And what it learns from the answer. -/
def LayoutOp.learns : (i : LayoutOp) → LayoutFacts → i.Answer → LayoutFacts
  | .key id .load, g, .ok (some _) => g.addDone [id]
  | .key id .newKey, g, _ => g.addDone [id]
  | .key id .deleteRecord, g, .ok _ => g.addGone id
  | .members, g, .ok [] => g.addDone l.index
  | .legacyGet id, g, .ok none => g.addDone [id]
  | .copy id _, g, .ok _ => g.addDone [id]
  | _, g, _ => g

def LayoutOp.tells : (i : LayoutOp) → i.Answer → Prop
  | .members, .ok (id :: ids) => (id :: ids).Perm l.index
  | .legacyGet id, .ok (some _) => l.legacy id ≠ none
  | _, _ => True

def layoutLogic : Logic LayoutOp.Answer LayoutFacts where
  pre := LayoutOp.needs l
  post i g r g' := g' = i.learns l g r ∧ i.tells l r

/-! ### The threads keep to the rules -/

abbrev requestLogic (id : String) : Logic KeyOp.Answer LayoutFacts := (layoutLogic l).comap (LayoutOp.key id)

variable {l} {id : String} {g : LayoutFacts}

theorem wp_keyOp {i : KeyOp} {Q : i.Answer → LayoutFacts → Prop} (hneeds : (LayoutOp.key id i).needs l g)
    (h : ∀ r, Q r ((LayoutOp.key id i).learns l g r)) : (requestLogic l id).wp i.call Q g := by
  refine ⟨hneeds, fun r g' hr => ?_⟩
  rw [hr.1]
  exact h r

theorem wp_assign {group hash tier : String} {owner : Option String}
    {Q : Except StoreFailure Unit → LayoutFacts → Prop} (h : ∀ r, Q r g) :
    (requestLogic l id).wp (assign group hash tier owner) Q g := by
  unfold assign
  split
  · rw [Logic.wp_bind]
    refine wp_keyOp trivial fun r => ?_
    cases r with
    | error e => exact h _
    | ok u => exact wp_keyOp trivial h
  · rw [Logic.wp_bind]
    refine wp_keyOp trivial fun r => ?_
    cases r with
    | error e => exact h _
    | ok u =>
      cases owner with
      | none => exact h _
      | some o => exact wp_keyOp trivial h

theorem wp_keyFromPath {Q : Except KeyReply KeyRecord → LayoutFacts → Prop} (herr : ∀ r, r ≠ .noContent → Q (.error r) g)
    (hok : ∀ key, Q (.ok key) (g.addDone [id])) : (requestLogic l id).wp keyFromPath Q g := by
  unfold keyFromPath
  rw [Logic.wp_bind]
  refine wp_keyOp trivial fun r => ?_
  match r with
  | .error e => exact herr _ KeyReply.noConfusion
  | .ok none => exact herr _ KeyReply.noConfusion
  | .ok (some key) => exact hok key

/-- A handler that does not answer 204 without having deleted the record. -/
def Answers (id : String) (r : KeyReply) (g : LayoutFacts) : Prop := r = .noContent → id ∈ g.gone

theorem answers_of_ne {r : KeyReply} (h : r ≠ .noContent) : Answers id r g := fun he => absurd he h

theorem wp_createKey (hash : String → String) (cfg : GatewayConfig) (body : Except String KeyRequest) :
    (requestLogic l id).wp (createKey hash cfg body) (Answers id) g := by
  unfold createKey
  cases body with
  | error e => exact answers_of_ne KeyReply.noConfusion
  | ok req =>
    dsimp only
    split
    · exact answers_of_ne KeyReply.noConfusion
    split
    · exact answers_of_ne KeyReply.noConfusion
    rw [Logic.wp_bind]
    refine wp_keyOp trivial fun r => ?_
    rw [Logic.wp_bind]
    refine wp_keyOp (.inr List.mem_cons_self) fun r => ?_
    cases r with
    | error e => exact answers_of_ne KeyReply.noConfusion
    | ok u =>
      dsimp only
      rw [Logic.wp_bind]
      refine wp_assign fun r => ?_
      cases r <;> exact answers_of_ne KeyReply.noConfusion

theorem wp_updateKey (cfg : GatewayConfig) (body : Except String KeyRequest) :
    (requestLogic l id).wp (updateKey cfg body) (Answers id) g := by
  unfold updateKey
  rw [Logic.wp_bind]
  refine wp_keyFromPath (fun r hr => answers_of_ne hr) fun key => ?_
  cases body with
  | error e => exact answers_of_ne KeyReply.noConfusion
  | ok req =>
    dsimp only
    split
    · exact answers_of_ne KeyReply.noConfusion
    split
    · exact answers_of_ne KeyReply.noConfusion
    rw [Logic.wp_bind]
    refine wp_keyOp (.inr List.mem_cons_self) fun r => ?_
    cases r with
    | error e => exact answers_of_ne KeyReply.noConfusion
    | ok u =>
      dsimp only
      split
      · rw [Logic.wp_bind]
        refine wp_assign fun r => ?_
        cases r <;> exact answers_of_ne KeyReply.noConfusion
      · exact answers_of_ne KeyReply.noConfusion

theorem wp_rotateKey (hash : String → String) : (requestLogic l id).wp (rotateKey hash) (Answers id) g := by
  unfold rotateKey
  rw [Logic.wp_bind]
  refine wp_keyFromPath (fun r hr => answers_of_ne hr) fun key => ?_
  dsimp only
  rw [Logic.wp_bind]
  refine wp_keyOp trivial fun secret => ?_
  rw [Logic.wp_bind]
  refine wp_keyOp (.inr List.mem_cons_self) fun r => ?_
  cases r with
  | error e => exact answers_of_ne KeyReply.noConfusion
  | ok u =>
    dsimp only
    rw [Logic.wp_bind]
    refine wp_assign fun r => ?_
    cases r with
    | error e => exact answers_of_ne KeyReply.noConfusion
    | ok u =>
      dsimp only
      rw [Logic.wp_bind]
      refine wp_assign fun r => ?_
      cases r <;> exact answers_of_ne KeyReply.noConfusion

theorem wp_deleteKey : (requestLogic l id).wp deleteKey (Answers id) g := by
  unfold deleteKey
  rw [Logic.wp_bind]
  refine wp_keyFromPath (fun r hr => answers_of_ne hr) fun key => ?_
  dsimp only
  rw [Logic.wp_bind]
  refine wp_assign fun r => ?_
  cases r with
  | error e => exact answers_of_ne KeyReply.noConfusion
  | ok u =>
    dsimp only
    rw [Logic.wp_bind]
    refine wp_keyOp (.inr List.mem_cons_self) fun r => ?_
    cases r with
    | error e => exact answers_of_ne KeyReply.noConfusion
    | ok u => exact fun _ => Set.mem_insert _ _

theorem wp_request (hash : String → String) (call : KeyCall) :
    (layoutLogic l).wp ((LayoutStart.request id call).thread hash) (fun _ _ => True) g := by
  rw [LayoutStart.thread, Logic.wp_hoist]
  unfold KeyCall.thread
  rw [Logic.wp_bind]
  have hreply : ∀ r g, Answers id r g → (requestLogic l id).wp (KeyOp.reply r).call (fun _ _ => True) g := by
    intro r g hr
    refine wp_keyOp ?_ fun _ => trivial
    cases r with
    | noContent => exact hr rfl
    | _ => trivial
  refine Logic.wp_mono _ hreply ?_
  cases call with
  | create cfg body => exact wp_createKey hash cfg body
  | update cfg body => exact wp_updateKey cfg body
  | rotate => exact wp_rotateKey hash
  | delete => exact wp_deleteKey

theorem wp_layoutOp {i : LayoutOp} {Q : i.Answer → LayoutFacts → Prop} (hneeds : i.needs l g)
    (h : ∀ r, i.tells l r → Q r (i.learns l g r)) : (layoutLogic l).wp i.call Q g := by
  refine ⟨hneeds, fun r g' hr => ?_⟩
  rw [hr.1]
  exact h r hr.2

/-- The run has the IDs that are left to go through, and all others are done. -/
theorem wp_migrateEach (ids : List String) (h : ∀ x ∈ l.index, x ∈ ids ∨ x ∈ g.done) :
    (layoutLogic l).wp (migrateEach ids) (fun r g' => r = .ok () → ∀ x ∈ l.index, x ∈ g'.done) g := by
  induction ids generalizing g with
  | nil =>
    have hall : ∀ x ∈ l.index, x ∈ g.done := fun x hx => (h x hx).resolve_left List.not_mem_nil
    exact wp_layoutOp hall fun _ _ _ => hall
  | cons id ids ih =>
    -- the ID is done, and the others as before
    have hnext : ∀ x ∈ l.index, x ∈ ids ∨ x ∈ (g.addDone [id]).done := by
      intro x hx
      rcases h x hx with hm | hd
      · rcases List.mem_cons.mp hm with rfl | hm
        · exact .inr (.inr List.mem_cons_self)
        · exact .inl hm
      · exact .inr (.inl hd)
    unfold migrateEach
    rw [Logic.wp_bind]
    refine wp_layoutOp trivial fun r hr => ?_
    match r with
    | .error e => exact fun he => nomatch he
    | .ok none => exact ih hnext
    | .ok (some key) =>
      dsimp only
      rw [Logic.wp_bind]
      refine wp_layoutOp hr fun r _ => ?_
      cases r with
      | error e => exact fun he => nomatch he
      | ok u =>
        dsimp only
        rw [Logic.wp_bind]
        refine wp_layoutOp (.inr List.mem_cons_self) fun r _ => ?_
        cases r with
        | error e => exact fun he => nomatch he
        | ok u => exact ih hnext

theorem wp_migrate : (layoutLogic l).wp migrateThread (fun _ _ => True) g := by
  have hrun : (layoutLogic l).wp migrateKeyLayout (fun r g' => r = .ok () → ∀ x ∈ l.index, x ∈ g'.done) g := by
    unfold migrateKeyLayout
    rw [Logic.wp_bind]
    refine wp_layoutOp trivial fun r hr => ?_
    match r with
    | .error e => exact fun he => nomatch he
    | .ok [] => exact fun _ x hx => .inr hx
    | .ok (id :: ids) => exact wp_migrateEach _ fun x hx => .inl (hr.mem_iff.mpr hx)
  unfold migrateThread
  rw [Logic.wp_bind]
  refine Logic.wp_mono _ (fun r g' h => ?_) hrun
  cases r with
  | error e => trivial
  | ok u => exact wp_layoutOp (h rfl) fun _ _ => trivial

end Rules

/-! ### What a step keeps -/

/-- Copied, or no legacy key. -/
def Layout.Done (l : LegacyLayout) (w : Layout) (id : String) : Prop := l.legacy id = none ∨ .copied id ∈ w.events

/-- What a thread knows is so. -/
def Layout.Backs (l : LegacyLayout) (w : Layout) (g : LayoutFacts) : Prop :=
  (∀ id ∈ g.done, w.Done l id) ∧ ∀ id ∈ g.gone, .deleted id ∈ w.events

/-- One key: where its record is, and what happened to it. -/
structure Migrating (l : LegacyLayout) (w : Layout) (id : String) : Prop where
  legacy : w.legacy id = l.legacy id ∨ w.legacy id = none ∧ w.Done l id
  record : (w.keys id).record ≠ none → w.Done l id
  issued : l.legacy id ≠ none → (w.keys id).issued ≠ []
  indexed : w.indexed id = (w.keys id).record.isSome
  kept : .copied id ∈ w.events → .deleted id ∈ w.events ∨ (w.keys id).record ≠ none
  deleted : .deleted id ∈ w.events → w.Done l id ∧ (w.keys id).record = none
  saved : .saved id ∈ w.events → w.Done l id
  replied : .noContent ∈ (w.keys id).log → .deleted id ∈ w.events

structure Migration (l : LegacyLayout) (w : Layout) (gs : List LayoutFacts) : Prop where
  key : ∀ id, Migrating l w id
  index : w.legacyIndex = l.index ∨ w.legacyIndex = [] ∧ ∀ id ∈ l.index, w.Done l id
  finished : .finished ∈ w.events → ∀ id ∈ l.index, w.Done l id
  /-- newest first: no copy comes after a save of the same record -/
  copies : w.events.Pairwise fun e e' => ∀ id, e = .copied id → e' ≠ .saved id
  facts : ∀ g ∈ gs, w.Backs l g

section Steps

variable {w w' : Layout} {gs : List LayoutFacts} {id : String}

theorem Layout.Done.mono {id : String} (h : w.Done l id) (he : ∀ e ∈ w.events, e ∈ w'.events) : w'.Done l id :=
  h.imp_right (he _)

theorem Layout.Backs.mono {g : LayoutFacts} (h : w.Backs l g) (he : ∀ e ∈ w.events, e ∈ w'.events) : w'.Backs l g :=
  ⟨fun x hm => (h.1 x hm).mono he, fun x hm => he _ (h.2 x hm)⟩

theorem Layout.Backs.addDone {g : LayoutFacts} {ids : List String} (h : w.Backs l g) (hd : ∀ x ∈ ids, w.Done l x) :
    w.Backs l (g.addDone ids) :=
  ⟨fun x hx => hx.elim (h.1 x) (hd x), h.2⟩

theorem Layout.Backs.addGone {g : LayoutFacts} (h : w.Backs l g) (hd : .deleted id ∈ w.events) : w.Backs l (g.addGone id) := by
  refine ⟨h.1, fun x hx => ?_⟩
  rcases hx with rfl | hx
  · exact hd
  · exact h.2 x hx

/-- A key that a step left alone. -/
theorem Migrating.frame (h : Migrating l w id) (hk : w'.keys id = w.keys id) (hi : w'.indexed id = w.indexed id)
    (hl : w'.legacy id = w.legacy id) (es : List LayoutEvent) (he : w'.events = es ++ w.events)
    (hes : .copied id ∉ es ∧ .saved id ∉ es ∧ .deleted id ∉ es) : Migrating l w' id := by
  have hmem : ∀ {e}, e ∉ es → (e ∈ w'.events ↔ e ∈ w.events) := fun hn => by
    rw [he, List.mem_append, or_iff_right hn]
  have hdone : w'.Done l id ↔ w.Done l id := or_congr_right (hmem hes.1)
  constructor
  · rw [hl, hdone]
    exact h.legacy
  · rw [hk, hdone]
    exact h.record
  · rw [hk]
    exact h.issued
  · rw [hi, hk]
    exact h.indexed
  · rw [hmem hes.1, hmem hes.2.2, hk]
    exact h.kept
  · rw [hmem hes.2.2, hdone, hk]
    exact h.deleted
  · rw [hmem hes.2.1, hdone]
    exact h.saved
  · rw [hmem hes.2.2, hk]
    exact h.replied

/-- Nothing but one key changes, and the events are noted. -/
theorem Migration.change (h : Migration l w gs) (id : String) (es : List LayoutEvent) (hown : Migrating l w' id)
    (hk : ∀ x, x ≠ id → w'.keys x = w.keys x) (hi : ∀ x, x ≠ id → w'.indexed x = w.indexed x)
    (hl : ∀ x, x ≠ id → w'.legacy x = w.legacy x) (hx : w'.legacyIndex = w.legacyIndex) (he : w'.events = es ++ w.events)
    (hes : ∀ x, x ≠ id → .copied x ∉ es ∧ .saved x ∉ es ∧ .deleted x ∉ es) (hfin : .finished ∉ es)
    (hc : w'.events.Pairwise fun e e' => ∀ id, e = .copied id → e' ≠ .saved id) : Migration l w' gs := by
  have hsub : ∀ e ∈ w.events, e ∈ w'.events := fun e hm => he ▸ List.mem_append_right _ hm
  refine ⟨fun x => ?_, ?_, fun hf x hx => ?_, hc, fun g hg => ?_⟩
  · by_cases hxid : x = id
    · rw [hxid]
      exact hown
    · exact (h.key x).frame (hk x hxid) (hi x hxid) (hl x hxid) es he (hes x hxid)
  · rw [hx]
    exact h.index.imp_right fun hn => ⟨hn.1, fun x hm => (hn.2 x hm).mono hsub⟩
  · rw [he, List.mem_append, or_iff_right hfin] at hf
    exact (h.finished hf x hx).mono hsub
  · exact (h.facts g hg).mono hsub

/-- A call of a request that leaves the record alone; a 204 is answered only for a deleted one. -/
theorem Migration.touch {key : KeyWorld} (h : Migration l w gs) (hrec : key.record = (w.keys id).record)
    (hissued : (w.keys id).issued ≠ [] → key.issued ≠ []) (hlog : .noContent ∈ key.log → .deleted id ∈ w.events) :
    Migration l (w.setKey id key) gs := by
  have hown := h.key id
  have hkey : (w.setKey id key).keys id = key := Function.update_self _ _ _
  refine h.change id [] ?_ (fun x hx => Function.update_of_ne hx _ _) (fun _ _ => rfl) (fun _ _ => rfl)
    rfl rfl (fun _ _ => ⟨List.not_mem_nil, List.not_mem_nil, List.not_mem_nil⟩) List.not_mem_nil h.copies
  constructor
  · exact hown.legacy
  · rw [hkey, hrec]
    exact hown.record
  · rw [hkey]
    exact fun hne => hissued (hown.issued hne)
  · rw [hkey, hrec]
    exact hown.indexed
  · rw [hkey, hrec]
    exact hown.kept
  · rw [hkey, hrec]
    exact hown.deleted
  · exact hown.saved
  · rw [hkey]
    exact hlog

theorem notMem_others {e : LayoutEvent} {id x : String} (hx : x ≠ id)
    (he : e = .copied id ∨ e = .saved id ∨ e = .deleted id) :
    .copied x ∉ [e] ∧ .saved x ∉ [e] ∧ .deleted x ∉ [e] := by
  rcases he with rfl | rfl | rfl <;> simp [hx]

/-- A record is written, by a request or by a run. -/
theorem Migration.write {key : KeyWorld} {e : LayoutEvent} (h : Migration l w gs) (he : e = .copied id ∨ e = .saved id)
    (hdone : e = .saved id → w.Done l id) (hnew : e = .copied id → l.legacy id ≠ none ∧ .copied id ∉ w.events)
    (hdel : e = .saved id → .deleted id ∉ w.events) (hrec : key.record ≠ none)
    (hissued : key.issued = (w.keys id).issued) (hlog : key.log = (w.keys id).log) :
    Migration l (((w.setKey id key).setIndexed id true).note e) gs := by
  have hown := h.key id
  have hkey : (((w.setKey id key).setIndexed id true).note e).keys id = key := Function.update_self _ _ _
  have hsub : ∀ e' ∈ w.events, e' ∈ (((w.setKey id key).setIndexed id true).note e).events :=
    fun _ hm => List.mem_cons_of_mem _ hm
  have hdone' : Layout.Done l (((w.setKey id key).setIndexed id true).note e) id := by
    rcases he with rfl | rfl
    · exact .inr List.mem_cons_self
    · exact (hdone rfl).mono hsub
  have hnotDone : e = .copied id → ¬ w.Done l id := fun hc hd => hd.elim (hnew hc).1 (hnew hc).2
  -- a record that is written was not deleted before
  have hnotDel : .deleted id ∉ (((w.setKey id key).setIndexed id true).note e).events := by
    intro hm
    rcases List.mem_cons.mp hm with hm | hm
    · rcases he with rfl | rfl <;> cases hm
    · rcases he with hc | hc
      · exact hnotDone hc (hown.deleted hm).1
      · exact hdel hc hm
  refine h.change id [e] ?_ (fun x hx => Function.update_of_ne hx _ _)
    (fun x hx => Function.update_of_ne hx _ _) (fun _ _ => rfl) rfl rfl
    (fun x hx => notMem_others hx (he.imp_right .inl)) (by rcases he with rfl | rfl <;> simp) ?_
  · constructor
    · exact hown.legacy.imp_right fun hn => ⟨hn.1, hdone'⟩
    · exact fun _ => hdone'
    · rw [hkey, hissued]
      exact hown.issued
    · rw [hkey, Option.isSome_iff_ne_none.mpr hrec]
      exact Function.update_self _ _ _
    · rw [hkey]
      exact fun _ => .inr hrec
    · exact fun hm => absurd hm hnotDel
    · exact fun _ => hdone'
    · rw [hkey, hlog]
      exact fun hm => hsub _ (hown.replied hm)
  · refine List.pairwise_cons.mpr ⟨fun e' hm x hc hs => ?_, h.copies⟩
    have hid : x = id := by
      rcases he with rfl | rfl
      · cases hc
        rfl
      · cases hc
    rw [hid] at hc hs
    exact hnotDone hc (hown.saved (hs ▸ hm))

theorem Migration.remove {key : KeyWorld} (h : Migration l w gs) (hdone : w.Done l id) (hrec : key.record = none)
    (hissued : key.issued = (w.keys id).issued) :
    Migration l (((w.setKey id key).setIndexed id false).note (.deleted id)) gs := by
  have hown := h.key id
  have hkey : (((w.setKey id key).setIndexed id false).note (.deleted id)).keys id = key := Function.update_self _ _ _
  have hsub : ∀ e' ∈ w.events, e' ∈ (((w.setKey id key).setIndexed id false).note (.deleted id)).events :=
    fun _ hm => List.mem_cons_of_mem _ hm
  have hdone' : Layout.Done l (((w.setKey id key).setIndexed id false).note (.deleted id)) id := hdone.mono hsub
  refine h.change id [.deleted id] ?_ (fun x hx => Function.update_of_ne hx _ _)
    (fun x hx => Function.update_of_ne hx _ _) (fun _ _ => rfl) rfl rfl
    (fun x hx => notMem_others hx (.inr (.inr rfl))) (by simp) ?_
  · constructor
    · exact hown.legacy.imp_right fun hn => ⟨hn.1, hdone'⟩
    · exact fun _ => hdone'
    · rw [hkey, hissued]
      exact hown.issued
    · rw [hkey, hrec]
      exact Function.update_self _ _ _
    · exact fun _ => .inl List.mem_cons_self
    · rw [hkey]
      exact fun _ => ⟨hdone', hrec⟩
    · exact fun _ => hdone'
    · exact fun _ => List.mem_cons_self
  · exact List.pairwise_cons.mpr ⟨fun e' _ x hc => (nomatch hc), h.copies⟩

theorem Migration.forget (h : Migration l w gs) (hdone : w.Done l id) :
    Migration l { w with legacy := Function.update w.legacy id none } gs := by
  have hown := h.key id
  refine h.change id [] ?_ (fun _ _ => rfl) (fun _ _ => rfl) (fun x hx => Function.update_of_ne hx _ _)
    rfl rfl (fun _ _ => ⟨List.not_mem_nil, List.not_mem_nil, List.not_mem_nil⟩) List.not_mem_nil h.copies
  exact ⟨.inr ⟨Function.update_self _ _ _, hdone⟩, hown.record, hown.issued, hown.indexed, hown.kept, hown.deleted,
    hown.saved, hown.replied⟩

theorem Migration.dropIndex (h : Migration l w gs) (hall : ∀ id ∈ l.index, w.Done l id) :
    Migration l { w with legacyIndex := [] } gs :=
  ⟨fun x => (h.key x).frame rfl rfl rfl [] rfl ⟨List.not_mem_nil, List.not_mem_nil, List.not_mem_nil⟩,
    .inr ⟨rfl, hall⟩, h.finished, h.copies, h.facts⟩

theorem Migration.finish (h : Migration l w gs) (hall : ∀ id ∈ l.index, w.Done l id) :
    Migration l (w.note .finished) gs := by
  have hsub : ∀ e' ∈ w.events, e' ∈ (w.note .finished).events := fun _ hm => List.mem_cons_of_mem _ hm
  have hall' : ∀ id ∈ l.index, Layout.Done l (w.note .finished) id := fun x hx => (hall x hx).mono hsub
  refine ⟨fun x => (h.key x).frame rfl rfl rfl [.finished] rfl (by simp),
    h.index.imp_right fun hn => ⟨hn.1, hall'⟩, fun _ => hall',
    List.pairwise_cons.mpr ⟨fun e' _ x hc => (nomatch hc), h.copies⟩, fun g hg => (h.facts g hg).mono hsub⟩

/-- The stores after a step, what the thread that took it knows then, and what it was told. -/
structure LayoutNext (l : LegacyLayout) (i : LayoutOp) (gs : List LayoutFacts) (g : LayoutFacts) (r : i.Answer)
    (w' : Layout) : Prop where
  migration : Migration l w' gs
  backs : w'.Backs l (i.learns l g r)
  tells : i.tells l r

variable {hash : String → String} {g : LayoutFacts} {c : LayoutChoice}

theorem attemptWrite_cases {c : KeyChoice} {k k' kw : KeyWorld} {r : Except StoreFailure Unit}
    (h : attemptWrite c k k' = (r, kw)) :
    (c.fails = true ∧ r = .error .failed ∧ kw = k) ∨
      (c.fails = false ∧ r = .ok () ∧ kw = { k' with writes := k.writes + 1 }) := by
  unfold attemptWrite at h
  cases hf : c.fails with
  | true =>
    rw [hf] at h
    cases h
    exact .inl ⟨rfl, rfl, rfl⟩
  | false =>
    rw [hf] at h
    cases h
    exact .inr ⟨rfl, rfl, rfl⟩

/-- A write that leaves the record alone, whether it fails or not. -/
theorem Migration.attempt (h : Migration l w gs) {k' kw : KeyWorld} {r : Except StoreFailure Unit}
    (hop : attemptWrite c.toKeyChoice (w.keys id) k' = (r, kw)) (hrec : k'.record = (w.keys id).record)
    (hissued : k'.issued = (w.keys id).issued) (hlog : k'.log = (w.keys id).log) : Migration l (w.setKey id kw) gs := by
  have hreplied := (h.key id).replied
  rcases attemptWrite_cases hop with ⟨-, -, rfl⟩ | ⟨-, -, rfl⟩
  · exact h.touch rfl (fun hi => hi) hreplied
  · exact h.touch hrec (fun hi => hissued.symm ▸ hi) (by rw [hlog]; exact hreplied)

theorem Migration.request (h : Migration l w gs) (hg : w.Backs l g) {op : KeyOp} {r : op.Answer}
    (hfirst : c.fails = false → (LayoutOp.key id op).First w) (hneeds : (LayoutOp.key id op).needs l g)
    (hrun : (LayoutOp.key id op).run hash c w = some (r, w')) : LayoutNext l (.key id op) gs g r w' := by
  obtain ⟨⟨r, kw⟩, hop, heq⟩ := Option.map_eq_some_iff.mp hrun
  obtain ⟨rfl, rfl⟩ := Prod.mk.inj heq
  have hreplied := (h.key id).replied
  cases op with
  | load =>
    cases hop
    have hm : Migration l (w.setKey id (w.keys id)) gs := h.touch rfl (fun hi => hi) hreplied
    refine ⟨hm, ?_, trivial⟩
    cases hf : c.fails with
    | true => exact hg
    | false =>
      cases hrec : (w.keys id).record with
      | none => exact hg
      | some key =>
        refine hg.addDone fun x hx => ?_
        rw [List.mem_singleton.mp hx]
        exact (h.key id).record (by rw [hrec]; exact Option.some_ne_none key)
  | save key =>
    rcases attemptWrite_cases (Option.some.inj hop) with ⟨hf, rfl, rfl⟩ | ⟨hf, rfl, rfl⟩
    · simp only [Layout.track, hf, if_true]
      exact ⟨h.touch rfl (fun hi => hi) hreplied, hg, trivial⟩
    · simp only [Layout.track, hf, Bool.false_eq_true, if_false]
      refine ⟨h.write (.inr rfl) (fun _ => hg.1 id hneeds) (fun hc => nomatch hc) (fun _ => hfirst hf)
        (Option.some_ne_none key) rfl rfl, hg.mono fun _ hm => List.mem_cons_of_mem _ hm, trivial⟩
  | deleteRecord =>
    rcases attemptWrite_cases (Option.some.inj hop) with ⟨hf, rfl, rfl⟩ | ⟨hf, rfl, rfl⟩
    · simp only [Layout.track, hf, if_true]
      exact ⟨h.touch rfl (fun hi => hi) hreplied, hg, trivial⟩
    · simp only [Layout.track, hf, Bool.false_eq_true, if_false]
      exact ⟨h.remove (hg.1 id hneeds) rfl rfl,
        (hg.mono fun _ hm => List.mem_cons_of_mem _ hm).addGone List.mem_cons_self, trivial⟩
  | setTier group hash' tier => exact ⟨h.attempt (Option.some.inj hop) rfl rfl rfl, hg, trivial⟩
  | deleteTier group hash' => exact ⟨h.attempt (Option.some.inj hop) rfl rfl rfl, hg, trivial⟩
  | setOwner group hash' owner => exact ⟨h.attempt (Option.some.inj hop) rfl rfl rfl, hg, trivial⟩
  | newKey =>
    simp only [KeyOp.run] at hop
    split at hop
    · rename_i hnone
      cases hop
      have hdone : w.Done l id := .inl (not_not.mp fun hl => (h.key id).issued hl hnone)
      refine ⟨h.touch rfl (fun _ => List.cons_ne_nil _ _) hreplied, hg.addDone fun x hx => ?_, trivial⟩
      rw [List.mem_singleton.mp hx]
      exact hdone
    · cases hop
  | newSecret id' =>
    simp only [KeyOp.run] at hop
    split at hop
    · cases hop
    · cases hop
      exact ⟨h.touch rfl (fun _ => List.cons_ne_nil _ _) hreplied, hg, trivial⟩
  | reply r =>
    cases hop
    refine ⟨h.touch rfl (fun hi => hi) fun hm => ?_, hg, trivial⟩
    rcases List.mem_cons.mp hm with rfl | hm
    · exact hg.2 id hneeds
    · exact hreplied hm

theorem Migration.exec (h : Migration l w gs) (hg : w.Backs l g) {i : LayoutOp} {r : i.Answer}
    (hfirst : c.fails = false → i.First w) (hneeds : i.needs l g) (hrun : i.run hash c w = some (r, w')) :
    LayoutNext l i gs g r w' := by
  cases i with
  | key id op => exact h.request hg hfirst hneeds hrun
  | members =>
    simp only [LayoutOp.run] at hrun
    split at hrun
    · cases hrun
      exact ⟨h, hg, trivial⟩
    split at hrun
    · rename_i hperm
      cases hrun
      cases horder : c.order with
      | nil =>
        rw [horder] at hperm
        have hnil : w.legacyIndex = [] := List.nil_perm.mp hperm
        refine ⟨h, hg.addDone fun x hx => ?_, trivial⟩
        rcases h.index with hi | hi
        · rw [hnil] at hi
          rw [← hi] at hx
          cases hx
        · exact hi.2 x hx
      | cons x xs =>
        rw [horder] at hperm
        refine ⟨h, hg, ?_⟩
        rcases h.index with hi | hi
        · rw [hi] at hperm
          exact hperm
        · rw [hi.1] at hperm
          exact absurd (List.perm_nil.mp hperm) (List.cons_ne_nil _ _)
    · cases hrun
  | legacyGet id =>
    simp only [LayoutOp.run] at hrun
    cases hrun
    cases hf : c.fails with
    | true => exact ⟨h, hg, trivial⟩
    | false =>
      cases hl : w.legacy id with
      | none =>
        refine ⟨h, hg.addDone fun x hx => ?_, trivial⟩
        rw [List.mem_singleton.mp hx]
        exact (h.key id).legacy.elim (fun he => .inl (he ▸ hl)) And.right
      | some key =>
        refine ⟨h, hg, fun hn => ?_⟩
        rcases (h.key id).legacy with he | he
        · rw [he, hn] at hl
          cases hl
        · rw [he.1] at hl
          cases hl
  | copy id b =>
    cases hf : c.fails with
    | true =>
      simp only [LayoutOp.run, hf, if_true] at hrun
      cases hrun
      exact ⟨h, hg, trivial⟩
    | false =>
      simp only [LayoutOp.run, hf, Bool.false_eq_true, if_false] at hrun
      cases hrun
      refine ⟨h.write (.inl rfl) (fun hc => nomatch hc) (fun _ => ⟨hneeds, hfirst hf⟩) (fun hc => nomatch hc)
        (Option.some_ne_none b) rfl rfl, (hg.mono fun _ hm => List.mem_cons_of_mem _ hm).addDone fun x hx => ?_, trivial⟩
      rw [List.mem_singleton.mp hx]
      exact .inr List.mem_cons_self
  | legacyDel id =>
    cases hf : c.fails with
    | true =>
      simp only [LayoutOp.run, hf, if_true] at hrun
      cases hrun
      exact ⟨h, hg, trivial⟩
    | false =>
      simp only [LayoutOp.run, hf, Bool.false_eq_true, if_false] at hrun
      cases hrun
      exact ⟨h.forget (hg.1 id hneeds), hg, trivial⟩
  | delIndex =>
    cases hf : c.fails with
    | true =>
      simp only [LayoutOp.run, hf, if_true] at hrun
      cases hrun
      exact ⟨h, hg, trivial⟩
    | false =>
      simp only [LayoutOp.run, hf, Bool.false_eq_true, if_false] at hrun
      cases hrun
      exact ⟨h.dropIndex fun x hx => hg.1 x (hneeds x hx), hg, trivial⟩
  | returnNil =>
    cases hrun
    exact ⟨h.finish fun x hx => hg.1 x (hneeds x hx), hg.mono fun _ hm => List.mem_cons_of_mem _ hm, trivial⟩

/-! ### Every run -/

theorem layout_execOk : Pool.ExecOk (layoutSem hash) copiedOnce (layoutLogic l) (Migration l) := by
  intro i c w gs t g r w' new hg hinv hcond hpre hex
  obtain ⟨⟨r', w''⟩, hrun, heq⟩ := Option.map_eq_some_iff.mp hex
  cases heq
  have hnext := hinv.exec (hinv.facts g (List.mem_of_getElem? hg)) hcond hpre hrun
  refine ⟨_, [], ⟨rfl, hnext.tells⟩, .nil, ?_⟩
  rw [List.append_nil]
  have hm := hnext.migration
  refine ⟨hm.key, hm.index, hm.finished, hm.copies, fun g' hg' => ?_⟩
  rcases List.mem_or_eq_of_mem_set hg' with hg' | rfl
  · exact hm.facts g' hg'
  · exact hnext.backs

theorem layout_extOk : Pool.ExtOk (layoutSem hash) copiedOnce (layoutLogic l) (Migration l) := by
  intro e w gs w' new hinv _ hex
  cases hex
  have hthread : (layoutLogic l).wp (e.thread hash) (fun _ _ => True) .none := by
    cases e with
    | migrate => exact wp_migrate
    | request id call => exact wp_request hash call
  refine ⟨[.none], .cons hthread .nil, hinv.key, hinv.index, hinv.finished, hinv.copies, fun g hg => ?_⟩
  rcases List.mem_append.mp hg with hg | hg
  · exact hinv.facts g hg
  · rw [List.mem_singleton.mp hg]
    exact ⟨fun x hx => hx.elim, fun x hx => hx.elim⟩

theorem migration_start (l : LegacyLayout) : Migration l l.start [] := by
  refine ⟨fun id => ⟨.inl rfl, ?_, l.issued id, ?_, ?_, ?_, ?_, ?_⟩, .inl rfl, ?_, .nil, ?_⟩
  · exact fun hne => absurd (l.fresh id).1 hne
  · change false = (l.keys id).record.isSome
    rw [(l.fresh id).1]
    rfl
  · exact fun hm => nomatch hm
  · exact fun hm => nomatch hm
  · exact fun hm => nomatch hm
  · intro hm
    change .noContent ∈ (l.keys id).log at hm
    rw [(l.fresh id).2] at hm
    cases hm
  · exact fun hm => nomatch hm
  · exact fun g hg => nomatch hg

/-- Any number of runs, stopped and started anywhere, with requests in between. If no record is
copied twice and no request saves a record that was deleted since it loaded it: no copy comes after
a save of the same record, a key deleted with 204 does not come back, and once a run has returned
nil every legacy key has a record and an index entry, unless it was deleted. -/
theorem migration_repeats_safely (hash : String → String) (l : LegacyLayout) (acts : List LayoutAct)
    (p : Pool LayoutOp.Answer Layout)
    (honce : Along (Pool.step (layoutSem hash)) (Pool.Meets copiedOnce) ⟨l.start, []⟩ acts)
    (hrun : runAll (Pool.step (layoutSem hash)) ⟨l.start, []⟩ acts = some p) :
    (p.shared.events.Pairwise fun e e' => ∀ id, e = .copied id → e' ≠ .saved id) ∧
    (∀ id, .noContent ∈ (p.shared.keys id).log → (p.shared.keys id).record = none ∧ p.shared.indexed id = false) ∧
    (.finished ∈ p.shared.events → ∀ id ∈ l.index, l.legacy id ≠ none →
      .deleted id ∈ p.shared.events ∨ (p.shared.keys id).record ≠ none ∧ p.shared.indexed id = true) := by
  have hstart : Pool.Holds (layoutLogic l) (Migration l) ⟨l.start, []⟩ := ⟨[], .nil, migration_start l⟩
  obtain ⟨gs, -, h⟩ := Pool.holds_run layout_execOk layout_extOk hstart honce hrun
  refine ⟨h.copies, fun id hm => ?_, fun hf id hid hl => ?_⟩
  · have hrec := ((h.key id).deleted ((h.key id).replied hm)).2
    have hix := (h.key id).indexed
    rw [hrec] at hix
    exact ⟨hrec, hix⟩
  · have hcopied := (h.finished hf id hid).resolve_left hl
    refine ((h.key id).kept hcopied).imp_right fun hrec => ⟨hrec, ?_⟩
    rw [(h.key id).indexed]
    exact Option.isSome_iff_ne_none.mpr hrec

end Steps

/-! Runs. -/

namespace OneLegacyKey

def legacyKey : KeyRecord := ⟨"k1", "v1", "free", "", "", "h1"⟩

/-- One key in the legacy layout. -/
def layout : LegacyLayout where
  index := ["k1"]
  legacy id := if id = "k1" then some legacyKey else none
  keys id := { KeyWorld.empty id with issued := if id = "k1" then ["h1"] else [] }
  fresh _ := ⟨rfl, rfl⟩
  issued id h := by
    by_cases hid : id = "k1"
    · simp [hid]
    · simp [hid] at h

def ok : LayoutChoice := ⟨⟨false, ""⟩, ["k1"]⟩

/-- Thread `t` takes `n` steps. -/
def steps (t n : ℕ) : List LayoutAct := List.replicate n (.run t ok)

/-- Names the key. -/
def rename : KeyCall := .update ⟨[], [], ""⟩ (.ok ⟨none, none, none, some "billing"⟩)

end OneLegacyKey

open OneLegacyKey in
/-- A run is stopped between the copy and the deletion of the legacy record. An update is answered
with 200, and the next run puts the legacy record back over it. -/
theorem rerun_undoes_update : ∃ p,
    runAll (Pool.step (layoutSem id)) ⟨layout.start, []⟩
      ([.env .migrate] ++ steps 0 3 ++ [.env (.request "k1" rename)] ++ steps 1 3 ++ [.env .migrate] ++ steps 2 3) = some p ∧
    (p.shared.keys "k1").log = [.updated { legacyKey with name := "billing" }] ∧
    (p.shared.keys "k1").record = some legacyKey ∧
    p.shared.events = [.copied "k1", .saved "k1", .copied "k1"] := by
  have heval : (runAll (Pool.step (layoutSem id)) ⟨layout.start, []⟩
      ([.env .migrate] ++ steps 0 3 ++ [.env (.request "k1" rename)] ++ steps 1 3 ++ [.env .migrate] ++ steps 2 3)).map
        (fun p => ((p.shared.keys "k1").log, (p.shared.keys "k1").record, p.shared.events)) =
      some ([.updated { legacyKey with name := "billing" }], some legacyKey,
        [.copied "k1", .saved "k1", .copied "k1"]) := by decide +kernel
  obtain ⟨p, hrun, hp⟩ := Option.map_eq_some_iff.mp heval
  simp only [Prod.mk.injEq] at hp
  exact ⟨p, hrun, hp⟩

open OneLegacyKey in
/-- A run that is not stopped, and an update after it. -/
theorem migration_repeats_safely_one_run : ∃ p,
    runAll (Pool.step (layoutSem id)) ⟨layout.start, []⟩
      ([.env .migrate] ++ steps 0 6 ++ [.env (.request "k1" rename)] ++ steps 1 3) = some p ∧
    .finished ∈ p.shared.events ∧ .deleted "k1" ∉ p.shared.events ∧
    (p.shared.keys "k1").record ≠ none ∧ p.shared.indexed "k1" = true := by
  have heval : (runAll (Pool.step (layoutSem id)) ⟨layout.start, []⟩
      ([.env .migrate] ++ steps 0 6 ++ [.env (.request "k1" rename)] ++ steps 1 3)).map (fun p => p.shared.events) =
      some [.saved "k1", .finished, .copied "k1"] := by decide +kernel
  obtain ⟨p, hrun, hp⟩ := Option.map_eq_some_iff.mp heval
  have h := (migration_repeats_safely id layout _ p (by decide +kernel) hrun).2.2
  rw [hp] at h
  have hdel : .deleted "k1" ∉ [LayoutEvent.saved "k1", .finished, .copied "k1"] := by decide
  exact ⟨p, hrun, by rw [hp]; decide, by rw [hp]; exact hdel,
    (h (by decide) "k1" List.mem_cons_self (Option.some_ne_none legacyKey)).resolve_left hdel⟩

end Gate
