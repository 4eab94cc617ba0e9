import Gate.Lib.Accounts
import Gate.Sanity.Regions

/-! Regions that borrow from each other never grant more than the quota they share. In one
ledger, a window's counter stays within the region's allocation; across ledgers, what a
peer debits is either on its way or credited once, so the allocations and what is on its
way always add up to the quota. -/

namespace Gate

/-- A window's counter is within the allocation. -/
def Solid (key : String) (base : ℤ) (m : Mem) : Prop :=
  ∀ w, 0 ≤ m.used key w ∧ m.used key w ≤ base + m.getInt (allocKey key w) 0

/-- What grants and returns, and anything on other quotas, do to a quota's numbers. -/
structure Kept (key : String) (base : ℤ) (m m' : Mem) : Prop where
  alloc : ∀ w, m'.getInt (allocKey key w) 0 = m.getInt (allocKey key w) 0
  lend : ∀ id, Word id → m'.vals (lendKey key id) = m.vals (lendKey key id)
  deduped : ∀ k, m.deduped k = true → m'.deduped k = true
  solid : Solid key base m → Solid key base m'

namespace Kept

variable {key : String} {base : ℤ} {m m₁ m' : Mem}

theorem refl (m : Mem) : Kept key base m m := ⟨fun _ => rfl, fun _ _ => rfl, fun _ => id, id⟩

theorem trans (h : Kept key base m m₁) (h' : Kept key base m₁ m') : Kept key base m m' where
  alloc w := (h'.alloc w).trans (h.alloc w)
  lend id hid := (h'.lend id hid).trans (h.lend id hid)
  deduped k hk := h'.deduped k (h.deduped k hk)
  solid hs := h'.solid (h.solid hs)

/-- Nothing of the quota's is touched. -/
theorem of_entries (hv : ∀ e : Entry, e.Plain → m'.vals (e.key key) = m.vals (e.key key))
    (hd : ∀ k, m.deduped k = true → m'.deduped k = true) : Kept key base m m' := by
  have ha : ∀ w, m'.getInt (allocKey key w) 0 = m.getInt (allocKey key w) 0 := fun w =>
    congrArg (·.getD 0) (hv (.alloc w) trivial)
  refine ⟨ha, fun id hid => hv (.lend id) hid, hd, fun hs w => ?_⟩
  have hu : m'.used key w = m.used key w := congrArg (·.getD 0) (hv (.window w) trivial)
  rw [hu, ha]
  exact hs w

/-- Only the window counters are touched, and they stay within the allocation. -/
theorem of_counters (hs : Stem key)
    (hv : ∀ k, k ≠ key → (∀ w, k ≠ winKey key w) → (∀ w, k ≠ winKey "" w) → m'.vals k = m.vals k)
    (hd : ∀ k, m.deduped k = true → m'.deduped k = true)
    (hu : Solid key base m → ∀ w, 0 ≤ m'.used key w ∧
      (m'.used key w ≤ m.used key w ∨ m'.used key w ≤ base + m.getInt (allocKey key w) 0)) :
    Kept key base m m' := by
  have hother : ∀ e : Entry, e.Plain → e ≠ .bucket → (∀ w, e ≠ .window w) →
      m'.vals (e.key key) = m.vals (e.key key) := by
    intro e he hb hw
    refine hv _ (fun h => hb ?_) (fun w h => hw w ?_) (fun w h => hw w ?_)
    · exact (Entry.key_inj hs hs e .bucket he trivial h).2
    · exact (Entry.key_inj hs hs e (.window w) he trivial h).2
    · exact (Entry.key_inj hs (.inl rfl) e (.window w) he trivial h).2
  have ha : ∀ w, m'.getInt (allocKey key w) 0 = m.getInt (allocKey key w) 0 := fun w =>
    congrArg (·.getD 0) (hother (.alloc w) trivial Entry.noConfusion fun _ => Entry.noConfusion)
  refine ⟨ha, fun id hid => hother (.lend id) hid Entry.noConfusion fun _ => Entry.noConfusion, hd, fun h w => ?_⟩
  obtain ⟨h0, h1 | h1⟩ := hu h w
  · exact ⟨h0, by rw [ha]; exact h1.trans (h w).2⟩
  · exact ⟨h0, by rw [ha]; exact h1⟩

end Kept

theorem GlobalQuota.stem {ι : Type} (q : GlobalQuota ι) : Stem q.key := key_stem _ (valid_of_fixed q.fixed)

/-- An enclosing quota that is not the quota itself. -/
theorem parent_apart {ι : Type} {q : GlobalQuota ι} {ref : Ref} {p : String}
    (h : p = "" ∨ p = ref.parentKey .fixedWindow) (hf : ref.parentKey .fixedWindow ≠ q.key) :
    Stem p ∧ p ≠ q.key := by
  rcases h with rfl | rfl
  · exact ⟨.inl rfl, (snoc_colon_ne_empty _ _).symm⟩
  · exact ⟨parentKey_stem _, hf⟩

section Ledger

variable {ι : Type} {q : GlobalQuota ι} {i : ι} {m : Mem}

theorem grant_kept {ord : RangeOrder} {now : ℤ} {it : Item} (hf : q.Fits i it) :
    Kept q.key (q.base i) m (m.grant ord now it.ref it.spec it.args).2 := by
  unfold Mem.grant
  cases hp : prepare it.ref it.spec it.args with
  | error e => exact .refl m
  | ok inp =>
    have hpre := prepare_prepared hp
    have hg := grantOn_granted m ord now inp hpre.target
    generalize hgr : m.grantOn ord now inp = res at hg
    obtain ⟨g, m'⟩ := res
    dsimp only at hg ⊢
    rw [hgr]
    have hd : ∀ k, m.deduped k = true → m'.deduped k = true := fun k hk => by rw [hg.deduped, hk]
    unfold GlobalQuota.Fits at hf
    split at hf
    · rename_i hk
      obtain ⟨hspec, hnone, hreg, hbase⟩ := hf
      have hkey : inp.key = q.key := hpre.key.trans hk
      have hpar : inp.parentKey = "" := hpre.alone hnone
      have hfix : inp.algo = .fixedWindow := by rw [hpre.algo, hspec, q.fixed]
      have halgo : inp.algo ≠ .tokenBucket := by rw [hfix]; decide
      have hwin : 0 < inp.win := by rw [hpre.win]; exact windowMs_pos _
      have hab : inp.allocBase = q.base i := by rw [hpre.allocBase, hreg, if_pos rfl, hbase]
      refine .of_counters q.stem (fun k h₁ h₂ h₃ => ?_) hd (fun hs w => ?_)
      · exact hg.vals_apart (hkey ▸ h₁) (hkey ▸ h₂) (hpar ▸ h₃)
      · have hu := hg.used_own halgo (absurd hpar) w
        rw [hkey] at hu
        have h0 := (hs w).1
        refine ⟨?_, ?_⟩
        · rw [hu]
          have := hg.nonneg
          split <;> omega
        · by_cases hw : w = g.windowID
          · subst hw
            rcases hg.le_limit halgo (absurd hpar) hwin (hkey ▸ fun w => (hs w).1) with hz | hl
            · left
              rw [hu, hz]
              simp
            · right
              have hlim : (m.measureWindow inp now).limit =
                  inp.allocBase + m.getInt (allocKey inp.key (now.tdiv inp.win)) 0 :=
                if_pos (hab ▸ q.nonneg i)
              have hwid : g.windowID = now.tdiv inp.win := by
                rw [hg.wid, measure_window halgo]
                rfl
              rw [hlim, hkey, hab, ← hwid] at hl
              exact hl
          · left
            rw [hu, if_neg hw, add_zero]
    · rename_i hk
      have hstem : Stem inp.key := hpre.key ▸ key_stem _ (Spec.validate_ok.mp hpre.valid).1
      have hne : inp.key ≠ q.key := hpre.key ▸ hk
      have hpstem := parent_apart hpre.parentKey hf
      refine .of_entries (fun e he => hg.vals_apart (fun h => hne ?_) (fun v h => hne ?_) fun v h => hpstem.2 ?_) hd
      · exact (Entry.key_inj q.stem hstem e .bucket he trivial h).1.symm
      · exact (Entry.key_inj q.stem hstem e (.window v) he trivial h).1.symm
      · exact (Entry.key_inj q.stem hpstem.1 e (.window v) he trivial h).1.symm

theorem applyReturn_kept {now : ℤ} {r : Ret} {dedupe : String} {inp : ReturnInput} (hf : q.FitsReturn r)
    (hp : prepareReturn r dedupe = .ok inp) : Kept q.key (q.base i) m (m.applyReturn now inp) := by
  have hpre := prepareReturn_prepared hp
  have hd : ∀ k, m.deduped k = true → (m.applyReturn now inp).deduped k = true := fun k hk => by
    rw [deduped_applyReturn, hk]
  unfold GlobalQuota.FitsReturn at hf
  split at hf
  · rename_i hk
    obtain ⟨hspec, hnone, htok⟩ := hf
    have hkey : inp.key = q.key := hpre.key.trans hk
    have hpar : inp.parentKey = "" := hpre.alone hnone
    have halgo : inp.algo ≠ .tokenBucket := by
      rw [hpre.algo, hspec, q.fixed]
      decide
    refine .of_counters q.stem (fun k h₁ h₂ h₃ => ?_) hd (fun hs w => ?_)
    · exact applyReturn_vals_apart m now (fun _ => hkey ▸ h₁) (hkey ▸ h₂) (hpar ▸ h₃)
    · have h0 := (hs w).1
      have ht : 0 ≤ inp.tokens := hpre.tokens ▸ htok
      rw [applyReturn_alone m now inp halgo hpar, hkey]
      split
      · rw [used_credit]
        split
        · rename_i hw
          rw [← hw]
          omega
        · exact ⟨h0, .inl le_rfl⟩
      · exact ⟨h0, .inl le_rfl⟩
  · rename_i hk
    have hstem : Stem inp.key := hpre.key ▸ key_stem _ (Spec.validate_ok.mp hpre.valid).1
    have hne : inp.key ≠ q.key := hpre.key ▸ hk
    have hpstem := parent_apart hpre.parentKey hf
    refine .of_entries (fun e he => applyReturn_vals_apart m now (fun _ h => hne ?_) (fun v h => hne ?_)
      fun v h => hpstem.2 ?_) hd
    · exact (Entry.key_inj q.stem hstem e .bucket he trivial h).1.symm
    · exact (Entry.key_inj q.stem hstem e (.window v) he trivial h).1.symm
    · exact (Entry.key_inj q.stem hpstem.1 e (.window v) he trivial h).1.symm

theorem mark_kept (m : Mem) (k key : String) (base : ℤ) : Kept key base m (m.mark k) :=
  .of_entries (fun _ _ => rfl) fun k' h => by simp [h]

theorem returnOne_kept {now : ℤ} {r : Ret} {dedupe : String} {inp : ReturnInput} (hf : q.FitsReturn r)
    (hp : prepareReturn r dedupe = .ok inp) : Kept q.key (q.base i) m (m.returnOne now inp) := by
  unfold Mem.returnOne
  split
  · split
    · exact .refl m
    · exact (mark_kept m _ _ _).trans (applyReturn_kept hf hp)
  · exact applyReturn_kept hf hp

theorem ret_kept {now : ℤ} {dedupe : String} {rs : List Ret} (hf : ∀ r ∈ rs, q.FitsReturn r) :
    Kept q.key (q.base i) m (m.ret now dedupe rs).2 := by
  induction rs generalizing m with
  | nil => exact .refl m
  | cons r rs ih =>
    unfold Mem.ret
    split
    · exact .refl m
    · rename_i inp hp
      exact (returnOne_kept (hf r (by simp)) hp).trans (ih fun r' hr' => hf r' (by simp [hr']))

/-- A loan on another quota leaves this one alone. -/
theorem loan_kept {key : String} {base wid n : ℤ} {id : String} (hs : Stem q.key) (hk : Stem key) (hid : Word id)
    (hne : key ≠ q.key) :
    Kept q.key base m ((m.addVal (allocKey key wid) n).setVal (lendKey key id) (-n)) := by
  refine .of_entries (fun e he => ?_) fun k h => h
  have h₁ : e.key q.key ≠ lendKey key id := fun h =>
    hne (Entry.key_inj hs hk e (.lend id) he hid h).1.symm
  have h₂ : e.key q.key ≠ allocKey key wid := fun h =>
    hne (Entry.key_inj hs hk e (.alloc wid) he trivial h).1.symm
  exact (Function.update_of_ne h₁ _ _).trans (Mem.vals_addVal_of_ne m h₂ _)

theorem credit_kept {key k : String} {base wid n : ℤ} (hs : Stem q.key) (hk : Stem key) (hne : key ≠ q.key) :
    Kept q.key base m ((m.mark k).addVal (allocKey key wid) n) := by
  refine (mark_kept m k _ _).trans (.of_entries (fun e he => ?_) fun k h => h)
  have h : e.key q.key ≠ allocKey key wid := fun h =>
    hne (Entry.key_inj hs hk e (.alloc wid) he trivial h).1.symm
  exact Mem.vals_addVal_of_ne _ h _

end Ledger

/-- An allocation moved by `n`, and nothing else but the record of one loan, if any. -/
structure Moved (key : String) (wid n : ℤ) (loan : Option String) (m m' : Mem) : Prop where
  alloc : ∀ w, m'.getInt (allocKey key w) 0 = m.getInt (allocKey key w) 0 + if w = wid then n else 0
  used : ∀ w, m'.used key w = m.used key w
  lend : ∀ id, Word id → loan ≠ some id → m'.vals (lendKey key id) = m.vals (lendKey key id)
  deduped : ∀ k, m.deduped k = true → m'.deduped k = true

theorem moved_addVal {key : String} (hs : Stem key) (m : Mem) (wid n : ℤ) :
    Moved key wid n none m (m.addVal (allocKey key wid) n) := by
  refine ⟨fun w => ?_, fun w => ?_, fun id hid _ => ?_, fun k h => h⟩
  · rw [Mem.getInt_addVal]
    congr 1
    by_cases hw : w = wid
    · simp [hw]
    · have : allocKey key w ≠ allocKey key wid := fun h =>
        hw (by simpa using (Entry.key_inj hs hs (.alloc w) (.alloc wid) trivial trivial h).2)
      simp [hw, this]
  · have : winKey key w ≠ allocKey key wid := fun h =>
      Entry.noConfusion (Entry.key_inj hs hs (.window w) (.alloc wid) trivial trivial h).2
    simp [Mem.used, this]
  · refine Mem.vals_addVal_of_ne m (fun h => ?_) _
    exact Entry.noConfusion (Entry.key_inj hs hs (.lend id) (.alloc wid) hid trivial h).2

theorem Moved.record {key id : String} (hs : Stem key) (hid : Word id) {m m' : Mem} {wid n : ℤ}
    (h : Moved key wid n none m m') (v : ℤ) : Moved key wid n (some id) m (m'.setVal (lendKey key id) v) := by
  refine ⟨fun w => ?_, fun w => ?_, fun id' hid' hne => ?_, h.deduped⟩
  · have : allocKey key w ≠ lendKey key id := fun h =>
      Entry.noConfusion (Entry.key_inj hs hs (.alloc w) (.lend id) trivial hid h).2
    rw [Mem.getInt_setVal, if_neg this]
    exact h.alloc w
  · have : winKey key w ≠ lendKey key id := fun h =>
      Entry.noConfusion (Entry.key_inj hs hs (.window w) (.lend id) trivial hid h).2
    rw [Mem.used, Mem.getInt_setVal, if_neg this]
    exact h.used w
  · have : lendKey key id' ≠ lendKey key id := fun h =>
      hne (by simpa using (Entry.key_inj hs hs (.lend id') (.lend id) hid' hid h).2.symm)
    exact (Function.update_of_ne this _ _).trans (h.lend id' hid' (by simp))

theorem Moved.solid {key : String} {loan : Option String} {m m' : Mem} {wid n base : ℤ}
    (h : Moved key wid n loan m m') (hs : Solid key base m)
    (hn : m.used key wid ≤ base + m.getInt (allocKey key wid) 0 + n) : Solid key base m' := by
  intro w
  rw [h.used, h.alloc]
  refine ⟨(hs w).1, ?_⟩
  by_cases hw : w = wid
  · subst hw
    rw [if_pos rfl]
    linarith
  · rw [if_neg hw, add_zero]
    exact (hs w).2

/-! The books of all regions. -/

section Books

variable {ι : Type} {d : Regions ι} {q : GlobalQuota ι}

/-- What a transfer has to show in the ledgers. -/
structure Transfer.Sound (d : Regions ι) (q : GlobalQuota ι) (ledgers : ι → Mem) (t : Transfer ι) : Prop where
  word : Word t.id
  fits : q.FitsNeed t.peer t.need (resolve (d.env t.peer) (d.cfg t.peer) t.need.request.scope
    t.need.request.serviceId t.need.request.apiKey t.need.request.limitId t.need.request.tierId "")
  lent : t.key = q.key → (ledgers t.peer).getInt (lendKey q.key t.id) 0 = t.debited
  nonneg : t.key = q.key → 0 ≤ t.debited
  credited : t.key = q.key → t.credited = true →
    0 < t.debited ∧ (ledgers t.fromRegion).deduped (creditKey q.key t.id) = true

/-- Ledgers that still show a transfer's loan and credit. -/
theorem Transfer.Sound.mono {t : Transfer ι} {ledgers ledgers' : ι → Mem} (h : t.Sound d q ledgers)
    (hl : (ledgers' t.peer).vals (lendKey q.key t.id) = (ledgers t.peer).vals (lendKey q.key t.id))
    (hd : ∀ i k, (ledgers i).deduped k = true → (ledgers' i).deduped k = true) : t.Sound d q ledgers' where
  word := h.word
  fits := h.fits
  lent hk := by
    rw [← h.lent hk]
    exact congrArg (·.getD 0) hl
  nonneg := h.nonneg
  credited hk hc := ⟨(h.credited hk hc).1, hd _ _ (h.credited hk hc).2⟩

theorem Transfer.Sound.item {t : Transfer ι} {ledgers : ι → Mem} (h : t.Sound d q ledgers) {it : Item}
    (hit : resolve (d.env t.peer) (d.cfg t.peer) t.need.request.scope t.need.request.serviceId
      t.need.request.apiKey t.need.request.limitId t.need.request.tierId "" = .ok it) :
    it.ref = t.need.ref ∧ it.spec = t.need.spec ∧ q.Fits t.peer it := by
  have := h.fits
  rwa [hit] at this

theorem pending_of_ne {t : Transfer ι} (h : t.key ≠ q.key) (w : ℤ) : q.pending w t = 0 :=
  if_neg fun hc => h hc.1

/-- Counters are within allocations, every positive answer is what was debited, and the
allocations with what is on its way make up the quota. -/
structure Balanced [Fintype ι] (d : Regions ι) (q : GlobalQuota ι) (n : Net ι) : Prop where
  solid : ∀ i, Solid q.key (q.base i) (n.ledgers i)
  sound : ∀ (k : ℕ) t, n.transfers[k]? = some t → t.Sound d q n.ledgers
  distinct : ∀ (k k' : ℕ) t t', n.transfers[k]? = some t → n.transfers[k']? = some t' → t.id = t'.id → k = k'
  unlent : ∀ i id, Word id → (∀ t ∈ n.transfers, t.id ≠ id) → (n.ledgers i).vals (lendKey q.key id) = none
  replied : ∀ r ∈ n.replies, ∃ t, n.transfers[r.1]? = some t ∧ (t.key = q.key → 0 < r.2 → r.2 = t.debited)
  sum : ∀ w, ∑ i, q.allocation n i w + q.inTransit n w = q.total

variable [Fintype ι]

theorem balanced_init (d : Regions ι) (q : GlobalQuota ι) : Balanced d q Net.init where
  solid i w := by
    have := q.nonneg i
    simpa [Net.init, Mem.new, Mem.used, Mem.getInt] using this
  sound k t h := by simp [Net.init] at h
  distinct k k' t t' h := by simp [Net.init] at h
  unlent i id _ _ := rfl
  replied r hr := by simp [Net.init] at hr
  sum w := by
    simp [GlobalQuota.allocation, GlobalQuota.inTransit, GlobalQuota.total, Net.init, Mem.new, Mem.allocation,
      Mem.getInt]

variable {n : Net ι}

/-- The answers sent so far stay right for a transfer whose debit does not change. -/
theorem Balanced.replies_snoc (h : Balanced d q n) {k : ℕ} {t : Transfer ι} (hk : n.transfers[k]? = some t)
    {given debited : ℤ} (hold : t.key = q.key → 0 < t.debited → t.debited = debited)
    (hnew : t.key = q.key → 0 < given → given = debited) :
    ∀ r ∈ n.replies ++ [(k, given)],
      (r ∈ n.replies ∧ r.1 ≠ k) ∨ (r.1 = k ∧ (t.key = q.key → 0 < r.2 → r.2 = debited)) := by
  intro r hr
  rcases List.mem_append.mp hr with hr | hr
  · by_cases hrk : r.1 = k
    · obtain ⟨t₂, ht₂, hv⟩ := h.replied r hr
      rw [hrk, hk] at ht₂
      cases ht₂
      refine .inr ⟨hrk, fun hq hpos => ?_⟩
      have he := hv hq hpos
      rw [he]
      exact hold hq (he ▸ hpos)
    · exact .inl ⟨hr, hrk⟩
  · cases List.mem_singleton.mp hr
    exact .inr ⟨rfl, hnew⟩

theorem Balanced.inTransit_nonneg (h : Balanced d q n) (w : ℤ) : 0 ≤ q.inTransit n w := by
  refine List.sum_nonneg fun x hx => ?_
  obtain ⟨t, ht, rfl⟩ := List.mem_map.mp hx
  obtain ⟨k, hk⟩ := List.mem_iff_getElem?.mp ht
  unfold GlobalQuota.pending
  split
  · rename_i hc
    exact (h.sound k t hk).nonneg hc.1
  · exact le_rfl

theorem Balanced.borrow (h : Balanced d q n) {i peer : ι} {need : Need} {b : Vector UInt8 12}
    (hfit : q.FitsNeed peer need (resolve (d.env peer) (d.cfg peer) need.request.scope need.request.serviceId
      need.request.apiKey need.request.limitId need.request.tierId ""))
    (hfresh : ∀ t ∈ n.transfers, t.id ≠ transferID b) :
    Balanced d q { n with transfers := n.transfers ++ [⟨i, peer, need, transferID b, 0, false⟩] } := by
  have hcases : ∀ {k : ℕ} {t : Transfer ι}, (n.transfers ++ [⟨i, peer, need, transferID b, 0, false⟩])[k]? = some t →
      n.transfers[k]? = some t ∨ (k = n.transfers.length ∧ t = ⟨i, peer, need, transferID b, 0, false⟩) := by
    intro k t ht
    rw [List.getElem?_append] at ht
    split at ht
    · exact .inl ht
    · rename_i hlt
      obtain ⟨hk, ht⟩ := List.getElem?_eq_some_iff.mp ht
      have h0 : k - n.transfers.length = 0 := by simpa using hk
      refine .inr ⟨by omega, ?_⟩
      simpa [h0] using ht.symm
  refine ⟨h.solid, fun k t ht => ?_, fun k k' t t' ht ht' hid => ?_, fun j id hid hn => ?_, fun r hr => ?_, fun w => ?_⟩
  · rcases hcases ht with ht | ⟨-, rfl⟩
    · exact h.sound k t ht
    · refine ⟨word_transferID b, hfit, fun _ => ?_, fun _ => le_rfl, fun _ hc => by cases hc⟩
      rw [Mem.getInt, h.unlent peer _ (word_transferID b) hfresh]
      rfl
  · rcases hcases ht with ht | ⟨rfl, rfl⟩ <;> rcases hcases ht' with ht' | ⟨rfl, rfl⟩
    · exact h.distinct k k' t t' ht ht' hid
    · exact absurd hid (hfresh t (List.mem_of_getElem? ht))
    · exact absurd hid.symm (hfresh t' (List.mem_of_getElem? ht'))
    · rfl
  · exact h.unlent j id hid fun t ht => hn t (List.mem_append_left _ ht)
  · obtain ⟨t, ht, hv⟩ := h.replied r hr
    refine ⟨t, ?_, hv⟩
    rw [List.getElem?_append_left (List.getElem?_eq_some_iff.mp ht).1]
    exact ht
  · have := h.sum w
    simpa [GlobalQuota.allocation, GlobalQuota.inTransit, GlobalQuota.pending] using this

variable [DecidableEq ι]

theorem sum_allocation_update (ledgers : ι → Mem) (i : ι) (m : Mem) (w : ℤ) :
    ∑ j, (q.base j + (Function.update ledgers i m j).allocation q.ref q.spec w) =
      ∑ j, (q.base j + (ledgers j).allocation q.ref q.spec w) +
        (m.allocation q.ref q.spec w - (ledgers i).allocation q.ref q.spec w) := by
  have hf : (fun j => q.base j + (Function.update ledgers i m j).allocation q.ref q.spec w) =
      Function.update (fun j => q.base j + (ledgers j).allocation q.ref q.spec w) i
        (q.base i + m.allocation q.ref q.spec w) := by
    funext j
    by_cases hj : j = i
    · subst hj
      simp
    · simp [hj]
  rw [hf, Accounts.sum_update]
  ring

/-- A ledger that keeps the quota's numbers may take the place of another. -/
theorem Balanced.setLedger (h : Balanced d q n) {i : ι} {m : Mem} (hk : Kept q.key (q.base i) (n.ledgers i) m) :
    Balanced d q (n.setLedger i m) := by
  have hlend : ∀ j id, Word id →
      (Function.update n.ledgers i m j).vals (lendKey q.key id) = (n.ledgers j).vals (lendKey q.key id) := by
    intro j id hid
    by_cases hj : j = i
    · subst hj
      simpa using hk.lend id hid
    · simp [hj]
  have hded : ∀ j k, (n.ledgers j).deduped k = true → (Function.update n.ledgers i m j).deduped k = true := by
    intro j k hjk
    by_cases hj : j = i
    · subst hj
      simpa using hk.deduped k hjk
    · simpa [hj] using hjk
  refine ⟨fun j => ?_, fun k t ht => ?_, h.distinct, fun j id hid hn => ?_, h.replied, fun w => ?_⟩
  · by_cases hj : j = i
    · subst hj
      simpa [Net.setLedger] using hk.solid (h.solid j)
    · simpa [Net.setLedger, hj] using h.solid j
  · exact (h.sound k t ht).mono (hlend _ _ (h.sound k t ht).word) hded
  · exact (hlend j id hid).trans (h.unlent j id hid hn)
  · have hs := sum_allocation_update (q := q) n.ledgers i m w
    have ha : m.allocation q.ref q.spec w = (n.ledgers i).allocation q.ref q.spec w := hk.alloc w
    rw [ha, sub_self, add_zero] at hs
    exact (congrArg (· + q.inTransit n w) hs).trans (h.sum w)

/-- One transfer moves on, together with the ledger it touches. -/
theorem Balanced.update (h : Balanced d q n) {k : ℕ} {t : Transfer ι} (hk : n.transfers[k]? = some t)
    (t' : Transfer ι) (hid : t'.id = t.id) (hkey : t'.key = t.key) {i : ι} {m : Mem} (hsolid : Solid q.key (q.base i) m)
    (hlend : ∀ id, Word id → id ≠ t.id → m.vals (lendKey q.key id) = (n.ledgers i).vals (lendKey q.key id))
    (hded : ∀ k, (n.ledgers i).deduped k = true → m.deduped k = true)
    (hsound : t'.Sound d q (Function.update n.ledgers i m)) {replies : List (ℕ × ℤ)}
    (hrep : ∀ r ∈ replies, (r ∈ n.replies ∧ r.1 ≠ k) ∨ (r.1 = k ∧ (t.key = q.key → 0 < r.2 → r.2 = t'.debited)))
    (hsum : ∀ w, m.allocation q.ref q.spec w + q.pending w t' =
      (n.ledgers i).allocation q.ref q.spec w + q.pending w t) :
    Balanced d q ⟨Function.update n.ledgers i m, n.transfers.set k t', replies⟩ := by
  have hlt : k < n.transfers.length := (List.getElem?_eq_some_iff.mp hk).1
  have hget : ∀ j, (n.transfers.set k t')[j]? = if j = k then some t' else n.transfers[j]? := by
    intro j
    rw [List.getElem?_set]
    by_cases hj : j = k
    · subst hj
      simp [hlt]
    · simp [hj, Ne.symm hj]
  have hlend' : ∀ j id, Word id → id ≠ t.id →
      (Function.update n.ledgers i m j).vals (lendKey q.key id) = (n.ledgers j).vals (lendKey q.key id) := by
    intro j id hw hne
    by_cases hj : j = i
    · subst hj
      simpa using hlend id hw hne
    · simp [hj]
  have hded' : ∀ j x, (n.ledgers j).deduped x = true → (Function.update n.ledgers i m j).deduped x = true := by
    intro j x hx
    by_cases hj : j = i
    · subst hj
      simpa using hded x hx
    · simpa [hj] using hx
  refine ⟨fun j => ?_, fun j t₂ ht₂ => ?_, fun j j' t₁ t₂ h₁ h₂ he => ?_, fun j id hw hn => ?_, fun r hr => ?_,
    fun w => ?_⟩
  · by_cases hj : j = i
    · subst hj
      simpa using hsolid
    · simpa [hj] using h.solid j
  · rw [hget] at ht₂
    split at ht₂
    · cases ht₂
      exact hsound
    · rename_i hj
      have hs := h.sound j t₂ ht₂
      exact hs.mono (hlend' _ _ hs.word fun he => hj (h.distinct j k t₂ t ht₂ hk he)) hded'
  · rw [hget] at h₁ h₂
    split at h₁ <;> split at h₂
    · omega
    · cases h₁
      exact absurd (h.distinct k j' t t₂ hk h₂ (hid ▸ he)) (by omega)
    · cases h₂
      exact absurd (h.distinct j k t₁ t h₁ hk (hid ▸ he)) (by omega)
    · exact h.distinct j j' t₁ t₂ h₁ h₂ he
  · have hne : id ≠ t.id := fun he =>
      hn t' (List.mem_of_getElem? ((hget k).trans (if_pos rfl))) (hid.trans he.symm)
    rw [hlend' j id hw hne]
    refine h.unlent j id hw fun t₂ ht₂ => ?_
    obtain ⟨j', hj'⟩ := List.mem_iff_getElem?.mp ht₂
    by_cases hj : j' = k
    · subst hj
      rw [hk] at hj'
      cases hj'
      exact fun he => hne he.symm
    · exact hn t₂ (List.mem_of_getElem? ((hget j').trans ((if_neg hj).trans hj')))
  · rcases hrep r hr with ⟨hr, hne⟩ | ⟨he, hv⟩
    · obtain ⟨t₂, ht₂, hv⟩ := h.replied r hr
      exact ⟨t₂, (hget r.1).trans ((if_neg hne).trans ht₂), hv⟩
    · exact ⟨t', (hget r.1).trans (if_pos he), fun hq => hv (hkey ▸ hq)⟩
  · have hs := sum_allocation_update (q := q) n.ledgers i m w
    have hp : ((n.transfers.set k t').map (q.pending w)).sum =
        (n.transfers.map (q.pending w)).sum + (q.pending w t' - q.pending w t) := Accounts.sum_map_set _ hk t'
    have hb := h.sum w
    have hw := hsum w
    unfold GlobalQuota.allocation GlobalQuota.inTransit at *
    rw [hs, hp]
    linarith

/-- A transfer of another quota says nothing about this one. -/
theorem Balanced.other (h : Balanced d q n) {k : ℕ} {t : Transfer ι} (hk : n.transfers[k]? = some t)
    (hq : t.key ≠ q.key) (t' : Transfer ι) (hid : t'.id = t.id) (hneed : t'.need = t.need) (hpeer : t'.peer = t.peer)
    {i : ι} {m : Mem} (hkept : Kept q.key (q.base i) (n.ledgers i) m) {replies : List (ℕ × ℤ)}
    (hrep : ∀ r ∈ replies, r ∈ n.replies ∨ r.1 = k) :
    Balanced d q ⟨Function.update n.ledgers i m, n.transfers.set k t', replies⟩ := by
  have hs := h.sound k t hk
  have hkey : t'.key = t.key := by
    unfold Transfer.key
    rw [hneed]
  have hq' : t'.key ≠ q.key := hkey ▸ hq
  refine h.update hk t' hid hkey (hkept.solid (h.solid _)) (fun id hw _ => hkept.lend id hw) hkept.deduped
    ⟨hid ▸ hs.word, by rw [hneed, hpeer]; exact hs.fits, fun he => absurd he hq', fun he => absurd he hq',
      fun he => absurd he hq'⟩ (fun r hr => ?_) fun w => ?_
  · by_cases hrk : r.1 = k
    · exact .inr ⟨hrk, fun he => absurd he hq⟩
    · exact .inl ⟨(hrep r hr).resolve_right hrk, hrk⟩
  · rw [pending_of_ne hq w, pending_of_ne hq' w]
    exact congrArg (· + 0) (hkept.alloc w)

theorem Balanced.lend (h : Balanced d q n) {k : ℕ} {t : Transfer ι} (hk : n.transfers[k]? = some t) (now now' : ℤ) :
    Balanced d q (n.lend d k t now now') := by
  have hs := h.sound k t hk
  unfold Net.lend
  dsimp only
  split
  · rename_i code m' hres
    rw [regionBorrow_error hres]
    exact h.setLedger (.refl _)
  rename_i given m' hres
  obtain ⟨it, hit, hlend⟩ := regionBorrow_ok hres
  obtain ⟨href, hspec, hfits⟩ := hs.item hit
  rw [href, hspec] at hlend
  have hcases := lend_cases le_rfl hlend
  change Balanced d q ⟨Function.update n.ledgers t.peer m', _, _⟩
  rcases hcases with ⟨rfl, hg⟩ | ⟨hfix, hnone, h0, hle, rfl⟩
  · -- nothing happened: the answer repeats the loan on record, or is zero
    have hsound : t.Sound d q (Function.update n.ledgers t.peer (n.ledgers t.peer)) := by
      rw [Function.update_eq_self]
      exact hs
    rw [sub_self, add_zero]
    refine h.update hk t rfl rfl (h.solid _) (fun _ _ _ => rfl) (fun _ hx => hx) hsound
      (h.replies_snoc hk (fun _ _ => rfl) fun hq hpos => ?_) fun w => rfl
    rcases hg with hg | hg
    · omega
    · rw [← hs.lent hq, Mem.getInt]
      have hg' : (n.ledgers t.peer).vals (lendKey q.key t.id) = some given := by
        rw [← hq]
        exact hg
      rw [hg']
      rfl
  · by_cases hq : t.key = q.key
    · -- the loan fits what the region has left, and is recorded under the transfer's ID
      have hq' : t.need.ref.key t.need.spec.algo = q.key := hq
      have hzero : t.debited = 0 := by
        rw [← hs.lent hq, Mem.getInt, ← hq']
        exact congrArg (·.getD 0) hnone
      have hopen : t.credited = false := by
        by_contra hc
        have := (hs.credited hq (by simpa using hc)).1
        omega
      have hbase : it.args.allocBase = q.base t.peer := by
        unfold GlobalQuota.Fits at hfits
        rw [if_pos (by rw [href, hspec]; exact hq')] at hfits
        exact hfits.2.2.2
      simp only [hq', Mem.allocation, hbase] at hle ⊢
      set m := n.ledgers t.peer
      set m' := (m.addVal (allocKey q.key (borrowRequest t.need t.id).windowId) (-given)).setVal
        (lendKey q.key (borrowRequest t.need t.id).transferId) given with hm'
      have hmv : Moved q.key t.need.window (-given) (some t.id) m m' :=
        (moved_addVal q.stem m t.need.window (-given)).record q.stem hs.word given
      have htaken : m.getInt (allocKey q.key t.need.window) 0 - m'.getInt (allocKey q.key t.need.window) 0 = given := by
        rw [hmv.alloc, if_pos rfl]
        ring
      have hroom := h.solid t.peer t.need.window
      rw [htaken, hzero, zero_add]
      refine h.update hk { t with debited := given } rfl rfl (hmv.solid (h.solid _) ?_)
        (fun id hw hne => hmv.lend id hw ?_) hmv.deduped
        ⟨hs.word, hs.fits, fun _ => ?_, fun _ => h0, fun _ hc => ?_⟩
        (h.replies_snoc hk (fun _ hpos => by omega) fun _ _ => rfl) fun w => ?_
      · have hle' : given ≤ max 0 (q.base t.peer + m.getInt (allocKey q.key t.need.window) 0 -
          m.used q.key t.need.window) := hle
        have hroom' : m.used q.key t.need.window ≤ q.base t.peer + m.getInt (allocKey q.key t.need.window) 0 := hroom.2
        rw [max_eq_right (by linarith)] at hle'
        linarith
      · simpa using hne.symm
      · rw [Function.update_self, hm', Mem.getInt_setVal]
        exact if_pos rfl
      · rw [hopen] at hc
        cases hc
      · have ha := hmv.alloc w
        change m'.getInt (allocKey q.key w) 0 + _ = m.getInt (allocKey q.key w) 0 + _
        unfold GlobalQuota.pending
        simp only [Transfer.key, hq', hopen, true_and, and_true, hzero, ite_self]
        rw [ha]
        by_cases hw : w = t.need.window
        · simp [hw]
        · simp [hw, Ne.symm hw]
    · have hkept : Kept q.key (q.base t.peer) (n.ledgers t.peer) (((n.ledgers t.peer).addVal
          (allocKey (t.need.ref.key t.need.spec.algo) (borrowRequest t.need t.id).windowId) (-given)).setVal
          (lendKey (t.need.ref.key t.need.spec.algo) (borrowRequest t.need t.id).transferId) given) := by
        have := @loan_kept ι q (n.ledgers t.peer) _ (q.base t.peer) t.need.window (-given) t.id q.stem
          (key_stem t.need.ref (valid_of_fixed hfix)) hs.word hq
        rwa [neg_neg] at this
      refine h.other hk hq { t with debited := t.debited + _ } rfl rfl rfl hkept fun r hr => ?_
      rcases List.mem_append.mp hr with hr | hr
      · exact .inl hr
      · cases List.mem_singleton.mp hr
        exact .inr rfl

theorem Balanced.credit (h : Balanced d q n) {k : ℕ} {t : Transfer ι} (hk : n.transfers[k]? = some t)
    {given : ℤ} (hr : (k, given) ∈ n.replies) (now : ℤ) : Balanced d q (n.credit k t given now) := by
  have hs := h.sound k t hk
  unfold Net.credit
  split
  · exact h
  rename_i hpos
  generalize hres : (n.ledgers t.fromRegion).creditAlloc now t.need.ref t.need.spec t.need.window given t.id = res
  obtain ⟨res, m'⟩ := res
  rcases creditAlloc_cases hres with ⟨hne, rfl⟩ | ⟨rfl, hfix, hnew, rfl⟩
  · have hsame : (n.setLedger t.fromRegion (n.ledgers t.fromRegion)) = n := by
      unfold Net.setLedger
      rw [Function.update_eq_self]
    split
    · rename_i heq
      cases heq
      exact absurd rfl hne
    · rename_i heq
      cases heq
      rw [hsame]
      exact h
  · -- the first credit under this ID: what was on its way is now here
    dsimp only
    change Balanced d q ⟨Function.update n.ledgers t.fromRegion _, _, n.replies⟩
    have hrep : ∀ r ∈ n.replies, (r ∈ n.replies ∧ r.1 ≠ k) ∨
        (r.1 = k ∧ (t.key = q.key → 0 < r.2 → r.2 = ({ t with credited := true } : Transfer ι).debited)) := by
      intro r hr
      by_cases hrk : r.1 = k
      · obtain ⟨t₂, ht₂, hv⟩ := h.replied r hr
        rw [hrk, hk] at ht₂
        cases ht₂
        exact .inr ⟨hrk, hv⟩
      · exact .inl ⟨hr, hrk⟩
    by_cases hq : t.key = q.key
    · have hq' : t.need.ref.key t.need.spec.algo = q.key := hq
      rw [hq'] at hnew ⊢
      set m := n.ledgers t.fromRegion
      have hdeb : given = t.debited := by
        obtain ⟨t₂, ht₂, hv⟩ := h.replied _ hr
        rw [hk] at ht₂
        cases ht₂
        exact hv hq (by omega)
      have hpaid : 0 < t.debited := by omega
      have hopen : t.credited = false := by
        by_contra hc
        have := (hs.credited hq (by simpa using hc)).2
        rw [hnew] at this
        cases this
      have hmark := moved_addVal q.stem (m.mark (creditKey q.key t.id)) t.need.window given
      have hmv : Moved q.key t.need.window given none m
          ((m.mark (creditKey q.key t.id)).addVal (allocKey q.key t.need.window) given) :=
        ⟨hmark.alloc, hmark.used, hmark.lend, fun x hx => hmark.deduped x (by simp [hx])⟩
      have hroom := h.solid t.fromRegion t.need.window
      refine h.update hk { t with credited := true } rfl rfl (hmv.solid (h.solid _) (by linarith [hroom.2]))
        (fun id hw _ => hmv.lend id hw (by simp)) hmv.deduped ⟨hs.word, hs.fits, fun _ => ?_, hs.nonneg, fun _ _ => ⟨hpaid, ?_⟩⟩ hrep fun w => ?_
      · rw [← hs.lent hq]
        by_cases hp : t.peer = t.fromRegion
        · rw [hp, Function.update_self]
          exact congrArg (·.getD 0) (hmv.lend t.id hs.word (by simp))
        · rw [Function.update_of_ne hp]
      · rw [Function.update_self]
        simp
      · have ha := hmv.alloc w
        change Mem.getInt _ (allocKey q.key w) 0 + _ = m.getInt (allocKey q.key w) 0 + _
        unfold GlobalQuota.pending
        simp only [Transfer.key, hq', hopen, true_and, and_true, Bool.true_eq_false, and_false, if_false]
        rw [ha, hdeb]
        by_cases hw : w = t.need.window
        · simp [hw]
        · simp [hw, Ne.symm hw]
    · have hkept : Kept q.key (q.base t.fromRegion) (n.ledgers t.fromRegion) (((n.ledgers t.fromRegion).mark
          (creditKey (t.need.ref.key t.need.spec.algo) t.id)).addVal
          (allocKey (t.need.ref.key t.need.spec.algo) t.need.window) given) :=
        credit_kept q.stem (key_stem t.need.ref (valid_of_fixed hfix)) hq
      exact h.other hk hq { t with credited := true } rfl rfl rfl hkept fun r hr => .inl hr

theorem Balanced.step (h : Balanced d q n) {a : NetAct ι} {n' : Net ι} (hc : q.calls d a)
    (hs : n.step d a = some n') : Balanced d q n' := by
  cases a with
  | grant i ord now it =>
    cases hs
    exact h.setLedger (grant_kept hc)
  | ret i now dedupe rs =>
    cases hs
    exact h.setLedger (ret_kept hc)
  | borrow i peer now need bytes =>
    simp only [Net.step] at hs
    split at hs
    · rename_i hg
      cases hs
      exact h.borrow hc hg.2
    · cases hs
  | lend k now now' =>
    obtain ⟨t, ht, rfl⟩ := Option.map_eq_some_iff.mp hs
    exact h.lend ht now now'
  | credit r now =>
    obtain ⟨a, ha, hs⟩ := Option.bind_eq_some_iff.mp hs
    obtain ⟨t, ht, rfl⟩ := Option.map_eq_some_iff.mp hs
    exact h.credit ht (List.mem_of_getElem? ha) now

/-- However requests and replies are lost, delayed or repeated, and whatever clocks the
regions read: in every window the allocations and what is on its way stay within the
quota, every region stays within its allocation, and so all of them within the quota. -/
theorem transfers_never_overshoot (d : Regions ι) (q : GlobalQuota ι) {acts : List (NetAct ι)} {n : Net ι}
    (hc : Conc.Along (Net.step d) (fun _ a => q.calls d a) Net.init acts)
    (hr : Conc.runAll (Net.step d) Net.init acts = some n) (w : ℤ) :
    ∑ i, q.allocation n i w + q.inTransit n w ≤ q.total ∧ 0 ≤ q.inTransit n w ∧
      (∀ i, 0 ≤ q.used n i w ∧ q.used n i w ≤ q.allocation n i w) ∧ ∑ i, q.used n i w ≤ q.total := by
  have hb : Balanced d q n :=
    Conc.inv_runAll (fun _ _ _ h hc hs => h.step hc hs) acts Net.init n (balanced_init d q) hc hr
  have hsum := hb.sum w
  have hpos := hb.inTransit_nonneg w
  have hin : ∀ i, 0 ≤ q.used n i w ∧ q.used n i w ≤ q.allocation n i w := fun i => hb.solid i w
  refine ⟨hsum.le, hpos, hin, ?_⟩
  calc ∑ i, q.used n i w ≤ ∑ i, q.allocation n i w := Finset.sum_le_sum fun i _ => (hin i).2
    _ ≤ q.total := by linarith

end Books

/-! Two regions with half of a quota of eight each: the first runs out, borrows two from the
second, gets the reply twice and grants them. -/

namespace Borrowing

def env (i : Bool) : HubEnv where
  matchPattern _ _ := true
  tier _ _ := some "free"
  owner _ _ := some ""
  orgID s := s
  score _ _ := 0
  region := some (if i then "eu" else "us")

def cfg : GatewayConfig :=
  ⟨[⟨"v1", second, [⟨"svc", [⟨"free", 8, .fixedWindow, 0⟩], none, "", [], none, ⟨"fixed", 0, 0, 0⟩,
    some ⟨[("eu", 1 / 2), ("us", 1 / 2)]⟩⟩]⟩], [], ""⟩

def regions : Regions Bool := ⟨env, fun _ => cfg⟩

def quota : GlobalQuota Bool where
  ref := ⟨"v1", "svc", "", "key", ""⟩
  spec := ⟨.fixedWindow, 8, second, 0⟩
  base _ := 4
  fixed := rfl
  nonneg _ := by decide

def item (n : ℤ) : Item := ⟨quota.ref, quota.spec, { noArgs with requested := n, regional := true, allocBase := 4 }⟩

def need : Need := ⟨quota.ref, quota.spec, 5, ⟨"v1", "svc", "key", "", "free", 0, 0, ""⟩⟩

def order : RangeOrder := ⟨id, perm_in_place⟩

def steps : List (NetAct Bool) :=
  [.grant true order 5100 (item 4), .borrow true false 5200 need (.replicate 12 171), .lend 0 5900 5900, .lend 0 5950 5950,
    .credit 0 5990, .credit 1 5991, .grant true order 5995 (item 2)]

end Borrowing

open Borrowing in
theorem transfers_never_overshoot_one_loan :
    ∃ n, Conc.runAll (Net.step regions) Net.init steps = some n ∧ quota.used n true 5 = 6 ∧
      quota.used n true 5 + quota.used n false 5 ≤ 8 := by
  have hu : (Conc.runAll (Net.step regions) Net.init steps).map (fun n => quota.used n true 5) = some 6 := by
    decide +kernel
  obtain ⟨n, hr, hn⟩ := Option.map_eq_some_iff.mp hu
  have h := (transfers_never_overshoot regions quota (by decide +kernel) hr 5).2.2.2
  refine ⟨n, hr, hn, ?_⟩
  rw [Fintype.sum_bool] at h
  exact h

end Gate
