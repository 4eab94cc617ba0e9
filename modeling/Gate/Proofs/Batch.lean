import Gate.Proofs.GrantBounds
import Gate.Proofs.ValidSpecs
import Gate.Spec.Batch

/-! A batch of lease requests is answered as the requests would be one after the other. The
requests that do not resolve leave the ledger alone, so taking them out first changes nothing for
the others; and the one error that the two ways report differently does not occur under a valid
config. -/

namespace Gate

section
variable {σ : Type} (G : Granter σ) (env : HubEnv) (cfg : GatewayConfig) (cn : String)

/-- The answer of a request that does not resolve. -/
def refusal (r : QuotaLeaseRequest) : Option (Except Code QuotaLeaseResponse) :=
  match resolveLease env cfg cn r with
  | .error code => some (.error code)
  | .ok _ => none

/-- The requests that resolve, with their places from `k` on. -/
def resolvedFrom (k : ℕ) : List QuotaLeaseRequest → List BatchedLease
  | [] => []
  | r :: rs =>
    match resolveLease env cfg cn r with
    | .error _ => resolvedFrom (k + 1) rs
    | .ok it => ⟨k, r, it⟩ :: resolvedFrom (k + 1) rs

/-- A slot is filled where a list of slots is cut. -/
theorem set_at_cut {α : Type} (before after : List α) (a b : α) :
    (before ++ a :: after).set before.length b = before ++ b :: after := by
  rw [List.set_append_right _ _ le_rfl, Nat.sub_self, List.set_cons_zero]

/-- The first loop, at a place `k` of the batch. -/
theorem foldl_collectLease (rs : List QuotaLeaseRequest) (before : Results) (leases : List BatchedLease) :
    (rs.zipIdx before.length).foldl (collectLease env cfg cn) (before ++ List.replicate rs.length none, leases) =
      (before ++ rs.map (refusal env cfg cn), leases ++ resolvedFrom env cfg cn before.length rs) := by
  induction rs generalizing before leases with
  | nil => simp [resolvedFrom]
  | cons r rs ih =>
    rw [List.zipIdx_cons, List.foldl_cons, List.length_cons, List.replicate_succ, List.map_cons]
    cases hr : resolveLease env cfg cn r with
    | error code =>
      have hstep : collectLease env cfg cn (before ++ none :: List.replicate rs.length none, leases) (r, before.length) =
          ((before ++ [some (.error code)]) ++ List.replicate rs.length none, leases) := by
        simp only [collectLease, hr, set_at_cut, List.append_assoc, List.singleton_append]
      have hlen : before.length + 1 = (before ++ [some (Except.error code : Except Code QuotaLeaseResponse)]).length := by simp
      rw [hstep, hlen, ih]
      simp [refusal, resolvedFrom, hr]
    | ok it =>
      have hstep : collectLease env cfg cn (before ++ none :: List.replicate rs.length none, leases) (r, before.length) =
          ((before ++ [none]) ++ List.replicate rs.length none, leases ++ [⟨before.length, r, it⟩]) := by
        simp only [collectLease, hr, List.append_assoc, List.singleton_append]
      have hlen : before.length + 1 = (before ++ [(none : Option (Except Code QuotaLeaseResponse))]).length := by simp
      rw [hstep, hlen, ih]
      simp [refusal, resolvedFrom, hr]

/-- A request that resolves, answered in its slot and by itself. -/
theorem answerLease_single {r : QuotaLeaseRequest} {it : Item} {inp : GrantInput} (hres : resolveLease env cfg cn r = .ok it)
    (hinp : prepare it.ref it.spec it.args = .ok inp) (s : LeaseServer σ) (out : Results) (k : ℕ) :
    (s.requestQuotaLease G env cfg cn r).2.ledger = (G.grant s.ledger it).2 ∧
      ∃ y, classOf y = classOf (s.requestQuotaLease G env cfg cn r).1 ∧
        answerLease env (out, s.needs) (⟨k, r, it⟩, (G.grant s.ledger it).1) =
          (out.set k (some y), (s.requestQuotaLease G env cfg cn r).2.needs) := by
  unfold LeaseServer.requestQuotaLease
  rw [hres]
  dsimp only
  cases hg : G.grant s.ledger it with
  | mk answer ledger =>
    cases answer with
    | error e =>
      cases e with
      | badSpec => exact absurd hinp (G.badSpec s.ledger it (by rw [hg]) inp)
      | other => exact ⟨rfl, .error .unavailable, rfl, rfl⟩
    | ok g => exact ⟨rfl, .ok (grantResponse it.spec.limit g), rfl, rfl⟩

/-- The second loop, beside the single calls. -/
theorem foldl_answerLease {rs : List QuotaLeaseRequest}
    (hready : ∀ r ∈ rs, ∀ it, resolveLease env cfg cn r = .ok it → ∃ inp, prepare it.ref it.spec it.args = .ok inp)
    (before : Results) (s : LeaseServer σ) :
    ∃ after : Results,
      ((resolvedFrom env cfg cn before.length rs).zip
          (G.grantAll s.ledger ((resolvedFrom env cfg cn before.length rs).map BatchedLease.item)).1).foldl (answerLease env)
        (before ++ rs.map (refusal env cfg cn), s.needs) = (before ++ after, (s.requestEach G env cfg cn rs).2.needs) ∧
      after.map (Option.map classOf) = (s.requestEach G env cfg cn rs).1.map (some ∘ classOf) ∧
      (G.grantAll s.ledger ((resolvedFrom env cfg cn before.length rs).map BatchedLease.item)).2 =
        (s.requestEach G env cfg cn rs).2.ledger := by
  induction rs generalizing before s with
  | nil => exact ⟨[], rfl, rfl, rfl⟩
  | cons r rs ih =>
    obtain ⟨hr, hrs⟩ := List.forall_mem_cons.mp hready
    rw [LeaseServer.requestEach, resolvedFrom]
    cases hres : resolveLease env cfg cn r with
    | error code =>
      -- its slot is filled already, and the ledger is not asked
      have hsingle : s.requestQuotaLease G env cfg cn r = (.error code, s) := by simp only [LeaseServer.requestQuotaLease, hres]
      obtain ⟨after, hfold, hclass, hledger⟩ := ih hrs (before ++ [some (.error code)]) s
      rw [List.length_append, List.length_singleton] at hfold hledger
      rw [hsingle]
      refine ⟨some (.error code) :: after, ?_, ?_, hledger⟩
      · simpa [refusal, hres] using hfold
      · simpa using hclass
    | ok it =>
      obtain ⟨inp, hinp⟩ := hr it hres
      obtain ⟨hnext, y, hy, hanswer⟩ := answerLease_single G env cfg cn hres hinp s
        (before ++ none :: rs.map (refusal env cfg cn)) before.length
      obtain ⟨after, hfold, hclass, hledger⟩ := ih hrs (before ++ [some y]) (s.requestQuotaLease G env cfg cn r).2
      rw [List.length_append, List.length_singleton, hnext] at hfold hledger
      rw [set_at_cut] at hanswer
      refine ⟨some y :: after, ?_, ?_, ?_⟩
      · have hslot : refusal env cfg cn r = none := by simp only [refusal, hres]
        simp only [List.map_cons, Granter.grantAll, List.zip_cons_cons, List.foldl_cons, hslot, hanswer]
        simpa using hfold
      · simpa [hy] using hclass
      · simpa [Granter.grantAll] using hledger

end

/-- Under a valid config, a batch over any ledger gives at each place the response, or the class of
error, that the requests give one after the other, and leaves the same ledger and the same needs. -/
theorem batching_transparent {σ : Type} {lib : Library} {f : Config.File} (h : Config.Accepted lib f) (G : Granter σ)
    (env : HubEnv) (cn : String) (s : LeaseServer σ) (rs : List QuotaLeaseRequest) :
    (s.requestQuotaLeases G env (Config.compile f).limiting cn rs).1.map (Option.map classOf) =
        (s.requestEach G env (Config.compile f).limiting cn rs).1.map (some ∘ classOf) ∧
      (s.requestQuotaLeases G env (Config.compile f).limiting cn rs).2 =
        (s.requestEach G env (Config.compile f).limiting cn rs).2 := by
  have hready : ∀ r ∈ rs, ∀ it, resolveLease env (Config.compile f).limiting cn r = .ok it →
      ∃ inp, prepare it.ref it.spec it.args = .ok inp := by
    intro r _ it hit
    exact (Config.resolveLease_grounded h.sound hit).prepare
  obtain ⟨after, hfold, hclass, hledger⟩ := foldl_answerLease G env _ cn hready [] s
  have hcollect := foldl_collectLease env (Config.compile f).limiting cn rs [] []
  unfold LeaseServer.requestQuotaLeases
  simp only [List.nil_append, List.length_nil] at hcollect hfold hledger
  rw [hcollect]
  dsimp only
  rw [hfold, hledger]
  exact ⟨hclass, rfl⟩

namespace Sample

/-- A request that resolves, one of a service that is not there, and the first again. -/
def threeRequests : List QuotaLeaseRequest :=
  [Config.freeRequest, { Config.freeRequest with serviceId := "gone" }, Config.freeRequest]

def freshServer : LeaseServer (ℕ × Mem) := ⟨(0, Mem.new), fun _ => none⟩

end Sample

open Sample in
theorem batching_transparent_three_requests :
    (freshServer.requestQuotaLeases (Mem.granter (fun _ => anyOrder) 5100) Config.oneKeyHub
        (Config.compile (Config.ordersFile { requests := 100 })).limiting "" threeRequests).1.map (Option.map classOf) =
      (freshServer.requestEach (Mem.granter (fun _ => anyOrder) 5100) Config.oneKeyHub
        (Config.compile (Config.ordersFile { requests := 100 })).limiting "" threeRequests).1.map (some ∘ classOf) ∧
    (freshServer.requestEach (Mem.granter (fun _ => anyOrder) 5100) Config.oneKeyHub
        (Config.compile (Config.ordersFile { requests := 100 })).limiting "" threeRequests).1.map
      (fun x => (classOf x).toOption.map (·.remainingGlobal)) = [some 90, none, some 80] := by
  have hacc : Config.Accepted Config.plainLibrary (Config.ordersFile { requests := 100 }) := by decide +kernel
  exact ⟨(batching_transparent hacc _ _ _ _ _).1, by decide +kernel⟩

end Gate
