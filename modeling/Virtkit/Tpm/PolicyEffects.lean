import Virtkit.Common.Loops
import Virtkit.Tpm.Policy

/-!
# What policy commands do to a session

A policy command changes nothing of a session but its policyDigest and what the policy requires. For each
command, this is what it requires afterwards, and what had to hold for it to succeed.
-/

namespace Virtkit.Tpm

open Virtkit.Common

/-- What is required once an authorization was given with a cpHash and a timeout. -/
def PolicyState.contextUpdated (p : PolicyState) (cpHash : Bytes) (timeout : ℕ) : PolicyState :=
  { p with
    bound := if cpHash = [] then p.bound else some (.cpHash, cpHash)
    timeout := if timeout ≠ 0 ∧ (p.timeout = 0 ∨ timeout < p.timeout) then timeout else p.timeout }

/-- A cpHash has the size of the session's digests, and is what the session is bound to, if it is bound. -/
def Session.Fits (s : Session) (cpHash : Bytes) : Prop :=
  cpHash ≠ [] → cpHash.length = s.policyDigest.length ∧ ∀ b, s.policy.bound = some b → b.2 = cpHash

/-- What a policy command that succeeds requires afterwards, and what it found. -/
def PolicyCommand.Effect (env : Env) (s : Session) (p : PolicyState) : PolicyCommand → Prop
  | .signed a _ _ | .secret a _ =>
    (s.isTrial = false → s.Fits a.cpHash) ∧
      p = s.policy.contextUpdated a.cpHash (if s.isTrial then 0 else authTimeout env s a.expiration a.nonce)
  | .ticket _ cp _ _ _ _ _ => s.Fits cp ∧ ∃ expires, p = s.policy.contextUpdated cp expires
  | .pcr _ _ =>
    if s.isTrial then p = s.policy
    else (s.policy.pcrCounter ≠ 0 → s.policy.pcrCounter = env.pcrs.counter) ∧
      p = { s.policy with pcrCounter := env.pcrs.counter }
  | .locality l => ∃ next, nextLocality s.policy.locality l = .ok next ∧ p = { s.policy with locality := next }
  | .commandCode code _ =>
    (s.policy.commandCode ≠ 0 → s.policy.commandCode = code) ∧ p = { s.policy with commandCode := code }
  | .physicalPresence => p = { s.policy with ppRequired := true }
  | .cpHash digest =>
    digest.length = s.hash.size ∧ (∀ b, s.policy.bound = some b → b = (.cpHash, digest)) ∧
      p = { s.policy with bound := some (.cpHash, digest) }
  | .nameHash digest =>
    digest.length = s.hash.size ∧ s.policy.bound = none ∧ p = { s.policy with bound := some (.names, digest) }
  | .duplicationSelect _ _ _ =>
    s.policy.bound = none ∧ s.policy.commandCode = 0 ∧ ∃ digest : Bytes, digest.length = s.hash.size ∧
      p = { s.policy with bound := some (.names, digest), commandCode := duplicateCode }
  | .authValue => p = { s.policy with authValueNeeded := true, passwordNeeded := false }
  | .password => p = { s.policy with passwordNeeded := true, authValueNeeded := false }
  | .nvWritten written =>
    (∀ w, s.policy.nvWritten = some w → w = written) ∧ p = { s.policy with nvWritten := some written }
  | .template digest =>
    digest.length = s.hash.size ∧ (∀ b, s.policy.bound = some b → b = (.template, digest)) ∧
      p = { s.policy with bound := some (.template, digest) }
  | .restart => p = {}
  | .or _ | .nv _ _ _ _ | .counterTimer _ _ _ | .authorize _ _ _ _ _ | .getDigest | .authorizeNv _ => p = s.policy

variable {cr : Crypto} {env : Env} {s s' : Session} {out : Bytes}

namespace Session

def WithPolicy (s s' : Session) : Prop :=
  s' = { s with policyDigest := s'.policyDigest, policy := s'.policy } ∧
    (s'.policyDigest.length = s.hash.size ∨ s'.policyDigest.length = s.policyDigest.length)

theorem withPolicy_extend (s : Session) (code : ℕ) (parts : List Bytes) : s.WithPolicy (s.extend cr code parts) :=
  ⟨rfl, .inl (cr.length_digest _ _)⟩

theorem contextUpdate_eq (s : Session) (code : ℕ) (name : Bytes) (ref : Option Bytes) (cp : Bytes) (expires : ℕ) :
    ∃ digest : Bytes, digest.length = s.hash.size ∧ s.contextUpdate cr code name ref cp expires =
        { s with policyDigest := digest, policy := s.policy.contextUpdated cp expires } := by
  refine ⟨(s.contextUpdate cr code name ref cp expires).policyDigest, ?_, ?_⟩
  · unfold contextUpdate
    cases ref <;> (dsimp only [Option.elim]; split_ifs <;> exact cr.length_digest _ _)
  · unfold contextUpdate PolicyState.contextUpdated
    cases ref <;> (dsimp only [Option.elim, extend]; split_ifs <;> simp_all)

end Session

theorem fits_of_policyParameterChecks {expires : ℕ} {cp : Bytes} {nonce : Option Bytes} {n₁ n₂ n₃ : ℕ}
    (h : policyParameterChecks env s expires cp nonce n₁ n₂ n₃ = .ok ()) : s.Fits cp := by
  unfold policyParameterChecks at h
  obtain ⟨-, h⟩ := check_eq_ok.mp h
  obtain ⟨-, h⟩ := check_eq_ok.mp h
  obtain ⟨hsize, h⟩ := check_eq_ok.mp h
  obtain ⟨hbound, -⟩ := check_eq_ok.mp h
  intro hcp
  refine ⟨?_, fun b hb => ?_⟩
  · by_contra hne
    exact hsize ⟨hcp, hne⟩
  · by_contra hne
    exact hbound ⟨hcp, by simpa [hb] using hne⟩

section

variable (s : Session) (code : ℕ) (name : Bytes) (ref : Option Bytes)

theorem withPolicy_contextUpdate (cp : Bytes) (expires : ℕ) :
    s.WithPolicy (s.contextUpdate cr code name ref cp expires) ∧
      (s.contextUpdate cr code name ref cp expires).policy = s.policy.contextUpdated cp expires := by
  obtain ⟨digest, hlength, heq⟩ := s.contextUpdate_eq code name ref cp expires
  rw [heq]
  exact ⟨⟨rfl, .inl hlength⟩, rfl⟩

theorem withPolicy_clearDigest_contextUpdate : s.WithPolicy (s.clearDigest.contextUpdate cr code name ref [] 0) ∧
      (s.clearDigest.contextUpdate cr code name ref [] 0).policy = s.policy := by
  obtain ⟨digest, hlength, heq⟩ := s.clearDigest.contextUpdate_eq code name ref [] 0
  rw [heq]
  exact ⟨⟨rfl, .inl hlength⟩, rfl⟩

end

/-- An authorization binds the parameters and the time it gives. -/
theorem policyAuthorization_ok {tag : AuthTag} {a : Authorization} {entity : Entity} {signature : Except Rc Unit}
    (h : policyAuthorization cr env s tag a entity signature = .ok (s', out)) :
    s.WithPolicy s' ∧ (s.isTrial = false → s.Fits a.cpHash) ∧ s'.policy =
        s.policy.contextUpdated a.cpHash (if s.isTrial then 0 else authTimeout env s a.expiration a.nonce) := by
  unfold policyAuthorization at h
  cases htrial : s.isTrial with
  | true =>
    rw [htrial, if_pos rfl] at h
    obtain rfl := fst_of_ok h
    obtain ⟨hwith, hpolicy⟩ := withPolicy_contextUpdate s tag.code entity.name (some a.policyRef) a.cpHash 0
    exact ⟨hwith, nofun, hpolicy⟩
  | false =>
    rw [htrial, if_neg Bool.false_ne_true] at h
    obtain ⟨_, hchecks, h⟩ := bind_eq_ok.mp h
    obtain ⟨_, _, h⟩ := bind_eq_ok.mp h
    obtain rfl := fst_of_ok h
    obtain ⟨hwith, hpolicy⟩ := withPolicy_contextUpdate s tag.code entity.name (some a.policyRef) a.cpHash
      (authTimeout env s a.expiration a.nonce)
    exact ⟨hwith, fun _ => fits_of_policyParameterChecks hchecks, hpolicy⟩

theorem policyTicket_ok {bytes cp ref name digest : Bytes} {tag : AuthTag} {hierarchy : Hierarchy}
    (h : policyTicket cr env s bytes cp ref name tag hierarchy digest = .ok (s', out)) :
    s.WithPolicy s' ∧ s.Fits cp ∧ ∃ expires, s'.policy = s.policy.contextUpdated cp expires := by
  unfold policyTicket at h
  obtain ⟨_, h⟩ := check_eq_ok.mp h
  obtain ⟨_, h⟩ := check_eq_ok.mp h
  obtain ⟨_, hchecks, h⟩ := bind_eq_ok.mp h
  obtain ⟨_, h⟩ := check_eq_ok.mp h
  obtain rfl := fst_of_ok h
  obtain ⟨hwith, hpolicy⟩ := withPolicy_contextUpdate s tag.code name (some ref) cp (ofBe bytes % expirationBit)
  exact ⟨hwith, fits_of_policyParameterChecks hchecks, _, hpolicy⟩

theorem policyPcr_ok {digest : Bytes} {selections : List Selection}
    (h : policyPcr cr env s digest selections = .ok (s', out)) :
    s.WithPolicy s' ∧ if s.isTrial then s'.policy = s.policy
      else (s.policy.pcrCounter ≠ 0 → s.policy.pcrCounter = env.pcrs.counter) ∧
        s'.policy = { s.policy with pcrCounter := env.pcrs.counter } := by
  unfold policyPcr at h
  cases htrial : s.isTrial with
  | true =>
    rw [htrial, if_pos rfl] at h
    obtain rfl := fst_of_ok h
    exact ⟨s.withPolicy_extend _ _, rfl⟩
  | false =>
    rw [htrial, if_neg Bool.false_ne_true] at h
    obtain ⟨hcounter, h⟩ := check_eq_ok.mp h
    obtain ⟨_, h⟩ := check_eq_ok.mp h
    obtain rfl := fst_of_ok h
    refine ⟨⟨rfl, .inl (cr.length_digest _ _)⟩, ?_⟩
    rw [if_neg Bool.false_ne_true]
    refine ⟨fun hne => ?_, rfl⟩
    by_contra hdiff
    exact hcounter ⟨hne, hdiff⟩

theorem policyTemplate_ok {digest : Bytes} (h : policyTemplate cr s digest = .ok (s', out)) :
    s.WithPolicy s' ∧ digest.length = s.hash.size ∧ (∀ b, s.policy.bound = some b → b = (.template, digest)) ∧
      s'.policy = { s.policy with bound := some (.template, digest) } := by
  unfold policyTemplate at h
  obtain ⟨_, hbound, h⟩ := bind_eq_ok.mp h
  obtain ⟨hlength, h⟩ := check_eq_ok.mp h
  obtain rfl := fst_of_ok h
  refine ⟨⟨rfl, .inl (cr.length_digest _ _)⟩, not_not.mp hlength, fun b hb => ?_, rfl⟩
  rw [templateFits, hb] at hbound
  match b with
  | (.cpHash, d) => exact nomatch hbound
  | (.names, d) => exact nomatch hbound
  | (.template, d) =>
    obtain ⟨hd, _⟩ := check_eq_ok.mp hbound
    rw [not_not.mp hd]

/-- What a policy command does to the policy. -/
theorem PolicyCommand.run_ok {c : PolicyCommand} (h : c.run cr env s = .ok (s', out)) :
    s.WithPolicy s' ∧ c.Effect env s s'.policy := by
  cases c with
  | signed a key check | secret a entity => exact policyAuthorization_ok h
  | ticket expires cp ref name tag hierarchy digest => exact policyTicket_ok h
  | pcr digest selections => exact policyPcr_ok h
  | template digest => exact policyTemplate_ok h
  | or branches =>
    obtain ⟨_, h⟩ := check_eq_ok.mp h
    obtain rfl := fst_of_ok h
    exact ⟨⟨rfl, .inl (cr.length_digest _ _)⟩, rfl⟩
  | locality l =>
    obtain ⟨next, hnext, h⟩ := bind_eq_ok.mp h
    obtain rfl := fst_of_ok h
    exact ⟨⟨rfl, .inl (cr.length_digest _ _)⟩, next, hnext, rfl⟩
  | nv operand offset op index | counterTimer operand offset op =>
    obtain ⟨_, _, h⟩ := bind_eq_ok.mp h
    obtain rfl := fst_of_ok h
    exact ⟨s.withPolicy_extend _ _, rfl⟩
  | commandCode code found =>
    obtain ⟨hcode, h⟩ := check_eq_ok.mp h
    obtain ⟨_, h⟩ := check_eq_ok.mp h
    obtain rfl := fst_of_ok h
    refine ⟨⟨rfl, .inl (cr.length_digest _ _)⟩, fun hne => ?_, rfl⟩
    by_contra hdiff
    exact hcode ⟨hne, hdiff⟩
  | cpHash digest =>
    obtain ⟨hlength, h⟩ := check_eq_ok.mp h
    obtain ⟨hbound, h⟩ := check_eq_ok.mp h
    obtain rfl := fst_of_ok h
    refine ⟨⟨rfl, .inl (cr.length_digest _ _)⟩, not_not.mp hlength, fun b hb => ?_, rfl⟩
    by_contra hne
    exact hbound (by simpa [hb] using hne)
  | nameHash digest =>
    obtain ⟨hlength, h⟩ := check_eq_ok.mp h
    obtain ⟨hbound, h⟩ := check_eq_ok.mp h
    obtain rfl := fst_of_ok h
    exact ⟨⟨rfl, .inl (cr.length_digest _ _)⟩, not_not.mp hlength, by simpa using hbound, rfl⟩
  | duplicationSelect object newParent includeObject =>
    obtain ⟨hbound, h⟩ := check_eq_ok.mp h
    obtain ⟨hcode, h⟩ := check_eq_ok.mp h
    obtain rfl := fst_of_ok h
    exact ⟨⟨rfl, .inl (cr.length_digest _ _)⟩, by simpa using hbound, not_not.mp hcode, _, cr.length_digest _ _, rfl⟩
  | authorize approved ref keySign hierarchy digest =>
    obtain ⟨_, h⟩ := check_eq_ok.mp h
    cases hhash : hashFromId (ofBe (keySign.take 2)) with
    | none =>
      rw [hhash] at h
      nomatch h
    | some hash =>
      rw [hhash] at h
      obtain ⟨_, h⟩ := check_eq_ok.mp h
      obtain ⟨_, h⟩ := check_eq_ok.mp h
      obtain ⟨_, h⟩ := check_eq_ok.mp h
      obtain rfl := fst_of_ok h
      exact withPolicy_clearDigest_contextUpdate s _ _ _
  | physicalPresence | authValue | password =>
    obtain rfl := fst_of_ok h
    exact ⟨⟨rfl, .inl (cr.length_digest _ _)⟩, rfl⟩
  | getDigest =>
    obtain rfl := fst_of_ok h
    exact ⟨⟨rfl, .inr rfl⟩, rfl⟩
  | nvWritten written =>
    obtain ⟨hwritten, h⟩ := check_eq_ok.mp h
    obtain rfl := fst_of_ok h
    refine ⟨⟨rfl, .inl (cr.length_digest _ _)⟩, fun w hw => ?_, rfl⟩
    by_contra hne
    exact hwritten (by simpa [hw] using hne)
  | authorizeNv index =>
    obtain ⟨_, _, h⟩ := bind_eq_ok.mp h
    obtain rfl := fst_of_ok h
    exact withPolicy_clearDigest_contextUpdate s _ _ _
  | restart =>
    obtain rfl := fst_of_ok h
    exact ⟨⟨rfl, .inr List.length_replicate⟩, rfl⟩

end Virtkit.Tpm
