import Mathlib.Data.Nat.Bitwise
import Virtkit.Common.Transition
import Virtkit.Tpm.PolicyEffects

/-!
# Policy commands narrow

What a policy session requires only grows, from one point to another between which its policy does not start
over. There is one way out: TPM2_PolicySigned, TPM2_PolicySecret and TPM2_PolicyTicket compare the cpHash they
are given with the digest the session is bound to, whatever that digest is of. Where it is that of Names or of a
template, it is taken for a cpHash from then on.
-/

namespace Virtkit.Tpm

open Virtkit.Common

/-- The localities a command may come from: those of the bits, or one extended locality; any, if none is
required. -/
def PolicyState.Allows (p : PolicyState) (locality : ℕ) : Prop :=
  p.locality = 0 ∨ if p.locality < 32 then p.locality.testBit locality else locality = p.locality

/-- Whatever is required stays required. -/
structure Narrows (p q : PolicyState) : Prop where
  commandCode : p.commandCode ≠ 0 → q.commandCode = p.commandCode
  locality : ∀ l, q.Allows l → p.Allows l
  timeout : p.timeout ≠ 0 → q.timeout ≠ 0 ∧ q.timeout ≤ p.timeout
  ppRequired : p.ppRequired → q.ppRequired
  nvWritten : ∀ w, p.nvWritten = some w → q.nvWritten = some w
  pcrCounter : p.pcrCounter ≠ 0 → q.pcrCounter = p.pcrCounter
  authValue : p.authValueNeeded ∨ p.passwordNeeded → q.authValueNeeded ∨ q.passwordNeeded
  bound : ∀ b, p.bound = some b → q.bound = some b

namespace Narrows

variable {p q r : PolicyState}

protected theorem refl (p : PolicyState) : Narrows p p :=
  ⟨fun _ => rfl, fun _ h => h, fun h => ⟨h, le_refl _⟩, id, fun _ h => h, fun _ => rfl, id, fun _ h => h⟩

protected theorem trans (h : Narrows p q) (h' : Narrows q r) : Narrows p r where
  commandCode hp := by rw [h'.commandCode (h.commandCode hp ▸ hp), h.commandCode hp]
  locality l hl := h.locality l (h'.locality l hl)
  timeout hp :=
    have hq := h.timeout hp
    have hr := h'.timeout hq.1
    ⟨hr.1, hr.2.trans hq.2⟩
  ppRequired hp := h'.ppRequired (h.ppRequired hp)
  nvWritten w hp := h'.nvWritten w (h.nvWritten w hp)
  pcrCounter hp := by rw [h'.pcrCounter (h.pcrCounter hp ▸ hp), h.pcrCounter hp]
  authValue hp := h'.authValue (h.authValue hp)
  bound b hp := h'.bound b (h.bound b hp)

end Narrows

theorem allows_of_nextLocality {p : PolicyState} {l next l' : ℕ} (h : nextLocality p.locality l = .ok next)
    (hl : ({ p with locality := next } : PolicyState).Allows l') : p.Allows l' := by
  unfold nextLocality at h
  by_cases hp : p.locality = 0
  · exact .inl hp
  obtain ⟨_, h⟩ := check_eq_ok.mp h
  obtain ⟨hsame, h⟩ := check_eq_ok.mp h
  have hsame : p.locality < 32 ↔ l < 32 := by
    by_contra hne
    exact hsame ⟨hp, hne⟩
  right
  by_cases hlow : l < 32
  · rw [if_pos hlow, if_neg hp] at h
    obtain ⟨hne, h⟩ := check_eq_ok.mp h
    obtain rfl := Except.ok.inj h
    have hbits : (p.locality &&& l).testBit l' := by
      have hlt : p.locality &&& l < 32 := lt_of_le_of_lt Nat.and_le_right hlow
      rcases hl with hl | hl
      · exact absurd hl hne
      · rwa [if_pos hlt] at hl
    rw [if_pos (hsame.mpr hlow)]
    rw [Nat.testBit_and, Bool.and_eq_true] at hbits
    exact hbits.1
  · rw [if_neg hlow] at h
    obtain ⟨heq, h⟩ := check_eq_ok.mp h
    obtain rfl := Except.ok.inj h
    have heq : p.locality = l := by
      by_contra hne
      exact heq ⟨hp, hne⟩
    rw [heq, if_neg hlow]
    rcases hl with hl | hl
    · exact absurd (heq.trans hl) hp
    · rwa [if_neg hlow] at hl

theorem narrows_contextUpdated {p : PolicyState} {cp : Bytes} (expires : ℕ)
    (hbound : cp ≠ [] → ∀ b, p.bound = some b → b = (.cpHash, cp)) : Narrows p (p.contextUpdated cp expires) where
  commandCode _ := rfl
  locality _ h := h
  timeout hp := by
    unfold PolicyState.contextUpdated
    dsimp only
    split_ifs with hexpires
    · exact ⟨hexpires.1, (hexpires.2.resolve_left hp).le⟩
    · exact ⟨hp, le_refl _⟩
  ppRequired := id
  nvWritten _ h := h
  pcrCounter _ := rfl
  authValue := id
  bound b hb := by
    unfold PolicyState.contextUpdated
    dsimp only
    split_ifs with hcp
    · exact hb
    · rw [hbound hcp b hb]

def PolicyCommand.givenCpHash : PolicyCommand → Bytes
  | .signed a _ _ | .secret a _ => a.cpHash
  | .ticket _ cp _ _ _ _ _ => cp
  | _ => []

/-- A command gives no cpHash that is the digest of Names or of a template the session is bound to. -/
def PolicyCommand.KeepsKind (s : Session) (c : PolicyCommand) : Prop :=
  c.givenCpHash ≠ [] → ∀ b, s.policy.bound = some b → b.2 = c.givenCpHash → b.1 = .cpHash

theorem bound_eq_of_fits {s : Session} {c : PolicyCommand} (hfits : s.Fits c.givenCpHash) (hkeeps : c.KeepsKind s) :
    c.givenCpHash ≠ [] → ∀ b, s.policy.bound = some b → b = (.cpHash, c.givenCpHash) := by
  intro hcp b hb
  have hdigest := (hfits hcp).2 b hb
  exact Prod.ext (hkeeps hcp b hb hdigest) hdigest

/-- What a command does narrows the policy. -/
theorem narrows_of_effect {env : Env} {s : Session} {p : PolicyState} {c : PolicyCommand} (htrial : s.isTrial = false)
    (hrestart : c ≠ .restart) (hkeeps : c.KeepsKind s) (h : c.Effect env s p) : Narrows s.policy p := by
  cases c with
  | signed a key check =>
    obtain ⟨hfits, rfl⟩ := h
    exact narrows_contextUpdated _ (bound_eq_of_fits (c := .signed a key check) (hfits htrial) hkeeps)
  | secret a entity =>
    obtain ⟨hfits, rfl⟩ := h
    exact narrows_contextUpdated _ (bound_eq_of_fits (c := .secret a entity) (hfits htrial) hkeeps)
  | ticket bytes cp ref name tag hierarchy digest =>
    obtain ⟨hfits, expires, rfl⟩ := h
    exact narrows_contextUpdated _ (bound_eq_of_fits (c := .ticket bytes cp ref name tag hierarchy digest) hfits hkeeps)
  | pcr digest selections =>
    rw [PolicyCommand.Effect, htrial, if_neg Bool.false_ne_true] at h
    obtain ⟨hcounter, rfl⟩ := h
    exact { Narrows.refl s.policy with pcrCounter := fun hne => (hcounter hne).symm }
  | locality l =>
    obtain ⟨next, hnext, rfl⟩ := h
    exact { Narrows.refl s.policy with locality := fun _ hl => allows_of_nextLocality hnext hl }
  | commandCode code found =>
    obtain ⟨hcode, rfl⟩ := h
    exact { Narrows.refl s.policy with commandCode := fun hne => (hcode hne).symm }
  | physicalPresence =>
    obtain rfl := h
    exact { Narrows.refl s.policy with ppRequired := fun _ => rfl }
  | cpHash digest | template digest =>
    obtain ⟨_, hbound, rfl⟩ := h
    exact { Narrows.refl s.policy with bound := fun b hb => by rw [hbound b hb] }
  | nameHash digest =>
    obtain ⟨_, hbound, rfl⟩ := h
    exact { Narrows.refl s.policy with bound := fun b hb => nomatch hbound.symm.trans hb }
  | duplicationSelect object newParent includeObject =>
    obtain ⟨hbound, hcode, digest, _, rfl⟩ := h
    exact { Narrows.refl s.policy with
      bound := fun b hb => nomatch hbound.symm.trans hb
      commandCode := fun hne => absurd hcode hne }
  | authValue =>
    obtain rfl := h
    exact { Narrows.refl s.policy with authValue := fun _ => .inl rfl }
  | password =>
    obtain rfl := h
    exact { Narrows.refl s.policy with authValue := fun _ => .inr rfl }
  | nvWritten written =>
    obtain ⟨hwritten, rfl⟩ := h
    exact { Narrows.refl s.policy with nvWritten := fun w hw => by rw [hwritten w hw] }
  | restart => exact absurd rfl hrestart
  | or branches | nv operand offset op index | counterTimer operand offset op
  | authorize approved ref keySign hierarchy digest | getDigest | authorizeNv index => exact h ▸ Narrows.refl p

/-- The policy commands on a session, each in whatever the TPM is then: one that fails changes nothing, and the
policy does not start over. -/
def policySystem (cr : Crypto) : System Session (Env × PolicyCommand) where
  init s := s.kind = .policy
  step s a s' := a.2 ≠ .restart ∧ match a.2.run cr a.1 s with
    | .ok (s₁, _) => s' = s₁
    | .error _ => s' = s

/-- A step of a policy session narrows its policy. -/
theorem narrows_of_step {cr : Crypto} {s s' : Session} {a : Env × PolicyCommand} (hkind : s.kind = .policy)
    (hkeeps : a.2.KeepsKind s) (h : (policySystem cr).step s a s') :
    s'.kind = .policy ∧ Narrows s.policy s'.policy := by
  obtain ⟨hrestart, h⟩ := h
  cases hrun : a.2.run cr a.1 s with
  | error e =>
    rw [hrun] at h
    obtain rfl := h
    exact ⟨hkind, Narrows.refl _⟩
  | ok r =>
    obtain ⟨s₁, out⟩ := r
    rw [hrun] at h
    obtain rfl := h
    obtain ⟨hwith, heffect⟩ := PolicyCommand.run_ok hrun
    have htrial : s.isTrial = false := by simp [Session.isTrial, hkind]
    refine ⟨?_, narrows_of_effect htrial hrestart hkeeps heffect⟩
    rw [hwith.1]
    exact hkind

/-- In a run of policy commands, none of which gives a cpHash that is the digest of Names or of a template the
session is bound to, whatever is required stays required. -/
theorem policy_commands_narrow {cr : Crypto} {s s' : Session} {as : List (Env × PolicyCommand)}
    (hkind : s.kind = .policy)
    (hrun : ((policySystem cr).restrict fun s a _ => a.2.KeepsKind s).Run s as s') : Narrows s.policy s'.policy := by
  induction hrun with
  | nil s => exact Narrows.refl _
  | cons hstep _ ih =>
    obtain ⟨hkind', hnarrow⟩ := narrows_of_step hkind hstep.2 hstep.1
    exact hnarrow.trans (ih hkind')

/-- Hashes that are all alike. -/
def zeroCrypto : Crypto where
  digest hash _ := List.replicate hash.size 0
  length_digest _ _ := List.length_replicate
  hmac _ _ _ := []

def startedEnv : Env where
  time := 0
  timeEpoch := 0
  totalResetCount := 0
  clockInfo := []
  proof _ := []
  pcrs := Pcrs.new
  allocation := []

/-- A policy session that was just started, with requirements. -/
def sessionWith (policy : PolicyState) : Session where
  kind := .policy
  hash := .sha1
  nonceTpm := List.replicate 16 0
  key := []
  symmetric := .null
  bound := none
  daBound := false
  lockoutBound := false
  audit := none
  policyDigest := List.replicate 20 0
  policy := policy
  startTime := 0
  epoch := 0

/-- A session for localities 0 and 1 that is then only for 1, and for TPM2_PolicyNV. -/
theorem policy_commands_narrow_locality :
    Narrows { locality := 3 } { locality := 2, commandCode := 0x149 } := by
  refine @policy_commands_narrow zeroCrypto (sessionWith { locality := 3 })
    (sessionWith { locality := 2, commandCode := 0x149 })
    [(startedEnv, .locality 2), (startedEnv, .commandCode 0x149 true)] rfl ?_
  have hfirst : (policySystem zeroCrypto).step (sessionWith { locality := 3 }) (startedEnv, .locality 2)
      (sessionWith { locality := 2 }) := ⟨nofun, rfl⟩
  have hsecond : (policySystem zeroCrypto).step (sessionWith { locality := 2 }) (startedEnv, .commandCode 0x149 true)
      (sessionWith { locality := 2, commandCode := 0x149 }) := ⟨nofun, rfl⟩
  exact .cons ⟨hfirst, fun h => absurd rfl h⟩ (.cons ⟨hsecond, fun h => absurd rfl h⟩ (.nil _))

/-- A session bound to the Names of handles, which an authorization binds to a cpHash instead. -/
theorem names_become_cpHash :
    ∃ (s s' : Session) (as : List (Env × PolicyCommand)), s.kind = .policy ∧ (policySystem zeroCrypto).Run s as s' ∧
      ¬ Narrows s.policy s'.policy := by
  let digest : Bytes := List.replicate 20 7
  refine ⟨sessionWith { bound := some (.names, digest) }, sessionWith { bound := some (.cpHash, digest) },
    [(startedEnv, .secret ⟨[], digest, [], 0⟩ ⟨[], .owner, false⟩)], rfl, ?_, fun h => ?_⟩
  · exact .cons ⟨nofun, rfl⟩ (.nil _)
  · nomatch h.bound (.names, digest) rfl

end Virtkit.Tpm
