import Virtkit.Tpm.Sessions

/-!
# Policy commands

Each policy command extends a policy session's policyDigest and, unless the session is a trial, checks its
assertion now or records what the authorization must check later. What a command finds elsewhere in the TPM,
such as the Name of a key or the data of an NV index, is an argument here.
-/

namespace Virtkit.Tpm

open Virtkit.Common
open Virtkit.Nv (Hash)

/-- A sized buffer in a command or a response. -/
def tpm2b (data : Bytes) : Bytes := beBytes 2 data.length ++ data

/-- A hierarchy, whose proof makes tickets. -/
inductive Hierarchy where
  | owner
  | endorsement
  | platform
  | null
  deriving DecidableEq

def Hierarchy.handle : Hierarchy → ℕ
  | .owner => 0x40000001
  | .null => 0x40000007
  | .endorsement => 0x4000000b
  | .platform => 0x4000000c

/-- What policy commands read of the TPM: its time, the counts that date tickets, TPMS_CLOCK_INFO, the proofs,
and the PCRs. -/
structure Env where
  time : ℕ
  timeEpoch : ℕ
  totalResetCount : ℕ
  clockInfo : Bytes
  proof : Hierarchy → Bytes
  pcrs : Pcrs
  allocation : List Selection

/-- The entity that a policy command's first handle names: its Name, the hierarchy of its tickets, and whether
it is a PIN pass index. -/
structure Entity where
  name : Bytes
  hierarchy : Hierarchy
  pinPass : Bool

/-- An NV index as a policy command finds it: what the checks of reading it answer, and what it holds. -/
structure NvFound where
  access : Except Rc Unit
  name : Bytes
  dataSize : ℕ
  data : Bytes

/-- The tags of authorization tickets. -/
inductive AuthTag where
  | secret
  | signed
  deriving DecidableEq

def AuthTag.number : AuthTag → ℕ
  | .secret => 0x8023
  | .signed => 0x8025

/-- How the TPM's data and the caller's compare. -/
inductive Operation where
  | eq
  | neq
  | signedGt
  | unsignedGt
  | signedLt
  | unsignedLt
  | signedGe
  | unsignedGe
  | signedLe
  | unsignedLe
  | bitSet
  | bitClear
  deriving DecidableEq

def Operation.number : Operation → ℕ
  | .eq => 0
  | .neq => 1
  | .signedGt => 2
  | .unsignedGt => 3
  | .signedLt => 4
  | .unsignedLt => 5
  | .signedGe => 6
  | .unsignedGe => 7
  | .signedLe => 8
  | .unsignedLe => 9
  | .bitSet => 10
  | .bitClear => 11

def cmpBytes : Bytes → Bytes → Ordering
  | [], [] => .eq
  | [], _ :: _ => .lt
  | _ :: _, [] => .gt
  | x :: a, y :: b => (compare x.toNat y.toNat).then (cmpBytes a b)

/-- The order of two's complement numbers of one length. -/
def cmpSigned (a b : Bytes) : Ordering :=
  match a, b with
  | x :: _, y :: _ => if (x ^^^ y) &&& 0x80 ≠ 0 then (if x &&& 0x80 ≠ 0 then .lt else .gt) else cmpBytes a b
  | _, _ => cmpBytes a b

/-- Whether the TPM's data `a` compares with the caller's `b`. -/
def checkCondition (op : Operation) (a b : Bytes) : Bool :=
  match op with
  | .eq => cmpBytes a b = .eq
  | .neq => cmpBytes a b ≠ .eq
  | .signedGt => cmpSigned a b = .gt
  | .unsignedGt => cmpBytes a b = .gt
  | .signedLt => cmpSigned a b = .lt
  | .unsignedLt => cmpBytes a b = .lt
  | .signedGe => cmpSigned a b ≠ .lt
  | .unsignedGe => cmpBytes a b ≠ .lt
  | .signedLe => cmpSigned a b ≠ .gt
  | .unsignedLe => cmpBytes a b ≠ .gt
  | .bitSet => (a.zip b).all fun p => p.1 &&& p.2 = p.2
  | .bitClear => (a.zip b).all fun p => p.1 &&& p.2 = 0

/-- The parameters that TPM2_PolicySigned and TPM2_PolicySecret share. -/
structure Authorization where
  nonce : Bytes
  cpHash : Bytes
  policyRef : Bytes
  expiration : ℤ

/-- The policy commands, with what they find elsewhere. -/
inductive PolicyCommand where
  /-- With what the check of the signature answers. -/
  | signed (a : Authorization) (key : Entity) (signature : Except Rc Unit)
  | secret (a : Authorization) (entity : Entity)
  | ticket (timeout cpHash policyRef name : Bytes) (tag : AuthTag) (hierarchy : Hierarchy) (digest : Bytes)
  | or (branches : List Bytes)
  | pcr (pcrDigest : Bytes) (selections : List Selection)
  | locality (locality : ℕ)
  | nv (operand : Bytes) (offset : ℕ) (operation : Operation) (index : NvFound)
  | counterTimer (operand : Bytes) (offset : ℕ) (operation : Operation)
  /-- With whether the TPM has the command. -/
  | commandCode (code : ℕ) (found : Bool)
  | physicalPresence
  | cpHash (cpHash : Bytes)
  | nameHash (nameHash : Bytes)
  | duplicationSelect (object newParent : Bytes) (includeObject : Bool)
  | authorize (approved policyRef keySign : Bytes) (hierarchy : Hierarchy) (ticket : Bytes)
  | authValue
  | password
  | getDigest
  | nvWritten (written : Bool)
  | template (template : Bytes)
  | authorizeNv (index : NvFound)
  | restart

variable (cr : Crypto)

variable (s : Session)

namespace Session

/-- Extend the policyDigest with a command's code and more. -/
def extend (code : ℕ) (parts : List Bytes) : Session :=
  { s with policyDigest := cr.digest s.hash (s.policyDigest ++ beBytes 4 code ++ parts.flatten) }

def clearDigest : Session := { s with policyDigest := List.replicate s.hash.size 0 }

/-- Extend with a code and a Name, then the policyRef; bind the session to a cpHash; keep the earliest
timeout. -/
def contextUpdate (code : ℕ) (name : Bytes) (policyRef : Option Bytes) (cpHash : Bytes) (timeout : ℕ) :
    Session :=
  let s := s.extend cr code [name]
  let s := policyRef.elim s fun ref => { s with policyDigest := cr.digest s.hash (s.policyDigest ++ ref) }
  let s := if cpHash = [] then s else { s with policy := { s.policy with bound := some (.cpHash, cpHash) } }
  if timeout ≠ 0 ∧ (s.policy.timeout = 0 ∨ timeout < s.policy.timeout) then
    { s with policy := { s.policy with timeout := timeout } }
  else s

end Session

variable (env : Env) (s : Session)

def authTimeout (expiration : ℤ) (nonce : Bytes) : ℕ :=
  if expiration = 0 then 0
  else
    let ms := min (min expiration.natAbs (2 ^ 31 - 1) * 1000) u64Max
    if nonce = [] then satAdd u64Max ms (env.time % 1000) else satAdd u64Max s.startTime ms

/-- The nonce is the session's, the authorization has not expired, and the cpHash fits the session. -/
def policyParameterChecks (timeout : ℕ) (cpHash : Bytes) (nonce : Option Bytes)
    (blameNonce blameCpHash blameExpiration : ℕ) : Except Rc Unit :=
  if nonce.any fun n => n ≠ [] ∧ n ≠ s.nonceTpm then .error (.param .nonce blameNonce)
  else if timeout ≠ 0 ∧ (timeout < env.time ∨ s.epoch ≠ env.timeEpoch) then .error (.param .expired blameExpiration)
  else if cpHash ≠ [] ∧ cpHash.length ≠ s.policyDigest.length then .error (.param .size blameCpHash)
  else if cpHash ≠ [] ∧ s.policy.bound.any fun b => b.2 ≠ cpHash then .error ⟨.cpHash, none⟩
  else .ok ()

/-- A ticket's timeout has this bit when it expires at the next reset. -/
def expirationBit : ℕ := 2 ^ 63

/-- The digest of an authorization ticket. -/
def authTicket (env : Env) (tag : AuthTag) (hierarchy : Hierarchy) (timeout : ℕ) (expiresOnReset : Bool)
    (cpHash policyRef name : Bytes) : Bytes :=
  cr.hmac .sha512 (env.proof hierarchy)
    (beBytes 2 tag.number ++ cpHash ++ policyRef ++ name ++ beBytes 8 timeout ++ (if timeout ≠ 0 then
        beBytes 4 env.timeEpoch ++ (if expiresOnReset then beBytes 8 env.totalResetCount else [])
      else []))

/-- The ticket in the answer of TPM2_PolicySigned and TPM2_PolicySecret. -/
def writeTicket (tag : AuthTag) : Option (Hierarchy × ℕ × Bytes) → Bytes
  | some (hierarchy, timeout, digest) =>
    tpm2b (beBytes 8 timeout) ++ beBytes 2 tag.number ++ beBytes 4 hierarchy.handle ++ tpm2b digest
  | none => tpm2b [] ++ beBytes 2 tag.number ++ beBytes 4 Hierarchy.null.handle ++ tpm2b []

/-- The code an authorization extends the policy with. -/
def AuthTag.code : AuthTag → ℕ
  | .secret => 0x151
  | .signed => 0x160

/-- The end of TPM2_PolicySigned and TPM2_PolicySecret: extend the policy, and give a ticket if one is asked
for. -/
def authorized (tag : AuthTag) (a : Authorization) (entity : Entity) (timeout : ℕ) :
    Session × Bytes :=
  let ticket :=
    if a.expiration < 0 ∧ ¬s.isTrial ∧ ¬entity.pinPass then
      let kept := timeout % expirationBit
      let marked := if a.nonce = [] then kept + expirationBit else kept
      some (entity.hierarchy, marked,
        authTicket cr env tag entity.hierarchy kept (a.nonce = []) a.cpHash a.policyRef entity.name)
    else none
  (s.contextUpdate cr tag.code entity.name (some a.policyRef) a.cpHash timeout, writeTicket tag ticket)

/-- TPM2_PolicySigned and TPM2_PolicySecret, with what the check of the signature answers. -/
def policyAuthorization (tag : AuthTag) (a : Authorization) (entity : Entity)
    (signature : Except Rc Unit) : Except Rc (Session × Bytes) :=
  if s.isTrial then .ok (authorized cr env s tag a entity 0)
  else do
    let timeout := authTimeout env s a.expiration a.nonce
    policyParameterChecks env s timeout a.cpHash (some a.nonce) 1 2 4
    signature
    .ok (authorized cr env s tag a entity timeout)

def policyTicket (timeout cpHash policyRef name : Bytes) (tag : AuthTag)
    (hierarchy : Hierarchy) (digest : Bytes) : Except Rc (Session × Bytes) :=
  if s.isTrial then .error (.handle .attributes 1)
  else if timeout.length ≠ 8 then .error (.param .size 1)
  else do
    let expiresOnReset := expirationBit ≤ ofBe timeout
    let timeout := ofBe timeout % expirationBit
    policyParameterChecks env s timeout cpHash none 0 2 1
    if digest ≠ authTicket cr env tag hierarchy timeout expiresOnReset cpHash policyRef name then
      .error (.param .ticket 5)
    else .ok (s.contextUpdate cr tag.code name (some policyRef) cpHash timeout, [])

def policyOr (branches : List Bytes) : Except Rc (Session × Bytes) :=
  if ¬s.isTrial ∧ s.policyDigest ∉ branches then .error (.param .value 1)
  else .ok (s.clearDigest.extend cr 0x171 branches, [])

def policyPcr (pcrDigest : Bytes) (selections : List Selection) :
    Except Rc (Session × Bytes) :=
  let selections := selections.map (Pcrs.trim env.allocation)
  let current := env.pcrs.digest cr selections s.hash
  if s.isTrial then
    .ok (s.extend cr 0x17f [writeSelections selections, if pcrDigest = [] then current else pcrDigest], [])
  else if s.policy.pcrCounter ≠ 0 ∧ s.policy.pcrCounter ≠ env.pcrs.counter then .error ⟨.pcrChanged, none⟩
  else if pcrDigest ≠ [] ∧ pcrDigest ≠ current then .error (.param .value 1)
  else
    .ok (({ s with policy := { s.policy with pcrCounter := env.pcrs.counter } }).extend cr 0x17f
      [writeSelections selections, current], [])

/-- The localities left of those required so far. -/
def nextLocality (previous locality : ℕ) : Except Rc ℕ :=
  if locality = 0 then .error (.param .range 1)
  else if previous ≠ 0 ∧ ¬(previous < 32 ↔ locality < 32) then .error (.param .range 1)
  else if locality < 32 then
    let narrowed := (if previous = 0 then 0x1f else previous) &&& locality
    if narrowed = 0 then .error (.param .range 1) else .ok narrowed
  else if previous ≠ 0 ∧ previous ≠ locality then .error (.param .range 1)
  else .ok locality

def policyLocality (locality : ℕ) : Except Rc (Session × Bytes) := do
  let next ← nextLocality s.policy.locality locality
  let s := s.extend cr 0x16f [beBytes 1 locality]
  .ok ({ s with policy := { s.policy with locality := next } }, [])

def Session.unlessTrial (check : Except Rc Unit) : Except Rc Unit := if s.isTrial then .ok () else check

/-- What TPM2_PolicyNV and TPM2_PolicyCounterTimer extend with. -/
def arguments (hash : Hash) (operand : Bytes) (offset : ℕ) (operation : Operation) : Bytes :=
  cr.digest hash (operand ++ beBytes 2 offset ++ beBytes 2 operation.number)

def comparedPart (data : Bytes) (offset : ℕ) (operand : Bytes) : Option Bytes :=
  if offset + operand.length ≤ data.length then some ((data.drop offset).take operand.length) else none

def compareAt (data : Bytes) (offset : ℕ) (operation : Operation) (operand : Bytes) : Except Rc Unit :=
  match comparedPart data offset operand with
  | none => .error ⟨.failure, none⟩
  | some part => if checkCondition operation part operand then .ok () else .error ⟨.policy, none⟩

variable (operand : Bytes) (offset : ℕ) (operation : Operation)

/-- What TPM2_PolicyNV asserts. -/
def nvHolds (index : NvFound) : Except Rc Unit := do
  index.access
  if index.dataSize < offset then .error (.param .value 2)
  else if index.dataSize - offset < operand.length then .error (.param .size 1)
  else compareAt index.data offset operation operand

def policyNv (index : NvFound) :
    Except Rc (Session × Bytes) := do
  s.unlessTrial (nvHolds operand offset operation index)
  .ok (s.extend cr 0x149 [arguments cr s.hash operand offset operation, index.name], [])

def timeInfo (env : Env) : Bytes := beBytes 8 env.time ++ env.clockInfo

/-- What TPM2_PolicyCounterTimer asserts. -/
def timeHolds (env : Env) (operand : Bytes) (offset : ℕ) (operation : Operation) : Except Rc Unit :=
  if 25 < offset then .error (.param .value 2)
  else if 25 < offset + operand.length then .error ⟨.range, none⟩
  else compareAt (timeInfo env) offset operation operand

def policyCounterTimer :
    Except Rc (Session × Bytes) := do
  s.unlessTrial (timeHolds env operand offset operation)
  .ok (s.extend cr 0x16d [arguments cr s.hash operand offset operation], [])

def policyCommandCode (code : ℕ) (found : Bool) : Except Rc (Session × Bytes) :=
  if s.policy.commandCode ≠ 0 ∧ s.policy.commandCode ≠ code then .error (.param .value 1)
  else if ¬found then .error (.param .policyCc 1)
  else
    let s := s.extend cr 0x16c [beBytes 4 code]
    .ok ({ s with policy := { s.policy with commandCode := code } }, [])

def policyPhysicalPresence : Session × Bytes :=
  let s := s.extend cr 0x187 []
  ({ s with policy := { s.policy with ppRequired := true } }, [])

def policyCpHash (cpHash : Bytes) : Except Rc (Session × Bytes) :=
  if cpHash.length ≠ s.hash.size then .error (.param .size 1)
  else if s.policy.bound.any fun b => b ≠ (.cpHash, cpHash) then .error ⟨.cpHash, none⟩
  else
    let s := s.extend cr 0x16e [cpHash]
    .ok ({ s with policy := { s.policy with bound := some (.cpHash, cpHash) } }, [])

def policyNameHash (nameHash : Bytes) : Except Rc (Session × Bytes) :=
  if nameHash.length ≠ s.hash.size then .error (.param .size 1)
  else if s.policy.bound.isSome then .error ⟨.cpHash, none⟩
  else
    let s := s.extend cr 0x170 [nameHash]
    .ok ({ s with policy := { s.policy with bound := some (.names, nameHash) } }, [])

def duplicateCode : ℕ := 0x14b

def policyDuplicationSelect (object newParent : Bytes) (includeObject : Bool) :
    Except Rc (Session × Bytes) :=
  if s.policy.bound.isSome then .error ⟨.cpHash, none⟩
  else if s.policy.commandCode ≠ 0 then .error ⟨.commandCode, none⟩
  else
    let nameHash := cr.digest s.hash (object ++ newParent)
    let s := s.extend cr 0x188 [if includeObject then object else [], newParent, [if includeObject then 1 else 0]]
    .ok ({ s with policy := { s.policy with bound := some (.names, nameHash), commandCode := duplicateCode } }, [])

def verifiedTicket (env : Env) (hierarchy : Hierarchy) (digest name : Bytes) : Bytes :=
  cr.hmac .sha512 (env.proof hierarchy) (beBytes 2 0x8022 ++ digest ++ name)

/-- The hash that the first two bytes name. -/
def readHash (bytes : Bytes) : Except Rc Hash :=
  if bytes.length < 2 then .error ⟨.insufficient, none⟩
  else (hashFromId (ofBe (bytes.take 2))).elim (.error ⟨.hash, none⟩) .ok

def policyAuthorize (approved policyRef keySign : Bytes) (hierarchy : Hierarchy)
    (ticket : Bytes) : Except Rc (Session × Bytes) :=
  if keySign.length < 2 then .error (.param .size 3)
  else
    match hashFromId (ofBe (keySign.take 2)) with
    | none => .error (.param .hash 3)
    | some hash =>
      if (keySign.drop 2).length ≠ hash.size then .error (.param .size 3)
      else if ¬s.isTrial ∧ s.policyDigest ≠ approved then .error (.param .value 1)
      else if ¬s.isTrial ∧ ticket ≠ verifiedTicket cr env hierarchy (cr.digest hash (approved ++ policyRef)) keySign then
        .error (.param .value 4)
      else .ok (s.clearDigest.contextUpdate cr 0x16a keySign (some policyRef) [] 0, [])

def policyAuthValue : Session × Bytes :=
  let s := s.extend cr 0x16b []
  ({ s with policy := { s.policy with authValueNeeded := true, passwordNeeded := false } }, [])

def policyPassword : Session × Bytes :=
  let s := s.extend cr 0x16b []
  ({ s with policy := { s.policy with passwordNeeded := true, authValueNeeded := false } }, [])

def policyNvWritten (written : Bool) : Except Rc (Session × Bytes) :=
  if s.policy.nvWritten.any fun w => w ≠ written then .error (.param .value 1)
  else
    let s := { s with policy := { s.policy with nvWritten := some written } }
    .ok (s.extend cr 0x18f [[if written then 1 else 0]], [])

/-- A session may be bound to a template. -/
def templateFits (template : Bytes) : Except Rc Unit :=
  match s.policy.bound with
  | none => .ok ()
  | some (.template, bound) => if bound ≠ template then .error (.param .value 1) else .ok ()
  | some _ => .error ⟨.cpHash, none⟩

def policyTemplate (template : Bytes) : Except Rc (Session × Bytes) := do
  templateFits s template
  if template.length ≠ s.hash.size then .error (.param .size 1)
  else
    let s := s.extend cr 0x190 [template]
    .ok ({ s with policy := { s.policy with bound := some (.template, template) } }, [])

/-- How much of an index TPM2_PolicyAuthorizeNV reads. -/
def tpmtHaSize : ℕ := 2 + 64

/-- What TPM2_PolicyAuthorizeNV asserts. -/
def approvedByIndex (index : NvFound) : Except Rc Unit := do
  index.access
  let data := index.data.take tpmtHaSize
  let hash ← readHash data
  let digest := (data.drop 2).take hash.size
  if digest.length < hash.size then .error ⟨.insufficient, none⟩
  else if hash ≠ s.hash then .error ⟨.hash, none⟩
  else if digest ≠ s.policyDigest then .error ⟨.value, none⟩
  else .ok ()

def policyAuthorizeNv (index : NvFound) : Except Rc (Session × Bytes) := do
  s.unlessTrial (approvedByIndex s index)
  .ok (s.clearDigest.contextUpdate cr 0x192 index.name none [] 0, [])

/-- A policy command on a session: the session after it, and its answer. -/
def PolicyCommand.run : PolicyCommand → Except Rc (Session × Bytes)
  | .signed a key check => policyAuthorization cr env s .signed a key check
  | .secret a entity => policyAuthorization cr env s .secret a entity (.ok ())
  | .ticket expires cp ref name tag hierarchy digest => policyTicket cr env s expires cp ref name tag hierarchy digest
  | .or branches => policyOr cr s branches
  | .pcr digest selections => policyPcr cr env s digest selections
  | .locality l => policyLocality cr s l
  | .nv operand offset op index => policyNv cr s operand offset op index
  | .counterTimer operand offset op => policyCounterTimer cr env s operand offset op
  | .commandCode code found => policyCommandCode cr s code found
  | .physicalPresence => .ok (policyPhysicalPresence cr s)
  | .cpHash digest => policyCpHash cr s digest
  | .nameHash digest => policyNameHash cr s digest
  | .duplicationSelect object newParent includeObject => policyDuplicationSelect cr s object newParent includeObject
  | .authorize approved ref keySign hierarchy digest => policyAuthorize cr env s approved ref keySign hierarchy digest
  | .authValue => .ok (policyAuthValue cr s)
  | .password => .ok (policyPassword cr s)
  | .getDigest => .ok (s, tpm2b s.policyDigest)
  | .nvWritten written => policyNvWritten cr s written
  | .template digest => policyTemplate cr s digest
  | .authorizeNv index => policyAuthorizeNv cr s index
  | .restart => .ok (s.resetPolicy, [])

/-!
## Conditions

Data and operand of one length are compared as numbers, signed and unsigned, and by their bits.
-/

section

open List Operation

/-- What an operation says of two numbers given by their bytes. -/
def Operation.Holds (op : Operation) (a b : Bytes) : Prop :=
  match op with
  | .eq => ofBe a = ofBe b
  | .neq => ofBe a ≠ ofBe b
  | .signedGt => ofBeSigned b < ofBeSigned a
  | .unsignedGt => ofBe b < ofBe a
  | .signedLt => ofBeSigned a < ofBeSigned b
  | .unsignedLt => ofBe a < ofBe b
  | .signedGe => ofBeSigned b ≤ ofBeSigned a
  | .unsignedGe => ofBe b ≤ ofBe a
  | .signedLe => ofBeSigned a ≤ ofBeSigned b
  | .unsignedLe => ofBe a ≤ ofBe b
  | .bitSet => ∀ i, (ofBe b).testBit i → (ofBe a).testBit i
  | .bitClear => ∀ i, (ofBe b).testBit i → ¬(ofBe a).testBit i

variable {a b : Bytes} (h : a.length = b.length)
include h

theorem cmpBytes_eq_compare : cmpBytes a b = compare (ofBe a) (ofBe b) := by
  induction a generalizing b with
  | nil =>
    cases b with
    | nil => rfl
    | cons => simp at h
  | cons x a ih =>
    cases b with
    | nil => simp at h
    | cons y b =>
      rw [length_cons, length_cons, Nat.add_right_cancel_iff] at h
      rw [cmpBytes, ih h, ofBe_cons, ofBe_cons, h, compare_mul_add (h ▸ ofBe_lt a) (ofBe_lt b)]

/-- Signed bytes compare as the numbers do. -/
theorem cmpSigned_eq_compare : cmpSigned a b = compare (ofBeSigned a) (ofBeSigned b) := by
  have hcmp := cmpBytes_eq_compare h
  have htop : ∀ z : UInt8, z &&& 0x80 ≠ 0 ↔ z.toNat.testBit 7 = true := by
    intro z
    have hand : (z &&& 0x80).toNat = (z.toNat.testBit 7).toNat * 2 ^ 7 := by
      rw [UInt8.toNat_and]
      exact Nat.and_two_pow z.toNat 7
    rw [ne_eq, ← UInt8.toNat_inj, hand]
    cases z.toNat.testBit 7 <;> decide
  cases a with
  | nil =>
    cases b with
    | nil => rfl
    | cons => simp at h
  | cons x a =>
    cases b with
    | nil => simp at h
    | cons y b =>
      have ha := ofBe_lt (x :: a)
      have hb := ofBe_lt (y :: b)
      simp only [cmpSigned, hcmp, htop, UInt8.toNat_xor, Nat.testBit_xor, ofBeSigned, le_ofBe_cons_iff]
      rw [h] at ha ⊢
      generalize 256 ^ (y :: b).length = w at ha hb ⊢
      have hshift : ∀ (m n : ℕ) (d : ℤ), compare m n = compare (m - d) (n - d) := by
        intro m n d
        rw [eq_comm, compare_iff]
        rcases lt_trichotomy m n with h | h | h
        · rw [compare_lt_iff_lt.mpr h]
          exact Int.sub_lt_sub_right (Int.ofNat_lt.mpr h) d
        · rw [compare_eq_iff_eq.mpr h]
          exact congrArg (fun k : ℕ => (k : ℤ) - d) h
        · rw [compare_gt_iff_gt.mpr h]
          exact Int.sub_lt_sub_right (Int.ofNat_lt.mpr h) d
      cases x.toNat.testBit 7 <;> cases y.toNat.testBit 7
      case false.false => simpa using hshift (ofBe (x :: a)) (ofBe (y :: b)) 0
      case true.true => simpa using hshift (ofBe (x :: a)) (ofBe (y :: b)) w
      case false.true =>
        have hlt : (ofBe (y :: b) : ℤ) - w < ofBe (x :: a) := by omega
        simpa using (compare_gt_iff_gt.mpr hlt).symm
      case true.false =>
        have hlt : (ofBe (x :: a) : ℤ) - w < ofBe (y :: b) := by omega
        simpa using (compare_lt_iff_lt.mpr hlt).symm

/-- The TPM's data compares with the caller's as the numbers do. -/
theorem checkCondition_iff_holds (op : Operation) : checkCondition op a b = true ↔ op.Holds a b := by
  have hunsigned := cmpBytes_eq_compare h
  have hsigned := cmpSigned_eq_compare h
  have hbyte : ∀ x y z : UInt8, x &&& y = z ↔
      ∀ i, (y.toNat.testBit i && x.toNat.testBit i) = z.toNat.testBit i := by
    intro x y z
    rw [UInt8.and_comm, ← UInt8.toNat_inj, UInt8.toNat_and]
    refine ⟨fun heq i => ?_, fun hall => Nat.eq_of_testBit_eq fun i => ?_⟩
    · rw [← heq, Nat.testBit_and]
    · rw [Nat.testBit_and, hall]
  cases op with
  | bitSet =>
    simp only [checkCondition, Holds, all_eq_true, decide_eq_true_eq, hbyte]
    rw [forall_testBit_ofBe (P := fun p q => q = true → p = true) id h]
    simp
  | bitClear =>
    simp only [checkCondition, Holds, all_eq_true, decide_eq_true_eq, hbyte]
    rw [forall_testBit_ofBe (P := fun p q => q = true → ¬p = true) (by simp) h]
    simp
  | _ => simp [checkCondition, Holds, hunsigned, hsigned, compare_lt_iff_lt, compare_gt_iff_gt]

end

/-- Of three bytes, -1 is below 256 as signed numbers, and above it as unsigned ones. -/
theorem checkCondition_minus_one :
    checkCondition .signedLt [0xff, 0xff, 0xff] [0x00, 0x01, 0x00] = true ∧
    ofBeSigned [0xff, 0xff, 0xff] < ofBeSigned [0x00, 0x01, 0x00] ∧
    checkCondition .unsignedGt [0xff, 0xff, 0xff] [0x00, 0x01, 0x00] = true ∧
    ofBe [0x00, 0x01, 0x00] < ofBe [0xff, 0xff, 0xff] := by
  have hiff := @checkCondition_iff_holds [0xff, 0xff, 0xff] [0x00, 0x01, 0x00] rfl
  exact ⟨by decide, (hiff .signedLt).mp (by decide), by decide, (hiff .unsignedGt).mp (by decide)⟩

end Virtkit.Tpm
