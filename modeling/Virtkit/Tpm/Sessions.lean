import Virtkit.Nv.Memory

/-!
# Platform configuration registers

A bank has 24 PCRs, and there is a bank for each hash. Changes of the PCRs count in the update counter.
-/

namespace Virtkit.Tpm

open Virtkit.Common
open Virtkit.Nv (Hash)

section

/-- The hash functions, and the keyed hash. -/
structure Crypto where
  digest : Hash → Bytes → Bytes
  length_digest : ∀ hash bytes, (digest hash bytes).length = hash.size
  hmac : Hash → Bytes → Bytes → Bytes

/-- The algorithm identifiers of the hashes. -/
def hashId : Hash → ℕ
  | .sha1 => 0x04
  | .sha256 => 0x0b
  | .sha384 => 0x0c
  | .sha512 => 0x0d

def hashFromId (id : ℕ) : Option Hash := [Hash.sha1, .sha256, .sha384, .sha512].find? fun h => hashId h = id

/-- Some PCRs of a bank. -/
structure Selection where
  hash : Hash
  select : Fin 24 → Bool

def Selection.byte (s : Selection) (i : ℕ) : UInt8 :=
  UInt8.ofNat (((List.finRange 24).filter fun pcr => pcr.val / 8 = i && s.select pcr).map fun pcr => 2 ^ (pcr.val % 8)).sum

def Selection.bytes (s : Selection) : Bytes := beBytes 2 (hashId s.hash) ++ [3, s.byte 0, s.byte 1, s.byte 2]

def writeSelections (selections : List Selection) : Bytes :=
  beBytes 4 selections.length ++ selections.flatMap Selection.bytes

def isAllocated (allocation : List Selection) (hash : Hash) (pcr : Fin 24) : Bool :=
  (allocation.find? fun s => s.hash = hash).elim false fun s => s.select pcr

/-- The PCRs of every bank, and the update counter. -/
structure Pcrs where
  banks : Hash → Fin 24 → Bytes
  counter : ℕ

namespace Pcrs

/-- The PCRs before a start. -/
def new : Pcrs where
  banks hash _ := List.replicate hash.size 0
  counter := 0

variable (cr : Crypto)

/-- The PCRs selected that are allocated. -/
def trim (allocation : List Selection) (s : Selection) : Selection :=
  { s with select := fun pcr => s.select pcr && isAllocated allocation s.hash pcr }

/-- The values a trimmed selection selects, in order. -/
def values (p : Pcrs) (s : Selection) : List Bytes :=
  ((List.finRange 24).filter s.select).map fun pcr => p.banks s.hash pcr

/-- The digest of the selected PCRs. -/
def digest (p : Pcrs) (selections : List Selection) (hash : Hash) : Bytes :=
  cr.digest hash (selections.flatMap fun s => (p.values s).flatten)

end Pcrs

end

/-!
## Sessions

An HMAC session proves that its user knows an authValue; a policy session, that an entity's policy was met;
a trial session only computes the digest of a policy.
-/

inductive Kind where
  | hmac
  | policy
  | trial
  deriving DecidableEq

/-- The parameter encryption a session does. -/
inductive Symmetric where
  | null
  | xor (hash : Hash)
  | aes (bits : ℕ)
  deriving DecidableEq

/-- What a policy binds a command to. -/
inductive Bound where
  | cpHash
  | names
  | template
  deriving DecidableEq

/-- What a policy session's commands require besides its policyDigest. -/
structure PolicyState where
  commandCode : ℕ := 0
  locality : ℕ := 0
  bound : Option (Bound × Bytes) := none
  timeout : ℕ := 0
  pcrCounter : ℕ := 0
  authValueNeeded : Bool := false
  passwordNeeded : Bool := false
  ppRequired : Bool := false
  nvWritten : Option Bool := none
  deriving DecidableEq

structure Session where
  kind : Kind
  hash : Hash
  nonceTpm : Bytes
  key : Bytes
  symmetric : Symmetric
  bound : Option Bytes
  daBound : Bool
  lockoutBound : Bool
  audit : Option Bytes
  policyDigest : Bytes
  policy : PolicyState
  startTime : ℕ
  epoch : ℕ
  deriving DecidableEq

/-- The policy starts over. -/
def Session.resetPolicy (s : Session) : Session :=
  { s with policyDigest := List.replicate s.policyDigest.length 0, policy := {} }

def Session.isTrial (s : Session) : Bool := s.kind = .trial

/-- Why a policy command fails. -/
inductive RcCode where
  | attributes
  | failure
  | policy
  | pcrChanged
  | commandCode
  | cpHash
  | hash
  | value
  | range
  | nonce
  | size
  | insufficient
  | ticket
  | expired
  | policyCc
  deriving DecidableEq

/-- What a response code is about. -/
inductive Blame where
  | param (n : ℕ)
  | handle (n : ℕ)
  deriving DecidableEq

/-- A response code, and what it is about. -/
structure Rc where
  code : RcCode
  about : Option Blame := none
  deriving DecidableEq

/-- A response code about a parameter. -/
def Rc.param (code : RcCode) (n : ℕ) : Rc := ⟨code, some (.param n)⟩

/-- A response code about a handle. -/
def Rc.handle (code : RcCode) (n : ℕ) : Rc := ⟨code, some (.handle n)⟩

end Virtkit.Tpm
