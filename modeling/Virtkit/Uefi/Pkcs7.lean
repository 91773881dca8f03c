import Virtkit.Uefi.Der

/-!
# PKCS#7 signatures

Each signer of a signature is found among its certificates and signed the content, or attributes that give the
content's digest, and its certificate leads to the trusted one: from a certificate to the first one here that
signed it, over a bounded number of certificates. The certificates are whatever the signature brings, in any
order, and may name each other in circles.
-/

namespace Virtkit.Uefi

open Virtkit.Common List Der

inductive Hash where
  | sha1
  | sha256
  | sha384
  | sha512
  deriving DecidableEq

/-- Hashes and RSA signatures: whether a signature of a digest is one by a key. -/
structure Crypto (Key : Type*) where
  digest : Hash → Bytes → Bytes
  verify : Hash → Key → Bytes → Bytes → Bool

/-- The parts of a certificate that a chain check reads. -/
structure Certificate (Key : Type*) where
  raw : Bytes
  tbs : Bytes
  signatureHash : Option Hash
  signature : Bytes
  serial : Bytes
  issuer : Bytes
  subject : Bytes
  key : Option Key
  subjectKeyId : Option Bytes

/-- Who a signer says signed. -/
inductive SignerId where
  | issuerSerial (issuer serial : Bytes)
  | keyId (id : Bytes)

/-- A signer, with its signed attributes as their element encodes them. -/
structure SignerInfo where
  id : SignerId
  digest : Hash
  signedAttrs : Option Tlv
  signature : Bytes

/-- The certificates and signers of a signature. -/
structure SignedData (Key : Type*) where
  certificates : List (Certificate Key)
  signers : List SignerInfo

/-- How deep a chain may run. -/
def maxChain : ℕ := 8

variable {Key : Type*} (crypto : Crypto Key)

def Certificate.signedBy (cert issuer : Certificate Key) : Bool :=
  match cert.signatureHash, issuer.key with
  | some hash, some key => crypto.verify hash key (crypto.digest hash cert.tbs) cert.signature
  | _, _ => false

/-- The first messageDigest among attributes. -/
def messageDigestOf : List Tlv → Option Bytes
  | [] => none
  | attr :: attrs => do
    let (oid, rest) ← expect attr.value 0x06
    if oid.value ≠ [0x2a, 0x86, 0x48, 0x86, 0xf7, 0x0d, 0x01, 0x09, 0x04] then messageDigestOf attrs
    else
      let (values, _) ← expect rest 0x31
      let (digest, _) ← expect values.value 0x04
      some digest.value

/-- The messageDigest signed attribute's value. -/
def messageDigest (attrs : Bytes) : Option Bytes := (children attrs).bind messageDigestOf

/-- Attributes as the SET that a signature covers, not as the element they are carried in. -/
def asSet : Bytes → Bytes
  | [] => []
  | _ :: raw => 0x31 :: raw

/-- Whether a signer's signature, by a certificate's key, covers the content. -/
def signed (signer : SignerInfo) (cert : Certificate Key) (content : Bytes) : Bool :=
  match cert.key with
  | none => false
  | some key =>
    let contentDigest := crypto.digest signer.digest content
    match signer.signedAttrs with
    | none => crypto.verify signer.digest key contentDigest signer.signature
    | some attrs =>
      if messageDigest attrs.value ≠ some contentDigest then false
      else crypto.verify signer.digest key (crypto.digest signer.digest (asSet attrs.raw)) signer.signature

def SignerId.names (id : SignerId) (c : Certificate Key) : Bool :=
  match id with
  | .issuerSerial issuer serial => c.issuer = issuer && c.serial = serial
  | .keyId id => c.subjectKeyId = some id

variable (data : SignedData Key)

def SignedData.signerCertificate (signer : SignerInfo) : Option (Certificate Key) :=
  data.certificates.find? signer.id.names

/-- The first certificate of the signature that signed another one. -/
def SignedData.issuerOf (cert : Certificate Key) : Option (Certificate Key) :=
  data.certificates.find? fun c => c.subject = cert.issuer && c.raw ≠ cert.raw && cert.signedBy crypto c

/-- Whether a certificate leads to the trusted one in so many turns. -/
def SignedData.chainsIn (trusted : Certificate Key) : ℕ → Certificate Key → Bool
  | 0, _ => false
  | turns + 1, current =>
    if current.raw = trusted.raw then true
    else if current.issuer = trusted.subject && current.signedBy crypto trusted then true
    else
      match data.issuerOf crypto current with
      | some issuer => SignedData.chainsIn trusted turns issuer
      | none => false

/-- Whether a certificate is the trusted one or was signed by it, possibly through certificates of the signature. -/
def SignedData.chains (cert trusted : Certificate Key) : Bool := data.chainsIn crypto trusted maxChain cert

/-- Whether every signer signed the content and chains to the trusted certificate. -/
def SignedData.verify (content : Bytes) (trusted : Certificate Key) : Bool :=
  data.signers.all fun signer => (data.signerCertificate signer).any fun cert =>
    signed crypto signer cert content && data.chains crypto cert trusted

/-- A signature by a key covers the content: it is one of the content's digest, or one of attributes whose
messageDigest that is. -/
inductive Covers (signer : SignerInfo) (cert : Certificate Key) (content : Bytes) : Prop
  | direct {key : Key} (hkey : cert.key = some key) (hattrs : signer.signedAttrs = none)
      (hverify : crypto.verify signer.digest key (crypto.digest signer.digest content) signer.signature = true)
  | attributes {key : Key} {attrs : Tlv} (hkey : cert.key = some key) (hattrs : signer.signedAttrs = some attrs)
      (hdigest : messageDigest attrs.value = some (crypto.digest signer.digest content))
      (hverify : crypto.verify signer.digest key (crypto.digest signer.digest (asSet attrs.raw)) signer.signature = true)

/-- Certificates of a signature that lead to the trusted one: each is issued and signed by the next, and the last
is the trusted certificate or is issued and signed by it. -/
structure Leads (trusted : Certificate Key) (path : List (Certificate Key)) : Prop where
  mem : ∀ c ∈ path, c ∈ data.certificates
  signed : path.IsChain fun c issuer => c.issuer = issuer.subject ∧ c.signedBy crypto issuer = true
  last : ∃ c, path.getLast? = some c ∧
    (c.raw = trusted.raw ∨ c.issuer = trusted.subject ∧ c.signedBy crypto trusted = true)

variable {crypto} {data}

/-- A chain that is followed leads to the trusted certificate. -/
theorem SignedData.leads_of_chainsIn {trusted : Certificate Key} {turns : ℕ} {cert : Certificate Key}
    (hcert : cert ∈ data.certificates) (h : data.chainsIn crypto trusted turns cert = true) :
    ∃ path, (cert :: path).length ≤ turns ∧ Leads crypto data trusted (cert :: path) := by
  induction turns generalizing cert with
  | zero => nomatch h
  | succ turns ih =>
    -- where the walk ends, the certificate alone is the chain
    have hend : (cert.raw = trusted.raw ∨ cert.issuer = trusted.subject ∧ cert.signedBy crypto trusted = true) →
        ∃ path, (cert :: path).length ≤ turns + 1 ∧ Leads crypto data trusted (cert :: path) :=
      fun hlast => ⟨[], by simp, by simpa using hcert, .singleton _, cert, rfl, hlast⟩
    rw [chainsIn] at h
    split at h
    · exact hend (.inl ‹_›)
    · split at h
      · rename_i hissued
        simp only [Bool.and_eq_true, decide_eq_true_eq] at hissued
        exact hend (.inr hissued)
      · split at h
        · rename_i issuer hissuer
          have hfound := find?_some hissuer
          simp only [Bool.and_eq_true, decide_eq_true_eq] at hfound
          obtain ⟨path, hlen, hmem, hsigned, last, hlast, htrusted⟩ := ih (mem_of_find?_eq_some hissuer) h
          refine ⟨issuer :: path, Nat.succ_le_succ hlen, ?_, ?_, last, ?_, htrusted⟩
          · exact forall_mem_cons.mpr ⟨hcert, hmem⟩
          · exact .cons_cons ⟨hfound.1.1.symm, hfound.2⟩ hsigned
          · rwa [getLast?_cons_cons]
        · nomatch h

/-- A signer that is accepted covers the content. -/
theorem covers_of_signed {signer : SignerInfo} {cert : Certificate Key} {content : Bytes}
    (h : signed crypto signer cert content = true) : Covers crypto signer cert content := by
  unfold signed at h
  split at h
  · nomatch h
  · rename_i key hkey
    dsimp only at h
    split at h
    · exact .direct hkey ‹_› h
    · rename_i attrs hattrs
      split at h
      · nomatch h
      · exact .attributes hkey hattrs (not_not.mp ‹_›) h

/-- Where a signature verifies, every signer's certificate is one of the signature that the signer names, its key
signed the content, and it leads to the trusted certificate over at most eight certificates. -/
theorem verify_sound (crypto : Crypto Key) (data : SignedData Key) (content : Bytes) (trusted : Certificate Key)
    (h : data.verify crypto content trusted = true) :
    ∀ signer ∈ data.signers, ∃ cert path, signer.id.names cert = true ∧ Covers crypto signer cert content ∧
      (cert :: path).length ≤ 8 ∧ Leads crypto data trusted (cert :: path) := by
  intro signer hsigner
  have hverified := all_eq_true.mp h signer hsigner
  simp only [Option.any_eq_true, Bool.and_eq_true] at hverified
  obtain ⟨cert, hcert, hsigned, hchains⟩ := hverified
  obtain ⟨path, hlen, hleads⟩ := SignedData.leads_of_chainsIn (mem_of_find?_eq_some hcert) hchains
  exact ⟨cert, path, find?_some hcert, covers_of_signed hsigned, hlen, hleads⟩

/-- Signatures that are what they sign, which is not hashed. -/
def plainCrypto : Crypto Unit := ⟨fun _ bytes => bytes, fun _ _ digest signature => digest = signature⟩

/-- A certificate that signed itself, one it issued, and one that this issued. -/
def rootCert : Certificate Unit := ⟨[1], [2], some .sha256, [2], [3], [4], [4], some (), none⟩

def middleCert : Certificate Unit := ⟨[11], [12], some .sha256, [12], [13], [4], [14], some (), none⟩

def leafCert : Certificate Unit := ⟨[21], [22], some .sha1, [22], [23], [14], [24], some (), some [25]⟩

/-- An attribute that gives the digest [7]. -/
def digestAttr : Bytes :=
  [0x30, 16, 0x06, 9, 0x2a, 0x86, 0x48, 0x86, 0xf7, 0x0d, 0x01, 0x09, 0x04, 0x31, 3, 0x04, 1, 7]

/-- A signature of it by the last of them, and one of the content itself by the second. -/
def sampleData : SignedData Unit where
  certificates := [middleCert, leafCert]
  signers := [⟨.keyId [25], .sha256, some ⟨0xa0, digestAttr, 0xa0 :: 18 :: digestAttr⟩, 0x31 :: 18 :: digestAttr⟩,
    ⟨.issuerSerial [4] [13], .sha256, none, [7]⟩]

/-- The first signer leads to the trusted certificate over the second one, which it signed. -/
theorem verify_sound_middle :
    sampleData.verify plainCrypto [7] rootCert = true ∧ ∀ signer ∈ sampleData.signers, ∃ cert path,
      signer.id.names cert = true ∧ Covers plainCrypto signer cert [7] ∧
      (cert :: path).length ≤ 8 ∧ Leads plainCrypto sampleData rootCert (cert :: path) :=
  ⟨by decide, verify_sound plainCrypto sampleData [7] rootCert (by decide)⟩

end Virtkit.Uefi
