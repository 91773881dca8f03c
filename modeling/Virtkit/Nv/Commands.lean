import Virtkit.Common.Transition
import Virtkit.Nv.Memory

/-!
# The TPM's commands and its runs

Here are the commands that use an NV index, those that start, shut down and clear the TPM, and what any
other command may do to an orderly shutdown. A command is one whose authorizations were given; failing
has no effect here. After each command the host stores the permanent state if it was marked changed, and
power may be lost between any two commands: the TPM then starts from what was stored. With the state goes
its history: the values of counters that were read and those that increments made, newest first.
-/

namespace Virtkit.Nv

open Virtkit.Common

/-- Why a command fails. -/
inductive Rc where
  | initializeFirst
  | value
  | handle
  | size
  | hierarchy
  | attributes
  | type
  | disabled
  | authType
  | nvDefined
  | nvSpace
  | nvRange
  | nvLocked
  | nvAuthorization
  | nvUninitialized
  | failure
  deriving DecidableEq

/-- Who authorizes a command on an index. -/
inductive AuthHandle where
  | owner
  | platform
  | index (i : ℕ)
  deriving DecidableEq

/-- The hierarchies that TPM2_HierarchyControl enables, as far as NV is concerned. -/
inductive Enable where
  | owner
  | platformNv
  deriving DecidableEq

inductive Command where
  | startup (state : Bool)
  | shutdown (state : Bool)
  | clear
  | clearControl (disable : Bool)
  | hierarchyControl (auth : AuthHandle) (enable : Enable) (state : Bool)
  | defineSpace (auth : AuthHandle) (authValue : Bytes) (i : ℕ) (pub : NvPublic)
  | undefineSpace (auth : AuthHandle) (i : ℕ)
  | undefineSpaceSpecial (i : ℕ)
  | write (auth : AuthHandle) (i : ℕ) (data : Bytes) (offset : ℕ)
  | increment (auth : AuthHandle) (i : ℕ)
  | extend (auth : AuthHandle) (i : ℕ) (data : Bytes)
  | setBits (auth : AuthHandle) (i : ℕ) (bits : ℕ)
  | writeLock (auth : AuthHandle) (i : ℕ)
  | readLock (auth : AuthHandle) (i : ℕ)
  | globalWriteLock
  | read (auth : AuthHandle) (i : ℕ) (size offset : ℕ)
  | changeAuth (i : ℕ) (newAuth : Bytes)
  /-- An authorization with a PIN index's value, in any command. -/
  | pinAuthorized (i : ℕ) (success : Bool)
  /-- The first use of a protected authValue, in any command. -/
  | daUsed
  /-- Another command that voids an orderly shutdown. -/
  | voids
  /-- Another command that changes the PCRs' allocation, or not. -/
  | reconfigures (pending : Bool)

/-- An authValue without trailing zeros. -/
def stripZeros (auth : Bytes) : Bytes := (auth.reverse.dropWhile (· = 0)).reverse

/-- Whether an index may be read. -/
def readAccess (auth : AuthHandle) (i : ℕ) (p : NvPublic) : Except Rc Unit :=
  let allowed := match auth with
    | .owner => p.attributes.ownerread
    | .platform => p.attributes.ppread
    | .index i' => i' = i
  if p.attributes.readlocked then .error .nvLocked
  else if !allowed then .error .nvAuthorization
  else if !p.attributes.written then .error .nvUninitialized
  else .ok ()

/-- Whether an index may be written. -/
def writeAccess (auth : AuthHandle) (i : ℕ) (p : NvPublic) : Except Rc Unit :=
  let allowed := match auth with
    | .owner => p.attributes.ownerwrite
    | .platform => p.attributes.ppwrite
    | .index i' => i' = i
  if p.attributes.writelocked then .error .nvLocked
  else if allowed then .ok ()
  else .error .nvAuthorization

/-- Whether the attributes of an index to be defined go with its type. -/
def kindOk (a : Attributes) : Kind → Bool
  | .counter => !a.clearStclear
  | .pinFail => a.noDa && !a.authwrite && !a.globallock && !a.writedefine
  | .pinPass => !a.authwrite && !a.globallock && !a.writedefine
  | _ => true

/-- A PIN index's count and limit. -/
def pin (data : Bytes) : ℕ × ℕ :=
  (if 4 ≤ data.length then ofBe (data.take 4) else 0,
    if 8 ≤ data.length then ofBe ((data.drop 4).take 4) else 0)

namespace Tpm

variable (digest : Hash → Bytes → Bytes)

variable (t : Tpm)

/-- The public area of an index that a command names. -/
def indexPublic (i : ℕ) : Except Rc NvPublic :=
  if t.nvAccessible i then (t.nvPublic i).elim (.error .failure) .ok else .error .handle

def startup (state : Bool) : Except Rc Tpm :=
  let previous := t.permanent.value.shutdown
  let orderly := previous.isOrderly
  let saved := match previous with
    | .state saved => some saved
    | _ => none
  let kind := match state, saved with
    | true, none => none
    | true, some _ => some Startup.resume
    | false, some _ => some .restart
    | false, none => some .reset
  match kind with
  | none => .error .value
  | some kind =>
    let clear := match saved, kind with
      | some saved, .resume => saved
      | _, _ => ⟨true, true⟩
    let t : Tpm := { t with volatile := { t.volatile with clear := clear, pcrReconfig := false } }
    let t := t.nvStartup kind orderly
    .ok ⟨t.permanent.modify fun p => { p with shutdown := .none },
      { t.volatile with daUsed := false, started := true }⟩

def shutdown (state : Bool) : Except Rc Tpm :=
  if state && t.volatile.pcrReconfig then .error .type
  else
    let t : Tpm := { t with volatile := { t.volatile with daUsed := false } }
    let t := t.nvStoreOrderly
    .ok { t with permanent := t.permanent.modify fun p =>
      { p with shutdown := if state then .state t.volatile.clear else .clear } }

def clear : Except Rc Tpm :=
  if t.permanent.value.disableClear then .error .disabled
  else
    let t : Tpm :=
      { t with volatile := { t.volatile with clear := { t.volatile.clear with shEnable := true } } }
    .ok t.nvFlushOwner.clearOrderly

variable (t : Tpm) (auth : AuthHandle)

def hierarchyControl (enable : Enable) (state : Bool) : Except Rc Tpm :=
  let clear := t.volatile.clear
  let allowed := match enable with
    | .owner => auth = .platform || (auth = .owner && (clear.shEnable || !state))
    | .platformNv => auth = .platform
  if !allowed then .error .authType
  else
    let next := match enable with
      | .owner => { clear with shEnable := state }
      | .platformNv => { clear with phEnableNv := state }
    if next = clear then .ok t
    else
      let t : Tpm := { t with volatile := { t.volatile with clear := next } }
      .ok t.clearOrderly

/-- Whether the attributes of an index to be defined are allowed. -/
def attributesOk (a : Attributes) (kind : Kind) : Bool :=
  kindOk a kind && !a.written && !a.writelocked && !a.readlocked &&
    (a.ownerread || a.ppread || a.authread || a.policyread) &&
    (a.ownerwrite || a.ppwrite || a.authwrite || a.policywrite) &&
    !(a.clearStclear && a.writedefine)

def newEntry (auth : Bytes) (p : NvPublic) : NvIndex :=
  ⟨p, auth, List.replicate p.dataSize (erased p.attributes.orderly)⟩

variable (i : ℕ)

/-- Put a new index into NV, with its copy in RAM if it is orderly. -/
def addEntry (e : NvIndex) : Tpm :=
  let t : Tpm := { t with permanent := t.permanent.modify fun p => { p with nv := p.nv.insert i e } }
  if e.pub.attributes.orderly then
    let t : Tpm := { t with volatile := { t.volatile with
      nvOrderly := t.volatile.nvOrderly.insert i ⟨e.pub.attributes, List.replicate e.pub.dataSize 0⟩ } }
    t.nvStoreOrderly
  else t

def defineSpace (authHandle : AuthHandle) (auth : Bytes) (i : ℕ) (p : NvPublic) : Except Rc Tpm :=
  let a := p.attributes
  let auth := stripZeros auth
  let entry := newEntry auth p
  if p.authPolicy ≠ [] && p.authPolicy.length ≠ p.nameAlg.size then .error .size
  else if p.nameAlg.size < auth.length then .error .size
  else if authHandle = .platform && !t.volatile.clear.phEnableNv then .error .hierarchy
  else
    match a.kind with
    | none => .error .attributes
    | some kind =>
      if !p.sizeFits then .error .size
      else if !attributesOk a kind then .error .attributes
      else if a.platformcreate ≠ decide (authHandle = .platform) then .error .attributes
      else if a.policyDelete && authHandle ≠ .platform then .error .attributes
      else if maxNvBufferSize < p.dataSize && a.writeall then .error .size
      else if (t.nvEntry i).isSome then .error .nvDefined
      else if nvIndexSpace < nvUsed t.permanent.value.nv + entry.cost then .error .nvSpace
      else if a.orderly && ramIndexSpace < ramUsed t.permanent.value.nv + (ramHeader + entry.data.length)
      then .error .nvSpace
      else .ok (t.addEntry i entry)

def undefineSpace : Except Rc Tpm := do
  let p ← t.indexPublic i
  if p.attributes.policyDelete then .error .attributes
  else if auth = .owner && p.attributes.platformcreate then .error .nvAuthorization
  else .ok (t.nvDelete i)

def undefineSpaceSpecial : Except Rc Tpm := do
  let p ← t.indexPublic i
  if !p.attributes.policyDelete then .error .attributes else .ok (t.nvDelete i)

/-- The write of a command that has checked its range. -/
def written (i offset : ℕ) (bytes : Bytes) : Except Rc Tpm :=
  (t.nvWrite i offset bytes).elim (.error .failure) .ok

def write (data : Bytes) (offset : ℕ) : Except Rc Tpm := do
  let p ← t.indexPublic i
  writeAccess auth i p
  if p.attributes.kind = some .counter || p.attributes.kind = some .bits ||
      p.attributes.kind = some .extend then .error .attributes
  else if p.dataSize < offset then .error .value
  else if p.dataSize - offset < data.length then .error .nvRange
  else if p.attributes.writeall && data.length < p.dataSize then .error .nvRange
  else t.written i offset data

/-- What an increment counts on from: a counter's value, or what deleted counters had. -/
def counted (p : NvPublic) : ℕ :=
  if p.attributes.written then t.nvU64 i else t.permanent.value.nvMaxCounter

def increment : Except Rc Tpm := do
  let p ← t.indexPublic i
  writeAccess auth i p
  if p.attributes.kind ≠ some .counter then .error .attributes
  else
    let value := (t.counted i p + 1) % 2 ^ 64
    let t ← t.written i 0 (beBytes 8 value)
    -- An orderly counter is stored each time it crosses a boundary.
    if p.attributes.orderly && value &&& maxOrderlyCount = 0 then .ok t.nvStoreOrderly else .ok t

def extend (data : Bytes) : Except Rc Tpm := do
  let p ← t.indexPublic i
  writeAccess auth i p
  if p.attributes.kind ≠ some .extend then .error .attributes
  else
    let old := if p.attributes.written then (t.nvData i).getD [] else List.replicate p.nameAlg.size 0
    t.written i 0 (digest p.nameAlg (old ++ data))

def setBits (bits : ℕ) : Except Rc Tpm := do
  let p ← t.indexPublic i
  writeAccess auth i p
  if p.attributes.kind ≠ some .bits then .error .attributes
  else
    let old := if p.attributes.written then t.nvU64 i else 0
    t.written i 0 (beBytes 8 (old ||| bits))

def writeLock : Except Rc Tpm := do
  let p ← t.indexPublic i
  match writeAccess auth i p with
  | .error .nvAuthorization => .error .nvAuthorization
  | .error _ => .ok t
  | .ok () =>
    if !p.attributes.writedefine && !p.attributes.writeStclear then .error .attributes
    else .ok (t.nvSetAttributes i { p.attributes with writelocked := true })

def readLock : Except Rc Tpm := do
  let p ← t.indexPublic i
  match readAccess auth i p with
  | .error .nvAuthorization => .error .nvAuthorization
  | .error .nvLocked => .ok t
  | _ =>
    if !p.attributes.readStclear then .error .attributes
    else .ok (t.nvSetAttributes i { p.attributes with readlocked := true })

/-- Write-lock an index that has the attribute for all. -/
def lockGlobally : Tpm :=
  match t.nvPublic i with
  | some p =>
    if p.attributes.globallock then t.nvSetAttributes i { p.attributes with writelocked := true } else t
  | none => t

def globalWriteLock : Tpm := t.permanent.value.nv.keys.foldl lockGlobally t

/-- TPM2_NV_Read. -/
def read (i size offset : ℕ) : Except Rc Bytes := do
  let p ← t.indexPublic i
  readAccess auth i p
  if maxNvBufferSize < size then .error .value
  else if p.dataSize < offset then .error .value
  else if p.dataSize - offset < size then .error .nvRange
  else
    let data := (t.nvData i).getD []
    if data.length < offset + size then .error .failure else .ok ((data.drop offset).take size)

def changeAuth (newAuth : Bytes) : Except Rc Tpm := do
  let p ← t.indexPublic i
  let newAuth := stripZeros newAuth
  if p.nameAlg.size < newAuth.length then .error .size
  else .ok { t with permanent := t.permanent.modify fun q =>
    { q with nv := q.nv.modify i fun e => { e with auth := newAuth } } }

/-- An authorization with a written PIN index's value is counted. -/
def pinAuthorized (success : Bool) : Except Rc Tpm :=
  match t.nvPublic i with
  | none => .ok t
  | some p =>
    if !p.attributes.written then .ok t
    else
      let (count, limit) := pin ((t.nvData i).getD [])
      let next := match p.attributes.kind, success with
        | some .pinFail, true => some 0
        | some .pinFail, false => some ((count + 1) % 2 ^ 32)
        | some .pinPass, true => some ((count + 1) % 2 ^ 32)
        | _, _ => none
      next.elim (.ok t) fun count => t.written i 0 (beBytes 4 count ++ beBytes 4 limit)

def process : Command → Except Rc Tpm
  | .startup state => if t.volatile.started then .error .initializeFirst else t.startup state
  | command =>
    if !t.volatile.started then .error .initializeFirst
    else
      match command with
      | .startup _ => .error .initializeFirst
      | .shutdown state => t.shutdown state
      | .clear => t.clear
      | .clearControl disable =>
        .ok { t with permanent := t.permanent.modify fun p => { p with disableClear := disable } }
      | .hierarchyControl auth enable state => t.hierarchyControl auth enable state
      | .defineSpace auth authValue i p => t.defineSpace auth authValue i p
      | .undefineSpace auth i => t.undefineSpace auth i
      | .undefineSpaceSpecial i => t.undefineSpaceSpecial i
      | .write auth i data offset => t.write auth i data offset
      | .increment auth i => t.increment auth i
      | .extend auth i data => t.extend digest auth i data
      | .setBits auth i bits => t.setBits auth i bits
      | .writeLock auth i => t.writeLock auth i
      | .readLock auth i => t.readLock auth i
      | .globalWriteLock => .ok t.globalWriteLock
      | .read auth i size offset => (t.read auth i size offset).map fun _ => t
      | .changeAuth i newAuth => t.changeAuth i newAuth
      | .pinAuthorized i success => t.pinAuthorized i success
      | .daUsed =>
        .ok (if t.volatile.daUsed then t else ⟨t.permanent.modify fun p => { p with shutdown := .daUsed },
            { t.volatile with daUsed := true }⟩)
      | .voids => .ok t.clearOrderly
      | .reconfigures pending => .ok { t with volatile := { t.volatile with pcrReconfig := pending } }

end Tpm

inductive Seen where
  | read (value : ℕ)
  | incremented (value : ℕ)

def Seen.value : Seen → ℕ
  | .read value | .incremented value => value

/-- A TPM, what its host keeps of it, and what was seen of its counters. -/
structure Machine where
  tpm : Tpm
  kept : Permanent
  history : List (ℕ × Seen)

/-- What happens to a TPM. -/
inductive Event where
  | command (command : Command)
  /-- Power is lost, and comes back. -/
  | powerCycle

namespace Machine

variable (digest : Hash → Bytes → Bytes)

/-- What a command shows of a counter: all of it read, or its value after an increment. -/
def seen (t t' : Tpm) : Command → List (ℕ × Seen)
  | .read auth i size offset =>
    match t.read auth i size offset, t.nvPublic i with
    | .ok bytes, some p =>
      if p.attributes.kind = some .counter && size = 8 then [(i, .read (ofBe bytes))] else []
    | _, _ => []
  | .increment _ i => [(i, .incremented (t'.nvU64 i))]
  | _ => []

/-- The host stores the permanent state if it was marked changed. -/
def store (m : Machine) : Machine :=
  if m.tpm.permanent.changed then
    { m with
      kept := m.tpm.permanent.value
      tpm := { m.tpm with permanent := { m.tpm.permanent with changed := false } } }
  else m

/-- One step: a command that succeeds, or a loss of power. -/
def step (m : Machine) : Event → Option Machine
  | .command command =>
    match m.tpm.process digest command with
    | .error _ => some m
    | .ok t => some ({ m with tpm := t, history := seen m.tpm t command ++ m.history }.store)
  | .powerCycle => some { m with tpm := .powerOn m.kept }

/-- A TPM just powered on: what it keeps are indices whose data fits them. -/
structure PoweredOn (m : Machine) : Prop where
  tpm : m.tpm = .powerOn m.kept
  sized : ∀ i e, m.kept.nv.lookup i = some e → e.data.length = e.pub.dataSize ∧ e.pub.sizeFits = true
  history : m.history = []

end Machine

def tpmSystem (digest : Hash → Bytes → Bytes) : System Machine Event :=
  .ofFunction Machine.PoweredOn (Machine.step digest)

end Virtkit.Nv
