import Virtkit.Common.Bytes
import Virtkit.Common.Saturating
import Virtkit.Common.Table

/-!
# The TPM's NV indices and memory

An NV index has a public area, an authValue and data. Its type decides what the data is: ordinary bytes,
a counter, a bit field, an extend digest, or a PIN counter and its limit. The attributes are held here by
name. An index with the orderly attribute has its attributes and data in RAM, and in the permanent state
only as they were last stored.

The permanent state survives power-off; any access that may change it marks it changed, and the host then
stores it before it hands out the response. The RAM copies of the volatile state reach it at TPM2_Shutdown,
as an orderly index is defined, deleted or locked, and as an orderly counter is first written or crosses a
boundary. A start after a shutdown that was not orderly moves each orderly counter past any value it may have
reported. Of the two states here is what the NV indices and their commands use.
-/

namespace Virtkit.Nv

open Virtkit.Common List

/-- What an index's data is. -/
inductive Kind where
  | ordinary
  | counter
  | bits
  | extend
  | pinFail
  | pinPass
  deriving DecidableEq

inductive Hash where
  | sha1
  | sha256
  | sha384
  | sha512
  deriving DecidableEq

def Hash.size : Hash → ℕ
  | .sha1 => 20
  | .sha256 => 32
  | .sha384 => 48
  | .sha512 => 64

/-- The attributes of an index, TPMA_NV; no type where the bits give none. -/
structure Attributes where
  ppwrite : Bool
  ownerwrite : Bool
  authwrite : Bool
  policywrite : Bool
  kind : Option Kind
  policyDelete : Bool
  writelocked : Bool
  writeall : Bool
  writedefine : Bool
  writeStclear : Bool
  globallock : Bool
  ppread : Bool
  ownerread : Bool
  authread : Bool
  policyread : Bool
  noDa : Bool
  orderly : Bool
  clearStclear : Bool
  readlocked : Bool
  written : Bool
  platformcreate : Bool
  readStclear : Bool
  deriving DecidableEq

def Attributes.setWritten (a : Attributes) : Attributes := { a with written := true }

/-- An index's public area, without its handle. -/
structure NvPublic where
  nameAlg : Hash
  attributes : Attributes
  authPolicy : Bytes
  dataSize : ℕ
  deriving DecidableEq

def maxNvIndexSize : ℕ := 2048

/-- The most one command reads or writes. -/
def maxNvBufferSize : ℕ := 1024

/-- RAM for orderly indices, and what each takes beside its data. -/
def ramIndexSpace : ℕ := 512

/-- What an orderly index takes of it beside its data. -/
def ramHeader : ℕ := 12

/-- An orderly counter is stored at least every so many increments and one. -/
def maxOrderlyCount : ℕ := 255

/-- The NV memory indices may take. -/
def nvIndexSpace : ℕ := 64 * 1024

/-- What an index costs beside its data. -/
def indexCost : ℕ := 160

/-- Whether the data size fits the index's type. -/
def NvPublic.sizeFits (p : NvPublic) : Bool :=
  match p.attributes.kind with
  | some .ordinary => p.dataSize ≤ maxNvIndexSize
  | some .extend => p.dataSize = p.nameAlg.size
  | some _ => p.dataSize = 8
  | none => false

/-- An index as the permanent state keeps it. -/
structure NvIndex where
  pub : NvPublic
  auth : Bytes
  data : Bytes
  deriving DecidableEq

/-- An orderly index's attributes and data, in RAM. -/
structure OrderlyRam where
  attributes : Attributes
  data : Bytes
  deriving DecidableEq

/-- The memory an index takes: an orderly one's data is in RAM. -/
def NvIndex.cost (e : NvIndex) : ℕ :=
  if e.pub.attributes.orderly then indexCost else indexCost + e.data.length

variable (nv : Table ℕ NvIndex)

/-- The memory the indices take. -/
def nvUsed : ℕ := nv.sum fun _ e => e.cost

/-- The RAM the orderly indices take. -/
def ramUsed (nv : Table ℕ NvIndex) : ℕ :=
  nv.sum fun _ e => if e.pub.attributes.orderly then ramHeader + e.data.length else 0

/-- What an index's data holds before it is written. -/
def erased (orderly : Bool) : UInt8 := if orderly then 0 else 0xff

/-- The RAM copies of the orderly indices, as they were last stored. -/
def orderlyImages : Table ℕ OrderlyRam where
  entries := (nv.entries.filter fun e => e.2.pub.attributes.orderly).map fun e =>
    ⟨e.1, ⟨e.2.pub.attributes, e.2.data⟩⟩
  nodupKeys := by
    have hkeys : ((nv.entries.filter fun e => e.2.pub.attributes.orderly).map fun e =>
        (⟨e.1, ⟨e.2.pub.attributes, e.2.data⟩⟩ : Sigma fun _ : ℕ => OrderlyRam)).keys =
        (nv.entries.filter fun e => e.2.pub.attributes.orderly).keys := by
      simp [List.keys, Function.comp_def]
    rw [List.NodupKeys, hkeys]
    exact nv.nodupKeys.sublist filter_sublist

/-- The RAM images of the orderly indexes. -/
theorem lookup_orderlyImages (i : ℕ) :
    (orderlyImages nv).lookup i = ((nv.lookup i).filter fun e => e.pub.attributes.orderly).map fun e =>
      ⟨e.pub.attributes, e.data⟩ := by
  apply Option.ext
  intro r
  rw [← Option.mem_def, AList.mem_lookup_iff, orderlyImages, mem_map, Option.map_eq_some_iff]
  constructor
  · rintro ⟨e, he, heq⟩
    cases heq
    obtain ⟨hmem, horderly⟩ := mem_filter.mp he
    exact ⟨e.2, Option.filter_eq_some_iff.mpr ⟨AList.mem_lookup_iff.mpr hmem, horderly⟩, rfl⟩
  · rintro ⟨e, he, rfl⟩
    obtain ⟨hmem, horderly⟩ := Option.filter_eq_some_iff.mp he
    exact ⟨⟨i, e⟩, mem_filter.mpr ⟨AList.mem_lookup_iff.mp hmem, horderly⟩, rfl⟩

/-- The number that a counter's, bit field's or PIN index's data is. -/
def dataU64 (data : Bytes) : ℕ := if 8 ≤ data.length then ofBe (data.take 8) else 0

theorem dataU64_beBytes {v : ℕ} (h : v ≤ u64Max) : dataU64 (beBytes 8 v) = v := by
  rw [dataU64, if_pos (by simp), take_of_length_le (by simp)]
  exact ofBe_beBytes (by unfold u64Max at h; omega)

theorem dataU64_le (data : Bytes) : dataU64 data ≤ u64Max := by
  rw [dataU64]
  split_ifs with hlen
  · have h := ofBe_lt (data.take 8)
    rw [length_take, Nat.min_eq_left hlen] at h
    unfold u64Max
    omega
  · exact Nat.zero_le _

/-- Data written over from an offset on, where it fits. -/
def overwrite (data : Bytes) (offset : ℕ) (bytes : Bytes) : Option Bytes :=
  if offset + bytes.length ≤ data.length then
    some (data.take offset ++ bytes ++ data.drop (offset + bytes.length))
  else none

theorem overwrite_all {data bytes : Bytes} (h : data.length = bytes.length) : overwrite data 0 bytes = some bytes := by
  rw [overwrite, if_pos (by omega), take_zero, nil_append, Nat.zero_add, ← h, drop_length, append_nil]

/-- Which hierarchies are enabled: the owner's, and the platform's NV. -/
structure ClearState where
  shEnable : Bool
  phEnableNv : Bool
  deriving DecidableEq

/-- How the TPM was last shut down. -/
inductive Shutdown where
  | none
  /-- Not orderly, and a protected authValue was used. -/
  | daUsed
  | clear
  | state (saved : ClearState)
  deriving DecidableEq

def Shutdown.isOrderly : Shutdown → Bool
  | .clear | .state _ => true
  | _ => false

/-- What survives power-off. -/
structure Permanent where
  shutdown : Shutdown
  nv : Table ℕ NvIndex
  /-- The highest value a deleted counter had. -/
  nvMaxCounter : ℕ
  disableClear : Bool
  deriving DecidableEq

/-- The permanent state, and whether it was accessed to be changed since it was last stored. -/
structure Tracked where
  value : Permanent
  changed : Bool

/-- Change the permanent state. -/
def Tracked.modify (p : Tracked) (f : Permanent → Permanent) : Tracked := ⟨f p.value, true⟩

/-- What power-off loses. -/
structure Volatile where
  started : Bool
  clear : ClearState
  daUsed : Bool
  pcrReconfig : Bool
  nvOrderly : Table ℕ OrderlyRam

structure Tpm where
  permanent : Tracked
  volatile : Volatile

/-- What a TPM2_Startup is. -/
inductive Startup where
  | reset
  | restart
  | resume
  deriving DecidableEq

namespace Tpm

/-- A TPM with a permanent state, powered on: it waits for TPM2_Startup. -/
def powerOn (p : Permanent) : Tpm :=
  ⟨⟨p, false⟩, ⟨false, ⟨true, true⟩, false, false, orderlyImages p.nv⟩⟩

variable (t : Tpm)

variable (i : ℕ)

def nvEntry : Option NvIndex := t.permanent.value.nv.lookup i

/-- The public area of an index, its attributes as they are now. -/
def nvPublic (t : Tpm) (i : ℕ) : Option NvPublic :=
  (t.nvEntry i).map fun e =>
    if e.pub.attributes.orderly then
      { e.pub with attributes := (t.volatile.nvOrderly.lookup i).elim e.pub.attributes (·.attributes) }
    else e.pub

/-- The data of an index as it is now. -/
def nvData : Option Bytes :=
  (t.nvEntry i).map fun e =>
    if e.pub.attributes.orderly then (t.volatile.nvOrderly.lookup i).elim e.data (·.data) else e.data

/-- The number in an index's data. -/
def nvU64 : ℕ := (t.nvData i).elim 0 dataU64

/-- Whether an index is there and its hierarchy enabled. -/
def nvAccessible (t : Tpm) (i : ℕ) : Bool :=
  (t.nvPublic i).any fun p =>
    if p.attributes.platformcreate then t.volatile.clear.phEnableNv else t.volatile.clear.shEnable

/-- The attributes and data of an index as the TPM uses them. -/
def live : Option (Attributes × Bytes) :=
  (t.nvEntry i).bind fun e =>
    if e.pub.attributes.orderly then (t.volatile.nvOrderly.lookup i).map fun r => (r.attributes, r.data)
    else some (e.pub.attributes, e.data)

def setLive (attributes : Attributes) (data : Bytes) : Tpm :=
  if (t.nvEntry i).any fun e => e.pub.attributes.orderly then
    { t with volatile := { t.volatile with nvOrderly := t.volatile.nvOrderly.insert i ⟨attributes, data⟩ } }
  else
    { t with permanent := t.permanent.modify fun p =>
      { p with nv := p.nv.modify i fun e =>
        { e with pub := { e.pub with attributes := attributes }, data := data } } }

/-- Void an orderly shutdown recorded since the start. -/
def clearOrderly : Tpm :=
  if t.permanent.value.shutdown.isOrderly then
    { t with permanent := t.permanent.modify fun p =>
      { p with shutdown := if t.volatile.daUsed then .daUsed else .none } }
  else t

/-- An index with what its RAM copy holds. -/
def storeRam (e : NvIndex) : Option OrderlyRam → NvIndex
  | some r => { e with pub := { e.pub with attributes := r.attributes }, data := r.data }
  | none => e

/-- Store the RAM copies of the orderly indices. -/
def nvStoreOrderly : Tpm :=
  if t.volatile.nvOrderly.entries.any fun r => (t.nvEntry r.1).isSome then
    { t with permanent := t.permanent.modify fun p =>
      { p with nv := p.nv.mapValues fun i e => storeRam e (t.volatile.nvOrderly.lookup i) } }
  else t

/-- Set an index's attributes; an orderly index's copy is stored at once. -/
def nvSetAttributes (attributes : Attributes) : Tpm :=
  let t := match t.live i with
    | some (_, data) => t.setLive i attributes data
    | none => t
  if attributes.orderly then t.clearOrderly.nvStoreOrderly else t

/-- Write an index's data. The first write marks it written, and erases an ordinary index first. -/
def nvWrite (i offset : ℕ) (bytes : Bytes) : Option Tpm :=
  (t.live i).bind fun (a, data) =>
    let first := !a.written
    let data :=
      if first && a.kind = some .ordinary then List.replicate data.length (erased a.orderly) else data
    (overwrite data offset bytes).map fun data =>
      let t := t.setLive i a.setWritten data
      if a.orderly then
        if first && a.kind = some .counter then t.clearOrderly.nvStoreOrderly else t.clearOrderly
      else t

/-- Delete an index: a written counter's value is remembered. -/
def nvDelete : Tpm :=
  match t.nvPublic i with
  | none => t
  | some p =>
    let max := if p.attributes.kind = some .counter && p.attributes.written then
        Nat.max t.permanent.value.nvMaxCounter (t.nvU64 i)
      else t.permanent.value.nvMaxCounter
    let t : Tpm :=
      ⟨t.permanent.modify fun p => { p with nv := p.nv.erase i, nvMaxCounter := max },
        { t.volatile with nvOrderly := t.volatile.nvOrderly.erase i }⟩
    if p.attributes.orderly then t.nvStoreOrderly else t

/-- Delete the owner's indices. -/
def nvFlushOwner : Tpm :=
  (t.permanent.value.nv.retain fun _ e => !e.pub.attributes.platformcreate).keys.foldl nvDelete t

/-- An index's attributes after a start that is no resume. -/
def startupAttributes (kind : Startup) (a : Attributes) : Attributes :=
  let a := { a with readlocked := false }
  let a :=
    if a.kind ≠ some .counter && (a.clearStclear || a.orderly && kind = .reset) then
      { a with written := false }
    else a
  if !a.written || !a.writedefine then { a with writelocked := false } else a

/-- An orderly index's copy after a start that is no resume: a counter that may have counted past what
was stored skips to the next boundary. -/
def startupRam (kind : Startup) (orderly : Bool) (r : OrderlyRam) : OrderlyRam :=
  let a := startupAttributes kind r.attributes
  if a.kind = some .counter && !orderly && 8 ≤ r.data.length then
    ⟨a, beBytes 8 (dataU64 r.data ||| maxOrderlyCount) ++ r.data.drop 8⟩
  else ⟨a, r.data⟩

def nvStartup (kind : Startup) (orderly : Bool) : Tpm :=
  let ram := orderlyImages t.permanent.value.nv
  if kind = .resume then { t with volatile := { t.volatile with nvOrderly := ram } }
  else
    ⟨t.permanent.modify fun p =>
      { p with nv := p.nv.mapValues fun _ e =>
        if e.pub.attributes.orderly then e
        else { e with pub := { e.pub with attributes := startupAttributes kind e.pub.attributes } } },
      { t.volatile with nvOrderly := ram.mapValues fun _ r => startupRam kind orderly r }⟩

end Tpm

end Virtkit.Nv
