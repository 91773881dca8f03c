import Virtkit.Common.Files
import Virtkit.Common.Loops
import Virtkit.Common.Saturating

/-!
# Reading qcow2 images

A qcow2 layer maps each cluster of the disk through two levels of tables to a place in its file, to
zeros, or to nothing, which defers to its backing: no image, a raw one, another layer, or a lazy view of
stored chunks. Reading goes down the chain cluster by cluster. A layer's L1 table is read when it is
opened, its L2 tables as they are needed.
-/

namespace Virtkit.Disk

open Virtkit.Common

/-- What a qcow2 image starts with. -/
def magic : ℕ := 0x514649fb

/-- The bits of a table's entry that are an offset. -/
def offsetMask : ℕ := 0x00fffffffffffe00

/-- The flag of a compressed cluster. -/
def l2Compressed : ℕ := 2 ^ 62

/-- The flag of a cluster that reads as zeros. -/
def l2Zero : ℕ := 1

/-- The feature of extended L2 tables. -/
def incompatExtendedL2 : ℕ := 2 ^ 4

/-- Why an image cannot be read or written. -/
inductive Error where
  | truncated
  | notQcow2
  | version (version : ℕ)
  | encrypted
  | extendedL2
  | clusterBits (bits : ℕ)
  | l1Size (size : ℕ)
  | backingName (length : ℕ)
  | backing
  | compressed
  | chunk (offset : ℕ)
  | exceedsSize (off length size : ℕ)
  | rawTooLarge (length size : ℕ)
  | tooLarge
  deriving DecidableEq

/-- Where a cluster's bytes come from. -/
inductive Cluster where
  | data (host : ℕ)
  | zero
  | unallocated
  deriving DecidableEq

structure Layer where
  file : File
  clusterBits : ℕ
  virtualSize : ℕ
  /-- The L1 table, none past its end. -/
  l1 : ℕ → Option ℕ
  bits : 9 ≤ clusterBits ∧ clusterBits ≤ 21

namespace Layer

def clusterSize (l : Layer) : ℕ := 2 ^ l.clusterBits

def l2Entries (l : Layer) : ℕ := l.clusterSize / 8

/-- An entry of the L2 table at an offset. -/
def l2Entry (l : Layer) (l2Off idx : ℕ) : Except Error ℕ :=
  if l2Off + l.clusterSize ≤ l.file.len then .ok (l.file.be (l2Off + 8 * idx) 8) else .error .truncated

def locate (l : Layer) (cluster : ℕ) : Except Error Cluster :=
  match l.l1 (cluster / l.l2Entries) with
  | none => .ok .unallocated
  | some e =>
    if e &&& offsetMask = 0 then .ok .unallocated
    else do
      let entry ← l.l2Entry (e &&& offsetMask) (cluster % l.l2Entries)
      if entry = 0 then .ok .unallocated
      else if entry &&& l2Zero ≠ 0 then .ok .zero
      else if entry &&& l2Compressed ≠ 0 then .error .compressed
      else .ok (.data (entry &&& offsetMask))

def readPiece (l : Layer) (below : ℕ → ℕ → Except Error Bytes) (pos n : ℕ) : Except Error Bytes := do
  match ← l.locate (pos / l.clusterSize) with
  | .data host => .ok (l.file.readOrZero (host + pos % l.clusterSize) n)
  | .zero => .ok (List.replicate n 0)
  | .unallocated => below pos n

def readAt (l : Layer) (below : ℕ → ℕ → Except Error Bytes) (off n : ℕ) : Except Error Bytes :=
  loopPieces (fun pos m => min (l.clusterSize - pos % l.clusterSize) m)
    (fun acc pos m => l.readPiece below pos m >>= fun bytes => .ok (acc ++ bytes)) n [] off n

end Layer

/-- A chunk of a lazy view: its place, and what its file in the cache decodes to, if it does. -/
structure VkRoChunk where
  offset : ℕ
  length : ℕ
  stored : Option Bytes

/-- A lazy view, its chunks in order, without overlap and none empty. -/
structure VkRoImg where
  totalSize : ℕ
  chunks : List VkRoChunk
  sorted : chunks.Pairwise fun a b => a.offset + a.length ≤ b.offset
  nonempty : ∀ c ∈ chunks, 0 < c.length
  fits : ∀ c ∈ chunks, c.offset + c.length ≤ totalSize

namespace VkRoImg

/-- Read a chunk, checked against its length. -/
def loadChunk (c : VkRoChunk) : Except Error Bytes :=
  match c.stored with
  | none => .error (.chunk c.offset)
  | some data => if data.length ≠ c.length then .error (.chunk c.offset) else .ok data

/-- The chunks from the first that ends past a position. -/
def chunksAt (v : VkRoImg) (pos : ℕ) : List VkRoChunk :=
  v.chunks.dropWhile fun c => c.offset + c.length ≤ pos

/-- How far the chunk or gap at a position goes, within a length. -/
def pieceSize (v : VkRoImg) (pos n : ℕ) : ℕ :=
  if v.totalSize ≤ pos then n
  else
    match v.chunksAt pos with
    | [] => min (v.totalSize - pos) n
    | c :: _ => if pos < c.offset then min (c.offset - pos) n else min (c.offset + c.length - pos) n

/-- Read bytes of one chunk or gap. -/
def readPiece (v : VkRoImg) (pos n : ℕ) : Except Error Bytes :=
  if v.totalSize ≤ pos then .ok (List.replicate n 0)
  else
    match v.chunksAt pos with
    | [] => .ok (List.replicate n 0)
    | c :: _ =>
      if pos < c.offset then .ok (List.replicate n 0)
      else do
        let data ← loadChunk c
        .ok ((data.drop (pos - c.offset)).take n)

/-- Read bytes, a gap as zeros. -/
def readAt (v : VkRoImg) (off n : ℕ) : Except Error Bytes :=
  loopPieces v.pieceSize (fun acc pos m => v.readPiece pos m >>= fun bytes => .ok (acc ++ bytes)) n [] off n

end VkRoImg

/-- A file with holes, which read as zeros. -/
structure SparseFile where
  file : File
  allocated : ℕ → Bool
  hole : ∀ i, allocated i = false → file.byte i = 0

/-- What a layer stands on. -/
inductive Backing where
  | none
  | raw (f : SparseFile)
  | qcow2 (layer : Layer) (backing : Backing)
  | lazy (v : VkRoImg)

def Backing.readAt : Backing → ℕ → ℕ → Except Error Bytes
  | .none => fun _ n => .ok (List.replicate n 0)
  | .raw f => fun off n => .ok (f.file.readOrZero off n)
  | .qcow2 layer backing => layer.readAt backing.readAt
  | .lazy v => v.readAt

structure Qcow2 where
  layer : Layer
  backing : Backing

namespace Qcow2

def readAt (q : Qcow2) (off n : ℕ) : Except Error Bytes := q.layer.readAt q.backing.readAt off n

def readBackingName (file : File) : Except Error (Option Bytes) :=
  let off := file.be 8 8
  let length := file.be 16 4
  if 4096 < length then .error (.backingName length)
  else if off = 0 ∨ length = 0 then .ok none
  else (file.readExact off length).elim (.error .truncated) fun name => .ok (some name)

/-- Open an image; the backing a name stands for is opened by the host's file system. -/
def openFile (openBacking : Bytes → Except Error Backing) (file : File) : Except Error Qcow2 :=
  let version := file.be 4 4
  let clusterBits := file.be 20 4
  let clusterSize := 2 ^ clusterBits
  let virtualSize := file.be 24 8
  let l1Size := file.be 36 4
  let l1Offset := file.be 40 8
  -- A corrupt table size is refused before it is allocated.
  let maxL1 := max (divCeil virtualSize (clusterSize * (clusterSize / 8))) 1 * 2
  if file.len < 104 then .error .truncated
  else if file.be 0 4 ≠ magic then .error .notQcow2
  else if version ≠ 2 ∧ version ≠ 3 then .error (.version version)
  else if file.be 32 4 ≠ 0 then .error .encrypted
  else if 3 ≤ version ∧ file.be 72 8 &&& incompatExtendedL2 ≠ 0 then .error .extendedL2
  else if hbits : clusterBits < 9 ∨ 21 < clusterBits then .error (.clusterBits clusterBits)
  else if maxL1 < l1Size then .error (.l1Size l1Size)
  else if l1Size ≠ 0 ∧ file.len < l1Offset + l1Size * 8 then .error .truncated
  else do
    let backing ← match ← readBackingName file with
      | some name => openBacking name
      | none => .ok .none
    .ok ⟨⟨file, clusterBits, virtualSize,
      fun i => if i < l1Size then some (file.be (l1Offset + 8 * i) 8) else none, by omega⟩, backing⟩

end Qcow2

end Virtkit.Disk
