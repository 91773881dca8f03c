import Virtkit.Common.Table
import Virtkit.Disk.Image

/-!
# Writing qcow2 images

A writer appends a cluster to its file as a guest cluster is first written, and remembers where in L2
tables by their L1 index. Finishing lays the L2 tables and the refcount blocks after the data, and
writes the refcount table, the L1 table and, last, the header before it.
-/

namespace Virtkit.Disk

open Virtkit.Common

/-- The flag of a cluster that is referenced once. -/
def oflagCopied : ℕ := 2 ^ 63

structure Qcow2Writer where
  file : File
  virtualSize : ℕ
  l1Size : ℕ
  /-- The place of every guest cluster an L2 table maps, zero where there is none, by L1 index. -/
  l2 : Table ℕ (ℕ → ℕ)
  /-- Where the next cluster is appended. -/
  next : ℕ

namespace Qcow2Writer

/-- The size of a cluster. -/
def cs : ℕ := 65536

def l2Entries : ℕ := 8192

def rcPerBlock : ℕ := 32768

def l1Clusters (l1Size : ℕ) : ℕ := divCeil (l1Size * 8) cs

/-- An image of some size with nothing allocated: a header, a refcount table and an L1 table. -/
def create (virtualSize : ℕ) : Qcow2Writer :=
  let l1Size := max (divCeil virtualSize (cs * l2Entries)) 1
  let next := (2 + l1Clusters l1Size) * cs
  ⟨File.empty.setLen next, virtualSize, l1Size, ∅, next⟩

variable (w : Qcow2Writer)

/-- Where a guest cluster is in the file. -/
def hostOffset (cluster : ℕ) : Option ℕ :=
  (w.l2.lookup (cluster / l2Entries)).bind fun table =>
    let host := table (cluster % l2Entries)
    if host ≠ 0 then some host else none

/-- Allocate a guest cluster at the end of the file, which is extended over it. -/
def allocate (cluster : ℕ) : ℕ × Qcow2Writer :=
  let table := (w.l2.lookup (cluster / l2Entries)).getD fun _ => 0
  let host := w.next
  let next := w.next + cs
  (host, { w with
    l2 := w.l2.insert (cluster / l2Entries) (Function.update table (cluster % l2Entries) host)
    next := next
    file := w.file.setLen next })

def readPiece (pos n : ℕ) : Except Error Bytes :=
  match if pos < w.virtualSize then w.hostOffset (pos / cs) else none with
  | some host => (w.file.readExact (host + pos % cs) n).elim (.error .truncated) .ok
  | none => .ok (List.replicate n 0)

def readAt (off n : ℕ) : Except Error Bytes :=
  loopPieces (fun pos m => min (cs - pos % cs) m)
    (fun acc pos m => w.readPiece pos m >>= fun bytes => .ok (acc ++ bytes)) n [] off n

def writePiece (pos : ℕ) (src : Bytes) : Qcow2Writer :=
  let cluster := pos / cs
  let (host, w) := match w.hostOffset cluster with
    | some host => (host, w)
    | none => w.allocate cluster
  { w with file := w.file.write (host + pos % cs) src }

def writeAt (off : ℕ) (data : Bytes) : Except Error Qcow2Writer :=
  if w.virtualSize < off + data.length then .error (.exceedsSize off data.length w.virtualSize)
  else
    loopPieces (fun pos m => min (cs - pos % cs) m)
      (fun w pos m => .ok (w.writePiece pos ((data.drop (pos - off)).take m))) data.length w off
      data.length

/-- The bytes of an L2 table in the file. -/
def tableBytes (table : ℕ → ℕ) : ℕ → UInt8 :=
  beTable 8 fun i => if table i ≠ 0 then table i ||| oflagCopied else 0

/-- Write the L2 tables one after the other, and enter them in the L1 table. -/
def writeTables (file : File) (next : ℕ) (l1 : ℕ → ℕ) : List (ℕ × (ℕ → ℕ)) → File × ℕ × (ℕ → ℕ)
  | [] => (file, next, l1)
  | (idx, table) :: tables =>
    writeTables (file.writeFn next cs (tableBytes table)) (next + cs)
      (Function.update l1 idx (next ||| oflagCopied)) tables

/-- The refcount blocks that some clusters and the blocks themselves need. -/
def refcountBlocks (clusters : ℕ) : ℕ → ℕ → ℕ
  | 0, blocks => blocks
  | fuel + 1, blocks =>
    let need := divCeil (clusters + blocks) rcPerBlock
    if need ≤ blocks then blocks else refcountBlocks clusters fuel need

/-- Write the refcount blocks from one on: a count of one for each cluster there is. -/
def writeBlocks (file : File) (next total : ℕ) : ℕ → ℕ → File
  | _, 0 => file
  | b, n + 1 =>
    let first := b * rcPerBlock
    let last := min ((b + 1) * rcPerBlock) total
    writeBlocks (file.writeFn (next + b * cs) cs (beTable 2 fun i => if first + i < last then 1 else 0))
      next total (b + 1) n

/-- The header of a finished image. -/
def header : File :=
  let h := File.empty.setLen cs
  let h := h.write 0 (beBytes 4 magic)
  let h := h.write 4 (beBytes 4 3)
  let h := h.write 0x14 (beBytes 4 16)
  let h := h.write 0x18 (beBytes 8 w.virtualSize)
  let h := h.write 0x24 (beBytes 4 w.l1Size)
  let h := h.write 0x28 (beBytes 8 (2 * cs))
  let h := h.write 0x30 (beBytes 8 cs)
  let h := h.write 0x38 (beBytes 4 1)
  let h := h.write 0x60 (beBytes 4 4)
  h.write 0x64 (beBytes 4 112)

/-- Write the metadata: the file of the finished image. -/
def finish : Except Error File :=
  let (file, next, l1) := writeTables w.file w.next (fun _ => 0) w.l2.sorted
  let clusters := next / cs
  let blocks := refcountBlocks clusters (clusters + 1) 1
  if l2Entries < blocks then .error .tooLarge
  else
    let file := writeBlocks file next (clusters + blocks) 0 blocks
    let file := file.writeFn cs cs (beTable 8 fun b => if b < blocks then next + b * cs else 0)
    let file := file.writeFn (2 * cs) (w.l1Size * 8) (beTable 8 l1)
    .ok (file.writeFn 0 cs w.header.byte)

end Qcow2Writer

end Virtkit.Disk
