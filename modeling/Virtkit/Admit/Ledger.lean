import Virtkit.Common.Saturating
import Virtkit.Common.Table
import Virtkit.Common.Transition

/-!
# The host's admission ledger

One directory that every job on a host shares: a file for each job or reservation, which counts as
long as some process holds a lock on it. A process that asks for memory, vCPUs or disk creates a
file of its own, tallies the others under the directory lock, and marks its file granted once
everything fits and nobody who asked earlier still waits. Names and files are kept apart, as a file
may be renamed or unlinked while a process still has it open.

Entries are written whole: the line of a process killed in the middle of a write is not modelled.
The memory node that a placement chooses, the free space of the filesystem and what each job's
directory holds are given by the environment.
-/

namespace Virtkit.Admit

open Virtkit.Common

/-- The names of entries: a reservation's are kept apart from any job's. -/
inductive Name
  | reservation (id : String)
  | job (id : String)
  deriving DecidableEq, Repr

/-- Guest memory out of a budget the whole host shares, in MiB. -/
structure MemAsk where
  wantMib : ℕ
  budgetMib : ℕ
  deriving DecidableEq, Repr

/-- vCPUs out of a budget the whole host shares. -/
structure CpuAsk where
  want : ℕ
  budget : ℕ
  deriving DecidableEq, Repr

/-- What a job asks for; a part is `none` where that admission is off. The disk part is the bytes
it expects to write. -/
structure Ask where
  mem : Option MemAsk
  disk : Option ℕ
  cpus : Option CpuAsk
  deriving DecidableEq, Repr

/-- Where a job's memory went. -/
inductive Place
  | node (id : ℕ)
  | spread
  deriving DecidableEq, Repr

structure Entry where
  wantMib : ℕ
  asked : ℕ
  granted : Bool
  node : Option Place
  disk : Option ℕ
  cpus : Option ℕ
  deriving DecidableEq, Repr

/-- The line an ask is recorded with. -/
def Ask.entry (ask : Ask) (asked : ℕ) (granted : Bool) : Entry where
  wantMib := (ask.mem.map MemAsk.wantMib).getD 0
  asked := asked
  granted := granted
  node := none
  disk := ask.disk
  cpus := ask.cpus.map CpuAsk.want

/-- The job directories' filesystem at one moment. -/
structure Disk where
  total : ℕ
  avail : ℕ
  written : Name → ℕ

/-- An acquisition that waits: its job, the file it has open, and its place in the queue. -/
structure Waiting where
  job : String
  file : ℕ
  ask : Ask
  asked : ℕ
  deriving DecidableEq, Repr

/-- The ledger of a host: the files by name, their lines, which process holds a lock on which file,
and the processes that wait in `acquire`. -/
structure Ledger where
  dir : Table Name ℕ := ∅
  files : Table ℕ Entry := ∅
  locks : List (ℕ × ℕ) := []
  waiting : Table ℕ Waiting := ∅
  nextFile : ℕ := 0
  deriving DecidableEq

/-- What the other live entries hold, and how many wait that asked earlier. -/
structure Held where
  grantedMib : ℕ := 0
  grantedCpus : ℕ := 0
  ahead : ℕ := 0
  disk : List (Name × ℕ) := []

/-- The filesystem as one pass found it. -/
structure DiskRoom where
  avail : ℕ
  pending : ℕ
  held : ℕ
  claims : ℕ

/-- Each admitted job's claim counts for what its directory has yet to grow by. -/
def DiskRoom.of (disk : Disk) (claims : List (Name × ℕ)) : DiskRoom where
  avail := disk.avail
  pending := claims.foldl (fun a c => satAdd u64Max a (c.2 - disk.written c.1)) 0
  held := claims.foldl (fun a c => satAdd u64Max a (disk.written c.1)) 0
  claims := claims.length

/-- What one admission pass found. -/
structure Pass where
  ask : Ask
  usedMib : ℕ
  usedCpus : ℕ
  ahead : ℕ
  room : Option DiskRoom

/-- What kept a job out on a pass. -/
inductive Blocker
  | memory
  | cpus
  | disk
  | queue
  deriving DecidableEq, Repr

/-- What keeps an ask out of the ledger on a pass that cannot wait. A disk shortage says how much more
free space would admit the ask, if any would. -/
inductive Short
  | memory
  | cpus
  | disk (need : Option ℕ)
  | queue
  deriving DecidableEq, Repr

/-- What an ask is short of that could not be admitted on an empty host. -/
def Ask.tooLarge (ask : Ask) (disk : Disk) : Option Short :=
  if ask.mem.any fun m => decide (m.budgetMib < m.wantMib) then some .memory
  else if ask.cpus.any fun c => decide (c.budget < c.want) then some .cpus
  else if ask.disk.any fun want => decide (disk.total < want) then some (.disk none)
  else none

namespace Pass

variable (p : Pass)

/-- The memory asked for does not fit beside what the others hold. -/
def memShort : Bool :=
  p.ask.mem.any fun m => decide (m.budgetMib < satAdd u64Max p.usedMib m.wantMib)

/-- The vCPUs asked for do not fit beside what the others hold. -/
def cpuShort : Bool :=
  p.ask.cpus.any fun c => decide (c.budget < satAdd u64Max p.usedCpus c.want)

/-- The disk asked for, cut to what the filesystem could ever give. -/
def diskClaim : Option ℕ :=
  p.ask.disk.map fun want => match p.room with
    | some room => min want (satAdd u64Max room.avail room.held)
    | none => want

/-- The disk asked for does not fit; alone on the filesystem it always does. -/
def diskShort : Bool :=
  match p.diskClaim, p.room with
  | some want, some room => decide (room.claims ≠ 0) && decide (room.avail < satAdd u64Max room.pending want)
  | _, _ => false

/-- What keeps the job out, or `none` when it is admitted. -/
def blocker : Option Blocker :=
  if p.memShort then some .memory
  else if p.cpuShort then some .cpus
  else if p.diskShort then some .disk
  else if 0 < p.ahead then some .queue
  else none

/-- How much more free space would admit the ask, on a pass the disk keeps it out on. -/
def diskShortfall : Option ℕ :=
  match p.room, p.ask.disk with
  | some room, some want =>
    if p.blocker = some .disk then some (satAdd u64Max room.pending want - room.avail) else none
  | _, _ => none

/-- What an ask that may not wait is refused with. -/
def short : Short :=
  match p.blocker with
  | some .memory => .memory
  | some .cpus => .cpus
  | some .disk => .disk p.diskShortfall
  | _ => .queue

/-- A pass from what the tally held, the filesystem being walked only where it could matter. -/
def ofHeld (ask : Ask) (held : Held) (disk : Disk) : Pass :=
  let p : Pass := ⟨ask, held.grantedMib, held.grantedCpus, held.ahead, none⟩
  if p.memShort || p.cpuShort then p
  else { p with room := ask.disk.map fun _ => DiskRoom.of disk held.disk }

end Pass

variable (l : Ledger)

namespace Ledger

/-- Whether any process holds a lock on the file. -/
def locked (file : ℕ) : Bool := l.locks.any fun h => h.2 == file

/-- Count one live entry. -/
def tallyEntry (asked : ℕ) (held : Held) (name : Name) (e : Entry) : Held :=
  if e.granted then
    { held with
      grantedMib := satAdd u64Max held.grantedMib e.wantMib
      grantedCpus := satAdd u64Max held.grantedCpus (e.cpus.getD 0)
      disk := held.disk ++ (e.disk.map fun bytes => (name, bytes)).toList }
  else if e.asked < asked then { held with ahead := held.ahead + 1 }
  else held

/-- The entries of a tally: those of the directory but the caller's own that a process holds. -/
def others (own : Option Name) : List (Name × Entry) :=
  l.dir.entries.filterMap fun e =>
    if some e.1 = own ∨ l.locked e.2 = false then none
    else (l.files.lookup e.2).map fun x => (e.1, x)

/-- What the live ledger holds but for the caller's own entry. Entries that nobody holds are removed
as they are found. -/
def tally (own : Option Name) (asked : ℕ) : Held × Ledger :=
  ((l.others own).foldl (fun held e => tallyEntry asked held e.1 e.2) {},
    { l with dir := l.dir.retain fun n f => decide (some n = own) || l.locked f })

end Ledger

/-!
## Asking the admission ledger

The operations of the processes on one host: `acquire` as its start, its passes and its giving up,
the one-pass `tryAcquire`, the supervisor's `hold`, the hand over of a reservation to a job by
`rename`, `release`, `place`, and what the kernel does to locks when a descriptor is inherited,
closed, or its process dies. Each runs under the directory lock or touches one name only, so each
is one step; a run is any interleaving of them. Every participant is given the same budgets.
-/

/-- The host's budgets. Memory is a whole number of GiB that fits 64 bits, vCPUs fit 32. -/
structure Budgets where
  mib : ℕ
  cpus : ℕ
  mib_whole : 1024 ∣ mib
  mib_le : mib ≤ u64Max
  cpus_le : cpus ≤ u32Max

/-- The ask was made with the host's budgets. -/
def Ask.Given (b : Budgets) (ask : Ask) : Prop :=
  (∀ m ∈ ask.mem, m.budgetMib = b.mib) ∧ ∀ c ∈ ask.cpus, c.budget = b.cpus

instance (b : Budgets) (ask : Ask) : Decidable (ask.Given b) :=
  inferInstanceAs (Decidable (_ ∧ _))

namespace Ledger

/-- Rewrite the line of a file. -/
def write (file : ℕ) (e : Entry) : Ledger :=
  { l with files := l.files.insert file e }

/-- Open the named file, creating it if it is missing, and lock it for the process. -/
def openShared (p : ℕ) (name : Name) : ℕ × Ledger :=
  match l.dir.lookup name with
  | some file => (file, { l with locks := (p, file) :: l.locks })
  | none =>
    (l.nextFile, { l with
        dir := l.dir.insert name l.nextFile
        locks := (p, l.nextFile) :: l.locks
        nextFile := l.nextFile + 1 })

/-- The request time of a granted entry that somebody holds under the name. -/
def reservedEntry (name : Name) : Option ℕ :=
  match l.dir.lookup name with
  | some file => if l.locked file then ((l.files.lookup file).filter Entry.granted).map Entry.asked else none
  | none => none

/-- The start of `acquire`, of an ask that is not too large: a granted entry held under the job's name
keeps its place and its claim until the ask is granted; otherwise the ask is recorded as waiting. -/
def acquire (p : ℕ) (job : String) (ask : Ask) (asked : ℕ) (disk : Disk) : Option Ledger :=
  if ask.tooLarge disk = none then
    let reserved := l.reservedEntry (.job job)
    let (file, l) := l.openShared p (.job job)
    match reserved with
    | some asked => some { l with waiting := l.waiting.insert p ⟨job, file, ask, asked⟩ }
    | none =>
      let l := l.write file (ask.entry asked false)
      some { l with waiting := l.waiting.insert p ⟨job, file, ask, asked⟩ }
  else none

/-- One pass of a waiting `acquire`, and what blocked it: unblocked, the ask is granted; otherwise
the ledger is only freed of the dead. -/
def acquirePass (p : ℕ) (w : Waiting) (disk : Disk) : Ledger × Option Blocker :=
  let (held, l) := l.tally (some (.job w.job)) w.asked
  match (Pass.ofHeld w.ask held disk).blocker with
  | none =>
    let l := l.write w.file (w.ask.entry w.asked true)
    ({ l with waiting := l.waiting.erase p }, none)
  | some blocker => (l, some blocker)

/-- A waiting `acquire` gives up: its name is removed and its file closed. -/
def acquireTimeout (p : ℕ) : Option Ledger := do
  let w ← l.waiting.lookup p
  return { l with
    dir := l.dir.erase (.job w.job)
    locks := l.locks.erase (p, w.file)
    waiting := l.waiting.erase p }

/-- What a one-pass ask comes to: the locked file of its entry, what it is short of, or an error as
somebody holds a granted entry of the name. -/
inductive Answer
  | reserved (file : ℕ)
  | short (s : Short)
  | alreadyReserved
  deriving DecidableEq, Repr

/-- Ask without waiting: a granted entry, or nothing but a ledger freed of the dead. -/
def tryAcquire (p : ℕ) (name : Name) (ask : Ask) (asked : ℕ) (disk : Disk) : Ledger × Answer :=
  match ask.tooLarge disk with
  | some s => (l, .short s)
  | none =>
    let (held, l) := l.tally (some name) asked
    let pass := Pass.ofHeld ask held disk
    if pass.blocker.isSome then (l, .short pass.short)
    else if (l.reservedEntry name).isSome then (l, .alreadyReserved)
    else
      let (file, l) := l.openShared p name
      (l.write file (ask.entry asked true), .reserved file)

/-- Lock the job's entry for a process that takes it on, if it is there. -/
def hold (p : ℕ) (job : String) : Option Ledger := do
  let file ← l.dir.lookup (.job job)
  return { l with locks := (p, file) :: l.locks }

/-- The directory without a dead entry of the job's name; refused while somebody holds one. -/
def clearTarget (job : String) : Option (Table Name ℕ) :=
  match l.dir.lookup (.job job) with
  | some target => if l.locked target then none else some (l.dir.erase (.job job))
  | none => some l.dir

/-- Hand a reservation to a job. -/
def rename (id : String) (job : String) : Option Ledger := do
  let dir ← l.clearTarget job
  let file ← dir.lookup (.reservation id)
  return { l with dir := (dir.erase (.reservation id)).insert (.job job) file }

/-- Drop a name at cleanup. -/
def release (name : Name) : Ledger := { l with dir := l.dir.erase name }

/-- Record the memory node that a holder's guest was placed on. -/
def place (l : Ledger) (p file : ℕ) (name : Name) (node : Place) : Option Ledger :=
  if (p, file) ∈ l.locks then
    let l := (l.tally (some name) 0).2
    match l.files.lookup file with
    | some e => some (l.write file { e with node := some node })
    | none => none
  else none

/-- A process passes a locked descriptor to another. -/
def inherit (p q file : ℕ) : Option Ledger :=
  if (p, file) ∈ l.locks then some { l with locks := (q, file) :: l.locks } else none

/-- A process closes a file that it does not wait on. -/
def close (p file : ℕ) : Option Ledger :=
  match l.waiting.lookup p with
  | some w => if w.file = file then none else some { l with locks := l.locks.erase (p, file) }
  | none => some { l with locks := l.locks.erase (p, file) }

/-- A process dies: its locks go, its files stay. -/
def die (p : ℕ) : Ledger :=
  { l with locks := l.locks.filter fun h => h.1 ≠ p, waiting := l.waiting.erase p }

end Ledger

/-- What can happen on a host. -/
inductive Action
  | acquire (p : ℕ) (job : String) (ask : Ask) (asked : ℕ) (disk : Disk)
  | acquirePass (p : ℕ) (disk : Disk)
  | acquireTimeout (p : ℕ)
  | tryAcquire (p : ℕ) (name : Name) (ask : Ask) (asked : ℕ) (disk : Disk)
  | hold (p : ℕ) (job : String)
  | rename (id job : String)
  | release (name : Name)
  | place (p file : ℕ) (name : Name) (node : Place)
  | inherit (p q file : ℕ)
  | close (p file : ℕ)
  | die (p : ℕ)
  | reap

/-- One step on a host with the given budgets. A process waits in one `acquire` at a time. -/
def Ledger.step (b : Budgets) (l : Ledger) : Action → Option Ledger
  | .acquire p job ask asked disk =>
    if ask.Given b ∧ l.waiting.lookup p = none then l.acquire p job ask asked disk else none
  | .acquirePass p disk => (l.waiting.lookup p).map fun w => (l.acquirePass p w disk).1
  | .acquireTimeout p => l.acquireTimeout p
  | .tryAcquire p name ask asked disk =>
    if ask.Given b then some (l.tryAcquire p name ask asked disk).1 else none
  | .hold p job => l.hold p job
  | .rename id job => l.rename id job
  | .release name => some (l.release name)
  | .place p file name node => l.place p file name node
  | .inherit p q file => l.inherit p q file
  | .close p file => l.close p file
  | .die p => some (l.die p)
  | .reap => some (l.tally none 0).2

/-- The runs of a host from an empty ledger. -/
def ledgers (b : Budgets) : System Ledger Action :=
  System.ofFunction (fun l => l = {}) (Ledger.step b)

/-!
## The disk shortfall

A job that the disk keeps out is told how much more free space would admit it, and the host's reclaimer is asked
for that much. What is tested is the job's claim, which is cut to what the filesystem could ever give and so
grows with what is freed; the shortfall is measured against the job's full expectation.
-/

namespace Pass

/-- The same pass with more free space. -/
def freed (p : Pass) (extra : ℕ) : Pass :=
  { p with room := p.room.map fun room => { room with avail := room.avail + extra } }

theorem blocker_eq_disk_iff (p : Pass) :
    p.blocker = some .disk ↔ p.memShort = false ∧ p.cpuShort = false ∧ p.diskShort = true := by
  unfold blocker
  cases p.memShort <;> cases p.cpuShort <;> cases p.diskShort <;> simp

/-- Whether a disk stays short after space is freed. -/
theorem diskShort_freed_iff {p : Pass} {room : DiskRoom} {want : ℕ} (hroom : p.room = some room)
    (hwant : p.ask.disk = some want) (hsum : room.pending + want ≤ u64Max) (extra : ℕ) :
    (p.freed extra).diskShort = true ↔
      room.claims ≠ 0 ∧ 0 < room.pending + room.held ∧ room.avail + extra < room.pending + want := by
  simp only [freed, diskShort, diskClaim, hroom, hwant, Option.map_some, Bool.and_eq_true, decide_eq_true_eq]
  unfold satAdd
  omega

/-- The shortfall reported is the least extra free space with which the disk does not keep the job out. -/
theorem shortfall_isLeast (p : Pass) (hdisk : p.blocker = some .disk)
    (hsum : ∀ room want, p.room = some room → p.ask.disk = some want → room.pending + want ≤ u64Max) :
    ∃ need, p.diskShortfall = some need ∧ IsLeast {extra | (p.freed extra).blocker ≠ some .disk} need := by
  obtain ⟨hmem, hcpu, hshort⟩ := p.blocker_eq_disk_iff.mp hdisk
  cases hroom : p.room with
  | none => simp [diskShort, hroom] at hshort
  | some room =>
    cases hwant : p.ask.disk with
    | none => simp [diskShort, diskClaim, hwant] at hshort
    | some want =>
      have hle := hsum room want hroom hwant
      have hneed : p.diskShortfall = some (room.pending + want - room.avail) := by
        simp only [diskShortfall, hroom, hwant, hdisk, if_true, satAdd, Nat.min_eq_left hle]
      have hsame : p.freed 0 = p := by rw [freed, hroom, Option.map_some, Nat.add_zero, ← hroom]
      have hfreed : ∀ extra, (p.freed extra).blocker ≠ some .disk ↔ room.pending + want ≤ room.avail + extra := by
        intro extra
        rw [← hsame] at hshort
        obtain ⟨hclaims, hpos, -⟩ := (diskShort_freed_iff hroom hwant hle 0).mp hshort
        have hiff := diskShort_freed_iff hroom hwant hle extra
        have hblocker := (p.freed extra).blocker_eq_disk_iff
        rw [Ne, hblocker, hiff]
        exact ⟨fun h => Nat.not_lt.mp fun hlt => h ⟨hmem, hcpu, hclaims, hpos, hlt⟩,
          fun h hall => Nat.not_lt.mpr h hall.2.2.2.2⟩
      refine ⟨_, hneed, (hfreed _).mpr (by omega), fun extra hextra => ?_⟩
      have henough := (hfreed extra).mp hextra
      omega

/-- A job that expects ten bytes beside another that is still to write five, with six free. -/
theorem shortfall_isLeast_nine :
    ∃ need, (Pass.mk ⟨none, some 10, none⟩ 0 0 0 (some ⟨6, 5, 1, 1⟩)).diskShortfall = some need ∧
      IsLeast {extra | ((Pass.mk ⟨none, some 10, none⟩ 0 0 0 (some ⟨6, 5, 1, 1⟩)).freed extra).blocker ≠ some .disk}
        need := by
  refine shortfall_isLeast _ (by decide) fun room want hroom hwant => ?_
  cases hroom
  cases hwant
  decide

end Pass

end Virtkit.Admit
