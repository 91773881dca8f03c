import Mathlib.Data.List.Sort
import Virtkit.Hub.State

/-!
# Room on nodes

How many placements of one shape a node takes now: its last heartbeat's figures, less what the
hub asked of it since that heartbeat was read, divided by the shape, and no more than its ceiling
leaves. What a node has placed is tallied from the dispatch state. The nodes with room are listed
least loaded first.

The hub's tables of nodes and their connections are an argument, as is its wall clock.
-/

namespace Virtkit.Hub

open Virtkit.Common

/-- What a node's hardware offers. -/
structure Hardware where
  cpus : ℕ
  memTotalMib : Option ℕ
  deriving DecidableEq

structure Inventory where
  labels : List String
  hardware : Hardware
  egressRules : Bool
  jobBuildCache : Bool
  deriving DecidableEq

inductive NodeState where
  | ready
  | draining
  | drained
  | maintenance
  | validating
  | quarantined
  deriving DecidableEq

/-- What a node says of its intake of placed jobs. -/
structure PlacedIntake where
  runner : Option String
  limit : Option ℕ
  imageCacheIdleSecs : Option ℕ
  deriving DecidableEq

structure Report where
  state : Option NodeState
  placed : Option PlacedIntake
  localCeiling : Option ℕ
  deriving DecidableEq

/-- The figures of a node's admission ledger. -/
structure Admission where
  committedMib : ℕ
  budgetMib : Option ℕ
  committedCpus : Option ℕ
  cpuBudget : Option ℕ
  deriving DecidableEq

/-- What a filesystem of a node is for. -/
inductive StorageRole where
  | jobs
  | checkouts
  deriving DecidableEq

/-- Free space on one filesystem. -/
structure FsUsage where
  role : StorageRole
  freeBytes : ℕ
  deriving DecidableEq

/-- A node's load, sent at intervals. -/
structure Heartbeat where
  admission : Option Admission
  memAvailableMib : Option ℕ
  storage : List FsUsage
  load1Hundredths : Option ℕ
  admissionAgeMs : Option ℕ
  deriving DecidableEq

/-- The hub's record of a node; `ceiling` is the operator's. -/
structure NodeRow where
  pools : List String
  inventory : Option Inventory
  heartbeat : Option Heartbeat
  heartbeatAt : Option ℕ
  report : Option Report
  ceiling : Option ℕ
  deriving DecidableEq

/-- When a node that holds a job's image is preferred for it. -/
structure Affinity where
  maxLoad : ℕ
  maxExtraLoad : ℕ

/-- What the hub knows outside the dispatch state: its connections, its settings and its wall
clock. -/
structure HubEnv where
  connected : String → Bool
  currentSession : String → Option ℕ
  egressRulesOn : Bool
  jobBuildCacheRequired : Bool
  affinity : Affinity
  nowSecs : ℕ

abbrev Nodes := Table String NodeRow

/-- Whether a node enforces the egress rules the hub imposes. -/
def enforcesRules (hub : HubEnv) (row : NodeRow) : Bool :=
  !hub.egressRulesOn || row.inventory.any Inventory.egressRules

def cachesBuildsAsRequired (hub : HubEnv) (row : NodeRow) : Bool :=
  !hub.jobBuildCacheRequired || row.inventory.any Inventory.jobBuildCache

/-- The most placed work a node takes at once: the smaller of the operator's ceiling and the
node's own limit. -/
def placedCap (ceiling : Option ℕ) (report : Option Report) : Option ℕ :=
  let own := report.bind fun r =>
    match r.placed with
    | some p => p.limit
    | none => r.localCeiling
  (ceiling.toList ++ own.toList).min?

/-- The most placements of one shape counted on a node. -/
def maxFits : ℕ := 1024

/-- Memory a node has for placements: the smaller of its uncommitted budget and its available
memory less a reserve of 15 percent. -/
def memRoom (heartbeat : Heartbeat) (totalMib : Option ℕ) : Option ℕ :=
  let budget := heartbeat.admission.bind fun a => a.budgetMib.map (· - a.committedMib)
  let reserve := totalMib.elim 0 fun t => min (t * 15) u64Max / 100
  let live := heartbeat.memAvailableMib.map (· - reserve)
  match budget, live with
  | some b, some l => some (min b l)
  | b, l => b.or l

/-- The vCPUs a node's budget has uncommitted. -/
def cpuRoom (heartbeat : Heartbeat) : Option ℕ :=
  heartbeat.admission.bind fun a => a.cpuBudget.map (· - a.committedCpus.getD 0)

/-- Free disk for job directories. -/
def diskRoom (heartbeat : Heartbeat) : Option ℕ :=
  ((heartbeat.storage.filter (·.role = .jobs)).map FsUsage.freeBytes).max?

/-- Since when the hub's own records count on top of a heartbeat: when its admission was read. -/
def NodeRow.since (row : NodeRow) : ℕ :=
  let age := (row.heartbeat.bind Heartbeat.admissionAgeMs).elim 0 fun ms => (ms + 999) / 1000
  row.heartbeatAt.getD 0 - age

/-- Saturating sum of envelopes, in the widths of their fields. -/
def Envelope.add (a b : Envelope) : Envelope where
  memMib := satAdd u64Max a.memMib b.memMib
  cpus := satAdd u32Max a.cpus b.cpus
  diskBytes := satAdd u64Max a.diskBytes b.diskBytes

def Envelope.zero : Envelope := ⟨0, 0, 0⟩

/-- Whether a reservation's envelope is not in a node's heartbeat read at `since`. -/
def Resv.pending (node : String) (since : ℕ) (r : Resv) : Bool :=
  r.node == node && match r.phase with
    | .offered | .abandoned => true
    | .held _ => since ≤ r.acceptedAt
    | .refused _ => false

/-- Whether a job's envelope is not in a node's heartbeat read at `since`. -/
def LiveJob.pending (node : String) (since : ℕ) (j : LiveJob) : Bool :=
  j.row.node == some node && (j.row.state == .starting || j.row.state == .running) && match j.committedAt with
    | some at_ => since ≤ at_
    | none => j.row.state == .starting

/-- What the hub asked of a node that its heartbeat does not show yet, on top of `extra`. -/
def pendingOn (s : State) (node : String) (since : ℕ) (extra : Option Envelope) : Envelope :=
  let reserved := (s.reservations.entries.map Sigma.snd).filter (Resv.pending node since)
  let sent := (s.jobs.entries.map Sigma.snd).filter (LiveJob.pending node since)
  (extra.toList ++ reserved.map Resv.envelope ++ sent.map (·.row.placement.envelope)).foldl Envelope.add .zero

/-- Whether a node takes placements of a shape at all: connected and heard from, of the pool and
the labels, in service, running no runner of its own, and large enough. -/
def takesWork (hub : HubEnv) (s : State) (node : String) (row : NodeRow) (p : Placement) : Bool :=
  (s.links.lookup node).any Link.held && hub.connected node && row.pools.contains p.pool &&
    row.inventory.any (fun i => p.labels.all i.labels.contains && p.envelope.cpus ≤ i.hardware.cpus) &&
    enforcesRules hub row && cachesBuildsAsRequired hub row &&
    (row.report.bind Report.state).all (· = .ready) &&
    ((row.report.bind Report.placed).bind PlacedIntake.runner).isNone

/-- A count, no more than a quotient that is known. -/
def fitsBy (fits : ℕ) (free : Option ℕ) (size : ℕ) : ℕ :=
  match free with
  | some n => if size = 0 then fits else min fits (n / size)
  | none => fits

/-- How many envelopes fit a node's figures, less what is pending there. -/
def fits (row : NodeRow) (heartbeat : Heartbeat) (memFree : ℕ) (e : Envelope) (placed : ℕ)
    (pending : Envelope) : ℕ :=
  let belowCap := (placedCap row.ceiling row.report).elim maxFits (· - placed)
  let byMem := fitsBy (min belowCap maxFits) (some (memFree - pending.memMib)) e.memMib
  let byCpu := fitsBy byMem ((cpuRoom heartbeat).map (· - pending.cpus)) e.cpus
  fitsBy byCpu ((diskRoom heartbeat).map (· - pending.diskBytes)) e.diskBytes

/-- A node's room for a placement: how many of its envelopes fit, `none` when it takes none now.
`placed` is what the node has placed, `extra` additional work not in its heartbeat. -/
def room (hub : HubEnv) (s : State) (node : String) (row : NodeRow) (p : Placement) (placed : ℕ)
    (extra : Option Envelope) : Option ℕ := do
  guard (takesWork hub s node row p)
  let heartbeat ← row.heartbeat
  let inventory ← row.inventory
  let memFree ← memRoom heartbeat inventory.hardware.memTotalMib
  let n := fits row heartbeat memFree p.envelope placed (pendingOn s node row.since extra)
  guard (0 < n)
  return n

/-- A node's placed work and its vCPUs. -/
structure Tally where
  placed : ℕ
  cpus : ℕ
  deriving DecidableEq

/-- Whether a reservation counts against its node's ceiling. -/
def Resv.live (node : String) (r : Resv) : Bool :=
  r.node == node && match r.phase with
    | .refused _ => false
    | _ => true

/-- The placed work a node holds as the hub counts it against the node's ceiling: reservations
not refused, jobs sent to it and not finished, and jobs of its `held` that the hub has disowned. -/
def tally (s : State) (node : String) : Tally :=
  let live := (s.reservations.entries.map Sigma.snd).filter (Resv.live node)
  let sent := (s.jobs.entries.map Sigma.snd).filter fun j => j.row.node == some node
  let cpus := live.map (·.envelope.cpus) ++ sent.map (·.row.placement.envelope.cpus)
  let placed := cpus.foldl (fun n _ => satAdd u64Max n 1) 0
  { placed := satAdd u64Max placed ((s.disowned.lookup node).elim 0 List.length)
    cpus := cpus.foldl (satAdd u64Max) 0 }

end Virtkit.Hub
