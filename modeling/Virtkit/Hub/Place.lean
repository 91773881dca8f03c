import Virtkit.Hub.Room

/-!
# Candidate nodes

The nodes with room for a placement, in the order the hub tries them, the nodes that hold a
job's image and are light enough to be preferred for it, and the nodes a lane rules out.
-/

namespace Virtkit.Hub

open Virtkit.Common

/-- A quotient, `none` by zero. -/
def checkedDiv (n d : ℕ) : Option ℕ := if d = 0 then none else some (n / d)

/-- Load for ordering candidates, in millionths: the largest of the placed share, placed vCPUs
per CPU and the load average per CPU. -/
def load (placed room placedCpus cpus : ℕ) (load1 : Option ℕ) : ℕ :=
  let whole := 1000000
  let share := (checkedDiv (min (placed * whole) u64Max) (satAdd u64Max placed room)).getD 0
  let committed := (checkedDiv (min (placedCpus * whole) u64Max) cpus).getD 0
  let busy := (load1.bind fun l => checkedDiv (min (l * (whole / 100)) u64Max) cpus).getD 0
  max (max share committed) busy

variable (hub : HubEnv) (s : State)

variable (nodes : Nodes)

/-- The nodes with room for a placement outside `skip`, with their room. -/
def rooms (p : Placement) (skip : List String) :
    List (String × NodeRow × ℕ) :=
  (nodes.entries.filter fun n => !skip.contains n.1).filterMap fun n =>
    (room hub s n.1 n.2 p (tally s n.1).placed none).map fun r => (n.1, n.2, r)

/-- The order in which candidates are tried: least load, then most room, then by ID. -/
def byLoad (a b : String × ℕ × ℕ) : Ordering :=
  ((compare a.2.2 b.2.2).then (compare b.2.1 a.2.1)).then (compare a.1 b.1)

/-- Nodes with their room, least load first. -/
def leastLoadedFirst (found : List (String × ℕ × ℕ)) : List (String × ℕ) :=
  (found.insertionSort fun a b => (byLoad a b).isLE).map fun n => (n.1, n.2.1)

/-- The nodes with room for a placement outside `skip`, with their room, least loaded first. -/
def candidates (p : Placement) (skip : List String) :
    List (String × ℕ) :=
  leastLoadedFirst <| (rooms hub s nodes p skip).map fun n =>
    let t := tally s n.1
    let cpus := n.2.1.inventory.elim 0 (·.hardware.cpus)
    (n.1, n.2.2, load t.placed n.2.2 t.cpus cpus (n.2.1.heartbeat.bind Heartbeat.load1Hundredths))

/-- The longest a node is counted as holding an image. -/
def maxImageIdleSecs : ℕ := 86400

/-- The idle window of a node that reports none. -/
def defaultImageIdleSecs : ℕ := 1800

/-- Whether a node that used an image at `usedAt` still holds it. -/
def stillWarm (usedAt idleSecs now : ℕ) : Bool := now - usedAt < min idleSecs maxImageIdleSecs

/-- The vCPUs of a node's jobs that its load average may not show yet. -/
def recentCpus (s : State) (now : ℕ) (node : String) : ℕ :=
  let recent := (s.jobs.entries.map Sigma.snd).filter fun j =>
    j.row.node == some node && match j.row.state with
      | .starting => true
      | .running => j.row.startedAt.any fun t => now - t < 60
      | _ => false
  recent.foldl (fun n j => satAdd u64Max n j.row.placement.envelope.cpus) 0

/-- Load per CPU in millionths, with `extra` busy CPUs. -/
def loadPerCpu (load1 : Option ℕ) (extra cpus : ℕ) : Option ℕ :=
  load1.bind fun l => checkedDiv (satAdd u64Max (min (l * 10000) u64Max) (min (extra * 1000000) u64Max)) cpus

/-- Whether a node holding the image is preferred for a job. -/
def preferWarm (warm job least : ℕ) (affinity : Affinity) : Bool :=
  satAdd u64Max warm job < affinity.maxLoad && warm ≤ satAdd u64Max least affinity.maxExtraLoad

/-- The nodes that still hold an image. -/
def warmNodes (s : State) (nodes : Nodes) (key : String) (now : ℕ) : List String :=
  match s.warm.lookup key with
  | none => []
  | some used =>
    (nodes.entries.filter fun n =>
      let idle := ((n.2.report.bind Report.placed).bind PlacedIntake.imageCacheIdleSecs).getD
        defaultImageIdleSecs
      (used.lookup n.1).any fun usedAt => stillWarm usedAt idle now).map Sigma.fst

/-- A candidate's load per CPU without a job and the load the job adds, where both are known. -/
def loadWithout (s : State) (nodes : Nodes) (cpus now : ℕ) (id : String) : Option (String × ℕ × ℕ) := do
  let row ← nodes.lookup id
  let nodeCpus := row.inventory.elim 0 (·.hardware.cpus)
  let load1 := row.heartbeat.bind Heartbeat.load1Hundredths
  let now' ← loadPerCpu load1 (recentCpus s now id) nodeCpus
  let job ← loadPerCpu (some 0) cpus nodeCpus
  return (id, now', job)

/-- Of the nodes holding an image, the candidates preferred for a job. -/
def preferred (s : State) (nodes : Nodes) (found : List (String × ℕ)) (warm : List String)
    (cpus : ℕ) (affinity : Affinity) (now : ℕ) : List String :=
  let loads := found.filterMap fun n => loadWithout s nodes cpus now n.1
  match (loads.map (·.2.1)).min? with
  | none => []
  | some least =>
    (loads.filter fun l => warm.contains l.1 && preferWarm l.2.1 l.2.2 least affinity).map Prod.fst

/-- The candidates with the first preferred one moved to the front. -/
def warmFirst (found : List (String × ℕ)) (light : List String) : List (String × ℕ) :=
  match found.find? fun n => light.contains n.1 with
  | some n => n :: found.erase n
  | none => found

/-- Note that a node used an image, forgetting the key used least recently past the limit. -/
def warmTouch (s : State) (key node : String) (now : ℕ) : State :=
  let used := ((s.warm.lookup key).getD ∅).retain fun _ usedAt => now - usedAt < maxImageIdleSecs
  let used := used.insert node (max now ((used.lookup node).getD now))
  let warm := s.warm.insert key used
  let latest := fun e : Sigma fun _ : String => Table String ℕ => ((e.2.entries.map Sigma.snd).max?).getD 0
  if 4096 < warm.entries.length then
    match warm.entries.argmin latest with
    | some oldest => { s with warm := warm.erase oldest.1 }
    | none => { s with warm := warm }
  else { s with warm := warm }

variable (policy : Policy)

/-- The nodes a lane may not use: none when the policy lacks it or it names no nodes. -/
def laneExclusions (lane : LaneId) (nodes : Nodes) : List String :=
  match (policy.lane lane).filter Lane.confined with
  | none => []
  | some l => (nodes.entries.filter fun n => !l.allowsNode n.1 n.2.pools).map Sigma.fst

/-- The nodes a job may not go to. -/
def jobExclusions (row : JobRow) (nodes : Nodes) : List String :=
  laneExclusions policy (jobLane row) nodes

/-- Whether a job may start on a reservation: one held by a linked node outside `excluded` that
may run the hub's jobs. -/
def usableReservation (excluded : List String)
    (id : String) : Option Resv :=
  (s.reservations.lookup id).filter fun x =>
    (match x.phase with
      | .held _ => true
      | _ => false) &&
    (s.links.lookup x.node).any Link.held && !excluded.contains x.node &&
    (nodes.lookup x.node).any fun row => enforcesRules hub row && cachesBuildsAsRequired hub row

/-!
## Headroom kept for production

The policy's headroom entries keep room for production work: normal work goes to a node only where
each entry keeps its slots, or all the room it still has. The hub reads the fleet's room once and
keeps the reading until a placement changes it; here it is read at every use.
-/

/-- Why no node was found: none outside those tried has room. -/
def noFittingNode : String := "no fitting node"

/-- Why no node was found: each would take room kept for production. -/
def productionHeadroom : String := "production headroom"

/-- The fleet's room for one headroom placement: on each node with any, and their sum. -/
structure KeptEntry where
  placement : Placement
  slots : ℕ
  on : List (String × ℕ)
  total : ℕ

/-- The room a placement has on a node, none on a node not listed. -/
def KeptEntry.roomOn (e : KeptEntry) (node : String) : ℕ :=
  ((e.on.find? fun n => n.1 == node).map Prod.snd).getD 0

def roomsOn (p : Placement) : List (String × ℕ) :=
  (rooms hub s nodes p []).map fun n => (n.1, n.2.2)

def fleetRoom (p : Placement) : ℕ :=
  (roomsOn hub s nodes p).foldl (fun sum n => satAdd u64Max sum n.2) 0

/-- Add a headroom entry to the reading: one of a placement already read raises its slots. -/
def keep (entries : List KeptEntry) (h : Headroom) :
    List KeptEntry :=
  if entries.any fun e => e.placement = h.placement then
    entries.map fun e => if e.placement = h.placement then { e with slots := max e.slots h.slots } else e
  else
    entries ++ [⟨h.placement, h.slots, roomsOn hub s nodes h.placement, fleetRoom hub s nodes h.placement⟩]

/-- The fleet's room for every headroom placement, each with its greatest slot count. -/
def keptRooms : List KeptEntry :=
  policy.headroom.foldl (keep hub s nodes) []

/-- Whether an entry keeps its slots, or all its remaining room if it is short of them, once
`e` is added to a node that has `placed` already. -/
def KeptEntry.keeps (entry : KeptEntry) (node : String) (row : NodeRow)
    (placed : ℕ) (e : Envelope) : Bool :=
  let before := entry.roomOn node
  let after := (room hub s node row entry.placement (satAdd u64Max placed 1) (some e)).getD 0
  before == 0 || min entry.slots entry.total ≤ satAdd u64Max (entry.total - before) after

/-- Whether work may go to a node: production work anywhere, normal work where it preserves each
entry's room. -/
def admits (p : Placement)
    (cls : Class) (node : String) : Bool :=
  if cls = .production || policy.headroom.isEmpty then true
  else
    match nodes.lookup node with
    | none => false
    | some row =>
      (keptRooms hub s nodes policy).all fun entry =>
        entry.keeps hub s node row (tally s node).placed p.envelope

/-- Choose a node for work among the nodes with room: the first outside `skip` that may take it.
An error says why there is none. -/
def admissionNode (p : Placement)
    (cls : Class) (found : List (String × ℕ)) (skip excluded : List String) :
    Except String String :=
  let allowed := (found.map Prod.fst).filter fun n => !excluded.contains n
  let fresh := allowed.filter fun n => !skip.contains n
  let skipped := allowed.filter skip.contains
  if fresh.isEmpty then .error noFittingNode
  else
    match fresh.find? (admits hub s nodes policy p cls) with
    | some node => .ok node
    | none =>
      if skipped.any (admits hub s nodes policy p cls) then .error noFittingNode
      else .error productionHeadroom

/-- The node admitted has room and is not left out. -/
theorem admissionNode_eq_ok {hub : HubEnv} {s : State} {nodes : Nodes} {policy : Policy}
    {p : Placement} {cls : Class} {found : List (String × ℕ)} {skip excluded : List String}
    {node : String} (h : admissionNode hub s nodes policy p cls found skip excluded = .ok node) :
    node ∈ found.map Prod.fst ∧ node ∉ excluded ∧ node ∉ skip ∧ admits hub s nodes policy p cls node = true := by
  simp only [admissionNode] at h
  split at h
  · simp at h
  · split at h
    · rename_i found' hfound
      cases h
      have hmem := List.mem_of_find?_eq_some hfound
      have hadm := List.find?_some hfound
      simp only [List.mem_filter, Bool.not_eq_true', List.contains_eq_mem, decide_eq_false_iff_not] at hmem
      exact ⟨hmem.1.1, hmem.1.2, hmem.2, hadm⟩
    · split at h <;> simp at h

/-!
## Ending and sending jobs

The two ways a job leaves the queue: it ends, giving back the reservation it was submitted on, or
it is sent to a node, its reservation's or the one chosen for it. A job goes to the node of its
reservation unless a lighter node already holds its image. The egress layer of a job is an
argument: it is resolved from the hub's rules or says why it cannot be.
-/

/-- Give a reservation back: forget it and tell its node. -/
def dropReservation (s : State) (r : String) : State :=
  match s.reservations.lookup r with
  | some old => post { s with reservations := s.reservations.erase r } old.node (.release r)
  | none => s

/-- End a job, moving it from the live jobs to those finished and giving back a reservation it was
submitted on and never started on. -/
def finish (id : String) (failure : Option FailureClass)
    (message : Option String) : Option (State × JobRow) :=
  match s.jobs.lookup id with
  | none => none
  | some job =>
    let s := { s with jobs := s.jobs.erase id }
    let s := job.reservation.elim s (dropReservation s)
    let s :=
      match job.row.startedAt, job.imageKey, job.row.node with
      | some _, some key, some node => warmTouch s key node hub.nowSecs
      | _, _, _ => s
    let row := { job.row with
      state := .finished
      revision := satAdd u64Max job.row.revision 1
      result := some ⟨failure, message, job.row.outputLen⟩ }
    some ({ s with finished := s.finished.insert id row }, row)

/-- What placing a job reads besides the dispatch state. -/
structure PlaceCtx where
  nodes : Nodes
  egressFor : LiveJob → Except String Unit
  policy : Policy

/-- Where a job goes: its node, the reservation it takes over with the envelope and the time that
was accepted, or one it gives up for this node. -/
structure Target where
  node : String
  reservation : Option String
  envelope : Envelope
  acceptedAt : Option ℕ
  givenUp : Option String
  deriving DecidableEq

/-- How long the nodes that refused a job are left alone. -/
def retryPause : ℕ := 2000

variable (ctx : PlaceCtx)

/-- The nodes that hold a job's image, none where affinity is off. -/
def warmFor (job : LiveJob) : List String :=
  match job.imageKey with
  | some key => if 0 < hub.affinity.maxLoad then warmNodes s ctx.nodes key hub.nowSecs else []
  | none => []

/-- Of the candidates, those preferred for a job because they hold its image. -/
def lightFor (job : LiveJob)
    (found : List (String × ℕ)) : List String :=
  let warm := warmFor hub s ctx job
  if warm.isEmpty then []
  else
    preferred s ctx.nodes found warm job.row.placement.envelope.cpus hub.affinity hub.nowSecs

/-- The node a job gives its reservation up for: one that holds its image, where the node of the
reservation does not. -/
def warmerNode (job : LiveJob) (tried : List String)
    (node : String) : Option String :=
  let warm := warmFor hub s ctx job
  if warm.isEmpty || warm.contains node then none
  else
    let found := candidates hub s ctx.nodes job.row.placement tried
    let light := lightFor hub s ctx job found
    ((((warmFirst found light).map Prod.fst).takeWhile light.contains).find?
      (admits hub s ctx.nodes ctx.policy job.row.placement (jobClass job.row)))

/-- The first of the candidates, among the selected ones if a node was selected. -/
def firstCandidate (job : LiveJob)
    (found : List (String × ℕ)) (selected : Option String) : Option String :=
  let found := match selected with
    | some node => found.filter (·.1 == node)
    | none => found
  (warmFirst found (lightFor hub s ctx job found)).head?.map Prod.fst

variable (id : String) (job : LiveJob) (now : ℕ) (selected : Option String)

/-- A queued job's node without a reservation. Where every node with room refused it, they are
asked again after a pause. -/
def openNode : State × Option String :=
  let excluded := jobExclusions ctx.policy job.row ctx.nodes
  let tried := job.tried ++ excluded
  let found := candidates hub s ctx.nodes job.row.placement tried
  if found.isEmpty && !tried.isEmpty then
    let ended := job.roundEnded.getD now
    if now - ended < retryPause then
      (s.setJob id fun j => { j with roundEnded := some ended }, none)
    else
      let s := s.setJob id fun j => { j with tried := [], roundEnded := none }
      let found := candidates hub s ctx.nodes job.row.placement excluded
      (s, firstCandidate hub s ctx job found selected)
  else (s, firstCandidate hub s ctx job found selected)

/-- Where a queued job goes. -/
def target : State × Option Target :=
  let excluded := jobExclusions ctx.policy job.row ctx.nodes
  let reserved := job.reservation.bind fun r =>
    (usableReservation hub s ctx.nodes excluded r).map fun x => (r, x)
  let warmer := reserved.bind fun x => warmerNode hub s ctx job (job.tried ++ excluded) x.2.node
  match reserved, warmer with
  | some (r, x), none => (s, some ⟨x.node, some r, x.envelope, some x.acceptedAt, none⟩)
  | reserved, warmer =>
    let (s, node) := openNode hub s ctx id job now (warmer.or selected)
    (s, node.map fun n => ⟨n, none, job.row.placement.envelope, none, reserved.map Prod.fst⟩)

def LiveJob.sent (job : LiveJob) (t : Target) : LiveJob :=
  { job with
    row := { job.row with
      state := .starting
      node := some t.node
      revision := satAdd u64Max job.row.revision 1 }
    reservation := t.reservation
    committedAt := t.acceptedAt }

/-- Send a job to its node: nothing changes unless the message was queued. -/
def sendTo (s : State) (id : String) (t : Target) : Option State :=
  match send s t.node (.start id t.reservation t.envelope) with
  | none => none
  | some s =>
    let s := { s with reservations := t.reservation.elim s.reservations s.reservations.erase }
    let s := s.setJob id fun j => j.sent t
    some (t.givenUp.elim s (dropReservation s))

/-- Send a queued job to its reservation's node while the reservation holds, else to the node
selected for it. A job whose egress layer cannot be sent fails. The row is the one to write if the
job was sent or failed. -/
def place (id : String) (now : ℕ)
    (selected : Option String) : State × Option JobRow :=
  match s.jobs.lookup id with
  | none => (s, none)
  | some job =>
    if job.spec.isNone then (s, none)
    else
      match ctx.egressFor job with
      | .error why =>
        let message := "the hub's egress rules for this job cannot be sent: " ++ why
        match finish hub s id (some .configuration) (some message) with
        | some (s, row) => (s, some row)
        | none => (s, none)
      | .ok () =>
        match target hub s ctx id job now selected with
        | (s, none) => (s, none)
        | (s, some t) =>
          match sendTo s id t with
          | some s => (s, (s.jobs.lookup id).map LiveJob.row)
          | none => (s, none)

end Virtkit.Hub
