import Mathlib.Data.List.Sort
import Virtkit.Common.Saturating
import Virtkit.Fleet.Text

/-!
# Rollouts

A rollout brings one release to many nodes, a wave at a time: one canary of each hardware profile
first when asked, then batches. The hub advances it by one step at a time, from its row and what
the database says of its nodes, and carries out the effects the step asks for in the same
transaction: updates issued and lines for the audit log.

Left out of a row is who created it and when, which no function modelled here reads.
-/

namespace Virtkit.Fleet

open Virtkit.Common

/-- The states a node reports. -/
inductive NodeState where
  | ready
  | draining
  | drained
  | maintenance
  | validating
  | quarantined
  deriving DecidableEq

def NodeState.name : NodeState → String
  | .ready => "ready"
  | .draining => "draining"
  | .drained => "drained"
  | .maintenance => "maintenance"
  | .validating => "validating"
  | .quarantined => "quarantined"

/-- The phases of a node's update. -/
inductive UpdatePhase where
  | draining
  | downloading
  | validating
  | done
  | rolledBack
  | failed
  deriving DecidableEq

structure UpdateProgress where
  command : String
  version : String
  sha256 : String
  phase : UpdatePhase
  message : Option String
  deriving DecidableEq

/-- What a node answered to a command. -/
inductive Outcome where
  | accepted
  | done
  | failed (message : String)
  | refused (reason : String)
  | expired
  deriving DecidableEq

inductive RolloutState where
  | running
  | paused (reason : String)
  | aborted (reason : String)
  | done
  deriving DecidableEq

/-- Whether a rollout is still to finish. -/
def RolloutState.active : RolloutState → Bool
  | .running | .paused _ => true
  | .aborted _ | .done => false

inductive NodeStatus where
  | pending
  | skipped (reason : String)
  | updating (command : String) (since : ℕ) (resume : NodeState) (drainedAt : Option ℕ)
  | succeeded (time : ℕ)
  | failed (reason : String) (time : ℕ) (ran : Bool)
  deriving DecidableEq

/-- Whether a node's update is under way. -/
def NodeStatus.isUpdating : NodeStatus → Bool
  | .updating .. => true
  | _ => false

def NodeStatus.isFailed : NodeStatus → Bool
  | .failed .. => true
  | _ => false

/-- Whether a node is still to finish. -/
def NodeStatus.isOpen : NodeStatus → Bool
  | .pending | .updating .. => true
  | _ => false

def NodeStatus.name : NodeStatus → String
  | .pending => "pending"
  | .skipped _ => "skipped"
  | .updating .. => "updating"
  | .succeeded _ => "succeeded"
  | .failed .. => "failed"

/-- A node of a rollout, with the version it ran when the rollout was planned. -/
structure RolloutNode where
  id : String
  hostname : String
  profile : String
  wave : ℕ
  status : NodeStatus
  plannedVk : Option String
  deriving DecidableEq

/-- A rollout, as the database keeps it. -/
structure RolloutRow where
  release : String
  version : String
  batch : ℕ
  canaryPerProfile : Bool
  maxFailures : ℕ
  nodeTimeoutSecs : ℕ
  drainTimeoutSecs : ℕ
  force : Bool
  state : RolloutState
  failures : ℕ
  nodes : List RolloutNode
  deriving DecidableEq

/-- What the database says of a node: what it reports, the outcome and the phase of the rollout's
command, and whether another update of its own is under way. -/
structure Facts where
  state : Option NodeState
  vk : Option String
  vkSha256 : Option String
  outcome : Option Outcome
  phase : Option UpdatePhase
  drainable : Bool
  protocol : Option ℕ
  ownUpdate : Bool
  deriving DecidableEq

/-- Whether a node runs a release: by its digest, or by its version where it reports none. -/
def Facts.runs (f : Facts) (sha256 version : String) : Bool :=
  match f.vkSha256 with
  | some sha => sha = sha256
  | none => f.vk = some version

/-- The first protocol version that takes commands. -/
def steering : ℕ := 2

/-- How much later than the node the hub gives up on an update. -/
def giveUpGraceSecs : ℕ := 120

/-- The release and the windows a node's update is judged by. -/
structure Update where
  release : String
  version : String
  nodeTimeoutSecs : ℕ
  drainTimeoutSecs : ℕ

variable (row : RolloutRow)

def RolloutRow.update : Update :=
  ⟨row.release, row.version, row.nodeTimeoutSecs, row.drainTimeoutSecs⟩

/-- When a node was first seen past its drain. -/
def seenDrained (drainedAt : Option ℕ) (f : Option Facts) (now : ℕ) : Option ℕ :=
  match drainedAt with
  | some time => some time
  | none => if (f.bind Facts.phase).any (· ≠ .draining) then some now else none

/-- Whether a node is back from its update, however it was drained meanwhile. -/
def Facts.back (f : Facts) : Bool := f.state = some .ready || f.state = some .drained

variable (update : Update) (since : ℕ) (resume : NodeState) (drainedAt : Option ℕ)

/-- Whether an update's window is over: its drain's, or its own once it was drained. -/
def overdue (now : ℕ) :
    Option String :=
  match drainedAt with
  | none =>
    if satAdd u64Max update.drainTimeoutSecs giveUpGraceSecs ≤ now - since then
      some ("still draining after " ++ humanDuration update.drainTimeoutSecs)
    else none
  | some time =>
    if satAdd u64Max update.nodeTimeoutSecs giveUpGraceSecs ≤ now - time then
      some ("not updated and back " ++ resume.name ++ " within " ++
        humanDuration update.nodeTimeoutSecs ++ " of its drain")
    else none

/-- Judge an update under way: `none` while it goes on, else whether it succeeded, and if not why
and whether it may have run. No window is judged before `notBefore`. -/
def verdict
    (f : Option Facts) (now notBefore : ℕ) : Option (Except (String × Bool) Unit) :=
  match f with
  | none => some (.error ("the node was removed from the hub", true))
  | some f =>
    let timeout :=
      if now < notBefore then none
      else (overdue update since resume drainedAt now).map fun why => .error (why, true)
    match f.outcome with
    | some .done =>
      if f.runs update.release update.version && f.back then some (.ok ())
      else if f.state = some .quarantined then
        some (.error ("quarantined during its update", true))
      else timeout
    | some (.failed message) => some (.error (message, true))
    | some (.refused reason) => some (.error ("refused: " ++ reason, false))
    | some .expired => some (.error ("the update expired before it ran", false))
    | _ => timeout

/-- Judge a node's update, noting when it was first seen past its drain. -/
def judge (update : Update) (status : NodeStatus) (f : Option Facts) (now notBefore : ℕ) :
    NodeStatus × Option (Except (String × Bool) Unit) :=
  match status with
  | .updating command since resume drainedAt =>
    let drainedAt := seenDrained drainedAt f now
    (.updating command since resume drainedAt, verdict update since resume drainedAt f now notBefore)
  | status => (status, none)

/-- What a step asks of the store: to issue the update to a node, or to write a line of a node or
of the rollout as a whole. -/
inductive Effect where
  | issue (index : ℕ) (resume : NodeState)
  | audit (node : Option String) (event : String)
  deriving DecidableEq

/-- A node with its update judged, the line to write about it, and why it failed if it did. -/
def RolloutNode.judged (update : Update) (facts : String → Option Facts) (now notBefore : ℕ)
    (node : RolloutNode) : RolloutNode × List Effect × Option String :=
  match node.status with
  | .updating command _ _ _ =>
    match judge update node.status (facts node.id) now notBefore with
    | (status, none) => ({ node with status := status }, [], none)
    | (_, some (.ok ())) =>
      ({ node with status := .succeeded now }, [.audit (some node.id)
          ("updated to vk " ++ update.version ++ " (command " ++ command ++ ")")], none)
    | (_, some (.error (reason, ran))) =>
      let reason := displaySafe reason
      ({ node with status := .failed reason now ran },
        [.audit (some node.id) ("failed to update to vk " ++ update.version ++ ": " ++ reason)],
        some (node.hostname ++ " (" ++ shortId node.id ++ "): " ++ reason))
  | _ => (node, [], none)

/-- Count a failure: past those a rollout absorbs it aborts, and until then it pauses. A failure of
a rollout that is over is not counted. -/
def RolloutRow.blame (acc : RolloutRow × List Effect) (what : String) : RolloutRow × List Effect :=
  let (row, effects) := acc
  if !row.state.active then acc
  else
    let failures := satAdd u32Max row.failures 1
    if row.maxFailures < failures then
      let reason := toString failures ++ " failure(s), past --max-failures " ++
        toString row.maxFailures ++ "; the last: " ++ what
      ({ row with failures := failures, state := .aborted reason },
        effects ++ [.audit none ("aborted: " ++ reason)])
    else if row.state = .running then
      let reason := "a node failed: " ++ what
      ({ row with failures := failures, state := .paused reason },
        effects ++ [.audit none ("paused: " ++ reason)])
    else ({ row with failures := failures }, effects)

/-- The wave under way: the first with a node still to finish. -/
def RolloutRow.currentWave : Option ℕ :=
  ((row.nodes.filter fun n => n.status.isOpen).map RolloutNode.wave).min?

/-- Why a node at a protocol version is skipped. -/
def monitoringOnly (version : ℕ) : String :=
  "monitored only: its vk speaks fleet protocol version " ++ toString version ++ ", which takes no update"

/-- The version a node has moved to since the rollout was planned, the release's or newer. -/
def caughtUp (planned : Option String) (f : Facts) (version : String) : Option String := do
  let planned ← planned
  let vk ← f.vk
  let order ← versionOrder vk version
  if order ≠ .lt ∧ vk ≠ planned then some vk else none

/-- Why a node is left out of a rollout whenever it is looked at. -/
def ineligible (f : Facts) (force : Bool) : Option String :=
  match f.state with
  | none => some "it has not reported its state"
  | some .quarantined => some "quarantined"
  | some _ =>
    if !f.drainable && !force then
      some "vk node cannot drain its external runner; --force includes it"
    else none

/-- Why a node is busy with something of its own. -/
def busyAlone (f : Facts) : Option String :=
  if f.state ∈ [some .draining, some .maintenance, some .validating] then
    some "busy with a drain or maintenance of its own"
  else if f.ownUpdate then some "an update of its own is under way"
  else none

/-- Why a pending node is skipped when its wave comes. -/
def RolloutRow.skipReason (facts : String → Option Facts) (node : RolloutNode) :
    Option String :=
  match facts node.id with
  | none => some "removed from the hub"
  | some f =>
    match f.protocol.filter (· < steering) with
    | some v => some (monitoringOnly v)
    | none =>
      if f.runs row.release row.version then some "already runs the release"
      else
        match caughtUp node.plannedVk f row.version with
        | some vk => some ("already runs vk " ++ vk ++
            ", the release's version or newer, since the rollout was planned")
        | none => (ineligible f row.force).or (busyAlone f)

def resumeState (f : Option Facts) : NodeState :=
  if f.bind Facts.state = some .drained then .drained else .ready

/-- A node when a wave comes: a pending node of the wave is skipped or issued the update. -/
def RolloutRow.reach (facts : String → Option Facts) (wave : ℕ)
    (e : RolloutNode × ℕ) : RolloutNode × List Effect :=
  let (node, index) := e
  if node.wave ≠ wave ∨ node.status ≠ .pending then (node, [])
  else
    match row.skipReason facts node with
    | some reason => ({ node with status := .skipped reason }, [.audit (some node.id) ("skipped: " ++ reason)])
    | none => (node, [.issue index (resumeState (facts node.id))])

/-- Whether an effect issues an update. -/
def Effect.isIssue : Effect → Bool
  | .issue .. => true
  | .audit .. => false

/-- How many nodes have a status of a name. -/
def RolloutRow.countOf (name : String) : ℕ :=
  row.nodes.countP fun n => n.status.name = name

/-- Go over the waves until one has an update under way or to issue, or all are over. Each round
but the last skips a node at least, so that there are never more rounds than nodes and one. -/
def waves (facts : String → Option Facts) : ℕ → RolloutRow × List Effect → RolloutRow × List Effect
  | 0, acc => acc
  | rounds + 1, (row, effects) =>
    match row.currentWave with
    | none =>
      ({ row with state := .done }, effects ++ [.audit none ("done: vk " ++ row.version ++ " on " ++
        toString (row.countOf "succeeded") ++ " node(s), " ++ toString (row.countOf "failed") ++
        " failed, " ++ toString (row.countOf "skipped") ++ " skipped")])
    | some wave =>
      if row.nodes.any fun n => n.wave = wave && n.status.isUpdating then (row, effects)
      else
        let reached := row.nodes.zipIdx.map (row.reach facts wave)
        let row := { row with nodes := reached.map Prod.fst }
        let effects := effects ++ reached.flatMap Prod.snd
        if effects.any Effect.isIssue then (row, effects) else waves facts rounds (row, effects)

/-- Advance a rollout: judge the updates under way, count the failures, and go on to the next
updates while it runs. -/
def RolloutRow.step (facts : String → Option Facts) (now notBefore : ℕ) :
    RolloutRow × List Effect :=
  let judged := row.nodes.map (RolloutNode.judged row.update facts now notBefore)
  let start := ({ row with nodes := judged.map Prod.fst }, judged.flatMap (·.2.1))
  let blamed := (judged.filterMap (·.2.2)).foldl RolloutRow.blame start
  if blamed.1.state ≠ .running then blamed
  else waves facts (row.nodes.length + 1) blamed

/-- Carry out an effect: a node issued the update is updating, with the next of the command IDs
drawn. Nothing is carried out once there is no release, or no ID could be drawn. -/
def carryOut (release : Bool) (now : ℕ) (acc : RolloutRow × List String × List String)
    (effect : Effect) : Option (RolloutRow × List String × List String) :=
  match effect with
  | .audit .. => some acc
  | .issue index resume =>
    if !release then none
    else
      match acc.1.nodes[index]?, acc.2.1 with
      | none, _ => some acc
      | some _, [] => none
      | some node, command :: ids =>
        let node' := { node with status := .updating command now resume none }
        some ({ acc.1 with nodes := acc.1.nodes.set index node' }, ids, acc.2.2 ++ [node.id])

/-- Advance a rollout with what its step asks for carried out, all of it or nothing: the row, and
the nodes issued the update. -/
def RolloutRow.advance (facts : String → Option Facts) (now notBefore : ℕ)
    (release : Bool) (ids : List String) : Option (RolloutRow × List String) :=
  let (row, effects) := row.step facts now notBefore
  (effects.foldlM (carryOut release now) (row, ids, [])).map fun acc => (acc.1, acc.2.2)

inductive RolloutAction where
  | pause
  | resume
  | abort
  deriving DecidableEq

/-- Pause, resume or abort a rollout, where its state allows it. -/
def RolloutRow.steer (action : RolloutAction) (actor : String) : Option RolloutRow :=
  match action, row.state with
  | .pause, .running => some { row with state := .paused ("paused by " ++ actor) }
  | .resume, .paused _ => some { row with state := .running }
  | .abort, state => if state.active then some { row with state := .aborted ("aborted by " ++ actor) } else none
  | _, _ => none

/-- A node to plan for: its ID, hostname and profile. -/
abbrev Planned := String × String × String

/-- The order in which nodes are planned: by profile, hostname and ID. -/
def plannedLE (a b : Planned) : Bool :=
  (((compare a.2.2 b.2.2).then (compare a.2.1 b.2.1)).then (compare a.1 b.1)).isLE

def RolloutNode.planned (p : Planned) (wave : ℕ) : RolloutNode :=
  ⟨p.1, p.2.1, p.2.2, wave, .pending, none⟩

/-- A node is a canary if it is the first of its profile; the others wait for the batches. -/
def pickCanary (canaries : Bool) (acc : List Planned × List Planned) (p : Planned) : List Planned × List Planned :=
  if canaries && !(acc.1.map (·.2.2)).contains p.2.2 then (acc.1 ++ [p], acc.2)
  else (acc.1, acc.2 ++ [p])

/-- Pick the first node of each profile as a canary. -/
def pickCanaries (canaries : Bool) (nodes : List Planned) : List Planned × List Planned :=
  nodes.foldl (pickCanary canaries) ([], [])

/-- The batches after the canaries. Wave numbers stop at the largest of 32 bits. -/
def batches (offset batch : ℕ) (rest : List Planned) : List RolloutNode :=
  rest.zipIdx.map fun e => .planned e.1 (satAdd u32Max offset (min (e.2 / max batch 1) u32Max))

/-- Group nodes into waves: canaries first when asked, then batches. -/
def plan (nodes : List Planned) (batch : ℕ) (canaries : Bool) : List RolloutNode :=
  let (first, rest) := pickCanaries canaries (nodes.insertionSort fun a b => plannedLE a b)
  let offset := if canaries && !first.isEmpty then 1 else 0
  (first.map fun p => .planned p 0) ++ batches offset batch rest

def RolloutNode.leftOut (p : Planned) (reason : String) : RolloutNode :=
  ⟨p.1, p.2.1, p.2.2, 0, .skipped reason, none⟩

/-- The rollout created for nodes to update and nodes left out. -/
def RolloutRow.created (release version : String) (batch : ℕ) (canaries : Bool)
    (maxFailures nodeTimeoutSecs drainTimeoutSecs : ℕ) (force : Bool) (toDo : List Planned)
    (plannedVk : String → Option String) (skipped : List (Planned × String)) : RolloutRow where
  release := release
  version := version
  batch := batch
  canaryPerProfile := canaries
  maxFailures := maxFailures
  nodeTimeoutSecs := nodeTimeoutSecs
  drainTimeoutSecs := drainTimeoutSecs
  force := force
  state := .running
  failures := 0
  nodes := ((plan toDo batch canaries).map fun n => { n with plannedVk := plannedVk n.id }) ++
    skipped.map fun e => .leftOut e.1 e.2

end Virtkit.Fleet
