import Virtkit.Fleet.Command

/-!
# A node's state and its command journal

A node persists its own state, the update or reset under way, the tools build under way and a journal
of the hub's commands with what each came to. A command is journaled together with the state change
it makes; one journaled before is answered with its outcome and not carried out again. An update or a
reset drains the node, holds it in maintenance and in validation and then returns it to where it was,
or to the quarantine that arrived meanwhile.

Left out of the persisted state is the path of the installed binary, and of the desired state the
hub's egress layer and settings, which decide nothing here.
-/

namespace Virtkit.Node

open Virtkit.Common Virtkit.Fleet

/-- The most settled journal entries kept, whatever their expiry. -/
def journalMax : ℕ := 4096

/-- The largest tools definition a node takes. -/
def maxToolsDefinition : ℕ := 67108864

/-- Whether a text is a sha256 in lowercase hex. -/
def validSha256 (s : String) : Bool :=
  s.toList.length = 64 && s.toList.all fun c => ('0' ≤ c && c ≤ '9') || ('a' ≤ c && c ≤ 'f')

/-- Whose generations and commands these are. -/
structure Issuer where
  hub : String
  nodeId : String
  deriving DecidableEq

/-- Whether the hub lets the runner take jobs. -/
inductive Acquisition where
  | run
  | stop
  deriving DecidableEq

/-- What the hub wants of a node. -/
structure DesiredState where
  generation : ℕ
  ceiling : Option ℕ
  acquisition : Acquisition
  deriving DecidableEq

/-- The release an update installs, as its command named it. -/
structure Release where
  version : String
  sha256 : String
  size : ℕ
  signature : Option String
  deriving DecidableEq

/-- What a job does in maintenance. -/
inductive Work where
  | update (release : Release)
  | reset (images : Bool)
  deriving DecidableEq

/-- What it is called in what the node says of it. -/
def Work.name : Work → String
  | .update _ => "update"
  | .reset _ => "reset"

structure Trial where
  exe : String
  exeId : ℕ × ℕ
  next : String
  previous : Option String
  attempts : ℕ
  deadline : ℕ
  confirmed : Bool
  deriving DecidableEq

/-- An update or a reset under way. -/
structure Job where
  command : String
  work : Work
  resume : NodeState
  quarantineAfter : Bool
  trial : Option Trial
  expiresAt : ℕ
  withinSecs : Option ℕ
  deadline : Option ℕ
  deriving DecidableEq

/-- A tools build under way. -/
structure ToolsJob where
  command : String
  version : String
  sha256 : String
  size : ℕ
  deriving DecidableEq

/-- How far a tools build has come. -/
inductive ToolsPhase where
  | downloading
  | building
  | installing
  | done
  | failed
  deriving DecidableEq

/-- A tools build's progress, as it is reported. -/
structure ToolsProgress where
  command : String
  version : String
  sha256 : String
  phase : ToolsPhase
  message : Option String
  log : List String
  deriving DecidableEq

/-- What a node can do, which decides what commands it takes. -/
structure Abilities where
  drainable : Bool
  update : Except String Unit

/-- One journaled command and what became of it. -/
structure Entry where
  id : String
  op : Operation
  expiresAt : ℕ
  receivedAt : ℕ
  outcome : Outcome
  recorded : Option Outcome
  deriving DecidableEq

structure Persisted where
  issuer : Option Issuer
  applied : Option DesiredState
  state : NodeState
  quarantinedFrom : Option NodeState
  journal : List Entry
  job : Option Job
  update : Option UpdateProgress
  tools : Option ToolsJob
  toolsProgress : Option ToolsProgress
  deriving DecidableEq

/-- The state of a node that has none yet. -/
def Persisted.default : Persisted :=
  ⟨none, none, .ready, none, [], none, none, none, none⟩

def isJob : Operation → Bool
  | .update .. | .reset _ => true
  | _ => false

def isTools : Operation → Bool
  | .tools .. => true
  | _ => false

/-- Whether an entry is over and the hub has recorded so. -/
def Entry.settled (e : Entry) : Bool := e.recorded = some e.outcome && e.outcome ≠ .accepted

/-- Whether an entry is a drain still under way. -/
def Entry.drains (e : Entry) : Bool := e.op = .drain && e.outcome = .accepted

/-- Set the outcome of the first entry of a command. -/
def setOutcome (id : String) (outcome : Outcome) : List Entry → List Entry
  | [] => []
  | e :: es => if e.id = id then { e with outcome := outcome } :: es else e :: setOutcome id outcome es

/-- Set what the hub recorded for the first entry of a command. -/
def setRecorded (id : String) (outcome : Outcome) : List Entry → List Entry
  | [] => []
  | e :: es => if e.id = id then { e with recorded := some outcome } :: es else e :: setRecorded id outcome es

/-- Drop the oldest settled entries, as many as given. -/
def dropExcess : ℕ → List Entry → List Entry
  | 0, es => es
  | _ + 1, [] => []
  | n + 1, e :: es => if e.settled then dropExcess n es else e :: dropExcess (n + 1) es

namespace Persisted

variable (p : Persisted)

/-- Whether the runner is to take no jobs. -/
def acquisitionStopped : Bool :=
  p.state ≠ .ready || p.applied.any (·.acquisition = .stop)

/-- Adopt an issuer, forgetting what belongs to another. -/
def adoptIssuer (issuer : Issuer) : Persisted :=
  if p.issuer = some issuer then p
  else { p with issuer := some issuer, applied := none, journal := [] }

/-- Take the desired state unless a generation at least as new is applied. -/
def applyDesired (desired : DesiredState) : Persisted :=
  if p.applied.any fun a => desired.generation ≤ a.generation then p
  else { p with applied := some desired }

/-- Drop settled entries whose commands have expired, and the oldest settled ones past
`journalMax`. -/
def prune (now : ℕ) : Persisted :=
  let journal := p.journal.filter fun e => !(e.settled && e.expiresAt ≤ now)
  { p with journal := dropExcess (journal.countP Entry.settled - journalMax) journal }

/-- Settle every drain under way. -/
def settleDrains (outcome : Outcome) : Persisted :=
  { p with journal := p.journal.map fun e => if e.drains then { e with outcome := outcome } else e }

/-- What an update's progress says of a failure. -/
def messageOf : Outcome → Option String
  | .failed message =>
    some (if "rolled back: ".toList.isPrefixOf message.toList
      then String.ofList (message.toList.drop "rolled back: ".length) else message)
  | _ => none

/-- End the job under way, returning the node to where it was, or to `resume` when given, or into
the quarantine that arrived meanwhile. -/
def endJobIn (outcome : Outcome) (phase : UpdatePhase) (resume : Option NodeState) :
    Persisted :=
  match p.job with
  | none => p
  | some job =>
    let resume := resume.getD job.resume
    { p with
      job := none
      journal := setOutcome job.command outcome p.journal
      update := p.update.map fun u =>
        if u.command = job.command then { u with phase := phase, message := messageOf outcome }
        else u
      quarantinedFrom := if job.quarantineAfter then some resume else p.quarantinedFrom
      state := if job.quarantineAfter then .quarantined else resume }

/-- End the job under way, returning the node to where it was. -/
def endJob (outcome : Outcome) (phase : UpdatePhase) : Persisted :=
  p.endJobIn outcome phase none

/-- The refusal of what a job under way does not allow. -/
def busy (job : Job) : Outcome :=
  .refused ((match job.work with | .update _ => "an update" | .reset _ => "a reset") ++
    " is under way (command " ++ job.command ++ ")")

/-- What an operation comes to while an update or a reset is under way, or none to handle it as
usual. While the node drains for it, the job can still be called off. -/
def duringJob (op : Operation) : Persisted × Option Outcome :=
  match p.job with
  | none => (p, none)
  | some job =>
    match op with
    | .update .. | .reset _ => (p, some (busy job))
    | .drain =>
      ({ p with job := some { job with resume := .drained } },
        some (if p.state = .draining then .accepted else .done))
    | .undrain =>
      if p.state = .draining then
        ({ p.endJob (.failed ("undrained before the " ++ job.work.name ++ " started")) .failed with
          state := .draining }, none)
      else (p, some (busy job))
    | .quarantine =>
      if p.state = .draining then
        ({ p.endJob (.failed ("quarantined before the " ++ job.work.name ++ " started")) .failed
          with state := .draining }, none)
      else ({ p with job := some { job with quarantineAfter := true } }, some .done)
    | .release => ({ p with job := some { job with quarantineAfter := false } }, some .done)
    | .tools .. => (p, none)

/-- Start the clock on the update's time. -/
def beginMaintenance (now : ℕ) : Persisted :=
  { p with job := p.job.map fun job => { job with deadline := job.withinSecs.map (satAdd u64Max now) } }

/-- The state a job returns the node to, and the one it moves it to: a node that can be drained is
drained first. -/
def jobStates (state : NodeState) (drainable : Bool) : NodeState × NodeState :=
  match state with
  | .ready => if drainable then (.ready, .draining) else (.ready, .maintenance)
  | .draining => (.drained, .draining)
  | _ => (.drained, .maintenance)

variable (command : Command)

/-- Take an update: drain the node for it, or go straight to its maintenance. -/
def takeUpdate (release : Release) (force : Bool)
    (withinSecs : Option ℕ) (now : ℕ) (can : Abilities) : Persisted × Outcome :=
  if !validSha256 release.sha256 then
    (p, .refused "the release's sha256 is not 64 lowercase hex digits")
  else if p.state = .quarantined then
    (p, .refused "the node is quarantined; release it first")
  else if !force && !can.drainable then
    (p, .refused ("the runner is external, so vk node cannot drain it, and jobs running across the " ++
      "switch would run their stages with two vk versions; update with --force to accept that"))
  else
    match can.update with
    | .error why => (p, .refused why)
    | .ok _ =>
      let (resume, next) := jobStates p.state can.drainable
      let p := { p with
        state := next
        update := some ⟨command.id, release.version, release.sha256,
          if next = .draining then .draining else .downloading, none⟩
        job := some ⟨command.id, .update release, resume, false, none, command.expiresAt, withinSecs, none⟩ }
      (if next = .maintenance then p.beginMaintenance now else p, .accepted)

/-- Take a reset: drain the node for it, or go straight to its maintenance. -/
def takeReset (images : Bool) (can : Abilities) : Persisted × Outcome :=
  if p.state = .quarantined then (p, .refused "the node is quarantined; release it first")
  else if !can.drainable then
    (p, .refused ("a reset drains the runner first, which vk node cannot do to a runner it does " ++
      "not run ([node] runner = \"external\")"))
  else
    let (resume, next) := jobStates p.state true
    ({ p with
      state := next
      update := none
      job := some ⟨command.id, .reset images, resume, false, none, command.expiresAt, none, none⟩ },
      .accepted)

/-- Take a tools build, which changes no node state. -/
def takeTools (version sha256 : String) (size : ℕ) : Persisted × Outcome :=
  if !validSha256 sha256 then
    (p, .refused "the tools definition's sha256 is not 64 lowercase hex digits")
  else if maxToolsDefinition < size then
    (p, .refused ("the tools definition is " ++ toString size ++ " bytes, past the " ++
      toString maxToolsDefinition ++ " a node takes"))
  else if p.job.isSome then (p, .refused "an update or a reset is under way")
  else
    match p.tools with
    | some tools => (p, .refused ("a tools build is under way (command " ++ tools.command ++ ")"))
    | none =>
      ({ p with
        tools := some ⟨command.id, version, sha256, size⟩
        toolsProgress := some ⟨command.id, version, sha256, .downloading, none, []⟩ }, .accepted)

variable (now : ℕ)

/-- What an operation comes to in the node's state. -/
def perform (can : Abilities) : Persisted × Outcome :=
  match command.op, p.state with
  | .drain, .quarantined | .undrain, .quarantined => (p, .refused "the node is quarantined; release it first")
  | .drain, .ready => ({ p with state := .draining }, .accepted)
  | .drain, .draining => (p, .accepted)
  | .drain, .drained => (p, .done)
  | .drain, .maintenance | .drain, .validating => (p, .refused "the node is under maintenance")
  | .undrain, state =>
    ({ (if state = .draining then
        p.settleDrains (.failed "undrained before the drain finished") else p) with
      state := .ready }, .done)
  | .quarantine, .quarantined => (p, .done)
  | .quarantine, state =>
    ({ (if state = .draining then
        p.settleDrains (.failed "quarantined before the drain finished") else p) with
      quarantinedFrom := some state
      state := .quarantined }, .done)
  | .release, .quarantined =>
    ({ p with
      quarantinedFrom := none
      state := if p.quarantinedFrom = some .drained then .drained else .ready }, .done)
  | .release, _ => (p, .done)
  | .update version sha256 size signature force withinSecs, _ =>
    p.takeUpdate command ⟨version, sha256, size, signature⟩ force withinSecs now can
  | .reset images, _ => p.takeReset command images can
  | .tools version sha256 size, _ => p.takeTools command version sha256 size

/-- Carry out a command. -/
def execute (can : Abilities) : Persisted × Outcome :=
  match p.duringJob command.op with
  | (p, some outcome) => (p, outcome)
  | (p, none) =>
    match command.op, p.tools with
    | .update .., some tools | .reset _, some tools =>
      (p, .refused ("a tools build is under way (command " ++ tools.command ++ ")"))
    | _, _ => p.perform command now can

/-- Journal a command and make the state change it asks for, answering with its outcome. A command
already journaled is answered with what it came to. -/
def commandAs (can : Abilities) : Persisted × Outcome :=
  match p.journal.find? fun e => e.id = command.id with
  | some entry => (p, entry.outcome)
  | none =>
    let (p, outcome) :=
      if command.expiresAt ≤ now then (p, .expired) else p.execute command now can
    let entry : Entry := ⟨command.id, command.op, command.expiresAt, now, outcome, none⟩
    ({ p with journal := p.journal ++ [entry] }.prune now, outcome)

/-- The tools build moved on. -/
def moveTools (phase : ToolsPhase) : Persisted :=
  match p.tools, p.toolsProgress with
  | some job, some progress =>
    if progress.command = job.command then
      { p with toolsProgress := some { progress with phase := phase } }
    else p
  | _, _ => p

/-- End the tools build under way: done, or failed with a message and the end of its output. -/
def endTools (failed : Option (String × List String)) : Persisted :=
  match p.tools with
  | none => p
  | some job =>
    let outcome : Outcome := failed.elim .done fun f => .failed f.1
    { p with
      tools := none
      journal := setOutcome job.command outcome p.journal
      toolsProgress := some ⟨job.command, job.version, job.sha256,
        failed.elim .done fun _ => .failed, failed.map (·.1), failed.elim [] (·.2)⟩ }

def setPhase (state : NodeState) (phase : UpdatePhase) : Persisted :=
  { p with state := state, update := p.update.map fun u => { u with phase := phase } }

/-- The drain is complete: the node is drained, or on to the maintenance it drained for, and every
drain under way is done. -/
def finishDrain : Persisted :=
  if p.state ≠ .draining then p
  else
    (if p.job.isSome then (p.setPhase .maintenance .downloading).beginMaintenance now
    else { p with state := .drained }).settleDrains .done

/-- End the job the node is draining for as failed. An operator's drain beside it goes on. -/
def callOffDrain (message : String) (resume : Option NodeState) : Persisted :=
  let ended := p.endJobIn (.failed message) .failed resume
  if p.journal.any Entry.drains then { ended with state := .draining } else ended

/-- Call off an update or a reset whose command expired while the node was draining for it. -/
def drainExpired : Persisted :=
  if p.state = .draining && p.job.any (·.expiresAt ≤ now) then
    p.callOffDrain "the drain outlasted the command's expiry" none
  else p

def isReset (job : Job) : Bool :=
  match job.work with
  | .reset _ => true
  | .update _ => false

/-- Call off a reset whose drain cannot end, the node left drained. -/
def resetBlocked (message : String) : Persisted :=
  if p.state = .draining && p.job.any isReset then p.callOffDrain message (some .drained) else p

/-- Every answer that the hub has not recorded. -/
def unrecorded : List (String × Outcome) :=
  (p.journal.filter fun e => e.recorded ≠ some e.outcome).map fun e => (e.id, e.outcome)

/-- The hub stored an answer. -/
def recorded (id : String) (outcome : Outcome) (now : ℕ) : Persisted :=
  match p.journal.find? fun e => e.id = id with
  | some entry =>
    if entry.recorded ≠ some outcome then
      { p with journal := setRecorded id outcome p.journal }.prune now
    else p
  | none => p

end Persisted

end Virtkit.Node
