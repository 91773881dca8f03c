import Virtkit.Common.Saturating
import Virtkit.Common.Table
import Virtkit.Common.Text
import Virtkit.Hub.Globs

/-!
# Capacity policy

The durable policy of capacity arbitration: one lane per input (a relay runner, an API key, or
the default lane), what each may run where, the headroom kept for production work and the
scheduler settings, with the checks a policy passes before it is stored. The messages of the
checks are the constructors of `LaneError` and `PolicyError`; a policy's text form is left out.
-/

namespace Virtkit.Hub

open Virtkit.Common

/-- Resources a reservation sets aside on a node, and a job holds once it starts. -/
structure Envelope where
  memMib : ℕ
  cpus : ℕ
  diskBytes : ℕ
  deriving DecidableEq

/-- Where work may go, by pool and labels, and the envelope one job takes. -/
structure Placement where
  pool : String
  labels : List String
  envelope : Envelope
  deriving DecidableEq

/-- The class of a lane's work. -/
inductive Class where
  | normal
  | production
  deriving DecidableEq

/-- Which input a lane schedules. -/
inductive LaneId where
  | runner (gitlab : String) (id : ℕ)
  | key (principal : String)
  | default
  deriving DecidableEq

/-- A relay runner, as a lane names it. -/
structure RunnerRef where
  gitlab : String
  id : ℕ
  deriving DecidableEq

/-- A project a runner lane may run, with the branch patterns it is limited to. -/
structure LaneProject where
  gitlab : String
  id : ℕ
  branches : Option (List String)
  deriving DecidableEq

/-- What a job's checkout fetches, as far as a branch filter reads it. -/
structure Sources where
  gitRef : String
  isBranch : Bool
  refTypeUnknown : Bool
  sha : String
  refspecs : List String
  deriving DecidableEq

/-- One input's share of the fleet, and what it may run where. -/
structure Lane where
  runner : Option RunnerRef
  key : Option String
  default : Bool
  cls : Class
  weight : ℕ
  maxSlots : Option ℕ
  nodes : Option (List String)
  projects : Option (List LaneProject)
  deriving DecidableEq

/-- Room for `slots` placements kept from normal work. -/
structure Headroom where
  placement : Placement
  slots : ℕ
  deriving DecidableEq

structure Policy where
  version : ℕ
  lanes : List Lane
  headroom : List Headroom
  probeLimit : ℕ
  productionProbeBurst : ℕ
  backoffInitialSecs : ℕ
  backoffMaxSecs : ℕ
  busySecs : ℕ
  deriving DecidableEq

/-- A lane of one input: weight 1, any node, any project. -/
def Lane.new : LaneId → Lane
  | .runner gitlab id => ⟨some ⟨gitlab, id⟩, none, false, .normal, 1, none, none, none⟩
  | .key principal => ⟨none, some principal, false, .normal, 1, none, none, none⟩
  | .default => ⟨none, none, true, .normal, 1, none, none, none⟩

/-- Which input a lane schedules, when it names exactly one. -/
def Lane.id (lane : Lane) : Option LaneId :=
  match lane.runner, lane.key, lane.default with
  | some r, none, false => some (.runner r.gitlab r.id)
  | none, some k, false => some (.key k)
  | none, none, true => some .default
  | _, _, _ => none

/-- Whether the text is an ID: 16 bytes of lowercase hex. -/
def validId (s : String) : Bool :=
  s.utf8ByteSize == 32 && s.toList.all fun c => c.isDigit || ('a' ≤ c && c ≤ 'f')

/-- Whether the text may name a key, a pool or a label. -/
def validName (s : String) : Bool :=
  s.utf8ByteSize ≤ 64 && s.toList.head?.any Char.isAlphanum &&
    s.toList.all fun c => c.isAlphanum || c == '.' || c == '_' || c == '-'

/-- Whether the text may name a GitLab instance. -/
def validGitlabName (s : String) : Bool :=
  let alnum := fun c : Char => c.isLower || c.isDigit
  s.utf8ByteSize ≤ 32 && s.toList.head?.any alnum && s.toList.getLast?.any alnum &&
    s.toList.all fun c => alnum c || c == '-'

/-- Whether the text may name a principal or a branch pattern: at most 255 bytes. -/
def validText (s : String) : Bool :=
  !s.isEmpty && s.utf8ByteSize ≤ 255 && !s.toList.any isControl

/-- Whether a lane's work may go to a node of the given pools: one it lists, or in a pool it
lists. -/
def Lane.allowsNode (lane : Lane) (node : String) (pools : List String) : Bool :=
  match lane.nodes with
  | none => true
  | some targets => targets.any fun t => if validId t then t == node else pools.contains t

/-- Whether a lane limits its work to some nodes. -/
def Lane.confined (lane : Lane) : Bool := lane.nodes.isSome

/-- The text before and after the first occurrence of a separator. -/
def splitOnce (sep : List Char) : List Char → Option (List Char × List Char)
  | [] => if sep.isEmpty then some ([], []) else none
  | c :: cs =>
    if sep.isPrefixOf (c :: cs) then some ([], (c :: cs).drop sep.length)
    else (splitOnce sep cs).map fun p => (c :: p.1, p.2)

/-- Whether a refspec fetches the pipeline's own ref at the job's commit. -/
def isCommitRefspec (sha spec : String) : Bool :=
  match spec.toList with
  | '+' :: rest =>
    match splitOnce ":refs/pipelines/".toList rest with
    | some (before, pipeline) =>
      before == sha.toList && (before.length == 40 || before.length == 64) &&
        before.all (fun c => c.isDigit || ('a' ≤ c && c ≤ 'f') || ('A' ≤ c && c ≤ 'F')) &&
        !pipeline.isEmpty && pipeline.all Char.isDigit
    | none => false
  | _ => false

/-- The branch a job's pipeline runs for, when its sources fetch that branch and nothing else. -/
def branchName (sources : Sources) : Option String :=
  let branch := sources.gitRef
  let refspec := "+refs/heads/" ++ branch ++ ":refs/remotes/origin/" ++ branch
  let others := sources.refspecs.filter (· ≠ refspec)
  if sources.isBranch && !sources.refTypeUnknown && others.all (isCommitRefspec sources.sha) &&
      sources.refspecs.count refspec == 1 && others.length ≤ 1 then some branch
  else none

/-- Why a job may not run on a lane. -/
inductive JobRefusal where
  | otherGitlab
  | project
  | branch
  deriving DecidableEq

/-- Why a job of a project, with its sources when known, may not run on a lane, if it may not. -/
def Lane.refusesJob (lane : Lane) (gitlab : String) (id : ℕ) (sources : Option Sources) : Option JobRefusal :=
  if lane.runner.all fun r => r.gitlab ≠ gitlab then some .otherGitlab
  else
    let listed := (lane.projects.getD []).find? fun p => p.gitlab == gitlab && p.id == id
    if lane.projects.isSome && listed.isNone then some .project
    else
      match listed.bind LaneProject.branches, sources with
      | some branches, some sources =>
        if (branchName sources).any fun b => branches.any fun p => globMatch p.toUTF8.toList b.toUTF8.toList then none
        else some .branch
      | _, _ => none

def Policy.lane (policy : Policy) (id : LaneId) : Option Lane :=
  policy.lanes.find? fun l => l.id == some id

def Policy.runner (policy : Policy) (gitlab : String) (id : ℕ) : Option Lane :=
  policy.lane (.runner gitlab id)

/-- The lane an API key is charged to: its own, else the default one. -/
def Policy.client (policy : Policy) (principal : String) : Option (LaneId × Lane) :=
  match policy.lane (.key principal) with
  | some lane => some (.key principal, lane)
  | none => (policy.lane .default).map fun lane => (.default, lane)

/-- Why a lane is refused. -/
inductive LaneError where
  | runner
  | key
  | zero
  | production
  | projects
  | nodeCount
  | nodeName (name : String)
  | nodeTwice (name : String)
  | projectCount
  | project (gitlab : String) (id : ℕ)
  | branches (gitlab : String) (id : ℕ)
  | unlisted
  deriving DecidableEq

/-- Why a policy is refused. -/
inductive PolicyError where
  | version
  | size
  | settings
  | headroom (position : ℕ) (pool : String)
  | source (position : ℕ)
  | lane (id : LaneId) (why : LaneError)
  | twice (id : LaneId)
  deriving DecidableEq

/-- A lane's source is one the hub can name. -/
def validateSource : LaneId → Except LaneError Unit
  | .runner gitlab id => if validGitlabName gitlab && id ≠ 0 then .ok () else .error .runner
  | .key principal => if validText principal then .ok () else .error .key
  | .default => .ok ()

/-- The nodes and pools a lane lists are names, each listed once. -/
def validateNodes : List String → List String → Except LaneError Unit
  | _, [] => .ok ()
  | seen, n :: rest =>
    if !validId n && !validName n then .error (.nodeName n)
    else if seen.contains n then .error (.nodeTwice n)
    else validateNodes (n :: seen) rest

/-- The projects a lane lists are on its runner's GitLab, each listed once, and the branches of
each are patterns. -/
def validateProjects (gitlab : Option String) : List ℕ → List LaneProject → Except LaneError Unit
  | _, [] => .ok ()
  | seen, p :: rest =>
    if some p.gitlab ≠ gitlab ∨ p.id = 0 ∨ seen.contains p.id then .error (.project p.gitlab p.id)
    else if p.branches.any fun bs => bs.isEmpty || 1024 < bs.length || bs.any (!validText ·) then
      .error (.branches p.gitlab p.id)
    else validateProjects gitlab (p.id :: seen) rest

def validateLane (lane : Lane) (id : LaneId) : Except LaneError Unit := do
  validateSource id
  if lane.weight = 0 ∨ lane.maxSlots = some 0 then .error .zero
  if lane.runner.isNone && lane.cls ≠ .normal then .error .production
  if lane.runner.isNone && lane.projects.isSome then .error .projects
  if lane.nodes.any fun ns => ns.isEmpty || 256 < ns.length then .error .nodeCount
  validateNodes [] (lane.nodes.getD [])
  if lane.projects.any fun ps => 16384 < ps.length then .error .projectCount
  validateProjects (lane.runner.map RunnerRef.gitlab) [] (lane.projects.getD [])
  if lane.cls = .production ∧ lane.projects.all fun ps => ps.any (·.branches.isNone) then
    .error .unlisted

/-- The checks on every lane, each source having one lane. -/
def validateLanes : ℕ → List LaneId → List Lane → Except PolicyError Unit
  | _, _, [] => .ok ()
  | position, seen, lane :: rest =>
    match lane.id with
    | none => .error (.source position)
    | some id =>
      match validateLane lane id with
      | .error why => .error (.lane id why)
      | .ok () =>
        if seen.contains id then .error (.twice id)
        else validateLanes (position + 1) (id :: seen) rest

/-- The bounds on one headroom entry. -/
def Headroom.valid (h : Headroom) : Bool :=
  let p := h.placement
  1 ≤ h.slots && h.slots ≤ 4096 && validName p.pool && p.labels.length ≤ 32 &&
    p.labels.all validName && 1 ≤ p.envelope.memMib && p.envelope.memMib ≤ 16777216 &&
    1 ≤ p.envelope.cpus && p.envelope.cpus ≤ 4096 && p.envelope.diskBytes ≤ 1125899906842624

/-- The checks on every headroom entry. -/
def validateHeadroom : ℕ → List Headroom → Except PolicyError Unit
  | _, [] => .ok ()
  | position, h :: rest =>
    if h.valid then validateHeadroom (position + 1) rest
    else .error (.headroom position h.placement.pool)

/-- The bounds on the scheduler settings. -/
def Policy.validSettings (policy : Policy) : Bool :=
  policy.probeLimit ≠ 0 && policy.productionProbeBurst ≠ 0 && policy.backoffInitialSecs ≠ 0 &&
    policy.backoffInitialSecs ≤ policy.backoffMaxSecs && policy.busySecs ≠ 0 &&
    policy.backoffMaxSecs ≤ 31536000 && policy.busySecs ≤ 31536000

/-- The checks a policy passes before it is stored. -/
def Policy.validate (policy : Policy) : Except PolicyError Unit :=
  if policy.version ≠ 2 then .error .version
  else if 32769 < policy.lanes.length ∨ 64 < policy.headroom.length then .error .size
  else if !policy.validSettings then .error .settings
  else
    match validateHeadroom 1 policy.headroom with
    | .error why => .error why
    | .ok () => validateLanes 1 [] policy.lanes

/-- A policy that is accepted has valid settings. -/
theorem Policy.validSettings_of_validate {policy : Policy} (h : policy.validate = .ok ()) :
    policy.validSettings = true := by
  by_contra hs
  simp only [validate, Bool.not_eq_true] at h hs
  split at h
  · exact absurd h (by simp)
  · split at h
    · exact absurd h (by simp)
    · simp [hs] at h

theorem Policy.productionProbeBurst_pos {policy : Policy} (h : policy.validate = .ok ()) :
    0 < policy.productionProbeBurst := by
  have hs := validSettings_of_validate h
  simp only [validSettings, Bool.and_eq_true, decide_eq_true_eq] at hs
  omega

/-!
## The hub's dispatch state

What the hub holds of its nodes' sessions, of reservations, of tickets and of jobs, under one
lock. A node's session is a link: a bounded queue of messages for the node. Instants are
milliseconds on the hub's monotonic clock, times of records are seconds on its wall clock.

Left out, because no function modelled here reads it, is what the hub keeps only to show it
(activity, stages, guests, egress reports, the last pick) and a job's registry token. A job's
spec is its sources and the key of the images it builds.
-/

/-- How a job is stopped. -/
inductive CancelMode where
  | graceful
  | immediate
  | other
  deriving DecidableEq

inductive JobState where
  | queued
  | starting
  | running
  | finished
  | other
  deriving DecidableEq

/-- Why a job failed. -/
inductive FailureClass where
  | script
  | timeout
  | canceled
  | imagePull
  | configuration
  | externalDependency
  | system
  | interrupted
  | noCapacity
  | lost
  | other
  deriving DecidableEq

structure JobResult where
  failure : Option FailureClass
  message : Option String
  outputLen : ℕ
  deriving DecidableEq

/-- The identity a job was admitted under. -/
structure SchedulingIdentity where
  lane : LaneId
  cls : Class
  gitlab : Option String
  runnerId : Option ℕ
  deriving DecidableEq

/-- The identity a ticket schedules under, with its relay's and runner's limits. -/
structure ResolvedIdentity where
  lane : LaneId
  cls : Class
  gitlab : Option String
  runnerId : Option ℕ
  runner : Option String
  concurrent : ℕ
  limit : Option ℕ
  requestConcurrency : ℕ
  deriving DecidableEq

structure JobRow where
  key : String
  admission : Option String
  scheduling : Option SchedulingIdentity
  placement : Placement
  projectId : Option ℕ
  createdAt : ℕ
  state : JobState
  node : Option String
  cancel : Option CancelMode
  outputLen : ℕ
  revision : ℕ
  startedAt : Option ℕ
  result : Option JobResult
  deriving DecidableEq

structure LiveJob where
  row : JobRow
  spec : Option Sources
  reservation : Option String
  deadline : ℕ
  tried : List String
  roundEnded : Option ℕ
  blocked : Option String
  outputCap : ℕ
  committedAt : Option ℕ
  imageKey : Option String
  deriving DecidableEq

inductive AdmissionOutcome where
  | job
  | empty
  | error
  | released
  deriving DecidableEq

inductive TicketPhase where
  | waiting
  | offering (reservation : String) (since : ℕ)
  | granted (reservation : String) (accepted : ℕ)
  | claimed (reservation : String)
  | job
  | finished (outcome : AdmissionOutcome)
  deriving DecidableEq

/-- A request for a reservation, arbitrated against the others. -/
structure Ticket where
  key : String
  queued : Bool
  identity : ResolvedIdentity
  placement : Placement
  leaseSecs : ℕ
  created : ℕ
  polled : ℕ
  phase : TicketPhase
  probe : Bool
  reservation : Option String
  session : Option ℕ
  claimedAt : Option ℕ
  bound : Bool
  tried : List String
  roundEnded : Option ℕ
  blocked : Option String
  deriving DecidableEq

/-- Where a reservation stands: a refused one keeps the node's words. -/
inductive ResvPhase where
  | offered
  | held (leaseSecs : ℕ)
  | refused (why : String)
  | abandoned
  deriving DecidableEq

/-- A reservation offered to a node or held by it. -/
structure Resv where
  key : String
  node : String
  envelope : Envelope
  phase : ResvPhase
  acceptedAt : ℕ
  leases : ℕ
  ticket : Option String
  deriving DecidableEq

/-- What the hub tells a node. -/
inductive HubJobMsg where
  | offer (reservation : String) (envelope : Envelope) (leaseSecs : ℕ)
  | renew (reservation : String) (leaseSecs : ℕ)
  | release (reservation : String)
  | start (job : String) (reservation : Option String) (envelope : Envelope)
  | outputAck (job : String) (offset : ℕ)
  | cancel (job : String) (mode : CancelMode)
  | recorded (job : String)
  deriving DecidableEq

/-- A node's session: the messages queued for it, and whether it has said what it holds. -/
structure Link where
  session : ℕ
  queue : List HubJobMsg
  closed : Bool
  held : Bool
  deriving DecidableEq

/-- What a relay runner's admissions came to lately. -/
structure Demand where
  busyUntil : Option ℕ
  backoffUntil : Option ℕ
  emptyCount : ℕ
  errorCount : ℕ
  lastProbe : Option ℕ
  deriving DecidableEq

/-- Whose turn it is between production probes and normal work. -/
structure Turns where
  productionProbes : ℕ
  normalOwed : Bool
  deriving DecidableEq

structure State where
  links : Table String Link
  reservations : Table String Resv
  tickets : Table String Ticket
  demand : Table (String × ℕ) Demand
  laneProbe : Table LaneId ℕ
  abandonedProbes : Table String ((String × ℕ) × ℕ)
  turns : Turns
  jobs : Table String LiveJob
  finished : Table String JobRow
  disowned : Table String (List String)
  warm : Table String (Table String ℕ)
  deriving DecidableEq

/-- The lane a job is charged to and held to. -/
def jobLane (row : JobRow) : LaneId :=
  match row.scheduling with
  | some i => i.lane
  | none => .default

def jobClass (row : JobRow) : Class :=
  match row.scheduling with
  | some i => i.cls
  | none => .normal

def State.setTicket (s : State) (id : String) (f : Ticket → Ticket) : State :=
  { s with tickets := s.tickets.modify id f }

def State.setJob (s : State) (id : String) (f : LiveJob → LiveJob) : State :=
  { s with jobs := s.jobs.modify id f }

/-- The most messages queued for a session. -/
def linkQueue : ℕ := 1024

/-- Queue a message for a node's session: nothing when it has none, or one not reading. -/
def send (s : State) (node : String) (msg : HubJobMsg) : Option State :=
  match s.links.lookup node with
  | none => none
  | some l =>
    if l.closed || linkQueue ≤ l.queue.length then none
    else
      let l' := { l with queue := l.queue ++ [msg] }
      some { s with links := s.links.insert node l' }

/-- Queue a message where nothing depends on whether it was queued. -/
def post (s : State) (node : String) (msg : HubJobMsg) : State :=
  (send s node msg).getD s

end Virtkit.Hub
