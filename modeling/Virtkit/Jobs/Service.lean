import Virtkit.Common.Transition
import Virtkit.Jobs.Requests

/-!
# The hub serving submissions and jobs

An attempt of a submission is a handler that runs between its database calls: it looks the request up,
passes its checks and the gate, records the job, and then admits it to the live jobs. No two attempts
of a request are served at a time, but a handler may be given up at any wait, which ends its hold on
the request, while the database call it started still completes. Beside it, live jobs change, end and
are written; a write may fail, and one may complete after a later one. A job is looked for in memory
and then in the database, by clients and by who settles it.

Of an attempt's checks, those on its placement, its admission and the hub's room only decide whether it
is turned away: here they may at any time. A job's ID is random, so that none is looked for before the
hub told it. With the state goes its history: the jobs recorded, what each gate write added to the
projects' refused counts, the answers given and the rows seen, newest first.
-/

namespace Virtkit.Jobs

open Virtkit.Common
open Virtkit.Hub (JobState CancelMode FailureClass JobResult)

/-- A submission: its relay and request, the digest of its body, its admission and its job. -/
structure Ask where
  relay : String
  requestId : String
  digest : String
  admission : Option String
  job : GateJob
  deriving DecidableEq

/-- The request a submission makes. -/
def Ask.key (ask : Ask) : String × String := (ask.relay, ask.requestId)

/-- The record of the job a submission makes. -/
def Ask.row (ask : Ask) (admission : Option String) (now : ℕ) : JobRow :=
  ⟨ask.relay, ask.requestId, admission, now, .queued, 1, none, none, none, 0, none, none, none, none⟩

/-- What an attempt is answered. -/
inductive Answer where
  | job (id : String) (row : JobRow)
  | refused (refusal : Refusal)
  | conflict
  | admissionTaken
  /-- The job was dropped from the history. -/
  | gone (id : String)
  /-- Another attempt of the request is being served. -/
  | unavailable
  | turnedAway (code : ErrorCode)
  | failed
  deriving DecidableEq

def Refusal.approval (refusal : Refusal) : Bool :=
  refusal.code = .approvalPending || refusal.code = .projectRejected

/-- Whether an answer is a job, or a refusal for approval. -/
def Answer.decisive : Answer → Bool
  | .job .. => true
  | .refused refusal => refusal.approval
  | _ => false

/-- How far an attempt is. -/
inductive Stage where
  | lookup
  | checking
  | gating
  | gatingWrite
  /-- To be recorded; whether the request was answered before. -/
  | ready (seen : Bool)
  | recording (id : String) (row : JobRow)
  | recorded (id : String) (row : JobRow) (submitted : Submitted)
  /-- To look for the job of an earlier attempt in memory. -/
  | viewing (id : String)
  /-- To look for it in the database. -/
  | reading (id : String)
  | over (answer : Option Answer)

/-- An attempt of a submission, whether its handler runs, and what an earlier attempt had been answered
when it was made. -/
structure Attempt where
  ask : Ask
  now : ℕ
  stage : Stage
  alive : Bool
  heard : Option Answer

/-- A row being written, and whether the database has handled it. -/
structure Write where
  id : String
  row : JobRow
  done : Bool

/-- A job being looked for in the database, to be settled or only seen. -/
structure View where
  principal : String
  id : String
  settles : Bool

structure Service where
  db : Db
  live : Table String JobRow
  finished : Table String JobRow
  inflight : List (String × String)
  attempts : List Attempt
  writes : List Write
  views : List View
  clock : ℕ
  told : List String
  ids : List String
  seen : List (String × JobRow)
  created : List (String × JobRow)
  counted : List ((String × String) × ℕ)
  answers : List ((String × String) × String × Answer)

inductive AttemptEvent where
  | lookup
  | gateStart
  | turnAway (code : ErrorCode)
  | gateRead
  | gateWrite
  /-- Its job's record is written, under a new ID, with the admission its reservation names. -/
  | start (unqueued : Option String) (id : String)
  | record
  | resume
  | view
  | read
  | fail
  | giveUp

/-- What happens to the hub's jobs. -/
inductive JobEvent where
  | change (id : String) (change : Change)
  | output (id : String) (len : ℕ)
  | finish (id : String) (failure : Option FailureClass) (message : Option String)
  | cancelQueued (id : String) (mode : CancelMode)
  /-- A live job's row is written as it is. -/
  | snapshot (id : String)
  | commit (k : ℕ)
  /-- A write failed, or who waited for it is gone. -/
  | abandon (k : ℕ)
  | note (k : ℕ)
  | look (principal id : String) (settles : Bool)
  | read (k : ℕ)
  | prune (dropped expired : List String)

/-- What happens to a hub. -/
inductive ServiceEvent where
  | begin (ask : Ask)
  | attempt (i : ℕ) (event : AttemptEvent)
  | job (event : JobEvent)
  /-- An operator decides on a project, forgets one, or changes the servers; a relay changes. -/
  | decide (gitlab : String) (id : ℕ) (state : ProjectState) (path : Option String)
  | forget (gitlab : String) (id : ℕ)
  | servers (instances : List (String × String)) (rejected : List String)
  | relay (id : String) (row : Option RelayRow)
  /-- A reservation is recorded as a request's answer. -/
  | reserve (request : String × String) (digest : String)
  | wait (secs : ℕ)

/-- What the projects' refused counts come to together. -/
def Db.refusedTotal (db : Db) : ℕ := db.projects.sum fun _ p => p.refused

/-- Approve or reject a project, adding it if it is not known. -/
def Db.decideProject (db : Db) (gitlab : String) (id : ℕ) (state : ProjectState) (path : Option String) : Db :=
  let old := db.projects.lookup (gitlab, id)
  if old = none && maxProjects ≤ db.projects.count fun key _ => key.1 = gitlab then db
  else
    let row := old.getD ⟨state, "", 0⟩
    let row := { row with state := state, path := path.getD row.path }
    { db with projects := db.projects.insert (gitlab, id) row }

namespace Service

section

variable (s : Service)

/-- What an earlier attempt of a request, with the same body, was answered. -/
def heard (ask : Ask) : Option Answer :=
  (s.answers.find? fun x => x.1 = ask.key && x.2.1 = ask.digest && x.2.2.decisive).map (·.2.2)

def move (i : ℕ) (a : Attempt) (stage : Stage) : Service :=
  { s with attempts := s.attempts.set i { a with stage := stage } }

/-- Answer an attempt, which ends its hold on the request. -/
def answer (i : ℕ) (a : Attempt) (answer : Answer) : Service :=
  { s with
    attempts := s.attempts.set i { a with stage := .over (some answer), alive := false }
    inflight := s.inflight.filter (· ≠ a.ask.key)
    answers := (a.ask.key, a.ask.digest, answer) :: s.answers }

/-- Go on after a database call: to a stage, or to an end if the handler is gone. -/
def goOn (i : ℕ) (a : Attempt) (stage : Stage) : Service :=
  if a.alive then s.move i a stage else s.move i a (.over none)

/-- Begin an attempt, or turn it away while another of the request is served. -/
def begin (ask : Ask) : Service :=
  if ask.key ∈ s.inflight then
    { s with
      attempts := s.attempts ++ [⟨ask, s.clock, .over (some .unavailable), false, s.heard ask⟩]
      answers := (ask.key, ask.digest, .unavailable) :: s.answers }
  else
    { s with
      attempts := s.attempts ++ [⟨ask, s.clock, .lookup, true, s.heard ask⟩]
      inflight := ask.key :: s.inflight }

def inMemory (id : String) : Option JobRow := (s.live.lookup id).or (s.finished.lookup id)

/-- Give up on an attempt: a database call it started goes on. -/
def giveUp (s : Service) (i : ℕ) (a : Attempt) : Service :=
  { s with
    attempts := s.attempts.set i { a with
      alive := false
      stage := match a.stage with
        | .gating | .gatingWrite | .recording .. => a.stage
        | _ => .over none }
    inflight := s.inflight.filter (· ≠ a.ask.key) }

variable (i : ℕ) (a : Attempt) (id : String)

/-- Answer an attempt with the job of an earlier one, as it was found. -/
def answerAgain (found : Option JobRow) : Service :=
  match found.filter fun row => row.key = a.ask.relay with
  | some row => { s with seen := (id, row) :: s.seen }.answer i a (.job id row)
  | none => s.answer i a (.gone id)

/-- Resume an attempt whose record was written: admit the job, or answer with what there was. -/
def resume (row : JobRow) : Submitted → Service
  | .new => { s with live := s.live.insert id row, told := id :: s.told }.answer i a (.job id row)
  | .again job => { s with told := job :: s.told }.move i a (.viewing job)
  | .conflict => s.answer i a .conflict
  | .admissionTaken => s.answer i a .admissionTaken

/-- The result of the gate's write goes on. -/
def gateWritten (i : ℕ) (a : Attempt) (result : Gate × Db) : Service :=
  let s' := { s with
    db := result.2
    counted := (a.ask.key, result.2.refusedTotal - s.db.refusedTotal) :: s.counted }
  match result.1 with
  | .pass _ | .seen => s'.goOn i a (.ready false)
  | .refused refusal => if a.alive then s'.answer i a (.refused refusal) else s'.move i a (.over none)

/-- The result of recording a job. -/
def submitted (row : JobRow)
    (result : Submitted × Db) : Service :=
  { s with
    db := result.2
    created := if result.1 = Submitted.new then (id, row) :: s.created else s.created }.goOn i a
      (.recorded id row result.1)

end

section Steps

variable (normalize : String → Option String)

section

variable (s : Service)

def stepAttempt (i : ℕ) (a : Attempt) : AttemptEvent → Option Service
  | .lookup =>
    match a.stage, a.alive with
    | .lookup, true =>
      some (match s.db.request a.ask.key a.now with
        | none => s.move i a .checking
        | some before =>
          match before.answer with
          | .refused refusal =>
            if before.digest ≠ a.ask.digest then s.answer i a .conflict
            else s.answer i a (.refused refusal)
          | _ => s.move i a (.ready true))
    | _, _ => none
  | .gateStart =>
    match a.stage, a.alive with
    | .checking, true => some (s.move i a .gating)
    | _, _ => none
  | .turnAway code =>
    match a.stage, a.alive with
    | .checking, true | .ready false, true => some (s.answer i a (.turnedAway code))
    | _, _ => none
  | .gateRead =>
    match a.stage with
    | .gating =>
      some (match s.db.gateRead normalize a.ask.relay a.ask.job with
        | some _ => s.goOn i a (.ready false)
        | none => s.move i a .gatingWrite)
    | _ => none
  | .gateWrite =>
    match a.stage with
    | .gatingWrite =>
      some (s.gateWritten i a
        (s.db.gateWrite normalize a.ask.relay a.ask.job a.ask.requestId a.ask.digest a.now))
    | _ => none
  | .start unqueued id =>
    match a.stage, a.alive with
    | .ready _, true =>
      if id ∈ s.ids then none
      else
        let row := a.ask.row (a.ask.admission.or unqueued) a.now
        some ({ s with ids := id :: s.ids }.move i a (.recording id row))
    | _, _ => none
  | .record =>
    match a.stage with
    | .recording id row => some (s.submitted i a id row (s.db.submitJob id row a.ask.digest a.now))
    | _ => none
  | .resume =>
    match a.stage, a.alive with
    | .recorded id row submitted, true => some (s.resume i a id row submitted)
    | _, _ => none
  | .view =>
    match a.stage, a.alive with
    | .viewing id, true =>
      some (match s.inMemory id with
        | some row => s.answerAgain i a id (some row)
        | none => s.move i a (.reading id))
    | _, _ => none
  | .read =>
    match a.stage, a.alive with
    | .reading id, true => some (s.answerAgain i a id (s.db.jobs.lookup id))
    | _, _ => none
  | .fail =>
    match a.stage, a.alive with
    | .lookup, true | .gating, true | .gatingWrite, true | .ready _, true | .recording .., true
    | .reading _, true => some (s.answer i a .failed)
    | _, _ => none
  | .giveUp => if a.alive then some (s.giveUp i a) else none

/-- Show a row that was found, and settle the job if that was asked and it is over. -/
def shown (principal id : String) (settles : Bool) (row : JobRow) : Service :=
  if row.key = principal then
    { s with
      seen := (id, row) :: s.seen
      writes := if settles && row.ended && row.settledAt = none then
          s.writes ++ [⟨id, row.settle s.clock, false⟩] else s.writes }
  else s

/-- End a live job: its row waits to be written. -/
def endJob (id : String) (row : JobRow) : Service :=
  { s with
    live := s.live.erase id
    finished := s.finished.insert id row
    writes := s.writes ++ [⟨id, row, false⟩] }

def stepJob : JobEvent → Option Service
  | .change id change =>
    match s.live.lookup id with
    | some row =>
      if row.allows change then
        some { s with
          live := s.live.insert id (row.change change)
          writes := s.writes ++ [⟨id, row.change change, false⟩] }
      else none
    | none => none
  | .output id len =>
    (s.live.lookup id).map fun row => { s with live := s.live.insert id { row with outputLen := len } }
  | .finish id failure message =>
    (s.live.lookup id).map fun row => s.endJob id (row.finish failure message s.clock)
  | .cancelQueued id mode =>
    match s.live.lookup id with
    | some row =>
      if row.state = .queued then
        some (s.endJob id ({ row with cancel := some mode }.finish (some .canceled) none s.clock))
      else none
    | none => none
  | .snapshot id => (s.live.lookup id).map fun row => { s with writes := s.writes ++ [⟨id, row, false⟩] }
  | .commit k =>
    match s.writes[k]? with
    | some w =>
      if w.done then none
      else some { s with
        db := { s.db with jobs := putJob s.db.jobs w.id w.row }
        writes := s.writes.set k { w with done := true } }
    | none => none
  | .abandon k => some { s with writes := s.writes.eraseIdx k }
  | .note k =>
    match s.writes[k]? with
    | some w =>
      if w.done then
        some { s with
          finished := if w.row.ended && (s.finished.lookup w.id).any (·.revision ≤ w.row.revision)
            then s.finished.erase w.id else s.finished
          writes := s.writes.eraseIdx k }
      else none
    | none => none
  | .look principal id settles =>
    if id ∈ s.told then
      some (match s.inMemory id with
        | some row => s.shown principal id settles row
        | none => { s with views := s.views ++ [⟨principal, id, settles⟩] })
    else none
  | .read k =>
    (s.views[k]?).map fun v =>
      let s := { s with views := s.views.eraseIdx k }
      (s.db.jobs.lookup v.id).elim s (s.shown v.principal v.id v.settles)
  | .prune dropped expired => some { s with db := s.db.pruneJobs s.clock dropped expired }

def step : ServiceEvent → Option Service
  | .begin ask => some (s.begin ask)
  | .attempt i event =>
    match s.attempts[i]? with
    | some a => s.stepAttempt normalize i a event
    | none => none
  | .job event => s.stepJob event
  | .decide gitlab id state path => some { s with db := s.db.decideProject gitlab id state path }
  | .forget gitlab id => some { s with db := { s.db with projects := s.db.projects.erase (gitlab, id) } }
  | .servers instances rejected =>
    some { s with db := { s.db with instances := instances, rejected := rejected } }
  | .relay id row =>
    some { s with db := { s.db with
      relays := row.elim (s.db.relays.erase id) fun row => s.db.relays.insert id row } }
  | .reserve request digest => some { s with db := s.db.recordRequest request ⟨s.clock, digest, .reservation⟩ }
  | .wait secs => some { s with clock := s.clock + secs }

end

/-- What a start leaves: the records and jobs recovered, with no two records for an admission. The jobs
that carry on are known to who submitted them. -/
structure Recovered (s : Service) : Prop where
  rows : ∃ jobs len now, (∀ id row, jobs.lookup id = some row → row.revision ≤ u64Max) ∧
    (s.db.jobs, s.live) = recover jobs len now
  admissions : ∀ id row a, s.db.jobs.lookup id = some row → row.admission = some a →
    s.db.byAdmission.lookup (row.key, a) = some id
  ids : (∀ id row, s.db.jobs.lookup id = some row → id ∈ s.ids) ∧
    ∀ r row id, s.db.requests.lookup r = some row → row.answer = .job id → id ∈ s.ids
  told : ∀ id ∈ s.told, id ∈ s.ids
  known : ∀ id row, s.live.lookup id = some row → id ∈ s.told
  idle : s.finished = ∅ ∧ s.inflight = [] ∧ s.attempts = [] ∧ s.writes = [] ∧ s.views = []
  history : s.seen = [] ∧ s.created = [] ∧ s.counted = [] ∧ s.answers = []

end Steps

end Service

/-- A hub from a start on. -/
def serviceSystem (normalize : String → Option String) : System Service ServiceEvent :=
  .ofFunction Service.Recovered (Service.step normalize)

end Virtkit.Jobs
