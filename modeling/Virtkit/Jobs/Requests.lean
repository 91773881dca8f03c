import Virtkit.Fleet.Text
import Virtkit.Jobs.Record

/-!
# Requests and the approval gate

A request that created something keeps its answer for a day: the job it made, or the refusal of the
approval gate. The gate lets a relay's new job through when its GitLab server and project are approved.
A job of a project not known makes it pending; a refusal is counted on the project and recorded as the
request's answer, in one transaction, unless an attempt of the request was answered meanwhile. A job is
recorded with its request, unless the request has an answer or the job's admission is another job's.

How the hub writes a server's URL the same way is a parameter. Left out of a project is who brought it
and who decided on it.
-/

namespace Virtkit.Jobs

open Virtkit.Common Virtkit.Fleet

/-- Why a request fails. -/
inductive ErrorCode where
  | invalid
  | unauthorized
  | forbidden
  | conflict
  | approvalPending
  | projectRejected
  | other
  deriving DecidableEq

/-- A job's refusal by the approval gate. -/
structure Refusal where
  code : ErrorCode
  error : String
  gitlab : Option String
  deriving DecidableEq

/-- What a request was answered: the job it made, its refusal, or a reservation. -/
inductive RequestAnswer where
  | job (id : String)
  | refused (refusal : Refusal)
  | reservation
  deriving DecidableEq

structure RequestRow where
  at_ : ℕ
  digest : String
  answer : RequestAnswer
  deriving DecidableEq

inductive ProjectState where
  | pending
  | approved
  | rejected
  deriving DecidableEq

structure ProjectRow where
  state : ProjectState
  path : String
  refused : ℕ
  deriving DecidableEq

/-- A relay: the GitLab server it is bound to, and the one it reports. -/
structure RelayRow where
  serverUrl : Option String
  reported : Option String
  deriving DecidableEq

structure GateJob where
  serverUrl : String
  projectId : ℕ
  projectPath : String
  deriving DecidableEq

structure Db where
  requests : Table (String × String) RequestRow
  sweptAt : ℕ
  jobs : Table String JobRow
  byAdmission : Table (String × String) String
  relays : Table String RelayRow
  instances : List (String × String)
  rejected : List String
  projects : Table (String × ℕ) ProjectRow

/-- How long a request keeps its answer. -/
def requestKeep : ℕ := 86400

/-- How often, at most, requests past their time are swept. -/
def requestSweepSecs : ℕ := 600

/-- The most projects kept for an instance. -/
def maxProjects : ℕ := 10000

/-- Whether a text is a GitLab project's full path. -/
def validProjectPath (s : String) : Bool :=
  s.utf8ByteSize ≤ 255 && (s.toList.splitOn '/').all fun part =>
    part ≠ [] && part.all fun c => c.isAlphanum || c = '_' || c = '.' || c = '-'

inductive ServerState where
  | approved (name : String)
  | pending
  | rejected
  | rebound
  deriving DecidableEq

/-- What the gate makes of a job before writing anything. -/
inductive Check where
  | refuse (refusal : Refusal) (recorded : Bool)
  | project (gitlab : String) (project : Option ProjectRow)

/-- What the gate makes of a job. -/
inductive Gate where
  | pass (gitlab : String)
  | refused (refusal : Refusal)
  /-- Another attempt of the request was answered with a job meanwhile. -/
  | seen

inductive Submitted where
  | new
  | again (job : String)
  | conflict
  | admissionTaken
  deriving DecidableEq

namespace Db

variable (normalize : String → Option String)

variable (db : Db)

/-- The answer a request got, while it is kept. -/
def request (request : String × String) (now : ℕ) : Option RequestRow :=
  (db.requests.lookup request).filter fun r => now - r.at_ < requestKeep

/-- Drop the requests past their time, if they were not swept lately. -/
def sweepRequests (now : ℕ) : Db :=
  if now - db.sweptAt < requestSweepSecs then db
  else { db with
    sweptAt := now
    requests := db.requests.retain fun _ r => now - r.at_ < requestKeep }

def recordRequest (request : String × String) (row : RequestRow) : Db :=
  let db := db.sweepRequests row.at_
  { db with requests := db.requests.insert request row }

def statusOf (bound : String) (reported : Option String) : ServerState :=
  if reported.any fun r => normalize r ≠ some bound then .rebound
  else
    match db.instances.find? fun i => i.2 = bound with
    | some i => .approved i.1
    | none => if bound ∈ db.rejected then .rejected else .pending

variable (relay : String) (job : GateJob)

/-- A relay's job against the relays, servers and projects as stored. -/
def check : Check :=
  match db.relays.lookup relay with
  | none => .refuse ⟨.unauthorized, "this relay was removed from the hub", none⟩ false
  | some row =>
    match row.serverUrl with
    | none => .refuse ⟨.forbidden, "this relay has not reported its GitLab server to the hub yet", none⟩ false
    | some bound =>
      if normalize job.serverUrl ≠ some bound then
        .refuse ⟨.forbidden, "this relay is bound to GitLab " ++ bound ++ ", not " ++
          displaySafe job.serverUrl, none⟩ false
      else
        match db.statusOf normalize bound row.reported with
        | .rejected =>
          .refuse ⟨.projectRejected, "GitLab server " ++ bound ++ " was rejected on the hub", none⟩ true
        | .rebound =>
          .refuse ⟨.forbidden, "this relay is bound to GitLab " ++ bound ++
            " but reports another server: enroll it again", none⟩ false
        | .pending =>
          .refuse ⟨.approvalPending, "GitLab server " ++ bound ++
            " is waiting for approval on the hub: `vk-hub gitlabs approve " ++ bound ++
            " --name <name>`", none⟩ true
        | .approved gitlab =>
          if job.projectId = 0 || !validProjectPath job.projectPath then
            .refuse ⟨.invalid, "a GitLab job names its project, by ID and path", none⟩ false
          else .project gitlab (db.projects.lookup (gitlab, job.projectId))

/-- The error of a job whose project waits for approval. -/
def pendingError (gitlab : String) (id : ℕ) (path : String) : String :=
  "project " ++ path ++ " (ID " ++ toString id ++ ") of GitLab instance " ++ gitlab ++
    " is waiting for approval on the hub: `vk-hub gitlabs projects approve " ++ gitlab ++ " " ++
    toString id ++ "`"

/-- The gate's first look, which writes nothing: a job of a project approved, as it is named. -/
def gateRead : Option String :=
  match db.check normalize relay job with
  | .project gitlab (some p) =>
    if p.state = .approved && p.path = displaySafe job.projectPath then some gitlab else none
  | _ => none

/-- The refusal of a job whose project is known and not approved. -/
def projectRefusal (gitlab : String) (id : ℕ) (p : ProjectRow) : Refusal :=
  if p.state = .rejected then
    ⟨.projectRejected, "project " ++ p.path ++ " (ID " ++ toString id ++ ") of GitLab instance " ++
      gitlab ++ " was rejected on the hub", some gitlab⟩
  else ⟨.approvalPending, pendingError gitlab id p.path, some gitlab⟩

/-- What the gate makes of a job of a server approved: the answer, whether it is recorded, and the
projects after. -/
def gateProject (gitlab : String) (project : Option ProjectRow) (job : GateJob) :
    Gate × Bool × Table (String × ℕ) ProjectRow :=
  let path := displaySafe job.projectPath
  let key := (gitlab, job.projectId)
  match project with
  | some p =>
    if p.state = .approved then
      (.pass gitlab, false, db.projects.insert key { p with path := path })
    else
      let p := { p with refused := satAdd u64Max p.refused 1, path := path }
      (.refused (projectRefusal gitlab job.projectId p), true, db.projects.insert key p)
  | none =>
    if maxProjects ≤ db.projects.count fun key _ => key.1 = gitlab then
      (.refused ⟨.forbidden, "GitLab instance " ++ gitlab ++ " has " ++ toString maxProjects ++
        " projects on the hub already: an operator forgets some first", none⟩, false, db.projects)
    else
      (.refused ⟨.approvalPending, pendingError gitlab job.projectId path, some gitlab⟩, true,
        db.projects.insert key ⟨.pending, path, 1⟩)

/-- The gate's write: an answer given meanwhile stands; a refusal for approval is counted and
recorded. -/
def gateWrite (requestId digest : String) (now : ℕ) : Gate × Db :=
  match db.request (relay, requestId) now with
  | some answered =>
    if answered.digest ≠ digest then
      (.refused ⟨.conflict, "this request_id was used before with another body", none⟩, db)
    else
      match answered.answer with
      | .refused refusal => (.refused refusal, db)
      | _ => (.seen, db)
  | none =>
    let (gate, recorded, db) :=
      match db.check normalize relay job with
      | .refuse refusal recorded => (Gate.refused refusal, recorded, db)
      | .project gitlab project =>
        let (gate, recorded, projects) := db.gateProject gitlab project job
        (gate, recorded, { db with projects := projects })
    match gate, recorded with
    | .refused refusal, true => (gate, db.recordRequest (relay, requestId) ⟨now, digest, .refused refusal⟩)
    | _, _ => (gate, db)

/-- Record a job with its request, or say what the request came to before. -/
def submitJob (id : String) (row : JobRow) (digest : String) (now : ℕ) : Submitted × Db :=
  match db.request (row.key, row.requestId) now with
  | some previous =>
    if previous.digest = digest then
      match previous.answer with
      | .job job => (.again job, db)
      | _ => (.conflict, db)
    else (.conflict, db)
  | none =>
    if row.admission.any fun a => (db.byAdmission.lookup (row.key, a)).isSome then
      (.admissionTaken, db)
    else
      let db := db.recordRequest (row.key, row.requestId) ⟨now, digest, .job id⟩
      (.new, { db with
        byAdmission := row.admission.elim db.byAdmission fun a => db.byAdmission.insert (row.key, a) id
        jobs := db.jobs.insert id row })

/-- Drop a job from the history, if it may go, with its admission's hold. -/
def dropJob (now : ℕ) (db : Db) (id : String) : Db :=
  match db.jobs.lookup id with
  | none => db
  | some row =>
    if row.droppable now then
      { db with
        jobs := db.jobs.erase id
        byAdmission := row.admission.elim db.byAdmission fun a => db.byAdmission.erase (row.key, a) }
    else db

/-- Trim the history: drop jobs, and expire jobs. -/
def pruneJobs (now : ℕ) (dropped expired : List String) : Db :=
  let db := dropped.foldl (dropJob now) db
  { db with jobs := expired.foldl (fun jobs id => expireJob jobs now id) db.jobs }

end Db

end Virtkit.Jobs
