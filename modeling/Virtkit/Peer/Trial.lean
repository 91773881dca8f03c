import Virtkit.Common.Table
import Virtkit.Common.Transition
import Virtkit.Fleet.Rollout

/-!
# Self-updates on trial

A peer of the hub updates itself by a trial. It stages the release beside the installed binary,
records the trial and executes the release. Whatever starts the peer again starts the previous
binary, which counts the attempt and hands over once more, or takes the peer back. The release, once
in session with the hub, records that it passed and installs itself over the installed binary.

A process is modelled by the point it has come to, so that it can be stopped between any two of its
reads and writes of the disk: the state file, the installed binary and the releases directory. A save
is atomic, and one that fails may have reached the disk. Left out is the alarm that ends a release
past its deadline, which is a crash here, and what the peer does besides its update. The sha256 of a
file is a parameter, `hash`.

The peers meant are the node, which serves on where a file it starts with cannot be executed, and vk-gitlab
and vk-registry, which exit there, as by a crash; of the registry, updates whose release it executes in its
place, not those whose release it starts beside it. The hub, which then ends whatever trial is on the disk as
rolled back, is not one of them.
-/

namespace Virtkit.Peer

open Virtkit.Common Virtkit.Fleet

/-- A file: its device and inode numbers, and its bytes. -/
structure File where
  id : ℕ × ℕ
  content : List UInt8
  deriving DecidableEq

/-- How many times a release on trial may be started before the previous binary takes the peer
back. -/
def maxAttempts : ℕ := 3

/-- An update between its download and its end. -/
structure Trial where
  command : String
  version : String
  sha256 : String
  exeId : ℕ × ℕ
  next : String
  previous : String
  attempts : ℕ
  deadline : ℕ
  confirmed : Bool
  deriving DecidableEq

/-- Whether the release reached the hub: by the field, or by the deadline it has no more. -/
def Trial.passed (trial : Trial) : Bool := trial.confirmed || trial.deadline = u64Max

/-- The trial once its release reached the hub. -/
def Trial.markPassed (trial : Trial) : Trial :=
  { trial with confirmed := true, attempts := 0, deadline := u64Max }

/-- A peer's persisted state, as far as updates go. -/
structure Ledger where
  trial : Option Trial
  progress : Option UpdateProgress
  outcomes : Table String Outcome
  deriving DecidableEq

def Ledger.endTrial (p : Ledger) (trial : Trial) (phase : UpdatePhase) (outcome : Outcome)
    (why : Option String) : Ledger where
  trial := none
  progress := some ⟨trial.command, trial.version, trial.sha256, phase, why⟩
  outcomes := p.outcomes.insert trial.command outcome

/-- The end of a trial whose release was installed, or could not be. -/
def Ledger.endInstall (p : Ledger) (trial : Trial) : Option String → Ledger
  | none => p.endTrial trial .done .done none
  | some why => p.endTrial trial .failed (.failed why) (some why)

/-- The end of an update that failed before its release ran: a trial recorded for it is undone. -/
def Ledger.failed (p : Ledger) (trial : Trial) (why : String) : Ledger where
  trial := p.trial.filter fun t => t.command ≠ trial.command
  progress := some ⟨trial.command, trial.version, trial.sha256, .failed, some why⟩
  outcomes := p.outcomes.insert trial.command (.failed why)

/-- The point a process has come to. -/
inductive Stage where
  /-- It starts, with `on_start` to run. -/
  | starting
  /-- It has opened the release to hand over to, with the attempt to count. -/
  | handingOver (trial : Trial) (release : File) (p : Ledger)
  /-- It is to execute a file: the release of a trial, or one installed. -/
  | executing (file : File) (trial : Option Trial) (undo : Option Ledger)
  /-- It is to record that it takes the peer back. -/
  | rollingBack (trial : Trial) (p : Ledger) (why : String)
  /-- It is to record that its trial passed. -/
  | confirming (trial : Trial) (p : Ledger)
  /-- It is to look at the installed binary. -/
  | checking (trial : Trial) (p : Ledger) (atStart : Bool)
  /-- It is to replace the installed binary it saw. -/
  | copying (trial : Trial) (p : Ledger) (atStart : Bool) (seen : File)
  /-- It is to record the end of a trial, installed unless for `why`. -/
  | ending (trial : Trial) (p : Ledger) (atStart : Bool) (why : Option String)
  /-- It is to remove the releases not named, then to run the release installed or to serve. -/
  | pruning (keep : List String) (run : Option Trial) (p : Option Ledger)
  /-- It is to record that an update failed. -/
  | failing (trial : Trial) (p : Ledger) (why : String)
  /-- It serves, with the state it holds, if it could be read. -/
  | serving (p : Option Ledger)

/-- A running peer: the file it executes and the point it has come to. -/
structure Process where
  file : File
  stage : Stage

/-- How a save ends: done, lost, or failed with the state on the disk all the same. -/
inductive Saved where
  | done
  | lost
  | reached
  deriving DecidableEq

/-- Whether a save succeeds. -/
def Saved.ok : Saved → Bool
  | .done => true
  | _ => false

/-- Whether a save reaches the disk. -/
def Saved.reaches : Saved → Bool
  | .lost => false
  | _ => true

/-- A peer's host: the installed binary, the releases directory, the state on the disk and the
process. With it goes its history: the updates' commands used, those recorded as passed, as rolled
back and as done, the hand-overs and the starts of releases that had not passed, whether every save
succeeded, and whether someone replaced the installed binary since the peer last looked at it. -/
structure Host where
  exe : Option File
  releases : Table String File
  disk : Ledger
  process : Option Process
  commands : List String
  passed : List String
  rolledBack : List String
  done : List String
  handed : List String
  started : List String
  saved : Bool
  touched : Bool

/-- Set the point the process has come to. -/
def Host.goTo (s : Host) (file : File) (stage : Stage) : Host :=
  { s with process := some ⟨file, stage⟩ }

def Host.save (s : Host) (p : Ledger) (r : Saved) : Host :=
  { s with
    disk := if r.reaches then p else s.disk
    passed := match p.trial with
      | some t => if r.reaches && t.passed then t.command :: s.passed else s.passed
      | none => s.passed
    saved := s.saved && r.ok }

/-- What a process that starts is to do. -/
inductive Decision where
  | run
  | install (trial : Trial)
  | handOver (trial : Trial) (release : File)
  | rollBack (trial : Trial) (why : String)

section Steps

variable (hash : List UInt8 → String)

/-- Open the release of a trial, which must hash as recorded. -/
def openRelease (releases : Table String File) (trial : Trial) (opens : Bool) : Except String File :=
  match releases.lookup trial.next with
  | none => .error ("opening " ++ trial.next)
  | some file =>
    if !opens then .error ("reading " ++ trial.next)
    else if hash file.content = trial.sha256 then .ok file
    else .error (trial.next ++ " hashes to " ++ hash file.content ++ ", not " ++ trial.sha256)

variable (s : Host) (file : File)

/-- The previous binary's part in a trial: count the start and hand over to the release, or, past
the attempts or the deadline, take the peer back. A trial that passed is installed. -/
def onStart (now : ℕ) (opens : Bool) : Decision :=
  match s.disk.trial with
  | none => .run
  | some trial =>
    if trial.passed then .install trial
    else if (s.releases.lookup trial.next).any (·.id = file.id) then .run
    else if maxAttempts ≤ trial.attempts then
      .rollBack trial ("the release did not reach the hub in " ++ toString maxAttempts ++ " starts")
    else if trial.deadline < now then
      .rollBack trial "the release did not reach the hub before its deadline"
    else
      match openRelease hash s.releases trial opens with
      | .ok release => .handOver trial release
      | .error why => .rollBack trial why

/-- Look at the installed binary: it is the release already, or it is another than when the trial
began, or it is to be replaced. -/
def checkInstall (exe : Option File) (trial : Trial) (readable hashable : Bool) : Except (Option String) File :=
  match exe with
  | none => .error (some "reading the installed binary")
  | some file =>
    if !readable then .error (some "reading the installed binary")
    else if hashable && hash file.content = trial.sha256 then .error none
    else if trial.exeId ≠ file.id then
      .error (some ("the installed binary was replaced by another binary during the trial; the " ++
        "release is not installed over it"))
    else .ok file

/-- Run the release installed, unless this process runs it. -/
def runInstalled (trial : Trial) : Stage :=
  if hash file.content = trial.sha256 then .serving (some s.disk)
  else
    match s.exe with
    | some exe => if hash exe.content = trial.sha256 then .executing exe none none else .serving (some s.disk)
    | none => .serving (some s.disk)

inductive Action where
  /-- The installed binary is started, or a release. -/
  | start (release : Option String)
  | crash
  /-- Someone else replaces or removes the installed binary. -/
  | replace (file : Option File)
  /-- The process reads the state and decides what to do. -/
  | load (now : ℕ) (readable opens : Bool)
  | save (r : Saved)
  | exec (ok : Bool)
  | check (readable hashable : Bool)
  | rename (ok : Bool) (id : ℕ × ℕ)
  | prune (removed : String → Bool)
  /-- The process is in session with the hub. -/
  | confirm
  /-- An update is staged, and its trial recorded. -/
  | begin (command version sha256 : String) (download : File) (kept : ℕ × ℕ) (deadline : ℕ)
      (r : Saved)
  /-- An update is asked for to the release the process runs already. -/
  | answer (command sha256 : String) (r : Saved)

/-- A start of the installed binary or of a release. -/
def Host.start (s : Host) (release : Option String) : Option Host :=
  match s.process, release with
  | none, none => s.exe.map fun file => s.goTo file .starting
  | none, some name => (s.releases.lookup name).map fun file =>
      { s.goTo file .starting with
        started := match s.disk.trial with
          | some t => if t.next = name && !t.passed then t.command :: s.started else s.started
          | none => s.started }
  | some _, _ => none

/-- The process decides what to do as it starts. -/
def Host.load (now : ℕ) (readable opens : Bool) : Host :=
  if !readable then s.goTo file (.serving none)
  else
    match onStart hash s file now opens with
    | .run => s.goTo file (.serving (some s.disk))
    | .install trial => s.goTo file (.checking trial s.disk true)
    | .handOver trial release => s.goTo file (.handingOver trial release s.disk)
    | .rollBack trial why => s.goTo file (.rollingBack trial s.disk why)

def Host.saveNext (r : Saved) : Stage → Option Host
  | .handingOver trial release p =>
    some ((s.save { p with trial := p.trial.map fun t => { t with attempts := t.attempts + 1 } }
      r).goTo file (.executing release (some trial) none))
  | .rollingBack trial p why =>
    some (({ s.save (p.endTrial trial .rolledBack (.failed ("rolled back: " ++ why)) (some why)) r
      with rolledBack := if r.reaches then trial.command :: s.rolledBack else s.rolledBack }).goTo
        file (.pruning [trial.previous] none none))
  | .confirming trial p =>
    let p' := { p with trial := p.trial.map Trial.markPassed }
    some ((s.save p' r).goTo file (if r.ok then .checking trial p' false else .serving (some p)))
  | .ending trial p atStart why =>
    let p' := p.endInstall trial why
    let s := { s.save p' r with
      done := if r.reaches && why.isNone then trial.command :: s.done else s.done }
    let held := if r.ok then p' else p
    some (s.goTo file (if why.isNone && r.ok then
        .pruning [trial.sha256, trial.previous] (if atStart then some trial else none)
          (if atStart then none else some held)
      else if atStart then
        if why.isNone then runInstalled hash s file trial else .serving (some s.disk)
      else .serving (some held)))
  | .failing trial p why =>
    let p' := p.failed trial why
    some ((s.save p' r).goTo file (if !r.ok then .serving (some p)
      else if p.trial.any (fun t => t.command = trial.command) then
        .pruning [trial.previous] none (some p')
      else .serving (some p')))
  | _ => none

/-- The process executes a file, which then starts. -/
def Host.exec (ok : Bool) : Stage → Option Host
  | .executing next trial undo =>
    if ok then
      some { s.goTo next .starting with
        handed := trial.elim s.handed fun t => t.command :: s.handed
        started := trial.elim s.started fun t => t.command :: s.started }
    else
      match trial, undo with
      | some trial, some p => some (s.goTo file (.failing trial p "executing the release"))
      | _, _ => some (s.goTo file (.serving (some s.disk)))
  | _ => none

/-- The process looks at the installed binary. -/
def Host.check (readable hashable : Bool) : Stage → Option Host
  | .checking trial p atStart =>
    let s := { s with touched := false }
    match checkInstall hash s.exe trial readable hashable with
    | .ok seen => some (s.goTo file (.copying trial p atStart seen))
    | .error why => some (s.goTo file (.ending trial p atStart why))
  | _ => none

/-- The process copies the release, which must hash as recorded, and renames the copy over the
installed binary. -/
def Host.rename (ok : Bool) (id : ℕ × ℕ) : Stage → Option Host
  | .copying trial p atStart _ =>
    match s.releases.lookup trial.next with
    | some release =>
      if ok && hash release.content = trial.sha256 then
        some ({ s with exe := some ⟨id, release.content⟩ }.goTo file (.ending trial p atStart none))
      else some (s.goTo file (.ending trial p atStart (some "copying the release")))
    | none => some (s.goTo file (.ending trial p atStart (some "opening the release")))
  | _ => none

/-- The process removes releases not to be kept, as far as it can. -/
def Host.prune (removed : String → Bool) : Stage → Option Host
  | .pruning keep run p =>
    let s := { s with releases := s.releases.retain fun name _ => name ∈ keep || !removed name }
    some (s.goTo file (match run with
      | some trial => runInstalled hash s file trial
      | none => .serving (some (p.getD s.disk))))
  | _ => none

/-- The process is in session with the hub: the release of a trial confirms it. -/
def Host.confirm : Stage → Option Host
  | .serving (some p) =>
    match p.trial with
    | some trial =>
      if (s.releases.lookup trial.next).any (·.id = file.id) || hash file.content = trial.sha256 then
        if trial.passed then some (s.goTo file (.checking trial p false))
        else some (s.goTo file (.confirming trial p))
      else some s
    | none => some s
  | .serving none => some s
  | _ => none

/-- The process stages a release, keeps its own binary beside it and records the trial. -/
def Host.begin (command version sha256 : String) (download : File)
    (kept : ℕ × ℕ) (deadline : ℕ) (r : Saved) : Stage → Option Host
  | .serving (some p) => do
    let exe ← s.exe
    let own := hash file.content
    let releases := if (s.releases.lookup sha256).isSome then s.releases else s.releases.insert sha256 download
    let release ← releases.lookup sha256
    if p.trial.isSome ∨ command ∈ s.commands ∨ own = sha256 ∨ hash release.content ≠ sha256 ∨
        u64Max ≤ deadline then none
    else
      let releases := if (releases.lookup own).any (fun f => hash f.content = own) then releases
        else releases.insert own ⟨kept, file.content⟩
      let trial : Trial := ⟨command, version, sha256, exe.id, sha256, own, 1, deadline, false⟩
      let p' : Ledger := { p with
        trial := some trial
        progress := some ⟨command, version, sha256, .validating, none⟩ }
      let s := { s with releases := releases, commands := command :: s.commands }.save p' r
      return s.goTo file (if r.ok then .executing release (some trial) (some p')
        else .failing trial p "recording the trial")
  | _ => none

/-- The process is asked for the release it runs, which is an update done already. -/
def Host.answer (command sha256 : String) (r : Saved) : Stage → Option Host
  | .serving (some p) =>
    if p.trial.isSome ∨ command ∈ s.commands ∨ hash file.content ≠ sha256 then none
    else
      let p' : Ledger := { p with outcomes := p.outcomes.insert command .done }
      let s := { s with commands := command :: s.commands }.save p' r
      some ({ s with done := if r.reaches then command :: s.done else s.done }.goTo file
        (.serving (some (if r.ok then p' else p))))
  | _ => none

/-- The process reads the state and decides what to do, if it starts. -/
def Host.loadNext (now : ℕ) (readable opens : Bool) : Stage → Option Host
  | .starting => some (s.load hash file now readable opens)
  | _ => none

/-- An action of the process at the point it has come to. -/
def Host.act (stage : Stage) : Action → Option Host
  | .start _ | .replace _ => none
  | .crash => some { s with process := none }
  | .load now readable opens => s.loadNext hash file now readable opens stage
  | .save r => s.saveNext hash file r stage
  | .exec ok => s.exec file ok stage
  | .check readable hashable => s.check hash file readable hashable stage
  | .rename ok id => s.rename hash file ok id stage
  | .prune removed => s.prune hash file removed stage
  | .confirm => s.confirm hash file stage
  | .begin command version sha256 download kept deadline r =>
    s.begin hash file command version sha256 download kept deadline r stage
  | .answer command sha256 r => s.answer hash file command sha256 r stage

/-- One step of a peer: none where an action is not possible. -/
def Host.step (s : Host) : Action → Option Host
  | .replace exe => some { s with exe := exe, touched := true }
  | .start release => s.start release
  | action => s.process.bind fun process => s.act hash process.file process.stage action

/-- A peer from its first start on, with no update behind it. -/
def trialSystem : System Host Action :=
  .ofFunction (fun s => s.process = none ∧ s.disk.trial = none ∧ s.disk.outcomes = ∅ ∧
    s.commands = [] ∧ s.passed = [] ∧ s.rolledBack = [] ∧ s.done = [] ∧ s.handed = [] ∧
    s.started = [] ∧ s.saved = true) (Host.step hash)

end Steps

end Virtkit.Peer
