import Virtkit.Hub.State

/-!
# Job records

A job is recorded when it is submitted. While it is live the hub changes its row in memory, each
change raising its revision, and writes it; a write of an older revision than the one stored is not
taken. A job that ends moves from the live jobs to those finished, where its row stays until it is
written. Settled, or finished long ago, a job expires and may be dropped from the history.

Left out of a row is what is only shown: its title, project and commit, its stage, activity and guest,
its egress report and registry access, and with them the changes' own contents.
-/

namespace Virtkit.Jobs

open Virtkit.Common
open Virtkit.Hub (JobState CancelMode FailureClass JobResult)

structure JobRow where
  key : String
  requestId : String
  admission : Option String
  createdAt : ℕ
  state : JobState
  revision : ℕ
  node : Option String
  cancel : Option CancelMode
  result : Option JobResult
  outputLen : ℕ
  startedAt : Option ℕ
  finishedAt : Option ℕ
  settledAt : Option ℕ
  expiredAt : Option ℕ
  deriving DecidableEq

/-- How long after a job was settled or finished it expires. -/
def jobKeep : ℕ := 30 * 86400

/-- A change of a live job's row. -/
inductive Change where
  /-- It is sent to a node. -/
  | placed (node : String)
  /-- Its node accepted it, or runs it. -/
  | running (now : ℕ)
  /-- Its node refused it, or never took it. -/
  | requeued
  /-- Its node told how far it is, or what it reached. -/
  | told
  /-- It is cancelled, or more urgently so. -/
  | canceled (mode : CancelMode)
  deriving DecidableEq

namespace JobRow

variable (row : JobRow)

/-- Whether the job is over. -/
def ended : Bool := row.state = .finished

/-- Whose job it is: its relay's, of which request and admission. -/
def origin : String × String × Option String := (row.key, row.requestId, row.admission)

def raise : JobRow := { row with revision := satAdd u64Max row.revision 1 }

/-- Whether a cancel adds to the one asked for. -/
def stronger (mode : CancelMode) : Bool :=
  row.cancel = none || (row.cancel = some .graceful && mode = .immediate)

/-- Whether a change can happen to a live job. -/
def allows : Change → Bool
  | .placed _ => row.state = .queued
  | .running _ => row.node.isSome
  | .requeued => row.state = .starting
  | .told => row.state = .running
  | .canceled mode => row.state ≠ .queued && row.stronger mode

def change : Change → JobRow
  | .placed node => { row with state := .starting, node := some node }.raise
  | .running now => { row with state := .running, startedAt := row.startedAt.or (some now) }.raise
  | .requeued => { row with state := .queued, node := none }.raise
  | .told => row.raise
  | .canceled mode => { row with cancel := some mode }.raise

def finish (failure : Option FailureClass) (message : Option String) (now : ℕ) : JobRow :=
  { row with
    state := .finished
    finishedAt := some now
    result := some ⟨failure, message, row.outputLen⟩ }.raise

def settle (now : ℕ) : JobRow := { row with settledAt := some now }.raise

/-- Whether a finished job's spec and output go. -/
def expires (now : ℕ) : Bool :=
  row.ended && (row.settledAt.or row.finishedAt).any fun t => jobKeep < now - t

/-- Whether a job may be dropped from the history. -/
def droppable (now : ℕ) : Bool :=
  row.ended && (row.settledAt.isSome || row.expires now)

end JobRow

variable (jobs : Table String JobRow)

/-- Write a row, unless a later revision is stored or the job is gone from the history. -/
def putJob (id : String) (row : JobRow) : Table String JobRow :=
  match jobs.lookup id with
  | none => jobs
  | some stored =>
    if stored.revision ≤ row.revision then
      jobs.insert id { row with expiredAt := row.expiredAt.or stored.expiredAt }
    else jobs

def expireJob (now : ℕ) (id : String) : Table String JobRow :=
  match jobs.lookup id with
  | none => jobs
  | some row =>
    if row.expiredAt = none && row.expires now then
      jobs.insert id { row with expiredAt := some now }
    else jobs

/-- Whether a job carries on over a restart: its node runs it. -/
def JobRow.carriesOn (row : JobRow) : Bool := row.state = .running && row.node.isSome

/-- The records after a restart, and the jobs that carry on: those no node had accepted ended. A
job's output is as long as its file. -/
def recover (len : String → ℕ) (now : ℕ) :
    Table String JobRow × Table String JobRow :=
  (jobs.mapValues fun id row =>
      if row.ended || row.carriesOn then row
      else { row with outputLen := len id }.finish (some .lost)
        (some "the hub restarted before a node accepted it") now,
    (jobs.retain fun _ row => row.carriesOn).mapValues fun id row => { row with outputLen := len id })

section Rows

variable {row stored : JobRow} {jobs : Table String JobRow}

theorem le_raise (hroom : row.revision ≤ u64Max) : row.revision ≤ row.raise.revision := by
  simp only [JobRow.raise, satAdd]
  omega

theorem revision_change (row : JobRow) (c : Change) : (row.change c).revision = satAdd u64Max row.revision 1 := by
  cases c <;> rfl

theorem ended_change (h : row.ended = false) (c : Change) : (row.change c).ended = false := by
  cases c with
  | told | canceled mode => exact h
  | _ => rfl

theorem origin_change (row : JobRow) (c : Change) : (row.change c).origin = row.origin := by
  cases c <;> rfl

/-- A record is replaced by a row that is no earlier. -/
theorem lookup_putJob (jobs : Table String JobRow) (id : String) (row : JobRow) (id' : String) :
    (putJob jobs id row).lookup id' = jobs.lookup id' ∨
    id' = id ∧ ∃ stored, jobs.lookup id = some stored ∧ stored.revision ≤ row.revision ∧
      (putJob jobs id row).lookup id' = some { row with expiredAt := row.expiredAt.or stored.expiredAt } := by
  unfold putJob
  cases hstored : jobs.lookup id with
  | none => exact .inl rfl
  | some stored =>
    dsimp only
    split_ifs with hle
    · rw [Table.lookup_insert_ite]
      split_ifs with hid
      · exact .inr ⟨hid, stored, rfl, hle, rfl⟩
      · exact .inl rfl
    · exact .inl rfl

theorem lookup_expireJob (jobs : Table String JobRow) (now : ℕ) (id id' : String) :
    (expireJob jobs now id).lookup id' = jobs.lookup id' ∨ ∃ row, jobs.lookup id' = some row ∧ row.ended = true ∧
      (expireJob jobs now id).lookup id' = some { row with expiredAt := some now } := by
  unfold expireJob
  cases hrow : jobs.lookup id with
  | none => exact .inl rfl
  | some row =>
    dsimp only
    split_ifs with hexpires
    · rw [Table.lookup_insert_ite]
      split_ifs with hid
      · subst hid
        rw [Bool.and_eq_true, JobRow.expires, Bool.and_eq_true] at hexpires
        exact .inr ⟨row, hrow, hexpires.2.1, rfl⟩
      · exact .inl rfl
    · exact .inl rfl

end Rows

end Virtkit.Jobs
