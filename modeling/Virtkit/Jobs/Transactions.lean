import Virtkit.Jobs.Requests

/-!
# What the database's transactions leave

Each of the gate's write, a job's record and the trimming of the history is one transaction. Here is
what each leaves of the requests, the jobs and the admissions' holds.
-/

namespace Virtkit.Jobs.Db

open Virtkit.Common

section Requests

variable {db : Db} {r : String × String} {row : RequestRow}

/-- A sweep drops only requests that are a day old. -/
theorem lookup_sweepRequests (db : Db) (now : ℕ) (r : String × String) :
    (db.sweepRequests now).requests.lookup r = db.requests.lookup r ∨ (db.sweepRequests now).requests.lookup r = none ∧
      ∃ row, db.requests.lookup r = some row ∧ requestKeep ≤ now - row.at_ := by
  unfold sweepRequests
  split_ifs
  · exact .inl rfl
  · dsimp only
    rw [Table.lookup_retain]
    cases hrow : db.requests.lookup r with
    | none => exact .inl rfl
    | some row =>
      by_cases hkeep : now - row.at_ < requestKeep
      · exact .inl (by simp [hkeep])
      · exact .inr ⟨by simpa using hkeep, row, rfl, Nat.le_of_not_lt hkeep⟩

theorem lookup_recordRequest (db : Db) (r : String × String) (row : RequestRow) (r' : String × String) :
    (db.recordRequest r row).requests.lookup r' =
      if r' = r then some row else (db.sweepRequests row.at_).requests.lookup r' := by
  unfold recordRequest
  exact Table.lookup_insert_ite _ _ _ _

theorem of_lookup_recordRequest {new : RequestRow} {r' : String × String}
    (h : (db.recordRequest r new).requests.lookup r' = some row) :
    r' = r ∧ row = new ∨ db.requests.lookup r' = some row := by
  rw [lookup_recordRequest] at h
  split_ifs at h with hr
  · exact .inl ⟨hr, (Option.some.inj h).symm⟩
  · rcases lookup_sweepRequests db new.at_ r' with heq | ⟨hnone, -⟩
    · exact .inr (heq ▸ h)
    · rw [hnone] at h
      nomatch h

theorem recordRequest_frame (db : Db) (r : String × String) (row : RequestRow) :
    (db.recordRequest r row).jobs = db.jobs ∧ (db.recordRequest r row).byAdmission = db.byAdmission ∧
      (db.recordRequest r row).projects = db.projects := by
  unfold recordRequest sweepRequests
  split_ifs <;> exact ⟨rfl, rfl, rfl⟩

theorem lookup_of_request {now : ℕ} (h : db.request r now = some row) :
    db.requests.lookup r = some row ∧ now - row.at_ < requestKeep := by
  obtain ⟨hrow, hkeep⟩ := Option.filter_eq_some_iff.mp h
  exact ⟨hrow, of_decide_eq_true hkeep⟩

end Requests

section Gate

variable (normalize : String → Option String)

/-- The gate's write leaves the jobs and the admissions' holds, and records no answer but a refusal of a
request that has none. -/
theorem gateWrite_frame (db : Db) (relay : String) (job : GateJob) (requestId digest : String) (now : ℕ) :
    let written := db.gateWrite normalize relay job requestId digest now
    written.2.jobs = db.jobs ∧ written.2.byAdmission = db.byAdmission ∧
    (written.2.requests = db.requests ∨
      ∃ refusal, written.1 = .refused refusal ∧ db.request (relay, requestId) now = none ∧ written.2.requests =
          (db.recordRequest (relay, requestId) ⟨now, digest, .refused refusal⟩).requests) := by
  unfold gateWrite
  cases hrow : db.request (relay, requestId) now with
  | some answered =>
    dsimp only
    split_ifs
    · exact ⟨rfl, rfl, .inl rfl⟩
    · cases answered.answer with
      | _ => exact ⟨rfl, rfl, .inl rfl⟩
  | none =>
    dsimp only
    cases db.check normalize relay job with
    | refuse refusal recorded =>
      cases recorded with
      | false => exact ⟨rfl, rfl, .inl rfl⟩
      | true =>
        obtain ⟨hjobs, hholds, -⟩ := recordRequest_frame db (relay, requestId) ⟨now, digest, .refused refusal⟩
        exact ⟨hjobs, hholds, .inr ⟨refusal, rfl, rfl, rfl⟩⟩
    | project gitlab project =>
      dsimp only
      generalize db.gateProject gitlab project job = result
      obtain ⟨gate, recorded, projects⟩ := result
      dsimp only
      cases gate with
      | pass | seen => exact ⟨rfl, rfl, .inl rfl⟩
      | refused refusal =>
        cases recorded with
        | false => exact ⟨rfl, rfl, .inl rfl⟩
        | true =>
          obtain ⟨hjobs, hholds, -⟩ := recordRequest_frame { db with projects := projects }
            (relay, requestId) ⟨now, digest, .refused refusal⟩
          refine ⟨hjobs, hholds, .inr ⟨refusal, rfl, rfl, ?_⟩⟩
          dsimp only [recordRequest, sweepRequests]
          split_ifs <;> rfl

end Gate

section Jobs

/-- What a job's record came to: nothing was written, or the request had no answer, nor the admission a
job, and both have now. -/
theorem submitJob_cases (db : Db) (id : String) (row : JobRow) (digest : String) (now : ℕ) :
    let written := db.submitJob id row digest now
    written.1 ≠ .new ∧ written.2 = db ∧ (∀ job, written.1 = .again job → ∃ previous, db.request (row.key, row.requestId) now = some previous ∧
          previous.answer = .job job ∧ previous.digest = digest) ∨
    written.1 = .new ∧ db.request (row.key, row.requestId) now = none ∧
      (∀ a, row.admission = some a → db.byAdmission.lookup (row.key, a) = none) ∧
      written.2 = { db.recordRequest (row.key, row.requestId) ⟨now, digest, .job id⟩ with
        byAdmission := row.admission.elim db.byAdmission fun a => db.byAdmission.insert (row.key, a) id
        jobs := db.jobs.insert id row } := by
  unfold submitJob
  cases hprev : db.request (row.key, row.requestId) now with
  | some previous =>
    dsimp only
    split_ifs with hdigest
    · cases hanswer : previous.answer with
      | job job =>
        refine .inl ⟨nofun, rfl, fun job' h => ?_⟩
        obtain rfl := Submitted.again.inj h
        exact ⟨previous, rfl, hanswer, hdigest⟩
      | refused refusal | reservation => exact .inl ⟨nofun, rfl, nofun⟩
    · exact .inl ⟨nofun, rfl, nofun⟩
  | none =>
    dsimp only
    split_ifs with htaken
    · exact .inl ⟨nofun, rfl, nofun⟩
    · refine .inr ⟨rfl, rfl, fun a ha => ?_, ?_⟩
      · rw [ha] at htaken
        simpa using htaken
      · obtain ⟨hjobs, hholds, -⟩ :=
          recordRequest_frame db (row.key, row.requestId) ⟨now, digest, .job id⟩
        rw [hjobs, hholds]

variable (db : Db) (now : ℕ)

theorem lookup_dropJob (id id' : String) : (dropJob now db id).jobs.lookup id' = db.jobs.lookup id' ∨
    (dropJob now db id).jobs.lookup id' = none ∧ ∃ row, db.jobs.lookup id' = some row ∧ row.ended = true := by
  unfold dropJob
  cases hrow : db.jobs.lookup id with
  | none => exact .inl rfl
  | some row =>
    dsimp only
    split_ifs with hdrop
    · dsimp only
      rw [Table.lookup_erase_ite]
      split_ifs with hid
      · subst hid
        rw [JobRow.droppable, Bool.and_eq_true] at hdrop
        exact .inr ⟨rfl, row, hrow, hdrop.1⟩
      · exact .inl rfl
    · exact .inl rfl

theorem lookup_dropJobs (now : ℕ) (dropped : List String) (db : Db) (id : String) :
    (dropped.foldl (dropJob now) db).jobs.lookup id = db.jobs.lookup id ∨
    (dropped.foldl (dropJob now) db).jobs.lookup id = none ∧
      ∃ row, db.jobs.lookup id = some row ∧ row.ended = true := by
  induction dropped generalizing db with
  | nil => exact .inl rfl
  | cons first rest ih =>
    rw [List.foldl_cons]
    rcases ih (dropJob now db first) with hrest | ⟨hrest, row, hrow, hended⟩ <;>
      rcases lookup_dropJob db now first id with hfirst | ⟨hfirst, row', hrow', hended'⟩
    · exact .inl (hrest.trans hfirst)
    · exact .inr ⟨hrest.trans hfirst, row', hrow', hended'⟩
    · exact .inr ⟨hrest, row, hfirst ▸ hrow, hended⟩
    · exact .inr ⟨hrest, row', hrow', hended'⟩

theorem lookup_expireJobs (now : ℕ) (expired : List String) (jobs : Table String JobRow) (id : String) :
    (expired.foldl (fun jobs id => expireJob jobs now id) jobs).lookup id = jobs.lookup id ∨
    ∃ row t, jobs.lookup id = some row ∧ row.ended = true ∧
      (expired.foldl (fun jobs id => expireJob jobs now id) jobs).lookup id = some { row with expiredAt := t } := by
  induction expired generalizing jobs with
  | nil => exact .inl rfl
  | cons first rest ih =>
    rw [List.foldl_cons]
    rcases lookup_expireJob jobs now first id with hfirst | ⟨row, hrow, hended, hfirst⟩
    · rw [← hfirst]
      exact ih (expireJob jobs now first)
    · rcases ih (expireJob jobs now first) with hrest | ⟨row', t, hrow', -, hrest⟩
      · exact .inr ⟨row, some now, hrow, hended, hrest.trans hfirst⟩
      · obtain rfl := Option.some.inj (hfirst.symm.trans hrow')
        exact .inr ⟨row, t, hrow, hended, hrest⟩

/-- Pruning drops, or expires, only records that are over. -/
theorem lookup_pruneJobs (dropped expired : List String) (id : String) :
    (db.pruneJobs now dropped expired).jobs.lookup id = db.jobs.lookup id ∨
    ∃ row, db.jobs.lookup id = some row ∧ row.ended = true ∧
      ∀ row', (db.pruneJobs now dropped expired).jobs.lookup id = some row' →
        ∃ t, row' = { row with expiredAt := t } := by
  unfold pruneJobs
  dsimp only
  rcases lookup_dropJobs now dropped db id with hdrop | ⟨hdrop, row, hrow, hended⟩ <;>
    rcases lookup_expireJobs now expired (dropped.foldl (dropJob now) db).jobs id with
      hexp | ⟨row', t, hrow', hended', hexp⟩
  · exact .inl (hexp.trans hdrop)
  · refine .inr ⟨row', hdrop ▸ hrow', hended', fun row'' h => ⟨t, ?_⟩⟩
    exact (Option.some.inj (hexp.symm.trans h)).symm
  · refine .inr ⟨row, hrow, hended, fun row' h => ?_⟩
    rw [hexp, hdrop] at h
    nomatch h
  · rw [hdrop] at hrow'
    nomatch hrow'

theorem requests_pruneJobs (dropped expired : List String) :
    (db.pruneJobs now dropped expired).requests = db.requests := by
  have hdrop : ∀ (dropped : List String) (db : Db), (dropped.foldl (dropJob now) db).requests = db.requests := by
    intro dropped
    induction dropped with
    | nil => exact fun _ => rfl
    | cons first rest ih =>
      intro db
      rw [List.foldl_cons, ih]
      unfold dropJob
      cases db.jobs.lookup first with
      | none => rfl
      | some row =>
        dsimp only
        split_ifs <;> rfl
  exact hdrop dropped db

end Jobs

end Virtkit.Jobs.Db
