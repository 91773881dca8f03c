import Virtkit.Jobs.Service
import Virtkit.Jobs.Transactions

/-!
# What a step of an attempt can do

Most steps of an attempt are quiet: they record, take up and show nothing. The others start a record,
write it, resume from it, or look for the job of an earlier attempt.
-/

namespace Virtkit.Jobs

open Virtkit.Common

/-- Whether an attempt at a stage has neither a record nor a job to look for. -/
def Stage.idle : Stage → Bool
  | .recording .. | .recorded .. | .viewing _ | .reading _ => false
  | _ => true

/-- Whether an attempt at a stage has its record's result to resume from. -/
def Stage.resumes : Stage → Bool
  | .recorded .. => true
  | _ => false

namespace Service

/-- A step of an attempt that records, takes up and shows nothing. -/
structure Quiet (s s' : Service) (i : ℕ) (a a' : Attempt) : Prop where
  attempts : s'.attempts = s.attempts.set i a'
  ask : a'.ask = a.ask
  alive : a'.alive = true → a.alive = true
  stage : a'.stage = a.stage ∨ a'.stage.idle = true
  inflight : ∀ r ∈ s.inflight, a.alive = false ∨ a'.alive = true ∨ r ≠ a.ask.key → r ∈ s'.inflight
  named : ∀ r row id, s'.db.requests.lookup r = some row → row.answer = .job id →
    s.db.requests.lookup r = some row
  jobs : s'.db.jobs = s.db.jobs
  holds : s'.db.byAdmission = s.db.byAdmission
  live : s'.live = s.live
  finished : s'.finished = s.finished
  writes : s'.writes = s.writes
  views : s'.views = s.views
  told : s'.told = s.told
  ids : s'.ids = s.ids
  seen : s'.seen = s.seen

/-- What a step of an attempt can do: only giving up on it leaves a job recorded and not taken up. -/
inductive AttemptStep (s s' : Service) (i : ℕ) (a : Attempt) (event : AttemptEvent) : Prop where
  | quiet (a' : Attempt) (h : Quiet s s' i a a')
      (hevent : event = .giveUp ∨ a.stage.resumes = false ∧ a'.stage.idle = true)
  | start (id : String) (admission : Option String) (seen : Bool) (hstage : a.stage = .ready seen)
      (halive : a.alive = true) (hnew : id ∉ s.ids)
      (h : s' = { s with ids := id :: s.ids }.move i a (.recording id (a.ask.row admission a.now)))
  | record (id : String) (row : JobRow) (hstage : a.stage = .recording id row)
      (h : s' = s.submitted i a id row (s.db.submitJob id row a.ask.digest a.now))
  | resume (id : String) (row : JobRow) (submitted : Submitted)
      (hstage : a.stage = .recorded id row submitted) (halive : a.alive = true)
      (h : s' = s.resume i a id row submitted)
  | view (id : String) (row : JobRow) (hstage : a.stage = .viewing id) (halive : a.alive = true)
      (hrow : s.inMemory id = some row) (h : s' = s.answerAgain i a id (some row))
  | miss (id : String) (hstage : a.stage = .viewing id) (halive : a.alive = true)
      (hrow : s.inMemory id = none) (h : s' = s.move i a (.reading id))
  | read (id : String) (hstage : a.stage = .reading id) (halive : a.alive = true)
      (h : s' = s.answerAgain i a id (s.db.jobs.lookup id))

theorem db_answerAgain (s : Service) (i : ℕ) (a : Attempt) (id : String) (found : Option JobRow) :
    (s.answerAgain i a id found).db = s.db := by
  unfold answerAgain
  split <;> rfl

/-- An attempt's step moves that attempt, which records only while it is served or was given up. -/
theorem AttemptStep.attempts {s s' : Service} {i : ℕ} {a : Attempt} {event : AttemptEvent}
    (h : AttemptStep s s' i a event) : ∃ a', s'.attempts = s.attempts.set i a' ∧
      ∀ id row, a'.stage = .recording id row → a'.alive = true ∨ event = .giveUp ∧ a.stage = .recording id row := by
  have hagain : ∀ id found, ∃ a', (s.answerAgain i a id found).attempts = s.attempts.set i a' ∧
      ∀ id row, a'.stage ≠ .recording id row := by
    intro id found
    unfold answerAgain
    split <;> exact ⟨_, rfl, fun _ _ h => (nomatch h)⟩
  cases h with
  | quiet a' h hevent =>
    refine ⟨a', h.attempts, fun id row hrow => .inr ?_⟩
    have hbusy : a'.stage.idle ≠ true := by
      rw [hrow]
      exact Bool.false_ne_true
    exact ⟨hevent.resolve_right fun h => hbusy h.2, (h.stage.resolve_right hbusy).symm.trans hrow⟩
  | start id admission seen hstage halive hnew h =>
    subst h
    exact ⟨_, rfl, fun _ _ _ => .inl halive⟩
  | record id row hstage h =>
    subst h
    unfold submitted goOn
    split_ifs <;> exact ⟨_, rfl, fun _ _ h => (nomatch h)⟩
  | resume id row submitted hstage halive h =>
    subst h
    cases submitted <;> exact ⟨_, rfl, fun _ _ h => (nomatch h)⟩
  | view id row hstage halive hrow h =>
    obtain ⟨a', hattempts, hnot⟩ := hagain id (some row)
    exact ⟨a', h ▸ hattempts, fun id row hrow => absurd hrow (hnot id row)⟩
  | miss id hstage halive hrow h =>
    subst h
    exact ⟨_, rfl, fun _ _ h => (nomatch h)⟩
  | read id hstage halive h =>
    obtain ⟨a', hattempts, hnot⟩ := hagain id (s.db.jobs.lookup id)
    exact ⟨a', h ▸ hattempts, fun id row hrow => absurd hrow (hnot id row)⟩

section Quiet

variable {s s' : Service} {i : ℕ} {a : Attempt} {db : Db} {counted : List ((String × String) × ℕ)}

/-- Requests named by a job are as they were. -/
def Named (old new : Db) : Prop :=
  ∀ r row id, new.requests.lookup r = some row → row.answer = .job id → old.requests.lookup r = some row

/-- A move to an idle stage touches no job. -/
theorem quiet_move (hjobs : db.jobs = s.db.jobs ∧ db.byAdmission = s.db.byAdmission)
    (hnamed : Named s.db db) {stage : Stage} (hidle : stage.idle = true) :
    Quiet s ({ s with db := db, counted := counted }.move i a stage) i a { a with stage := stage } where
  attempts := rfl
  ask := rfl
  alive := id
  stage := .inr hidle
  inflight := fun _ hr _ => hr
  named := hnamed
  jobs := hjobs.1
  holds := hjobs.2
  live := rfl
  finished := rfl
  writes := rfl
  views := rfl
  told := rfl
  ids := rfl
  seen := rfl

theorem mem_filter_inflight {l : List (String × String)} {r : String × String} (hr : r ∈ l)
    (hne : r ≠ a.ask.key) : r ∈ l.filter (· ≠ a.ask.key) :=
  List.mem_filter.mpr ⟨hr, decide_eq_true hne⟩

theorem quiet_answer (halive : a.alive = true)
    (hjobs : db.jobs = s.db.jobs ∧ db.byAdmission = s.db.byAdmission) (hnamed : Named s.db db) (answer : Answer) :
    Quiet s ({ s with db := db, counted := counted }.answer i a answer) i a
      { a with stage := .over (some answer), alive := false } where
  attempts := rfl
  ask := rfl
  alive := nofun
  stage := .inr rfl
  inflight := by
    rintro r hr (hdead | hlive | hne)
    · rw [halive] at hdead
      nomatch hdead
    · nomatch hlive
    · exact mem_filter_inflight hr hne
  named := hnamed
  jobs := hjobs.1
  holds := hjobs.2
  live := rfl
  finished := rfl
  writes := rfl
  views := rfl
  told := rfl
  ids := rfl
  seen := rfl

theorem quiet_giveUp (halive : a.alive = true) : ∃ a', Quiet s (s.giveUp i a) i a a' := by
  refine ⟨_, rfl, rfl, nofun, ?_, ?_, fun _ _ _ h _ => h, rfl, rfl, rfl, rfl, rfl, rfl, rfl, rfl, rfl⟩
  · cases a.stage with
    | gating | gatingWrite | recording id row => exact .inl rfl
    | _ => exact .inr rfl
  · rintro r hr (hdead | hlive | hne)
    · rw [halive] at hdead
      nomatch hdead
    · nomatch hlive
    · exact mem_filter_inflight hr hne

theorem goOn_eq (s : Service) (i : ℕ) (a : Attempt) (stage : Stage) :
    s.goOn i a stage = s.move i a (if a.alive = true then stage else .over none) := by
  unfold goOn
  split_ifs <;> rfl

theorem quiet_goOn (hjobs : db.jobs = s.db.jobs ∧ db.byAdmission = s.db.byAdmission)
    (hnamed : Named s.db db) {stage : Stage} (hidle : stage.idle = true) :
    ∃ a', Quiet s ({ s with db := db, counted := counted }.goOn i a stage) i a a' ∧ a'.stage.idle = true := by
  rw [goOn_eq]
  have hidle' : (if a.alive = true then stage else .over none).idle = true := by
    split_ifs
    · exact hidle
    · rfl
  exact ⟨_, quiet_move hjobs hnamed hidle', hidle'⟩

theorem named_gateWrite (normalize : String → Option String) (db : Db) (relay : String) (job : GateJob)
    (requestId digest : String) (now : ℕ) : Named db (db.gateWrite normalize relay job requestId digest now).2 := by
  intro r row id hrow hjob
  obtain ⟨-, -, hrequests | ⟨refusal, -, -, hrequests⟩⟩ := db.gateWrite_frame normalize relay job requestId digest now
  · exact hrequests ▸ hrow
  · rw [hrequests] at hrow
    rcases Db.of_lookup_recordRequest hrow with ⟨-, rfl⟩ | hrow
    · nomatch hjob
    · exact hrow

/-- What the gate writes touches no job. -/
theorem quiet_gateWritten (normalize : String → Option String) : ∃ a', Quiet s (s.gateWritten i a
    (s.db.gateWrite normalize a.ask.relay a.ask.job a.ask.requestId a.ask.digest a.now)) i a a' ∧
      a'.stage.idle = true := by
  have hframe := s.db.gateWrite_frame normalize a.ask.relay a.ask.job a.ask.requestId a.ask.digest a.now
  have hnamed := named_gateWrite normalize s.db a.ask.relay a.ask.job a.ask.requestId a.ask.digest a.now
  revert hframe hnamed
  generalize s.db.gateWrite normalize a.ask.relay a.ask.job a.ask.requestId a.ask.digest a.now = result
  intro hframe hnamed
  obtain ⟨gate, db⟩ := result
  unfold gateWritten
  cases gate with
  | pass gitlab | seen => exact quiet_goOn ⟨hframe.1, hframe.2.1⟩ hnamed rfl
  | refused refusal =>
    dsimp only
    split_ifs with halive
    · exact ⟨_, quiet_answer halive ⟨hframe.1, hframe.2.1⟩ hnamed _, rfl⟩
    · exact ⟨_, quiet_move ⟨hframe.1, hframe.2.1⟩ hnamed rfl, rfl⟩

end Quiet

section Steps

variable {normalize : String → Option String} {s s' : Service} {i : ℕ} {a : Attempt} {event : AttemptEvent}

theorem attemptStep_move {stage : Stage} (hidle : stage.idle = true) (hstage : a.stage.resumes = false) :
    AttemptStep s (s.move i a stage) i a event :=
  .quiet _ (quiet_move ⟨rfl, rfl⟩ (fun _ _ _ h _ => h) hidle) (.inr ⟨hstage, hidle⟩)

theorem attemptStep_answer (halive : a.alive = true) (answer : Answer)
    (hstage : a.stage.resumes = false) : AttemptStep s (s.answer i a answer) i a event :=
  .quiet _ (quiet_answer halive ⟨rfl, rfl⟩ (fun _ _ _ h _ => h) answer) (.inr ⟨hstage, rfl⟩)

/-- What a step of an attempt can do. -/
theorem attemptStep_of_step (h : s.stepAttempt normalize i a event = some s') : AttemptStep s s' i a event := by
  cases event <;> simp only [stepAttempt] at h
  case lookup =>
    split at h
    · rename_i hstage halive
      cases h
      have hresumes : a.stage.resumes = false := by rw [hstage]; rfl
      split
      · exact attemptStep_move rfl hresumes
      · split
        · split_ifs <;> exact attemptStep_answer halive _ hresumes
        · exact attemptStep_move rfl hresumes
    · nomatch h
  case gateStart =>
    split at h
    · rename_i hstage halive
      cases h
      exact attemptStep_move rfl (by rw [hstage]; rfl)
    · nomatch h
  case turnAway code =>
    split at h
    · rename_i hstage halive
      cases h
      exact attemptStep_answer halive _ (by rw [hstage]; rfl)
    · rename_i hstage halive
      cases h
      exact attemptStep_answer halive _ (by rw [hstage]; rfl)
    · nomatch h
  case gateRead =>
    split at h
    · rename_i hstage
      cases h
      have hresumes : a.stage.resumes = false := by rw [hstage]; rfl
      split
      · obtain ⟨a', hquiet, hidle⟩ : ∃ a', Quiet s (s.goOn i a (.ready false)) i a a' ∧
            a'.stage.idle = true := quiet_goOn ⟨rfl, rfl⟩ (fun _ _ _ h _ => h) rfl
        exact .quiet a' hquiet (.inr ⟨hresumes, hidle⟩)
      · exact attemptStep_move rfl hresumes
    · nomatch h
  case gateWrite =>
    split at h
    · rename_i hstage
      cases h
      obtain ⟨a', hquiet, hidle⟩ := quiet_gateWritten normalize
      exact .quiet a' hquiet (.inr ⟨by rw [hstage]; rfl, hidle⟩)
    · nomatch h
  case start unqueued id =>
    split at h
    · rename_i seen hstage halive
      split_ifs at h with hid
      exact .start id _ seen hstage halive hid (Option.some.inj h).symm
    · nomatch h
  case record =>
    split at h
    · rename_i id row hstage
      exact .record id row hstage (Option.some.inj h).symm
    · nomatch h
  case resume =>
    split at h
    · rename_i id row submitted hstage halive
      exact .resume id row submitted hstage halive (Option.some.inj h).symm
    · nomatch h
  case view =>
    split at h
    · rename_i id hstage halive
      cases h
      split
      · rename_i row hrow
        exact .view id row hstage halive hrow rfl
      · rename_i hrow
        exact .miss id hstage halive hrow rfl
    · nomatch h
  case read =>
    split at h
    · rename_i id hstage halive
      exact .read id hstage halive (Option.some.inj h).symm
    · nomatch h
  case fail =>
    split at h
    case h_7 => nomatch h
    all_goals
      rename_i hstage halive
      cases h
      exact attemptStep_answer halive _ (by rw [hstage]; rfl)
  case giveUp =>
    split_ifs at h with halive
    cases h
    obtain ⟨a', hquiet⟩ := quiet_giveUp halive
    exact .quiet a' hquiet (.inl rfl)

end Steps

end Service

end Virtkit.Jobs
