import Virtkit.Jobs.Origins
import Virtkit.Jobs.Service
import Virtkit.Jobs.Transactions

/-!
# What a request came to

A refusal for approval is counted at most once on its project, and recorded as the request's answer;
other refusals are neither. A request that has an answer is given it again, and nothing is written.
Within the day a request is kept it comes to one answer: the job it made, or the refusal for approval
recorded for it. `Service.Once` says what follows for the attempts of the request, for the answers given
and for what they left.
-/

namespace Virtkit.Jobs

open Virtkit.Common

namespace Db

open Table

section Gate

variable {normalize : String → Option String} {db : Db} {relay : String} {job : GateJob}

theorem refusedTotal_insert (db : Db) (key : String × ℕ) (p : ProjectRow) :
    ({ db with projects := db.projects.insert key p } : Db).refusedTotal +
      ((db.projects.lookup key).elim 0 fun old => old.refused) = db.refusedTotal + p.refused := by
  have h := sum_add_valueAt (f := fun (_ : String × ℕ) (p : ProjectRow) => p.refused)
    (g := fun (_ : String × ℕ) (p : ProjectRow) => p.refused) (t := db.projects.insert key p)
    (u := db.projects) key fun k hk => by rw [valueAt, valueAt, AList.lookup_insert_ne hk]
  rw [valueAt, valueAt, AList.lookup_insert, Option.elim_some] at h
  exact h

theorem check_unrecorded {refusal : Refusal} (h : db.check normalize relay job = .refuse refusal false) :
    refusal.approval = false := by
  unfold check at h
  cases hrelay : db.relays.lookup relay with
  | none =>
    rw [hrelay] at h
    cases h
    rfl
  | some row =>
    rw [hrelay] at h
    dsimp only at h
    cases hurl : row.serverUrl with
    | none =>
      rw [hurl] at h
      cases h
      rfl
    | some bound =>
      rw [hurl] at h
      dsimp only at h
      by_cases hbound : normalize job.serverUrl ≠ some bound
      · rw [if_pos hbound] at h
        cases h
        rfl
      · rw [if_neg hbound] at h
        cases hstatus : db.statusOf normalize bound row.reported with
        | rejected | pending =>
          rw [hstatus] at h
          nomatch h
        | rebound =>
          rw [hstatus] at h
          cases h
          rfl
        | approved gitlab =>
          rw [hstatus] at h
          dsimp only at h
          by_cases hproject : (job.projectId = 0 || !validProjectPath job.projectPath) = true
          · rw [if_pos hproject] at h
            cases h
            rfl
          · rw [if_neg hproject] at h
            nomatch h

theorem check_project {gitlab : String} {project : Option ProjectRow}
    (h : db.check normalize relay job = .project gitlab project) :
    project = db.projects.lookup (gitlab, job.projectId) := by
  unfold check at h
  split at h
  · nomatch h
  · split at h
    · nomatch h
    · split at h
      · nomatch h
      · split at h
        · nomatch h
        · nomatch h
        · nomatch h
        · split at h
          · nomatch h
          · cases h
            rfl

/-- What the gate makes of a project: a refusal that is recorded adds at most one to the refused counts,
and nothing else adds to them; a refusal that is not recorded is not for approval. -/
theorem gateProject_cases (db : Db) (gitlab : String) (job : GateJob) : ∃ gate recorded projects,
    db.gateProject gitlab (db.projects.lookup (gitlab, job.projectId)) job = (gate, recorded, projects) ∧
    (recorded = false ∧ ({ db with projects := projects } : Db).refusedTotal ≤ db.refusedTotal ∧
        (∀ refusal, gate = .refused refusal → refusal.approval = false) ∨
      recorded = true ∧ ({ db with projects := projects } : Db).refusedTotal ≤ db.refusedTotal + 1 ∧
        ∃ refusal, gate = .refused refusal) := by
  unfold gateProject
  dsimp only
  cases hproject : db.projects.lookup (gitlab, job.projectId) with
  | some p =>
    dsimp only
    by_cases happroved : p.state = .approved
    · rw [if_pos happroved]
      refine ⟨_, _, _, rfl, .inl ⟨rfl, ?_, nofun⟩⟩
      have hsum := db.refusedTotal_insert (gitlab, job.projectId) { p with path := Fleet.displaySafe job.projectPath }
      rw [hproject, Option.elim_some] at hsum
      exact Nat.le_of_eq (Nat.add_right_cancel hsum)
    · rw [if_neg happroved]
      refine ⟨_, _, _, rfl, .inr ⟨rfl, ?_, _, rfl⟩⟩
      have hsum := db.refusedTotal_insert (gitlab, job.projectId)
        { p with refused := satAdd u64Max p.refused 1, path := Fleet.displaySafe job.projectPath }
      rw [hproject, Option.elim_some] at hsum
      have hsat : satAdd u64Max p.refused 1 ≤ p.refused + 1 := Nat.min_le_left _ _
      dsimp only at hsum
      omega
  | none =>
    by_cases hfull : maxProjects ≤ db.projects.count fun key _ => key.1 = gitlab
    · rw [if_pos hfull]
      refine ⟨_, _, _, rfl, .inl ⟨rfl, Nat.le_refl _, fun refusal h => ?_⟩⟩
      cases h
      rfl
    · rw [if_neg hfull]
      refine ⟨_, _, _, rfl, .inr ⟨rfl, ?_, _, rfl⟩⟩
      have hsum := db.refusedTotal_insert (gitlab, job.projectId) ⟨.pending, Fleet.displaySafe job.projectPath, 1⟩
      rw [hproject, Option.elim_none] at hsum
      exact Nat.le_of_eq hsum

/-- A request that is answered already is not written again. -/
theorem gateWrite_again (normalize : String → Option String) (job : GateJob)
    {requestId digest : String} {now : ℕ} {row : RequestRow}
    (h : db.request (relay, requestId) now = some row) (hdigest : row.digest = digest) :
    (db.gateWrite normalize relay job requestId digest now).2 = db ∧
    ∀ refusal, (db.gateWrite normalize relay job requestId digest now).1 = .refused refusal →
      row.answer = .refused refusal := by
  unfold gateWrite
  rw [h]
  dsimp only
  rw [if_neg (by simpa using hdigest)]
  cases hanswer : row.answer with
  | refused refusal => exact ⟨rfl, fun refusal' h => by cases h; rfl⟩
  | job id | reservation => exact ⟨rfl, nofun⟩

theorem refusedTotal_recordRequest (db : Db) (r : String × String) (row : RequestRow) :
    (db.recordRequest r row).refusedTotal = db.refusedTotal := by
  unfold refusedTotal
  rw [(recordRequest_frame db r row).2.2]

/-- A request that has no answer: its refusal for approval is recorded, and counted at most once; nothing
else is. -/
theorem gateWrite_new (normalize : String → Option String) (job : GateJob) (digest : String)
    {requestId : String} {now : ℕ} (h : db.request (relay, requestId) now = none) :
    let written := db.gateWrite normalize relay job requestId digest now
    (∃ refusal, written.1 = .refused refusal ∧
      written.2.requests = (db.recordRequest (relay, requestId) ⟨now, digest, .refused refusal⟩).requests ∧
      written.2.refusedTotal ≤ db.refusedTotal + 1) ∨
    written.2.requests = db.requests ∧ (∀ refusal, written.1 = .refused refusal → refusal.approval = false) ∧
      written.2.refusedTotal ≤ db.refusedTotal := by
  unfold gateWrite
  rw [h]
  cases hcheck : db.check normalize relay job with
  | refuse refusal recorded =>
    cases recorded with
    | false => exact .inr ⟨rfl, fun refusal' h => by cases h; exact check_unrecorded hcheck, Nat.le_refl _⟩
    | true =>
      refine .inl ⟨refusal, rfl, rfl, ?_⟩
      rw [refusedTotal_recordRequest]
      exact Nat.le_succ _
  | project gitlab project =>
    obtain rfl := check_project hcheck
    obtain ⟨gate, recorded, projects, heq, hcases⟩ := db.gateProject_cases gitlab job
    dsimp only
    rw [heq]
    rcases hcases with ⟨rfl, htotal, hrefusal⟩ | ⟨rfl, htotal, refusal, rfl⟩
    · refine .inr ?_
      cases gate with
      | pass gitlab | seen | refused refusal => exact ⟨rfl, hrefusal, htotal⟩
    · refine .inl ⟨refusal, rfl, ?_, ?_⟩
      · dsimp only [recordRequest, sweepRequests]
        split_ifs <;> rfl
      · dsimp only
        rw [refusedTotal_recordRequest]
        exact htotal

end Gate

end Db

def RequestAnswer.decides : RequestAnswer → Answer → Prop
  | .job id, .job id' _ => id' = id
  | .refused refusal, .refused refusal' => refusal' = refusal
  | _, _ => False

/-- What an attempt of a request that came to this may be answered: that it is being served already, or
that the hub failed, besides. -/
def RequestAnswer.admits (answer : RequestAnswer) : Answer → Prop
  | .gone id => answer = .job id
  | .unavailable | .failed => True
  | x => answer.decides x

/-- How far an attempt can be that was made after the request came to this. -/
def Stage.Late (answer : RequestAnswer) : Stage → Prop
  | .lookup | .over none => True
  | .ready seen => seen = true ∧ ∃ id, answer = .job id
  | .recording .. => ∃ id, answer = .job id
  | .recorded _ _ submitted => ∃ id, answer = .job id ∧ submitted = .again id
  | .viewing id | .reading id => answer = .job id
  | .over (some x) => answer.admits x
  | _ => False

/-- What holds of an attempt, by the time and what the request came to: an attempt of the request is a
submission of the same body, one made after the request was answered goes for that answer, and a job
found or recorded is what the request came to. -/
structure Attempt.Fits (clock : ℕ) (came : RequestAnswer → Prop) (ask : Ask) (t₀ : ℕ) (a : Attempt) : Prop where
  now : a.now ≤ clock
  body : a.ask.key = ask.key → a.ask = ask ∧ t₀ ≤ a.now
  heard : a.ask.key = ask.key → ∀ x, a.heard = some x →
    ∃ answer, came answer ∧ answer.decides x ∧ a.stage.Late answer
  finds : a.ask.key = ask.key → ∀ id, a.Finds id ∨ (∃ row, a.stage = .recorded id row .new) → came (.job id)

namespace Service

def CameTo (s : Service) (ask : Ask) (answer : RequestAnswer) : Prop :=
  ∃ row, s.db.requests.lookup ask.key = some row ∧ row.answer = answer

/-- What holds of one request within its day. -/
structure Once (s : Service) (ask : Ask) (t₀ : ℕ) : Prop where
  day : s.clock < t₀ + requestKeep
  row : ∀ row, s.db.requests.lookup ask.key = some row →
    t₀ ≤ row.at_ ∧ row.digest = ask.digest ∧ row.answer ≠ .reservation
  named : ∀ id, s.CameTo ask (.job id) → ∀ row, (s.ledger id).Row row → (row.key, row.requestId) = ask.key
  attempts : ∀ a ∈ s.attempts, a.Fits s.clock (s.CameTo ask) ask t₀
  gone : ∀ a ∈ s.attempts, a.ask.key = ask.key → a.heard ≠ none → ∀ id,
    a.stage = .over (some (.gone id)) → s.db.jobs.lookup id = none
  answered : ∀ x, (ask.key, ask.digest, x) ∈ s.answers → x.decisive = true →
    ∃ answer, s.CameTo ask answer ∧ answer.decides x
  created : ∀ id row, (id, row) ∈ s.created → (row.key, row.requestId) = ask.key → s.CameTo ask (.job id)
  createdOnce : (s.created.filter fun x => (x.2.key, x.2.requestId) = ask.key).length ≤ 1
  counted : ((s.counted.filter fun x => x.1 = ask.key).map Prod.snd).sum ≤ 1
  countedOnce : ((s.counted.filter fun x => x.1 = ask.key).map Prod.snd).sum ≠ 0 →
    ∃ refusal, s.CameTo ask (.refused refusal)

/-- Every job's ledger takes a step. -/
def Follows (s s' : Service) : Prop := ∀ id, Ledger.Step (s.ledger id) (s'.ledger id)

/-- The jobs recorded for the request. -/
def createdFor (s : Service) (ask : Ask) : List (String × JobRow) :=
  s.created.filter fun x => (x.2.key, x.2.requestId) = ask.key

/-- How often a refusal of the request was counted. -/
def countedFor (s : Service) (ask : Ask) : ℕ := ((s.counted.filter fun x => x.1 = ask.key).map Prod.snd).sum

section Next

variable {s s' : Service} {ask : Ask} {t₀ : ℕ}

/-- A request comes to one answer. -/
theorem CameTo.unique {answer answer' : RequestAnswer} (h : s.CameTo ask answer)
    (h' : s.CameTo ask answer') : answer = answer' := by
  obtain ⟨row, hrow, rfl⟩ := h
  obtain ⟨row', hrow', rfl⟩ := h'
  rw [Option.some.inj (hrow.symm.trans hrow')]

theorem fits_mono {clock clock' : ℕ} {came came' : RequestAnswer → Prop} {a : Attempt}
    (h : a.Fits clock came ask t₀) (hclock : clock ≤ clock') (hkept : ∀ answer, came answer → came' answer) :
    a.Fits clock' came' ask t₀ := by
  refine ⟨h.now.trans hclock, h.body, fun hkey x hx => ?_, fun hkey id hid => hkept _ (h.finds hkey id hid)⟩
  obtain ⟨answer, hcame, hdecides, hlate⟩ := h.heard hkey x hx
  exact ⟨answer, hkept answer hcame, hdecides, hlate⟩

/-- What a step makes of the request: what it came to stays, and a new answer is a first one, of its day and
its body, and names a job of its own. -/
structure Settles (s s' : Service) (ask : Ask) (t₀ : ℕ) : Prop where
  kept : ∀ answer, s.CameTo ask answer → s'.CameTo ask answer
  row : ∀ row, s'.db.requests.lookup ask.key = some row → s.db.requests.lookup ask.key = some row ∨
    t₀ ≤ row.at_ ∧ row.digest = ask.digest ∧ row.answer ≠ .reservation ∧
      ∀ id, row.answer = .job id → ∀ row', (s'.ledger id).Row row' → (row'.key, row'.requestId) = ask.key

theorem Settles.of_eq (h : s'.db.requests.lookup ask.key = s.db.requests.lookup ask.key) : s.Settles s' ask t₀ := by
  refine ⟨?_, fun row hrow => .inl (h ▸ hrow)⟩
  rintro answer ⟨row, hrow, hanswer⟩
  exact ⟨row, h.trans hrow, hanswer⟩

theorem not_cameTo (h : s.db.requests.lookup ask.key = none) (answer : RequestAnswer) : ¬ s.CameTo ask answer := by
  rintro ⟨row, hrow, -⟩
  nomatch h.symm.trans hrow

/-- What a step must keep so that a request is answered once. -/
theorem Once.next (h : s.Once ask t₀) (hs : s.Served) (hledger : s.Follows s') (hclock : s.clock ≤ s'.clock)
    (hday : s'.clock < t₀ + requestKeep) (hsettles : s.Settles s' ask t₀)
    (hattempts : ∀ a ∈ s'.attempts, a ∈ s.attempts ∨ a.Fits s'.clock (s'.CameTo ask) ask t₀ ∧
      (a.ask.key = ask.key → a.heard ≠ none → ∀ id, a.stage = .over (some (.gone id)) → s'.db.jobs.lookup id = none))
    (hanswers : ∀ x, (ask.key, ask.digest, x) ∈ s'.answers → x.decisive = true →
      (ask.key, ask.digest, x) ∈ s.answers ∨ ∃ answer, s'.CameTo ask answer ∧ answer.decides x)
    (hcreated : s'.createdFor ask = s.createdFor ask ∨
      ∃ id row, s'.createdFor ask = [(id, row)] ∧ s'.CameTo ask (.job id))
    (hcounted : s'.countedFor ask = s.countedFor ask ∨
      s'.countedFor ask ≤ 1 ∧ ∃ refusal, s'.CameTo ask (.refused refusal)) : s'.Once ask t₀ := by
  obtain ⟨hkept, hrow⟩ := hsettles
  refine ⟨hday, fun row hr => ?_, fun id hcame row hr => ?_, fun a ha => ?_,
    fun a ha hkey hheard id hgone => ?_, fun x hx hdecisive => ?_, fun id row hc hkey => ?_, ?_, ?_, ?_⟩
  · rcases hrow row hr with hold | ⟨hat, hdigest, hanswer, -⟩
    · exact h.row row hold
    · exact ⟨hat, hdigest, hanswer⟩
  · obtain ⟨request, hrequest, hanswer⟩ := hcame
    rcases hrow request hrequest with hold | ⟨-, -, -, hnamed⟩
    · obtain ⟨old, hrold, horigin⟩ := (hledger id).origin (hs.named _ request id hold hanswer).1 hr
      have hkey := h.named id ⟨request, hold, hanswer⟩ old hrold
      simp only [JobRow.origin, Prod.mk.injEq] at horigin
      rw [horigin.1, horigin.2.1, hkey]
    · exact hnamed id hanswer row hr
  · rcases hattempts a ha with hold | ⟨hfits, -⟩
    · exact fits_mono (h.attempts a hold) hclock hkept
    · exact hfits
  · rcases hattempts a ha with hold | ⟨-, hnew⟩
    · obtain ⟨x, hx⟩ := Option.ne_none_iff_exists'.mp hheard
      obtain ⟨answer, ⟨request, hrequest, hanswer⟩, -, hlate⟩ := (h.attempts a hold).heard hkey x hx
      rw [hgone] at hlate
      have hjob : request.answer = .job id := hanswer.trans hlate
      refine (hledger id).stored_eq_none ?_ (h.gone a hold hkey hheard id hgone)
      refine Set.eq_empty_iff_forall_notMem.mpr ?_
      rintro row ⟨b, hb, hr⟩
      exact (hs.named _ request id hrequest hjob).2.1 b hb row hr
    · exact hnew hkey hheard id hgone
  · rcases hanswers x hx hdecisive with hold | hnew
    · obtain ⟨answer, hcame, hdecides⟩ := h.answered x hold hdecisive
      exact ⟨answer, hkept answer hcame, hdecides⟩
    · exact hnew
  · have hmem : (id, row) ∈ s'.createdFor ask := List.mem_filter.mpr ⟨hc, decide_eq_true hkey⟩
    rcases hcreated with hsame | ⟨id', row', hone, hcame⟩
    · rw [hsame] at hmem
      exact hkept _ (h.created id row (List.mem_filter.mp hmem).1 hkey)
    · rw [hone, List.mem_singleton] at hmem
      obtain ⟨rfl, rfl⟩ := Prod.mk.inj hmem
      exact hcame
  · rcases hcreated with hsame | ⟨id', row', hone, -⟩
    · exact (congrArg List.length hsame).trans_le h.createdOnce
    · exact (congrArg List.length hone).le
  · rcases hcounted with hsame | ⟨hle, -⟩
    · exact hsame.trans_le h.counted
    · exact hle
  · rcases hcounted with hsame | ⟨-, hcame⟩
    · intro hne
      obtain ⟨refusal, hcame⟩ := h.countedOnce fun hzero => hne (hsame.trans hzero)
      exact ⟨refusal, hkept _ hcame⟩
    · exact fun _ => hcame

end Next

end Service

end Virtkit.Jobs
