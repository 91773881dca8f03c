import Virtkit.Jobs.Views

/-!
# Every recorded job is carried to an end

A record that is not over belongs to a job that is live, or finished and to be written, or about to be
taken up by the attempt that recorded it, as long as no attempt is given up between starting its record
and resuming from it. One given up there leaves its record behind: the attempt's write completes, and
nobody takes the job up.
-/

namespace Virtkit.Jobs

open Virtkit.Common List Option

namespace Ledger

/-- A record that is not over is of a job in memory, or about to be taken up. -/
def Held (l : Ledger) : Prop :=
  ∀ row, l.stored = some row → row.ended = false → l.live ≠ none ∨ l.finished ≠ none ∨ l.recorded.Nonempty

variable {l l' : Ledger}

/-- What can happen to a job keeps its record held, if a job about to be taken up is not lost, nor one
being recorded. -/
theorem Held.step (h : l.Held) (hs : l.Sound) (hstep : Step l l') (hkept : l.recorded ⊆ l'.recorded ∨ l'.live ≠ none)
    (hrecord : ∀ row ∈ l.recording, row ∈ l'.recording ∨ l'.recorded.Nonempty ∨ l'.stored = none) : l'.Held := by
  intro row hrow hended
  have hkeep : l.live ≠ none ∨ l.finished ≠ none ∨ l.recorded.Nonempty →
      (l.live ≠ none → l'.live ≠ none ∨ l'.finished ≠ none) →
      (l.finished ≠ none → l'.finished ≠ none) →
      l'.live ≠ none ∨ l'.finished ≠ none ∨ l'.recorded.Nonempty := by
    rintro (hlive | hfinished | hrecorded) hlives hfinishes
    · exact (hlives hlive).imp_right .inl
    · exact .inr (.inl (hfinishes hfinished))
    · exact hkept.elim (fun hsub => .inr (.inr (hrecorded.mono hsub))) .inl
  have hsame : l'.stored = l.stored → l'.live = l.live → l'.finished = l.finished →
      l'.live ≠ none ∨ l'.finished ≠ none ∨ l'.recorded.Nonempty := by
    intro hstored hlive hfinished
    refine hkeep (h row (hstored ▸ hrow) hended) (fun hl => .inl (hlive ▸ hl)) fun hf => hfinished ▸ hf
  cases hstep with
  | stay hl | start new hnew hnewrow hl => exact hsame hl.stored hl.live hl.finished
  | record new hnew hl =>
    rcases hrecord new hnew with hold | hnext | hnone
    · exact absurd (hl.recording hold) (Set.notMem_empty new)
    · exact .inr (.inr hnext)
    · nomatch hrow.symm.trans hnone
  | takeUp new hnew hl | change old new hlive horigin hopen hle hbound hl => exact .inl (hl.live ▸ some_ne_none new)
  | tell hknown hrecording hrecorded hl => exact hsame hl.stored hl.live hl.finished
  | finish old new hlive horigin hover hbound hl => exact .inr (.inl (hl.finished ▸ some_ne_none new))
  | commit written hwrite hl =>
    obtain ⟨old, hold, hle, -, hcases⟩ := put_cases (hl.stored.symm.trans hrow)
    have hopen : old.ended = false := by
      cases hover : old.ended with
      | false => rfl
      | true =>
        rcases hcases with rfl | ⟨-, hsame, hrev⟩
        · nomatch hover.symm.trans hended
        · have hlt := hs.coherent.order written old (.written ⟨false, hwrite⟩)
            (.stored hold) (hsame.symm.trans hended) hover
          omega
    exact hkeep (h old hold hopen) (fun hlive => .inl (hl.live ▸ hlive)) fun hf => hl.finished ▸ hf
  | note noted hwrite hover hfinished hl =>
    have hstored : l.stored = some row := hl.stored.symm.trans hrow
    have hle := hs.committed noted hwrite row hstored
    have hlt := hs.coherent.order row noted (.stored hstored) (.written ⟨true, hwrite⟩) hended hover
    omega
  | look shown hshown hl | lookAndSettle shown hshown hover now hl | miss htold hlive hfinished hl
  | read shown hlooking hshown hl | readAndSettle shown hlooking hshown hover now hl =>
    exact hsame hl.stored hl.live hl.finished
  | prune old hold hover left hleft hl =>
    obtain ⟨t, rfl⟩ := hleft row (hl.stored.symm.trans hrow)
    nomatch hended.symm.trans hover

end Ledger

/-- Whether an attempt at a stage has started its record and not resumed from it. -/
def Stage.recordOpen : Stage → Bool
  | .recording .. | .recorded .. => true
  | _ => false

namespace Service

/-- No attempt is given up between starting its record and resuming from it. -/
def Resumed (s : Service) (event : ServiceEvent) : Prop :=
  ∀ (i : ℕ) (a : Attempt), event = .attempt i .giveUp → s.attempts[i]? = some a → a.stage.recordOpen = false

section Steps

variable {normalize : String → Option String} {s s' : Service} {i : ℕ} {a a' : Attempt} {event : AttemptEvent}

theorem mem_of_ne {b : Attempt} (hattempts : s'.attempts = s.attempts.set i a')
    (hi : s.attempts[i]? = some a) (hb : b ∈ s.attempts) (hne : b ≠ a) : b ∈ s'.attempts := by
  obtain ⟨j, hj⟩ := mem_iff_getElem?.mp hb
  have hij : i ≠ j := by
    rintro rfl
    exact hne (some.inj (hj.symm.trans hi))
  rw [hattempts]
  exact mem_of_getElem? (by rw [getElem?_set_ne hij]; exact hj)

/-- A recorded job is kept until it is live, unless its attempt gives up. -/
theorem recorded_kept (hi : s.attempts[i]? = some a) (hstep : AttemptStep s s' i a event)
    (hresumed : event = .giveUp → a.stage.recordOpen = false) (id : String) :
    (s.ledger id).recorded ⊆ (s'.ledger id).recorded ∨ (s'.ledger id).live ≠ none := by
  obtain ⟨a', hattempts, -⟩ := hstep.attempts
  by_cases htakes : ∃ row, a.TakesUp id row
  · obtain ⟨row, halive, hstage⟩ := htakes
    cases hstep with
    | quiet a'' h hevent =>
      rcases hevent with rfl | ⟨hresumes, -⟩
      · have hclosed := hresumed rfl
        rw [hstage] at hclosed
        nomatch hclosed
      · rw [hstage] at hresumes
        nomatch hresumes
    | resume id' row' submitted hstage' halive' h =>
      obtain ⟨rfl, rfl, rfl⟩ := Stage.recorded.inj (hstage.symm.trans hstage')
      refine .inr ?_
      rw [h]
      exact ((AList.lookup_insert _).trans_ne (some_ne_none row))
    | start id' admission seen hstage' halive' hnew h | record id' row' hstage' h
    | view id' row' hstage' halive' hrow h | miss id' hstage' halive' hrow h | read id' hstage' halive' h =>
      nomatch hstage.symm.trans hstage'
  · refine .inl ?_
    rintro row ⟨b, hb, hrow⟩
    refine ⟨b, mem_of_ne hattempts hi hb ?_, hrow⟩
    rintro rfl
    exact htakes ⟨row, hrow⟩

/-- A job being recorded stays so, or it is recorded and about to be taken up, or it was not recorded. -/
theorem recording_kept (hs : s.Sound) (hi : s.attempts[i]? = some a)
    (halive : ∀ id row, a.stage = .recording id row → a.alive = true)
    (hstep : AttemptStep s s' i a event) (id : String) :
    ∀ row ∈ (s.ledger id).recording, row ∈ (s'.ledger id).recording ∨
      (s'.ledger id).recorded.Nonempty ∨ (s'.ledger id).stored = none := by
  rintro row ⟨b, hb, hrow⟩
  obtain ⟨a', hattempts, -⟩ := hstep.attempts
  by_cases hne : b = a
  · subst hne
    have hnone : s.db.jobs.lookup id = none := ((hs.ledger id).recording row ⟨b, hb, hrow⟩).2.1
    cases hstep with
    | quiet a'' h hevent => exact .inr (.inr ((congrArg (AList.lookup id) h.jobs).trans hnone))
    | record id' row' hstage h =>
      obtain ⟨rfl, rfl⟩ := Stage.recording.inj (hrow.symm.trans hstage)
      rw [submitted, goOn_eq, if_pos (halive id row hrow)] at h
      rcases s.db.submitJob_cases id row b.ask.digest b.now with ⟨-, hdb, -⟩ | ⟨hnew, -⟩
      · refine .inr (.inr ?_)
        rw [h]
        exact (congrArg (fun db : Db => db.jobs.lookup id) hdb).trans hnone
      · refine .inr (.inl ⟨row, { b with stage := .recorded id row .new }, ?_, halive id row hrow, rfl⟩)
        rw [h, hnew]
        exact List.mem_set (List.getElem?_eq_some_iff.mp hi).1 _
    | start id' admission seen hstage halive' hnew h | resume id' row' submitted hstage halive' h
    | view id' row' hstage halive' hrow' h | miss id' hstage halive' hrow' h | read id' hstage halive' h =>
      cases hrow.symm.trans hstage
  · exact .inl ⟨b, mem_of_ne hattempts hi hb hne, hrow⟩

theorem recording_alive (h : ∀ b ∈ s.attempts, ∀ id row, b.stage = .recording id row → b.alive = true)
    (hstep : AttemptStep s s' i a event) (hresumed : event = .giveUp → a.stage.recordOpen = false) :
    ∀ b ∈ s'.attempts, ∀ id row, b.stage = .recording id row → b.alive = true := by
  intro b hb id row hrow
  obtain ⟨a', hattempts, halive⟩ := hstep.attempts
  rw [hattempts] at hb
  rcases mem_or_eq_of_mem_set hb with hb | rfl
  · exact h b hb id row hrow
  · rcases halive id row hrow with halive | ⟨hevent, hstage⟩
    · exact halive
    · have hclosed := hresumed hevent
      rw [hstage] at hclosed
      nomatch hclosed

theorem attempts_kept {e : ServiceEvent} (h : s.step normalize e = some s') (hnot : ∀ i event, e ≠ .attempt i event) :
    (∀ b ∈ s.attempts, b ∈ s'.attempts) ∧ ∀ b ∈ s'.attempts, b ∈ s.attempts ∨ b.stage.idle = true := by
  cases e with
  | begin ask =>
    cases h
    unfold Service.begin
    split_ifs <;> refine ⟨fun b hb => mem_append_left _ hb, fun b hb => ?_⟩
    all_goals
      rcases mem_append.mp hb with hb | hb
      · exact .inl hb
      · exact .inr (mem_singleton.mp hb ▸ rfl)
  | attempt i event => exact absurd rfl (hnot i event)
  | job event =>
    rw [(jobsFrame_of_step h).attempts]
    exact ⟨fun b hb => hb, fun b hb => .inl hb⟩
  | _ =>
    cases h
    exact ⟨fun b hb => hb, fun b hb => .inl hb⟩

/-- The hub is sound, attempts that record are served, and every job's record is held. -/
structure Carried (s : Service) : Prop where
  sound : s.Sound
  alive : ∀ a ∈ s.attempts, ∀ id row, a.stage = .recording id row → a.alive = true
  held : ∀ id, (s.ledger id).Held

/-- A job that was recorded is carried on through every step. -/
theorem Carried.step (hs : s.Carried) {e : ServiceEvent} (h : s.step normalize e = some s')
    (hraises : s.Raises s') (hresumed : s.Resumed e) : s'.Carried := by
  have hledger := ledger_step hs.sound.served h
  have hsound : s'.Sound := ⟨hs.sound.served.step h, fun id => (hs.sound.ledger id).step (hledger id) (hraises id)⟩
  by_cases hattempt : ∃ i event, e = .attempt i event
  · obtain ⟨i, event, rfl⟩ := hattempt
    simp only [Service.step] at h
    split at h
    · rename_i a hi
      have hstep := attemptStep_of_step h
      have hgiven : event = .giveUp → a.stage.recordOpen = false := by
        rintro rfl
        exact hresumed i a rfl hi
      exact ⟨hsound, recording_alive hs.alive hstep hgiven, fun id =>
        (hs.held id).step (hs.sound.ledger id) (hledger id) (recorded_kept hi hstep hgiven id)
          (recording_kept hs.sound hi (hs.alive a (mem_of_getElem? hi)) hstep id)⟩
    · cases h
  · obtain ⟨hkept, hnew⟩ := attempts_kept h fun i event he => hattempt ⟨i, event, he⟩
    refine ⟨hsound, fun b hb id row hrow => ?_, fun id => ?_⟩
    · rcases hnew b hb with hb | hidle
      · exact hs.alive b hb id row hrow
      · rw [hrow] at hidle
        cases hidle
    · refine (hs.held id).step (hs.sound.ledger id) (hledger id) (.inl ?_) ?_
      · rintro row ⟨b, hb, hrow⟩
        exact ⟨b, hkept b hb, hrow⟩
      · rintro row ⟨b, hb, hrow⟩
        exact .inl ⟨b, hkept b hb, hrow⟩

/-- After a start every record that is not over is live. -/
theorem Recovered.carried (h : s.Recovered) : s.Carried := by
  refine ⟨⟨h.served, h.sound⟩, fun b hb => ?_, fun id row hrow hended => .inl ?_⟩
  · rw [h.idle.2.2.1] at hb
    nomatch hb
  · obtain ⟨jobs, len, now, -, heq⟩ := h.rows
    obtain ⟨hjobs, hlive⟩ := Prod.mk.inj heq
    change s.live.lookup id ≠ none
    change s.db.jobs.lookup id = some row at hrow
    rw [hjobs, Table.lookup_mapValues] at hrow
    obtain ⟨old, hold, heq⟩ := map_eq_some_iff.mp hrow
    rw [hlive, Table.lookup_mapValues, Table.lookup_retain, hold]
    split_ifs at heq with hkept
    · subst heq
      rw [hended, Bool.false_or] at hkept
      simp [hkept]
    · subst heq
      nomatch hended

/-- A hub whose jobs raise their revision as they end, and whose attempts are not given up between
starting their record and resuming from it. -/
def Attended (normalize : String → Option String) : System Service ServiceEvent :=
  (serviceSystem normalize).restrict fun s e s' => s.Raises s' ∧ s.Resumed e

theorem carried_of_reachable (h : (Attended normalize).Reachable s) : s.Carried :=
  h.invariant (fun _ => Recovered.carried) fun _ _ _ hs hstep => hs.step hstep.1 hstep.2.1 hstep.2.2

/-- In every run in which no attempt is given up between starting its record and resuming from it, a
record that is not over is of a job that is live, or finished and to be written, or of a request that is
being served. -/
theorem recorded_jobs_carried (normalize : String → Option String) {s : Service}
    (h : (Attended normalize).Reachable s) (id : String) (row : JobRow) (hrow : s.db.jobs.lookup id = some row) (hended : row.ended = false) :
    s.live.lookup id ≠ none ∨ s.finished.lookup id ≠ none ∨
      ∃ a ∈ s.attempts, a.alive = true ∧ a.ask.key = (row.key, row.requestId) := by
  have hs := carried_of_reachable h
  rcases hs.held id row hrow hended with hlive | hfinished | ⟨new, a, ha, htakes⟩
  · exact .inl hlive
  · exact .inr (.inl hfinished)
  · have hstored := ((hs.sound.ledger id).recorded new ⟨a, ha, htakes⟩).2.1
    obtain rfl := some.inj (hstored.symm.trans hrow)
    have hkey := (hs.sound.served.rows a ha id new (uses_of_takesUp htakes)).2.1
    exact .inr (.inr ⟨a, ha, htakes.1, hkey.symm⟩)

end Steps

section Examples

/-- Whether no attempt is given up on its record. -/
def resumed (s : Service) : ServiceEvent → Bool
  | .attempt i .giveUp => (s.attempts[i]?).all fun a => !a.stage.recordOpen
  | _ => true

theorem resumed_of_test {s : Service} {e : ServiceEvent} (h : s.resumed e = true) : s.Resumed e := by
  rintro i a rfl hi
  rw [resumed, hi] at h
  simpa using h

/-- A job recorded and not yet taken up: its request is being served. -/
theorem recorded_jobs_carried_unresumed : ∃ s, (Attended some).Reachable s ∧
    (∃ row, s.db.jobs.lookup "job" = some row ∧ row.ended = false ∧
      (s.live.lookup "job" ≠ none ∨ s.finished.lookup "job" ≠ none ∨
        ∃ a ∈ s.attempts, a.alive = true ∧ a.ask.key = (row.key, row.requestId))) := by
  have htest : ∀ {t e t'}, (raises t t' && t.resumed e) = true → t.Raises t' ∧ t.Resumed e := fun h =>
    ((Bool.and_eq_true _ _).mp h).imp raises_iff resumed_of_test
  obtain ⟨s, hreach, hstored⟩ : ∃ s, (Attended some).Reachable s ∧
      (s.db.jobs.lookup "job").any (·.ended = false) = true :=
    System.exists_reachable_restrict htest firstHub ([.begin firstAsk] ++ submitting 0 "job" ++ [.attempt 0 .record])
      firstHub_recovered (by decide +kernel)
  obtain ⟨row, hrow, hended⟩ := (any_eq_true _ _).mp hstored
  have hended := of_decide_eq_true hended
  exact ⟨s, hreach, row, hrow, hended, recorded_jobs_carried some hreach "job" row hrow hended⟩

/-- An attempt given up while its job is recorded: the record is written, nobody takes the job up, and
the next attempt of the request is answered with the job as it stays. -/
theorem job_recorded_and_never_taken_up : ∃ s, (Orderly some).Reachable s ∧
    (∃ row, s.db.jobs.lookup "job" = some row ∧ row.state = .queued) ∧
    s.live.lookup "job" = none ∧ s.finished.lookup "job" = none ∧
    s.inflight = [] ∧ (∀ a ∈ s.attempts, a.alive = false) ∧
    ∃ row, (firstAsk.key, firstAsk.digest, .job "job" row) ∈ s.answers := by
  obtain ⟨s, hreach, hstored, hlive, hfinished, hinflight, halive, x, hmem, hkey, hdigest, hanswer⟩ :
      ∃ s, (Orderly some).Reachable s ∧ (s.db.jobs.lookup "job").any (·.state = .queued) = true ∧
        s.live.lookup "job" = none ∧ s.finished.lookup "job" = none ∧ s.inflight = [] ∧
        (∀ a ∈ s.attempts, a.alive = false) ∧ ∃ x ∈ s.answers, x.1 = firstAsk.key ∧ x.2.1 = firstAsk.digest ∧
          (match x.2.2 with | .job id _ => id = "job" | _ => false) = true :=
    System.exists_reachable_restrict raises_iff firstHub ([.begin firstAsk] ++ submitting 0 "job" ++
      [.attempt 0 .giveUp, .attempt 0 .record, .begin firstAsk, .attempt 1 .lookup,
        .attempt 1 (.start none "other"), .attempt 1 .record, .attempt 1 .resume, .attempt 1 .view,
        .attempt 1 .read]) firstHub_recovered (by decide +kernel)
  obtain ⟨row, hrow, hstate⟩ := (any_eq_true _ _).mp hstored
  refine ⟨s, hreach, ⟨row, hrow, of_decide_eq_true hstate⟩, hlive, hfinished, hinflight, halive, ?_⟩
  obtain ⟨key, digest, answer⟩ := x
  cases answer with
  | job id row' =>
    obtain rfl : id = "job" := of_decide_eq_true hanswer
    cases hkey
    cases hdigest
    exact ⟨row', hmem⟩
  | _ => nomatch hanswer

end Examples

end Service

end Virtkit.Jobs
