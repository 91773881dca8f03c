import Virtkit.Jobs.LedgerSteps
import Virtkit.Jobs.ServedSteps

/-!
# The hub's steps, job by job

`Service.ledger` is what the hub holds of one job. Every step of the hub is, for each job, one of the
things that can happen to it, so what the ledger keeps holds of every job in every run.
-/

namespace Virtkit.Jobs.Service

open Virtkit.Common List

/-- What the hub holds of one job. -/
def ledger (s : Service) (id : String) : Ledger where
  known := id ∈ s.ids
  told := id ∈ s.told
  recording := {row | ∃ a ∈ s.attempts, a.stage = .recording id row}
  recorded := {row | ∃ a ∈ s.attempts, a.TakesUp id row}
  live := s.live.lookup id
  finished := s.finished.lookup id
  stored := s.db.jobs.lookup id
  writes := {x | ∃ w ∈ s.writes, w.id = id ∧ x = (w.row, w.done)}
  looking := (∃ v ∈ s.views, v.id = id) ∨ ∃ a ∈ s.attempts, a.stage = .reading id
  seen := (s.seen.filter fun x => x.1 = id).map Prod.snd

/-- The attempts have no record nor look of a job but those there were. -/
structure Steady (s s' : Service) (id : String) : Prop where
  recording : ∀ a ∈ s'.attempts, ∀ row, a.stage = .recording id row →
    ∃ b ∈ s.attempts, b.stage = .recording id row
  recorded : ∀ a ∈ s'.attempts, ∀ row, a.TakesUp id row → ∃ b ∈ s.attempts, b.TakesUp id row
  reading : ∀ a ∈ s'.attempts, a.stage = .reading id → ∃ b ∈ s.attempts, b.stage = .reading id

section Attempts

variable {s s' : Service} {id : String} {i : ℕ} {a a' : Attempt}

theorem steady_of_eq (h : s'.attempts = s.attempts) : Steady s s' id :=
  ⟨fun b hb _ hr => ⟨b, h ▸ hb, hr⟩, fun b hb _ hr => ⟨b, h ▸ hb, hr⟩, fun b hb hr => ⟨b, h ▸ hb, hr⟩⟩

theorem steady_of_set (hattempts : s'.attempts = s.attempts.set i a')
    (hrecording : ∀ row, a'.stage ≠ .recording id row) (hrecorded : ∀ row, ¬ a'.TakesUp id row)
    (hreading : a'.stage ≠ .reading id) : Steady s s' id := by
  refine ⟨fun b hb row h => ?_, fun b hb row h => ?_, fun b hb h => ?_⟩ <;> rw [hattempts] at hb <;>
    rcases mem_or_eq_of_mem_set hb with hb | rfl
  · exact ⟨b, hb, h⟩
  · exact absurd h (hrecording row)
  · exact ⟨b, hb, h⟩
  · exact absurd h (hrecorded row)
  · exact ⟨b, hb, h⟩
  · exact absurd h hreading

theorem steady_of_idle (hattempts : s'.attempts = s.attempts.set i a') (hidle : a'.stage.idle = true) :
    Steady s s' id := by
  refine steady_of_set hattempts (fun row h => ?_) (fun row h => ?_) fun h => ?_
  · rw [h] at hidle
    nomatch hidle
  · rw [h.2] at hidle
    nomatch hidle
  · rw [h] at hidle
    nomatch hidle

theorem steady_of_concat (hattempts : s'.attempts = s.attempts ++ [a]) (hidle : a.stage.idle = true) :
    Steady s s' id := by
  refine ⟨fun b hb row h => ?_, fun b hb row h => ?_, fun b hb h => ?_⟩ <;>
    rw [hattempts, mem_append, mem_singleton] at hb <;> rcases hb with hb | rfl
  · exact ⟨b, hb, h⟩
  · rw [h] at hidle
    nomatch hidle
  · exact ⟨b, hb, h⟩
  · rw [h.2] at hidle
    nomatch hidle
  · exact ⟨b, hb, h⟩
  · rw [h] at hidle
    nomatch hidle

theorem steady_of_quiet (hi : s.attempts[i]? = some a) (h : Quiet s s' i a a') : Steady s s' id := by
  rcases h.stage with hsame | hidle
  · have hmem := mem_of_getElem? hi
    refine ⟨fun b hb row hr => ?_, fun b hb row hr => ?_, fun b hb hr => ?_⟩ <;>
      rw [h.attempts] at hb <;> rcases mem_or_eq_of_mem_set hb with hb | rfl
    · exact ⟨b, hb, hr⟩
    · exact ⟨a, hmem, hsame ▸ hr⟩
    · exact ⟨b, hb, hr⟩
    · exact ⟨a, hmem, h.alive hr.1, hsame ▸ hr.2⟩
    · exact ⟨b, hb, hr⟩
    · exact ⟨a, hmem, hsame ▸ hr⟩
  · exact steady_of_idle h.attempts hidle

/-- A job of which nothing changed has the same ledger. -/
theorem same_of_steady (h : Steady s s' id) (hids : id ∈ s.ids → id ∈ s'.ids)
    (htold : id ∈ s'.told ↔ id ∈ s.told) (hlive : s'.live.lookup id = s.live.lookup id)
    (hfinished : s'.finished.lookup id = s.finished.lookup id) (hstored : s'.db.jobs.lookup id = s.db.jobs.lookup id)
    (hwrites : ∀ w ∈ s'.writes, w.id = id → w ∈ s.writes) (hviews : ∀ v ∈ s'.views, v.id = id → v ∈ s.views)
    (hseen : s'.seen.filter (fun x => x.1 = id) = s.seen.filter fun x => x.1 = id) :
    Ledger.Same (s.ledger id) (s'.ledger id) where
  known := hids
  told := htold
  recording := by
    rintro row ⟨b, hb, hr⟩
    exact h.recording b hb row hr
  recorded := by
    rintro row ⟨b, hb, hr⟩
    exact h.recorded b hb row hr
  live := hlive
  finished := hfinished
  stored := hstored
  writes := by
    rintro x ⟨w, hw, hid, rfl⟩
    exact ⟨w, hwrites w hw hid, hid, rfl⟩
  looking := by
    rintro (⟨v, hv, hid⟩ | ⟨b, hb, hr⟩)
    · exact .inl ⟨v, hviews v hv hid, hid⟩
    · exact .inr (h.reading b hb hr)
  seen := congrArg (List.map Prod.snd) hseen

theorem same_of_answer (id' : String) (answer : Answer) :
    Ledger.Same (s.ledger id') ((s.answer i a answer).ledger id') :=
  same_of_steady (steady_of_idle rfl rfl) (fun h => h) Iff.rfl rfl rfl rfl (fun _ h _ => h) (fun _ h _ => h) rfl

theorem same_of_seen (row : JobRow) (answer : Answer) :
    Ledger.Same { s.ledger id with seen := row :: (s.ledger id).seen }
      (({ s with seen := (id, row) :: s.seen }.answer i a answer).ledger id) := by
  have hsame := same_of_answer (s := s) (i := i) (a := a) id answer
  refine ⟨hsame.known, hsame.told, hsame.recording, hsame.recorded, rfl, rfl, rfl, hsame.writes, hsame.looking, ?_⟩
  simp [ledger, Service.answer]

theorem same_of_seen_other {id' : String} (hne : id' ≠ id) (row : JobRow) (answer : Answer) :
    Ledger.Same (s.ledger id') (({ s with seen := (id, row) :: s.seen }.answer i a answer).ledger id') := by
  refine same_of_steady (steady_of_idle rfl rfl) (fun h => h) Iff.rfl rfl rfl rfl (fun _ h _ => h) (fun _ h _ => h) ?_
  exact filter_cons_of_neg (by simpa using hne.symm)

theorem ledger_answerAgain (s : Service) (i : ℕ) (a : Attempt) (id id' : String) (found : Option JobRow) :
    Ledger.Same (s.ledger id') ((s.answerAgain i a id found).ledger id') ∨
    id' = id ∧ ∃ row, found = some row ∧ Ledger.Same { s.ledger id' with seen := row :: (s.ledger id').seen }
        ((s.answerAgain i a id found).ledger id') := by
  unfold answerAgain
  split
  · rename_i row hrow
    by_cases hid : id' = id
    · subst hid
      exact .inr ⟨rfl, row, (Option.filter_eq_some_iff.mp hrow).1, same_of_seen row _⟩
    · exact .inl (same_of_seen_other hid row _)
  · exact .inl (same_of_answer id' _)

/-- A new attempt's job starts in its ledger. -/
theorem ledger_start (hs : s.Served) (hnew : id ∉ s.ids) (admission : Option String) (id' : String) :
    Ledger.Step (s.ledger id') (({ s with ids := id :: s.ids }.move i a
      (.recording id (a.ask.row admission a.now))).ledger id') := by
  by_cases hid : id' = id
  · subst hid
    refine .start (a.ask.row admission a.now) hnew ⟨rfl, show 1 ≤ u64Max by decide⟩ ?_
    refine ⟨fun _ => mem_cons_self, Iff.rfl, ?_, ?_, rfl, rfl, rfl, fun _ h => h, ?_, rfl⟩
    · rintro row ⟨b, hb, hr⟩
      rcases mem_or_eq_of_mem_set hb with hb | rfl
      · exact absurd (hs.rows b hb id' row (.inl hr)).1 hnew
      · exact (Stage.recording.inj hr).2.symm
    · rintro row ⟨b, hb, hr⟩
      rcases mem_or_eq_of_mem_set hb with hb | rfl
      · exact ⟨b, hb, hr⟩
      · nomatch hr.2
    · rintro (hview | ⟨b, hb, hr⟩)
      · exact .inl hview
      · rcases mem_or_eq_of_mem_set hb with hb | rfl
        · exact .inr ⟨b, hb, hr⟩
        · nomatch hr
  · refine .stay (same_of_steady (steady_of_set rfl (fun row h => ?_) (fun row h => nomatch h.2)
      fun h => nomatch h) (fun h => mem_cons_of_mem _ h) Iff.rfl rfl rfl rfl (fun _ h _ => h)
      (fun _ h _ => h) rfl)
    exact hid (Stage.recording.inj h).1.symm

section

variable (hs : s.Served) (hi : s.attempts[i]? = some a)
include hs hi

theorem ledger_written {row : JobRow} (hstage : a.stage = .recording id row) {db : Db}
    {created : List (String × JobRow)} {stage : Stage} {submitted : Submitted}
    (hstage' : stage = .over none ∨ a.alive = true ∧ stage = .recorded id row submitted)
    (hjobs : submitted ≠ .new ∧ db.jobs = s.db.jobs ∨
      submitted = .new ∧ db.jobs = s.db.jobs.insert id row) (id' : String) :
    Ledger.Step (s.ledger id') (({ s with db := db, created := created }.move i a stage).ledger id') := by
  have hnot : ∀ id' row', stage ≠ .recording id' row' := by
    rintro id' row' rfl
    rcases hstage' with h | ⟨-, h⟩ <;> nomatch h
  have hread : ∀ id', stage ≠ .reading id' := by
    rintro id' rfl
    rcases hstage' with h | ⟨-, h⟩ <;> nomatch h
  have htakes : ∀ id' row', stage = .recorded id' row' .new → submitted = .new ∧ id' = id ∧ row' = row := by
    rintro id' row' rfl
    rcases hstage' with h | ⟨-, h⟩
    · nomatch h
    · obtain ⟨rfl, rfl, rfl⟩ := Stage.recorded.inj h
      exact ⟨rfl, rfl, rfl⟩
  by_cases hwritten : submitted = .new ∧ id' = id
  · obtain ⟨rfl, rfl⟩ := hwritten
    have hinsert := hjobs.resolve_left fun h => h.1 rfl
    refine .record row ⟨a, mem_of_getElem? hi, hstage⟩ ?_
    refine ⟨fun h => h, Iff.rfl, ?_, ?_, rfl, rfl, ?_, fun _ h => h, ?_, rfl⟩
    · rintro row' ⟨b, hb, hr⟩
      rcases exists_of_mem_set hb with rfl | ⟨j, hne, hb⟩
      · exact absurd hr (hnot id' row')
      · exact absurd (hs.used i j a b id' row row' hi hb (.inl hstage) (.inl hr)) hne
    · rintro row' ⟨b, hb, hr⟩
      rcases exists_of_mem_set hb with rfl | ⟨j, hne, hb⟩
      · exact (htakes id' row' hr.2).2.2
      · exact absurd (hs.used i j a b id' row row' hi hb (.inl hstage) (uses_of_takesUp hr)) hne
    · exact (congrArg (AList.lookup id') hinsert.2).trans (AList.lookup_insert _)
    · rintro (hview | ⟨b, hb, hr⟩)
      · exact .inl hview
      · rcases mem_or_eq_of_mem_set hb with hb | rfl
        · exact .inr ⟨b, hb, hr⟩
        · exact absurd hr (hread id')
  · refine .stay (same_of_steady (steady_of_set rfl (hnot id') (fun row' h => ?_) (hread id'))
      (fun h => h) Iff.rfl rfl rfl ?_ (fun _ h _ => h) (fun _ h _ => h) rfl)
    · obtain ⟨hnew, hid, -⟩ := htakes id' row' h.2
      exact hwritten ⟨hnew, hid⟩
    · rcases hjobs with ⟨-, hjobs⟩ | ⟨hnew, hjobs⟩
      · exact congrArg (AList.lookup id') hjobs
      · exact (congrArg (AList.lookup id') hjobs).trans (AList.lookup_insert_ne fun hid => hwritten ⟨hnew, hid⟩)

/-- A submission is a step of its job's ledger. -/
theorem ledger_record {row : JobRow} (hstage : a.stage = .recording id row) (id' : String) : Ledger.Step (s.ledger id')
      ((s.submitted i a id row (s.db.submitJob id row a.ask.digest a.now)).ledger id') := by
  rw [Service.submitted, goOn_eq]
  refine ledger_written hs hi hstage (submitted_stage a id row _) ?_ id'
  rcases s.db.submitJob_cases id row a.ask.digest a.now with ⟨hold, hdb, -⟩ | ⟨hnew, -, -, hdb⟩
  · exact .inl ⟨hold, congrArg Db.jobs hdb⟩
  · exact .inr ⟨hnew, congrArg Db.jobs hdb⟩

/-- An attempt resumes from its record: its job is taken up, or the job of an earlier one told of. -/
theorem ledger_resume (halive : a.alive = true) {row : JobRow} {submitted : Submitted}
    (hstage : a.stage = .recorded id row submitted) (id' : String) :
    Ledger.Step (s.ledger id') ((s.resume i a id row submitted).ledger id') := by
  have hmem := mem_of_getElem? hi
  cases submitted with
  | new =>
    have hsteady : Steady s (s.resume i a id row .new) id' := steady_of_idle rfl rfl
    by_cases hid : id' = id
    · subst hid
      refine .takeUp row ⟨a, hmem, halive, hstage⟩ ⟨fun h => h, ?_, ?_, ?_, ?_, rfl, rfl, fun _ h => h, ?_, rfl⟩
      · exact iff_of_true mem_cons_self trivial
      · rintro row' ⟨b, hb, hr⟩
        exact hsteady.recording b hb row' hr
      · rintro row' ⟨b, hb, hr⟩
        rcases exists_of_mem_set hb with rfl | ⟨j, hne, hb⟩
        · nomatch hr.1
        · exact absurd (hs.used i j a b id' row row' hi hb (.inr ⟨.new, hstage⟩) (uses_of_takesUp hr)) hne
      · exact AList.lookup_insert _
      · rintro (hview | ⟨b, hb, hr⟩)
        · exact .inl hview
        · exact .inr (hsteady.reading b hb hr)
    · refine .stay (same_of_steady hsteady (fun h => h) ?_ (AList.lookup_insert_ne hid) rfl rfl
        (fun _ h _ => h) (fun _ h _ => h) rfl)
      exact mem_cons.trans (or_iff_right hid)
  | again job =>
    have hsteady : Steady s (s.resume i a id row (.again job)) id' :=
      steady_of_set rfl (fun _ h => nomatch h) (fun _ h => nomatch h.2) fun h => nomatch h
    by_cases hid : id' = job
    · subst hid
      have hfree : s.Free id' := hs.finds a hmem id' (.inl ⟨id, row, hstage⟩)
      refine .tell hfree.known ?_ ?_ ⟨fun h => h, ?_, ?_, ?_, rfl, rfl, rfl, fun _ h => h, ?_, rfl⟩
      · exact Set.eq_empty_iff_forall_notMem.mpr fun row' ⟨b, hb, hr⟩ => hfree.unrecorded b hb row' hr
      · exact Set.eq_empty_iff_forall_notMem.mpr fun row' ⟨b, hb, hr⟩ => hfree.untaken b hb row' hr
      · exact iff_of_true mem_cons_self trivial
      · rintro row' ⟨b, hb, hr⟩
        exact hsteady.recording b hb row' hr
      · rintro row' ⟨b, hb, hr⟩
        exact hsteady.recorded b hb row' hr
      · rintro (hview | ⟨b, hb, hr⟩)
        · exact .inl hview
        · exact .inr (hsteady.reading b hb hr)
    · refine .stay (same_of_steady hsteady (fun h => h) ?_ rfl rfl rfl (fun _ h _ => h) (fun _ h _ => h) rfl)
      exact mem_cons.trans (or_iff_right hid)
  | conflict | admissionTaken => exact .stay (same_of_answer id' _)

end

theorem inMemory_eq_some {row : JobRow} (h : s.inMemory id = some row) :
    s.live.lookup id = some row ∨ s.finished.lookup id = some row := by
  rcases Option.or_eq_some_iff.mp h with h | ⟨-, h⟩
  · exact .inl h
  · exact .inr h

theorem inMemory_eq_none (h : s.inMemory id = none) : s.live.lookup id = none ∧ s.finished.lookup id = none :=
  Option.or_eq_none_iff.mp h

/-- An attempt's step is one of each job's ledger. -/
theorem ledger_attemptStep (hs : s.Served) (hi : s.attempts[i]? = some a) {event : AttemptEvent}
    (hstep : AttemptStep s s' i a event) (id' : String) : Ledger.Step (s.ledger id') (s'.ledger id') := by
  have hmem := mem_of_getElem? hi
  cases hstep with
  | quiet a' h hevent =>
    refine .stay (same_of_steady (steady_of_quiet hi h) (fun hid => h.ids ▸ hid) (by rw [h.told])
      (by rw [h.live]) (by rw [h.finished]) (by rw [h.jobs]) (fun w hw _ => h.writes ▸ hw)
      (fun v hv _ => h.views ▸ hv) (by rw [h.seen]))
  | start id admission seen hstage halive hnew h => exact h ▸ ledger_start hs hnew admission id'
  | record id row hstage h => exact h ▸ ledger_record hs hi hstage id'
  | resume id row submitted hstage halive h => exact h ▸ ledger_resume hs hi halive hstage id'
  | view id row hstage halive hrow h =>
    subst h
    rcases ledger_answerAgain s i a id id' (some row) with
      hsame | ⟨rfl, row', hrow', hsame⟩
    · exact .stay hsame
    · obtain rfl := Option.some.inj hrow'
      exact .look row (inMemory_eq_some hrow) hsame
  | miss id hstage halive hrow h =>
    subst h
    by_cases hid : id' = id
    · subst hid
      obtain ⟨hlive, hfinished⟩ := inMemory_eq_none hrow
      refine .miss (hs.looks a hmem id' (.inl hstage)) hlive hfinished ⟨fun h => h, Iff.rfl, ?_, ?_, rfl,
        rfl, rfl, fun _ h => h, fun _ => trivial, rfl⟩
      · rintro row ⟨b, hb, hr⟩
        rcases mem_or_eq_of_mem_set hb with hb | rfl
        · exact ⟨b, hb, hr⟩
        · nomatch hr
      · rintro row ⟨b, hb, hr⟩
        rcases mem_or_eq_of_mem_set hb with hb | rfl
        · exact ⟨b, hb, hr⟩
        · nomatch hr.2
    · refine .stay (same_of_steady (steady_of_set rfl (fun _ h => nomatch h) (fun _ h => nomatch h.2)
        fun h => ?_) (fun h => h) Iff.rfl rfl rfl rfl (fun _ h _ => h) (fun _ h _ => h) rfl)
      exact hid (Stage.reading.inj h).symm
  | read id hstage halive h =>
    subst h
    rcases ledger_answerAgain s i a id id' (s.db.jobs.lookup id) with
      hsame | ⟨rfl, row, hrow, hsame⟩
    · exact .stay hsame
    · exact .read row (.inr ⟨a, hmem, hstage⟩) hrow hsame

end Attempts

end Virtkit.Jobs.Service
