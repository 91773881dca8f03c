import Virtkit.Jobs.Views

/-!
# Whose job a record is

All rows of a job, wherever they are, name one relay, request and admission, and no two records kept name
one admission of a relay.
-/

namespace Virtkit.Jobs

open Virtkit.Common

namespace Ledger

/-- The rows of a job have one origin, and there are none before it is known. -/
structure Alike (l : Ledger) : Prop where
  unknown : ¬ l.known → ∀ row, ¬ l.Row row
  same : ∀ row row', l.Row row → l.Row row' → row.origin = row'.origin

variable {l l' : Ledger}

/-- A step makes no row of another request. -/
theorem Step.origin (h : Step l l') (hknown : l.known) {row : JobRow} (hrow : l'.Row row) :
    ∃ old, l.Row old ∧ row.origin = old.origin := by
  have hold : l.Row row → ∃ old, l.Row old ∧ row.origin = old.origin := fun h => ⟨row, h, rfl⟩
  -- A row that a step adds is one there was, or made from one.
  have hnew : ∀ new old, l.Row old → new.origin = old.origin → row = new ∨ l.Row row →
      ∃ old, l.Row old ∧ row.origin = old.origin := by
    rintro new old hrow horigin (rfl | h)
    · exact ⟨old, hrow, horigin⟩
    · exact hold h
  cases h with
  | stay h | tell _ hrecording hrecorded h | miss htold hlive hfinished h => exact hold (h.row hrow)
  | start new hfresh hnewrow h => exact absurd hknown hfresh
  | record new hrec h =>
    refine hnew new new (.inl hrec) rfl ?_
    have hrow := h.row hrow
    unfold Row at hrow ⊢
    grind
  | takeUp new hrec h =>
    refine hnew new new (.inr (.inl hrec)) rfl ?_
    have hrow := h.row hrow
    unfold Row at hrow ⊢
    grind
  | change old new hlive horigin hended hle hbound h | finish old new hlive horigin hended hbound h =>
    refine hnew new old (.live hlive) horigin ?_
    have hrow := h.row hrow
    unfold Row at hrow ⊢
    grind
  | commit written hwrite h =>
    have hrow := h.row hrow
    have hwritten : l.Row written := .written ⟨false, hwrite⟩
    by_cases hput : put l.stored written = some row
    · obtain ⟨old, holds, -, -, rfl | ⟨horigin, -⟩⟩ := put_cases hput
      · exact hold (.stored holds)
      · exact ⟨written, hwritten, horigin⟩
    · refine hnew written written hwritten rfl ?_
      unfold Row at hrow ⊢
      grind
  | note noted hwrite hended hfinished h | look shown hshown h | read shown hlooking hshown h =>
    refine hold ?_
    have hrow := h.row hrow
    unfold Row at hrow ⊢
    grind
  | lookAndSettle shown hshown hended now h =>
    refine hnew (shown.settle now) shown ?_ rfl ?_
    · exact hshown.elim .live .finished
    · have hrow := h.row hrow
      unfold Row at hrow ⊢
      grind
  | readAndSettle shown hlooking hshown hended now h =>
    refine hnew (shown.settle now) shown (.stored hshown) rfl ?_
    have hrow := h.row hrow
    unfold Row at hrow ⊢
    grind
  | prune old hstored hended left hleft h =>
    have hrow := h.row hrow
    by_cases hput : left = some row
    · obtain ⟨t, rfl⟩ := hleft row hput
      exact ⟨old, .stored hstored, rfl⟩
    · refine hold ?_
      unfold Row at hrow ⊢
      grind

theorem Step.known (h : Step l l') (hknown : l.known) : l'.known := by
  cases h with
  | start new hnew hnewrow h => exact h.known trivial
  | _ => rename_i h; exact h.known hknown

/-- All rows of a job are of one request. -/
theorem Alike.step (hs : l.Alike) (h : Step l l') : l'.Alike := by
  by_cases hk : l.known
  · refine ⟨fun hnot => absurd (h.known hk) hnot, fun row row' hrow hrow' => ?_⟩
    obtain ⟨old, hold, horigin⟩ := h.origin hk hrow
    obtain ⟨old', hold', horigin'⟩ := h.origin hk hrow'
    rw [horigin, horigin']
    exact hs.same old old' hold hold'
  · have hnone := hs.unknown hk
    have hblank : (∀ row, l'.Row row → l.Row row) → l'.Alike := fun hsub =>
      ⟨fun _ row hrow => hnone row (hsub row hrow), fun row _ hrow => absurd (hsub row hrow) (hnone row)⟩
    cases h with
    | stay h => exact hblank fun row hrow => h.row hrow
    | start new hnew hnewrow h =>
      have hone : ∀ row, l'.Row row → row = new := by
        intro row hrow
        have hrow := h.row hrow
        have hold := hnone row
        unfold Row at hrow hold
        grind
      refine ⟨fun hnot => absurd (h.known trivial) hnot, fun row row' hrow hrow' => ?_⟩
      rw [hone row hrow, hone row' hrow']
    | record new hrec h => exact absurd (.inl hrec) (hnone new)
    | takeUp new hrec h => exact absurd (.inr (.inl hrec)) (hnone new)
    | tell hknown' hrecording hrecorded h => exact absurd hknown' hk
    | change old new hlive horigin hended hle hbound h | finish old new hlive horigin hended hbound h =>
      exact absurd (.live hlive) (hnone old)
    | commit written hwrite h => exact absurd (.written ⟨false, hwrite⟩) (hnone written)
    | note noted hwrite hended hfinished h => exact absurd (.written ⟨true, hwrite⟩) (hnone noted)
    | look shown hshown h | lookAndSettle shown hshown hended now h =>
      exact absurd (hshown.elim .live .finished) (hnone shown)
    | miss htold hlive hfinished h => exact hblank fun row hrow => h.row hrow
    | read shown hlooking hshown h | readAndSettle shown hlooking hshown hended now h =>
      exact absurd (.stored hshown) (hnone shown)
    | prune old hstored hended left hleft h => exact absurd (.stored hstored) (hnone old)

theorem Step.stored_eq_none (h : Step l l') (hrecording : l.recording = ∅) (hstored : l.stored = none) :
    l'.stored = none := by
  cases h with
  | record new hrec h =>
    rw [hrecording] at hrec
    nomatch hrec
  | commit written hwrite h =>
    refine h.stored.trans ?_
    change put l.stored written = none
    rw [hstored]
    rfl
  | prune old hold hended left hleft h => nomatch hstored.symm.trans hold
  | stay h | start new hnew hnewrow h | takeUp new hrec h | tell hknown hrec hrecorded h
  | change old new hlive horigin hended hle hbound h | finish old new hlive horigin hended hbound h
  | note noted hwrite hended hfinished h | look shown hshown h | lookAndSettle shown hshown hended now h
  | miss htold hlive hfinished h | read shown hlooking hshown h
  | readAndSettle shown hlooking hshown hended now h => exact h.stored.trans hstored

end Ledger

/-- No two records kept name one admission of a relay: each is the one the admission's hold names. -/
def Db.Admitted (db : Db) : Prop :=
  ∀ id row a, db.jobs.lookup id = some row → row.admission = some a →
    db.byAdmission.lookup (row.key, a) = some id

section Admissions

variable {db : Db}

theorem Db.Admitted.of_origin {db' : Db} (h : db.Admitted) (hholds : db'.byAdmission = db.byAdmission)
    (hjobs : ∀ id row, db'.jobs.lookup id = some row →
      ∃ old, db.jobs.lookup id = some old ∧ row.origin = old.origin) : db'.Admitted := by
  intro id row a hrow ha
  obtain ⟨old, hold, horigin⟩ := hjobs id row hrow
  simp only [JobRow.origin, Prod.mk.injEq] at horigin
  rw [hholds, horigin.1]
  exact h id old a hold (horigin.2.2 ▸ ha)

theorem Db.Admitted.dropJob (h : db.Admitted) (now : ℕ) (id : String) : (dropJob now db id).Admitted := by
  unfold Db.dropJob
  cases hrow : db.jobs.lookup id with
  | none => exact h
  | some dropped =>
    dsimp only
    split_ifs
    · intro id' row a hrow' ha
      dsimp only at hrow' ⊢
      rw [Table.lookup_erase_ite] at hrow'
      split_ifs at hrow' with hid
      have hhold := h id' row a hrow' ha
      cases hadm : dropped.admission with
      | none => exact hhold
      | some b =>
        change (db.byAdmission.erase (dropped.key, b)).lookup (row.key, a) = some id'
        rw [Table.lookup_erase_ite]
        split_ifs with hsame
        · rw [hsame, h id dropped b hrow hadm] at hhold
          exact absurd (Option.some.inj hhold).symm hid
        · exact hhold
    · exact h

theorem Db.Admitted.pruneJobs (h : db.Admitted) (now : ℕ) (dropped expired : List String) :
    (db.pruneJobs now dropped expired).Admitted := by
  have hdrop : (dropped.foldl (Db.dropJob now) db).Admitted := by
    induction dropped generalizing db with
    | nil => exact h
    | cons first rest ih => exact ih (h.dropJob now first)
  refine hdrop.of_origin rfl fun id row hrow => ?_
  rcases Db.lookup_expireJobs now expired (dropped.foldl (Db.dropJob now) db).jobs id with
    hsame | ⟨old, t, hold, -, hexpired⟩
  · exact ⟨row, hsame ▸ hrow, rfl⟩
  · exact ⟨old, hold, by rw [← Option.some.inj (hexpired.symm.trans hrow)]; rfl⟩

/-- A submission keeps each admission one job's. -/
theorem Db.Admitted.submitJob (h : db.Admitted) (id : String) (row : JobRow) (digest : String) (now : ℕ) :
    (db.submitJob id row digest now).2.Admitted := by
  rcases db.submitJob_cases id row digest now with ⟨-, hsame, -⟩ | ⟨-, -, hfree, hdb⟩
  · rw [hsame]
    exact h
  · rw [hdb]
    intro id' row' a hrow ha
    change (db.jobs.insert id row).lookup id' = some row' at hrow
    rw [Table.lookup_insert_ite] at hrow
    change (row.admission.elim db.byAdmission fun a => db.byAdmission.insert (row.key, a) id).lookup
      (row'.key, a) = some id'
    split_ifs at hrow with hid
    · cases hrow
      rw [ha, hid]
      exact AList.lookup_insert _
    · have hhold := h id' row' a hrow ha
      cases hadm : row.admission with
      | none => exact hhold
      | some b =>
        change (db.byAdmission.insert (row.key, b) id).lookup (row'.key, a) = some id'
        rw [Table.lookup_insert_ite]
        split_ifs with hsame
        · rw [hsame, hfree b hadm] at hhold
          nomatch hhold
        · exact hhold

end Admissions

namespace Service

/-- Each job's rows are alike, and no two records name one admission. -/
structure Owned (s : Service) : Prop where
  alike : ∀ id, (s.ledger id).Alike
  admitted : s.db.Admitted

variable {normalize : String → Option String} {s s' : Service}

theorem Owned.attemptStep (hs : s.Owned) {i : ℕ} {a : Attempt} {event : AttemptEvent}
    (h : AttemptStep s s' i a event) : s'.db.Admitted := by
  have hsame : s'.db = s.db → s'.db.Admitted := fun h => h ▸ hs.admitted
  cases h with
  | quiet a' h hevent => exact hs.admitted.of_origin h.holds fun id row hrow => ⟨row, h.jobs ▸ hrow, rfl⟩
  | start id admission seen hstage halive hnew h | miss id hstage halive hrow h => exact hsame (by rw [h]; rfl)
  | record id row hstage h =>
    rw [h, submitted, goOn_eq]
    exact hs.admitted.submitJob id row a.ask.digest a.now
  | resume id row submitted hstage halive h =>
    refine hsame ((congrArg Service.db h).trans ?_)
    cases submitted <;> rfl
  | view id row hstage halive hrow h =>
    exact hsame ((congrArg Service.db h).trans (db_answerAgain s i a id (some row)))
  | read id hstage halive h => exact hsame ((congrArg Service.db h).trans (db_answerAgain s i a id _))

theorem Owned.commit (hs : s.Owned) {w : Write} (hw : w ∈ s.writes) :
    ({ s.db with jobs := putJob s.db.jobs w.id w.row } : Db).Admitted := by
  refine hs.admitted.of_origin rfl fun id row hrow => ?_
  rcases lookup_putJob s.db.jobs w.id w.row id with hsame | ⟨rfl, stored, hstored, -, hput⟩
  · exact ⟨row, hsame.symm.trans hrow, rfl⟩
  · refine ⟨stored, hstored, ?_⟩
    rw [← Option.some.inj (hput.symm.trans hrow)]
    exact (hs.alike w.id).same w.row stored (.written ⟨w.done, w, hw, rfl, rfl⟩) (.stored hstored)

/-- Jobs and admissions keep their owners through every step. -/
theorem Owned.step (hs : s.Owned) (hserved : s.Served) {e : ServiceEvent}
    (h : s.step normalize e = some s') : s'.Owned := by
  refine ⟨fun id => (hs.alike id).step (ledger_step hserved h id), ?_⟩
  have hsame : s'.db.byAdmission = s.db.byAdmission → s'.db.jobs = s.db.jobs → s'.db.Admitted :=
    fun hholds hjobs => hs.admitted.of_origin hholds fun id row hrow => ⟨row, hjobs ▸ hrow, rfl⟩
  cases e with
  | begin ask =>
    cases h
    unfold Service.begin
    split_ifs <;> exact hs.admitted
  | attempt i event =>
    simp only [Service.step] at h
    split at h
    · exact hs.attemptStep (attemptStep_of_step h)
    · cases h
  | job event =>
    rcases (jobsFrame_of_step h).db with hdb | ⟨w, hw, hdb⟩ | ⟨dropped, expired, hdb⟩
    · rw [hdb]
      exact hs.admitted
    · rw [hdb]
      exact hs.commit hw
    · rw [hdb]
      exact hs.admitted.pruneJobs s.clock dropped expired
  | decide gitlab id state path =>
    cases h
    have hframe : (s.db.decideProject gitlab id state path).byAdmission = s.db.byAdmission ∧
        (s.db.decideProject gitlab id state path).jobs = s.db.jobs := by
      unfold Db.decideProject
      dsimp only
      split_ifs <;> exact ⟨rfl, rfl⟩
    exact hsame hframe.1 hframe.2
  | reserve request digest =>
    cases h
    obtain ⟨hjobs, hholds, -⟩ := Db.recordRequest_frame s.db request ⟨s.clock, digest, .reservation⟩
    exact hsame hholds hjobs
  | _ =>
    cases h
    exact hs.admitted

theorem Recovered.owned (h : s.Recovered) : s.Owned :=
  ⟨fun id => ⟨fun hnew => ((h.sound id).unknown hnew).2, (h.sound id).coherent.origin⟩, h.admissions⟩

end Service

end Virtkit.Jobs
