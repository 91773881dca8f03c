import Virtkit.Jobs.SimulationRuns

/-!
# A job's view never goes back

From a start on every job is sound, as long as a job's end raises its revision: so what is seen of a job
never goes back, whether its row is live, waits to be written or is read from the database, and in
whichever order its rows are written.
-/

namespace Virtkit.Jobs

open Virtkit.Common Option

namespace Ledger

variable {l l' : Ledger}

/-- A job's record goes back to no earlier revision. -/
theorem Sound.stored_le (hs : l.Sound) (hstep : Step l l') {row row' : JobRow}
    (hrow : l.stored = some row) (hrow' : l'.stored = some row') : row.revision ≤ row'.revision := by
  have hkept : l'.stored = l.stored → row.revision ≤ row'.revision := by
    intro h
    obtain rfl := some.inj (hrow.symm.trans (h.symm.trans hrow'))
    exact Nat.le_refl _
  cases hstep with
  | stay h | start row hnew hnewrow h => exact hkept h.stored
  | record new hnew h => nomatch hrow.symm.trans (hs.recording new hnew).2.1
  | takeUp new hnew h | tell hknown hrecording hrecorded h | change old new hlive horigin hended hle hbound h
  | finish old new hlive horigin hended hbound h => exact hkept h.stored
  | commit written hwrite h =>
    obtain ⟨old, hold, hle, -⟩ := put_cases (h.stored.symm.trans hrow')
    obtain rfl := some.inj (hrow.symm.trans hold)
    exact hle
  | note noted hwrite hended hfinished h | look shown hshown h | lookAndSettle shown hshown hended now h
  | miss htold hlive hfinished h | read shown hlooking hshown h
  | readAndSettle shown hlooking hshown hended now h => exact hkept h.stored
  | prune old hold hended left hleft h =>
    obtain ⟨t, rfl⟩ := hleft row' (h.stored.symm.trans hrow')
    obtain rfl := some.inj (hrow.symm.trans hold)
    exact Nat.le_refl _

/-- A job is over for good since a record: nothing of it is made or taken up again, and what is stored
is the record, or a later one of the job that is over as well. -/
structure Over (since : JobRow) (l : Ledger) : Prop where
  known : l.known
  gone : l.recording = ∅ ∧ l.recorded = ∅ ∧ l.live = none
  stored : ∀ row, l.stored = some row →
    row.ended = true ∧ since.revision ≤ row.revision ∧ row.origin = since.origin

/-- A job whose record is over is over for good. -/
theorem Sound.over (hs : l.Sound) {row : JobRow} (hrow : l.stored = some row) (hended : row.ended = true) :
    l.Over row := by
  refine ⟨?_, ⟨?_, ?_, ?_⟩, fun row' hrow' => ?_⟩
  · by_contra hnew
    exact (hs.unknown hnew).2 row (.stored hrow)
  · refine Set.eq_empty_of_forall_notMem fun y hy => ?_
    cases hrow.symm.trans (hs.recording y hy).2.1
  · refine Set.eq_empty_of_forall_notMem fun y hy => ?_
    obtain ⟨-, hy, -, hopen⟩ := hs.recorded y hy
    cases hrow.symm.trans hy
    cases hopen.symm.trans hended
  · cases hlive : l.live with
    | none => rfl
    | some y => cases ((hs.live y hlive).2.2 row (.stored hrow)).1.symm.trans hended
  · cases hrow.symm.trans hrow'
    exact ⟨hended, le_refl _, rfl⟩

theorem Over.same {since : JobRow} (hsame : Same l l') (h : l.Over since) : l'.Over since where
  known := hsame.known h.known
  gone := ⟨Set.subset_empty_iff.mp (h.gone.1 ▸ hsame.recording),
    Set.subset_empty_iff.mp (h.gone.2.1 ▸ hsame.recorded), hsame.live.trans h.gone.2.2⟩
  stored row hrow := h.stored row (hsame.stored ▸ hrow)

/-- A job that is over stays so. -/
theorem Over.step {since : JobRow} (h : l.Over since) (hs : l.Sound) (hstep : Step l l') : l'.Over since := by
  obtain ⟨hknown, ⟨hrecording, hrecorded, hlive⟩, hstored⟩ := id h
  cases hstep with
  | stay hsame => exact .same hsame h
  | start row hnew hrow hsame => exact absurd hknown hnew
  | record row hrow hsame => cases hrecording ▸ hrow
  | takeUp row hrow hsame => cases hrecorded ▸ hrow
  | change row row' hrow horigin hended hle hbound hsame => cases hlive.symm.trans hrow
  | finish row row' hrow horigin hended hbound hsame => cases hlive.symm.trans hrow
  | commit row hwrite hsame =>
    refine .same hsame ⟨hknown, h.gone, fun new hnew => ?_⟩
    obtain ⟨old, hold, hle, -, hcase⟩ := put_cases hnew
    obtain ⟨hended, hrev, horigin⟩ := hstored old hold
    rcases hcase with rfl | ⟨hor, hend, hsameRev⟩
    · exact ⟨hended, hrev, horigin⟩
    · have hrow : l.Row row := .written ⟨false, hwrite⟩
      refine ⟨?_, hrev.trans hle, hor.trans ((hs.coherent.origin row old hrow (.stored hold)).trans horigin)⟩
      -- A row that is not over is older than the one stored, which the write would not replace.
      by_contra hopen
      rw [hend, Bool.not_eq_true] at hopen
      have := hs.coherent.order row old hrow (.stored hold) hopen hended
      omega
  | prune row hrow hended left hleft hsame =>
    refine .same hsame ⟨hknown, h.gone, fun new hnew => ?_⟩
    obtain ⟨at_, rfl⟩ := hleft new hnew
    exact hstored row hrow
  | tell _ _ _ hsame | note _ _ _ _ hsame | look _ _ hsame | lookAndSettle _ _ _ _ hsame
  | miss _ _ _ hsame | read _ _ _ hsame | readAndSettle _ _ _ _ _ hsame =>
    exact .same hsame ⟨hknown, h.gone, hstored⟩

end Ledger

namespace Service

/-- A job that ends raises its revision. -/
def Raises (s s' : Service) : Prop :=
  ∀ id row row', s.live.lookup id = some row → s'.finished.lookup id = some row' → row.revision < row'.revision

section Runs

variable {normalize : String → Option String} {s s' : Service}

/-- After a start a job has a record, and a live row of it if it is not over. -/
theorem Recovered.rows_of (h : s.Recovered) (id : String) : s.live.lookup id = none ∧
      (∀ row, s.db.jobs.lookup id = some row → row.revision ≤ u64Max) ∨
    ∃ row stored, s.live.lookup id = some row ∧ s.db.jobs.lookup id = some stored ∧
      stored.ended = false ∧ stored.revision ≤ u64Max ∧ row.ended = false ∧
      row.origin = stored.origin ∧ row.revision = stored.revision := by
  obtain ⟨jobs, len, now, hbound, heq⟩ := h.rows
  obtain ⟨hjobs, hlive⟩ := Prod.mk.inj heq
  rw [hjobs, hlive, Table.lookup_mapValues, Table.lookup_mapValues, Table.lookup_retain]
  cases hrow : jobs.lookup id with
  | none => exact .inl ⟨rfl, fun _ h => nomatch h⟩
  | some row =>
    have hrev := hbound id row hrow
    by_cases hcarries : row.carriesOn = true
    · have hended : row.ended = false := by
        rw [JobRow.carriesOn, Bool.and_eq_true, decide_eq_true_eq] at hcarries
        rw [JobRow.ended, hcarries.1]
        rfl
      refine .inr ⟨{ row with outputLen := len id }, row, ?_, ?_, hended, hrev, hended, rfl, rfl⟩
      · simp [hcarries]
      · simp [hcarries]
    · refine .inl ⟨by simp [hcarries], fun stored hstored => ?_⟩
      simp only [map_some, some.injEq] at hstored
      subst hstored
      split_ifs
      · exact hrev
      · exact Nat.min_le_right _ _

/-- After a start every job is sound. -/
theorem Recovered.sound (h : s.Recovered) (id : String) : (s.ledger id).Sound := by
  obtain ⟨hfinished, -, hattempts, hwrites, hviews⟩ := h.idle
  have hblank : (s.ledger id).recording = ∅ ∧ (s.ledger id).recorded = ∅ ∧
      (s.ledger id).finished = none ∧ (s.ledger id).writes = ∅ ∧ ¬ (s.ledger id).looking ∧
      (s.ledger id).seen = [] := by
    simp [ledger, hfinished, hattempts, hwrites, hviews, h.history.1]
  obtain ⟨hrecording, hrecorded, hfinished, hwrites, hlooking, hseen⟩ := hblank
  have hrows : ∀ row, (s.ledger id).Row row → (s.ledger id).live = some row ∨ (s.ledger id).stored = some row := by
    intro row hrow
    unfold Ledger.Row at hrow
    rw [hrecording, hrecorded, hfinished, hwrites, hseen] at hrow
    simpa using hrow
  -- Its rows: only the record, or a record that is not over with the live row of the same revision.
  have hcoherent : Ledger.Coherent (s.ledger id).Row ∧ ∀ row, (s.ledger id).live = some row →
      ∀ row', (s.ledger id).Row row' → row'.ended = false ∧ row'.revision ≤ row.revision := by
    rcases h.rows_of id with ⟨hlive, hbound⟩ | ⟨row, stored, hlive, hstored, hended, hrev, hlended, horigin, hsame⟩
    · have hone : ∀ row, (s.ledger id).Row row → (s.ledger id).stored = some row := fun row hrow =>
        (hrows row hrow).resolve_left fun hrow => by cases hlive.symm.trans hrow
      refine ⟨⟨fun row hrow => hbound row (hone row hrow), fun row row' hrow hrow' => ?_,
        fun row row' hrow hrow' hopen hover => ?_⟩, fun row hrow => by cases hlive.symm.trans hrow⟩
      · rw [some.inj ((hone row hrow).symm.trans (hone row' hrow'))]
      · obtain rfl := some.inj ((hone row hrow).symm.trans (hone row' hrow'))
        cases hopen.symm.trans hover
    · have hall : ∀ y, (s.ledger id).Row y → y.ended = false ∧ y.origin = stored.origin ∧
          y.revision = stored.revision := by
        intro y hy
        rcases hrows y hy with hy | hy
        · obtain rfl := some.inj (hlive.symm.trans hy)
          exact ⟨hlended, horigin, hsame⟩
        · obtain rfl := some.inj (hstored.symm.trans hy)
          exact ⟨hended, rfl, rfl⟩
      refine ⟨⟨fun y hy => (hall y hy).2.2 ▸ hrev, fun y z hy hz => ?_, fun y z _ hz _ hover => ?_⟩,
        fun y hy z hz => ⟨(hall z hz).1, ?_⟩⟩
      · rw [(hall y hy).2.1, (hall z hz).2.1]
      · cases (hall z hz).1.symm.trans hover
      · rw [(hall z hz).2.2, (hall y (.live hy)).2.2]
  by_cases htold : id ∈ s.told
  · refine Ledger.sound_of_told ⟨h.told id htold, htold, hrecording, hrecorded⟩ hcoherent.1
      (fun row hrow => ⟨hfinished, hlooking, hcoherent.2 row hrow⟩) ?_ ?_ ?_ ?_
    · intro row hrow
      cases hfinished.symm.trans hrow
    · intro _ _ row hrow
      rw [hseen] at hrow
      cases hrow
    · intro row hrow
      rw [hwrites] at hrow
      cases hrow
    · rw [hseen]
      exact List.Pairwise.nil
  · have hlive : (s.ledger id).live = none := by
      cases hrow : (s.ledger id).live with
      | none => rfl
      | some row => exact absurd (h.known id row hrow) htold
    refine Ledger.sound_of_untold ⟨hlive, hfinished, hwrites, hlooking, hseen⟩ (fun hnew => ?_) ?_ ?_ hcoherent.1
    · refine ⟨htold, fun row hrow => ?_⟩
      rcases hrows row hrow with hrow | hrow
      · cases hlive.symm.trans hrow
      · exact hnew (h.ids.1 id row hrow)
    · intro row hrow
      rw [hrecording] at hrow
      cases hrow
    · intro row hrow
      rw [hrecorded] at hrow
      cases hrow

/-- A hub whose jobs raise their revision as they end. -/
def Orderly (normalize : String → Option String) : System Service ServiceEvent :=
  (serviceSystem normalize).restrict fun s _ s' => s.Raises s'

/-- The attempts keep to their order, and every job is sound. -/
structure Sound (s : Service) : Prop where
  served : s.Served
  ledger : ∀ id, (s.ledger id).Sound

theorem sound_of_reachable (h : (Orderly normalize).Reachable s) : s.Sound :=
  h.invariant (fun _ hinit => ⟨hinit.served, hinit.sound⟩) fun _ _ _ hs hstep =>
    ⟨hs.served.step hstep.1, fun id => (hs.ledger id).step (ledger_step hs.served hstep.1 id) (hstep.2 id)⟩

/-- What is seen of a job has no earlier revision than what was seen before, and is over if that was;
and no step takes a job's record back to an earlier revision. -/
theorem views_never_go_back (normalize : String → Option String) {s : Service}
    (h : (Orderly normalize).Reachable s) :
    (s.seen.Pairwise fun later earlier => later.1 = earlier.1 →
      earlier.2.revision ≤ later.2.revision ∧ (earlier.2.ended = true → later.2.ended = true)) ∧
    ∀ event s', (Orderly normalize).step s event s' → ∀ id row row',
      s.db.jobs.lookup id = some row → s'.db.jobs.lookup id = some row' →
      row.revision ≤ row'.revision := by
  obtain ⟨hserved, hsound⟩ := sound_of_reachable h
  refine ⟨pairwise_of_keys fun id => (hsound id).sorted, fun event s' hstep id row row' hrow hrow' => ?_⟩
  exact (hsound id).stored_le (ledger_step hserved hstep.1 id) hrow hrow'

/-- A job whose record is over never comes back: whatever happens later, it is not live, and what is
stored of it is over, no earlier and of the same request. -/
theorem ended_jobs_stay_ended (normalize : String → Option String) {s s' : Service}
    (h : (Orderly normalize).Reachable s) {events : List ServiceEvent} (hrun : (Orderly normalize).Run s events s')
    {id : String} {row : JobRow} (hrow : s.db.jobs.lookup id = some row) (hended : row.ended = true) :
    s'.live.lookup id = none ∧ ∀ row', s'.db.jobs.lookup id = some row' →
      row'.ended = true ∧ row.revision ≤ row'.revision ∧ row'.origin = row.origin := by
  have hkept : ∀ t e t', t.Sound ∧ (t.ledger id).Over row → (Orderly normalize).step t e t' →
      t'.Sound ∧ (t'.ledger id).Over row := by
    rintro t e t' ⟨ht, hover⟩ hstep
    have hledger := ledger_step ht.served hstep.1
    exact ⟨⟨ht.served.step hstep.1, fun i => (ht.ledger i).step (hledger i) (hstep.2 i)⟩,
      hover.step (ht.ledger id) (hledger id)⟩
  have hsound := sound_of_reachable h
  obtain ⟨-, hover⟩ := hrun.invariant hkept ⟨hsound, (hsound.ledger id).over hrow hended⟩
  exact ⟨hover.gone.2.2, hover.stored⟩

/-- The row in memory leads: while a job is live, neither its record nor a row on its way to the database
is over or of a later revision. Once it is no longer in memory, its record is no older than what was seen. -/
theorem memory_leads_record (normalize : String → Option String) {s : Service}
    (h : (Orderly normalize).Reachable s) (id : String) :
    (∀ row, s.live.lookup id = some row → s.finished.lookup id = none ∧ row.ended = false ∧
      ∀ row', s.db.jobs.lookup id = some row' ∨ (∃ w ∈ s.writes, w.id = id ∧ w.row = row') →
        row'.ended = false ∧ row'.revision ≤ row.revision ∧ row'.origin = row.origin) ∧
    (s.live.lookup id = none → s.finished.lookup id = none → ∀ row, s.db.jobs.lookup id = some row →
      ∀ x ∈ s.seen, x.1 = id → x.2.revision ≤ row.revision ∧ (x.2.ended = true → row.ended = true)) := by
  have hs := (sound_of_reachable h).ledger id
  refine ⟨fun row hlive => ?_, fun hlive hfinished row hrow x hx hid => ?_⟩
  · obtain ⟨hfinished, -, hrows⟩ := hs.live row hlive
    refine ⟨hfinished, (hrows row (.live hlive)).1, fun row' hrow' => ?_⟩
    have hrow' : (s.ledger id).Row row' := by
      rcases hrow' with hrow' | ⟨w, hw, hid, rfl⟩
      · exact .stored hrow'
      · exact .written ⟨w.done, w, hw, hid, rfl⟩
    exact ⟨(hrows row' hrow').1, (hrows row' hrow').2, hs.coherent.origin row' row hrow' (.live hlive)⟩
  · exact hs.settled hlive hfinished x.2 (List.mem_map.mpr ⟨x, List.mem_filter.mpr ⟨hx, decide_eq_true hid⟩, rfl⟩)
      row hrow

/-- A hub with one relay, its GitLab server and project approved, at its start. -/
def firstHub : Service :=
  ⟨⟨∅, 0, ∅, ∅, AList.singleton "relay" ⟨some "url", none⟩, [("gitlab", "url")], [],
      AList.singleton ("gitlab", 1) ⟨.approved, "group/project", 0⟩⟩,
    ∅, ∅, [], [], [], [], 0, [], [], [], [], [], []⟩

def firstAsk : Ask := ⟨"relay", "request", "digest", none, ⟨"url", 1, "group/project"⟩⟩

/-- An attempt of it up to its record. -/
def submitting (i : ℕ) (id : String) : List ServiceEvent :=
  [.attempt i .lookup, .attempt i .gateStart, .attempt i .gateRead, .attempt i (.start none id)]

/-- The first submission's job is recorded and taken up. -/
def firstJob : List ServiceEvent :=
  [.begin firstAsk] ++ submitting 0 "job" ++ [.attempt 0 .record, .attempt 0 .resume]

theorem firstHub_recovered : firstHub.Recovered where
  rows := ⟨∅, fun _ => 0, 0, ⟨fun _ _ h => (nomatch h), rfl⟩⟩
  admissions := fun _ _ _ h => nomatch h
  ids := ⟨fun _ _ h => (nomatch h), fun _ _ _ h => (nomatch h)⟩
  told := fun _ h => nomatch h
  known := fun _ _ h => nomatch h
  idle := ⟨rfl, rfl, rfl, rfl, rfl⟩
  history := ⟨rfl, rfl, rfl, rfl⟩

/-- Whether the jobs that end in a step raise their revision. -/
def raises (s s' : Service) : Bool :=
  s.live.entries.all fun e => (s'.finished.lookup e.1).all fun row' => e.2.revision < row'.revision

theorem raises_iff {s s' : Service} (h : s.raises s' = true) : s.Raises s' := by
  intro id row row' hrow hrow'
  have hmem : (⟨id, row⟩ : Sigma fun _ : String => JobRow) ∈ s.live.entries := AList.mem_lookup_iff.mp hrow
  have hall := List.all_eq_true.mp h _ hmem
  rw [hrow'] at hall
  exact of_decide_eq_true hall

/-- A job seen queued, then placed and ended, its rows written the newest first, and seen again. -/
theorem views_never_go_back_overtaken : ∃ s, (Orderly some).Reachable s ∧
    s.seen.map (fun x => (x.2.revision, x.2.ended)) = [(3, true), (1, false)] ∧
    s.seen.Pairwise fun later earlier => later.1 = earlier.1 →
      earlier.2.revision ≤ later.2.revision ∧ (earlier.2.ended = true → later.2.ended = true) := by
  obtain ⟨s, hreach, hseen⟩ : ∃ s, (Orderly some).Reachable s ∧
      s.seen.map (fun x => (x.2.revision, x.2.ended)) = [(3, true), (1, false)] :=
    System.exists_reachable_restrict raises_iff firstHub (firstJob ++
      [.job (.look "relay" "job" false), .job (.change "job" (.placed "node")), .job (.finish "job" none none),
        .job (.commit 1), .job (.commit 0), .job (.note 1), .job (.look "relay" "job" false), .job (.read 0)])
      firstHub_recovered (by decide +kernel)
  exact ⟨s, hreach, hseen, (views_never_go_back some hreach).1⟩

/-- After a job's end is recorded its row of before is written, the request is made again, the job is
seen, and its output is dropped. -/
def afterEnd : List ServiceEvent :=
  [.job (.commit 0), .job (.note 1), .begin firstAsk, .attempt 1 .lookup, .job (.look "relay" "job" false),
    .job (.read 0), .job (.prune [] ["job"])]

/-- The job of the first submission, placed and then ended. -/
theorem ended_jobs_stay_ended_once : ∃ s s' row row', (Orderly some).Reachable s ∧ (Orderly some).Run s afterEnd s' ∧
    s.db.jobs.lookup "job" = some row ∧ row.ended = true ∧ s'.db.jobs.lookup "job" = some row' ∧
    s'.live.lookup "job" = none ∧ row'.ended = true ∧ row.revision ≤ row'.revision ∧ row'.origin = row.origin := by
  obtain ⟨s, s', hreach, hrun, hrow, hrow'⟩ : ∃ s s', (Orderly some).Reachable s ∧
      (Orderly some).Run s afterEnd s' ∧ (s.db.jobs.lookup "job").any (·.ended) = true ∧
      (s'.db.jobs.lookup "job").isSome = true :=
    System.exists_run_restrict raises_iff firstHub (firstJob ++ [.job (.change "job" (.placed "node")),
      .job (.finish "job" none none), .job (.commit 1)]) afterEnd firstHub_recovered (by decide +kernel)
  obtain ⟨row, hrow, hended⟩ := (any_eq_true _ _).mp hrow
  obtain ⟨row', hrow'⟩ := isSome_iff_exists.mp hrow'
  obtain ⟨hlive, hstored⟩ := ended_jobs_stay_ended some hreach hrun hrow hended
  exact ⟨s, s', row, row', hreach, hrun, hrow, hended, hrow', hlive, hstored row' hrow'⟩

/-- The job of the first submission, seen and then placed, with that row on its way to the database; and later
seen ended, and out of memory. -/
theorem memory_leads_record_once :
    (∃ s row w, (Orderly some).Reachable s ∧ s.live.lookup "job" = some row ∧ w ∈ s.writes ∧ w.id = "job" ∧
      s.seen ≠ [] ∧ s.finished.lookup "job" = none ∧ w.row.ended = false ∧ w.row.revision ≤ row.revision) ∧
    ∃ s row x, (Orderly some).Reachable s ∧ s.db.jobs.lookup "job" = some row ∧ x ∈ s.seen ∧ x.2.ended = true ∧
      x.2.revision ≤ row.revision ∧ row.ended = true := by
  constructor
  · obtain ⟨s, hreach, hrow, hwrite, hseen⟩ : ∃ s, (Orderly some).Reachable s ∧
        (s.live.lookup "job").isSome = true ∧ (∃ w ∈ s.writes, w.id = "job") ∧ s.seen.isEmpty = false :=
      System.exists_reachable_restrict raises_iff firstHub (firstJob ++ [.job (.look "relay" "job" false),
        .job (.change "job" (.placed "node"))]) firstHub_recovered (by decide +kernel)
    obtain ⟨row, hrow⟩ := isSome_iff_exists.mp hrow
    obtain ⟨w, hw, hid⟩ := hwrite
    obtain ⟨hfinished, -, hrows⟩ := (memory_leads_record some hreach "job").1 row hrow
    obtain ⟨hopen, hle, -⟩ := hrows w.row (.inr ⟨w, hw, hid, rfl⟩)
    exact ⟨s, row, w, hreach, hrow, hw, hid, List.isEmpty_eq_false_iff.mp hseen, hfinished, hopen, hle⟩
  · obtain ⟨s, hreach, hlive, hfinished, hrow, x, hx, hid, hended⟩ : ∃ s, (Orderly some).Reachable s ∧
        (s.live.lookup "job").isNone = true ∧ (s.finished.lookup "job").isNone = true ∧
        (s.db.jobs.lookup "job").isSome = true ∧ ∃ x ∈ s.seen, x.1 = "job" ∧ x.2.ended = true :=
      System.exists_reachable_restrict raises_iff firstHub (firstJob ++ [.job (.finish "job" none none),
        .job (.look "relay" "job" false), .job (.commit 0), .job (.note 0)]) firstHub_recovered (by decide +kernel)
    obtain ⟨row, hrow⟩ := isSome_iff_exists.mp hrow
    obtain ⟨hle, hover⟩ := (memory_leads_record some hreach "job").2 (isNone_iff_eq_none.mp hlive)
      (isNone_iff_eq_none.mp hfinished) row hrow x hx hid
    exact ⟨s, row, x, hreach, hrow, hx, hended, hle, hover hended⟩

end Runs

end Service

end Virtkit.Jobs
