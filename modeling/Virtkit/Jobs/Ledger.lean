import Virtkit.Jobs.Record

/-!
# One job's record

What the hub holds of one job, wherever it is: the record being made of it, its row live, finished or
stored, the rows being written, whether it is being looked for in the database, and the rows seen of
it. `Ledger.Step` says what can happen to it, and `Ledger.Sound` what holds throughout: a row that is
not over has an earlier revision than one that is, and what was seen is no later than where the job is
looked for next.
-/

namespace Virtkit.Jobs

open Virtkit.Common

/-- What the hub holds of one job. -/
structure Ledger where
  known : Prop
  told : Prop
  recording : Set JobRow
  recorded : Set JobRow
  live : Option JobRow
  finished : Option JobRow
  stored : Option JobRow
  writes : Set (JobRow × Bool)
  looking : Prop
  seen : List JobRow

namespace Ledger

def Row (l : Ledger) (row : JobRow) : Prop :=
  row ∈ l.recording ∨ row ∈ l.recorded ∨ l.live = some row ∨ l.finished = some row ∨
    l.stored = some row ∨ (∃ done, (row, done) ∈ l.writes) ∨ row ∈ l.seen

section Rows

variable {l : Ledger} {row : JobRow}

theorem Row.live (h : l.live = some row) : l.Row row := .inr (.inr (.inl h))

theorem Row.finished (h : l.finished = some row) : l.Row row := .inr (.inr (.inr (.inl h)))

theorem Row.stored (h : l.stored = some row) : l.Row row := .inr (.inr (.inr (.inr (.inl h))))

theorem Row.written (h : ∃ done, (row, done) ∈ l.writes) : l.Row row := .inr (.inr (.inr (.inr (.inr (.inl h)))))

theorem Row.seen (h : row ∈ l.seen) : l.Row row := .inr (.inr (.inr (.inr (.inr (.inr h)))))

end Rows

/-- Rows of one job: of one origin, with revisions of their type, those that are not over before those
that are. -/
structure Coherent (rows : JobRow → Prop) : Prop where
  bound : ∀ row, rows row → row.revision ≤ u64Max
  origin : ∀ row row', rows row → rows row' → row.origin = row'.origin
  order : ∀ row row', rows row → rows row' → row.ended = false → row'.ended = true →
    row.revision < row'.revision

/-- A row seen later is no older, and over if an earlier one was. -/
def Later (later earlier : JobRow) : Prop :=
  earlier.revision ≤ later.revision ∧ (earlier.ended = true → later.ended = true)

/-- Nothing is held but what was: records, writes and looks may have come to an end. -/
structure Same (l l' : Ledger) : Prop where
  known : l.known → l'.known
  told : l'.told ↔ l.told
  recording : l'.recording ⊆ l.recording
  recorded : l'.recorded ⊆ l.recorded
  live : l'.live = l.live
  finished : l'.finished = l.finished
  stored : l'.stored = l.stored
  writes : l'.writes ⊆ l.writes
  looking : l'.looking → l.looking
  seen : l'.seen = l.seen

theorem Same.looks {l l' : Ledger} {looking : Prop} (h : Same { l with looking } l')
    (hlook : looking → l.looking) : Same l l' :=
  ⟨h.known, h.told, h.recording, h.recorded, h.live, h.finished, h.stored, h.writes, hlook ∘ h.looking, h.seen⟩

/-- What a write leaves stored. -/
def put (stored : Option JobRow) (row : JobRow) : Option JobRow :=
  stored.map fun old =>
    if old.revision ≤ row.revision then { row with expiredAt := row.expiredAt.or old.expiredAt }
    else old

/-- What can happen to a job. -/
inductive Step (l l' : Ledger) : Prop where
  | stay (h : Same l l')
  | start (row : JobRow) (hnew : ¬ l.known) (hrow : row.ended = false ∧ row.revision ≤ u64Max)
      (h : Same { l with known := True, recording := {row} } l')
  | record (row : JobRow) (hrow : row ∈ l.recording)
      (h : Same { l with recording := ∅, recorded := {row}, stored := some row } l')
  | takeUp (row : JobRow) (hrow : row ∈ l.recorded)
      (h : Same { l with recorded := ∅, told := True, live := some row } l')
  | tell (hknown : l.known) (hrecording : l.recording = ∅) (hrecorded : l.recorded = ∅)
      (h : Same { l with told := True } l')
  | change (row row' : JobRow) (hlive : l.live = some row) (horigin : row'.origin = row.origin)
      (hended : row.ended = false → row'.ended = false)
      (hle : row.revision ≤ u64Max → row.revision ≤ row'.revision)
      (hbound : row.revision ≤ u64Max → row'.revision ≤ u64Max)
      (h : Same { l with live := some row', writes := insert (row', false) l.writes } l')
  | finish (row row' : JobRow) (hlive : l.live = some row) (horigin : row'.origin = row.origin)
      (hended : row'.ended = true)
      (hbound : row'.revision ≤ u64Max)
      (h : Same { l with
        live := none, finished := some row', writes := insert (row', false) l.writes } l')
  | commit (row : JobRow) (hwrite : (row, false) ∈ l.writes)
      (h : Same { l with stored := put l.stored row, writes := insert (row, true) l.writes } l')
  | note (row : JobRow) (hwrite : (row, true) ∈ l.writes) (hended : row.ended = true)
      (hfinished : ∀ row', l.finished = some row' → row'.revision ≤ row.revision)
      (h : Same { l with finished := none } l')
  | look (row : JobRow) (hrow : l.live = some row ∨ l.finished = some row)
      (h : Same { l with seen := row :: l.seen } l')
  | lookAndSettle (row : JobRow) (hrow : l.live = some row ∨ l.finished = some row)
      (hended : row.ended = true) (now : ℕ)
      (h : Same { l with
        seen := row :: l.seen, writes := insert (row.settle now, false) l.writes } l')
  | miss (htold : l.told) (hlive : l.live = none) (hfinished : l.finished = none)
      (h : Same { l with looking := True } l')
  | read (row : JobRow) (hlooking : l.looking) (hrow : l.stored = some row)
      (h : Same { l with seen := row :: l.seen } l')
  | readAndSettle (row : JobRow) (hlooking : l.looking) (hrow : l.stored = some row)
      (hended : row.ended = true) (now : ℕ)
      (h : Same { l with
        seen := row :: l.seen, writes := insert (row.settle now, false) l.writes } l')
  | prune (row : JobRow) (hrow : l.stored = some row) (hended : row.ended = true)
      (left : Option JobRow) (hleft : ∀ row', left = some row' → ∃ at_, row' = { row with expiredAt := at_ })
      (h : Same { l with stored := left } l')

/-- What holds of a job throughout. -/
structure Sound (l : Ledger) : Prop where
  unknown : ¬ l.known → ¬ l.told ∧ ∀ row, ¬ l.Row row
  untold : ¬ l.told → l.live = none ∧ l.finished = none ∧ l.writes = ∅ ∧ ¬ l.looking ∧ l.seen = []
  recording : ∀ row ∈ l.recording, ¬ l.told ∧ l.stored = none ∧ l.recorded = ∅ ∧ l.recording ⊆ {row} ∧
    row.ended = false
  recorded : ∀ row ∈ l.recorded, ¬ l.told ∧ l.stored = some row ∧ l.recording = ∅ ∧ row.ended = false
  coherent : Coherent l.Row
  live : ∀ row, l.live = some row → l.finished = none ∧ ¬ l.looking ∧
    ∀ row', l.Row row' → row'.ended = false ∧ row'.revision ≤ row.revision
  finished : ∀ row, l.finished = some row → row.ended = true ∧ ¬ l.looking ∧
    ∀ row' ∈ l.seen, row'.revision ≤ row.revision
  settled : l.live = none → l.finished = none → ∀ row ∈ l.seen, ∀ row', l.stored = some row' → Later row' row
  committed : ∀ row, (row, true) ∈ l.writes → ∀ row', l.stored = some row' → row.revision ≤ row'.revision
  sorted : l.seen.Pairwise Later

section Coherent

variable {rows rows' : JobRow → Prop}

/-- Rows that are alike but in what is not compared stay coherent. -/
theorem Coherent.alike (h : Coherent rows) (hsub : ∀ row', rows' row' → ∃ row, rows row ∧
    row'.origin = row.origin ∧ row'.ended = row.ended ∧ row'.revision = row.revision) : Coherent rows' := by
  refine ⟨fun row hrow => ?_, fun row row' hrow hrow' => ?_, fun row row' hrow hrow' hlive hended => ?_⟩
  · obtain ⟨old, hold, -, -, hrev⟩ := hsub row hrow
    rw [hrev]
    exact h.bound old hold
  · obtain ⟨old, hold, horigin, -⟩ := hsub row hrow
    obtain ⟨old', hold', horigin', -⟩ := hsub row' hrow'
    rw [horigin, horigin']
    exact h.origin old old' hold hold'
  · obtain ⟨old, hold, -, hend, hrev⟩ := hsub row hrow
    obtain ⟨old', hold', -, hend', hrev'⟩ := hsub row' hrow'
    rw [hrev, hrev']
    exact h.order old old' hold hold' (hend.symm.trans hlive) (hend'.symm.trans hended)

theorem Coherent.mono (h : Coherent rows) (hsub : ∀ row, rows' row → rows row) : Coherent rows' :=
  h.alike fun row hrow => ⟨row, hsub row hrow, rfl, rfl, rfl⟩

/-- A row may be added if it agrees with those there. -/
theorem Coherent.add (h : Coherent rows) {row : JobRow} (hbound : row.revision ≤ u64Max)
    (horigin : ∀ old, rows old → row.origin = old.origin)
    (hbefore : ∀ old, rows old → old.ended = false → row.ended = true → old.revision < row.revision)
    (hafter : ∀ old, rows old → row.ended = false → old.ended = true → row.revision < old.revision) :
    Coherent fun row' => rows row' ∨ row' = row := by
  refine ⟨?_, ?_, ?_⟩
  · rintro row' (hold | rfl)
    · exact h.bound row' hold
    · exact hbound
  · rintro a b (ha | rfl) (hb | rfl)
    · exact h.origin a b ha hb
    · exact (horigin a ha).symm
    · exact horigin b hb
    · rfl
  · rintro a b (ha | rfl) (hb | rfl) hlive hended
    · exact h.order a b ha hb hlive hended
    · exact hbefore a ha hlive hended
    · exact hafter b hb hlive hended
    · rw [hlive] at hended
      nomatch hended

end Coherent

section Steps

variable {l l' : Ledger}

theorem Same.row (h : Same l l') {row : JobRow} (hrow : l'.Row row) : l.Row row := by
  rcases hrow with hrow | hrow | hrow | hrow | hrow | ⟨done, hrow⟩ | hrow
  · exact .inl (h.recording hrow)
  · exact .inr (.inl (h.recorded hrow))
  · exact .live (h.live ▸ hrow)
  · exact .finished (h.finished ▸ hrow)
  · exact .stored (h.stored ▸ hrow)
  · exact .written ⟨done, h.writes hrow⟩
  · exact .seen (h.seen ▸ hrow)

/-- Nothing that soundness needs has changed. -/
theorem Sound.same (hs : l.Sound) (h : Same l l') : l'.Sound := by
  refine ⟨fun hnew => ?_, fun htold => ?_, fun row hrow => ?_, fun row hrow => ?_,
    hs.coherent.mono fun row hrow => h.row hrow, fun row hrow => ?_, fun row hrow => ?_,
    fun hlive hfinished row hrow row' hrow' => ?_, fun row hrow row' hrow' => ?_, ?_⟩
  · obtain ⟨htold, hrows⟩ := hs.unknown fun hknown => hnew (h.known hknown)
    exact ⟨fun ht => htold (h.told.mp ht), fun row hrow => hrows row (h.row hrow)⟩
  · obtain ⟨hlive, hfinished, hwrites, hlooking, hseen⟩ := hs.untold fun ht => htold (h.told.mpr ht)
    refine ⟨h.live.trans hlive, h.finished.trans hfinished, ?_, fun hl => hlooking (h.looking hl), h.seen.trans hseen⟩
    exact Set.subset_empty_iff.mp (hwrites ▸ h.writes)
  · obtain ⟨htold, hstored, hrecorded, hone, hended⟩ := hs.recording row (h.recording hrow)
    exact ⟨fun ht => htold (h.told.mp ht), h.stored.trans hstored,
      Set.subset_empty_iff.mp (hrecorded ▸ h.recorded), h.recording.trans hone, hended⟩
  · obtain ⟨htold, hstored, hrecording, hended⟩ := hs.recorded row (h.recorded hrow)
    exact ⟨fun ht => htold (h.told.mp ht), h.stored.trans hstored,
      Set.subset_empty_iff.mp (hrecording ▸ h.recording), hended⟩
  · obtain ⟨hfinished, hlooking, hrows⟩ := hs.live row (h.live ▸ hrow)
    exact ⟨h.finished.trans hfinished, fun hl => hlooking (h.looking hl), fun row' hrow' => hrows row' (h.row hrow')⟩
  · obtain ⟨hended, hlooking, hseen⟩ := hs.finished row (h.finished ▸ hrow)
    exact ⟨hended, fun hl => hlooking (h.looking hl), fun row' hrow' => hseen row' (h.seen ▸ hrow')⟩
  · exact hs.settled (h.live ▸ hlive) (h.finished ▸ hfinished) row (h.seen ▸ hrow) row' (h.stored ▸ hrow')
  · exact hs.committed row (h.writes hrow) row' (h.stored ▸ hrow')
  · rw [h.seen]
    exact hs.sorted

end Steps

end Ledger

end Virtkit.Jobs
