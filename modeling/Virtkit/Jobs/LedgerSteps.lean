import Virtkit.Jobs.Ledger

/-!
# What can happen to a job keeps its record in order

Each kind of step keeps `Ledger.Sound`. A job's rows are added in order: the changes of a live job raise
its revision, its end comes after all of them, and settling it after its end. A finished job leaves the
memory only after the database has handled a row that is at least as new.
-/

namespace Virtkit.Jobs.Ledger

open Virtkit.Common Option Bool

section Steps

variable {l l' : Ledger} {row row' : JobRow}

theorem sound_of_untold (hblank : l.live = none ∧ l.finished = none ∧ l.writes = ∅ ∧ ¬ l.looking ∧
      l.seen = []) (hunknown : ¬ l.known → ¬ l.told ∧ ∀ row, ¬ l.Row row)
    (hrecording : ∀ row ∈ l.recording, ¬ l.told ∧ l.stored = none ∧ l.recorded = ∅ ∧
      l.recording ⊆ {row} ∧ row.ended = false)
    (hrecorded : ∀ row ∈ l.recorded, ¬ l.told ∧ l.stored = some row ∧ l.recording = ∅ ∧
      row.ended = false) (hcoherent : Coherent l.Row) : l.Sound := by
  obtain ⟨hlive, hfinished, hwrites, hlooking, hseen⟩ := hblank
  refine ⟨hunknown, fun _ => ⟨hlive, hfinished, hwrites, hlooking, hseen⟩, hrecording, hrecorded,
    hcoherent, ?_, ?_, ?_, ?_, ?_⟩
  · intro y hy
    rw [hlive] at hy
    nomatch hy
  · intro y hy
    rw [hfinished] at hy
    nomatch hy
  · intro _ _ y hy
    rw [hseen] at hy
    nomatch hy
  · intro y hy
    rw [hwrites] at hy
    nomatch hy
  · rw [hseen]
    exact List.Pairwise.nil

theorem sound_of_told (htold : l.known ∧ l.told ∧ l.recording = ∅ ∧ l.recorded = ∅) (hcoherent : Coherent l.Row)
    (hlive : ∀ row, l.live = some row → l.finished = none ∧ ¬ l.looking ∧
      ∀ row', l.Row row' → row'.ended = false ∧ row'.revision ≤ row.revision)
    (hfinished : ∀ row, l.finished = some row → row.ended = true ∧ ¬ l.looking ∧
      ∀ row' ∈ l.seen, row'.revision ≤ row.revision)
    (hsettled : l.live = none → l.finished = none → ∀ row ∈ l.seen, ∀ row', l.stored = some row' → Later row' row)
    (hcommitted : ∀ row, (row, true) ∈ l.writes → ∀ row', l.stored = some row' →
      row.revision ≤ row'.revision) (hsorted : l.seen.Pairwise Later) : l.Sound := by
  obtain ⟨hknown, htold, hrecording, hrecorded⟩ := htold
  refine ⟨fun h => absurd hknown h, fun h => absurd htold h, fun y hy => ?_, fun y hy => ?_,
    hcoherent, hlive, hfinished, hsettled, hcommitted, hsorted⟩
  · rw [hrecording] at hy
    nomatch hy
  · rw [hrecorded] at hy
    nomatch hy

theorem of_mem_pending (h : (row, true) ∈ insert (row', false) l.writes) : (row, true) ∈ l.writes := by
  rcases h with h | h
  · nomatch (Prod.mk.inj h).2
  · exact h

section

variable (hs : l.Sound)
include hs

/-- A new job has one row, to be recorded. -/
theorem Sound.start (hnew : ¬ l.known) (hrow : row.ended = false) (hbound : row.revision ≤ u64Max) :
    ({ l with known := True, recording := {row} } : Ledger).Sound := by
  obtain ⟨htold, hrows⟩ := hs.unknown hnew
  obtain ⟨hlive, hfinished, hwrites, hlooking, hseen⟩ := hs.untold htold
  have honly : ∀ y, ({ l with known := True, recording := {row} } : Ledger).Row y → y = row := by
    intro y hy
    rcases hy with hy | hy
    · exact hy
    · exact absurd (.inr hy) (hrows y)
  have hrecorded : l.recorded = ∅ := Set.eq_empty_of_forall_notMem fun y hy => hrows y (.inr (.inl hy))
  have hstored : l.stored = none := by
    cases hst : l.stored with
    | none => rfl
    | some y => exact absurd (.stored hst) (hrows y)
  refine sound_of_untold ⟨hlive, hfinished, hwrites, hlooking, hseen⟩ (fun h => absurd trivial h) ?_ ?_ ⟨?_, ?_, ?_⟩
  · rintro y rfl
    exact ⟨htold, hstored, hrecorded, subset_rfl, hrow⟩
  · intro y hy
    rw [hrecorded] at hy
    nomatch hy
  · intro y hy
    rw [honly y hy]
    exact hbound
  · intro y z hy hz
    rw [honly y hy, honly z hz]
  · intro y z _ hz _ hended
    rw [honly z hz, hrow] at hended
    nomatch hended

theorem Sound.record (hrow : row ∈ l.recording) :
    ({ l with recording := ∅, recorded := {row}, stored := some row } : Ledger).Sound := by
  obtain ⟨htold, hstored, hrecorded, hone, hended⟩ := hs.recording row hrow
  obtain ⟨hlive, hfinished, hwrites, hlooking, hseen⟩ := hs.untold htold
  refine sound_of_untold ⟨hlive, hfinished, hwrites, hlooking, hseen⟩
    (fun h => absurd (.inl hrow) ((hs.unknown h).2 row)) (fun y hy => (nomatch hy)) ?_
    (hs.coherent.mono fun y hy => ?_)
  · rintro y rfl
    exact ⟨htold, rfl, rfl, hended⟩
  · rcases hy with hy | rfl | hy | hy | hy | hy
    · nomatch hy
    · exact .inl hrow
    · exact .live hy
    · exact .finished hy
    · obtain rfl := some.inj hy
      exact .inl hrow
    · exact .inr (.inr (.inr (.inr (.inr hy))))

/-- A recorded row is taken up as the live one. -/
theorem Sound.takeUp (hrow : row ∈ l.recorded) :
    ({ l with recorded := ∅, told := True, live := some row } : Ledger).Sound := by
  obtain ⟨htold, hstored, hrecording, hended⟩ := hs.recorded row hrow
  obtain ⟨hlive, hfinished, hwrites, hlooking, hseen⟩ := hs.untold htold
  have honly : ∀ y, ({ l with recorded := ∅, told := True, live := some row } : Ledger).Row y → y = row := by
    intro y hy
    rcases hy with hy | hy | hy | hy | hy | ⟨_, hy⟩ | hy
    · rw [hrecording] at hy
      nomatch hy
    · nomatch hy
    · exact (some.inj hy).symm
    · rw [hfinished] at hy
      nomatch hy
    · exact (some.inj (hstored.symm.trans hy)).symm
    · rw [hwrites] at hy
      nomatch hy
    · rw [hseen] at hy
      nomatch hy
  have hknown : l.known := by
    by_contra hnew
    exact (hs.unknown hnew).2 row (.inr (.inl hrow))
  refine sound_of_told ⟨hknown, trivial, hrecording, rfl⟩ (hs.coherent.mono fun y hy => ?_) ?_ ?_ ?_ ?_ ?_
  · rw [honly y hy]
    exact .inr (.inl hrow)
  · intro y hy
    cases hy
    refine ⟨hfinished, hlooking, fun z hz => ?_⟩
    rw [honly z hz]
    exact ⟨hended, Nat.le_refl _⟩
  · intro y hy
    rw [hfinished] at hy
    nomatch hy
  · intro _ _ y hy
    rw [hseen] at hy
    nomatch hy
  · intro y hy
    rw [hwrites] at hy
    nomatch hy
  · rw [hseen]
    exact List.Pairwise.nil

theorem Sound.tell (hknown : l.known) (hrecording : l.recording = ∅) (hrecorded : l.recorded = ∅) :
    ({ l with told := True } : Ledger).Sound := by
  exact sound_of_told ⟨hknown, trivial, hrecording, hrecorded⟩ hs.coherent hs.live hs.finished hs.settled
    hs.committed hs.sorted

theorem Sound.told_of (h : l.live ≠ none ∨ l.finished ≠ none ∨ l.writes ≠ ∅ ∨ l.looking) : l.told := by
  by_contra htold
  obtain ⟨hlive, hfinished, hwrites, hlooking, -⟩ := hs.untold htold
  rcases h with h | h | h | h
  · exact h hlive
  · exact h hfinished
  · exact h hwrites
  · exact hlooking h

theorem Sound.unrecorded (htold : l.told) : l.known ∧ l.told ∧ l.recording = ∅ ∧ l.recorded = ∅ := by
  refine ⟨?_, htold, Set.eq_empty_of_forall_notMem fun y hy => (hs.recording y hy).1 htold,
    Set.eq_empty_of_forall_notMem fun y hy => (hs.recorded y hy).1 htold⟩
  by_contra hnew
  exact (hs.unknown hnew).1 htold

/-- A live row is replaced by a later one of the same request. -/
theorem Sound.replace {live finished : Option JobRow} (hlive : l.live = some row) (horigin : row'.origin = row.origin)
    (hle : row.revision ≤ row'.revision) (hend : row'.ended = true → row.revision < row'.revision)
    (hbound : row'.revision ≤ u64Max) (hnew : live = some row' ∧ finished = l.finished ∧ row'.ended = false ∨
      live = none ∧ finished = some row' ∧ row'.ended = true) :
    ({ l with live, finished, writes := insert (row', false) l.writes } : Ledger).Sound := by
  obtain ⟨hfinished, hlooking, hrows⟩ := hs.live row hlive
  have htold := hs.told_of (.inl (by rw [hlive]; exact some_ne_none _))
  have hadd : ∀ y, ({ l with live, finished, writes := insert (row', false) l.writes } : Ledger).Row y →
      l.Row y ∨ y = row' := by
    intro y hy
    unfold Row at hy ⊢
    grind
  have hcoherent := hs.coherent.add hbound
    (fun old hold => horigin.trans (hs.coherent.origin row old (.live hlive) hold))
    (fun old hold _ h => (hrows old hold).2.trans_lt (hend h))
    (fun old hold _ h => absurd ((hrows old hold).1.symm.trans h) false_ne_true)
  refine sound_of_told (hs.unrecorded htold) (hcoherent.mono hadd) (fun y hy => ?_) (fun y hy => ?_)
    (fun hnone h => ?_) (fun y hy z hz => hs.committed y (of_mem_pending hy) z hz) hs.sorted
  · obtain ⟨rfl, rfl, hended⟩ | ⟨rfl, -⟩ := hnew
    · cases hy
      refine ⟨hfinished, hlooking, fun z hz => ?_⟩
      rcases hadd z hz with hold | rfl
      · exact ⟨(hrows z hold).1, (hrows z hold).2.trans hle⟩
      · exact ⟨hended, Nat.le_refl _⟩
    · nomatch hy
  · obtain ⟨rfl, rfl, -⟩ | ⟨rfl, rfl, hended⟩ := hnew
    · rw [hfinished] at hy
      nomatch hy
    · obtain rfl := some.inj hy
      exact ⟨hended, hlooking, fun z hz => (hrows z (.seen hz)).2.trans hle⟩
  · obtain ⟨rfl, -⟩ | ⟨-, rfl, -⟩ := hnew
    · nomatch hnone
    · nomatch h

end

/-- A write replaces a record that is no later, or leaves it. -/
theorem put_cases {stored : Option JobRow} {row new : JobRow} (h : put stored row = some new) :
    ∃ old, stored = some old ∧ old.revision ≤ new.revision ∧ row.revision ≤ new.revision ∧
      (new = old ∨ new.origin = row.origin ∧ new.ended = row.ended ∧ new.revision = row.revision) := by
  obtain ⟨old, hold, heq⟩ := map_eq_some_iff.mp h
  split_ifs at heq with hle
  · subst heq
    exact ⟨old, hold, hle, Nat.le_refl _, .inr ⟨rfl, rfl, rfl⟩⟩
  · subst heq
    exact ⟨old, hold, Nat.le_refl _, by omega, .inl rfl⟩

theorem alike_of_stored {stored : Option JobRow} {writes : Set (JobRow × Bool)}
    (hstored : ∀ y, stored = some y → ∃ old, l.Row old ∧ y.origin = old.origin ∧ y.ended = old.ended ∧
      y.revision = old.revision) (hwrites : ∀ y done, (y, done) ∈ writes → l.Row y) :
    ∀ y, ({ l with stored, writes } : Ledger).Row y → ∃ old, l.Row old ∧ y.origin = old.origin ∧
      y.ended = old.ended ∧ y.revision = old.revision := by
  intro y hy
  rcases hy with hy | hy | hy | hy | hy | ⟨done, hy⟩ | hy
  · exact ⟨y, .inl hy, rfl, rfl, rfl⟩
  · exact ⟨y, .inr (.inl hy), rfl, rfl, rfl⟩
  · exact ⟨y, .live hy, rfl, rfl, rfl⟩
  · exact ⟨y, .finished hy, rfl, rfl, rfl⟩
  · exact hstored y hy
  · exact ⟨y, hwrites y done hy, rfl, rfl, rfl⟩
  · exact ⟨y, .seen hy, rfl, rfl, rfl⟩

section

variable (hs : l.Sound)
include hs

/-- Writes may be committed in any order. -/
theorem Sound.commit (hwrite : (row, false) ∈ l.writes) :
    ({ l with stored := put l.stored row, writes := insert (row, true) l.writes } : Ledger).Sound := by
  have htold := hs.told_of (.inr (.inr (.inl (Set.nonempty_iff_ne_empty.mp ⟨_, hwrite⟩))))
  have hrow : l.Row row := .written ⟨false, hwrite⟩
  have hstored : ∀ {y}, l.stored = some y → l.Row y := fun h => .stored h
  have halike := @alike_of_stored l (put l.stored row) (insert (row, true) l.writes) (fun y hy => by
      obtain ⟨old, hold, -, -, rfl | hlike⟩ := put_cases hy
      · exact ⟨y, hstored hold, rfl, rfl, rfl⟩
      · exact ⟨row, hrow, hlike⟩)
    (fun y done hy => by
      rcases hy with hy | hy
      · exact (Prod.mk.inj hy).1 ▸ hrow
      · exact .written ⟨done, hy⟩)
  refine sound_of_told (hs.unrecorded htold) (hs.coherent.alike halike) (fun y hy => ?_) hs.finished
    (fun hlive hfinished z hz new hnew => ?_) (fun y hy new hnew => ?_) hs.sorted
  · obtain ⟨hfinished, hlooking, hrows⟩ := hs.live y hy
    refine ⟨hfinished, hlooking, fun z hz => ?_⟩
    obtain ⟨old, hold, -, hended, hrev⟩ := halike z hz
    rw [hended, hrev]
    exact hrows old hold
  · obtain ⟨old, hold, hle, -, heq⟩ := put_cases hnew
    obtain ⟨hrev, hended⟩ := hs.settled hlive hfinished z hz old hold
    refine ⟨hrev.trans hle, fun hz' => ?_⟩
    rcases heq with rfl | ⟨-, hend, hnewrev⟩
    · exact hended hz'
    · -- A row that is not over is older than the one stored, and is not taken.
      by_contra hlive'
      have := hs.coherent.order row old hrow (hstored hold) (hend.symm.trans (eq_false_iff.mpr hlive')) (hended hz')
      omega
  · obtain ⟨old, hold, hle, hle', -⟩ := put_cases hnew
    rcases hy with hy | hy
    · rw [(Prod.mk.inj hy).1]
      exact hle'
    · exact (hs.committed y hy old hold).trans hle

/-- A finished row is forgotten once a record as late is written. -/
theorem Sound.note (hwrite : (row, true) ∈ l.writes)
    (hfinished : ∀ row', l.finished = some row' → row'.revision ≤ row.revision) :
    ({ l with finished := none } : Ledger).Sound := by
  have htold := hs.told_of (.inr (.inr (.inl (Set.nonempty_iff_ne_empty.mp ⟨_, hwrite⟩))))
  have hsub : ∀ y, ({ l with finished := none } : Ledger).Row y → l.Row y := by
    intro y hy
    unfold Row at hy ⊢
    grind
  refine sound_of_told (hs.unrecorded htold) (hs.coherent.mono hsub) (fun y hy => ?_)
    (fun y hy => nomatch hy) (fun hlive _ z hz new hnew => ?_) hs.committed hs.sorted
  · obtain ⟨-, hlooking, hrows⟩ := hs.live y hy
    exact ⟨rfl, hlooking, fun z hz => hrows z (hsub z hz)⟩
  · cases hfin : l.finished with
    | none => exact hs.settled hlive hfin z hz new hnew
    | some f =>
      obtain ⟨hended, -, hseen⟩ := hs.finished f hfin
      have hle := hfinished f hfin
      have hle' := hs.committed row hwrite new hnew
      refine ⟨(hseen z hz).trans (hle.trans hle'), fun _ => ?_⟩
      by_contra hlive'
      have := hs.coherent.order new f (.stored hnew) (.finished hfin) (eq_false_iff.mpr hlive') hended
      omega

theorem Sound.later_of_memory (hrow : l.live = some row ∨ l.finished = some row) : ∀ z ∈ l.seen, Later row z := by
  intro z hz
  rcases hrow with hlive | hfinished
  · obtain ⟨hended, hle⟩ := (hs.live row hlive).2.2 z (.seen hz)
    exact ⟨hle, fun h => absurd (hended.symm.trans h) false_ne_true⟩
  · obtain ⟨hended, -, hseen⟩ := hs.finished row hfinished
    exact ⟨hseen z hz, fun _ => hended⟩

/-- What is in memory may be seen. -/
theorem Sound.look (hrow : l.live = some row ∨ l.finished = some row) :
    ({ l with seen := row :: l.seen } : Ledger).Sound := by
  have htold : l.told := by
    refine hs.told_of (hrow.imp (fun h => ?_) fun h => .inl ?_)
    · rw [h]
      exact some_ne_none _
    · rw [h]
      exact some_ne_none _
  have hsub : ∀ y, ({ l with seen := row :: l.seen } : Ledger).Row y → l.Row y := by
    intro y hy
    unfold Row at hy ⊢
    grind
  refine sound_of_told (hs.unrecorded htold) (hs.coherent.mono hsub) (fun y hy => ?_) (fun y hy => ?_)
    (fun hlive hfinished => ?_) hs.committed
    (List.pairwise_cons.mpr ⟨hs.later_of_memory hrow, hs.sorted⟩)
  · obtain ⟨hfinished, hlooking, hrows⟩ := hs.live y hy
    exact ⟨hfinished, hlooking, fun z hz => hrows z (hsub z hz)⟩
  · obtain ⟨hended, hlooking, hseen⟩ := hs.finished y hy
    refine ⟨hended, hlooking, fun z hz => ?_⟩
    rcases List.mem_cons.mp hz with rfl | hz
    · rcases hrow with hlive | hfinished
      · rw [(hs.live z hlive).1] at hy
        nomatch hy
      · rw [some.inj (hfinished.symm.trans hy)]
    · exact hseen z hz
  · rcases hrow with h | h
    · rw [hlive] at h
      nomatch h
    · rw [hfinished] at h
      nomatch h

theorem Sound.settle (hrow : l.Row row) (hended : row.ended = true) (htold : l.told) (now : ℕ) :
    ({ l with writes := insert (row.settle now, false) l.writes } : Ledger).Sound := by
  have hadd : ∀ y, ({ l with writes := insert (row.settle now, false) l.writes } : Ledger).Row y →
      l.Row y ∨ y = row.settle now := by
    intro y hy
    unfold Row at hy ⊢
    grind
  have hle : row.revision ≤ (row.settle now).revision := le_raise (hs.coherent.bound row hrow)
  have hbound : (row.settle now).revision ≤ u64Max := Nat.min_le_right _ _
  have hcoherent := hs.coherent.add hbound
    (fun old hold => (hs.coherent.origin row old hrow hold : (row.settle now).origin = old.origin))
    (fun old hold hlive _ => (hs.coherent.order old row hold hrow hlive hended).trans_le hle)
    (fun old _ h => absurd (h.symm.trans hended) false_ne_true)
  refine sound_of_told (hs.unrecorded htold) (hcoherent.mono hadd) (fun y hy => ?_) hs.finished
    hs.settled (fun y hy z hz => ?_) hs.sorted
  · have hnot := ((hs.live y hy).2.2 row hrow).1
    exact absurd (hnot.symm.trans hended) false_ne_true
  · exact hs.committed y (of_mem_pending hy) z hz

theorem Sound.miss (htold : l.told) (hlive : l.live = none) (hfinished : l.finished = none) :
    ({ l with looking := True } : Ledger).Sound := by
  refine sound_of_told (hs.unrecorded htold) hs.coherent (fun y hy => ?_) (fun y hy => ?_) hs.settled
    hs.committed hs.sorted
  · rw [hlive] at hy
    nomatch hy
  · rw [hfinished] at hy
    nomatch hy

theorem Sound.not_in_memory (hlooking : l.looking) : l.live = none ∧ l.finished = none := by
  constructor
  · cases hlive : l.live with
    | none => rfl
    | some y => exact absurd hlooking (hs.live y hlive).2.1
  · cases hfinished : l.finished with
    | none => rfl
    | some y => exact absurd hlooking (hs.finished y hfinished).2.1

/-- Once a job is not in memory its record may be seen. -/
theorem Sound.read (hlooking : l.looking) (hrow : l.stored = some row) :
    ({ l with seen := row :: l.seen } : Ledger).Sound := by
  obtain ⟨hlive, hfinished⟩ := hs.not_in_memory hlooking
  have hsub : ∀ y, ({ l with seen := row :: l.seen } : Ledger).Row y → l.Row y := by
    intro y hy
    unfold Row at hy ⊢
    grind
  refine sound_of_told (hs.unrecorded (hs.told_of (.inr (.inr (.inr hlooking)))))
    (hs.coherent.mono hsub) (fun y hy => ?_) (fun y hy => ?_) (fun _ _ z hz new hnew => ?_) hs.committed
    (List.pairwise_cons.mpr ⟨fun z hz => hs.settled hlive hfinished z hz row hrow, hs.sorted⟩)
  · rw [hlive] at hy
    nomatch hy
  · rw [hfinished] at hy
    nomatch hy
  · rcases List.mem_cons.mp hz with rfl | hz
    · rw [some.inj (hnew.symm.trans hrow)]
      exact ⟨Nat.le_refl _, id⟩
    · exact hs.settled hlive hfinished z hz new hnew

/-- Only a record that is over is pruned. -/
theorem Sound.prune (hrow : l.stored = some row) (hended : row.ended = true) {left : Option JobRow}
    (hleft : ∀ row', left = some row' → ∃ at_, row' = { row with expiredAt := at_ }) :
    ({ l with stored := left } : Ledger).Sound := by
  have hRow : l.Row row := .stored hrow
  have halike := @alike_of_stored l left l.writes (fun y hy => by
      obtain ⟨at_, rfl⟩ := hleft y hy
      exact ⟨row, hRow, rfl, rfl, rfl⟩) fun _ done hy => .written ⟨done, hy⟩
  refine ⟨fun h => absurd hRow ((hs.unknown h).2 row), hs.untold, fun y hy => ?_, fun y hy => ?_,
    hs.coherent.alike halike, fun y hy => ?_, hs.finished, fun hlive hfinished z hz new hnew => ?_,
    fun y hy new hnew => ?_, hs.sorted⟩
  · rw [(hs.recording y hy).2.1] at hrow
    nomatch hrow
  · obtain ⟨-, hstored, -, hlive⟩ := hs.recorded y hy
    rw [some.inj (hstored.symm.trans hrow), hended] at hlive
    nomatch hlive
  · have hnot := ((hs.live y hy).2.2 row hRow).1
    exact absurd (hnot.symm.trans hended) false_ne_true
  · obtain ⟨at_, rfl⟩ := hleft new hnew
    exact hs.settled hlive hfinished z hz row hrow
  · obtain ⟨at_, rfl⟩ := hleft new hnew
    exact hs.committed y hy row hrow

/-- Every step keeps a job sound. -/
theorem Sound.step (hstep : Step l l') (hraises : ∀ row row', l.live = some row →
    l'.finished = some row' → row.revision < row'.revision) : l'.Sound := by
  have hlive : ∀ {row}, l.live = some row → row.ended = false := fun {row} hrow =>
    ((hs.live row hrow).2.2 row (.live hrow)).1
  have hbound : ∀ {row}, l.live = some row → row.revision ≤ u64Max := fun {row} hrow =>
    hs.coherent.bound row (.live hrow)
  cases hstep with
  | stay h => exact hs.same h
  | start row hnew hrow h => exact (hs.start hnew hrow.1 hrow.2).same h
  | record row hrow h => exact (hs.record hrow).same h
  | takeUp row hrow h => exact (hs.takeUp hrow).same h
  | tell hknown hrecording hrecorded h => exact (hs.tell hknown hrecording hrecorded).same h
  | change row row' hrow horigin hended hle hcap h =>
    have hlast := hended (hlive hrow)
    exact (hs.replace hrow horigin (hle (hbound hrow)) (fun h => nomatch hlast.symm.trans h) (hcap (hbound hrow))
      (.inl ⟨rfl, rfl, hlast⟩)).same h
  | finish row row' hrow horigin hended hcap h =>
    have hlt := hraises row row' hrow h.finished
    exact (hs.replace hrow horigin hlt.le (fun _ => hlt) hcap (.inr ⟨rfl, rfl, hended⟩)).same h
  | commit row hwrite h => exact (hs.commit hwrite).same h
  | note row hwrite hended hfinished h => exact (hs.note hwrite hfinished).same h
  | look row hrow h => exact (hs.look hrow).same h
  | lookAndSettle row hrow hended now h =>
    rcases hrow with hrow | hrow
    · exact absurd ((hlive hrow).symm.trans hended) false_ne_true
    · have hl := hs.look (.inr hrow)
      have htold := hl.told_of (.inr (.inl (by rw [hrow]; exact some_ne_none _)))
      exact (hl.settle (.finished hrow) hended htold now).same h
  | miss htold hlive hfinished h => exact (hs.miss htold hlive hfinished).same h
  | read row hlooking hrow h => exact (hs.read hlooking hrow).same h
  | readAndSettle row hlooking hrow hended now h =>
    have hl := hs.read hlooking hrow
    have htold := hl.told_of (.inr (.inr (.inr hlooking)))
    exact (hl.settle (.stored hrow) hended htold now).same h
  | prune row hrow hended left hleft h => exact (hs.prune hrow hended hleft).same h

end

end Steps

end Virtkit.Jobs.Ledger
