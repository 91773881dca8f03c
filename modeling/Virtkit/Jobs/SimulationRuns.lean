import Virtkit.Jobs.Simulation

/-!
# The hub's steps on its jobs, and whole runs, job by job

A job that is live changes and ends, its rows are written, and it is looked for. With the attempts'
steps that makes every step of the hub, so every job is sound in every state of a run in which no
revision is used up.
-/

namespace Virtkit.Jobs.Service

open Virtkit.Common List Option AList

section Jobs

variable {s s' : Service} {id : String} {row row' : JobRow}

section

variable (hlive : s.live.lookup id = some row) (horigin : row'.origin = row.origin)
include hlive horigin

/-- A changed row is a step of its job's ledger. -/
theorem ledger_changed (hended : row.ended = false → row'.ended = false)
    (hle : row.revision ≤ u64Max → row.revision ≤ row'.revision)
    (hbound : row.revision ≤ u64Max → row'.revision ≤ u64Max) {live : Table String JobRow} {writes : List Write}
    (hlive' : ∀ id', live.lookup id' = if id' = id then some row' else s.live.lookup id')
    (hwrites : ∀ w ∈ writes, w ∈ s.writes ∨ w = ⟨id, row', false⟩) (id' : String) :
    Ledger.Step (s.ledger id') (({ s with live := live, writes := writes } : Service).ledger id') := by
  by_cases hid : id' = id
  · subst hid
    refine .change row row' hlive horigin hended hle hbound ⟨fun h => h, Iff.rfl, fun _ h => h,
      fun _ h => h, ?_, rfl, rfl, ?_, fun h => h, rfl⟩
    · exact (hlive' id').trans (if_pos rfl)
    · rintro x ⟨w, hw, hwid, rfl⟩
      rcases hwrites w hw with hw | rfl
      · exact .inr ⟨w, hw, hwid, rfl⟩
      · exact .inl rfl
  · refine .stay (same_of_steady (steady_of_eq rfl) (fun h => h) Iff.rfl ?_ rfl rfl
      (fun w hw hwid => ?_) (fun _ h _ => h) rfl)
    · exact (hlive' id').trans (if_neg hid)
    · rcases hwrites w hw with hw | rfl
      · exact hw
      · exact absurd hwid.symm hid

theorem ledger_endJob (hended : row'.ended = true) (hbound : row'.revision ≤ u64Max) (id' : String) :
    Ledger.Step (s.ledger id') ((s.endJob id row').ledger id') := by
  by_cases hid : id' = id
  · subst hid
    refine .finish row row' hlive horigin hended hbound ⟨fun h => h, Iff.rfl, fun _ h => h,
      fun _ h => h, lookup_erase _ _, lookup_insert _, rfl, ?_, fun h => h, rfl⟩
    rintro x ⟨w, hw, hwid, rfl⟩
    rcases mem_append.mp hw with hw | hw
    · exact .inr ⟨w, hw, hwid, rfl⟩
    · obtain rfl := mem_singleton.mp hw
      exact .inl rfl
  · refine .stay (same_of_steady (steady_of_eq rfl) (fun h => h) Iff.rfl (lookup_erase_ne hid)
      (lookup_insert_ne hid) rfl (fun w hw hwid => ?_) (fun _ h _ => h) rfl)
    rcases mem_append.mp hw with hw | hw
    · exact hw
    · obtain rfl := mem_singleton.mp hw
      exact absurd hwid.symm hid

end

/-- A commit is a step of its job's ledger. -/
theorem ledger_commit {k : ℕ} {w : Write} (hw : s.writes[k]? = some w) (hdone : w.done = false) (id' : String) :
    Ledger.Step (s.ledger id') (({ s with
      db := { s.db with jobs := putJob s.db.jobs w.id w.row }
      writes := s.writes.set k { w with done := true } } : Service).ledger id') := by
  have hmem := mem_of_getElem? hw
  by_cases hid : w.id = id'
  · subst hid
    refine .commit w.row ⟨w, hmem, rfl, by rw [hdone]⟩ ⟨fun h => h, Iff.rfl, fun _ h => h, fun _ h => h,
      rfl, rfl, ?_, ?_, fun h => h, rfl⟩
    · change (putJob s.db.jobs w.id w.row).lookup w.id = Ledger.put (s.db.jobs.lookup w.id) w.row
      unfold putJob Ledger.put
      cases hstored : s.db.jobs.lookup w.id with
      | none => exact hstored
      | some stored =>
        dsimp only [map_some]
        split_ifs
        · exact lookup_insert _
        · exact hstored
    · rintro x ⟨w', hw', hwid, rfl⟩
      rcases mem_or_eq_of_mem_set hw' with hw' | rfl
      · exact .inr ⟨w', hw', hwid, rfl⟩
      · exact .inl rfl
  · refine .stay (same_of_steady (steady_of_eq rfl) (fun h => h) Iff.rfl rfl rfl ?_
      (fun w' hw' hwid => ?_) (fun _ h _ => h) rfl)
    · rcases lookup_putJob s.db.jobs w.id w.row id' with hsame | ⟨hsame, -⟩
      · exact hsame
      · exact absurd hsame.symm hid
    · rcases mem_or_eq_of_mem_set hw' with hw' | rfl
      · exact hw'
      · exact absurd hwid hid

theorem ledger_note {k : ℕ} {w : Write} (hw : s.writes[k]? = some w) (hdone : w.done = true) (id' : String) :
    Ledger.Step (s.ledger id') (({ s with
      finished := if w.row.ended && (s.finished.lookup w.id).any (·.revision ≤ w.row.revision)
        then s.finished.erase w.id else s.finished
      writes := s.writes.eraseIdx k } : Service).ledger id') := by
  have hmem := mem_of_getElem? hw
  have hwrites : ∀ w' ∈ s.writes.eraseIdx k, w'.id = id' → w' ∈ s.writes := fun w' hw' _ => mem_of_mem_eraseIdx hw'
  split_ifs with hnote
  · rw [Bool.and_eq_true] at hnote
    by_cases hid : w.id = id'
    · subst hid
      refine .note w.row ⟨w, hmem, rfl, by rw [hdone]⟩ hnote.1 (fun row' hrow' => ?_) ⟨fun h => h,
        Iff.rfl, fun _ h => h, fun _ h => h, rfl, lookup_erase _ _, rfl, ?_, fun h => h, rfl⟩
      · have hany := hnote.2
        change s.finished.lookup w.id = some row' at hrow'
        rw [hrow'] at hany
        exact of_decide_eq_true hany
      · rintro x ⟨w', hw', hwid, rfl⟩
        exact ⟨w', hwrites w' hw' hwid, hwid, rfl⟩
    · exact .stay (same_of_steady (steady_of_eq rfl) (fun h => h) Iff.rfl rfl
        (lookup_erase_ne (Ne.symm hid)) rfl hwrites (fun _ h _ => h) rfl)
  · exact .stay (same_of_steady (steady_of_eq rfl) (fun h => h) Iff.rfl rfl rfl rfl hwrites
      (fun _ h _ => h) rfl)

theorem ledger_shown (s : Service) (principal id : String) (settles : Bool) (row : JobRow) (id' : String) :
    Ledger.Same (s.ledger id') ((s.shown principal id settles row).ledger id') ∨
    id' = id ∧ (Ledger.Same { s.ledger id' with seen := row :: (s.ledger id').seen }
        ((s.shown principal id settles row).ledger id') ∨
      row.ended = true ∧ Ledger.Same { s.ledger id' with
          seen := row :: (s.ledger id').seen
          writes := insert (row.settle s.clock, false) (s.ledger id').writes }
        ((s.shown principal id settles row).ledger id')) := by
  unfold shown
  split_ifs with hkey hsettles
  · rw [Bool.and_eq_true, Bool.and_eq_true] at hsettles
    by_cases hid : id' = id
    · subst hid
      refine .inr ⟨rfl, .inr ⟨hsettles.1.2, fun h => h, Iff.rfl, fun _ h => h, fun _ h => h, rfl, rfl, rfl,
        ?_, fun h => h, ?_⟩⟩
      · rintro x ⟨w, hw, hwid, rfl⟩
        rcases mem_append.mp hw with hw | hw
        · exact .inr ⟨w, hw, hwid, rfl⟩
        · obtain rfl := mem_singleton.mp hw
          exact .inl rfl
      · simp [ledger]
    · refine .inl (same_of_steady (steady_of_eq rfl) (fun h => h) Iff.rfl rfl rfl rfl
        (fun w hw hwid => ?_) (fun _ h _ => h) (filter_cons_of_neg (by simpa using Ne.symm hid)))
      rcases mem_append.mp hw with hw | hw
      · exact hw
      · obtain rfl := mem_singleton.mp hw
        exact absurd hwid.symm hid
  · by_cases hid : id' = id
    · subst hid
      refine .inr ⟨rfl, .inl ⟨fun h => h, Iff.rfl, fun _ h => h, fun _ h => h, rfl, rfl, rfl,
        fun _ h => h, fun h => h, ?_⟩⟩
      simp [ledger]
    · exact .inl (same_of_steady (steady_of_eq rfl) (fun h => h) Iff.rfl rfl rfl rfl
        (fun _ h _ => h) (fun _ h _ => h) (filter_cons_of_neg (by simpa using Ne.symm hid)))
  · exact .inl (same_of_steady (steady_of_eq rfl) (fun h => h) Iff.rfl rfl rfl rfl (fun _ h _ => h)
      (fun _ h _ => h) rfl)

theorem ledger_look (principal : String) (settles : Bool) (htold : id ∈ s.told) (id' : String) :
    Ledger.Step (s.ledger id') ((match s.inMemory id with
      | some row => s.shown principal id settles row
      | none => { s with views := s.views ++ [(⟨principal, id, settles⟩ : View)] }).ledger id') := by
  cases hrow : s.inMemory id with
  | some row =>
    rcases ledger_shown s principal id settles row id' with hsame | ⟨rfl, hsame | ⟨hended, hsame⟩⟩
    · exact .stay hsame
    · exact .look row (inMemory_eq_some hrow) hsame
    · exact .lookAndSettle row (inMemory_eq_some hrow) hended s.clock hsame
  | none =>
    by_cases hid : id' = id
    · subst hid
      obtain ⟨hlive, hfinished⟩ := inMemory_eq_none hrow
      exact .miss htold hlive hfinished ⟨fun h => h, Iff.rfl, fun _ h => h, fun _ h => h, rfl, rfl, rfl,
        fun _ h => h, fun _ => trivial, rfl⟩
    · refine .stay (same_of_steady (steady_of_eq rfl) (fun h => h) Iff.rfl rfl rfl rfl (fun _ h _ => h)
        (fun v hv hvid => ?_) rfl)
      rcases mem_append.mp hv with hv | hv
      · exact hv
      · obtain rfl := mem_singleton.mp hv
        exact absurd hvid.symm hid

theorem ledger_read {k : ℕ} {v : View} (hv : s.views[k]? = some v) (id' : String) :
    Ledger.Step (s.ledger id') (((s.db.jobs.lookup v.id).elim { s with views := s.views.eraseIdx k }
      (({ s with views := s.views.eraseIdx k } : Service).shown v.principal v.id v.settles)).ledger id') := by
  have hmem := mem_of_getElem? hv
  have hless : ∀ id', Ledger.Same (s.ledger id')
      (({ s with views := s.views.eraseIdx k } : Service).ledger id') := fun id' =>
    same_of_steady (steady_of_eq rfl) (fun h => h) Iff.rfl rfl rfl rfl (fun _ h _ => h)
      (fun _ h _ => mem_of_mem_eraseIdx h) rfl
  cases hrow : s.db.jobs.lookup v.id with
  | none => exact .stay (hless id')
  | some row =>
    have hlook := (hless id').looking
    rcases ledger_shown { s with views := s.views.eraseIdx k } v.principal v.id v.settles row id' with
      hsame | ⟨rfl, hsame | ⟨hended, hsame⟩⟩
    · exact .stay (hsame.looks hlook)
    · exact .read row (.inl ⟨v, hmem, rfl⟩) hrow (hsame.looks hlook)
    · exact .readAndSettle row (.inl ⟨v, hmem, rfl⟩) hrow hended s.clock (hsame.looks hlook)

theorem ledger_prune (dropped expired : List String) (id' : String) : Ledger.Step (s.ledger id')
      (({ s with db := s.db.pruneJobs s.clock dropped expired } : Service).ledger id') := by
  rcases s.db.lookup_pruneJobs s.clock dropped expired id' with hsame | ⟨row, hrow, hended, hleft⟩
  · exact .stay (same_of_steady (steady_of_eq rfl) (fun h => h) Iff.rfl rfl rfl hsame (fun _ h _ => h)
      (fun _ h _ => h) rfl)
  · exact .prune row hrow hended _ hleft ⟨fun h => h, Iff.rfl, fun _ h => h, fun _ h => h, rfl, rfl, rfl,
      fun _ h => h, fun h => h, rfl⟩

theorem ledger_stepJob {e : JobEvent} (h : s.stepJob e = some s') (id' : String) :
    Ledger.Step (s.ledger id') (s'.ledger id') := by
  have hraised : ∀ row : JobRow, row.revision ≤ u64Max → row.revision ≤ satAdd u64Max row.revision 1 :=
    fun row hroom => @le_raise row hroom
  cases e <;> simp only [stepJob] at h
  case change id c =>
    split at h
    · rename_i row hrow
      split_ifs at h
      cases h
      refine ledger_changed hrow (origin_change row c) (fun hlive => ended_change hlive c) ?_ ?_
        (fun id' => Table.lookup_insert_ite _ _ _ _) (fun w hw => ?_) id'
      · rw [revision_change]
        exact hraised row
      · rw [revision_change]
        exact fun _ => Nat.min_le_right _ _
      · exact (mem_append.mp hw).imp_right mem_singleton.mp
    · cases h
  case output id len =>
    obtain ⟨row, hrow, rfl⟩ := map_eq_some_iff.mp h
    have hrow' : ({ row with outputLen := len } : JobRow).origin = row.origin := rfl
    exact ledger_changed hrow hrow' (fun h => h) (fun _ => Nat.le_refl _) (fun h => h)
      (fun id' => Table.lookup_insert_ite _ _ _ _) (fun w hw => .inl hw) id'
  case finish id failure message =>
    obtain ⟨row, hrow, rfl⟩ := map_eq_some_iff.mp h
    have horigin : (row.finish failure message s.clock).origin = row.origin := rfl
    exact ledger_endJob hrow horigin rfl (Nat.min_le_right _ _) id'
  case cancelQueued id mode =>
    split at h
    · rename_i row hrow
      split_ifs at h
      cases h
      have horigin : ({ row with cancel := some mode }.finish (some .canceled) none s.clock).origin = row.origin := rfl
      exact ledger_endJob hrow horigin rfl (Nat.min_le_right _ _) id'
    · cases h
  case snapshot id =>
    obtain ⟨row, hrow, rfl⟩ := map_eq_some_iff.mp h
    refine ledger_changed hrow rfl (fun h => h) (fun _ => Nat.le_refl _) (fun h => h) (fun id' => ?_)
      (fun w hw => (mem_append.mp hw).imp_right mem_singleton.mp) id'
    split_ifs with hid
    · exact hid ▸ hrow
    · rfl
  case commit k =>
    split at h
    · rename_i w hw
      split_ifs at h with hdone
      cases h
      exact ledger_commit hw (Bool.eq_false_iff.mpr hdone) id'
    · cases h
  case abandon k =>
    cases h
    exact .stay (same_of_steady (steady_of_eq rfl) (fun h => h) Iff.rfl rfl rfl rfl
      (fun _ h _ => mem_of_mem_eraseIdx h) (fun _ h _ => h) rfl)
  case note k =>
    split at h
    · rename_i w hw
      by_cases hdone : w.done = true
      · rw [if_pos hdone] at h
        cases h
        exact ledger_note hw hdone id'
      · rw [if_neg hdone] at h
        cases h
    · cases h
  case look principal id settles =>
    split_ifs at h with htold
    cases h
    exact ledger_look principal settles htold id'
  case read k =>
    obtain ⟨v, hv, rfl⟩ := map_eq_some_iff.mp h
    exact ledger_read hv id'
  case prune dropped expired =>
    cases h
    exact ledger_prune dropped expired id'

end Jobs

section Runs

variable {normalize : String → Option String} {s s' : Service}

/-- Every step of the hub is one of each job's ledger. -/
theorem ledger_step (hs : s.Served) {e : ServiceEvent} (h : s.step normalize e = some s')
    (id' : String) : Ledger.Step (s.ledger id') (s'.ledger id') := by
  cases e with
  | begin ask =>
    cases h
    unfold Service.begin
    split_ifs
    all_goals
      exact .stay (same_of_steady (steady_of_concat rfl rfl) (fun h => h) Iff.rfl rfl rfl rfl
        (fun _ h _ => h) (fun _ h _ => h) rfl)
  | attempt i event =>
    simp only [Service.step] at h
    split at h
    · rename_i a hi
      exact ledger_attemptStep hs hi (attemptStep_of_step h) id'
    · cases h
  | job event => exact ledger_stepJob h id'
  | decide gitlab id state path =>
    cases h
    refine .stay (same_of_steady (steady_of_eq rfl) (fun h => h) Iff.rfl rfl rfl ?_ (fun _ h _ => h)
      (fun _ h _ => h) rfl)
    unfold Db.decideProject
    dsimp only
    split_ifs <;> rfl
  | reserve request digest =>
    cases h
    refine .stay (same_of_steady (steady_of_eq rfl) (fun h => h) Iff.rfl rfl rfl ?_ (fun _ h _ => h)
      (fun _ h _ => h) rfl)
    exact congrArg (AList.lookup id') (Db.recordRequest_frame _ _ _).1
  | _ =>
    cases h
    exact .stay (same_of_steady (steady_of_eq rfl) (fun h => h) Iff.rfl rfl rfl rfl (fun _ h _ => h)
      (fun _ h _ => h) rfl)

end Runs

end Virtkit.Jobs.Service
