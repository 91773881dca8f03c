import Virtkit.Node.Execute

/-!
# What every step does to the journal

A step other than a command, a recorded answer or a restart moves outcomes and nothing else: a drain
that finishes settles the drains under way as done, a job or a build that ends settles its own
command. Commands add an entry, recorded answers may drop settled ones, and a restart for another
issuer forgets the journal. Each keeps it well formed.
-/

namespace Virtkit.Node

open Virtkit.Common Virtkit.Fleet List Option Persisted

section Ends

variable {may : Operation → Outcome → Prop} {p p' : Persisted}

theorem endOutcome_final (failed : Option String) : endOutcome failed ≠ .accepted := by
  cases failed with
  | none | some message => nofun

theorem changed_beginMaintenance (p : Persisted) (now : ℕ) (state : NodeState)
    (phase : UpdatePhase) : p.Changed never ((p.setPhase state phase).beginMaintenance now) := by
  refine .same rfl (fun j' hj' => ?_) rfl
  obtain ⟨j, hj, rfl⟩ := map_eq_some_iff.mp hj'
  exact ⟨j, hj, rfl⟩

theorem changed_finishDrain (p : Persisted) (now : ℕ) :
    ∃ may, p.Changed may (p.finishDrain now) ∧ ∀ op outcome, may op outcome → op = .drain := by
  unfold finishDrain
  split_ifs with hstate hjob
  · exact ⟨never, .same rfl (fun j' hj' => ⟨j', hj', rfl⟩) rfl, fun _ _ => False.elim⟩
  · refine ⟨_, (changed_beginMaintenance p now _ _).trans (changed_settleDrains .done nofun _), ?_⟩
    rintro op outcome (hnever | ⟨rfl, -⟩)
    · exact hnever.elim
    · rfl
  · have hc : p.Changed never { p with state := .drained } :=
      .same rfl (fun j' hj' => ⟨j', hj', rfl⟩) rfl
    refine ⟨_, hc.trans (changed_settleDrains .done nofun _), ?_⟩
    rintro op outcome (hnever | ⟨rfl, -⟩)
    · exact hnever.elim
    · rfl

theorem changed_callOffDrain (h : p.Journaled) (message : String) (resume : Option NodeState) :
    p.Changed (jobsTo (.failed message)) (p.callOffDrain message resume) := by
  obtain ⟨hc, -⟩ := changed_endJobIn h (.failed message) nofun .failed resume
  unfold callOffDrain
  dsimp only
  split_ifs
  · exact ⟨hc.journal, hc.job, hc.tools⟩
  · exact hc

theorem changed_endTools (h : p.Journaled) (failed : Option (String × List String)) :
    ∃ outcome, p.Changed (toolsTo outcome) (p.endTools failed) := by
  have hjob : ∀ outcome op o, isJob op = true → ¬ toolsTo outcome op o := fun _ op _ hj ht =>
    isJob_ne_isTools op ⟨hj, ht.1⟩
  unfold endTools
  cases ht : p.tools with
  | none =>
    refine ⟨.done, moved_refl _ _, fun j' hj' => ⟨⟨j', hj', rfl⟩, hjob _⟩, fun t ht' => ?_⟩
    rw [ht] at ht'
    nomatch ht'
  | some t =>
    refine ⟨failed.elim .done fun f => .failed f.1, ?_, fun j' hj' => ⟨⟨j', hj', rfl⟩, hjob _⟩, nofun⟩
    refine moved_setOutcome ?_ fun e he hid => ⟨(h.tools t ht e he hid).1, (h.tools t ht e he hid).2, rfl⟩
    cases failed with
    | none | some f => nofun

/-- Whether a step may move the outcomes of an operation: of drains where a drain finishes, of jobs
and builds where they end or are called off. -/
def mayOver (event : NodeEvent) (op : Operation) : Prop :=
  op = .drain ∧ (∃ now, event = .finishDrain now) ∨ isJob op = true ∨ isTools op = true

/-- A step that only moves outcomes. -/
def Persisted.Moves (event : NodeEvent) (p p' : Persisted) : Prop :=
  ∃ may, p.Changed may p' ∧ ∀ op outcome, may op outcome → mayOver event op

variable {event : NodeEvent}

theorem moves_same (hjournal : p'.journal = p.journal) (htools : p'.tools = p.tools)
    (hjob : ∀ j', p'.job = some j' → ∃ j, p.job = some j ∧ j'.command = j.command) : p.Moves event p' :=
  ⟨never, .same hjournal hjob htools, fun _ _ => False.elim⟩

theorem moves_keeps (hjournal : p'.journal = p.journal) (htools : p'.tools = p.tools)
    (hjob : p'.job = p.job) : p.Moves event p' :=
  moves_same hjournal htools fun j' hj' => ⟨j', by rw [← hjob, hj'], rfl⟩

theorem moves_jobs {outcome : Outcome} (h : p.Changed (jobsTo outcome) p') : p.Moves event p' :=
  ⟨_, h, fun _ _ hm => .inr (.inl hm.1)⟩

theorem moves_mapJob {f : Job → Job} (hjournal : p'.journal = p.journal)
    (htools : p'.tools = p.tools) (hjob : p'.job = p.job.map f)
    (hf : ∀ j, (f j).command = j.command) : p.Moves event p' := by
  refine moves_same hjournal htools fun j' hj' => ?_
  rw [hjob] at hj'
  obtain ⟨j, hj, rfl⟩ := map_eq_some_iff.mp hj'
  exact ⟨j, hj, hf j⟩

/-- What a node can do: take a command, note a record, or move entries on. -/
theorem apply_cases (h : p.Journaled) {quarantining : Bool} (hstep : p.apply quarantining event = some p') :
    (∃ command now can, event = .command command now can ∧ p.distinct command = true ∧
      p' = (p.commandAs command now can).1) ∨
    (∃ id outcome now, event = .recorded id outcome now ∧ p' = p.recorded id outcome now) ∨
    (∃ issuer, event = .restart issuer ∧ p' = p.adoptIssuer issuer) ∨ p.Moves event p' := by
  cases event <;> dsimp only [Persisted.apply] at hstep
  case command command now can =>
    split_ifs at hstep with hdistinct
    exact .inl ⟨command, now, can, rfl, hdistinct, (some.inj hstep).symm⟩
  case recorded id outcome now => exact .inr (.inl ⟨id, outcome, now, rfl, (some.inj hstep).symm⟩)
  case restart issuer => exact .inr (.inr (.inl ⟨issuer, rfl, (some.inj hstep).symm⟩))
  case desired desired =>
    cases hstep
    refine .inr (.inr (.inr ?_))
    unfold applyDesired
    split_ifs <;> exact moves_keeps rfl rfl rfl
  case finishDrain now =>
    cases hstep
    obtain ⟨may, hc, hmay⟩ := changed_finishDrain p now
    exact .inr (.inr (.inr ⟨may, hc, fun op o hm => .inl ⟨hmay op o hm, now, rfl⟩⟩))
  case drainExpired now =>
    cases hstep
    refine .inr (.inr (.inr ?_))
    unfold drainExpired
    split_ifs
    · exact moves_jobs (changed_callOffDrain h _ _)
    · exact moves_keeps rfl rfl rfl
  case resetBlocked message =>
    cases hstep
    refine .inr (.inr (.inr ?_))
    unfold resetBlocked
    split_ifs
    · exact moves_jobs (changed_callOffDrain h _ _)
    · exact moves_keeps rfl rfl rfl
  case resetCleared =>
    split_ifs at hstep
    cases hstep
    exact .inr (.inr (.inr (moves_keeps rfl rfl rfl)))
  case endReset failed | endUpdate failed phase noBinary =>
    split_ifs at hstep
    cases hstep
    exact .inr (.inr (.inr (moves_jobs (changed_endJobIn h _ (endOutcome_final failed) _ _).1)))
  case switch trial | countAttempt | confirm =>
    split_ifs at hstep
    cases hstep
    exact .inr (.inr (.inr (moves_mapJob rfl rfl rfl fun _ => rfl)))
  case quarantine =>
    split_ifs at hstep
    cases hstep
    refine .inr (.inr (.inr ?_))
    unfold Persisted.quarantine
    split_ifs <;> exact moves_keeps rfl rfl rfl
  case moveTools phase =>
    cases hstep
    refine .inr (.inr (.inr ?_))
    unfold moveTools
    split
    · split_ifs <;> exact moves_keeps rfl rfl rfl
    · exact moves_keeps rfl rfl rfl
  case endTools failed =>
    cases hstep
    obtain ⟨outcome, hc⟩ := changed_endTools h failed
    exact .inr (.inr (.inr ⟨_, hc, fun op o hm => .inr (.inr hm.1)⟩))

end Ends

/-!
## The journal stays well formed

Over every run of a node, each command is journaled once, and the command of the job or the build
under way is journaled as accepted if it is journaled at all.
-/

section WellFormed

variable {may : Operation → Outcome → Prop} {p p' : Persisted}

theorem Persisted.Journaled.of_entries (h : p.Journaled) (hnodup : (p'.journal.map Entry.id).Nodup)
    (hentries : ∀ e' ∈ p'.journal, ∃ e ∈ p.journal, e'.id = e.id ∧ e'.op = e.op ∧ e'.outcome = e.outcome)
    (hjob : p'.job = p.job) (htools : p'.tools = p.tools) : p'.Journaled := by
  refine ⟨hnodup, fun j hj e' he' hid => ?_, fun t ht e' he' hid => ?_⟩
  · obtain ⟨e, he, hid', hop, hout⟩ := hentries e' he'
    rw [hjob] at hj
    rw [hop, hout]
    exact h.job j hj e he (by rw [← hid', hid])
  · obtain ⟨e, he, hid', hop, hout⟩ := hentries e' he'
    rw [htools] at ht
    rw [hop, hout]
    exact h.tools t ht e he (by rw [← hid', hid])

theorem Persisted.Journaled.prune (h : p.Journaled) (now : ℕ) : (p.prune now).Journaled := by
  have hsub := prune_sublist p now
  rw [prune_eq]
  generalize (p.prune now).journal = journal at hsub ⊢
  refine h.of_entries ?_ (fun e he => ⟨e, hsub.subset he, rfl, rfl, rfl⟩) rfl rfl
  exact h.nodup.sublist (hsub.map Entry.id)

theorem map_id_setRecorded (id : String) (outcome : Outcome) (es : List Entry) :
    (setRecorded id outcome es).map Entry.id = es.map Entry.id := by
  induction es with
  | nil => rfl
  | cons e es ih =>
    rw [setRecorded]
    split_ifs
    · rfl
    · rw [map_cons, map_cons, ih]

theorem exists_of_mem_setRecorded {id : String} {outcome : Outcome} {es : List Entry} {e' : Entry}
    (he' : e' ∈ setRecorded id outcome es) :
    ∃ e ∈ es, e' = e ∨ e' = { e with recorded := some outcome } ∧ e.id = id := by
  induction es with
  | nil => nomatch he'
  | cons e es ih =>
    rw [setRecorded] at he'
    split_ifs at he' with hid
    · rcases mem_cons.mp he' with rfl | he'
      · exact ⟨e, mem_cons_self, .inr ⟨rfl, hid⟩⟩
      · exact ⟨e', mem_cons_of_mem _ he', .inl rfl⟩
    · rcases mem_cons.mp he' with rfl | he'
      · exact ⟨e', mem_cons_self, .inl rfl⟩
      · obtain ⟨e₀, he₀, heq⟩ := ih he'
        exact ⟨e₀, mem_cons_of_mem _ he₀, heq⟩

theorem recorded_eq (p : Persisted) (id : String) (outcome : Outcome) (now : ℕ) :
    ∃ journal, p.recorded id outcome now = { p with journal := journal } ∧
      (journal.map Entry.id).Sublist (p.journal.map Entry.id) ∧
      ∀ e' ∈ journal, ∃ e ∈ p.journal, e' = e ∨ e' = { e with recorded := some outcome } ∧ e.id = id := by
  have hsame : ∀ e' ∈ p.journal, ∃ e ∈ p.journal, e' = e ∨
      e' = { e with recorded := some outcome } ∧ e.id = id := fun e' he' => ⟨e', he', .inl rfl⟩
  unfold Persisted.recorded
  split
  · split_ifs
    · have hsub := prune_sublist ({ p with journal := setRecorded id outcome p.journal }) now
      rw [prune_eq]
      generalize (Persisted.prune _ now).journal = journal at hsub ⊢
      refine ⟨journal, rfl, ?_, fun e' he' => exists_of_mem_setRecorded (hsub.subset he')⟩
      rw [← map_id_setRecorded id outcome p.journal]
      exact hsub.map Entry.id
    · exact ⟨p.journal, rfl, List.Sublist.refl _, hsame⟩
  · exact ⟨p.journal, rfl, List.Sublist.refl _, hsame⟩

theorem Persisted.Journaled.recorded (h : p.Journaled) (id : String) (outcome : Outcome)
    (now : ℕ) : (p.recorded id outcome now).Journaled := by
  obtain ⟨journal, heq, hsub, hentries⟩ := recorded_eq p id outcome now
  rw [heq]
  refine h.of_entries (h.nodup.sublist hsub) (fun e' he' => ?_) rfl rfl
  obtain ⟨e, he, rfl | ⟨rfl, -⟩⟩ := hentries e' he'
  · exact ⟨e', he, rfl, rfl, rfl⟩
  · exact ⟨e, he, rfl, rfl, rfl⟩

theorem Persisted.Journaled.adoptIssuer (h : p.Journaled) (issuer : Issuer) : (p.adoptIssuer issuer).Journaled := by
  unfold Persisted.adoptIssuer
  split_ifs
  · exact h
  · exact ⟨nodup_nil, fun _ _ _ he => (nomatch he), fun _ _ _ he => (nomatch he)⟩

variable {command : Command}

theorem id_ne_of_new (hnew : p.journal.find? (·.id = command.id) = none) {e : Entry}
    (he : e ∈ p.journal) : e.id ≠ command.id := by
  rw [find?_eq_none] at hnew
  intro hid
  exact hnew e he (decide_eq_true hid)

/-- An executed command is journaled once. -/
theorem Persisted.Executed.journaled (h : p.Journaled) {outcome : Outcome}
    (he : p.Executed command p' outcome) (hnew : ∀ e ∈ p.journal, e.id ≠ command.id)
    (hjob : ∀ j, p.job = some j → j.command ≠ command.id)
    (htools : ∀ t, p.tools = some t → t.command ≠ command.id) (now : ℕ) : ({ p' with journal := p'.journal ++
      [⟨command.id, command.op, command.expiresAt, now, outcome, none⟩] } : Persisted).Journaled := by
  obtain ⟨may, hmay, hjournal, hjob'⟩ := he.changed
  have hold : ∀ e' ∈ p'.journal, ∃ e ∈ p.journal, Moved may e e' ∧ e'.id ≠ command.id := by
    intro e' he'
    obtain ⟨e, hmem, hm⟩ := exists_of_moved hjournal he'
    exact ⟨e, hmem, hm, by rw [hm.id_op.1]; exact hnew e hmem⟩
  refine ⟨?_, fun j' hj' e' he' hid => ?_, fun t ht e' he' hid => ?_⟩
  · rw [map_append, map_id_of_moved hjournal, map_singleton]
    refine h.nodup.append (nodup_singleton _) ?_
    rw [disjoint_singleton]
    intro hmem
    obtain ⟨e, he, hid⟩ := mem_map.mp hmem
    exact hnew e he hid
  · rcases mem_append.mp he' with he' | he'
    · obtain ⟨e, hmem, hm, hne⟩ := hold e' he'
      rcases hjob' j' hj' with ⟨⟨j, hj, hcommand⟩, hnot⟩ | ⟨hcommand, -⟩
      · have hentry := h.job j hj e hmem (by rw [← hm.id_op.1, hid, hcommand])
        exact hm.accepted hentry fun o => hnot _ o hentry.2
      · rw [hid, hcommand] at hne
        exact absurd rfl hne
    · obtain rfl := mem_singleton.mp he'
      rcases hjob' j' hj' with ⟨⟨j, hj, hcommand⟩, -⟩ | ⟨-, hacc, hop⟩
      · exact absurd (hcommand.symm.trans hid.symm) (hjob j hj)
      · exact ⟨hacc, hop⟩
  · rcases mem_append.mp he' with he' | he'
    · obtain ⟨e, hmem, hm, hne⟩ := hold e' he'
      rcases he.tools t ht with ht' | ⟨hcommand, -⟩
      · have hentry := h.tools t ht' e hmem (by rw [← hm.id_op.1, hid])
        refine hm.accepted hentry fun o hm' => ?_
        obtain ⟨hop | hop, -⟩ := hmay _ _ hm'
        · rw [hop] at hentry
          nomatch hentry.2
        · exact isJob_ne_isTools e.op ⟨hop, hentry.2⟩
      · rw [hid, hcommand] at hne
        exact absurd rfl hne
    · obtain rfl := mem_singleton.mp he'
      rcases he.tools t ht with ht' | ⟨-, hacc, hop⟩
      · exact absurd hid.symm (htools t ht')
      · exact ⟨hacc, hop⟩

theorem Persisted.Journaled.commandAs (h : p.Journaled) (hdistinct : p.distinct command = true)
    (now : ℕ) (can : Abilities) : (p.commandAs command now can).1.Journaled := by
  cases hfind : p.journal.find? (·.id = command.id) with
  | some entry =>
    unfold Persisted.commandAs
    rw [hfind]
    exact h
  | none =>
    obtain ⟨p', outcome, heq, he, -⟩ := journal_commandAs hfind now can h
    rw [heq]
    have hnew : ∀ e ∈ p.journal, e.id ≠ command.id := fun e => id_ne_of_new hfind
    unfold Persisted.distinct at hdistinct
    have hany : p.journal.any (·.id = command.id) = false := by
      rw [List.any_eq_false]
      exact fun e he => by simpa using hnew e he
    rw [hany, Bool.false_or, Bool.and_eq_true, Option.all_eq_true, Option.all_eq_true] at hdistinct
    refine Journaled.prune (he.journaled h hnew ?_ ?_ now) now
    · exact fun j hj => of_decide_eq_true (hdistinct.1 j hj)
    · exact fun t ht => of_decide_eq_true (hdistinct.2 t ht)

/-- Every event keeps the journal in order. -/
theorem Persisted.Journaled.apply (h : p.Journaled) {quarantining : Bool} {event : NodeEvent}
    (hstep : p.apply quarantining event = some p') : p'.Journaled := by
  rcases apply_cases h hstep with ⟨command, now, can, -, hdistinct, rfl⟩ |
    ⟨id, outcome, now, -, rfl⟩ | ⟨issuer, -, rfl⟩ | ⟨may, hc, -⟩
  · exact h.commandAs hdistinct now can
  · exact h.recorded id outcome now
  · exact h.adoptIssuer issuer
  · exact h.changed hc

end WellFormed

end Virtkit.Node
