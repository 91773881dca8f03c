import Virtkit.Node.ExchangeHub

/-!
# The node's journal and its answers

`Kept` says how a journal comes from another in any step: outcomes move on from accepted, answers are
noted as recorded, a command is added, and entries are dropped once they are recorded as over. `Tracks`
relates the journal to the answers given: what was answered of a journaled command is its outcome or
accepted, and a command answered but not journaled any more does not come again.
-/

namespace Virtkit.Node

open Virtkit.Common Virtkit.Fleet List Option

/-- An entry after a step in which answers may have been noted as recorded. -/
structure Evolved (notes : List (String × Outcome)) (e e' : Entry) : Prop where
  id : e'.id = e.id
  outcome : e'.outcome = e.outcome ∨ e.outcome = .accepted
  recorded : e'.recorded = e.recorded ∨ ∃ o, e'.recorded = some o ∧ (e.id, o) ∈ notes

/-- How a journal comes from another: with answers noted as recorded, a command added, and entries
dropped that are recorded as over. -/
structure Kept (notes : List (String × Outcome)) (fresh : Option (String × Outcome))
    (es es' : List Entry) : Prop where
  back : ∀ e' ∈ es', (∃ e ∈ es, Evolved notes e e') ∨ fresh = some (e'.id, e'.outcome) ∧ e'.recorded = none
  forth : ∀ e ∈ es, (∃ e' ∈ es', Evolved notes e e') ∨
    ∃ o, o ≠ .accepted ∧ (e.recorded = some o ∨ (e.id, o) ∈ notes)
  added : ∀ x, fresh = some x → ∃ e' ∈ es', e'.id = x.1 ∧ e'.recorded = none

section Kept

variable {notes : List (String × Outcome)} {fresh : Option (String × Outcome)} {es es' : List Entry}
  {p : Persisted}

theorem kept_of_moved {may : Operation → Outcome → Prop} (h : List.Forall₂ (Moved may) es es') :
    Kept [] none es es' := by
  have hevolved : ∀ e e', Moved may e e' → Evolved [] e e' := by
    intro e e' hm
    refine ⟨hm.id_op.1, hm.outcome.imp_right And.left, .inl ?_⟩
    rw [hm.same]
  refine ⟨fun e' he' => .inl ?_, fun e he => .inl ?_, nofun⟩
  · obtain ⟨e, he, hm⟩ := exists_of_moved h he'
    exact ⟨e, he, hevolved e e' hm⟩
  · obtain ⟨e', he', hm⟩ := moved_of_mem h he
    exact ⟨e', he', hevolved e e' hm⟩

/-- Pruning drops only what the hub has recorded. -/
theorem Kept.prune (hk : Kept notes fresh es p.journal) (now : ℕ) : Kept notes fresh es (p.prune now).journal := by
  refine ⟨fun e' he' => hk.back e' ((prune_sublist p now).subset he'), fun e he => ?_, fun x hx => ?_⟩
  · rcases hk.forth e he with ⟨e', he', hev⟩ | hover
    · rcases mem_prune p now he' with hstays | hsettled
      · exact .inl ⟨e', hstays, hev⟩
      · rw [Entry.settled, Bool.and_eq_true, decide_eq_true_eq, decide_eq_true_eq] at hsettled
        refine .inr ⟨e'.outcome, hsettled.2, ?_⟩
        rcases hev.recorded with hsame | ⟨o, ho, hnote⟩
        · exact .inl (hsame.symm.trans hsettled.1)
        · obtain rfl := some.inj (ho.symm.trans hsettled.1)
          exact .inr hnote
    · exact .inr hover
  · obtain ⟨e', he', hid, hrec⟩ := hk.added x hx
    rcases mem_prune p now he' with hstays | hsettled
    · exact ⟨e', hstays, hid, hrec⟩
    · rw [not_settled_of_unrecorded hrec] at hsettled
      cases hsettled

theorem kept_commandAs (h : p.Journaled) {command : Command}
    (hnew : p.journal.find? (·.id = command.id) = none) (now : ℕ) (can : Abilities) :
    Kept [] (some (command.id, (p.commandAs command now can).2)) p.journal (p.commandAs command now can).1.journal := by
  obtain ⟨p', outcome, heq, he, -⟩ := journal_commandAs hnew now can h
  obtain ⟨may, -, hjournal, -⟩ := he.changed
  have hk := kept_of_moved hjournal
  rw [heq]
  refine Kept.prune ⟨fun e' he' => ?_, fun e he => ?_, fun x hx => ?_⟩ now
  · rcases mem_append.mp he' with he' | he'
    · exact .inl ((hk.back e' he').resolve_right fun hnone => nomatch hnone.1)
    · obtain rfl := mem_singleton.mp he'
      exact .inr ⟨rfl, rfl⟩
  · obtain ⟨e', he', hm⟩ := moved_of_mem hjournal he
    refine .inl ⟨e', mem_append_left _ he', hm.id_op.1, hm.outcome.imp_right And.left, .inl ?_⟩
    rw [hm.same]
  · obtain rfl := some.inj hx
    exact ⟨_, mem_append_right _ (mem_singleton.mpr rfl), rfl, rfl⟩

theorem mem_setRecorded {id : String} {outcome : Outcome} {e : Entry} (he : e ∈ es) : e ∈ setRecorded id outcome es ∨
      { e with recorded := some outcome } ∈ setRecorded id outcome es ∧ e.id = id := by
  induction es with
  | nil => nomatch he
  | cons e₀ es ih =>
    rw [setRecorded]
    rcases mem_cons.mp he with rfl | he
    · split_ifs with hid
      · exact .inr ⟨mem_cons_self, hid⟩
      · exact .inl mem_cons_self
    · split_ifs
      · exact .inl (mem_cons_of_mem _ he)
      · exact (ih he).imp (mem_cons_of_mem _) (And.imp_left (mem_cons_of_mem _))

/-- A recorded outcome is noted in the journal. -/
theorem kept_recorded (p : Persisted) (id : String) (outcome : Outcome) (now : ℕ) :
    Kept [(id, outcome)] none p.journal (p.recorded id outcome now).journal := by
  have hsame : ∀ e, Evolved [(id, outcome)] e e := fun e => ⟨rfl, .inl rfl, .inl rfl⟩
  have hnoted : ∀ e : Entry, e.id = id → Evolved [(id, outcome)] e { e with recorded := some outcome } := fun e hid =>
    ⟨rfl, .inl rfl, .inr ⟨outcome, rfl, mem_singleton.mpr (by rw [hid])⟩⟩
  have hrefl : Kept [(id, outcome)] none p.journal p.journal :=
    ⟨fun e he => .inl ⟨e, he, hsame e⟩, fun e he => .inl ⟨e, he, hsame e⟩, nofun⟩
  unfold Persisted.recorded
  split
  · split_ifs
    · have hk : Kept [(id, outcome)] none p.journal
          ({ p with journal := setRecorded id outcome p.journal } : Persisted).journal := by
        refine ⟨fun e' he' => .inl ?_, fun e he => .inl ?_, nofun⟩
        · obtain ⟨e, he, rfl | ⟨rfl, hid⟩⟩ := exists_of_mem_setRecorded he'
          · exact ⟨e', he, hsame e'⟩
          · exact ⟨e, he, hnoted e hid⟩
        · rcases mem_setRecorded he with hmem | ⟨hmem, hid⟩
          · exact ⟨e, hmem, hsame e⟩
          · exact ⟨_, hmem, hnoted e hid⟩
      exact hk.prune now
    · exact hrefl
  · exact hrefl

end Kept

/-- How a journal relates to the answers given: `closed` commands do not come again, and of each that
is recorded as over the hub `keeps` the outcome. -/
structure Tracks (closed : String → Prop) (keeps : String → Outcome → Prop) (journal : List Entry)
    (answered : List (String × Outcome)) : Prop where
  known : ∀ e ∈ journal, ∃ o, (e.id, o) ∈ answered
  current : ∀ x ∈ answered, ∀ e ∈ journal, e.id = x.1 → x.2 = e.outcome ∨ x.2 = .accepted
  kept : ∀ x ∈ answered, (∃ e ∈ journal, e.id = x.1) ∨ closed x.1
  recorded : ∀ e ∈ journal, ∀ o, e.recorded = some o → (e.id, o) ∈ answered ∧
    (o ≠ .accepted → closed e.id ∧ keeps e.id o)
  order : answered.Pairwise Follows

section Tracks

variable {closed closed' : String → Prop} {keeps keeps' : String → Outcome → Prop}
  {es es' : List Entry} {answered : List (String × Outcome)} {notes : List (String × Outcome)}
  {fresh : Option (String × Outcome)}

section

variable (ht : Tracks closed keeps es answered)
include ht

theorem Tracks.mono (hclosed : ∀ id, closed id → closed' id) (hkeeps : ∀ id o, keeps id o → keeps' id o) :
    Tracks closed' keeps' es answered :=
  ⟨ht.known, ht.current, fun x hx => (ht.kept x hx).imp_right (hclosed _), fun e he o ho =>
    (ht.recorded e he o ho).imp_right fun hover hfinal => (hover hfinal).imp (hclosed _) (hkeeps _ _), ht.order⟩

theorem Tracks.told {e : Entry} (he : e ∈ es) (hnodup : (es.map Entry.id).Nodup) :
    Tracks closed keeps es ((e.id, e.outcome) :: answered) := by
  refine ⟨fun e' he' => ?_, fun x hx e' he' hid => ?_, fun x hx => ?_, fun e' he' o ho => ?_,
    pairwise_cons.mpr ⟨fun x hx hid => ht.current x hx e he hid, ht.order⟩⟩
  · obtain ⟨o, ho⟩ := ht.known e' he'
    exact ⟨o, mem_cons_of_mem _ ho⟩
  · rcases mem_cons.mp hx with rfl | hx
    · obtain rfl := inj_on_of_nodup_map hnodup he' he hid
      exact .inl rfl
    · exact ht.current x hx e' he' hid
  · rcases mem_cons.mp hx with rfl | hx
    · exact .inl ⟨e, he, rfl⟩
    · exact ht.kept x hx
  · exact (ht.recorded e' he' o ho).imp_left (mem_cons_of_mem _)

/-- A step keeps the journal to the answers, if what it notes was answered and is kept by the hub
once it is over, and what it adds was not answered before. -/
theorem Tracks.step (hk : Kept notes fresh es es')
    (hnotes : ∀ x ∈ notes, x ∈ answered ∧ (x.2 ≠ .accepted → closed x.1 ∧ keeps x.1 x.2))
    (hfresh : ∀ x, fresh = some x → ∀ y ∈ answered, y.1 ≠ x.1) :
    Tracks closed keeps es' (fresh.toList ++ answered) := by
  refine ⟨fun e' he' => ?_, fun x hx e' he' hid => ?_, fun x hx => ?_, fun e' he' o ho => ?_, ?_⟩
  · rcases hk.back e' he' with ⟨e, he, hev⟩ | ⟨hf, -⟩
    · obtain ⟨o, ho⟩ := ht.known e he
      exact ⟨o, mem_append_right _ (hev.id ▸ ho)⟩
    · exact ⟨e'.outcome, mem_append_left _ (mem_toList.mpr hf)⟩
  · rcases mem_append.mp hx with hx | hx
    · have hf := mem_toList.mp hx
      rcases hk.back e' he' with ⟨e, he, hev⟩ | ⟨hf', -⟩
      · obtain ⟨o, ho⟩ := ht.known e he
        exact absurd (hev.id.symm.trans hid) (hfresh x hf _ ho)
      · obtain rfl := some.inj (hf'.symm.trans hf)
        exact .inl rfl
    · rcases hk.back e' he' with ⟨e, he, hev⟩ | ⟨hf, -⟩
      · rcases ht.current x hx e he (hev.id.symm.trans hid) with hsame | hacc
        · rcases hev.outcome with hout | hout
          · exact .inl (hsame.trans hout.symm)
          · exact .inr (hsame.trans hout)
        · exact .inr hacc
      · exact absurd hid.symm (hfresh _ hf x hx)
  · rcases mem_append.mp hx with hx | hx
    · obtain ⟨e', he', hid, -⟩ := hk.added x (mem_toList.mp hx)
      exact .inl ⟨e', he', hid⟩
    · rcases ht.kept x hx with ⟨e, he, hid⟩ | hclosed
      · rcases hk.forth e he with ⟨e', he', hev⟩ | ⟨o, hfinal, hrec | hnote⟩
        · exact .inl ⟨e', he', hev.id.trans hid⟩
        · exact .inr (hid ▸ ((ht.recorded e he o hrec).2 hfinal).1)
        · exact .inr (hid ▸ ((hnotes _ hnote).2 hfinal).1)
      · exact .inr hclosed
  · rcases hk.back e' he' with ⟨e, he, hev⟩ | ⟨-, hnone⟩
    · rw [hev.id]
      rcases hev.recorded with hsame | ⟨o', ho', hnote⟩
      · exact (ht.recorded e he o (hsame ▸ ho)).imp_left (mem_append_right _)
      · obtain rfl := some.inj (ho'.symm.trans ho)
        exact (hnotes _ hnote).imp_left (mem_append_right _)
    · rw [hnone] at ho
      nomatch ho
  · cases fresh with
    | none => exact ht.order
    | some x => exact pairwise_cons.mpr ⟨fun y hy hid => absurd hid.symm (hfresh x rfl y hy), ht.order⟩

/-- An entry that is gone was final, and the hub keeps its outcome. -/
theorem Tracks.dropped (hk : Kept notes fresh es es')
    (hnotes : ∀ x ∈ notes, x ∈ answered ∧ (x.2 ≠ .accepted → keeps x.1 x.2)) {e : Entry} (he : e ∈ es)
    (hgone : ∀ e' ∈ es', e'.id ≠ e.id) : e.outcome ≠ .accepted ∧ keeps e.id e.outcome := by
  rcases hk.forth e he with ⟨e', he', hev⟩ | ⟨o, hfinal, hover⟩
  · exact absurd hev.id (hgone e' he')
  · have hgiven : (e.id, o) ∈ answered ∧ (o ≠ .accepted → keeps e.id o) := by
      rcases hover with hrec | hnote
      · exact (ht.recorded e he o hrec).imp_right fun h hfinal => (h hfinal).2
      · exact hnotes _ hnote
    obtain rfl := (ht.current _ hgiven.1 e he rfl).resolve_right hfinal
    exact ⟨hfinal, hgiven.2 hfinal⟩

end

end Tracks

/-!
## The node's side of commands

The command of the job or the build under way stays journaled: it is accepted, and only what is over
is dropped. So a command that is not journaled is none the node works on, and if it may still come it
was never answered: it is carried out for the first time.
-/

/-- The commands of the job and the build under way are journaled. -/
structure Persisted.Owns (p : Persisted) : Prop where
  job : ∀ j, p.job = some j → ∃ e ∈ p.journal, e.id = j.command
  tools : ∀ t, p.tools = some t → ∃ e ∈ p.journal, e.id = t.command

section Owns

variable {may : Operation → Outcome → Prop} {p p' : Persisted}

theorem Persisted.Owns.prune (ho : p.Owns) (h : p.Journaled) (now : ℕ) : (p.prune now).Owns := by
  have hstays : ∀ e ∈ p.journal, e.outcome = .accepted → e ∈ (p.prune now).journal := by
    intro e he hacc
    refine (mem_prune p now he).resolve_right ?_
    rw [not_settled_of_accepted hacc]
    exact Bool.false_ne_true
  rw [prune_eq]
  generalize (p.prune now).journal = journal at hstays ⊢
  refine ⟨fun j hj => ?_, fun t ht => ?_⟩
  · obtain ⟨e, he, hid⟩ := ho.job j hj
    exact ⟨e, hstays e he (h.job j hj e he hid).1, hid⟩
  · obtain ⟨e, he, hid⟩ := ho.tools t ht
    exact ⟨e, hstays e he (h.tools t ht e he hid).1, hid⟩

theorem Persisted.Owns.changed (ho : p.Owns) (hc : p.Changed may p') : p'.Owns := by
  refine ⟨fun j' hj' => ?_, fun t ht => ?_⟩
  · obtain ⟨⟨j, hj, hcommand⟩, -⟩ := hc.job j' hj'
    obtain ⟨e, he, hid⟩ := ho.job j hj
    obtain ⟨e', he', hm⟩ := moved_of_mem hc.journal he
    exact ⟨e', he', hm.id_op.1.trans (hid.trans hcommand.symm)⟩
  · obtain ⟨e, he, hid⟩ := ho.tools t (hc.tools t ht).1
    obtain ⟨e', he', hm⟩ := moved_of_mem hc.journal he
    exact ⟨e', he', hm.id_op.1.trans hid⟩

theorem Persisted.Owns.recorded (ho : p.Owns) (h : p.Journaled) (id : String) (outcome : Outcome)
    (now : ℕ) : (p.recorded id outcome now).Owns := by
  unfold Persisted.recorded
  split
  · split_ifs
    · have hmem : ∀ e ∈ p.journal, ∃ e' ∈ setRecorded id outcome p.journal, e'.id = e.id := by
        intro e he
        rcases mem_setRecorded he with hmem | ⟨hmem, -⟩
        · exact ⟨e, hmem, rfl⟩
        · exact ⟨_, hmem, rfl⟩
      refine Owns.prune ⟨fun j hj => ?_, fun t ht => ?_⟩ ?_ now
      · obtain ⟨e, he, hid⟩ := ho.job j hj
        obtain ⟨e', he', hid'⟩ := hmem e he
        exact ⟨e', he', hid'.trans hid⟩
      · obtain ⟨e, he, hid⟩ := ho.tools t ht
        obtain ⟨e', he', hid'⟩ := hmem e he
        exact ⟨e', he', hid'.trans hid⟩
      · refine h.of_entries ?_ (fun e' he' => ?_) rfl rfl
        · rw [map_id_setRecorded]
          exact h.nodup
        · obtain ⟨e, he, rfl | ⟨rfl, -⟩⟩ := exists_of_mem_setRecorded he'
          · exact ⟨e', he, rfl, rfl, rfl⟩
          · exact ⟨e, he, rfl, rfl, rfl⟩
    · exact ho
  · exact ho

theorem Persisted.Owns.distinct (ho : p.Owns) (command : Command) : p.distinct command = true := by
  unfold Persisted.distinct
  cases hany : p.journal.any (·.id = command.id) with
  | true => rfl
  | false =>
    have hne : ∀ e ∈ p.journal, e.id ≠ command.id := fun e he hid => any_eq_false.mp hany e he (decide_eq_true hid)
    rw [Bool.false_or, Bool.and_eq_true, Option.all_eq_true, Option.all_eq_true]
    refine ⟨fun j hj => decide_eq_true ?_, fun t ht => decide_eq_true ?_⟩
    · obtain ⟨e, he, hid⟩ := ho.job j hj
      exact hid ▸ hne e he
    · obtain ⟨e, he, hid⟩ := ho.tools t ht
      exact hid ▸ hne e he

theorem Persisted.Owns.commandAs (ho : p.Owns) (h : p.Journaled) {command : Command}
    (hnew : p.journal.find? (·.id = command.id) = none) (now : ℕ) (can : Abilities) :
    (p.commandAs command now can).1.Owns := by
  obtain ⟨p', outcome, heq, he, -⟩ := journal_commandAs hnew now can h
  obtain ⟨may, -, hjournal, hjob⟩ := he.changed
  have hnew' : ∀ e ∈ p.journal, e.id ≠ command.id := fun e => id_ne_of_new hnew
  have hwork : (∀ j, p.job = some j → j.command ≠ command.id) ∧ ∀ t, p.tools = some t → t.command ≠ command.id := by
    refine ⟨fun j hj => ?_, fun t ht => ?_⟩
    · obtain ⟨e, hmem, hid⟩ := ho.job j hj
      exact hid ▸ hnew' e hmem
    · obtain ⟨e, hmem, hid⟩ := ho.tools t ht
      exact hid ▸ hnew' e hmem
  have hold : ∀ e ∈ p.journal, ∃ e' ∈ p'.journal ++
      [(⟨command.id, command.op, command.expiresAt, now, outcome, none⟩ : Entry)], e'.id = e.id := by
    intro e hmem
    obtain ⟨e', he', hm⟩ := moved_of_mem hjournal hmem
    exact ⟨e', mem_append_left _ he', hm.id_op.1⟩
  rw [heq]
  refine Owns.prune ⟨fun j' hj' => ?_, fun t ht => ?_⟩ (he.journaled h hnew' hwork.1 hwork.2 now) now
  · rcases hjob j' hj' with ⟨⟨j, hj, hcommand⟩, -⟩ | ⟨hcommand, -⟩
    · obtain ⟨e, hmem, hid⟩ := ho.job j hj
      obtain ⟨e', he', hid'⟩ := hold e hmem
      exact ⟨e', he', hid'.trans (hid.trans hcommand.symm)⟩
    · exact ⟨_, mem_append_right _ (mem_singleton.mpr rfl), hcommand.symm⟩
  · rcases he.tools t ht with ht' | ⟨hcommand, -⟩
    · obtain ⟨e, hmem, hid⟩ := ho.tools t ht'
      obtain ⟨e', he', hid'⟩ := hold e hmem
      exact ⟨e', he', hid'.trans hid⟩
    · exact ⟨_, mem_append_right _ (mem_singleton.mpr rfl), hcommand.symm⟩

end Owns

/-- What the node's side keeps to: its journal, its answers, and that what it carried out was carried
out once, before it expired. -/
structure NodeSide.Sound (closed : String → Prop) (keeps : String → Outcome → Prop) (n : NodeSide) : Prop where
  journaled : n.persisted.Journaled
  owns : n.persisted.Owns
  tracks : Tracks closed keeps n.persisted.journal n.answered
  runs : ∀ x ∈ n.executed, x.2.2 < x.2.1 ∧ ∃ o, (x.1, o) ∈ n.answered
  once : (n.executed.map Prod.fst).Nodup

section Node

variable {closed closed' : String → Prop} {keeps keeps' : String → Outcome → Prop} {n : NodeSide}

section

variable (hs : n.Sound closed keeps)
include hs

theorem NodeSide.Sound.mono (hclosed : ∀ id, closed id → closed' id)
    (hkeeps : ∀ id o, keeps id o → keeps' id o) : n.Sound closed' keeps' :=
  ⟨hs.journaled, hs.owns, hs.tracks.mono hclosed hkeeps, hs.runs, hs.once⟩

/-- A command that is taken keeps the node's side sound. -/
theorem NodeSide.Sound.take {command : Command} (hopen : ¬ closed command.id) (can : Abilities) :
    (n.take command can).Sound closed keeps := by
  cases hfind : n.persisted.journal.find? (·.id = command.id) with
  | some entry =>
    have hcommand : n.persisted.commandAs command n.now can = (n.persisted, entry.outcome) := by
      unfold Persisted.commandAs
      rw [hfind]
    have hmem := mem_of_find?_eq_some hfind
    have hid : entry.id = command.id := by simpa using find?_some hfind
    have hany : n.persisted.journal.any (·.id = command.id) = true := any_eq_true.mpr ⟨entry, hmem, decide_eq_true hid⟩
    unfold NodeSide.take
    rw [hcommand, hany]
    refine ⟨hs.journaled, hs.owns, ?_, fun x hx => ?_, hs.once⟩
    · exact hid ▸ hs.tracks.told hmem hs.journaled.nodup
    · obtain ⟨htime, o, ho⟩ := hs.runs x hx
      exact ⟨htime, o, mem_cons_of_mem _ ho⟩
  | none =>
    have hnew : ∀ e ∈ n.persisted.journal, e.id ≠ command.id := fun e => id_ne_of_new hfind
    -- The command was never answered: it would be journaled, or not come again.
    have hfresh : ∀ y ∈ n.answered, y.1 ≠ command.id := by
      intro y hy hid
      rcases hs.tracks.kept y hy with ⟨e, he, hid'⟩ | hclosed
      · exact hnew e he (hid'.trans hid)
      · exact hopen (hid ▸ hclosed)
    have htracks := hs.tracks.step (kept_commandAs hs.journaled hfind n.now can) (nofun) (fun x hx => by
        cases hx
        exact hfresh)
    refine ⟨hs.journaled.commandAs (hs.owns.distinct command) n.now can,
      hs.owns.commandAs hs.journaled hfind n.now can, htracks, ?_, ?_⟩
    · have hold : ∀ x ∈ n.executed, x.2.2 < x.2.1 ∧ ∃ o, (x.1, o) ∈ (n.take command can).answered := by
        intro x hx
        obtain ⟨htime, o, ho⟩ := hs.runs x hx
        exact ⟨htime, o, mem_cons_of_mem _ ho⟩
      unfold NodeSide.take at hold ⊢
      split_ifs with hexec
      · intro x hx
        rcases mem_cons.mp hx with rfl | hx
        · rw [Bool.and_eq_true, decide_eq_true_eq] at hexec
          exact ⟨hexec.2, _, mem_cons_self⟩
        · exact hold x hx
      · exact hold
    · unfold NodeSide.take
      split_ifs
      · rw [map_cons, nodup_cons]
        refine ⟨fun hmem => ?_, hs.once⟩
        obtain ⟨x, hx, hid⟩ := mem_map.mp hmem
        obtain ⟨-, o, ho⟩ := hs.runs x hx
        exact hfresh _ ho hid
      · exact hs.once

theorem NodeSide.Sound.told {e : Entry} (he : e ∈ n.persisted.journal) :
    ({ n with answered := (e.id, e.outcome) :: n.answered } : NodeSide).Sound closed keeps := by
  refine ⟨hs.journaled, hs.owns, hs.tracks.told he hs.journaled.nodup, fun x hx => ?_, hs.once⟩
  obtain ⟨htime, o, ho⟩ := hs.runs x hx
  exact ⟨htime, o, mem_cons_of_mem _ ho⟩

theorem NodeSide.Sound.recorded {id : String} {outcome : Outcome} (hgiven : (id, outcome) ∈ n.answered)
    (hover : outcome ≠ .accepted → closed id ∧ keeps id outcome) :
    ({ n with persisted := n.persisted.recorded id outcome n.now } : NodeSide).Sound closed keeps := by
  refine ⟨hs.journaled.recorded id outcome n.now, hs.owns.recorded hs.journaled id outcome n.now, ?_, hs.runs, hs.once⟩
  refine hs.tracks.step (kept_recorded n.persisted id outcome n.now) (fun x hx => ?_) nofun
  obtain rfl := mem_singleton.mp hx
  exact ⟨hgiven, hover⟩

end

theorem moves_of_ownStep {p p' : Persisted} (h : p.Journaled) {quarantining : Bool}
    {event : NodeEvent} (hown : ownStep event = true)
    (hstep : p.apply quarantining event = some p') : ∃ may, p.Changed may p' := by
  rcases apply_cases h hstep with ⟨command, now, can, rfl, -⟩ | ⟨id, outcome, now, rfl, -⟩ |
    ⟨issuer, rfl, -⟩ | ⟨may, hc, -⟩
  · nomatch hown
  · nomatch hown
  · nomatch hown
  · exact ⟨may, hc⟩

/-- What the node does by itself keeps its side sound. -/
theorem NodeSide.Sound.own (hs : n.Sound closed keeps) {event : NodeEvent} (hown : ownStep event = true) {p : Persisted}
    (hstep : n.persisted.apply n.quarantining event = some p) (quarantining : Bool) :
    ({ n with persisted := p, quarantining := quarantining } : NodeSide).Sound closed keeps := by
  obtain ⟨may, hc⟩ := moves_of_ownStep hs.journaled hown hstep
  refine ⟨hs.journaled.changed hc, hs.owns.changed hc, ?_, hs.runs, hs.once⟩
  exact hs.tracks.step (kept_of_moved hc.journal) (nofun) nofun

end Node

end Virtkit.Node
