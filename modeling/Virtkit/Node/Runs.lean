import Virtkit.Node.State
import Virtkit.Common.Lists
import Virtkit.Common.Transition

/-!
# What becomes of journal entries

A journal entry changes in two ways: its outcome moves from accepted to a final one, and the hub's
record of it is noted. `Moved` says the first, with what an operation may move to as a parameter.
Entries are dropped only once they are settled: over, and recorded by the hub as they are.
-/

namespace Virtkit.Node

open Virtkit.Common Virtkit.Fleet List

/-- An entry is the same but for its outcome, which may have moved from accepted to a final one that
its operation may come to. -/
structure Moved (may : Operation → Outcome → Prop) (e e' : Entry) : Prop where
  same : e' = { e with outcome := e'.outcome }
  outcome : e'.outcome = e.outcome ∨ e.outcome = .accepted ∧ e'.outcome ≠ .accepted ∧ may e.op e'.outcome

section Moves

variable {may : Operation → Outcome → Prop} {e e' e'' : Entry} {es es' es'' : List Entry}

theorem Moved.refl (may : Operation → Outcome → Prop) (e : Entry) : Moved may e e :=
  ⟨rfl, .inl rfl⟩

theorem moved_outcome {outcome : Outcome} (hunder : e.outcome = .accepted)
    (hfinal : outcome ≠ .accepted) (hmay : may e.op outcome) : Moved may e { e with outcome := outcome } :=
  ⟨rfl, .inr ⟨hunder, hfinal, hmay⟩⟩

section

variable (h : Moved may e e')
include h

theorem Moved.id_op : e'.id = e.id ∧ e'.op = e.op := by
  rw [h.same]
  exact ⟨rfl, rfl⟩

/-- An entry that is final stays as it is. -/
theorem Moved.eq_of_final (hfinal : e.outcome ≠ .accepted) : e' = e := by
  rcases h.outcome with heq | ⟨hunder, -⟩
  · rw [h.same, heq]
  · exact absurd hunder hfinal

theorem Moved.accepted {f : Operation → Bool} (he : e.outcome = .accepted ∧ f e.op = true)
    (hnot : ∀ o, ¬ may e.op o) : e'.outcome = .accepted ∧ f e'.op = true := by
  rw [h.id_op.2]
  refine ⟨?_, he.2⟩
  rcases h.outcome with heq | ⟨-, -, hmay⟩
  · exact heq.trans he.1
  · exact absurd hmay (hnot _)

theorem Moved.trans (h' : Moved may e' e'') : Moved may e e'' := by
  refine ⟨?_, ?_⟩
  · rw [h'.same, h.same]
  · rcases h.outcome with heq | ⟨hunder, hfinal, hmay⟩
    · rcases h'.outcome with heq' | ⟨hunder', hfinal', hmay'⟩
      · exact .inl (heq'.trans heq)
      · rw [h.id_op.2] at hmay'
        exact .inr ⟨heq.symm.trans hunder', hfinal', hmay'⟩
    · rw [h'.eq_of_final hfinal]
      exact .inr ⟨hunder, hfinal, hmay⟩

theorem Moved.mono {may' : Operation → Outcome → Prop}
    (hmay : ∀ op outcome, may op outcome → may' op outcome) : Moved may' e e' :=
  ⟨h.same, h.outcome.imp_right fun ⟨hunder, hfinal, hm⟩ => ⟨hunder, hfinal, hmay _ _ hm⟩⟩

end

theorem moved_refl (may : Operation → Outcome → Prop) (es : List Entry) : List.Forall₂ (Moved may) es es :=
  List.forall₂_same.mpr fun e _ => .refl may e

theorem moved_trans (h : List.Forall₂ (Moved may) es es')
    (h' : List.Forall₂ (Moved may) es' es'') : List.Forall₂ (Moved may) es es'' := by
  induction h generalizing es'' with
  | nil =>
    cases h'
    exact .nil
  | cons hd _ ih =>
    cases h' with
    | cons hd' tl' => exact .cons (hd.trans hd') (ih tl')

theorem exists_of_moved (h : Forall₂ (Moved may) es es') (he : e' ∈ es') : ∃ e ∈ es, Moved may e e' :=
  exists_of_forall₂ h he

theorem moved_of_mem (h : Forall₂ (Moved may) es es') (he : e ∈ es) : ∃ e' ∈ es', Moved may e e' :=
  exists_of_forall₂ h.flip he

theorem map_id_of_moved (h : List.Forall₂ (Moved may) es es') : es'.map Entry.id = es.map Entry.id := by
  induction h with
  | nil => rfl
  | cons hd _ ih => rw [map_cons, map_cons, hd.id_op.1, ih]

/-- Setting an outcome moves that entry on. -/
theorem moved_setOutcome {id : String} {outcome : Outcome} (hfinal : outcome ≠ .accepted)
    (h : ∀ e ∈ es, e.id = id → e.outcome = .accepted ∧ may e.op outcome) :
    List.Forall₂ (Moved may) es (setOutcome id outcome es) := by
  induction es with
  | nil => exact .nil
  | cons e es ih =>
    have ih' := ih fun e' he' => h e' (mem_cons_of_mem _ he')
    by_cases hid : e.id = id
    · obtain ⟨hunder, hmay⟩ := h e mem_cons_self hid
      rw [setOutcome, if_pos hid]
      exact .cons (moved_outcome hunder hfinal hmay) (moved_refl may es)
    · rw [setOutcome, if_neg hid]
      exact .cons (.refl may e) ih'

theorem moved_settleDrains {outcome : Outcome} (hfinal : outcome ≠ .accepted)
    (hmay : may .drain outcome) (p : Persisted) :
    List.Forall₂ (Moved may) p.journal (p.settleDrains outcome).journal := by
  rw [Persisted.settleDrains, List.forall₂_map_right_iff, List.forall₂_same]
  intro e _
  by_cases hdrains : e.drains = true
  · rw [if_pos hdrains]
    rw [Entry.drains, Bool.and_eq_true, decide_eq_true_eq, decide_eq_true_eq] at hdrains
    exact moved_outcome hdrains.2 hfinal (by rw [hdrains.1]; exact hmay)
  · rw [if_neg hdrains]
    exact .refl may e

end Moves

section Pruning

variable {e : Entry} {es : List Entry}

theorem dropExcess_sublist (n : ℕ) (es : List Entry) : (dropExcess n es).Sublist es := by
  induction es generalizing n with
  | nil => cases n <;> exact List.Sublist.refl []
  | cons e es ih =>
    cases n with
    | zero => exact List.Sublist.refl _
    | succ n =>
      rw [dropExcess]
      split_ifs
      · exact (ih n).cons e
      · exact (ih (n + 1)).cons_cons e

theorem mem_dropExcess {n : ℕ} (he : e ∈ es) : e ∈ dropExcess n es ∨ e.settled = true := by
  induction es generalizing n with
  | nil => nomatch he
  | cons e₀ es ih =>
    cases n with
    | zero => exact .inl he
    | succ n =>
      rw [dropExcess]
      rcases mem_cons.mp he with rfl | he
      · by_cases hs : e.settled = true
        · exact .inr hs
        · rw [if_neg hs]
          exact .inl mem_cons_self
      · split_ifs
        · exact ih he
        · exact (ih he).imp_left fun hmem => mem_cons_of_mem _ hmem

section

variable (p : Persisted) (now : ℕ)
include p now

theorem prune_journal : ∃ n, (p.prune now).journal =
    dropExcess n (p.journal.filter fun e => !(e.settled && e.expiresAt ≤ now)) := by
  unfold Persisted.prune
  dsimp only
  generalize List.countP _ _ - journalMax = n
  exact ⟨n, rfl⟩

theorem prune_eq : p.prune now = { p with journal := (p.prune now).journal } := by
  unfold Persisted.prune
  dsimp only

theorem prune_sublist : (p.prune now).journal.Sublist p.journal := by
  obtain ⟨n, hn⟩ := prune_journal p now
  rw [hn]
  exact (dropExcess_sublist n _).trans filter_sublist

/-- Pruning drops only settled entries. -/
theorem mem_prune (he : e ∈ p.journal) : e ∈ (p.prune now).journal ∨ e.settled = true := by
  by_cases hs : e.settled = true
  · exact .inr hs
  · obtain ⟨n, hn⟩ := prune_journal p now
    rw [hn]
    refine mem_dropExcess (mem_filter.mpr ⟨he, ?_⟩)
    rw [Bool.eq_false_iff.mpr hs]
    rfl

end

theorem not_settled_of_unrecorded (h : e.recorded = none) : e.settled = false := by
  rw [Entry.settled, h]
  rfl

theorem not_settled_of_accepted (h : e.outcome = .accepted) : e.settled = false := by
  rw [Entry.settled, h, Bool.and_eq_false_iff]
  exact .inr rfl

end Pruning

/-!
## A node's runs

What happens to a node's state: commands from the hub, desired states and recorded answers; the
control loop that finishes a drain or calls it off; the update and reset tasks that carry a job
through maintenance and validation; tools builds; and restarts, into another enrollment too. Each is
applied under the state's lock and saved before anything follows it, and here every save succeeds.

An update that could neither be kept nor taken back ends its job and then, with the lock taken anew,
quarantines the node by its own hand: other steps may come between the two.
-/

inductive NodeEvent where
  | command (command : Command) (now : ℕ) (can : Abilities)
  | desired (desired : DesiredState)
  | recorded (id : String) (outcome : Outcome) (now : ℕ)
  /-- The node starts again, for an issuer. -/
  | restart (issuer : Issuer)
  | finishDrain (now : ℕ)
  | drainExpired (now : ℕ)
  | resetBlocked (message : String)
  /-- A reset cleared the node and validates it. -/
  | resetCleared
  /-- A reset ended: validated, or failed. -/
  | endReset (failed : Option String)
  /-- An update switches to its release on trial. -/
  | switch (trial : Trial)
  /-- The release on trial is started once more. -/
  | countAttempt
  /-- The release on trial passed, and is to be installed. -/
  | confirm
  /-- An update ended; where no binary could be run, the node is then to be quarantined. -/
  | endUpdate (failed : Option String) (phase : UpdatePhase) (noBinary : Bool)
  /-- The node takes itself out of work. -/
  | quarantine
  | moveTools (phase : ToolsPhase)
  | endTools (failed : Option (String × List String))

/-- A node: its persisted state, and whether its update task is about to quarantine it. With it go
two facts of its history: whether a quarantine was answered as done with no release answered as done
since, and a drain with no undrain. -/
structure Host where
  persisted : Persisted
  quarantining : Bool
  quarantineHeld : Bool
  drainHeld : Bool

/-- The outcome of a job or a build that ended. -/
def endOutcome (failed : Option String) : Outcome := failed.elim .done .failed

namespace Persisted

variable (p : Persisted)

/-- Whether a command is new to the node, and not the one of the job or the build under way: commands
have distinct IDs, and the journal of another issuer is forgotten. -/
def distinct (command : Command) : Bool :=
  p.journal.any (·.id = command.id) ||
    (p.job.all (·.command ≠ command.id) && p.tools.all (·.command ≠ command.id))

/-- Change the trial of the job under way. -/
def mapTrial (f : Trial → Trial) : Persisted :=
  { p with job := p.job.map fun job => { job with trial := job.trial.map f } }

def quarantine : Persisted :=
  if p.state ≠ .quarantined then
    { p with quarantinedFrom := some p.state, state := .quarantined }
  else p

/-- Whether the update task has an update to carry out or to end: one in maintenance, or one whose
release is on trial. -/
def updates : Bool :=
  p.job.any fun job => !isReset job && (job.trial.isSome || p.state = .maintenance)

/-- Whether the reset task has a reset to carry out. -/
def resets : Bool :=
  p.job.any isReset && (p.state = .maintenance || p.state = .validating)

/-- What an event makes of the persisted state: none where it cannot happen. The tasks do nothing
else while they are about to quarantine the node. -/
def apply (quarantining : Bool) : NodeEvent → Option Persisted
  | .command command now can => if p.distinct command then some (p.commandAs command now can).1 else none
  | .desired desired => some (p.applyDesired desired)
  | .recorded id outcome now => some (p.recorded id outcome now)
  | .restart issuer => some (p.adoptIssuer issuer)
  | .finishDrain now => some (p.finishDrain now)
  | .drainExpired now => some (p.drainExpired now)
  | .resetBlocked message => some (p.resetBlocked message)
  | .resetCleared =>
    if !quarantining && p.resets && p.state = .maintenance then some { p with state := .validating }
    else none
  | .endReset failed =>
    if !quarantining && p.resets && (failed.isSome || p.state = .validating) then
      some (p.endJobIn (endOutcome failed) (failed.elim .done fun _ => .failed) (failed.map fun _ => .drained))
    else none
  | .switch trial =>
    if !quarantining && p.updates && p.job.all (·.trial.isNone) then
      some (({ p with job := p.job.map fun job => { job with trial := some trial } } :
        Persisted).setPhase .validating .validating)
    else none
  | .countAttempt =>
    if p.updates then some (p.mapTrial fun t => { t with attempts := satAdd u32Max t.attempts 1 })
    else none
  | .confirm =>
    if !quarantining && p.updates then some (p.mapTrial fun t => { t with confirmed := true })
    else none
  | .endUpdate failed phase noBinary =>
    if !quarantining && p.updates && (!noBinary || p.job.all (·.trial.isSome)) then
      some (p.endJob (endOutcome failed) phase)
    else none
  | .quarantine => if quarantining then some p.quarantine else none
  | .moveTools phase => some (p.moveTools phase)
  | .endTools failed => some (p.endTools failed)

end Persisted

/-- Whether the update task is about to quarantine the node after an event. -/
def quarantiningAfter (quarantining : Bool) : NodeEvent → Bool
  | .endUpdate _ _ noBinary => noBinary
  | .quarantine | .restart _ => false
  | _ => quarantining

/-- Whether a command of an operation was answered as done over a change of the journal. -/
def answeredDone (op : Operation) (before after : List Entry) : Bool :=
  after.any fun e => e.op = op && e.outcome = .done && before.all fun e' => e'.id ≠ e.id || e'.outcome ≠ .done

def Host.step (n : Host) (event : NodeEvent) : Option Host :=
  (n.persisted.apply n.quarantining event).map fun p =>
    { persisted := p
      quarantining := quarantiningAfter n.quarantining event
      quarantineHeld := (n.quarantineHeld || answeredDone .quarantine n.persisted.journal p.journal) &&
        !answeredDone .release n.persisted.journal p.journal
      drainHeld := (n.drainHeld || answeredDone .drain n.persisted.journal p.journal) &&
        !answeredDone .undrain n.persisted.journal p.journal }

/-- A node from its first start on. -/
def nodeSystem : System Host NodeEvent :=
  .ofFunction (fun n => n = ⟨.default, false, false, false⟩) Host.step

end Virtkit.Node
