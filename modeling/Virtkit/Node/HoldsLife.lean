import Virtkit.Node.HoldsRuns

/-!
# Quarantines and drains over a node's life

A quarantine answered as done holds until a release is answered as done, and a drain until an undrain
is, in every run in which the node quarantines itself only with no drain under way. Without that
condition the drain does not hold: the node's own quarantine leaves a drain under way as accepted in
the journal, and the next job's drain settles it as done although the job returns to ready.
-/

namespace Virtkit.Node

open Virtkit.Common Virtkit.Fleet List Option Persisted

section Life

variable {may : Operation → Outcome → Prop} {p p' : Persisted}

/-- What a step of the node's own keeps in force: its own quarantine where no drain is under way. -/
theorem keeps_apply (h : p.Placed) (hjournaled : p.Journaled) {quarantining : Bool}
    {event : NodeEvent} (hstep : p.apply quarantining event = some p')
    (hcommand : ∀ command now can, event ≠ .command command now can)
    (hown : event = .quarantine → ∀ e ∈ p.journal, e.drains = false) : p.Keeps p' := by
  cases event <;> dsimp only [Persisted.apply] at hstep
  case command command now can => exact absurd rfl (hcommand command now can)
  case recorded id outcome now =>
    cases hstep
    obtain ⟨journal, heq, -, hentries⟩ := recorded_eq p id outcome now
    rw [heq]
    refine keeps_same h rfl rfl rfl fun e' he' hd => ?_
    obtain ⟨e, he, rfl | ⟨rfl, -⟩⟩ := hentries e' he'
    · exact ⟨e', he, hd⟩
    · exact ⟨e, he, hd⟩
  case restart issuer =>
    cases hstep
    unfold adoptIssuer
    split_ifs
    · exact ⟨h, id, id⟩
    · exact keeps_same h rfl rfl rfl nofun
  case desired desired =>
    cases hstep
    unfold applyDesired
    split_ifs
    · exact ⟨h, id, id⟩
    · exact keeps_state h rfl rfl rfl rfl
  case finishDrain now =>
    cases hstep
    exact (keeps_finishDrain h now).1
  case drainExpired now =>
    cases hstep
    unfold drainExpired
    split_ifs with hexpired
    · rw [Bool.and_eq_true, decide_eq_true_eq] at hexpired
      obtain ⟨j, hj, -⟩ := (any_eq_true _ _).mp hexpired.2
      exact keeps_callOffDrain h hjournaled hj hexpired.1 _ (.inl rfl)
    · exact ⟨h, id, id⟩
  case resetBlocked message =>
    cases hstep
    unfold resetBlocked
    split_ifs with hblocked
    · rw [Bool.and_eq_true, decide_eq_true_eq] at hblocked
      obtain ⟨j, hj, -⟩ := (any_eq_true _ _).mp hblocked.2
      exact keeps_callOffDrain h hjournaled hj hblocked.1 _ (.inr rfl)
    · exact ⟨h, id, id⟩
  case resetCleared =>
    split_ifs at hstep with hguard
    cases hstep
    rw [Bool.and_eq_true, Bool.and_eq_true] at hguard
    obtain ⟨⟨j, hj⟩, hs⟩ := of_resets hguard.1.2
    exact keeps_mapJob h map_id'.symm (fun j => ⟨rfl, rfl⟩) hs (by rw [hj]; nofun) (.inr rfl) rfl rfl
  case endReset failed =>
    split_ifs at hstep with hguard
    cases hstep
    rw [Bool.and_eq_true, Bool.and_eq_true] at hguard
    obtain ⟨⟨j, hj⟩, hs⟩ := of_resets hguard.1.2
    refine keeps_endJobIn h hjournaled hj hs (endOutcome_final failed) _ ?_
    cases failed with
    | none => exact .inl rfl
    | some message => exact .inr rfl
  case switch trial =>
    split_ifs at hstep with hguard
    cases hstep
    rw [Bool.and_eq_true, Bool.and_eq_true] at hguard
    obtain ⟨⟨j, hj⟩, hs⟩ := h.of_updates hguard.1.2
    exact keeps_mapJob h rfl (fun j => ⟨rfl, rfl⟩) hs (by rw [hj]; nofun) (.inr rfl) rfl rfl
  case countAttempt =>
    split_ifs at hstep with hguard
    cases hstep
    obtain ⟨⟨j, hj⟩, hs⟩ := h.of_updates hguard
    exact keeps_mapJob h rfl (fun j => ⟨rfl, rfl⟩) hs (by rw [hj]; nofun) (.inl rfl) rfl rfl
  case confirm =>
    split_ifs at hstep with hguard
    cases hstep
    rw [Bool.and_eq_true] at hguard
    obtain ⟨⟨j, hj⟩, hs⟩ := h.of_updates hguard.2
    exact keeps_mapJob h rfl (fun j => ⟨rfl, rfl⟩) hs (by rw [hj]; nofun) (.inl rfl) rfl rfl
  case endUpdate failed phase noBinary =>
    split_ifs at hstep with hguard
    cases hstep
    rw [Bool.and_eq_true, Bool.and_eq_true] at hguard
    obtain ⟨⟨j, hj⟩, hs⟩ := h.of_updates hguard.1.2
    exact keeps_endJobIn h hjournaled hj hs (endOutcome_final failed) phase (.inl rfl)
  case quarantine =>
    split_ifs at hstep
    cases hstep
    exact keeps_quarantine h (hown rfl)
  case moveTools phase =>
    cases hstep
    unfold moveTools
    split
    · split_ifs
      · exact keeps_state h rfl rfl rfl rfl
      · exact ⟨h, id, id⟩
    · exact ⟨h, id, id⟩
  case endTools failed =>
    cases hstep
    obtain ⟨outcome, hc⟩ := changed_endTools hjournaled failed
    have hkeep : (p.endTools failed).state = p.state ∧ (p.endTools failed).quarantinedFrom = p.quarantinedFrom ∧
        (p.endTools failed).job = p.job := by
      unfold endTools
      split <;> exact ⟨rfl, rfl, rfl⟩
    refine keeps_same h hkeep.1 hkeep.2.1 hkeep.2.2 fun e' he' hd => ?_
    obtain ⟨e, he, hm⟩ := exists_of_moved hc.journal he'
    exact ⟨e, he, hm.drains hd⟩

theorem answeredDone_moved {op : Operation} {es es' : List Entry}
    (h : List.Forall₂ (Moved may) es es') (ha : answeredDone op es es' = true) :
    ∃ e ∈ es, e.op = op ∧ e.outcome = .accepted ∧ may op .done := by
  obtain ⟨e', he', hcond⟩ := any_eq_true.mp ha
  rw [Bool.and_eq_true, Bool.and_eq_true, decide_eq_true_eq, decide_eq_true_eq] at hcond
  obtain ⟨⟨hop, hdone⟩, hnew⟩ := hcond
  obtain ⟨e, he, hm⟩ := exists_of_moved h he'
  obtain ⟨hid, hop'⟩ := hm.id_op
  rcases hm.outcome with heq | ⟨hacc, -, hmay⟩
  · have hnot := all_eq_true.mp hnew e he
    rw [hid, ← heq, hdone] at hnot
    simp at hnot
  · rw [hdone, ← hop', hop] at hmay
    exact ⟨e, he, hop'.symm.trans hop, hacc, hmay⟩

theorem answeredDone_sub {op : Operation} {es es' : List Entry}
    (h : ∀ e' ∈ es', ∃ e ∈ es, e'.id = e.id ∧ e'.outcome = e.outcome) : answeredDone op es es' = false := by
  rw [Bool.eq_false_iff]
  intro ha
  obtain ⟨e', he', hcond⟩ := any_eq_true.mp ha
  rw [Bool.and_eq_true, Bool.and_eq_true, decide_eq_true_eq, decide_eq_true_eq] at hcond
  obtain ⟨⟨-, hdone⟩, hnew⟩ := hcond
  obtain ⟨e, he, hid, hout⟩ := h e' he'
  have hnot := all_eq_true.mp hnew e he
  rw [hid, ← hout, hdone] at hnot
  simp at hnot

/-- Of the entries only the command's own is answered as done. -/
theorem answeredDone_command {command : Command} {outcome : Outcome}
    (he : p.Executed command p' outcome) (hnew : ∀ e ∈ p.journal, e.id ≠ command.id) {now : ℕ}
    {journal : List Entry} (op : Operation)
    (hsub : journal.Sublist (p'.journal ++ [⟨command.id, command.op, command.expiresAt, now, outcome, none⟩]))
    (hmem : ⟨command.id, command.op, command.expiresAt, now, outcome, none⟩ ∈ journal) :
    answeredDone op p.journal journal = true ↔ command.op = op ∧ outcome = .done := by
  obtain ⟨may, hmay, hjournal, -⟩ := he.changed
  constructor
  · intro ha
    obtain ⟨e', he', hcond⟩ := any_eq_true.mp ha
    rw [Bool.and_eq_true, Bool.and_eq_true, decide_eq_true_eq, decide_eq_true_eq] at hcond
    obtain ⟨⟨hop, hdone⟩, hfirst⟩ := hcond
    rcases mem_append.mp (hsub.subset he') with hold | hlast
    · obtain ⟨e, hmem', hm⟩ := exists_of_moved hjournal hold
      rcases hm.outcome with heq | ⟨-, -, hm'⟩
      · have hnot := all_eq_true.mp hfirst e hmem'
        rw [hm.id_op.1, ← heq, hdone] at hnot
        simp at hnot
      · obtain ⟨-, message, hfailed⟩ := hmay _ _ hm'
        rw [hdone] at hfailed
        nomatch hfailed
    · obtain rfl := mem_singleton.mp hlast
      exact ⟨hop, hdone⟩
  · rintro ⟨hop, hdone⟩
    refine any_eq_true.mpr ⟨_, hmem, ?_⟩
    rw [Bool.and_eq_true, Bool.and_eq_true, decide_eq_true_eq, decide_eq_true_eq]
    refine ⟨⟨hop, hdone⟩, all_eq_true.mpr fun e he => ?_⟩
    rw [Bool.or_eq_true, decide_eq_true_eq]
    exact .inl (hnew e he)

/-- A new command, journaled: what it keeps in force, what it puts in force, and what is answered as
done. -/
theorem obeyed_commandAs (h : p.Placed) (hjournaled : p.Journaled) {command : Command}
    (hfind : p.journal.find? (·.id = command.id) = none) (now : ℕ) (can : Abilities) :
    ∃ outcome, p.Obeyed command (p.commandAs command now can).1 outcome ∧
      ∀ op, answeredDone op p.journal (p.commandAs command now can).1.journal = true ↔
        command.op = op ∧ outcome = .done := by
  obtain ⟨p', outcome, heq, he, hcase⟩ := journal_commandAs hfind now can hjournaled
  have hobeyed : p.Obeyed command p' outcome := by
    rcases hcase with ⟨-, rfl, rfl⟩ | ⟨-, hexec⟩
    · exact ⟨h, nofun, .inr, .inr, nofun, nofun⟩
    · have ho := obeyed_execute h command now can
      rw [hexec] at ho
      exact ho
  rw [heq]
  generalize hentry : (⟨command.id, command.op, command.expiresAt, now, outcome, none⟩ : Entry) = entry
  have hsub := prune_sublist ({ p' with journal := p'.journal ++ [entry] }) now
  have hmem : entry ∈ (Persisted.prune { p' with journal := p'.journal ++ [entry] } now).journal := by
    rcases mem_prune ({ p' with journal := p'.journal ++ [entry] }) now
      (mem_append_right p'.journal (mem_singleton_self entry)) with hmem | hsettled
    · exact hmem
    · rw [← hentry, not_settled_of_unrecorded rfl] at hsettled
      nomatch hsettled
  refine ⟨outcome, ?_, fun op => ?_⟩
  · dsimp only
    rw [prune_eq]
    generalize (Persisted.prune _ now).journal = journal at hsub
    refine ⟨⟨hobeyed.placed.idle, hobeyed.placed.busy, fun e he hd => ?_⟩, hobeyed.drainsOn,
      fun hq => (hobeyed.quarantined hq).imp_right fun hq => hq.congr rfl rfl,
      fun hd => (hobeyed.drained hd).imp_right fun hd => hd.congr rfl rfl rfl,
      fun hop hdone => (hobeyed.quarantines hop hdone).congr rfl rfl,
      fun hop hdone => (hobeyed.drains hop hdone).congr rfl rfl rfl⟩
    rcases mem_append.mp (hsub.subset he) with hold | hlast
    · exact hobeyed.placed.drains e hold hd
    · obtain rfl := mem_singleton.mp hlast
      rw [← hentry, Entry.drains, Bool.and_eq_true, decide_eq_true_eq, decide_eq_true_eq] at hd
      exact hobeyed.drainsOn hd.1 hd.2
  · rw [← hentry] at hsub hmem ⊢
    exact answeredDone_command he (fun e => id_ne_of_new hfind) op hsub hmem

/-- What a node's history has in force is in force in its state. -/
structure Host.Kept (n : Host) : Prop where
  journaled : n.persisted.Journaled
  placed : n.persisted.Placed
  quarantined : n.quarantineHeld = true → n.persisted.Quarantined
  drained : n.drainHeld = true → n.persisted.Drained

/-- A step of the node's own answers no quarantine as done, and a drain only where it finishes. -/
theorem drained_of_answered (h : p.Placed) (hjournaled : p.Journaled) {quarantining : Bool}
    {event : NodeEvent} (hstep : p.apply quarantining event = some p')
    (hcommand : ∀ command now can, event ≠ .command command now can) :
    answeredDone .quarantine p.journal p'.journal = false ∧
      (answeredDone .drain p.journal p'.journal = true → p'.Drained) := by
  have hsub : ∀ {es : List Entry}, (∀ e' ∈ es, ∃ e ∈ p.journal, e'.id = e.id ∧
      e'.outcome = e.outcome) → p'.journal = es →
      answeredDone .quarantine p.journal p'.journal = false ∧
        (answeredDone .drain p.journal p'.journal = true → p'.Drained) := by
    rintro es hes rfl
    refine ⟨answeredDone_sub hes, fun ha => ?_⟩
    rw [answeredDone_sub hes] at ha
    cases ha
  rcases apply_cases hjournaled hstep with ⟨command, now, can, rfl, -⟩ |
    ⟨id, outcome, now, -, rfl⟩ | ⟨issuer, -, rfl⟩ | ⟨may, hc, hmay⟩
  · exact absurd rfl (hcommand command now can)
  · obtain ⟨journal, heq, -, hentries⟩ := recorded_eq p id outcome now
    refine hsub (fun e' he' => ?_) (by rw [heq])
    obtain ⟨e, he, rfl | ⟨rfl, -⟩⟩ := hentries e' he'
    · exact ⟨e', he, rfl, rfl⟩
    · exact ⟨e, he, rfl, rfl⟩
  · refine hsub (fun e' he' => ?_) rfl
    unfold adoptIssuer at he'
    split_ifs at he'
    · exact ⟨e', he', rfl, rfl⟩
    · cases he'
  · refine ⟨?_, fun ha => ?_⟩
    · rw [Bool.eq_false_iff]
      intro ha
      obtain ⟨e, -, -, -, hm⟩ := answeredDone_moved hc.journal ha
      rcases hmay _ _ hm with ⟨hop, -⟩ | hop | hop
      · cases hop
      · cases hop
      · cases hop
    · obtain ⟨e, he, hop, hacc, hm⟩ := answeredDone_moved hc.journal ha
      rcases hmay _ _ hm with ⟨-, now, rfl⟩ | hop | hop
      · cases hstep
        refine (keeps_finishDrain h now).2 ⟨e, he, ?_⟩
        rw [Entry.drains, hop, hacc]
        rfl
      · cases hop
      · cases hop

/-- Every step keeps what the history has in force, the node's own quarantine where no drain is under
way. -/
theorem Host.Kept.step {n n' : Host} (h : n.Kept) {event : NodeEvent} (hstep : n.step event = some n')
    (hown : event = .quarantine → ∀ e ∈ n.persisted.journal, e.drains = false) : n'.Kept := by
  obtain ⟨p, hp, rfl⟩ := map_eq_some_iff.mp hstep
  have hjournaled := h.journaled.apply hp
  by_cases hcommand : ∀ command now can, event ≠ .command command now can
  · obtain ⟨hplaced, hq, hd⟩ := keeps_apply h.placed h.journaled hp hcommand hown
    obtain ⟨hnoq, hdrained⟩ := drained_of_answered h.placed h.journaled hp hcommand
    refine ⟨hjournaled, hplaced, fun hheld => ?_, fun hheld => ?_⟩
    · rw [hnoq, Bool.or_false, Bool.and_eq_true] at hheld
      exact hq (h.quarantined hheld.1)
    · rw [Bool.and_eq_true, Bool.or_eq_true] at hheld
      rcases hheld.1 with hheld | ha
      · exact hd (h.drained hheld)
      · exact hdrained ha
  · simp only [not_forall, not_not] at hcommand
    obtain ⟨command, now, can, rfl⟩ := hcommand
    simp only [Persisted.apply] at hp
    split_ifs at hp with hdistinct
    cases hp
    cases hfind : n.persisted.journal.find? (·.id = command.id) with
    | some entry =>
      have hsame : (n.persisted.commandAs command now can).1 = n.persisted := by
        unfold commandAs
        rw [hfind]
      have hnone : ∀ op, answeredDone op n.persisted.journal n.persisted.journal = false :=
        fun op => answeredDone_sub fun e he => ⟨e, he, rfl, rfl⟩
      rw [hsame]
      refine ⟨h.journaled, h.placed, fun hheld => ?_, fun hheld => ?_⟩
      · dsimp only at hheld
        rw [hnone, Bool.or_false, Bool.and_eq_true] at hheld
        exact h.quarantined hheld.1
      · dsimp only at hheld
        rw [hnone, Bool.or_false, Bool.and_eq_true] at hheld
        exact h.drained hheld.1
    | none =>
      obtain ⟨outcome, ho, hanswered⟩ := obeyed_commandAs h.placed h.journaled hfind now can
      refine ⟨hjournaled, ho.placed, fun hheld => ?_, fun hheld => ?_⟩
      · rw [Bool.and_eq_true, Bool.or_eq_true, Bool.not_eq_true'] at hheld
        rcases hheld.1 with hold | ha
        · refine (ho.quarantined (h.quarantined hold)).resolve_left fun hrelease => ?_
          rw [(hanswered .release).mpr hrelease] at hheld
          nomatch hheld.2
        · obtain ⟨hop, hdone⟩ := (hanswered .quarantine).mp ha
          exact ho.quarantines hop hdone
      · rw [Bool.and_eq_true, Bool.or_eq_true, Bool.not_eq_true'] at hheld
        rcases hheld.1 with hold | ha
        · refine (ho.drained (h.drained hold)).resolve_left fun hundrain => ?_
          rw [(hanswered .undrain).mpr hundrain] at hheld
          nomatch hheld.2
        · obtain ⟨hop, hdone⟩ := (hanswered .drain).mp ha
          exact ho.drains hop hdone

/-- The node quarantines itself only with no drain under way. -/
def OwnUndrained (n : Host) (event : NodeEvent) (_ : Host) : Prop :=
  event = .quarantine → ∀ e ∈ n.persisted.journal, e.drains = false

/-- A quarantine answered as done holds until a release is answered as done, and a drain until an
undrain is: the node is not ready meanwhile, and its runner is to take no jobs. -/
theorem quarantine_and_drain_hold {n : Host} (h : (nodeSystem.restrict OwnUndrained).Reachable n)
    (hheld : n.quarantineHeld = true ∨ n.drainHeld = true) :
    n.persisted.state ≠ .ready ∧ n.persisted.acquisitionStopped = true := by
  have hkept : n.Kept := by
    refine h.invariant ?_ fun n event n' hn hstep => hn.step hstep.1 hstep.2
    rintro n rfl
    exact ⟨⟨nodup_nil, nofun, nofun⟩, ⟨fun _ => ⟨nofun, nofun⟩, nofun, nofun⟩, nofun, nofun⟩
  have hready := hkept.placed.not_ready (hheld.imp hkept.quarantined hkept.drained)
  refine ⟨hready, ?_⟩
  rw [acquisitionStopped, decide_eq_true hready, Bool.true_or]

end Life

section Examples

/-- A command that does not expire soon. -/
def asked (id : String) (op : Operation) : NodeEvent :=
  .command ⟨id, 1000, op⟩ 1 ⟨true, .ok ()⟩

/-- A drained node is not ready. -/
theorem quarantine_and_drain_hold_drained : ∃ n : Host,
    (nodeSystem.restrict OwnUndrained).Reachable n ∧ n.drainHeld = true ∧ n.persisted.acquisitionStopped = true := by
  have hrun : (System.exec Host.step ⟨.default, false, false, false⟩
      [asked "drain" .drain, .finishDrain 2]).any (fun n => n.drainHeld) = true := by
    decide +kernel
  obtain ⟨n, hn, hheld⟩ := (any_eq_true _ _).mp hrun
  have hreach : (nodeSystem.restrict OwnUndrained).Reachable n := by
    refine System.reachable_restrict_of_exec rfl (fun event hevent _ _ hquarantine => ?_) hn
    rw [hquarantine] at hevent
    rcases mem_cons.mp hevent with heq | hevent
    · nomatch heq
    · nomatch mem_singleton.mp hevent
  exact ⟨n, hreach, hheld, (quarantine_and_drain_hold hreach (.inr hheld)).2⟩

/-- An update is rolled back with no binary to run; a drain arrives before the node quarantines itself
and stays accepted. Released, the node drains for a reset, which settles the drain as done and then
returns the node to ready. -/
theorem drain_lost_to_own_quarantine : ∃ n : Host, nodeSystem.Reachable n ∧
    n.drainHeld = true ∧ n.persisted.state = .ready := by
  exact System.exists_reachable ⟨.default, false, false, false⟩
    [asked "update" (.update "2.0.0" (String.ofList (List.replicate 64 'a')) 1 none false none),
      .finishDrain 2, .switch ⟨"vk", (1, 1), "next", none, 1, 600, false⟩,
      .endUpdate (some "rolled back: validation failed") .rolledBack true,
      asked "drain" .drain, .quarantine, asked "release" .release,
      asked "reset" (.reset false), .finishDrain 3, .resetCleared, .endReset none] rfl (by decide +kernel)

end Examples

end Virtkit.Node
