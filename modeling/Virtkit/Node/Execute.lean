import Virtkit.Node.Runs

/-!
# What commands and ends do to the journal

The command of the job or the build under way is journaled as accepted, if it is journaled at all: a
node enrolled anew has forgotten it. Carrying out a command journals it and, where it calls off a
drain or the job the node drains for, settles those as failed. The ends of drains, jobs and builds
settle their own commands and no others.
-/

namespace Virtkit.Node

open Virtkit.Common Virtkit.Fleet Persisted

/-- The journal holds each command once, and those of the job and the build under way as accepted. -/
structure Persisted.Journaled (p : Persisted) : Prop where
  nodup : (p.journal.map Entry.id).Nodup
  job : ∀ j, p.job = some j → ∀ e ∈ p.journal, e.id = j.command → e.outcome = .accepted ∧ isJob e.op = true
  tools : ∀ t, p.tools = some t → ∀ e ∈ p.journal, e.id = t.command →
    e.outcome = .accepted ∧ isTools e.op = true

/-- A change of the state that moves outcomes as `may` says, and takes up no job and no build; one
that goes on keeps its command from moving. -/
structure Persisted.Changed (may : Operation → Outcome → Prop) (p p' : Persisted) : Prop where
  journal : List.Forall₂ (Moved may) p.journal p'.journal
  job : ∀ j', p'.job = some j' → (∃ j, p.job = some j ∧ j'.command = j.command) ∧
    ∀ op outcome, isJob op = true → ¬ may op outcome
  tools : ∀ t, p'.tools = some t → p.tools = some t ∧ ∀ op outcome, isTools op = true → ¬ may op outcome

/-- Nothing moves. -/
def never : Operation → Outcome → Prop := fun _ _ => False

def drainsTo (outcome : Outcome) : Operation → Outcome → Prop :=
  fun op o => op = .drain ∧ o = outcome

/-- Updates and resets move to an outcome. -/
def jobsTo (outcome : Outcome) : Operation → Outcome → Prop :=
  fun op o => isJob op = true ∧ o = outcome

/-- Tools builds move to an outcome. -/
def toolsTo (outcome : Outcome) : Operation → Outcome → Prop :=
  fun op o => isTools op = true ∧ o = outcome

theorem isJob_ne_isTools (op : Operation) : ¬ (isJob op = true ∧ isTools op = true) := by
  cases op <;> simp [isJob, isTools]

section Changes

variable {may : Operation → Outcome → Prop} {p p' p'' : Persisted}

theorem job_ne (h : p.job = none) (j : Job) : p.job ≠ some j := by
  rw [h]
  nofun

theorem Persisted.Changed.same (hjournal : p'.journal = p.journal)
    (hjob : ∀ j', p'.job = some j' → ∃ j, p.job = some j ∧ j'.command = j.command)
    (htools : p'.tools = p.tools) : p.Changed never p' := by
  refine ⟨?_, fun j' hj' => ⟨hjob j' hj', fun _ _ _ hnever => hnever⟩, fun t ht => ?_⟩
  · rw [hjournal]
    exact moved_refl never p.journal
  · rw [htools] at ht
    exact ⟨ht, fun _ _ _ hnever => hnever⟩

/-- A change that moves entries on keeps the journal in order. -/
theorem Persisted.Journaled.changed (h : p.Journaled) (hc : p.Changed may p') : p'.Journaled := by
  refine ⟨?_, ?_, ?_⟩
  · rw [map_id_of_moved hc.journal]
    exact h.nodup
  · intro j' hj' e' he' hid
    obtain ⟨⟨j, hj, hcommand⟩, hnot⟩ := hc.job j' hj'
    obtain ⟨e, he, hm⟩ := exists_of_moved hc.journal he'
    have hentry := h.job j hj e he (by rw [← hm.id_op.1, hid, hcommand])
    exact hm.accepted hentry fun o => hnot _ o hentry.2
  · intro t ht e' he' hid
    obtain ⟨ht, hnot⟩ := hc.tools t ht
    obtain ⟨e, he, hm⟩ := exists_of_moved hc.journal he'
    have hentry := h.tools t ht e he (by rw [← hm.id_op.1, hid])
    exact hm.accepted hentry fun o => hnot _ o hentry.2

theorem changed_endJobIn (h : p.Journaled) (outcome : Outcome) (hfinal : outcome ≠ .accepted)
    (phase : UpdatePhase) (resume : Option NodeState) : p.Changed (jobsTo outcome) (p.endJobIn outcome phase resume) ∧
      (p.endJobIn outcome phase resume).job = none := by
  have htools : ∀ op o, isTools op = true → ¬ jobsTo outcome op o := fun op _ ht hj => isJob_ne_isTools op ⟨hj.1, ht⟩
  unfold endJobIn
  cases hj : p.job with
  | none => exact ⟨⟨moved_refl _ _, fun j' hj' => absurd hj' (job_ne hj j'), fun t ht => ⟨ht, htools⟩⟩, hj⟩
  | some j =>
    refine ⟨⟨?_, nofun, fun t ht => ⟨ht, htools⟩⟩, rfl⟩
    exact moved_setOutcome hfinal fun e he hid => ⟨(h.job j hj e he hid).1, (h.job j hj e he hid).2, rfl⟩

theorem changed_settleDrains (outcome : Outcome) (hfinal : outcome ≠ .accepted) (p : Persisted) :
    p.Changed (drainsTo outcome) (p.settleDrains outcome) := by
  refine ⟨moved_settleDrains hfinal ⟨rfl, rfl⟩ p, fun j' hj' => ⟨⟨j', hj', rfl⟩, ?_⟩, fun t ht => ⟨ht, ?_⟩⟩
  · rintro op o hop ⟨rfl, -⟩
    nomatch hop
  · rintro op o hop ⟨rfl, -⟩
    nomatch hop

theorem Persisted.Changed.trans {may' : Operation → Outcome → Prop} (h : p.Changed may p') (h' : p'.Changed may' p'') :
    p.Changed (fun op outcome => may op outcome ∨ may' op outcome) p'' := by
  refine ⟨?_, fun j'' hj'' => ?_, fun t ht => ?_⟩
  · refine moved_trans (h.journal.imp fun _ _ hm => ?_) (h'.journal.imp fun _ _ hm => ?_)
    · exact hm.mono fun _ _ => .inl
    · exact hm.mono fun _ _ => .inr
  · obtain ⟨⟨j', hj', hcommand'⟩, hnot'⟩ := h'.job j'' hj''
    obtain ⟨⟨j, hj, hcommand⟩, hnot⟩ := h.job j' hj'
    refine ⟨⟨j, hj, hcommand'.trans hcommand⟩, fun op o hop hmay => ?_⟩
    rcases hmay with hmay | hmay
    · exact hnot op o hop hmay
    · exact hnot' op o hop hmay
  · obtain ⟨ht', hnot'⟩ := h'.tools t ht
    obtain ⟨ht, hnot⟩ := h.tools t ht'
    refine ⟨ht, fun op o hop hmay => ?_⟩
    rcases hmay with hmay | hmay
    · exact hnot op o hop hmay
    · exact hnot' op o hop hmay

/-- Moves to a failure, of drains and jobs. -/
def calledOff : Operation → Outcome → Prop :=
  fun op outcome => (op = .drain ∨ isJob op = true) ∧ ∃ message, outcome = .failed message

/-- What carrying out a command changes: drains and jobs are called off, and a job or a build is
taken up only for the command, which is then accepted. -/
structure Persisted.Executed (p : Persisted) (command : Command) (p' : Persisted)
    (outcome : Outcome) : Prop where
  changed : ∃ may, (∀ op o, may op o → calledOff op o) ∧ List.Forall₂ (Moved may) p.journal p'.journal ∧
    (∀ j', p'.job = some j' →
      ((∃ j, p.job = some j ∧ j'.command = j.command) ∧ ∀ op o, isJob op = true → ¬ may op o) ∨
      j'.command = command.id ∧ outcome = .accepted ∧ isJob command.op = true)
  tools : ∀ t, p'.tools = some t → p.tools = some t ∨
    t.command = command.id ∧ outcome = .accepted ∧ isTools command.op = true

variable {command : Command} {outcome : Outcome}

theorem Persisted.Changed.executed (h : p.Changed may p') (hmay : ∀ op o, may op o → calledOff op o) :
    p.Executed command p' outcome :=
  ⟨⟨may, hmay, h.journal, fun j' hj' => .inl (h.job j' hj')⟩, fun t ht => .inl (h.tools t ht).1⟩

theorem executed_keeps (hjournal : p'.journal = p.journal) (hjob : p'.job = p.job)
    (htools : p'.tools = p.tools) : p.Executed command p' outcome := by
  have hc : p.Changed never p' := .same hjournal (fun j' hj' => ⟨j', by rw [← hjob, hj'], rfl⟩) htools
  exact hc.executed fun _ _ => False.elim

theorem executed_same (p : Persisted) (command : Command) (outcome : Outcome) : p.Executed command p outcome :=
  executed_keeps rfl rfl rfl

/-- What taking an update or a reset comes to: it is refused and nothing changes, or its job is taken up. -/
inductive Persisted.Taken (p : Persisted) (command : Command) : Persisted × Outcome → Prop
  | refused (why : String) : Taken p command (p, .refused why)
  | job {p' : Persisted} {j : Job} (drainable : Bool) (hstate : p.state ≠ .quarantined) (hjob : p'.job = some j)
      (hcommand : j.command = command.id) (hfresh : j.quarantineAfter = false ∧ j.trial = none)
      (hnext : (j.resume, p'.state) = jobStates p.state drainable)
      (hrest : p'.journal = p.journal ∧ p'.tools = p.tools) : Taken p command (p', .accepted)

theorem taken_update (p : Persisted) {release : Release} {force : Bool} {withinSecs : Option ℕ} {now : ℕ}
    {can : Abilities} : p.Taken command (p.takeUpdate command release force withinSecs now can) := by
  unfold takeUpdate
  split_ifs with hsha hq
  · exact .refused _
  · exact .refused _
  · exact .refused _
  · cases can.update with
    | error why => exact .refused why
    | ok _ =>
      dsimp only
      split_ifs <;> exact .job can.drainable hq rfl rfl ⟨rfl, rfl⟩ rfl ⟨rfl, rfl⟩

theorem taken_reset (p : Persisted) {images : Bool} {can : Abilities} :
    p.Taken command (p.takeReset command images can) := by
  unfold takeReset
  split_ifs with hq
  · exact .refused _
  · exact .refused _
  · exact .job true hq rfl rfl ⟨rfl, rfl⟩ rfl ⟨rfl, rfl⟩

theorem Persisted.Taken.executed {r : Persisted × Outcome} (h : p.Taken command r) (hop : isJob command.op = true) :
    p.Executed command r.1 r.2 := by
  cases h with
  | refused why => exact executed_same p command _
  | @job p' j drainable hstate hjob hcommand hfresh hnext hrest =>
    refine ⟨⟨never, fun _ _ => False.elim, hrest.1 ▸ moved_refl _ _, fun j' hj' => .inr ?_⟩, fun t ht =>
      .inl (hrest.2 ▸ ht)⟩
    obtain rfl := Option.some.inj (hjob.symm.trans hj')
    exact ⟨hcommand, rfl, hop⟩

theorem executed_takeTools (p : Persisted) {version sha256 : String} {size : ℕ} (hop : isTools command.op = true) :
    p.Executed command (p.takeTools command version sha256 size).1 (p.takeTools command version sha256 size).2 := by
  unfold takeTools
  split_ifs
  · exact executed_same p command _
  · exact executed_same p command _
  · exact executed_same p command _
  · cases p.tools with
    | some tools => exact executed_same p command _
    | none =>
      refine ⟨⟨never, fun _ _ => False.elim, moved_refl _ _, fun j' hj' => .inl ?_⟩, fun t ht => .inr ?_⟩
      · exact ⟨⟨j', hj', rfl⟩, fun _ _ _ hnever => hnever⟩
      · cases ht
        exact ⟨rfl, rfl, hop⟩

theorem executed_settling (p : Persisted) (message : String) (settles : Prop) [Decidable settles]
    (state : NodeState) (quarantinedFrom : Option NodeState) :
    p.Executed command { (if settles then p.settleDrains (.failed message) else p) with
      state := state, quarantinedFrom := quarantinedFrom } outcome := by
  split_ifs
  · have hc := changed_settleDrains (.failed message) nofun p
    have hc' : p.Changed (drainsTo (.failed message)) { p.settleDrains (.failed message) with
        state := state, quarantinedFrom := quarantinedFrom } := ⟨hc.journal, hc.job, hc.tools⟩
    refine hc'.executed ?_
    rintro op o ⟨rfl, rfl⟩
    exact ⟨.inl rfl, message, rfl⟩
  · exact executed_keeps rfl rfl rfl

/-- What performing a command does to the journal. -/
theorem executed_perform (p : Persisted) (command : Command) (now : ℕ) (can : Abilities) :
    p.Executed command (p.perform command now can).1 (p.perform command now can).2 := by
  unfold Persisted.perform
  cases hop : command.op with
  | drain =>
    cases p.state with
    | ready => exact executed_keeps rfl rfl rfl
    | _ => exact executed_same p command _
  | undrain =>
    cases p.state with
    | quarantined => exact executed_same p command _
    | _ => exact executed_settling p _ _ _ p.quarantinedFrom
  | quarantine =>
    cases p.state with
    | quarantined => exact executed_same p command _
    | _ => exact executed_settling p _ _ _ _
  | release =>
    cases p.state with
    | quarantined => exact executed_keeps rfl rfl rfl
    | _ => exact executed_same p command _
  | update version sha256 size signature force withinSecs => exact (taken_update p).executed (by rw [hop]; rfl)
  | reset images => exact (taken_reset p).executed (by rw [hop]; rfl)
  | tools version sha256 size => exact executed_takeTools p (by rw [hop]; rfl)

theorem Persisted.Executed.after (h : p'.Executed command p'' outcome) (hc : p.Changed may p')
    (hjob : p'.job = none) (hmay : ∀ op o, may op o → calledOff op o) : p.Executed command p'' outcome := by
  obtain ⟨may', hmay', hjournal, hjob'⟩ := h.changed
  refine ⟨⟨fun op o => may op o ∨ may' op o, ?_, ?_, fun j' hj' => .inr ?_⟩, fun t ht => ?_⟩
  · rintro op o (hm | hm)
    · exact hmay op o hm
    · exact hmay' op o hm
  · refine moved_trans (hc.journal.imp fun _ _ hm => ?_) (hjournal.imp fun _ _ hm => ?_)
    · exact hm.mono fun _ _ => .inl
    · exact hm.mono fun _ _ => .inr
  · rcases hjob' j' hj' with ⟨⟨j, hj, -⟩, -⟩ | hnew
    · rw [hjob] at hj
      nomatch hj
    · exact hnew
  · exact (h.tools t ht).imp_left fun ht' => (hc.tools t ht').1

/-- What a command does while a job runs. -/
theorem executed_duringJob (h : p.Journaled) (command : Command) : match p.duringJob command.op with
    | (p', some outcome) => p.Executed command p' outcome
    | (p', none) => ∀ p'' outcome, p'.Executed command p'' outcome → p.Executed command p'' outcome := by
  unfold duringJob
  cases hj : p.job with
  | none => exact fun p'' outcome he => he
  | some job =>
    -- The job is called off: what follows is carried out with no job under way.
    have hoff : ∀ how p'' outcome,
        ({ p.endJob (.failed how) .failed with state := .draining } : Persisted).Executed command
          p'' outcome → p.Executed command p'' outcome := by
      intro how p'' outcome he
      obtain ⟨hc, hnone⟩ := changed_endJobIn h (.failed how) nofun .failed none
      have hc' : p.Changed (jobsTo (.failed how)) { p.endJob (.failed how) .failed with
          state := .draining } := ⟨hc.journal, hc.job, hc.tools⟩
      refine he.after hc' hnone ?_
      rintro op o ⟨hop, rfl⟩
      exact ⟨.inr hop, how, rfl⟩
    have hkeeps : ∀ job' outcome, job'.command = job.command →
        p.Executed command { p with job := some job' } outcome := by
      intro job' outcome hcommand
      have hc : p.Changed never { p with job := some job' } := by
        refine .same rfl (fun j' hj' => ⟨job, hj, ?_⟩) rfl
        rw [← Option.some.inj hj', hcommand]
      exact hc.executed fun _ _ => False.elim
    cases command.op with
    | update | reset => exact executed_same p command _
    | drain | release => exact hkeeps _ _ rfl
    | undrain =>
      split_ifs
      · exact hoff _
      · exact executed_same p command _
    | quarantine =>
      split_ifs
      · exact hoff _
      · exact hkeeps _ _ rfl
    | tools => exact fun p'' outcome he => he

/-- What executing a command does to the journal. -/
theorem executed_execute (h : p.Journaled) (command : Command) (now : ℕ) (can : Abilities) :
    p.Executed command (p.execute command now can).1 (p.execute command now can).2 := by
  have hduring := executed_duringJob h command
  unfold Persisted.execute
  generalize p.duringJob command.op = during at hduring ⊢
  obtain ⟨p', answer⟩ := during
  cases answer with
  | some outcome => exact hduring
  | none =>
    refine hduring _ _ ?_
    dsimp only
    split
    · exact executed_same p' command _
    · exact executed_same p' command _
    · exact executed_perform p' command now can

/-- A new command is answered and journaled. -/
theorem journal_commandAs (hnew : p.journal.find? (·.id = command.id) = none) (now : ℕ)
    (can : Abilities) (h : p.Journaled) : ∃ p' outcome, p.commandAs command now can =
        (({ p' with journal := p'.journal ++
          [⟨command.id, command.op, command.expiresAt, now, outcome, none⟩] } : Persisted).prune now,
          outcome) ∧
      p.Executed command p' outcome ∧
      (command.expiresAt ≤ now ∧ p' = p ∧ outcome = .expired ∨
        now < command.expiresAt ∧ p.execute command now can = (p', outcome)) := by
  unfold commandAs
  rw [hnew]
  by_cases hlate : command.expiresAt ≤ now
  · rw [if_pos hlate]
    exact ⟨p, .expired, rfl, executed_same p command _, .inl ⟨hlate, rfl, rfl⟩⟩
  · rw [if_neg hlate]
    have he := executed_execute h command now can
    exact ⟨_, _, rfl, he, .inr ⟨not_le.mp hlate, rfl⟩⟩

end Changes

end Virtkit.Node
