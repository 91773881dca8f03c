import Virtkit.Node.Holds

/-!
# Commands while a job is under way

While the node drains for an update or a reset, neither a quarantine nor a finished drain is in
force, and an undrain or a quarantine calls the job off. Once in maintenance, a drain is kept as what
the job returns to, and a quarantine as what it leads to. Together with the commands of a node with no
job under way, each command keeps what is in force but for what it undoes.
-/

namespace Virtkit.Node

open Virtkit.Common Virtkit.Fleet Option Bool Persisted

section Commands

variable {p p' : Persisted} {command : Command}

theorem placed_calledOff (hj : p.job.isSome = true) (outcome : Outcome) (phase : UpdatePhase) :
    ({ p.endJob outcome phase with state := .draining } : Persisted).Placed ∧ (p.endJob outcome phase).job = none := by
  obtain ⟨job, hj⟩ := isSome_iff_exists.mp hj
  have hnone : (p.endJob outcome phase).job = none := by simp only [endJob, endJobIn, hj]
  exact ⟨⟨fun _ => ⟨nofun, nofun⟩, fun j hj => absurd hj (job_ne hnone j), fun e he hd =>
    ⟨rfl, fun j hj => absurd hj (job_ne hnone j)⟩⟩, hnone⟩

/-- A command during a job obeys the holds. -/
theorem obeyed_duringJob (h : p.Placed) (command : Command) : match p.duringJob command.op with
    | (p', some outcome) => p.Obeyed command p' outcome
    | (p', none) => (p'.job = none ∨ isTools command.op = true) ∧ p'.Placed ∧
        ((p.Quarantined → p'.Quarantined) ∧ (p.Drained → p'.Drained)) := by
  unfold duringJob
  cases hj : p.job with
  | none => exact ⟨.inl hj, h, id, id⟩
  | some job =>
    obtain ⟨hready, hdrained, hdraining, hresume⟩ := h.busy job hj
    -- Neither is in force while the node drains for a job, which is called off.
    have hoff : ∀ how, p.state = .draining → let p' := { p.endJob (.failed how) .failed with state := .draining }
        (p'.job = none ∨ isTools command.op = true) ∧ p'.Placed ∧
          ((p.Quarantined → p'.Quarantined) ∧ (p.Drained → p'.Drained)) := by
      intro how hs
      obtain ⟨hplaced, hnone⟩ := placed_calledOff (by rw [hj]; rfl) (.failed how) .failed
      exact ⟨.inl hnone, hplaced, fun hq => absurd hs (hq.busy job hj).2, fun hd => absurd hs (hd.busy job hj).2⟩
    cases hop : command.op with
    | update | reset => exact obeyed_refused h _
    | tools => exact ⟨.inr rfl, h, id, id⟩
    | drain =>
      have hplaced : ({ p with job := some { job with resume := .drained } } : Persisted).Placed := by
        refine ⟨nofun, fun j hj' => ?_, fun e he hd => ⟨(h.drains e he hd).1, fun j hj' => ?_⟩⟩
        · cases hj'
          exact ⟨hready, hdrained, hdraining, .inr rfl⟩
        · cases hj'
          rfl
      refine ⟨hplaced, fun _ hacc => ⟨?_, fun j hj' => ?_⟩, fun hq => .inr ⟨nofun,
        fun j hj' => ?_⟩, fun hd => .inr ⟨nofun, fun j hj' => ?_⟩,
        fun heq => ?_, fun _ hdone => ⟨nofun, fun j hj' => ?_⟩⟩
      · by_contra hs
        rw [if_neg hs] at hacc
        nomatch hacc
      · cases hj'
        rfl
      · cases hj'
        exact hq.busy job hj
      · cases hj'
        exact ⟨rfl, (hd.busy job hj).2⟩
      · rw [hop] at heq
        nomatch heq
      · cases hj'
        refine ⟨rfl, fun hs => ?_⟩
        rw [if_pos hs] at hdone
        nomatch hdone
    | undrain =>
      dsimp only
      by_cases hs : p.state = .draining
      · rw [if_pos hs]
        exact hop ▸ hoff _ hs
      · rw [if_neg hs]
        exact obeyed_refused h _
    | quarantine =>
      dsimp only
      by_cases hs : p.state = .draining
      · rw [if_pos hs]
        exact hop ▸ hoff _ hs
      · rw [if_neg hs]
        have hheld : ({ p with job := some { job with quarantineAfter := true } } : Persisted).Quarantined := by
          refine ⟨nofun, fun j hj' => ?_⟩
          cases hj'
          exact ⟨rfl, hs⟩
        refine ⟨placed_of_no_drains (nofun) (fun j hj' => ?_) (h.no_drains hs), fun heq => ?_, fun _ => .inr hheld,
          fun hd => .inr ⟨nofun, fun j hj' => ?_⟩, fun _ _ => hheld,
          fun heq => ?_⟩
        · cases hj'
          exact ⟨hready, hdrained, fun hs' => absurd hs' hs, hresume⟩
        · rw [hop] at heq
          nomatch heq
        · cases hj'
          exact hd.busy job hj
        · rw [hop] at heq
          nomatch heq
    | release =>
      refine ⟨⟨nofun, fun j hj' => ?_, fun e he hd =>
        ⟨(h.drains e he hd).1, fun j hj' => ?_⟩⟩, fun heq => ?_, fun _ => .inl ⟨hop, rfl⟩,
        fun hd => .inr ⟨nofun, fun j hj' => ?_⟩, fun heq => ?_,
        fun heq => ?_⟩
      · cases hj'
        exact ⟨hready, hdrained, fun hs => ⟨rfl, (hdraining hs).2⟩, hresume⟩
      · cases hj'
        exact (h.drains e he hd).2 job hj
      · rw [hop] at heq
        nomatch heq
      · cases hj'
        exact hd.busy job hj
      · rw [hop] at heq
        nomatch heq
      · rw [hop] at heq
        nomatch heq

/-- Executing a command obeys the holds. -/
theorem obeyed_execute (h : p.Placed) (command : Command) (now : ℕ) (can : Abilities) :
    p.Obeyed command (p.execute command now can).1 (p.execute command now can).2 := by
  have hduring := obeyed_duringJob h command
  unfold Persisted.execute
  generalize p.duringJob command.op = during at hduring ⊢
  obtain ⟨p', answer⟩ := during
  cases answer with
  | some outcome => exact hduring
  | none =>
    obtain ⟨hidle, hplaced, hq, hd⟩ := hduring
    have hthen : ∀ r : Persisted × Outcome, p'.Obeyed command r.1 r.2 → p.Obeyed command r.1 r.2 := fun r ho =>
      ⟨ho.placed, ho.drainsOn, fun h => ho.quarantined (hq h), fun h => ho.drained (hd h), ho.quarantines, ho.drains⟩
    refine hthen _ ?_
    dsimp only
    split
    · exact obeyed_refused hplaced _
    · exact obeyed_refused hplaced _
    · exact obeyed_perform hplaced hidle now can

end Commands

/-!
## What a node's own steps keep in force

The end of a drain, of a job or of a build, a job called off, the steps of an update on trial and of a
reset, and the node's own quarantine with no drain under way each keep a quarantine and a finished
drain in force, and drains under way draining. The end of a drain puts the drains under way in force.
-/

/-- A step keeps the state in order and what is in force. -/
structure Persisted.Keeps (p p' : Persisted) : Prop where
  placed : p'.Placed
  quarantined : p.Quarantined → p'.Quarantined
  drained : p.Drained → p'.Drained

section Steps

variable {may : Operation → Outcome → Prop} {p p' : Persisted}

theorem Moved.drains {e e' : Entry} (h : Moved may e e') (hd : e'.drains = true) : e.drains = true := by
  rw [Entry.drains, and_eq_true, decide_eq_true_eq, decide_eq_true_eq] at hd ⊢
  refine ⟨h.id_op.2.symm.trans hd.1, ?_⟩
  rcases h.outcome with heq | ⟨hacc, -⟩
  · exact heq.symm.trans hd.2
  · exact hacc

section

variable (h : p.Placed) (hstate : p'.state = p.state) (hfrom : p'.quarantinedFrom = p.quarantinedFrom)
  (hjob : p'.job = p.job)
include h hstate hfrom hjob

theorem keeps_same (hdrains : ∀ e' ∈ p'.journal, e'.drains = true → ∃ e ∈ p.journal, e.drains = true) : p.Keeps p' :=
  ⟨h.congr hstate hjob hdrains, fun hq => hq.congr hstate hjob, fun hd => hd.congr hstate hfrom hjob⟩

theorem keeps_state (hjournal : p'.journal = p.journal) : p.Keeps p' :=
  keeps_same h hstate hfrom hjob fun e he hd => ⟨e, by rw [← hjournal]; exact he, hd⟩

end

theorem not_held_of_draining (hs : p.state = .draining) : ¬ p.Quarantined ∧ ¬ p.Drained := by
  refine ⟨fun hq => ?_, fun hd => ?_⟩
  · cases hj : p.job with
    | some j => exact (hq.busy j hj).2 hs
    | none =>
      rw [hq.idle hj] at hs
      nomatch hs
  · cases hj : p.job with
    | some j => exact (hd.busy j hj).2 hs
    | none =>
      rcases hd.idle hj with hd | ⟨hd, -⟩
      · rw [hd] at hs
        nomatch hs
      · rw [hd] at hs
        nomatch hs

section

variable (h : p.Placed)
include h

/-- A drain that finishes keeps what is in force; it was none. With a drain under way, the drain is
then in force. -/
theorem keeps_finishDrain (now : ℕ) : p.Keeps (p.finishDrain now) ∧
    ((∃ e ∈ p.journal, e.drains = true) → (p.finishDrain now).Drained) := by
  unfold finishDrain
  by_cases hs : p.state = .draining
  · rw [if_neg (not_not.mpr hs)]
    obtain ⟨hnq, hnd⟩ := not_held_of_draining hs
    have hsettled : ∀ p : Persisted, ∀ e ∈ (p.settleDrains .done).journal, e.drains = false :=
      no_drains_settleDrains .done nofun
    cases hj : p.job with
    | none =>
      exact ⟨⟨placed_of_no_drains (fun _ => ⟨nofun, nofun⟩) (nofun)
        (hsettled _), fun hq => absurd hq hnq, fun hd => absurd hd hnd⟩, fun _ =>
        ⟨fun _ => .inl rfl, nofun⟩⟩
    | some job =>
      obtain ⟨-, -, hdraining, hresume⟩ := h.busy job hj
      obtain ⟨hafter, htrial⟩ := hdraining hs
      have hjob : ∀ j, (((p.setPhase .maintenance .downloading).beginMaintenance now).settleDrains
          .done).job = some j → j.resume = job.resume := by
        intro j hj'
        obtain ⟨j₀, hj₀, rfl⟩ := map_eq_some_iff.mp hj'
        obtain rfl := some.inj (hj.symm.trans hj₀)
        rfl
      have hnone : (((p.setPhase .maintenance .downloading).beginMaintenance now).settleDrains .done).job ≠ none := by
        intro hnone
        have hmap := map_eq_none_iff.mp hnone
        rw [setPhase, hj] at hmap
        nomatch hmap
      refine ⟨⟨placed_of_no_drains (fun hn => absurd hn hnone) (fun j hj' => ?_) (hsettled _),
        fun hq => absurd hq hnq, fun hd => absurd hd hnd⟩, fun hd =>
        ⟨fun hn => absurd hn hnone, fun j hj' => ⟨?_, nofun⟩⟩⟩
      · rw [hjob j hj']
        exact ⟨nofun, nofun, nofun, hresume⟩
      · obtain ⟨e, he, hdr⟩ := hd
        rw [hjob j hj']
        exact (h.drains e he hdr).2 job hj
  · rw [if_pos hs]
    refine ⟨⟨h, id, id⟩, fun hd => ?_⟩
    obtain ⟨e, he, hdr⟩ := hd
    exact absurd (h.drains e he hdr).1 hs

theorem keeps_callOffDrain (hjournaled : p.Journaled) {j : Job} (hj : p.job = some j)
    (hs : p.state = .draining) (message : String) {resume : Option NodeState}
    (hresume : resume = none ∨ resume = some .drained) : p.Keeps (p.callOffDrain message resume) := by
  obtain ⟨hnq, hnd⟩ := not_held_of_draining hs
  refine ⟨?_, fun hq => absurd hq hnq, fun hd => absurd hd hnd⟩
  obtain ⟨hc, hnone⟩ := changed_endJobIn hjournaled (.failed message) nofun .failed resume
  have hjob := job_ne hnone
  unfold callOffDrain
  split_ifs with hany
  · exact ⟨fun _ => ⟨nofun, nofun⟩, fun j hj' => absurd hj' (hjob j),
      fun _ _ _ => ⟨rfl, fun j hj' => absurd hj' (hjob j)⟩⟩
  · refine placed_of_no_drains (fun _ => ?_) (fun j hj' => absurd hj' (hjob j)) fun e' he' => ?_
    · obtain ⟨-, -, hdraining, hres⟩ := h.busy j hj
      have hafter := (hdraining hs).1
      simp only [endJobIn, hj, hafter, false_eq_true, if_false]
      rcases hresume with rfl | rfl
      · rcases hres with hr | hr
        · rw [getD_none, hr]
          exact ⟨nofun, nofun⟩
        · rw [getD_none, hr]
          exact ⟨nofun, nofun⟩
      · exact ⟨nofun, nofun⟩
    · obtain ⟨e, he, hm⟩ := exists_of_moved hc.journal he'
      rw [eq_false_iff]
      exact fun hd => hany (List.any_eq_true.mpr ⟨e, he, hm.drains hd⟩)

/-- A job's end keeps the holds. -/
theorem keeps_endJobIn (hjournaled : p.Journaled) {j : Job} (hj : p.job = some j)
    (hs : p.state ≠ .draining) {outcome : Outcome} (hfinal : outcome ≠ .accepted) (phase : UpdatePhase)
    {resume : Option NodeState} (hresume : resume = none ∨ resume = some .drained) :
    p.Keeps (p.endJobIn outcome phase resume) := by
  obtain ⟨hc, hnone⟩ := changed_endJobIn hjournaled outcome hfinal phase resume
  obtain ⟨-, -, -, hres⟩ := h.busy j hj
  have hback : resume.getD j.resume = .ready ∨ resume.getD j.resume = .drained := by
    rcases hresume with rfl | rfl
    · exact hres
    · exact .inr rfl
  have hjob := job_ne hnone
  have hdrains : ∀ e' ∈ (p.endJobIn outcome phase resume).journal, e'.drains = false := by
    intro e' he'
    obtain ⟨e, he, hm⟩ := exists_of_moved hc.journal he'
    rw [eq_false_iff]
    intro hd
    have hnot := h.no_drains hs e he
    rw [hm.drains hd] at hnot
    nomatch hnot
  refine ⟨placed_of_no_drains (fun _ => ?_) (fun j hj' => absurd hj' (hjob j)) hdrains,
    fun hq => ⟨fun _ => ?_, fun j hj' => absurd hj' (hjob j)⟩,
    fun hd => ⟨fun _ => ?_, fun j hj' => absurd hj' (hjob j)⟩⟩
  · simp only [endJobIn, hj]
    split_ifs
    · exact ⟨nofun, nofun⟩
    · rcases hback with hb | hb <;> rw [hb] <;> exact ⟨nofun, nofun⟩
  · simp only [endJobIn, hj, (hq.busy j hj).1, if_true]
  · have hdrained : resume.getD j.resume = .drained := by
      rcases hresume with rfl | rfl
      · exact (hd.busy j hj).1
      · rfl
    simp only [endJobIn, hj, hdrained]
    split_ifs
    · exact .inr ⟨rfl, rfl⟩
    · exact .inl rfl

theorem keeps_quarantine (hnone : ∀ e ∈ p.journal, e.drains = false) : p.Keeps p.quarantine := by
  unfold Persisted.quarantine
  split_ifs with hs
  · refine ⟨placed_of_no_drains (fun _ => ⟨nofun, nofun⟩) (fun j hj => ?_) hnone,
      fun hq => ⟨fun _ => rfl, fun j hj => ⟨(hq.busy j hj).1, nofun⟩⟩,
      fun hd => ⟨fun hj => ?_, fun j hj => ⟨(hd.busy j hj).1, nofun⟩⟩⟩
    · exact ⟨nofun, nofun, nofun, (h.busy j hj).2.2.2⟩
    · rcases hd.idle hj with hstate | ⟨hstate, -⟩
      · exact .inr ⟨rfl, by rw [hstate]⟩
      · exact absurd hstate hs
  · exact ⟨h, id, id⟩

theorem keeps_mapJob {f : Job → Job} {state : NodeState} (hjob : p'.job = p.job.map f)
    (hf : ∀ j, (f j).resume = j.resume ∧ (f j).quarantineAfter = j.quarantineAfter)
    (hs : p.state ≠ .draining) (hbusy : p.job ≠ none) (hstate : state = p.state ∨ state = .validating)
    (hstate' : p'.state = state) (hjournal : p'.journal = p.journal) : p.Keeps p' := by
  have hnot : state ≠ .draining := by
    rcases hstate with rfl | rfl
    · exact hs
    · nofun
  have hnone : p'.job ≠ none := by
    rw [hjob]
    exact fun hn => hbusy (map_eq_none_iff.mp hn)
  have hold : ∀ j', p'.job = some j' → ∃ j, p.job = some j ∧ j'.resume = j.resume ∧
      j'.quarantineAfter = j.quarantineAfter := by
    intro j' hj'
    rw [hjob] at hj'
    obtain ⟨j, hj, rfl⟩ := map_eq_some_iff.mp hj'
    exact ⟨j, hj, hf j⟩
  refine ⟨placed_of_no_drains (fun hn => absurd hn hnone) (fun j' hj' => ?_) ?_,
    fun hq => ⟨fun hn => absurd hn hnone, fun j' hj' => ?_⟩,
    fun hd => ⟨fun hn => absurd hn hnone, fun j' hj' => ?_⟩⟩
  · obtain ⟨j, hj, hres, -⟩ := hold j' hj'
    obtain ⟨hready, hdrained, -, hresume⟩ := h.busy j hj
    rw [hres, hstate']
    refine ⟨?_, ?_, fun heq => absurd heq hnot, hresume⟩
    · rcases hstate with rfl | rfl
      · exact hready
      · nofun
    · rcases hstate with rfl | rfl
      · exact hdrained
      · nofun
  · rw [hjournal]
    exact h.no_drains hs
  · obtain ⟨j, hj, -, hafter⟩ := hold j' hj'
    rw [hafter, hstate']
    exact ⟨(hq.busy j hj).1, hnot⟩
  · obtain ⟨j, hj, hres, -⟩ := hold j' hj'
    rw [hres, hstate']
    exact ⟨(hd.busy j hj).1, hnot⟩

theorem Persisted.Placed.of_updates (hu : p.updates = true) : (∃ j, p.job = some j) ∧ p.state ≠ .draining := by
  obtain ⟨j, hj, hcond⟩ := (any_eq_true _ _).mp hu
  refine ⟨⟨j, hj⟩, fun hs => ?_⟩
  obtain ⟨-, -, hdraining, -⟩ := h.busy j hj
  rw [(hdraining hs).2, hs, and_eq_true] at hcond
  nomatch hcond.2

end

theorem of_resets (hr : p.resets = true) : (∃ j, p.job = some j) ∧ p.state ≠ .draining := by
  rw [Persisted.resets, and_eq_true] at hr
  obtain ⟨j, hj, -⟩ := (any_eq_true _ _).mp hr.1
  refine ⟨⟨j, hj⟩, fun hs => ?_⟩
  rw [hs] at hr
  nomatch hr.2

end Steps

end Virtkit.Node
