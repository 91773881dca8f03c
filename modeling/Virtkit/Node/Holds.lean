import Virtkit.Node.Journaled

/-!
# Quarantines and drains in the persisted state

A quarantine in force is the node's state, or what the job under way leads to. A finished drain in
force is the node's state, what a quarantine was entered from, or what the job under way returns to.
Each operation keeps both, but for the one that undoes it, and a quarantine or a drain answered as
done is in force from then on. A drain under way is the node draining, with a job beside it returning
to drained.
-/

namespace Virtkit.Node

open Virtkit.Common Virtkit.Fleet Persisted

structure Persisted.Quarantined (p : Persisted) : Prop where
  idle : p.job = none → p.state = .quarantined
  busy : ∀ j, p.job = some j → j.quarantineAfter = true ∧ p.state ≠ .draining

/-- A finished drain is in force. -/
structure Persisted.Drained (p : Persisted) : Prop where
  idle : p.job = none → p.state = .drained ∨ p.state = .quarantined ∧ p.quarantinedFrom = some .drained
  busy : ∀ j, p.job = some j → j.resume = .drained ∧ p.state ≠ .draining

/-- Drains go on: the node is draining, and a job beside them returns to drained. -/
def Persisted.DrainsOn (p : Persisted) : Prop :=
  p.state = .draining ∧ ∀ j, p.job = some j → j.resume = .drained

/-- What the state, the job under way and the drains in the journal have to do with each other. -/
structure Persisted.Placed (p : Persisted) : Prop where
  idle : p.job = none → p.state ≠ .maintenance ∧ p.state ≠ .validating
  busy : ∀ j, p.job = some j → p.state ≠ .ready ∧ p.state ≠ .drained ∧
    (p.state = .draining → j.quarantineAfter = false ∧ j.trial = none) ∧
    (j.resume = .ready ∨ j.resume = .drained)
  drains : ∀ e ∈ p.journal, e.drains = true → p.DrainsOn

/-- What a command keeps in force, and what it puts in force. -/
structure Persisted.Obeyed (p : Persisted) (command : Command) (p' : Persisted) (outcome : Outcome) : Prop where
  placed : p'.Placed
  drainsOn : command.op = .drain → outcome = .accepted → p'.DrainsOn
  quarantined : p.Quarantined → command.op = .release ∧ outcome = .done ∨ p'.Quarantined
  drained : p.Drained → command.op = .undrain ∧ outcome = .done ∨ p'.Drained
  quarantines : command.op = .quarantine → outcome = .done → p'.Quarantined
  drains : command.op = .drain → outcome = .done → p'.Drained

section Commands

variable {p p' : Persisted} {command : Command}

/-- A node that is held is not ready. -/
theorem Persisted.Placed.not_ready (h : p.Placed) (hheld : p.Quarantined ∨ p.Drained) : p.state ≠ .ready := by
  intro hready
  cases hj : p.job with
  | none =>
    rcases hheld with hq | hd
    · rw [hq.idle hj] at hready
      nomatch hready
    · rcases hd.idle hj with hs | ⟨hs, -⟩
      · rw [hs] at hready
        nomatch hready
      · rw [hs] at hready
        nomatch hready
  | some j => exact (h.busy j hj).1 hready

theorem obeyed_refused (h : p.Placed) (reason : String) : p.Obeyed command p (.refused reason) :=
  ⟨h, nofun, .inr, .inr, nofun, nofun⟩

theorem obeyed_other {outcome : Outcome} (hop : command.op ≠ .drain ∧ command.op ≠ .quarantine) (hplaced : p'.Placed)
    (hq : p.Quarantined → command.op = .release ∧ outcome = .done ∨ p'.Quarantined)
    (hd : p.Drained → command.op = .undrain ∧ outcome = .done ∨ p'.Drained) : p.Obeyed command p' outcome :=
  ⟨hplaced, fun h => absurd h hop.1, hq, hd, fun h => absurd h hop.2, fun h => absurd h hop.1⟩

theorem op_ne_of_work {op : Operation} (h : isJob op = true ∨ isTools op = true) : op ≠ .drain ∧ op ≠ .quarantine := by
  constructor <;> rintro rfl <;> rcases h with h | h <;> nomatch h

theorem Persisted.Quarantined.congr (h : p.Quarantined) (hstate : p'.state = p.state)
    (hjob : p'.job = p.job) : p'.Quarantined := by
  refine ⟨fun hj => ?_, fun j hj => ?_⟩
  · rw [hstate]
    exact h.idle (hjob.symm.trans hj)
  · rw [hstate]
    exact h.busy j (hjob.symm.trans hj)

theorem Persisted.Drained.congr (h : p.Drained) (hstate : p'.state = p.state)
    (hfrom : p'.quarantinedFrom = p.quarantinedFrom) (hjob : p'.job = p.job) : p'.Drained := by
  refine ⟨fun hj => ?_, fun j hj => ?_⟩
  · rw [hstate, hfrom]
    exact h.idle (hjob.symm.trans hj)
  · rw [hstate]
    exact h.busy j (hjob.symm.trans hj)

theorem Persisted.Placed.congr (h : p.Placed) (hstate : p'.state = p.state) (hjob : p'.job = p.job)
    (hdrains : ∀ e' ∈ p'.journal, e'.drains = true → ∃ e ∈ p.journal, e.drains = true) : p'.Placed := by
  refine ⟨?_, ?_, fun e' he' hd' => ?_⟩
  · rw [hstate, hjob]
    exact h.idle
  · rw [hstate, hjob]
    exact h.busy
  · obtain ⟨e, he, hd⟩ := hdrains e' he' hd'
    unfold Persisted.DrainsOn
    rw [hstate, hjob]
    exact h.drains e he hd

theorem placed_of_no_drains (hidle : p.job = none → p.state ≠ .maintenance ∧ p.state ≠ .validating)
    (hbusy : ∀ j, p.job = some j → p.state ≠ .ready ∧ p.state ≠ .drained ∧
      (p.state = .draining → j.quarantineAfter = false ∧ j.trial = none) ∧ (j.resume = .ready ∨ j.resume = .drained))
    (hnone : ∀ e ∈ p.journal, e.drains = false) : p.Placed :=
  ⟨hidle, hbusy, fun e he hd => absurd hd (by rw [hnone e he]; exact Bool.false_ne_true)⟩

theorem Persisted.Placed.no_drains (h : p.Placed) (hstate : p.state ≠ .draining) :
    ∀ e ∈ p.journal, e.drains = false := by
  intro e he
  rw [Bool.eq_false_iff]
  exact fun hd => hstate (h.drains e he hd).1

theorem no_drains_settleDrains (outcome : Outcome) (hfinal : outcome ≠ .accepted) (p : Persisted) :
    ∀ e ∈ (p.settleDrains outcome).journal, e.drains = false := by
  intro e he
  obtain ⟨e₀, -, rfl⟩ := List.mem_map.mp he
  split_ifs with hd
  · rw [Entry.drains, Bool.and_eq_false_iff]
    exact .inr (decide_eq_false hfinal)
  · exact Bool.eq_false_iff.mpr hd

theorem settled_spec (h : p.Placed) (message : String) :
    let q := if p.state = .draining then p.settleDrains (.failed message) else p
    q.job = p.job ∧ ∀ e ∈ q.journal, e.drains = false := by
  dsimp only
  split_ifs with hd
  · exact ⟨rfl, no_drains_settleDrains (.failed _) nofun p⟩
  · exact ⟨rfl, h.no_drains hd⟩

theorem jobStates_spec (state : NodeState) (drainable : Bool) : ((jobStates state drainable).2 = .draining ∨
      (jobStates state drainable).2 = .maintenance) ∧
    ((jobStates state drainable).1 = .ready ∨ (jobStates state drainable).1 = .drained) ∧
    (state = .draining → jobStates state drainable = (.drained, .draining)) ∧
    (state = .drained → jobStates state drainable = (.drained, .maintenance)) := by
  cases state <;> cases drainable <;> decide

section

variable (h : p.Placed)
include h

/-- A job is taken on a node that no hold keeps back. -/
theorem obeyed_taken {r : Persisted × Outcome} (hnone : p.job = none) (hop : isJob command.op = true)
    (ht : p.Taken command r) : p.Obeyed command r.1 r.2 := by
  cases ht with
  | refused why => exact obeyed_refused h why
  | @job p' j drainable hq hjob hcommand hfresh hnext hrest =>
    obtain ⟨hnext', hres, hdraining, hdrained⟩ := jobStates_spec p.state drainable
    rw [← hnext] at hnext' hres hdraining hdrained
    dsimp only at hnext' hres ⊢
    refine obeyed_other (op_ne_of_work (.inl hop)) ⟨fun hj => ?_, fun j' hj' => ?_, fun e he hd => ?_⟩
      (fun hheld => absurd (hheld.idle hnone) hq) fun hheld => ?_
    · rw [hjob] at hj
      nomatch hj
    · obtain rfl := Option.some.inj (hjob.symm.trans hj')
      refine ⟨?_, ?_, fun _ => hfresh, hres⟩ <;> rcases hnext' with hs | hs <;> rw [hs] <;> nofun
    · rw [hrest.1] at he
      obtain ⟨hresume, hstate⟩ := Prod.mk.inj (hdraining (h.drains e he hd).1)
      refine ⟨hstate, fun j' hj' => ?_⟩
      obtain rfl := Option.some.inj (hjob.symm.trans hj')
      exact hresume
    · rcases hheld.idle hnone with hs | ⟨hs, -⟩
      · obtain ⟨hresume, hstate⟩ := Prod.mk.inj (hdrained hs)
        refine .inr ⟨fun hj => ?_, fun j' hj' => ?_⟩
        · rw [hjob] at hj
          nomatch hj
        · obtain rfl := Option.some.inj (hjob.symm.trans hj')
          exact ⟨hresume, by rw [hstate]; nofun⟩
      · exact absurd hs hq

theorem obeyed_takeTools {version sha256 : String} {size : ℕ} (hop : isTools command.op = true) :
    p.Obeyed command (p.takeTools command version sha256 size).1 (p.takeTools command version sha256 size).2 := by
  unfold takeTools
  split_ifs
  · exact obeyed_refused h _
  · exact obeyed_refused h _
  · exact obeyed_refused h _
  · cases p.tools with
    | some tools => exact obeyed_refused h _
    | none =>
      exact obeyed_other (op_ne_of_work (.inr hop)) (h.congr rfl rfl fun e he hd => ⟨e, he, hd⟩)
        (fun hheld => .inr (hheld.congr rfl rfl)) fun hheld => .inr (hheld.congr rfl rfl rfl)

section

variable (hnone : p.job = none)
include hnone

/-- A drain holds the node, at once or when its work is done. -/
theorem obeyed_drain (hop : command.op = .drain) (now : ℕ) (can : Abilities) :
    p.Obeyed command (p.perform command now can).1 (p.perform command now can).2 := by
  have hsome := job_ne hnone
  unfold Persisted.perform
  rw [hop]
  cases hs : p.state with
  | quarantined | maintenance | validating => exact obeyed_refused h _
  | ready =>
    refine ⟨⟨fun _ => ⟨nofun, nofun⟩, fun j hj => absurd hj (hsome j),
      fun _ _ _ => ⟨rfl, fun j hj => absurd hj (hsome j)⟩⟩,
      fun _ _ => ⟨rfl, fun j hj => absurd hj (hsome j)⟩, fun hq => ?_, fun hd => ?_,
      fun heq => ?_, nofun⟩
    · rw [hq.idle hnone] at hs
      nomatch hs
    · rcases hd.idle hnone with hd | ⟨hd, -⟩
      · rw [hd] at hs
        nomatch hs
      · rw [hd] at hs
        nomatch hs
    · rw [hop] at heq
      nomatch heq
  | draining =>
    refine ⟨h, fun _ _ => ⟨hs, fun j hj => absurd hj (hsome j)⟩, .inr, .inr, fun heq => ?_, nofun⟩
    rw [hop] at heq
    nomatch heq
  | drained =>
    refine ⟨h, nofun, .inr, .inr, fun heq => ?_, fun _ _ => ⟨fun _ => .inl hs, fun j hj => absurd hj (hsome j)⟩⟩
    rw [hop] at heq
    nomatch heq

theorem obeyed_undrain (hop : command.op = .undrain) (now : ℕ) (can : Abilities) :
    p.Obeyed command (p.perform command now can).1 (p.perform command now can).2 := by
  by_cases hq : p.state = .quarantined
  · unfold Persisted.perform
    rw [hop, hq]
    exact obeyed_refused h _
  · have heq : p.perform command now can = ({ (if p.state = .draining then
        p.settleDrains (.failed "undrained before the drain finished") else p) with
          state := .ready }, .done) := by
      unfold Persisted.perform
      rw [hop]
      cases hs : p.state with
      | quarantined => exact absurd hs hq
      | _ => rfl
    rw [heq]
    obtain ⟨hjob, hdrains⟩ := settled_spec h "undrained before the drain finished"
    exact obeyed_other (by rw [hop]; exact ⟨nofun, nofun⟩) (placed_of_no_drains (fun _ => ⟨nofun, nofun⟩)
      (fun j hj => absurd hj (job_ne (hjob.trans hnone) j)) hdrains) (fun hheld => absurd (hheld.idle hnone) hq)
      fun _ => .inl ⟨hop, rfl⟩

/-- A quarantine holds the node. -/
theorem obeyed_quarantine (hop : command.op = .quarantine) (now : ℕ) (can : Abilities) :
    p.Obeyed command (p.perform command now can).1 (p.perform command now can).2 := by
  by_cases hq : p.state = .quarantined
  · have hheld : p.Quarantined := ⟨fun _ => hq, fun j hj => absurd hj (job_ne hnone j)⟩
    unfold Persisted.perform
    rw [hop, hq]
    refine ⟨h, nofun, .inr, .inr, fun _ _ => hheld, fun hc => ?_⟩
    rw [hop] at hc
    nomatch hc
  · have heq : p.perform command now can = ({ (if p.state = .draining then
        p.settleDrains (.failed "quarantined before the drain finished") else p) with
          quarantinedFrom := some p.state, state := .quarantined }, .done) := by
      unfold Persisted.perform
      rw [hop]
      cases hs : p.state with
      | quarantined => exact absurd hs hq
      | _ => rfl
    rw [heq]
    obtain ⟨hjob, hdrains⟩ := settled_spec h "quarantined before the drain finished"
    have hsome := job_ne (hjob.trans hnone)
    refine ⟨placed_of_no_drains (fun _ => ⟨nofun, nofun⟩) (fun j hj => absurd hj (hsome j)) hdrains, nofun,
      fun hheld => absurd (hheld.idle hnone) hq, fun hheld => .inr ⟨fun _ => ?_, fun j hj => absurd hj (hsome j)⟩,
      fun _ _ => ⟨fun _ => rfl, fun j hj => absurd hj (hsome j)⟩, fun hc => ?_⟩
    · rcases hheld.idle hnone with hd | ⟨hd, -⟩
      · exact .inr ⟨rfl, by rw [hd]⟩
      · exact absurd hd hq
    · rw [hop] at hc
      nomatch hc

theorem obeyed_release (hop : command.op = .release) (now : ℕ) (can : Abilities) :
    p.Obeyed command (p.perform command now can).1 (p.perform command now can).2 := by
  have hother : command.op ≠ .drain ∧ command.op ≠ .quarantine := by rw [hop]; exact ⟨nofun, nofun⟩
  have hsome := job_ne hnone
  by_cases hq : p.state = .quarantined
  · have heq : p.perform command now can = ({ p with
        quarantinedFrom := none
        state := if p.quarantinedFrom = some .drained then .drained else .ready }, .done) := by
      unfold Persisted.perform
      rw [hop, hq]
    rw [heq]
    refine obeyed_other hother (placed_of_no_drains (fun _ => ?_) (fun j hj => absurd hj (hsome j)) ?_)
      (fun _ => .inl ⟨hop, rfl⟩) fun hheld => .inr ⟨fun _ => .inl ?_, fun j hj => absurd hj (hsome j)⟩
    · dsimp only
      split_ifs <;> exact ⟨nofun, nofun⟩
    · exact h.no_drains (by rw [hq]; nofun)
    · rcases hheld.idle hnone with hd | ⟨-, hd⟩
      · rw [hd] at hq
        nomatch hq
      · exact if_pos hd
  · have heq : p.perform command now can = (p, .done) := by
      unfold Persisted.perform
      rw [hop]
      cases hs : p.state with
      | quarantined => exact absurd hs hq
      | _ => rfl
    rw [heq]
    exact obeyed_other hother h (fun _ => .inl ⟨hop, rfl⟩) .inr

end

/-- Every operation obeys the holds. -/
theorem obeyed_perform (hidle : p.job = none ∨ isTools command.op = true) (now : ℕ) (can : Abilities) :
    p.Obeyed command (p.perform command now can).1 (p.perform command now can).2 := by
  have hnone : ∀ {op}, command.op = op → isTools op = false → p.job = none := by
    rintro op rfl hnot
    rcases hidle with hj | htools
    · exact hj
    · rw [hnot] at htools
      nomatch htools
  cases hop : command.op with
  | drain => exact obeyed_drain h (hnone hop rfl) hop now can
  | undrain => exact obeyed_undrain h (hnone hop rfl) hop now can
  | quarantine => exact obeyed_quarantine h (hnone hop rfl) hop now can
  | release => exact obeyed_release h (hnone hop rfl) hop now can
  | update version sha256 size signature force withinSecs =>
    unfold Persisted.perform
    rw [hop]
    exact obeyed_taken h (hnone hop rfl) (by rw [hop]; rfl) (taken_update p)
  | reset images =>
    unfold Persisted.perform
    rw [hop]
    exact obeyed_taken h (hnone hop rfl) (by rw [hop]; rfl) (taken_reset p)
  | tools version sha256 size =>
    unfold Persisted.perform
    rw [hop]
    exact obeyed_takeTools h (by rw [hop]; rfl)

end

end Commands

end Virtkit.Node
