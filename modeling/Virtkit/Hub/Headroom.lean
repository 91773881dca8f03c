import Virtkit.Hub.JobCommit
import Virtkit.Hub.LoadsExact
import Virtkit.Hub.ReservedWork

/-!
# What placing work leaves of headroom

Work that is placed leaves the fleet no less room than it had, or is one placement more on a node
that had room and admitted it when it was gone over. So normal work leaves every headroom entry its
slots, or the room it had if that was less, and no work fills a node above its cap.
-/

namespace Virtkit.Hub

open Virtkit.Common Option

/-- Work of a class was committed between the two states: with no less room left, or on a node that
had room and admitted it. -/
def Commits (hub : HubEnv) (ctx : PlaceCtx) (s s' : State) (cls : Class) : Prop :=
  Lighter s s' ∨ ∃ st p node, Lighter s st ∧ PlacedWithin st s' node p.envelope ∧
    (∃ row, ctx.nodes.lookup node = some row ∧ 0 < nodeRoom hub st p node row) ∧
    admits hub st ctx.nodes ctx.policy p cls node = true

/-- A placement was checked after the first state, and committed as it was checked. -/
def Checked (hub : HubEnv) (ctx : PlaceCtx) (s s' : State) (p : Placement) (cls : Class)
    (node : String) : Prop :=
  ∃ st, NodeFor hub ctx s st p cls node ∧ Placed st s' node p.envelope

def workPlacement (s : State) (c : Candidate) : Option Placement :=
  if c.job then (s.jobs.lookup c.id).map (·.row.placement)
  else (s.tickets.lookup c.id).map Ticket.placement

section Commits

variable {hub : HubEnv} {ctx : PlaceCtx} {s st s' s'' : State} {cls : Class}

theorem Lighter.trans (h : Lighter s s') (h' : Lighter s' s'') : Lighter s s'' :=
  ⟨fun k since field => le_trans (h'.pending k since field) (h.pending k since field),
    fun k => le_trans (h'.placed k) (h.placed k), fun k => (h'.held k).trans (h.held k)⟩

variable {node : String}

theorem Lighter.placedWithin {e : Envelope} (h : Lighter s st) (h' : PlacedWithin st s' node e) :
    PlacedWithin s s' node e where
  pending k since field := le_trans (h'.pending k since field) (Nat.add_le_add_right (h.pending k since field) _)
  placed k := le_trans (h'.placed k) (Nat.add_le_add_right (h.placed k) _)
  held k := (h'.held k).trans (h.held k)

/-- Normal work leaves each entry its slots, or the room it had. -/
theorem Commits.headroom (h : Commits hub ctx s s' .normal) {room : Headroom} (hroom : room ∈ ctx.policy.headroom) :
    min room.slots (fleetRoom hub s ctx.nodes room.placement) ≤ fleetRoom hub s' ctx.nodes room.placement := by
  rcases h with hlighter | ⟨st, p, node, hbefore, hwithin, -, hadmits⟩
  · have hle := hlighter.fleetRoom_le hub ctx.nodes room.placement
    omega
  · have hst := hbefore.fleetRoom_le hub ctx.nodes room.placement
    have hs' : min room.slots (fleetRoom hub st ctx.nodes room.placement) ≤ fleetRoom hub s' ctx.nodes room.placement :=
      headroom_of_admits hadmits (fun q k row hk _ => hwithin.nodeRoom_le hub q hk row)
        (fun q row _ => hwithin.predicted_le hub q row) hroom
    omega

theorem Commits.placed_le (h : Commits hub ctx s s' cls) {row : NodeRow} {cap : ℕ}
    (hrow : ctx.nodes.lookup node = some row) (hcap : placedCap row.ceiling row.report = some cap) :
    (tally s' node).placed ≤ max cap (tally s node).placed := by
  rcases h with hlighter | ⟨st, p, at_, hbefore, hwithin, hroom, -⟩
  · have hle := hlighter.placed_le node
    omega
  · have hst := hbefore.placed_le node
    have hs' := hwithin.placed_le hroom hrow hcap
    omega

variable {p : Placement}

theorem NodeFor.room (h : NodeFor hub ctx s s' p cls node) : ∃ st, Notes s st ∧ Notes st s' ∧
      (∃ row, ctx.nodes.lookup node = some row ∧ 0 < nodeRoom hub st p node row) ∧
      admits hub st ctx.nodes ctx.policy p cls node = true := by
  obtain ⟨st, hthen, hsince, hmem, hadmits⟩ := h
  exact ⟨st, hthen, hsince, mem_candidates hmem, hadmits⟩

theorem NodeFor.trans (h : NodeFor hub ctx s s' p cls node) (hnotes : Notes s' s'') :
    NodeFor hub ctx s s'' p cls node := by
  obtain ⟨st, hthen, hsince, hmem, hadmits⟩ := h
  exact ⟨st, hthen, hsince.trans hnotes, hmem, hadmits⟩

/-- Work placed on a node that was found for it keeps the rules. -/
theorem NodeFor.commits (h : NodeFor hub ctx s st p cls node)
    (hwithin : PlacedWithin st s' node p.envelope) : Commits hub ctx s s' cls := by
  obtain ⟨st₀, hthen, hsince, hroom, hadmits⟩ := h.room
  exact .inr ⟨st₀, p, node, hthen.roomier.lighter, hsince.roomier.lighter.placedWithin hwithin, hroom, hadmits⟩

theorem Commits.turns (h : Commits hub ctx s s' cls) (turns : Turns) :
    Commits hub ctx s { s' with turns := turns } cls := by
  rcases h with hlighter | ⟨st, p, node, hbefore, hwithin, hroom, hadmits⟩
  · exact .inl ⟨hlighter.pending, hlighter.placed, hlighter.held⟩
  · exact .inr ⟨st, p, node, hbefore, ⟨hwithin.pending, hwithin.placed, hwithin.held⟩, hroom, hadmits⟩

theorem Checked.turns (h : Checked hub ctx s s' p cls node) (turns : Turns) :
    Checked hub ctx s { s' with turns := turns } p cls node := by
  obtain ⟨st, hfor, hplaced⟩ := h
  exact ⟨st, hfor, hplaced.pending, hplaced.placed, hplaced.held⟩

end Commits

section Jobs

variable {hub : HubEnv} {ctx : ScheduleCtx} {now : ℕ} {loads : Loads} {s s₁ s' : State} {sc : Scan}
  {c : Candidate} {j : LiveJob} {ids : List String}

theorem startedOn_sendTo {id : String} {t : Target} (h : sendTo s id t = some s')
    (hj : s.jobs.lookup id = some j) : startedOn s' id = some t.reservation.isSome := by
  have hjobs : s'.jobs = s.jobs.modify id fun j => j.sent t := by rw [sendTo_eq h]
  rw [startedOn, hjobs, Table.lookup_modify, if_pos rfl, hj]
  rfl

theorem usable_of_reserved (hsc : ScanReserved hub ctx s sc) (hc : c ∈ sc.eligible)
    (hreserved : c.reserved = true) (hquiet : Quiet sc.state s₁)
    (hj : s₁.jobs.lookup c.id = some j) (hnotes : Notes s s₁) :
    ∃ r, j.reservation = some r ∧ (usableReservation hub s₁ ctx.place.nodes
      (jobExclusions ctx.place.policy j.row ctx.place.nodes) r).isSome := by
  obtain ⟨j₀, r, hj₀, -, hr, husable⟩ := hsc.starts c hc hreserved
  obtain ⟨x, hx, -⟩ := usableReservation_isSome husable
  have hrow : j.row = j₀.row := by
    obtain ⟨j₂, hj₂, hrow⟩ := hnotes.jobBefore hj
    rw [hj₀, some_inj] at hj₂
    rw [hrow, hj₂]
  have hsame := hquiet.reserved c.id
  rw [hj, map_some, eq_comm, map_eq_some_iff] at hsame
  obtain ⟨j₁, hj₁, hr₁⟩ := hsame
  refine ⟨r, ?_, ?_⟩
  · rw [← hr₁]
    exact hsc.kept c.id j₀ j₁ r hj₀ hj₁ hr (by simp [hx])
  · have hreservation : s₁.reservations.lookup r = sc.state.reservations.lookup r := by rw [hquiet.kept]
    rw [usableReservation_congr hreservation hquiet.held, hrow]
    exact husable

section

variable (hres : Reserved ids s) (hsc : ScanReserved hub ctx s sc) (hc : c ∈ sc.eligible)
  (heligible : JobEligible hub ctx now loads s sc.state c j) (hnodes : ctx.place.nodes.lookup "" = none)
  (hnotes : Notes s sc.state)
include hres hsc hc heligible hnodes hnotes

/-- A job sent to the node checked for it, to its reservation or to a warmer node is committed
there. -/
theorem commits_sendTo {st : State} (hquiet : Quiet sc.state st) {job : LiveJob}
    (hjob : st.jobs.lookup c.id = some job) {t : Target} (htarget : target hub st ctx.place c.id job now
      (if c.node = "" then none else some c.node) = (s₁, some t)) (hsend : sendTo s₁ c.id t = some s') :
    Commits hub ctx.place s s' c.cls ∧ (t.reservation = none → c.reserved = false →
        Checked hub ctx.place s s' j.row.placement c.cls c.node) := by
  have hst : Notes s st := hnotes.trans hquiet.toNotes
  have hround := Quiet.target hub st ctx.place c.id job now (if c.node = "" then none else some c.node)
  rw [htarget] at hround
  have hround : Quiet st s₁ := hround
  have hrow : job.row = j.row := by
    obtain ⟨j₀, hj₀, hrow⟩ := hst.jobBefore hjob
    rw [heligible.job, some_inj] at hj₀
    rw [hrow, hj₀]
  obtain ⟨job₁, hjob₁, hcore⟩ := hround.toNotes.job hjob
  have hrow₁ : job₁.row = j.row := (Notes.row_eq_of_core_eq hcore).trans hrow
  have hqueued₁ : job₁.row.state = .queued := by rw [hrow₁]; exact heligible.queued
  have hnode₁ : job₁.row.node = none := by
    rw [hrow₁]
    exact hres.unplaced c.id j heligible.job heligible.queued
  rw [heligible.cls]
  rcases target_eq_some htarget with ⟨r, x, hr, hx, rfl⟩ | ⟨hnone, haccepted, hroom, hcase⟩
  · refine ⟨.inl ?_, fun hnone => by simp at hnone⟩
    obtain ⟨hlookup, htest⟩ := filter_eq_some_iff.mp hx
    have henvelope : x.envelope = job₁.row.placement.envelope := by
      rw [hrow₁, ← hrow]
      exact (hres.notes hst).envelope c.id job r x hjob (by rw [hrow]; exact heligible.queued) hr hlookup
    have hheld : ∃ lease, x.phase = .held lease := by
      cases hphase : x.phase with
      | held lease => exact ⟨lease, rfl⟩
      | offered | refused why | abandoned => simp [hphase] at htest
    obtain ⟨lease, hphase⟩ := hheld
    have hlookup₁ : s₁.reservations.lookup r = some x := by
      rw [hround.kept]
      exact hlookup
    exact (hst.trans hround.toNotes).roomier.lighter.trans (.of_sendTo hsend hjob₁ hlookup₁ hphase henvelope)
  · obtain ⟨hwithin, hplaced⟩ := PlacedWithin.of_sendTo hsend hjob₁ hqueued₁ hnode₁ hnone haccepted
    rw [hrow₁] at hwithin hplaced
    rcases hcase with ⟨hunusable, hkept, hselected⟩ | ⟨⟨r, x, hr, hx⟩, hadmits⟩
    · cases hreserved : c.reserved with
      | true =>
        obtain ⟨r, hr, husable⟩ := usable_of_reserved hsc hc hreserved hquiet hjob hst
        rw [hunusable r hr] at husable
        simp at husable
      | false =>
        obtain ⟨hfor, -⟩ := heligible.node hreserved
        have hne : c.node ≠ "" := by
          intro hempty
          obtain ⟨-, -, -, ⟨row, hlookup, -⟩, -⟩ := hfor.room
          rw [hempty, hnodes] at hlookup
          simp at hlookup
        have hnode : t.node = c.node := hselected c.node (by rw [if_neg hne])
        rw [hnode] at hwithin hplaced
        have hfor₁ := hfor.trans (hquiet.trans hround).toNotes
        exact ⟨hfor₁.commits hwithin, fun _ _ => ⟨s₁, hfor₁, hplaced hkept⟩⟩
    · refine ⟨.inr ⟨st, j.row.placement, t.node, hst.roomier.lighter,
        hround.toNotes.roomier.lighter.placedWithin hwithin, ?_, ?_⟩, fun _ hreserved => ?_⟩
      · rw [← hrow]
        exact hroom
      · rw [← hrow]
        exact hadmits
      · exfalso
        obtain ⟨j₀, hj₀, hr₀⟩ := hst.jobReservation c.id job hjob
        rw [heligible.job, some_inj] at hj₀
        have hjr : j.reservation = some r := by
          rcases hr₀ with hr₀ | hr₀
          · rw [hj₀, ← hr₀]
            exact hr
          · rw [hr₀] at hr
            simp at hr
        have hgone := hquiet.toNotes.usableReservation_eq_none ((heligible.node hreserved).2 r hjr)
        rw [hrow, hgone] at hx
        simp at hx

/-- Placing a job commits it as it was checked. -/
theorem commits_place {st : State} (hquiet : Quiet sc.state st) {written : Option JobRow}
    (hplace : place hub st ctx.place c.id now (if c.node = "" then none else some c.node) = (s', written)) :
    Commits hub ctx.place s s' c.cls ∧ (startedOn s' c.id = some false → c.reserved = false →
        Checked hub ctx.place s s' j.row.placement c.cls c.node) := by
  have hst : Notes s st := hnotes.trans hquiet.toNotes
  rcases place_cases hplace with hplaced | ⟨why, row, hfinish⟩ | ⟨job, t, s₁, hjob, htarget, hsend⟩
  · refine ⟨.inl (hst.trans hplaced.toNotes).roomier.lighter, fun hstarted => ?_⟩
    obtain ⟨j', hj', hcore⟩ := (hst.trans hplaced.toNotes).job heligible.job
    rw [startedOn, hj', filter_some, Notes.row_eq_of_core_eq hcore, heligible.queued] at hstarted
    simp at hstarted
  · refine ⟨.inl (hst.roomier.lighter.trans (.of_finish hfinish)), fun hstarted => ?_⟩
    obtain ⟨job, -, hs'⟩ := finish_eq hfinish
    have hjobs : s'.jobs = st.jobs.erase c.id := by rw [hs']
    rw [startedOn, hjobs, AList.lookup_erase] at hstarted
    simp at hstarted
  · obtain ⟨hcommits, hchecked⟩ :=
      commits_sendTo hres hsc hc heligible hnodes hnotes hquiet hjob htarget hsend
    refine ⟨hcommits, fun hstarted hreserved => hchecked ?_ hreserved⟩
    have hround := Quiet.target hub st ctx.place c.id job now (if c.node = "" then none else some c.node)
    rw [htarget] at hround
    obtain ⟨job₁, hjob₁, -⟩ := hround.toNotes.job hjob
    rw [startedOn_sendTo hsend hjob₁] at hstarted
    simpa using hstarted

end

end Jobs

end Virtkit.Hub
