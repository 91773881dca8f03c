import Virtkit.Hub.Eligible

/-!
# Work that starts on a reservation

A queued job may name a reservation that a node holds for it: one of the job's own envelope, which
only jobs of its lane name. Such a job is chosen without a node, so that it must still find its
reservation usable when it is placed: giving back the stale reservations of other jobs in the same
scan never takes it away.
-/

namespace Virtkit.Hub

open Virtkit.Common Option List

/-- What holds of queued jobs: they are on no node, a reservation one names is of its envelope and
is named by jobs of its lane alone, and none names a reservation under one of the IDs. -/
structure Reserved (ids : List String) (s : State) : Prop where
  unplaced : ∀ id j, s.jobs.lookup id = some j → j.row.state = .queued → j.row.node = none
  envelope : ∀ id j r x, s.jobs.lookup id = some j → j.row.state = .queued →
    j.reservation = some r → s.reservations.lookup r = some x →
    x.envelope = j.row.placement.envelope
  lane : ∀ id j id' j' r, s.jobs.lookup id = some j → j.row.state = .queued →
    s.jobs.lookup id' = some j' → j'.row.state = .queued →
    j.reservation = some r → j'.reservation = some r → jobLane j.row = jobLane j'.row
  unnamed : ∀ r ∈ ids, ∀ id j, s.jobs.lookup id = some j → j.row.state = .queued → j.reservation ≠ some r

/-- Every job queued in the second state was queued in the first, with its reservation if it still
has one. -/
def QueuedBefore (s s' : State) : Prop :=
  ∀ id j', s'.jobs.lookup id = some j' → j'.row.state = .queued →
    ∃ j, s.jobs.lookup id = some j ∧ j'.row = j.row ∧ (j'.reservation = j.reservation ∨ j'.reservation = none)

section Reserved

variable {ids ids' : List String} {s s' : State}

/-- What holds of the queued jobs still holds where none was added to them and a reservation that
one of them names was there before. -/
theorem Reserved.within (h : Reserved ids s) (hjobs : QueuedBefore s s') (hids : ids' ⊆ ids)
    (hreservations : ∀ r x, s'.reservations.lookup r = some x →
      s.reservations.lookup r = some x ∨ r ∈ ids) : Reserved ids' s' := by
  have hbefore : ∀ id j' r, s'.jobs.lookup id = some j' → j'.row.state = .queued →
      j'.reservation = some r → ∃ j, s.jobs.lookup id = some j ∧ j'.row = j.row ∧
        j.row.state = .queued ∧ j.reservation = some r := by
    intro id j' r hj' hqueued hr
    obtain ⟨j, hj, hrow, hkept | hgone⟩ := hjobs id j' hj' hqueued
    · exact ⟨j, hj, hrow, hrow ▸ hqueued, hkept ▸ hr⟩
    · rw [hgone] at hr
      simp at hr
  refine ⟨fun id j' hj' hqueued => ?_, fun id j' r x hj' hqueued hr hx => ?_,
    fun id j' id₁ j₁' r hj' hqueued hj₁' hqueued₁ hr hr₁ => ?_,
    fun r hrIds id j' hj' hqueued hr => ?_⟩
  · obtain ⟨j, hj, hrow, -⟩ := hjobs id j' hj' hqueued
    rw [hrow] at hqueued ⊢
    exact h.unplaced id j hj hqueued
  · obtain ⟨j, hj, hrow, hqueued, hr⟩ := hbefore id j' r hj' hqueued hr
    rw [hrow]
    rcases hreservations r x hx with hx | hnew
    · exact h.envelope id j r x hj hqueued hr hx
    · exact absurd hr (h.unnamed r hnew id j hj hqueued)
  · obtain ⟨j, hj, hrow, hqueued, hr⟩ := hbefore id j' r hj' hqueued hr
    obtain ⟨j₁, hj₁, hrow₁, hqueued₁, hr₁⟩ := hbefore id₁ j₁' r hj₁' hqueued₁ hr₁
    rw [hrow, hrow₁]
    exact h.lane id j id₁ j₁ r hj hqueued hj₁ hqueued₁ hr hr₁
  · obtain ⟨j, hj, -, hqueued, hr⟩ := hbefore id j' r hj' hqueued hr
    exact h.unnamed r (hids hrIds) id j hj hqueued hr

theorem Notes.queuedBefore (h : Notes s s') : QueuedBefore s s' := by
  intro id j' hj' _
  obtain ⟨j, hj, hrow⟩ := h.jobBefore hj'
  obtain ⟨j₁, hj₁, hr⟩ := h.jobReservation id j' hj'
  rw [hj, some_inj] at hj₁
  exact ⟨j, hj, hrow, hj₁ ▸ hr⟩

theorem Reserved.notes (h : Reserved ids s) (hnotes : Notes s s') : Reserved ids s' :=
  h.within hnotes.queuedBefore (List.Subset.refl _) fun r x hx => .inl (hnotes.reservations r x hx)

/-- A placement queues no job. -/
theorem place_queuedBefore {hub : HubEnv} {ctx : PlaceCtx} {id : String} {now : ℕ}
    {selected : Option String} {written : Option JobRow}
    (h : place hub s ctx id now selected = (s', written)) : QueuedBefore s s' := by
  rcases place_cases h with hquiet | ⟨why, row, hfinish⟩ | ⟨job, t, s₁, -, htarget, hsend⟩
  · exact hquiet.toNotes.queuedBefore
  · obtain ⟨job, -, hs'⟩ := finish_eq hfinish
    have hjobs : s'.jobs = s.jobs.erase id := by rw [hs']
    intro k j' hj' _
    rw [hjobs, Table.lookup_erase_ite] at hj'
    split at hj'
    · simp at hj'
    · exact ⟨j', hj', rfl, .inl rfl⟩
  · have hquiet := Quiet.target hub s ctx id job now selected
    rw [htarget] at hquiet
    have hjobs : s'.jobs = s₁.jobs.modify id fun j => j.sent t := by rw [sendTo_eq hsend]
    intro k j' hj' hqueued
    rw [hjobs, Table.lookup_modify] at hj'
    split at hj'
    · obtain ⟨j₁, -, rfl⟩ := map_eq_some_iff.mp hj'
      simp [LiveJob.sent] at hqueued
    · exact hquiet.toNotes.queuedBefore k j' hj' hqueued

end Reserved

section ScanReserved

variable {hub : HubEnv} {ctx : ScheduleCtx} {now : ℕ} {loads : Loads} {s : State}

/-- What holds of a scan under way from a state of the reservations that jobs name: a job has lost
its own only with the reservation, and a job chosen without a node can start on its own. -/
structure ScanReserved (hub : HubEnv) (ctx : ScheduleCtx) (s : State) (acc : Scan) : Prop where
  kept : ∀ id j j' r, s.jobs.lookup id = some j → acc.state.jobs.lookup id = some j' →
    j.reservation = some r → acc.state.reservations.lookup r ≠ none → j'.reservation = some r
  starts : ∀ c ∈ acc.eligible, c.reserved = true → ∃ j r, s.jobs.lookup c.id = some j ∧
    j.row.state = .queued ∧ j.reservation = some r ∧
    (usableReservation hub acc.state ctx.place.nodes
      (jobExclusions ctx.place.policy j.row ctx.place.nodes) r).isSome

theorem usableReservation_congr {st st' : State} {r : String}
    (hr : st'.reservations.lookup r = st.reservations.lookup r)
    (hheld : ∀ k, (st'.links.lookup k).map Link.held = (st.links.lookup k).map Link.held)
    (hub : HubEnv) (nodes : Nodes) (excluded : List String) :
    usableReservation hub st' nodes excluded r = usableReservation hub st nodes excluded r := by
  have hany : ∀ o : Option Link, o.any Link.held = (o.map Link.held).any id := by
    intro o
    cases o <;> rfl
  simp only [usableReservation, hr, hany, hheld]

theorem ScanReserved.quiet {acc : Scan} (h : ScanReserved hub ctx s acc) {st : State}
    (hst : Quiet acc.state st) (found : Found) : ScanReserved hub ctx s ⟨st, found, acc.eligible⟩ := by
  refine ⟨fun id j j' r hj hj' hr hx => ?_, fun c hc hreserved => ?_⟩
  · dsimp only at hj' hx
    have hsame := hst.reserved id
    rw [hj', map_some, eq_comm, map_eq_some_iff] at hsame
    obtain ⟨j₁, hj₁, hr₁⟩ := hsame
    rw [hst.kept] at hx
    rw [← hr₁]
    exact h.kept id j j₁ r hj hj₁ hr hx
  · obtain ⟨j, r, hj, hqueued, hr, husable⟩ := h.starts c hc hreserved
    refine ⟨j, r, hj, hqueued, hr, ?_⟩
    have hreservation : st.reservations.lookup r = acc.state.reservations.lookup r := by rw [hst.kept]
    rw [usableReservation_congr hreservation hst.held]
    exact husable

theorem usableReservation_isSome {st : State} {nodes : Nodes} {excluded : List String} {r : String}
    (h : (usableReservation hub st nodes excluded r).isSome) :
    ∃ x, st.reservations.lookup r = some x ∧ excluded.contains x.node = false ∧
      (nodes.lookup x.node).isNone = false := by
  obtain ⟨x, hx⟩ := isSome_iff_exists.mp h
  obtain ⟨hlookup, htest⟩ := filter_eq_some_iff.mp hx
  simp only [Bool.and_eq_true, Bool.not_eq_true'] at htest
  refine ⟨x, hlookup, htest.1.2, ?_⟩
  cases hnode : nodes.lookup x.node with
  | none => simp [hnode] at htest
  | some row => rfl

/-- Only a job's own stale reservation is dropped. -/
theorem ScanReserved.dropStale {ids : List String} (hs : Reserved ids s) {acc : Scan}
    (h : ScanReserved hub ctx s acc) {e : Sigma fun _ : String => LiveJob}
    (he : s.jobs.lookup e.1 = some e.2) (hqueued : e.2.row.state = .queued) :
    ScanReserved hub ctx s ⟨(dropStale ctx acc.state acc.found e.1 e.2
      (jobExclusions ctx.place.policy e.2.row ctx.place.nodes)).1, acc.found, acc.eligible⟩ := by
  unfold Virtkit.Hub.dropStale
  cases hr₀ : e.2.reservation with
  | none => exact h
  | some r₀ =>
    dsimp only
    split
    · rename_i hstale
      have hlookup : ∀ r, AList.lookup r ((dropReservation acc.state r₀).setJob e.1 fun j =>
          { j with reservation := none }).reservations = if r = r₀ then none else acc.state.reservations.lookup r := by
        intro r
        rw [State.setJob]
        dsimp only
        rw [dropReservation_eq, Table.lookup_erase_ite]
      have hjobs : ∀ k, AList.lookup k ((dropReservation acc.state r₀).setJob e.1 fun j =>
          { j with reservation := none }).jobs =
            if k = e.1 then (acc.state.jobs.lookup k).map fun j => { j with reservation := none }
            else acc.state.jobs.lookup k := by
        intro k
        rw [State.setJob]
        dsimp only
        rw [dropReservation_eq, Table.lookup_modify]
        split
        · rename_i hk
          rw [hk]
        · rfl
      refine ⟨fun id j j' r hj hj' hr hx => ?_, fun c hc hreserved => ?_⟩
      · dsimp only at hj' hx
        rw [hlookup] at hx
        rw [hjobs] at hj'
        split at hj'
        · rename_i hid
          rw [hid, he, some_inj] at hj
          rw [← hj, hr₀, some_inj] at hr
          simp [hr] at hx
        · split at hx
          · simp at hx
          · exact h.kept id j j' r hj hj' hr hx
      · obtain ⟨j, r, hj, hjqueued, hr, husable⟩ := h.starts c hc hreserved
        refine ⟨j, r, hj, hjqueued, hr, ?_⟩
        have hne : r ≠ r₀ := by
          rintro rfl
          have hlane := hs.lane c.id j e.1 e.2 r hj hjqueued he hqueued hr hr₀
          obtain ⟨x, hx, hallowed, hthere⟩ := usableReservation_isSome husable
          rw [jobExclusions, hlane] at hallowed
          rw [hx, any_some, jobExclusions, hallowed, hthere] at hstale
          simp at hstale
        have hreservation := hlookup r
        rw [if_neg hne] at hreservation
        rw [usableReservation_congr hreservation (Notes.dropReservation acc.state r₀).held]
        exact husable
    · exact h

theorem ScanReserved.scanJob {ids : List String} (hs : Reserved ids s) {acc : Scan}
    (h : ScanReserved hub ctx s acc) {e : Sigma fun _ : String => LiveJob}
    (he : s.jobs.lookup e.1 = some e.2) (hqueued : e.2.row.state = .queued) :
    ScanReserved hub ctx s (scanJob hub ctx now loads acc e) := by
  have hdrop := h.dropStale hs he hqueued
  have hnamed : ∀ r, (Virtkit.Hub.dropStale ctx acc.state acc.found e.1 e.2
      (jobExclusions ctx.place.policy e.2.row ctx.place.nodes)).2.2 = some r →
      e.2.reservation = some r := by
    intro r hr
    unfold Virtkit.Hub.dropStale at hr
    split at hr
    · simp at hr
    · rename_i r₀ hr₀
      split at hr
      · simp at hr
      · rw [hr₀]
        exact hr
  unfold Virtkit.Hub.scanJob
  dsimp only
  generalize Virtkit.Hub.dropStale ctx acc.state acc.found e.1 e.2
    (jobExclusions ctx.place.policy e.2.row ctx.place.nodes) = d at hdrop hnamed ⊢
  have hclear := hdrop.quiet (Quiet.blockedJob d.1 e.1 none) d.2.1
  split
  · exact hdrop.quiet (Quiet.blockedJob d.1 e.1 _) _
  · split
    · exact hdrop.quiet (Quiet.blockedJob d.1 e.1 _) _
    · split
      · rename_i husable
        refine ⟨hclear.kept, fun c hc hreserved => ?_⟩
        rcases mem_append.mp hc with hc | hc
        · exact hclear.starts c hc hreserved
        · rw [mem_singleton.mp hc]
          obtain ⟨r, hr, hsome⟩ := (any_eq_true _ _).mp husable
          exact ⟨e.2, r, he, hqueued, hnamed r hr, hsome⟩
      · have hnode := Quiet.jobNode hub ctx now (blockedJob d.1 e.1 none) e.1 e.2
          (Found.get d.2.1 hub (blockedJob d.1 e.1 none) ctx.place.nodes e.2.row.placement).1
          (jobExclusions ctx.place.policy e.2.row ctx.place.nodes)
        split
        · exact hclear.quiet (hnode.trans (Quiet.blockedJob _ e.1 _)) _
        · have hasked := hclear.quiet hnode (Found.get d.2.1 hub (blockedJob d.1 e.1 none)
            ctx.place.nodes e.2.row.placement).2
          refine ⟨hasked.kept, fun c hc hreserved => ?_⟩
          rcases mem_append.mp hc with hc | hc
          · exact hasked.starts c hc hreserved
          · rw [mem_singleton.mp hc] at hreserved
            simp [jobCandidate] at hreserved

theorem ScanReserved.scanTicket {acc : Scan} (h : ScanReserved hub ctx s acc) (e : Sigma fun _ : String => Ticket) :
    ScanReserved hub ctx s (scanTicket hub ctx now loads acc e) := by
  have hquiet := h.quiet (Quiet.scanTicket hub ctx now loads acc e)
    (Virtkit.Hub.scanTicket hub ctx now loads acc e).found
  refine ⟨hquiet.kept, fun c hc hreserved => hquiet.starts c ?_ hreserved⟩
  unfold Virtkit.Hub.scanTicket at hc
  split at hc
  · exact hc
  · dsimp only at hc
    split at hc
    · exact hc
    · rcases mem_append.mp hc with hc | hc
      · exact hc
      · rw [mem_singleton.mp hc] at hreserved
        simp at hreserved

/-- What a scan takes for reserved work has a usable reservation. -/
theorem ScanReserved.scan {ids : List String} (hs : Reserved ids s) (skipped : List String)
    (found : Found) : ScanReserved hub ctx s (scan hub ctx now loads skipped s found) := by
  have hstart : ScanReserved hub ctx s ⟨s, found, []⟩ := by
    refine ⟨fun id j j' r hj hj' hr _ => ?_, fun c hc => by simp at hc⟩
    rw [hj, some_inj] at hj'
    rw [← hj']
    exact hr
  unfold Virtkit.Hub.scan
  dsimp only
  refine foldlRecOn _ _ (foldlRecOn _ _ hstart fun acc h e _ => h.scanTicket e) ?_
  intro acc h e he
  obtain ⟨hmem, htest⟩ := mem_filter.mp he
  simp only [Bool.and_eq_true, decide_eq_true_eq] at htest
  exact h.scanJob hs (AList.mem_lookup_iff.mpr hmem) htest.1.1

end ScanReserved

end Virtkit.Hub
