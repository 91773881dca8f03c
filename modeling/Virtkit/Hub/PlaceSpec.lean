import Virtkit.Hub.LoadSums

/-!
# What placing a job and offering a ticket do

Placing a job has one of three outcomes: only notes were made, the job ended because its egress
layer cannot be sent, or it was sent to its target. An offer to a ticket is queued for its node, and the
ticket holds a reservation there until the node answers; or it cannot be queued, and but for its notes the
ticket is back where it was. Either way all others and the abandoned probes are left alone.
-/

namespace Virtkit.Hub

open Virtkit.Common Option Table

variable {s s' : State}

theorem send_eq {node : String} {msg : HubJobMsg} (h : send s node msg = some s') :
    s' = { s with links := s'.links } := by
  unfold send at h
  split at h
  · simp at h
  · split at h
    · simp at h
    · rw [some.injEq] at h
      rw [← h]

theorem held_send {node : String} {msg : HubJobMsg} (h : send s node msg = some s') (k : String) :
    (s'.links.lookup k).map Link.held = (s.links.lookup k).map Link.held := by
  have hpost : post s node msg = s' := by rw [post, h, getD_some]
  rw [← hpost]
  exact (Quiet.post s node msg).held k

theorem post_eq (s : State) (node : String) (msg : HubJobMsg) :
    post s node msg = { s with links := (post s node msg).links } := by
  unfold post
  cases h : send s node msg with
  | none => rfl
  | some s' => exact send_eq h

theorem dropReservation_eq (s : State) (r : String) : dropReservation s r = { s with
        links := (dropReservation s r).links
        reservations := s.reservations.erase r } := by
  unfold dropReservation
  split
  · exact post_eq _ _ _
  · rename_i hnone
    have herase : s.reservations.erase r = s.reservations := by
      apply AList.ext
      exact List.kerase_of_notMem_keys (AList.lookup_eq_none.mp hnone)
    rw [herase]

theorem warmTouch_eq (s : State) (key node : String) (now : ℕ) :
    warmTouch s key node now = { s with warm := (warmTouch s key node now).warm } := by
  unfold warmTouch
  dsimp only
  split
  · split <;> rfl
  · rfl

variable {hub : HubEnv} {id : String}

/-- What an end changes: the job, its reservation and the messages. -/
theorem finish_eq {failure : Option FailureClass} {message : Option String} {row : JobRow}
    (h : finish hub s id failure message = some (s', row)) :
    ∃ job, s.jobs.lookup id = some job ∧ s' = { s with
        links := s'.links
        reservations := job.reservation.elim s.reservations s.reservations.erase
        jobs := s.jobs.erase id
        finished := s.finished.insert id row
        warm := s'.warm } := by
  unfold finish at h
  split at h
  · simp at h
  · rename_i job hjob
    rw [some.injEq, Prod.mk.injEq] at h
    obtain ⟨hs, rfl⟩ := h
    refine ⟨job, hjob, ?_⟩
    rw [← hs]
    cases hr : job.reservation with
    | none =>
      split
      · rw [elim_none, warmTouch_eq]
        rfl
      · rfl
    | some r =>
      simp only [elim_some]
      split
      · rw [warmTouch_eq, dropReservation_eq]
      · rw [dropReservation_eq]

theorem Quiet.openNode (hub : HubEnv) (s : State) (ctx : PlaceCtx) (id : String) (job : LiveJob)
    (now : ℕ) (selected : Option String) : Quiet s (openNode hub s ctx id job now selected).1 := by
  unfold Virtkit.Hub.openNode
  dsimp only
  split
  · split <;> exact Quiet.setJob s id (fun _ => rfl) fun _ => rfl
  · exact .refl s

theorem Quiet.target (hub : HubEnv) (s : State) (ctx : PlaceCtx) (id : String) (job : LiveJob)
    (now : ℕ) (selected : Option String) : Quiet s (target hub s ctx id job now selected).1 := by
  unfold Virtkit.Hub.target
  dsimp only
  split
  · exact .refl s
  · exact .openNode hub s ctx id job now _

theorem sendTo_eq {t : Target} (h : sendTo s id t = some s') : s' = { s with
      links := s'.links
      reservations := t.givenUp.elim (t.reservation.elim s.reservations s.reservations.erase)
        (t.reservation.elim s.reservations s.reservations.erase).erase
      jobs := s.jobs.modify id fun j => j.sent t } := by
  unfold sendTo at h
  split at h
  · simp at h
  · rename_i s₁ hsend
    have hs₁ := send_eq hsend
    rw [some.injEq] at h
    rw [← h, hs₁]
    cases t.givenUp with
    | none => rfl
    | some r => exact dropReservation_eq _ r

/-- A placement notes why it waits, ends the job, or sends it to a node. -/
theorem place_cases {ctx : PlaceCtx} {now : ℕ} {selected : Option String} {written : Option JobRow}
    (h : place hub s ctx id now selected = (s', written)) : Quiet s s' ∨
    (∃ why row, finish hub s id (some .configuration) (some why) = some (s', row)) ∨
    ∃ job t s₁, s.jobs.lookup id = some job ∧
      target hub s ctx id job now selected = (s₁, some t) ∧ sendTo s₁ id t = some s' := by
  unfold place at h
  split at h
  · cases h
    exact .inl (.refl s)
  · rename_i job hjob
    split at h
    · cases h
      exact .inl (.refl s)
    · split at h
      · dsimp only at h
        split at h
        · rename_i s₁ row hfinish
          cases h
          exact .inr (.inl ⟨_, row, hfinish⟩)
        · cases h
          exact .inl (.refl s)
      · have hquiet := Quiet.target hub s ctx id job now selected
        split at h
        · rename_i s₁ htarget
          cases h
          rw [htarget] at hquiet
          exact .inl hquiet
        · rename_i s₁ t htarget
          rw [htarget] at hquiet
          split at h
          · rename_i s₂ hsend
            cases h
            exact .inr (.inr ⟨job, t, s₁, hjob, htarget, hsend⟩)
          · cases h
            exact .inl hquiet

/-- What a job is and stays: its principal, admission, identity and placement. -/
def JobRow.identity (row : JobRow) : String × Option String × Option SchedulingIdentity × Placement :=
  (row.key, row.admission, row.scheduling, row.placement)

/-- Placing a job leaves tickets, abandoned probes, turns and all other jobs alone, and what the
job is, and makes no reservation. -/
structure JobFrame (s s' : State) (id : String) : Prop where
  tickets : SameTickets s s'
  abandonedProbes : s'.abandonedProbes = s.abandonedProbes
  turns : s'.turns = s.turns
  jobs : ∀ k, k ≠ id → (s'.jobs.lookup k).map LiveJob.core = (s.jobs.lookup k).map LiveJob.core
  own : ∀ j', s'.jobs.lookup id = some j' → ∃ j, s.jobs.lookup id = some j ∧ j'.row.identity = j.row.identity
  reservations : ∀ r x, s'.reservations.lookup r = some x → s.reservations.lookup r = some x

theorem Notes.jobBefore (h : Notes s s') {j' : LiveJob} (hj' : s'.jobs.lookup id = some j') :
    ∃ j, s.jobs.lookup id = some j ∧ j'.row = j.row := by
  have hid := h.jobs id
  rw [hj', map_some, eq_comm, map_eq_some_iff] at hid
  obtain ⟨j, hj, hcore⟩ := hid
  exact ⟨j, hj, Notes.row_eq_of_core_eq hcore.symm⟩

theorem Notes.jobFrame (h : Notes s s') (id : String) : JobFrame s s' id where
  tickets := h.tickets
  abandonedProbes := h.abandonedProbes
  turns := h.turns
  jobs k _ := h.jobs k
  own j' hj' := by
    obtain ⟨j, hj, hrow⟩ := h.jobBefore hj'
    exact ⟨j, hj, by rw [hrow]⟩
  reservations := h.reservations

theorem lookup_of_elim_erase {V : Type*} {t : Table String V} {o : Option String} {k : String}
    {v : V} (h : AList.lookup k (o.elim t t.erase) = some v) : t.lookup k = some v := by
  cases o with
  | none => exact h
  | some r =>
    rw [elim_some, lookup_erase_ite] at h
    split at h
    · simp at h
    · exact h

theorem JobFrame.of_finish {failure : Option FailureClass} {message : Option String} {row : JobRow}
    (h : finish hub s id failure message = some (s', row)) : JobFrame s s' id := by
  obtain ⟨job, -, hs'⟩ := finish_eq h
  have hjobs : s'.jobs = s.jobs.erase id := by rw [hs']
  refine ⟨fun k => by rw [hs'], by rw [hs'], by rw [hs'], fun k hk => ?_, fun j' hj' => ?_, fun r x hx => ?_⟩
  · rw [hjobs, lookup_erase_ite, if_neg hk]
  · rw [hjobs, lookup_erase_ite, if_pos rfl] at hj'
    simp at hj'
  · rw [hs'] at hx
    exact lookup_of_elim_erase hx

theorem JobFrame.of_sendTo {s₁ : State} {t : Target} (hnotes : Notes s s₁)
    (h : sendTo s₁ id t = some s') : JobFrame s s' id := by
  have hs' := sendTo_eq h
  have hjobs : s'.jobs = s₁.jobs.modify id fun j => j.sent t := by rw [hs']
  refine ⟨fun k => ?_, ?_, ?_, fun k hk => ?_, fun j' hj' => ?_, fun r x hx => ?_⟩
  · rw [hs']
    exact hnotes.tickets k
  · rw [hs']
    exact hnotes.abandonedProbes
  · rw [hs']
    exact hnotes.turns
  · rw [hjobs, lookup_modify, if_neg hk]
    exact hnotes.jobs k
  · rw [hjobs, lookup_modify, if_pos rfl, map_eq_some_iff] at hj'
    obtain ⟨j₁, hj₁, rfl⟩ := hj'
    obtain ⟨j, hj, hrow⟩ := hnotes.jobBefore hj₁
    exact ⟨j, hj, by rw [← hrow]; rfl⟩
  · rw [hs'] at hx
    exact hnotes.reservations r x (lookup_of_elim_erase (lookup_of_elim_erase hx))

/-- A placement touches its own job. -/
theorem place_jobFrame {ctx : PlaceCtx} {now : ℕ} {selected : Option String}
    {written : Option JobRow} (h : place hub s ctx id now selected = (s', written)) : JobFrame s s' id := by
  rcases place_cases h with hquiet | ⟨why, row, hfinish⟩ | ⟨job, t, s₁, -, htarget, hsend⟩
  · exact hquiet.toNotes.jobFrame id
  · exact .of_finish hfinish
  · have hquiet := Quiet.target hub s ctx id job now selected
    rw [htarget] at hquiet
    exact .of_sendTo hquiet.toNotes hsend

theorem noteProbe_eq (s : State) (identity : ResolvedIdentity) (now : ℕ) : noteProbe s identity now = { s with
        laneProbe := (noteProbe s identity now).laneProbe
        demand := (noteProbe s identity now).demand } := by
  unfold noteProbe
  dsimp only
  split <;> rfl

/-- Between the two states one ticket changed; tickets and jobs are the same otherwise. -/
structure TicketFrame (s s' : State) (id : String) (t' : Ticket) : Prop where
  own : s'.tickets.lookup id = some t'
  tickets : ∀ k, k ≠ id → (s'.tickets.lookup k).map Ticket.core = (s.tickets.lookup k).map Ticket.core
  abandonedProbes : s'.abandonedProbes = s.abandonedProbes
  jobs : s'.jobs = s.jobs
  disowned : s'.disowned = s.disowned
  held : ∀ k, (s'.links.lookup k).map Link.held = (s.links.lookup k).map Link.held

/-- A turn of a pass whose offer was queued. -/
structure OfferSent (ctx : ScheduleCtx) (now : ℕ) (pass : Pass) (s : State)
    (eligible : List Candidate) (chosen : Candidate) (t : Ticket) (r : String) (pass' : Pass) :
    Prop where
  frame : TicketFrame s pass'.state chosen.id (t.offer r now chosen.probe)
  reservations : pass'.state.reservations = s.reservations.insert r (t.resv chosen.id chosen.node)
  turns : pass'.state.turns =
    s.turns.granted chosen.cls chosen.probe false ctx.place.policy.productionProbeBurst
  loads : pass'.loads = pass.loads.chargeTicket (t.offer r now chosen.probe)
  found : pass'.found = []
  picks : pass'.picks = pass.picks ++ [⟨eligible, chosen, some false⟩]

/-- A turn of a pass whose offer could not be queued. -/
structure OfferFailed (now : ℕ) (pass : Pass) (s : State) (eligible : List Candidate)
    (chosen : Candidate) (t : Ticket) (r : String) (pass' : Pass) : Prop where
  frame : TicketFrame s pass'.state chosen.id ((t.offer r now chosen.probe).back chosen.node)
  reservations : pass'.state.reservations = s.reservations
  turns : pass'.state.turns = s.turns
  loads : pass'.loads = pass.loads
  found : pass'.found = pass.found
  picks : pass'.picks = pass.picks ++ [⟨eligible, chosen, none⟩]

/-- An offer is sent, or the node is left out. -/
theorem offerTicket_cases (ctx : ScheduleCtx) (now : ℕ) (pass : Pass) {s : State}
    (eligible : List Candidate) (chosen : Candidate) {t : Ticket} {r : String} (ids : List String)
    (ht : s.tickets.lookup chosen.id = some t) (hr : s.reservations.lookup r = none) :
    OfferFailed now pass s eligible chosen t r (offerTicket ctx now pass s eligible chosen t r ids) ∨
      OfferSent ctx now pass s eligible chosen t r (offerTicket ctx now pass s eligible chosen t r ids) := by
  unfold offerTicket
  dsimp only
  split
  · left
    refine ⟨⟨?_, ?_, rfl, rfl, rfl, fun _ => rfl⟩, ?_, rfl, rfl, rfl, rfl⟩
    · dsimp only
      rw [lookup_modify, if_pos rfl, lookup_modify, if_pos rfl, ht]
      rfl
    · intro k hk
      dsimp only
      rw [lookup_modify, if_neg hk, lookup_modify, if_neg hk]
    · exact erase_insert _ hr _
  · rename_i s₂ hsend
    right
    have hs₂ := send_eq hsend
    have hheld := held_send hsend
    have hnote : ∀ s₃, s₃ = (if chosen.probe then noteProbe s₂ t.identity now else s₂) →
        s₃ = { s₂ with laneProbe := s₃.laneProbe, demand := s₃.demand } := by
      intro s₃ hs₃
      rw [hs₃]
      split
      · exact noteProbe_eq s₂ t.identity now
      · rfl
    generalize hs₃ : (if chosen.probe then noteProbe s₂ t.identity now else s₂) = s₃
    have hs₃' := hnote s₃ hs₃.symm
    refine ⟨⟨?_, ?_, ?_, ?_, ?_, ?_⟩, ?_, ?_, rfl, rfl, rfl⟩
    · dsimp only
      rw [hs₃', hs₂]
      dsimp only
      rw [lookup_modify, if_pos rfl, ht]
      rfl
    · intro k hk
      dsimp only
      rw [hs₃', hs₂]
      dsimp only
      rw [lookup_modify, if_neg hk]
    · dsimp only
      rw [hs₃', hs₂]
    · dsimp only
      rw [hs₃', hs₂]
    · dsimp only
      rw [hs₃', hs₂]
    · intro k
      dsimp only
      rw [hs₃']
      exact hheld k
    · dsimp only
      rw [hs₃', hs₂]
    · dsimp only
      rw [hs₃', hs₂]

end Virtkit.Hub
