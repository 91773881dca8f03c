import Virtkit.Hub.Arbitrate

/-!
# What a scan leaves alone

Between placements arbitration only makes notes: on a ticket or a job, why it waits and which nodes
refused it; and it may give back a reservation that a job can no longer use. `Notes s s'` says that
nothing else differs, and `Quiet s s'` that no reservation went either.
-/

namespace Virtkit.Hub

open Virtkit.Common Option Table

def Ticket.core (t : Ticket) : Ticket := { t with blocked := none, tried := [], roundEnded := none }

/-- A job without the notes on it, and without its reservation. -/
def LiveJob.core (j : LiveJob) : LiveJob :=
  { j with blocked := none, tried := [], roundEnded := none, reservation := none }

/-- The second state is the first with notes made and reservations given back. -/
structure Notes (s s' : State) : Prop where
  tickets : ∀ id, (s'.tickets.lookup id).map Ticket.core = (s.tickets.lookup id).map Ticket.core
  jobs : ∀ id, (s'.jobs.lookup id).map LiveJob.core = (s.jobs.lookup id).map LiveJob.core
  jobReservation : ∀ id j', s'.jobs.lookup id = some j' → ∃ j, s.jobs.lookup id = some j ∧
    (j'.reservation = j.reservation ∨ j'.reservation = none)
  held : ∀ node, (s'.links.lookup node).map Link.held = (s.links.lookup node).map Link.held
  reservations : ∀ r x, s'.reservations.lookup r = some x → s.reservations.lookup r = some x
  rest : s' = { s with
    links := s'.links
    reservations := s'.reservations
    tickets := s'.tickets
    jobs := s'.jobs }

/-- The second state is the first with notes made. -/
structure Quiet (s s' : State) : Prop extends Notes s s' where
  kept : s'.reservations = s.reservations
  reserved : ∀ id, (s'.jobs.lookup id).map LiveJob.reservation = (s.jobs.lookup id).map LiveJob.reservation

namespace Notes

theorem refl (s : State) : Notes s s where
  tickets _ := rfl
  jobs _ := rfl
  jobReservation _ j' h := ⟨j', h, .inl rfl⟩
  held _ := rfl
  reservations _ _ h := h
  rest := rfl

/-- Notes on notes are notes. -/
theorem trans {s s' s'' : State} (h : Notes s s') (h' : Notes s' s'') : Notes s s'' where
  tickets id := (h'.tickets id).trans (h.tickets id)
  jobs id := (h'.jobs id).trans (h.jobs id)
  jobReservation id j'' hj'' := by
    obtain ⟨j', hj', hr'⟩ := h'.jobReservation id j'' hj''
    obtain ⟨j, hj, hr⟩ := h.jobReservation id j' hj'
    refine ⟨j, hj, ?_⟩
    rcases hr' with hr' | hr'
    · rw [hr']
      exact hr
    · exact .inr hr'
  held node := (h'.held node).trans (h.held node)
  reservations r x hx := h.reservations r x (h'.reservations r x hx)
  rest := by
    have h₁ := h.rest
    have h₂ := h'.rest
    rw [h₁] at h₂
    exact h₂

variable {s s' : State}

section

variable (h : Notes s s')
include h

theorem turns : s'.turns = s.turns := by rw [h.rest]

theorem demand : s'.demand = s.demand := by rw [h.rest]

theorem abandonedProbes : s'.abandonedProbes = s.abandonedProbes := by rw [h.rest]

theorem disowned : s'.disowned = s.disowned := by rw [h.rest]

theorem ticket {id : String} {t : Ticket} (ht : s.tickets.lookup id = some t) :
    ∃ t', s'.tickets.lookup id = some t' ∧ t'.core = t.core := by
  have hid := h.tickets id
  rw [ht, map_some, map_eq_some_iff] at hid
  exact hid

theorem job {id : String} {j : LiveJob} (hj : s.jobs.lookup id = some j) :
    ∃ j', s'.jobs.lookup id = some j' ∧ j'.core = j.core := by
  have hid := h.jobs id
  rw [hj, map_some, map_eq_some_iff] at hid
  exact hid

end

theorem row_eq_of_core_eq {j j' : LiveJob} (h : j'.core = j.core) : j'.row = j.row := by
  have hrow : j'.core.row = j.core.row := by rw [h]
  exact hrow

end Notes

/-- A change of a ticket's notes alone is quiet. -/
theorem Quiet.setTicket (s : State) (id : String) {f : Ticket → Ticket}
    (hf : ∀ t, (f t).core = t.core) : Quiet s (s.setTicket id f) where
  tickets id' := by
    rw [State.setTicket, lookup_modify]
    split
    · rename_i heq
      rw [heq, map_map]
      exact map_congr fun t _ => hf t
    · rfl
  jobs _ := rfl
  jobReservation _ j' h := ⟨j', h, .inl rfl⟩
  held _ := rfl
  reservations _ _ h := h
  rest := rfl
  kept := rfl
  reserved _ := rfl

theorem Notes.setJob (s : State) (id : String) {f : LiveJob → LiveJob} (hf : ∀ j, (f j).core = j.core)
    (hr : ∀ j, (f j).reservation = j.reservation ∨ (f j).reservation = none) : Notes s (s.setJob id f) where
  tickets _ := rfl
  jobs id' := by
    rw [State.setJob, lookup_modify]
    split
    · rename_i heq
      rw [heq, map_map]
      exact map_congr fun j _ => hf j
    · rfl
  jobReservation id' j' h := by
    rw [State.setJob, lookup_modify] at h
    split at h
    · rename_i heq
      rw [map_eq_some_iff] at h
      obtain ⟨j, hj, rfl⟩ := h
      exact ⟨j, heq ▸ hj, hr j⟩
    · exact ⟨j', h, .inl rfl⟩
  held _ := rfl
  reservations _ _ h := h
  rest := rfl

theorem Quiet.setJob (s : State) (id : String) {f : LiveJob → LiveJob}
    (hf : ∀ j, (f j).core = j.core) (hr : ∀ j, (f j).reservation = j.reservation) : Quiet s (s.setJob id f) where
  toNotes := .setJob s id hf fun j => .inl (hr j)
  kept := rfl
  reserved id' := by
    rw [State.setJob, lookup_modify]
    split
    · rename_i heq
      rw [heq, map_map]
      exact map_congr fun j _ => hr j
    · rfl

theorem Quiet.refl (s : State) : Quiet s s where
  toNotes := .refl s
  kept := rfl
  reserved _ := rfl

theorem Quiet.trans {s s' s'' : State} (h : Quiet s s') (h' : Quiet s' s'') : Quiet s s'' where
  toNotes := h.toNotes.trans h'.toNotes
  kept := h'.kept.trans h.kept
  reserved id := (h'.reserved id).trans (h.reserved id)

theorem Quiet.post (s : State) (node : String) (msg : HubJobMsg) : Quiet s (post s node msg) := by
  unfold Virtkit.Hub.post send
  split
  · exact .refl s
  · rename_i l hl
    split
    · exact .refl s
    · refine ⟨⟨fun _ => rfl, fun _ => rfl, fun _ j' h => ⟨j', h, .inl rfl⟩, ?_, fun _ _ h => h,
        rfl⟩, rfl, fun _ => rfl⟩
      intro node'
      rw [getD_some, lookup_insert_ite]
      split
      · rename_i heq
        rw [heq, hl]
        rfl
      · rfl

/-- A reservation may be dropped as a note. -/
theorem Notes.dropReservation (s : State) (r : String) : Notes s (dropReservation s r) := by
  unfold Virtkit.Hub.dropReservation
  split
  · rename_i old hold
    refine Notes.trans ?_ (Quiet.post _ old.node (.release r)).toNotes
    refine ⟨fun _ => rfl, fun _ => rfl, fun _ j' h => ⟨j', h, .inl rfl⟩, fun _ => rfl, ?_, rfl⟩
    intro r' x hx
    rw [lookup_erase_ite] at hx
    split at hx
    · simp at hx
    · exact hx
  · exact .refl s

section Scan

variable (hub : HubEnv) (ctx : ScheduleCtx) (now : ℕ) (loads : Loads)

variable (s : State) (id : String)

theorem Quiet.ticketNode (ticket : Ticket) (fits : List (String × ℕ))
    (excluded : List String) : Quiet s (ticketNode hub ctx now s id ticket fits excluded).1 :=
  .setTicket s id fun t => by
    unfold Ticket.inRound
    split <;> rfl

theorem Quiet.blocked (s : State) (id reason : String) : Quiet s (blocked s id reason) :=
  .setTicket s id fun _ => rfl

theorem Quiet.blockedJob (reason : Option String) : Quiet s (blockedJob s id reason) :=
  .setJob s id (fun _ => rfl) fun _ => rfl

/-- Scanning a ticket writes only notes. -/
theorem Quiet.scanTicket (acc : Scan) (e : Sigma fun _ : String => Ticket) :
    Quiet acc.state (scanTicket hub ctx now loads acc e).state := by
  unfold Virtkit.Hub.scanTicket
  split
  · exact .blocked acc.state e.1 _
  · rename_i gate _
    have hnode := Quiet.ticketNode hub ctx now acc.state e.1 e.2
      (acc.found.get hub acc.state ctx.place.nodes e.2.placement).1
      (laneExclusions ctx.place.policy e.2.identity.lane ctx.place.nodes)
    dsimp only
    split <;> exact hnode.trans (.blocked _ e.1 _)

theorem Quiet.jobNode (job : LiveJob) (fits : List (String × ℕ))
    (excluded : List String) : Quiet s (jobNode hub ctx now s id job fits excluded).1 :=
  .setJob s id (fun j => by
      unfold LiveJob.inRound
      split <;> rfl)
    fun j => by
      unfold LiveJob.inRound
      split <;> rfl

theorem Notes.dropStale (s : State) (found : Found) (id : String) (job : LiveJob)
    (excluded : List String) : Notes s (dropStale ctx s found id job excluded).1 := by
  unfold Virtkit.Hub.dropStale
  split
  · exact .refl s
  · rename_i r _
    split
    · have hjob := Notes.setJob (Virtkit.Hub.dropReservation s r) id
        (f := fun j => { j with reservation := none }) (fun _ => rfl) fun _ => .inr rfl
      exact (Notes.dropReservation s r).trans hjob
    · exact .refl s

/-- Scanning a job writes notes, and drops stale reservations. -/
theorem Notes.scanJob (acc : Scan) (e : Sigma fun _ : String => LiveJob) :
    Notes acc.state (scanJob hub ctx now loads acc e).state := by
  have hdrop := Notes.dropStale ctx acc.state acc.found e.1 e.2 (jobExclusions ctx.place.policy e.2.row ctx.place.nodes)
  unfold Virtkit.Hub.scanJob
  dsimp only
  split
  · exact hdrop.trans (Quiet.blockedJob _ e.1 _).toNotes
  · split
    · exact hdrop.trans (Quiet.blockedJob _ e.1 _).toNotes
    · have hclear := hdrop.trans (Quiet.blockedJob _ e.1 none).toNotes
      split
      · exact hclear
      · split
        · exact (hclear.trans (Quiet.jobNode hub ctx now _ e.1 e.2 _ _).toNotes).trans
            (Quiet.blockedJob _ e.1 _).toNotes
        · exact hclear.trans (Quiet.jobNode hub ctx now _ e.1 e.2 _ _).toNotes

end Scan

theorem Notes.foldl {α : Type*} {step : Scan → α → Scan}
    (hstep : ∀ acc a, Notes acc.state (step acc a).state) (l : List α) (acc : Scan) :
    Notes acc.state (l.foldl step acc).state := by
  induction l generalizing acc with
  | nil => exact .refl _
  | cons a l ih => exact (hstep acc a).trans (ih _)

/-- A scan writes only notes. -/
theorem Notes.scan (hub : HubEnv) (ctx : ScheduleCtx) (now : ℕ) (loads : Loads)
    (skipped : List String) (s : State) (found : Found) : Notes s (scan hub ctx now loads skipped s found).state := by
  unfold Virtkit.Hub.scan
  have htickets := Notes.foldl (fun acc e => (Quiet.scanTicket hub ctx now loads acc e).toNotes)
    (s.tickets.entries.filter fun e => e.2.phase = .waiting) ⟨s, found, []⟩
  exact htickets.trans (Notes.foldl (Notes.scanJob hub ctx now loads) _ _)

end Virtkit.Hub
