import Virtkit.Hub.RoomSums

/-!
# Eligible work

What a scan vouches for: each candidate is a waiting ticket or a queued job that passed its gates,
with a node that had room and admitted it when it was gone over. The nodes a scan keeps looked up
are those that a look at the state would find, so a scan that starts with some kept finds what one
that starts with none finds.
-/

namespace Virtkit.Hub

open Virtkit.Common List

/-- Between the two states a node had room for a placement and admitted work of a class. -/
def NodeFor (hub : HubEnv) (ctx : PlaceCtx) (s s' : State) (p : Placement) (cls : Class)
    (node : String) : Prop :=
  ∃ st, Notes s st ∧ Notes st s' ∧ node ∈ (candidates hub st ctx.nodes p []).map Prod.fst ∧
    admits hub st ctx.nodes ctx.policy p cls node = true

/-- A candidate is a waiting ticket that passed its gates in a scan between the two states. -/
structure TicketEligible (hub : HubEnv) (ctx : ScheduleCtx) (now : ℕ) (loads : Loads)
    (s s' : State) (c : Candidate) (t : Ticket) : Prop where
  ticket : s.tickets.lookup c.id = some t
  waiting : t.phase = .waiting
  gate : ∃ gate, ticketGate hub ctx now loads s t = .ok gate ∧ c.probe = gate.probe
  lane : c.lane = t.identity.lane
  cls : c.cls = t.identity.cls
  node : NodeFor hub ctx.place s s' t.placement t.identity.cls c.node
  notJob : c.job = false
  notReserved : c.reserved = false
  notDue : c.due = false

/-- A candidate is a queued job that passed its gates in a scan between the two states: with a
reservation to start on, or without one and with a node. -/
structure JobEligible (hub : HubEnv) (ctx : ScheduleCtx) (now : ℕ) (loads : Loads)
    (s s' : State) (c : Candidate) (j : LiveJob) : Prop where
  job : s.jobs.lookup c.id = some j
  queued : j.row.state = .queued
  notCanceled : j.row.cancel = none
  gate : jobGate ctx loads j.row = none
  lane : c.lane = jobLane j.row
  cls : c.cls = jobClass j.row
  reserved : c.reserved = true → c.node = ""
  node : c.reserved = false → NodeFor hub ctx.place s s' j.row.placement (jobClass j.row) c.node ∧
      ∀ r, j.reservation = some r → usableReservation hub s' ctx.place.nodes
        (jobExclusions ctx.place.policy j.row ctx.place.nodes) r = none
  isJob : c.job = true
  notProbe : c.probe = false

/-- A candidate a scan between the two states vouches for. -/
def Eligible (hub : HubEnv) (ctx : ScheduleCtx) (now : ℕ) (loads : Loads) (s s' : State)
    (c : Candidate) : Prop :=
  (∃ t, TicketEligible hub ctx now loads s s' c t) ∨ ∃ j, JobEligible hub ctx now loads s s' c j

variable {s' : State} {nodes : Nodes} {excluded : List String}

variable {s : State} {hub : HubEnv} {ctx : ScheduleCtx} {now : ℕ}

/-- A reservation that is of no use stays so through notes. -/
theorem Notes.usableReservation_eq_none (h : Notes s s') {r : String}
    (hnone : usableReservation hub s nodes excluded r = none) : usableReservation hub s' nodes excluded r = none := by
  have hheld : ∀ o : Option Link, o.any Link.held = (o.map Link.held).any id := by
    intro o
    cases o <;> rfl
  cases hr : s'.reservations.lookup r with
  | none => rw [usableReservation, hr, Option.filter_none]
  | some x =>
    have hx := h.reservations r x hr
    simp only [usableReservation, hx, hheld] at hnone
    simp only [usableReservation, hr, hheld, h.held]
    exact hnone

variable {c : Candidate}

/-- Notes leave a candidate eligible. -/
theorem Eligible.mono {loads : Loads} {s'' : State} (h : Eligible hub ctx now loads s s' c) (hnotes : Notes s' s'') :
    Eligible hub ctx now loads s s'' c := by
  have hnode : ∀ p cls, NodeFor hub ctx.place s s' p cls c.node → NodeFor hub ctx.place s s'' p cls c.node := by
    rintro p cls ⟨st, hthen, hsince, hroom, hadmits⟩
    exact ⟨st, hthen, hsince.trans hnotes, hroom, hadmits⟩
  rcases h with ⟨t, ht⟩ | ⟨j, hj⟩
  · exact .inl ⟨t, { ht with node := hnode _ _ ht.node }⟩
  · refine .inr ⟨j, { hj with node := fun hreserved => ?_ }⟩
    obtain ⟨hfor, hunusable⟩ := hj.node hreserved
    exact ⟨hnode _ _ hfor, fun r hr => hnotes.usableReservation_eq_none (hunusable r hr)⟩

theorem Eligible.job {loads : Loads} (h : Eligible hub ctx now loads s s' c) (hjob : c.job = true) :
    ∃ j, JobEligible hub ctx now loads s s' c j := by
  rcases h with ⟨t, ht⟩ | hj
  · rw [ht.notJob] at hjob
    simp at hjob
  · exact hj

theorem Eligible.ticket {loads : Loads} (h : Eligible hub ctx now loads s s' c) (hjob : c.job = false) :
    ∃ t, TicketEligible hub ctx now loads s s' c t := by
  rcases h with ht | ⟨j, hj⟩
  · exact ht
  · rw [hj.isJob] at hjob
    simp at hjob

/-- The nodes kept looked up are those a look at the state would find. -/
def Found.Valid (found : Found) (hub : HubEnv) (s : State) (nodes : Nodes) : Prop :=
  ∀ f ∈ found, f.2 = candidates hub s nodes f.1 []

/-- What was found stays valid while rooms stay the same. -/
theorem SameRoom.found (h : SameRoom s s') {found : Found}
    (hfound : found.Valid hub s nodes) : found.Valid hub s' nodes :=
  fun f hf => (hfound f hf).trans (h.candidates_eq hub nodes f.1 []).symm

theorem Quiet.found (h : Quiet s s') {found : Found} (hfound : found.Valid hub s nodes) : found.Valid hub s' nodes :=
  h.sameRoom.found hfound

/-- Candidates are the same whether found before or now. -/
theorem Found.get_fst {found : Found} (h : found.Valid hub s nodes) (p : Placement) :
    (found.get hub s nodes p).1 = candidates hub s nodes p [] := by
  unfold Found.get
  split
  · rename_i f hf
    have hp : f.1 = p := by simpa using find?_some hf
    rw [← hp]
    exact h f (mem_of_find?_eq_some hf)
  · rfl

theorem Found.get_snd {found : Found} (h : found.Valid hub s nodes) (p : Placement) :
    Found.Valid (found.get hub s nodes p).2 hub s nodes := by
  unfold Found.get
  split
  · exact h
  · intro f hf
    rcases mem_append.mp hf with hf | hf
    · exact h f hf
    · rw [mem_singleton.mp hf]

theorem ticketGate_congr (h : s'.demand = s.demand) (hub : HubEnv) (ctx : ScheduleCtx)
    (now : ℕ) (loads : Loads) (t : Ticket) : ticketGate hub ctx now loads s' t = ticketGate hub ctx now loads s t := by
  unfold ticketGate
  rw [h]

/-- Whoever is asked, a node that answers was asked with some nodes left out. -/
theorem askAround_eq_ok {node : List String → Except String String} {tried again : List String}
    {roundEnded : Option ℕ} {n : String}
    (h : (askAround node tried again roundEnded now).2 = .ok n) : ∃ skip, node skip = .ok n := by
  unfold askAround at h
  split at h
  · rename_i m hm
    exact ⟨tried, hm.trans h⟩
  · split at h
    · dsimp only at h
      split at h
      · exact ⟨again, h⟩
      · simp at h
    · simp at h

/-- A ticket's node fits and admits it. -/
theorem ticketNode_eq_ok {id : String} {t : Ticket} {fits : List (String × ℕ)} {node : String}
    (h : (ticketNode hub ctx now s id t fits excluded).2 = .ok node) : node ∈ fits.map Prod.fst ∧
      admits hub s ctx.place.nodes ctx.place.policy t.placement t.identity.cls node = true := by
  unfold ticketNode at h
  obtain ⟨skip, hskip⟩ := askAround_eq_ok h
  obtain ⟨hroom, -, -, hadmits⟩ := admissionNode_eq_ok hskip
  exact ⟨hroom, hadmits⟩

/-- A job's node fits and admits it. -/
theorem jobNode_eq_ok {id : String} {j : LiveJob} {fits : List (String × ℕ)} {node : String}
    (h : (jobNode hub ctx now s id j fits excluded).2 = .ok node) : node ∈ fits.map Prod.fst ∧
      admits hub s ctx.place.nodes ctx.place.policy j.row.placement (jobClass j.row) node = true := by
  unfold jobNode at h
  obtain ⟨skip, hskip⟩ := askAround_eq_ok h
  obtain ⟨hroom, -, -, hadmits⟩ := admissionNode_eq_ok hskip
  exact ⟨hroom, hadmits⟩

section ScanInv

variable (hub : HubEnv) (ctx : ScheduleCtx) (now : ℕ) (loads : Loads) (s : State)

/-- What holds of a scan under way from a state: it only made notes, what it keeps looked up is
valid, and it vouches for its candidates. -/
structure ScanInv (acc : Scan) : Prop where
  notes : Notes s acc.state
  found : acc.found.Valid hub acc.state ctx.place.nodes
  eligible : ∀ c ∈ acc.eligible, Eligible hub ctx now loads s acc.state c

variable {hub ctx now loads s}

variable {acc : Scan}

/-- A step of a scan adds only what is eligible. -/
theorem ScanInv.step {acc' : Scan} (h : ScanInv hub ctx now loads s acc)
    (hnotes : Notes acc.state acc'.state) (hfound : acc'.found.Valid hub acc'.state ctx.place.nodes)
    (hnew : ∀ c ∈ acc'.eligible, c ∈ acc.eligible ∨ Eligible hub ctx now loads s acc'.state c) :
    ScanInv hub ctx now loads s acc' := by
  refine ⟨h.notes.trans hnotes, hfound, fun c hc => ?_⟩
  rcases hnew c hc with hc | hc
  · exact (h.eligible c hc).mono hnotes
  · exact hc

variable {st : State}

theorem eligible_append {l : List Candidate} {c : Candidate} (hc : Eligible hub ctx now loads s st c) :
    ∀ d ∈ l ++ [c], d ∈ l ∨ Eligible hub ctx now loads s st d := by
  intro d hd
  rcases mem_append.mp hd with hd | hd
  · exact .inl hd
  · rw [mem_singleton.mp hd]
    exact .inr hc

theorem Found.scanTicket (h : acc.found.Valid hub acc.state ctx.place.nodes) (e : Sigma fun _ : String => Ticket) :
    Found.Valid (scanTicket hub ctx now loads acc e).found hub
      (Virtkit.Hub.scanTicket hub ctx now loads acc e).state ctx.place.nodes := by
  have hget := Found.get_snd h e.2.placement
  refine Quiet.found (.scanTicket hub ctx now loads acc e) ?_
  unfold Virtkit.Hub.scanTicket
  split
  · exact h
  · dsimp only
    split <;> exact hget

/-- Scanning a waiting ticket keeps the scan's invariant. -/
theorem ScanInv.scanTicket (h : ScanInv hub ctx now loads s acc)
    {e : Sigma fun _ : String => Ticket} (he : s.tickets.lookup e.1 = some e.2) (hwaits : e.2.phase = .waiting) :
    ScanInv hub ctx now loads s (scanTicket hub ctx now loads acc e) := by
  have hnotes := (Quiet.scanTicket hub ctx now loads acc e).toNotes
  refine h.step hnotes (Found.scanTicket h.found e) ?_
  unfold Virtkit.Hub.scanTicket at hnotes ⊢
  split
  · exact fun c hc => .inl hc
  · rename_i gate hgate
    rw [hgate] at hnotes
    dsimp only at hnotes ⊢
    split
    · exact fun c hc => .inl hc
    · rename_i node hnode
      rw [hnode] at hnotes
      obtain ⟨hroom, hadmits⟩ := ticketNode_eq_ok hnode
      rw [Found.get_fst h.found] at hroom
      rw [ticketGate_congr h.notes.demand] at hgate
      exact eligible_append (.inl ⟨e.2, he, hwaits, ⟨gate, hgate, rfl⟩, rfl, rfl,
        ⟨acc.state, h.notes, hnotes, hroom, hadmits⟩, rfl, rfl, rfl⟩)

theorem Found.dropStale {found : Found} (h : found.Valid hub st ctx.place.nodes) (id : String)
    (job : LiveJob) (excluded : List String) : Found.Valid (dropStale ctx st found id job excluded).2.1 hub
      (Virtkit.Hub.dropStale ctx st found id job excluded).1 ctx.place.nodes := by
  unfold Virtkit.Hub.dropStale
  split
  · exact h
  · split
    · intro f hf
      simp at hf
    · exact h

theorem Found.scanJob (h : acc.found.Valid hub acc.state ctx.place.nodes) (e : Sigma fun _ : String => LiveJob) :
    Found.Valid (scanJob hub ctx now loads acc e).found hub
      (Virtkit.Hub.scanJob hub ctx now loads acc e).state ctx.place.nodes := by
  have hdrop := Found.dropStale h e.1 e.2 (jobExclusions ctx.place.policy e.2.row ctx.place.nodes)
  unfold Virtkit.Hub.scanJob
  dsimp only
  split
  · exact Quiet.found (.blockedJob _ _ _) hdrop
  · split
    · exact Quiet.found (.blockedJob _ _ _) hdrop
    · have hclear := Quiet.found (.blockedJob _ e.1 none) hdrop
      split
      · exact hclear
      · have hget := Found.get_snd hclear e.2.row.placement
        split
        · exact Quiet.found (.blockedJob _ _ _) (Quiet.found (.jobNode hub ctx now _ e.1 e.2 _ _) hget)
        · exact Quiet.found (.jobNode hub ctx now _ e.1 e.2 _ _) hget

/-- A job whose reservation is dropped, or not usable, has none to use. -/
theorem usableReservation_of_dropStale {st' : State} {found : Found} {id r : String} {job : LiveJob}
    {excluded : List String} (hr : job.reservation = some r)
    (hst' : st'.reservations = (dropStale ctx st found id job excluded).1.reservations)
    (h : ¬ ((dropStale ctx st found id job excluded).2.2.any fun r =>
      (usableReservation hub st' ctx.place.nodes excluded r).isSome) = true) :
    usableReservation hub st' ctx.place.nodes excluded r = none := by
  unfold dropStale at hst' h
  rw [hr] at hst' h
  dsimp only at hst' h
  split at hst'
  · have hgone : st'.reservations.lookup r = none := by
      rw [hst', State.setJob]
      rw [dropReservation_eq, AList.lookup_erase]
    rw [usableReservation, hgone, Option.filter_none]
  · rename_i hkept
    rw [if_neg hkept] at h
    simpa using h

/-- Scanning a queued job keeps the scan's invariant. -/
theorem ScanInv.scanJob (h : ScanInv hub ctx now loads s acc) {e : Sigma fun _ : String => LiveJob}
    (he : s.jobs.lookup e.1 = some e.2) (hqueued : e.2.row.state = .queued) (hcancel : e.2.row.cancel = none) :
    ScanInv hub ctx now loads s (scanJob hub ctx now loads acc e) := by
  refine h.step (Notes.scanJob hub ctx now loads acc e) (Found.scanJob h.found e) ?_
  unfold Virtkit.Hub.scanJob
  dsimp only
  set exclusions := jobExclusions ctx.place.policy e.2.row ctx.place.nodes
  have hdrop := Found.dropStale h.found e.1 e.2 exclusions
  have hdropped := Notes.dropStale ctx acc.state acc.found e.1 e.2 exclusions
  have hunused : ∀ (st : State) (r : String), e.2.reservation = some r →
      st.reservations = (dropStale ctx acc.state acc.found e.1 e.2 exclusions).1.reservations →
      ¬ ((dropStale ctx acc.state acc.found e.1 e.2 exclusions).2.2.any fun r =>
          (usableReservation hub st ctx.place.nodes exclusions r).isSome) = true →
      usableReservation hub st ctx.place.nodes exclusions r = none :=
    fun st r => usableReservation_of_dropStale
  generalize dropStale ctx acc.state acc.found e.1 e.2 exclusions = d at hdrop hdropped hunused ⊢
  have hclear := Quiet.found (.blockedJob _ e.1 none) hdrop
  have hnotes := (h.notes.trans hdropped).trans (Quiet.blockedJob d.1 e.1 none).toNotes
  split
  · exact fun c hc => .inl hc
  · split
    · exact fun c hc => .inl hc
    · rename_i hgate
      split
      · exact eligible_append (.inr ⟨e.2, he, hqueued, hcancel, hgate, rfl, rfl,
          fun _ => rfl, fun hreserved => absurd hreserved (by simp [jobCandidate]), rfl, rfl⟩)
      · rename_i hunusable
        split
        · exact fun c hc => .inl hc
        · rename_i node hnode
          obtain ⟨hroom, hadmits⟩ := jobNode_eq_ok hnode
          rw [Found.get_fst hclear] at hroom
          have hlast := (Quiet.jobNode hub ctx now (blockedJob d.1 e.1 none) e.1 e.2
            (Found.get d.2.1 hub (blockedJob d.1 e.1 none) ctx.place.nodes e.2.row.placement).1
            exclusions).toNotes
          refine eligible_append (.inr ⟨e.2, he, hqueued, hcancel, hgate, rfl, rfl,
            fun hreserved => absurd hreserved (by simp [jobCandidate]),
            fun _ => ⟨⟨_, hnotes, hlast, hroom, hadmits⟩, fun r hr => ?_⟩, rfl, rfl⟩)
          exact hlast.usableReservation_eq_none (hunused _ r hr rfl hunusable)

theorem ScanInv.foldl {α : Type*} {step : Scan → α → Scan} {P : α → Prop}
    (hstep : ∀ acc a, P a → ScanInv hub ctx now loads s acc →
      ScanInv hub ctx now loads s (step acc a)) (l : List α) (hl : ∀ a ∈ l, P a) (h : ScanInv hub ctx now loads s acc) :
    ScanInv hub ctx now loads s (l.foldl step acc) := by
  induction l generalizing acc with
  | nil => exact h
  | cons a l ih => exact ih (fun b hb => hl b (mem_cons_of_mem _ hb)) (hstep acc a (hl a mem_cons_self) h)

/-- All that a scan finds is eligible. -/
theorem ScanInv.scan (skipped : List String) {found : Found} (hfound : found.Valid hub s ctx.place.nodes) :
    ScanInv hub ctx now loads s (scan hub ctx now loads skipped s found) := by
  have hstart : ScanInv hub ctx now loads s ⟨s, found, []⟩ := by
    refine ⟨.refl s, hfound, ?_⟩
    intro c hc
    simp at hc
  refine ScanInv.foldl (P := fun e => s.jobs.lookup e.1 = some e.2 ∧ e.2.row.state = .queued ∧
    e.2.row.cancel = none) (fun acc e he h => h.scanJob he.1 he.2.1 he.2.2) _ ?_ ?_
  · intro e he
    obtain ⟨hmem, htest⟩ := mem_filter.mp he
    simp only [Bool.and_eq_true, decide_eq_true_eq, Option.isNone_iff_eq_none] at htest
    exact ⟨AList.mem_lookup_iff.mpr hmem, htest.1.1, htest.1.2⟩
  · refine ScanInv.foldl (P := fun e => s.tickets.lookup e.1 = some e.2 ∧ e.2.phase = .waiting)
      (fun acc e he h => h.scanTicket he.1 he.2) _ ?_ hstart
    intro e he
    obtain ⟨hmem, htest⟩ := mem_filter.mp he
    exact ⟨AList.mem_lookup_iff.mpr hmem, by simpa using htest⟩

end ScanInv

/-!
## What a turn comes to

A turn of a pass scans, chooses and places. Between the scan and the placement only notes are made,
so a turn either ends the pass, places the job it chose or offers the ticket it chose a reservation.
-/

/-- Passing over candidates changes no room. -/
theorem Quiet.passOver (s : State) (eligible : List Candidate) : Quiet s (passOver s eligible) := by
  unfold Virtkit.Hub.passOver
  generalize eligible.filter _ = passed
  induction passed generalizing s with
  | nil => exact .refl s
  | cons e rest ih => exact (Quiet.blocked s e.id "normal turn owed").trans (ih _)

theorem links_passOver (s : State) (eligible : List Candidate) : (passOver s eligible).links = s.links := by
  unfold passOver
  generalize eligible.filter _ = passed
  induction passed generalizing s with
  | nil => rfl
  | cons e rest ih => exact ih _

abbrev Pass.scan (hub : HubEnv) (ctx : ScheduleCtx) (now : ℕ) (pass : Pass) : Scan :=
  Virtkit.Hub.scan hub ctx now pass.loads pass.skipped pass.state pass.found

/-- A pass after the scan of a turn, with the notes made since in its state. -/
def Pass.scanned (hub : HubEnv) (ctx : ScheduleCtx) (now : ℕ) (pass : Pass) (s : State) : Pass :=
  { pass with
    state := s
    found := (pass.scan hub ctx now).found }

/-- What a turn of a pass comes to: it ends the pass, places the job chosen or offers the ticket
chosen a reservation. -/
inductive TurnOutcome (hub : HubEnv) (ctx : ScheduleCtx) (now : ℕ) (pass : Pass) (sc : Scan) :
    Pass × Bool → Prop
  | stops {s : State} (hs : Quiet sc.state s)
      (hstop : ∀ chosen, choose (sc.state.turns.owed sc.eligible) sc.eligible = some chosen →
        chosen.job = false ∧ (s.tickets.lookup chosen.id = none ∨ pass.ids = [])) :
      TurnOutcome hub ctx now pass sc (pass.scanned hub ctx now s, false)
  | job {s : State} {chosen : Candidate} (hs : Quiet sc.state s)
      (hchosen : choose (sc.state.turns.owed sc.eligible) sc.eligible = some chosen)
      (hjob : chosen.job = true) :
      TurnOutcome hub ctx now pass sc
        (placeJob hub ctx now (pass.scanned hub ctx now s) s sc.eligible chosen, true)
  | ticket {s : State} {chosen : Candidate} {t : Ticket} {r : String} {ids : List String}
      (hs : Quiet sc.state s) (hlinks : s.links = sc.state.links)
      (hchosen : choose (sc.state.turns.owed sc.eligible) sc.eligible = some chosen)
      (hjob : chosen.job = false) (ht : s.tickets.lookup chosen.id = some t)
      (hids : pass.ids = r :: ids) :
      TurnOutcome hub ctx now pass sc
        (offerTicket ctx now (pass.scanned hub ctx now s) s sc.eligible chosen t r ids, true)

/-- A turn ends the pass, places a job or offers a ticket a reservation. -/
theorem turn_outcome (hub : HubEnv) (ctx : ScheduleCtx) (now : ℕ) (pass : Pass) :
    TurnOutcome hub ctx now pass (pass.scan hub ctx now) (turn hub ctx now pass) := by
  unfold turn
  dsimp only
  split
  · rename_i hnone
    refine .stops (.refl _) fun chosen hchosen => ?_
    rw [hnone] at hchosen
    simp at hchosen
  · rename_i chosen hchosen
    have hquiet : ∀ (b : Bool) (sc : Scan), Quiet sc.state (if b then passOver sc.state sc.eligible else sc.state) := by
      intro b sc
      split
      · exact .passOver _ _
      · exact .refl _
    split
    · rename_i hjob
      exact .job (hquiet _ _) hchosen hjob
    · rename_i hjob
      split
      · rename_i t r ids ht hids
        refine .ticket (hquiet _ _) ?_ hchosen (Bool.eq_false_iff.mpr hjob) ht hids
        split
        · exact links_passOver _ _
        · rfl
      · rename_i hneither
        refine .stops (hquiet _ _) fun other hother => ?_
        rw [hchosen, Option.some_inj] at hother
        subst hother
        refine ⟨Bool.eq_false_iff.mpr hjob, ?_⟩
        cases ht : AList.lookup chosen.id (State.tickets _) with
        | none => exact .inl rfl
        | some t =>
          cases hids : pass.ids with
          | nil => exact .inr rfl
          | cons r ids => exact absurd hids (hneither t r ids ht)

/-- What every turn keeps holds after any number of turns. -/
theorem turns_invariant {hub : HubEnv} {ctx : ScheduleCtx} {now : ℕ} {P : Pass → Prop}
    (hturn : ∀ pass, P pass → P (turn hub ctx now pass).1) (n : ℕ) {pass : Pass} (h : P pass) :
    P (turns hub ctx now n pass) := by
  induction n generalizing pass with
  | zero => exact h
  | succ n ih =>
    have hnext := hturn pass h
    unfold turns
    split
    · rename_i pass' heq
      rw [heq] at hnext
      exact ih hnext
    · rename_i pass' heq
      rw [heq] at hnext
      exact hnext

end Virtkit.Hub
