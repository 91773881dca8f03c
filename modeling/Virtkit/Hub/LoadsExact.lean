import Virtkit.Hub.Eligible

/-!
# Scans and the nodes kept looked up

A scan that starts with some nodes kept looked up, all of them valid, finds the same work and makes
the same notes as one that starts with none.
-/

namespace Virtkit.Hub

open Virtkit.Common Option List

theorem Found.valid_nil (hub : HubEnv) (s : State) (nodes : Nodes) : Found.Valid [] hub s nodes := by
  intro f hf
  simp at hf

section Fresh

variable {hub : HubEnv} {ctx : ScheduleCtx} {now : ℕ} {loads : Loads}

variable {acc : Scan}

theorem scanTicket_fresh (h : acc.found.Valid hub acc.state ctx.place.nodes) (e : Sigma fun _ : String => Ticket) :
    (scanTicket hub ctx now loads acc e).state = (scanTicket hub ctx now loads ⟨acc.state, [], acc.eligible⟩ e).state ∧
      (scanTicket hub ctx now loads acc e).eligible =
        (scanTicket hub ctx now loads ⟨acc.state, [], acc.eligible⟩ e).eligible := by
  have hget := Found.get_fst h e.2.placement
  have hnil := Found.get_fst (Found.valid_nil hub acc.state ctx.place.nodes) e.2.placement
  unfold scanTicket
  dsimp only
  split
  · exact ⟨rfl, rfl⟩
  · rw [hget, hnil]
    split <;> exact ⟨rfl, rfl⟩

theorem dropStale_fresh (ctx : ScheduleCtx) (s : State) (found : Found) (id : String) (job : LiveJob)
    (excluded : List String) : (dropStale ctx s found id job excluded).1 = (dropStale ctx s [] id job excluded).1 ∧
      (dropStale ctx s found id job excluded).2.2 = (dropStale ctx s [] id job excluded).2.2 := by
  unfold dropStale
  split
  · exact ⟨rfl, rfl⟩
  · split <;> exact ⟨rfl, rfl⟩

theorem scanJob_fresh (h : acc.found.Valid hub acc.state ctx.place.nodes) (e : Sigma fun _ : String => LiveJob) :
    (scanJob hub ctx now loads acc e).state = (scanJob hub ctx now loads ⟨acc.state, [], acc.eligible⟩ e).state ∧
      (scanJob hub ctx now loads acc e).eligible =
        (scanJob hub ctx now loads ⟨acc.state, [], acc.eligible⟩ e).eligible := by
  unfold scanJob
  dsimp only
  set exclusions := jobExclusions ctx.place.policy e.2.row ctx.place.nodes
  have hdrop := dropStale_fresh ctx acc.state acc.found e.1 e.2 exclusions
  have hvalid := Found.dropStale h e.1 e.2 exclusions
  have hvalid' := Found.dropStale (Found.valid_nil hub acc.state ctx.place.nodes) e.1 e.2 exclusions
  rw [hdrop.1] at hvalid ⊢
  rw [hdrop.2]
  split
  · exact ⟨rfl, rfl⟩
  · split
    · exact ⟨rfl, rfl⟩
    · split
      · exact ⟨rfl, rfl⟩
      · rw [Found.get_fst (Quiet.found (.blockedJob _ e.1 none) hvalid),
          Found.get_fst (Quiet.found (.blockedJob _ e.1 none) hvalid')]
        split <;> exact ⟨rfl, rfl⟩

theorem foldl_fresh {α : Type*} {step : Scan → α → Scan}
    (hvalid : ∀ acc a, acc.found.Valid hub acc.state ctx.place.nodes →
      (step acc a).found.Valid hub (step acc a).state ctx.place.nodes)
    (hfresh : ∀ acc a, acc.found.Valid hub acc.state ctx.place.nodes →
      (step acc a).state = (step ⟨acc.state, [], acc.eligible⟩ a).state ∧
      (step acc a).eligible = (step ⟨acc.state, [], acc.eligible⟩ a).eligible) (l : List α)
    {acc' : Scan} (h : acc.found.Valid hub acc.state ctx.place.nodes)
    (h' : acc'.found.Valid hub acc'.state ctx.place.nodes) (hstate : acc.state = acc'.state)
    (heligible : acc.eligible = acc'.eligible) : (l.foldl step acc).state = (l.foldl step acc').state ∧
      (l.foldl step acc).eligible = (l.foldl step acc').eligible := by
  induction l generalizing acc acc' with
  | nil => exact ⟨hstate, heligible⟩
  | cons a l ih =>
    have ha := hfresh acc a h
    have ha' := hfresh acc' a h'
    rw [hstate, heligible] at ha
    exact ih (hvalid acc a h) (hvalid acc' a h') (ha.1.trans ha'.1.symm) (ha.2.trans ha'.2.symm)

theorem Found.foldl {α : Type*} {step : Scan → α → Scan}
    (hvalid : ∀ acc a, acc.found.Valid hub acc.state ctx.place.nodes →
      (step acc a).found.Valid hub (step acc a).state ctx.place.nodes) (l : List α)
    (h : acc.found.Valid hub acc.state ctx.place.nodes) :
    Found.Valid (l.foldl step acc).found hub (l.foldl step acc).state ctx.place.nodes := by
  induction l generalizing acc with
  | nil => exact h
  | cons a l ih => exact ih (hvalid acc a h)

/-- A scan comes to the same without what was found before. -/
theorem scan_fresh (skipped : List String) {s : State} {found : Found} (h : found.Valid hub s ctx.place.nodes) :
    (scan hub ctx now loads skipped s found).state = (scan hub ctx now loads skipped s []).state ∧
      (scan hub ctx now loads skipped s found).eligible = (scan hub ctx now loads skipped s []).eligible := by
  unfold scan
  dsimp only
  generalize s.tickets.entries.filter (fun e => e.2.phase = .waiting) = waiters
  generalize s.jobs.entries.filter _ = jobs
  have hstart : (⟨s, found, []⟩ : Scan).found.Valid hub (⟨s, found, []⟩ : Scan).state ctx.place.nodes := h
  have hnil : (⟨s, [], []⟩ : Scan).found.Valid hub (⟨s, [], []⟩ : Scan).state ctx.place.nodes :=
    Found.valid_nil hub s ctx.place.nodes
  have htickets : (waiters.foldl (scanTicket hub ctx now loads) ⟨s, found, []⟩).state =
        (waiters.foldl (scanTicket hub ctx now loads) ⟨s, [], []⟩).state ∧
      (waiters.foldl (scanTicket hub ctx now loads) ⟨s, found, []⟩).eligible =
        (waiters.foldl (scanTicket hub ctx now loads) ⟨s, [], []⟩).eligible :=
    foldl_fresh (fun acc e hacc => Found.scanTicket hacc e)
      (fun acc e hacc => scanTicket_fresh hacc e) waiters hstart hnil rfl rfl
  exact foldl_fresh (fun acc e hacc => Found.scanJob hacc e) (fun acc e hacc => scanJob_fresh hacc e) jobs
    (Found.foldl (fun acc e hacc => Found.scanTicket hacc e) waiters hstart)
    (Found.foldl (fun acc e hacc => Found.scanTicket hacc e) waiters hnil) htickets.1 htickets.2

end Fresh

/-!
## The accounting of a pass is exact

After every turn of a pass its loads are those read off the state, and the nodes it keeps looked up
are those a look would find. So every scan of the pass finds what a scan of a pass started on that
state would find.

No queued job may name an admission whose ticket still waits: the hub takes a job on an admission
only once its ticket is claimed, or granted to a request that was not queued.
-/

/-- No job names an admission whose ticket still waits. -/
def AdmissionsTaken (s : State) : Prop :=
  ∀ id j a t, s.jobs.lookup id = some j → j.row.admission = some a →
    s.tickets.lookup a = some t → t.phase ≠ .waiting

variable {s s' : State}

theorem Notes.admissionsTaken (h : Notes s s') (hs : AdmissionsTaken s) : AdmissionsTaken s' := by
  intro id j' a t' hj' ha ht'
  have hj := h.jobs id
  rw [hj', map_some, eq_comm, map_eq_some_iff] at hj
  obtain ⟨j, hj, hcore⟩ := hj
  have ht := h.tickets a
  rw [ht', map_some, eq_comm, map_eq_some_iff] at ht
  obtain ⟨t, ht, htcore⟩ := ht
  rw [← phase_eq_of_core_eq htcore]
  exact hs id j a t hj (by rw [Notes.row_eq_of_core_eq hcore]; exact ha) ht

/-- What holds of a pass under way: its loads and what it keeps looked up are those of its state,
and the IDs it will draw are new. -/
structure PassInv (hub : HubEnv) (ctx : ScheduleCtx) (pass : Pass) : Prop where
  loads : pass.loads = Loads.new pass.state ctx.relays
  found : pass.found.Valid hub pass.state ctx.place.nodes
  taken : AdmissionsTaken pass.state
  nodup : pass.ids.Nodup
  fresh : ∀ r ∈ pass.ids, pass.state.reservations.lookup r = none

variable {pass : Pass}

variable {hub : HubEnv} {ctx : ScheduleCtx}

theorem PassInv.notes (h : PassInv hub ctx pass) {found : Found}
    (hs : Notes pass.state s) (hfound : found.Valid hub s ctx.place.nodes) :
    PassInv hub ctx { pass with state := s, found := found } where
  loads := h.loads.trans (hs.loads_eq ctx.relays).symm
  found := hfound
  taken := hs.admissionsTaken h.taken
  nodup := h.nodup
  fresh r hr := by
    cases hlookup : s.reservations.lookup r with
    | none => rfl
    | some x =>
      have hbefore := hs.reservations r x hlookup
      rw [h.fresh r hr] at hbefore
      simp at hbefore

variable {id : String}

theorem JobFrame.admissionsTaken (h : JobFrame s s' id) (hs : AdmissionsTaken s) : AdmissionsTaken s' := by
  intro k j' a t' hj' ha ht'
  obtain ⟨t, ht, hcore⟩ := ticket_of_map_core_eq (h.tickets a).symm ht'
  have hbefore : ∃ j, s.jobs.lookup k = some j ∧ j.row.admission = some a := by
    by_cases hk : k = id
    · subst hk
      obtain ⟨j, hj, hidentity⟩ := h.own j' hj'
      have hadmission : j'.row.admission = j.row.admission := congrArg (fun i => i.2.1) hidentity
      exact ⟨j, hj, hadmission ▸ ha⟩
    · have hjob := h.jobs k hk
      rw [hj', map_some, eq_comm, map_eq_some_iff] at hjob
      obtain ⟨j, hj, hcore⟩ := hjob
      exact ⟨j, hj, by rw [Notes.row_eq_of_core_eq hcore]; exact ha⟩
  obtain ⟨j, hj, hja⟩ := hbefore
  rw [← phase_eq_of_core_eq hcore]
  exact hs k j a t hj hja ht

/-- Placing a job keeps the loads exact. -/
theorem PassInv.placeJob (h : PassInv hub ctx pass) (now : ℕ) (eligible : List Candidate) (chosen : Candidate) :
    PassInv hub ctx (placeJob hub ctx now pass pass.state eligible chosen) := by
  unfold Virtkit.Hub.placeJob
  dsimp only
  generalize hplace : place hub pass.state ctx.place chosen.id now _ = placed
  obtain ⟨s', written⟩ := placed
  have hframe := place_jobFrame hplace
  refine ⟨?_, Found.valid_nil hub _ ctx.place.nodes, ?_, h.nodup, fun r hr => ?_⟩
  · dsimp only
    rw [h.loads]
    exact (Loads.new_of_job chosen.id hframe.tickets hframe.abandonedProbes hframe.jobs).symm
  · exact hframe.admissionsTaken h.taken
  · dsimp only
    cases hlookup : s'.reservations.lookup r with
    | none => rfl
    | some x =>
      have hbefore := hframe.reservations r x hlookup
      rw [h.fresh r hr] at hbefore
      simp at hbefore

variable {t : Ticket}

theorem AdmissionsTaken.unnamed (hs : AdmissionsTaken s) (ht : s.tickets.lookup id = some t)
    (hwaits : t.phase = .waiting) : ∀ k j, s.jobs.lookup k = some j → j.row.admission ≠ some id :=
  fun k j hj ha => hs k j id t hj ha ht hwaits

theorem TicketFrame.admissionsTaken {t' : Ticket} (h : TicketFrame s s' id t')
    (hs : AdmissionsTaken s) (ht : s.tickets.lookup id = some t) (hwaits : t.phase = .waiting) :
    AdmissionsTaken s' := by
  intro k j a u' hj ha hu'
  rw [h.jobs] at hj
  have hne : a ≠ id := by
    rintro rfl
    exact hs.unnamed ht hwaits k j hj ha
  obtain ⟨u, hu, hcore⟩ := ticket_of_map_core_eq (h.tickets a hne).symm hu'
  rw [← phase_eq_of_core_eq hcore]
  exact hs k j a u hj ha hu

/-- The loads after an offer, without counting anew. -/
theorem TicketFrame.loads {t' : Ticket} (h : TicketFrame s s' id t') (hs : AdmissionsTaken s)
    (ht : s.tickets.lookup id = some t) (hwaits : t.phase = .waiting) (relays : Relays) : Loads.new s' relays =
      if holds t'.phase then (Loads.new s relays).chargeTicket t' else Loads.new s relays := by
  have hholds : holds t.phase = false := by rw [hwaits]; rfl
  refine Loads.new_of_ticket ht hholds h.own h.tickets h.abandonedProbes (fun k => ?_) (hs.unnamed ht hwaits)
  rw [h.jobs]

/-- Offering a ticket keeps the loads exact. -/
theorem PassInv.offerTicket (h : PassInv hub ctx pass) (now : ℕ) (eligible : List Candidate) (chosen : Candidate)
    (ht : pass.state.tickets.lookup chosen.id = some t) (hwaits : t.phase = .waiting) {r : String}
    {ids : List String} (hids : pass.ids = r :: ids) :
    PassInv hub ctx (offerTicket ctx now pass pass.state eligible chosen t r ids) := by
  have hr : pass.state.reservations.lookup r = none := h.fresh r (by rw [hids]; simp)
  have hnodup : r ∉ ids ∧ ids.Nodup := by
    have hall := h.nodup
    rw [hids] at hall
    exact nodup_cons.mp hall
  have hfresh : ∀ k ∈ ids, pass.state.reservations.lookup k = none :=
    fun k hk => h.fresh k (by rw [hids]; exact mem_cons_of_mem _ hk)
  have hids' : (Virtkit.Hub.offerTicket ctx now pass pass.state eligible chosen t r ids).ids = ids := by
    unfold Virtkit.Hub.offerTicket
    dsimp only
    split <;> rfl
  rcases offerTicket_cases ctx now pass eligible chosen ids ht hr with hfailed | hsent
  · have hframe := hfailed.frame
    refine ⟨?_, ?_, hframe.admissionsTaken h.taken ht hwaits, by rw [hids']; exact hnodup.2, ?_⟩
    · rw [hfailed.loads, h.loads, hframe.loads h.taken ht hwaits]
      rfl
    · have hroom : SameRoom pass.state
          (Virtkit.Hub.offerTicket ctx now pass pass.state eligible chosen t r ids).state := by
        refine ⟨⟨fun k => by rw [hframe.jobs], hframe.held, fun k x hx => ?_, hframe.disowned⟩, hfailed.reservations⟩
        rw [hfailed.reservations] at hx
        exact hx
      rw [hfailed.found]
      exact hroom.found h.found
    · rw [hids', hfailed.reservations]
      exact hfresh
  · refine ⟨?_, ?_, hsent.frame.admissionsTaken h.taken ht hwaits, by rw [hids']; exact hnodup.2, ?_⟩
    · rw [hsent.loads, h.loads, hsent.frame.loads h.taken ht hwaits]
      rfl
    · rw [hsent.found]
      exact Found.valid_nil hub _ ctx.place.nodes
    · rw [hids', hsent.reservations]
      intro k hk
      have hne : k ≠ r := fun heq => hnodup.1 (heq ▸ hk)
      rw [Table.lookup_insert_ite, if_neg hne]
      exact hfresh k hk

theorem waiting_of_eligible {now : ℕ} {loads : Loads}
    {st : State} {c : Candidate} (hc : Eligible hub ctx now loads s st c) (hjob : c.job = false)
    (hs : Notes s s') (ht : s'.tickets.lookup c.id = some t) : t.phase = .waiting := by
  obtain ⟨u, hu⟩ := hc.ticket hjob
  obtain ⟨t', ht', hcore⟩ := hs.ticket hu.ticket
  rw [ht, some_inj] at ht'
  rw [ht', phase_eq_of_core_eq hcore]
  exact hu.waiting

theorem eligible_of_choose {now : ℕ} {loads : Loads} {sc : Scan}
    (hsc : ScanInv hub ctx now loads s sc) {owed : Bool} {c : Candidate}
    (hc : choose owed sc.eligible = some c) : Eligible hub ctx now loads s sc.state c :=
  hsc.eligible c (choose_spec hc).1

/-- A turn keeps the loads exact. -/
theorem PassInv.turn (h : PassInv hub ctx pass) (now : ℕ) : PassInv hub ctx (turn hub ctx now pass).1 := by
  have hscan : ScanInv hub ctx now pass.loads pass.state (pass.scan hub ctx now) := .scan pass.skipped h.found
  have hnotes : ∀ s, Quiet (pass.scan hub ctx now).state s → PassInv hub ctx (pass.scanned hub ctx now s) :=
    fun s hs => h.notes (hscan.notes.trans hs.toNotes) (hs.found hscan.found)
  have houtcome := turn_outcome hub ctx now pass
  generalize Virtkit.Hub.turn hub ctx now pass = next at houtcome ⊢
  cases houtcome with
  | stops hs hstop => exact hnotes _ hs
  | job hs hchosen hjob => exact (hnotes _ hs).placeJob now _ _
  | ticket hs hlinks hchosen hjob ht hids =>
    have hwaits := waiting_of_eligible (eligible_of_choose hscan hchosen) hjob (hscan.notes.trans hs.toNotes) ht
    exact (hnotes _ hs).offerTicket now _ _ ht hwaits hids

theorem PassInv.turns (h : PassInv hub ctx pass) (now n : ℕ) : PassInv hub ctx (turns hub ctx now n pass) :=
  turns_invariant (fun _ hpass => hpass.turn now) n h

theorem PassInv.start (hub : HubEnv) (ctx : ScheduleCtx) {ids : List String}
    (htaken : AdmissionsTaken s) (hnodup : ids.Nodup) (hfresh : ∀ r ∈ ids, s.reservations.lookup r = none) :
    PassInv hub ctx (Pass.start ctx s ids) :=
  ⟨rfl, Found.valid_nil hub s ctx.place.nodes, htaken, hnodup, hfresh⟩

theorem turn_congr {now : ℕ} {pass' : Pass} (hstate : (pass.scan hub ctx now).state = (pass'.scan hub ctx now).state)
    (heligible : (pass.scan hub ctx now).eligible = (pass'.scan hub ctx now).eligible)
    (hids : pass.ids = pass'.ids) (hpicks : pass'.picks = []) :
    (turn hub ctx now pass).1.state = (turn hub ctx now pass').1.state ∧
      (turn hub ctx now pass).1.picks = pass.picks ++ (turn hub ctx now pass').1.picks ∧
      (turn hub ctx now pass).2 = (turn hub ctx now pass').2 := by
  unfold Pass.scan at hstate heligible
  unfold turn
  dsimp only
  rw [hstate, heligible, hids]
  split
  · exact ⟨rfl, by rw [hpicks, append_nil], rfl⟩
  · split
    · exact ⟨rfl, by simp [placeJob, hpicks], rfl⟩
    · split
      · unfold offerTicket
        dsimp only
        split <;> exact ⟨rfl, by rw [hpicks, nil_append], rfl⟩
      · exact ⟨rfl, by rw [hpicks, append_nil], rfl⟩

/-- A pass started anew on the state of another, passing over the jobs that one gave up on. -/
def Pass.restarted (ctx : ScheduleCtx) (pass : Pass) : Pass :=
  { Pass.start ctx pass.state pass.ids with skipped := pass.skipped }

/-- After any number of turns the loads of a pass are those of its state, and its next turn is the
first turn of a pass started anew on that state: it scans alike, and picks and does the same. -/
theorem turns_accounting (hub : HubEnv) (ctx : ScheduleCtx) (now n : ℕ) (s : State)
    (ids : List String) (htaken : AdmissionsTaken s) (hnodup : ids.Nodup)
    (hfresh : ∀ r ∈ ids, s.reservations.lookup r = none) :
    let pass := turns hub ctx now n (Pass.start ctx s ids)
    let anew := pass.restarted ctx
    pass.loads = Loads.new pass.state ctx.relays ∧
      (scan hub ctx now pass.loads pass.skipped pass.state pass.found).eligible =
        (scan hub ctx now anew.loads anew.skipped anew.state anew.found).eligible ∧
      (turn hub ctx now pass).1.state = (turn hub ctx now anew).1.state ∧
      (turn hub ctx now pass).1.picks = pass.picks ++ (turn hub ctx now anew).1.picks ∧
      (turn hub ctx now pass).2 = (turn hub ctx now anew).2 := by
  have hinv := (PassInv.start hub ctx htaken hnodup hfresh).turns now n
  dsimp only
  generalize turns hub ctx now n (Pass.start ctx s ids) = pass at hinv ⊢
  have hscan : (pass.scan hub ctx now).state = ((pass.restarted ctx).scan hub ctx now).state ∧
      (pass.scan hub ctx now).eligible = ((pass.restarted ctx).scan hub ctx now).eligible := by
    have hloads : (pass.restarted ctx).loads = pass.loads := hinv.loads.symm
    unfold Pass.scan
    rw [hloads]
    exact scan_fresh pass.skipped hinv.found
  exact ⟨hinv.loads, hscan.2, turn_congr hscan.1 hscan.2 rfl rfl⟩

def sampleShape : Placement := ⟨"p", [], ⟨1024, 1, 0⟩⟩

/-- A node with memory for eight such jobs, under an operator's ceiling. -/
def sampleNode (ceiling : ℕ) : NodeRow where
  pools := ["p"]
  inventory := some ⟨[], ⟨8, some 8192⟩, false, false⟩
  heartbeat := some ⟨some ⟨0, some 8192, none, none⟩, none, [], none, none⟩
  heartbeatAt := some 0
  report := none
  ceiling := some ceiling

/-- A hub connected to every node. -/
def sampleHub : HubEnv := ⟨fun _ => true, fun _ => some 1, false, false, ⟨0, 0⟩, 0⟩

/-- A waiting ticket of a principal. -/
def sampleTicket (key : String) (identity : ResolvedIdentity) : Ticket where
  key := key
  queued := true
  identity := identity
  placement := sampleShape
  leaseSecs := 60
  created := 0
  polled := 0
  phase := .waiting
  probe := false
  reservation := none
  session := none
  claimedAt := none
  bound := false
  tried := []
  roundEnded := none
  blocked := none

def sampleClient : ResolvedIdentity := ⟨.key "a", .normal, none, none, none, 4, none, 1⟩

def sampleRunner : ResolvedIdentity :=
  ⟨.runner "gl" 1, .production, some "gl", some 1, some "prod", 4, none, 1⟩

/-- A queued job of an API key, submitted without an admission. -/
def sampleJob : LiveJob where
  row := ⟨"a", none, some ⟨.key "a", .normal, none, none⟩, sampleShape, none, 0, .queued, none,
    none, 0, 0, none, none⟩
  spec := some ⟨"main", true, false, "", []⟩
  reservation := none
  deadline := 1000
  tried := []
  roundEnded := none
  blocked := none
  outputCap := 100
  committedAt := none
  imageKey := none

/-- A dispatch state with one node's session. -/
def sampleState (tickets : Table String Ticket) (jobs : Table String LiveJob) : State where
  links := (∅ : Table String Link).insert "n" ⟨1, [], false, true⟩
  reservations := ∅
  tickets := tickets
  demand := ∅
  laneProbe := ∅
  abandonedProbes := ∅
  turns := ⟨0, false⟩
  jobs := jobs
  finished := ∅
  disowned := ∅
  warm := ∅

/-- A policy of one lane for an API key and one of production work for a relay's runner. -/
def samplePolicy (headroom : List Headroom) : Policy where
  version := 2
  lanes := [Lane.new (.key "a"), { Lane.new (.runner "gl" 1) with
    cls := .production, projects := some [⟨"gl", 7, some ["main"]⟩] }]
  headroom := headroom
  probeLimit := 2
  productionProbeBurst := 1
  backoffInitialSecs := 1
  backoffMaxSecs := 60
  busySecs := 60

/-- A relay of one runner, heard from in its session. -/
def sampleRelays : Relays :=
  (∅ : Relays).insert "relay" (⟨some ⟨4, [⟨"prod", some 1, sampleShape, none, 1, true⟩]⟩,
    some [⟨"prod", 0, 0, [], []⟩], some 1⟩, some ⟨true, some "gl"⟩)

/-- A pass over one node. -/
def sampleCtx (headroom : List Headroom) (ceiling : ℕ) : ScheduleCtx where
  place := ⟨(∅ : Nodes).insert "n" (sampleNode ceiling), fun _ => .ok (), samplePolicy headroom⟩
  held := false
  relays := sampleRelays

/-- A waiting ticket and a queued job. -/
def sampleWork : State :=
  sampleState ((∅ : Table String Ticket).insert "t" (sampleTicket "a" sampleClient))
    ((∅ : Table String LiveJob).insert "j" sampleJob)

theorem AdmissionsTaken.of_unadmitted (h : ∀ e ∈ s.jobs.entries, e.2.row.admission = none) : AdmissionsTaken s := by
  intro id j a t hj ha ht
  have hnone := h ⟨id, j⟩ (AList.mem_lookup_iff.mp hj)
  rw [hnone] at ha
  simp at ha

/-- A pass that offers the ticket and starts the job, with its loads exact after both. -/
theorem turns_accounting_two_picks :
    let pass := turns sampleHub (sampleCtx [] 2) 5 2 (Pass.start (sampleCtx [] 2) sampleWork ["r"])
    pass.picks.map (fun p => (p.chosen.id, p.granted)) = [("t", some false), ("j", some false)] ∧
      pass.loads = Loads.new pass.state (sampleCtx [] 2).relays :=
  ⟨by decide +kernel, (turns_accounting sampleHub (sampleCtx [] 2) 5 2 sampleWork ["r"]
    (.of_unadmitted (by decide)) (by decide) (by decide)).1⟩

end Virtkit.Hub
