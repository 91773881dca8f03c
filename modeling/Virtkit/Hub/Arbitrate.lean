import Virtkit.Hub.Loads
import Virtkit.Hub.Place
import Virtkit.Hub.Turns

/-!
# Scanning for eligible work

Before each placement arbitration goes over the waiting tickets and the queued jobs and collects
those that may be placed now, each with the node it would go to. On the way it notes on each why it
waits, starts new rounds of nodes for work that all nodes refused, and gives back reservations on
nodes that a job's lane no longer allows.
-/

namespace Virtkit.Hub

open Virtkit.Common

/-- Whether a job is one of a relay that its lane no longer allows. -/
def delisted (policy : Policy) (row : JobRow) (sources : Option Sources) : Bool :=
  match row.scheduling with
  | none => false
  | some identity =>
    match identity.gitlab, row.projectId with
    | some gitlab, some project =>
      (policy.lane identity.lane).all fun lane => (lane.refusesJob gitlab project sources).isSome
    | _, _ => false

/-- Why work waits: nodes have room, but none its lane may use. -/
def laneNodes : String := "its lane's allowed nodes"

/-- What a scheduling pass reads besides the dispatch state. -/
structure ScheduleCtx where
  place : PlaceCtx
  held : Bool
  relays : Relays

/-- Each placement's nodes with room, until the next placement changes them. -/
abbrev Found := List (Placement × List (String × ℕ))

/-- A placement's nodes with room, looked up once. -/
def Found.get (found : Found) (hub : HubEnv) (s : State) (nodes : Nodes) (p : Placement) :
    List (String × ℕ) × Found :=
  match found.find? fun f => f.1 = p with
  | some f => (f.2, found)
  | none => (candidates hub s nodes p [], found ++ [(p, candidates hub s nodes p [])])

/-- Note why a ticket waits. -/
def blocked (s : State) (id reason : String) : State :=
  s.setTicket id fun t => { t with blocked := some reason }

/-- Note why a job waits. -/
def blockedJob (s : State) (id : String) (reason : Option String) : State :=
  s.setJob id fun j => { j with blocked := reason }

/-- Whether a relay's ticket is of one heard from in its current session, whose heartbeat lists
what it holds. -/
def reconciled (hub : HubEnv) (relays : Relays) (ticket : Ticket) : Bool :=
  ticket.identity.runner.isNone ||
    ((relays.listed ticket.key).isSome && (relays.row ticket.key).any fun relay =>
      relay.heartbeatSession.isSome && relay.heartbeatSession == hub.currentSession ticket.key)

/-- What the gates find of a ticket that passes them. -/
structure Gate where
  lane : Lane
  load : ℕ
  probe : Bool
  lastProbe : Option ℕ

variable (hub : HubEnv) (ctx : ScheduleCtx) (now : ℕ)

/-- The limits a waiting ticket is held to: those of its lane, relay and runner, its runner's
backoff and the probes out. -/
def ticketGate (loads : Loads) (s : State)
    (ticket : Ticket) : Except String Gate :=
  let identity := ticket.identity
  if !reconciled hub ctx.relays ticket then .error "awaiting relay reconciliation"
  else
    match ctx.place.policy.lane identity.lane with
    | none => .error "lane unavailable"
    | some lane =>
      if lane.maxSlots.any (· ≤ loads.lane identity.lane) then .error "lane at max slots"
      else if identity.concurrent ≤ loads.relayLoad ctx.relays ticket.key then
        .error "relay concurrent limit"
      else if identity.runner.any fun runner => identity.limit.any
          (· ≤ loads.runnerLoad ctx.relays ticket.key runner) then .error "runner limit"
      else
        let demand := (demandKey identity).bind s.demand.lookup
        if (demand.bind Demand.backoffUntil).any (now < ·) then .error "backoff"
        else
          let probe :=
            (demandKey identity).isSome && !(demand.bind Demand.busyUntil).any (now < ·)
          if probe && ctx.place.policy.probeLimit ≤ loads.probes then .error "shared probe budget"
          else if probe && (demandKey identity).any loads.probing then
            .error "runner already probing"
          else .ok ⟨lane, loads.lane identity.lane, probe, demand.bind Demand.lastProbe⟩

/-- What becomes of the round in which nodes are asked about a piece of work: it goes on, it ended
at some time, or a new one begins. -/
inductive Round where
  | same
  | ended (time : ℕ)
  | again

/-- Ask for a node outside those tried. Where only those would take the work, they are asked again
after a pause. -/
def askAround (node : List String → Except String String) (tried again : List String)
    (roundEnded : Option ℕ) (now : ℕ) : Round × Except String String :=
  match node tried with
  | .ok n => (.same, .ok n)
  | .error why =>
    if why = noFittingNode && !tried.isEmpty then
      let ended := roundEnded.getD now
      if retryPause ≤ now - ended then (.again, node again) else (.ended ended, .error why)
    else (.same, .error why)

def Ticket.inRound (round : Round) (t : Ticket) : Ticket :=
  match round with
  | .same => t
  | .ended time => { t with roundEnded := some time }
  | .again => { t with tried := [], roundEnded := none }

def LiveJob.inRound (round : Round) (j : LiveJob) : LiveJob :=
  match round with
  | .same => j
  | .ended time => { j with roundEnded := some time }
  | .again => { j with tried := [], roundEnded := none }

variable (s : State)

def ticketNode (id : String)
    (ticket : Ticket) (fits : List (String × ℕ)) (excluded : List String) :
    State × Except String String :=
  let node := fun skip => admissionNode hub s ctx.place.nodes ctx.place.policy ticket.placement
    ticket.identity.cls fits skip excluded
  let (round, node) := askAround node ticket.tried [] ticket.roundEnded now
  (s.setTicket id (Ticket.inRound round), node)

/-- Whether nodes have room, but all are ruled out. -/
def ruledOut (fits : List (String × ℕ)) (excluded : List String) : Bool :=
  !fits.isEmpty && fits.all fun n => excluded.contains n.1

/-- What a scan has come to: the state with its notes, the nodes looked up and the work that may
be placed. -/
structure Scan where
  state : State
  found : Found
  eligible : List Candidate

/-- Go over one waiting ticket. -/
def scanTicket (loads : Loads) (acc : Scan)
    (e : Sigma fun _ : String => Ticket) : Scan :=
  match ticketGate hub ctx now loads acc.state e.2 with
  | .error why => { acc with state := blocked acc.state e.1 why }
  | .ok gate =>
    let (fits, found) := acc.found.get hub acc.state ctx.place.nodes e.2.placement
    let excluded := laneExclusions ctx.place.policy e.2.identity.lane ctx.place.nodes
    let (s, node) := ticketNode hub ctx now acc.state e.1 e.2 fits excluded
    match node with
    | .error why =>
      let why := if ruledOut fits excluded then laneNodes else why
      ⟨blocked s e.1 why, found, acc.eligible⟩
    | .ok node =>
      let candidate : Candidate :=
        { id := e.1, lane := e.2.identity.lane, node := node, cls := e.2.identity.cls
          probe := gate.probe, load := gate.load, weight := gate.lane.weight
          laneProbe := if gate.probe then s.laneProbe.lookup e.2.identity.lane else none
          runnerProbe := gate.lastProbe, arrived := e.2.created
          job := false, reserved := false, due := false }
      ⟨blocked s e.1 "waiting for lane share", found, acc.eligible ++ [candidate]⟩

/-- Give back a job's reservation on a node its lane rules out or the hub no longer has. -/
def dropStale (ctx : ScheduleCtx) (s : State) (found : Found) (id : String) (job : LiveJob)
    (excluded : List String) : State × Found × Option String :=
  match job.reservation with
  | none => (s, found, none)
  | some r =>
    if (s.reservations.lookup r).any fun x =>
        excluded.contains x.node || (ctx.place.nodes.lookup x.node).isNone then
      ((dropReservation s r).setJob id fun j => { j with reservation := none }, [], none)
    else (s, found, some r)

/-- The limits a queued job without an admission is held to. -/
def jobGate (ctx : ScheduleCtx) (loads : Loads) (row : JobRow) : Option String :=
  if row.admission.isSome then none
  else if ((ctx.place.policy.lane (jobLane row)).bind Lane.maxSlots).any
      (· ≤ loads.lane (jobLane row)) then some "lane at max slots"
  else
    match (ctx.relays.row row.key).map RelayRow.inventory with
    | none => none
    | some none => some "its relay's inventory is unknown"
    | some (some inventory) =>
      if inventory.concurrent ≤ loads.relayLoad ctx.relays row.key then
        some "relay concurrent limit"
      else
        match row.scheduling.bind SchedulingIdentity.runnerId with
        | none => none
        | some runnerId =>
          match inventory.runners.find? fun r => r.runnerId == some runnerId with
          | none => some "its runner is not in its relay's inventory"
          | some runner =>
            if runner.limit.any (· ≤ loads.runnerLoad ctx.relays row.key runner.name) then
              some "runner limit"
            else none

/-- A queued job's node without a reservation. -/
def jobNode (id : String) (job : LiveJob)
    (fits : List (String × ℕ)) (excluded : List String) : State × Except String String :=
  let node := fun skip => admissionNode hub s ctx.place.nodes ctx.place.policy job.row.placement
    (jobClass job.row) fits skip excluded
  let (round, node) := askAround node (job.tried ++ excluded) excluded job.roundEnded now
  (s.setJob id (LiveJob.inRound round), node)

/-- Why a job waits for a node: with all nodes full, the reason it had before while its lane's
nodes still rule some out. -/
def jobReason (previous : Option String) (fits : List (String × ℕ)) (excluded : List String)
    (why : String) : Option String :=
  let ruled :=
    if fits.isEmpty then previous.filter fun p => p == laneNodes && !excluded.isEmpty
    else if ruledOut fits excluded then some laneNodes else none
  ruled.or (if why = productionHeadroom then some why else none)

/-- A queued job that may be placed. -/
def jobCandidate (loads : Loads) (id : String)
    (job : LiveJob) (node : String) (reserved : Bool) : Candidate :=
  let age := (hub.nowSecs - job.row.createdAt) * 1000
  { id := id, lane := jobLane job.row, node := node, cls := jobClass job.row
    probe := false, load := loads.lane (jobLane job.row)
    weight := (ctx.place.policy.lane (jobLane job.row)).elim 1 Lane.weight
    laneProbe := none, runnerProbe := none
    arrived := min (if age ≤ now then now - age else now) job.deadline
    job := true, reserved := reserved, due := job.deadline ≤ now }

/-- Go over one queued job. -/
def scanJob (loads : Loads) (acc : Scan)
    (e : Sigma fun _ : String => LiveJob) : Scan :=
  let row := e.2.row
  let excluded := jobExclusions ctx.place.policy row ctx.place.nodes
  let (s, found, reservation) := dropStale ctx acc.state acc.found e.1 e.2 excluded
  if delisted ctx.place.policy row e.2.spec then
    ⟨blockedJob s e.1 (some "no longer allowed by its lane"), found, acc.eligible⟩
  else
    match jobGate ctx loads row with
    | some gate => ⟨blockedJob s e.1 (some gate), found, acc.eligible⟩
    | none =>
      let s := blockedJob s e.1 none
      if reservation.any fun r =>
          (usableReservation hub s ctx.place.nodes excluded r).isSome then
        ⟨s, found, acc.eligible ++ [jobCandidate hub ctx now loads e.1 e.2 "" true]⟩
      else
        let (fits, found) := Found.get found hub s ctx.place.nodes row.placement
        let (s, node) := jobNode hub ctx now s e.1 e.2 fits excluded
        match node with
        | .error why => ⟨blockedJob s e.1 (jobReason e.2.blocked fits excluded why), found, acc.eligible⟩
        | .ok node => ⟨s, found, acc.eligible ++ [jobCandidate hub ctx now loads e.1 e.2 node false]⟩

/-- Go over the waiting tickets, then over the queued jobs not given up on in this pass. -/
def scan (loads : Loads) (skipped : List String)
    (s : State) (found : Found) : Scan :=
  let waiters := s.tickets.entries.filter fun e => e.2.phase = .waiting
  let jobs := s.jobs.entries.filter fun e =>
    e.2.row.state = .queued && e.2.row.cancel.isNone && !skipped.contains e.1
  jobs.foldl (scanJob hub ctx now loads) (waiters.foldl (scanTicket hub ctx now loads) ⟨s, found, []⟩)

/-!
## Arbitration

One arbitration pass: place one piece of work at a time, a queued job or the offer of a waiting
ticket, each chosen from what is eligible then, up to a bound. The pass keeps its loads up to date
by hand, and forgets the nodes it looked up when a placement changes them.

The IDs of reservations are drawn at random in the source; here a pass is given those it draws, and
ends when there are none left, as it does when drawing fails. The list of picks is a record of what
the pass did.
-/

/-- A pass under way. -/
structure Pass where
  state : State
  loads : Loads
  found : Found
  skipped : List String
  ids : List String
  moved : Bool
  picks : List Pick

/-- Note on the production probes passed over that normal work has its turn. -/
def passOver (eligible : List Candidate) : State :=
  (eligible.filter fun e => !e.job && e.isProductionProbe).foldl
    (fun s e => blocked s e.id "normal turn owed") s

/-- Charge a job, or take its charge back, where it is charged. -/
def Loads.recharge (l : Loads) (relays : Relays) (s : State) (row : Option JobRow) (add : Bool) : Loads :=
  match row with
  | some row => if charged s row then l.chargeJob relays row add else l
  | none => l

/-- Whether a job started, and on its own reservation if so. -/
def startedOn (id : String) : Option Bool :=
  ((s.jobs.lookup id).filter fun j => j.row.state = .starting).map fun j => j.reservation.isSome

/-- Place the job chosen. Started, it takes its turn unless it started on its own reservation; its
charge as placed, or ended, goes in place of its charge as queued. -/
def placeJob (pass : Pass) (s : State)
    (eligible : List Candidate) (chosen : Candidate) : Pass :=
  let id := chosen.id
  let before := (s.jobs.lookup id).map LiveJob.row
  let selected := if chosen.node = "" then none else some chosen.node
  let (s, written) := place hub s ctx.place id now selected
  let granted := startedOn s id
  let burst := ctx.place.policy.productionProbeBurst
  let turns := granted.elim s.turns fun reserved => s.turns.granted chosen.cls false reserved burst
  let s := { s with turns := turns }
  let after := (s.jobs.lookup id).map LiveJob.row
  { pass with
    state := s
    loads := (pass.loads.recharge ctx.relays s before false).recharge ctx.relays s after true
    found := []
    skipped := if written.isNone then id :: pass.skipped else pass.skipped
    picks := pass.picks ++ [⟨eligible, chosen, granted⟩] }

def Ticket.offer (t : Ticket) (reservation : String) (now : ℕ) (probe : Bool) : Ticket :=
  { t with
    blocked := none
    probe := probe
    reservation := some reservation
    phase := .offering reservation now }

/-- A ticket whose offer could not be queued, the node noted as tried. -/
def Ticket.back (t : Ticket) (node : String) : Ticket :=
  { t with
    phase := .waiting
    probe := false
    tried := t.tried.insert node }

/-- The reservation offered for a ticket. -/
def Ticket.resv (t : Ticket) (id node : String) : Resv where
  key := t.key
  node := node
  envelope := t.placement.envelope
  phase := .offered
  acceptedAt := 0
  leases := 0
  ticket := some id

/-- Note when a lane and a runner were last given a probe. -/
def noteProbe (identity : ResolvedIdentity) (now : ℕ) : State :=
  let s := { s with laneProbe := s.laneProbe.insert identity.lane now }
  match demandKey identity with
  | some key =>
    let demand := (s.demand.lookup key).getD ⟨none, none, 0, 0, none⟩
    { s with demand := s.demand.insert key { demand with lastProbe := some now } }
  | none => s

/-- Offer the ticket chosen a reservation on its node. One whose offer cannot be queued goes back
to waiting, the node noted as tried. -/
def offerTicket (ctx : ScheduleCtx) (now : ℕ) (pass : Pass) (s : State)
    (eligible : List Candidate) (chosen : Candidate) (ticket : Ticket) (r : String)
    (ids : List String) : Pass :=
  let offered := ticket.offer r now chosen.probe
  let s := { s with
    tickets := s.tickets.modify chosen.id fun _ => offered
    reservations := s.reservations.insert r (ticket.resv chosen.id chosen.node) }
  match send s chosen.node (.offer r ticket.placement.envelope ticket.leaseSecs) with
  | none =>
    { pass with
      state := { s with
        reservations := s.reservations.erase r
        tickets := s.tickets.modify chosen.id fun _ => offered.back chosen.node }
      ids := ids
      picks := pass.picks ++ [⟨eligible, chosen, none⟩] }
  | some s =>
    let s := if chosen.probe then noteProbe s ticket.identity now else s
    let burst := ctx.place.policy.productionProbeBurst
    { pass with
      state := { s with turns := s.turns.granted chosen.cls chosen.probe false burst }
      loads := pass.loads.chargeTicket offered
      found := []
      ids := ids
      moved := true
      picks := pass.picks ++ [⟨eligible, chosen, some false⟩] }

/-- One turn of a pass, and whether it goes on: scan, choose and place. -/
def turn (pass : Pass) : Pass × Bool :=
  let scan := scan hub ctx now pass.loads pass.skipped pass.state pass.found
  let owed := scan.state.turns.owed scan.eligible
  let pass := { pass with state := scan.state, found := scan.found }
  match choose owed scan.eligible with
  | none => (pass, false)
  | some chosen =>
    let s := if owed && chosen.cls = .normal then passOver scan.state scan.eligible else scan.state
    if chosen.job then (placeJob hub ctx now pass s scan.eligible chosen, true)
    else
      match s.tickets.lookup chosen.id, pass.ids with
      | some ticket, r :: ids => (offerTicket ctx now pass s scan.eligible chosen ticket r ids, true)
      | _, _ => ({ pass with state := s }, false)

def turns (hub : HubEnv) (ctx : ScheduleCtx) (now : ℕ) : ℕ → Pass → Pass
  | 0, pass => pass
  | n + 1, pass =>
    match turn hub ctx now pass with
    | (pass, true) => turns hub ctx now n pass
    | (pass, false) => pass

def Pass.start (ctx : ScheduleCtx) (s : State) (ids : List String) : Pass where
  state := s
  loads := Loads.new s ctx.relays
  found := []
  skipped := []
  ids := ids
  moved := false
  picks := []

/-- Note on all waiting work that the policy is held. -/
def blockAll : State :=
  let why := some "capacity policy awaiting activation"
  { s with
    tickets := s.tickets.mapValues fun _ t => if t.phase = .waiting then { t with blocked := why } else t
    jobs := s.jobs.mapValues fun _ j => if j.row.state = .queued then { j with blocked := why } else j }

def maxPlacementsPerStep : ℕ := 64

/-- Offer capacity to waiting tickets and place queued jobs. While the policy is held, nothing. -/
def arbitrate (ids : List String) (s : State) : Pass :=
  if ctx.held then { Pass.start ctx s ids with state := blockAll s }
  else turns hub ctx now maxPlacementsPerStep (Pass.start ctx s ids)

end Virtkit.Hub
