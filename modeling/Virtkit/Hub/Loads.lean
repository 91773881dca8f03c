import Virtkit.Hub.Room

/-!
# Relays

What a scheduling pass reads of the relays: their inventories, and from the heartbeats that
account for everything a relay holds, the admissions listed and the jobs without one. The source
collects these once a pass into maps; here they are functions of the relays' records.
-/

namespace Virtkit.Hub

open Virtkit.Common

/-- One of a relay's runners. -/
structure Runner where
  name : String
  runnerId : Option ℕ
  placement : Placement
  limit : Option ℕ
  requestConcurrency : ℕ
  verified : Bool
  deriving DecidableEq

structure RelayInventory where
  concurrent : ℕ
  runners : List Runner
  deriving DecidableEq

structure RunnerLoad where
  name : String
  requests : ℕ
  jobs : ℕ
  requestAdmissions : List String
  jobAdmissions : List String
  deriving DecidableEq

/-- The hub's record of a relay; its heartbeat is the load of each of its runners. -/
structure RelayRow where
  inventory : Option RelayInventory
  heartbeat : Option (List RunnerLoad)
  heartbeatSession : Option ℕ
  deriving DecidableEq

/-- What the hub says of a relay's GitLab server. -/
structure ServerStatus where
  approved : Bool
  name : Option String
  deriving DecidableEq

abbrev Relays := Table String (RelayRow × Option ServerStatus)

variable (relays : Relays)

def Relays.row (key : String) : Option RelayRow :=
  (relays.lookup key).map Prod.fst

/-- A relay's inventory, once it has said one. -/
def Relays.inventory (key : String) : Option RelayInventory :=
  (relays.row key).bind RelayRow.inventory

/-- A heartbeat that accounts for every runner of its relay and every request it holds. -/
def RelayRow.accounted (row : RelayRow) : Option (List RunnerLoad) :=
  match row.inventory, row.heartbeat with
  | some inventory, some runners =>
    if runners.length == inventory.runners.length && runners.all (fun r =>
        r.requests == r.requestAdmissions.length && r.jobAdmissions.length ≤ r.jobs) then
      some runners
    else none
  | _, _ => none

/-- The request and job admissions a relay's heartbeat lists, if it accounts for all it holds. -/
def Relays.listed (key : String) : Option (List String × List String) :=
  ((relays.row key).bind RelayRow.accounted).map fun runners =>
    (runners.flatMap RunnerLoad.requestAdmissions, runners.flatMap RunnerLoad.jobAdmissions)

/-- Each runner's jobs without an admission, by its relay's heartbeat. -/
def Relays.unadmittedTable (key : String) : Table String ℕ :=
  (((relays.row key).bind RelayRow.accounted).getD []).foldl (fun t r =>
    let n := r.jobs - min r.jobAdmissions.length u32Max
    if 0 < n then t.insert r.name n else t) ∅

/-- A runner's jobs without an admission, by its relay's heartbeat. -/
def Relays.unadmitted (key runner : String) : ℕ :=
  ((relays.unadmittedTable key).lookup runner).getD 0

/-- A relay's jobs without an admission, by its heartbeat. -/
def Relays.unadmittedByRelay (key : String) : ℕ :=
  (relays.unadmittedTable key).entries.foldl (fun sum e => satAdd u64Max sum e.2) 0

/-- The name a relay's inventory gives the runner of an identity, matched by runner ID alone. -/
def Relays.runnerName (key : String) (identity : SchedulingIdentity) : Option String :=
  (relays.inventory key).bind fun inventory =>
    (inventory.runners.find? fun r => r.runnerId == identity.runnerId).map Runner.name

/-- A ticket's runner as its relay has it now: in the inventory once, verified, of the ticket's
runner ID and placement, on the GitLab the hub approved. -/
def Relays.currentRunner (ticket : Ticket) (gitlab : String) (runnerId : ℕ) :
    Option (RelayInventory × Runner) :=
  (relays.lookup ticket.key).bind fun relay =>
    if relay.2.any fun status => status.approved && status.name == some gitlab then
      relay.1.inventory.bind fun inventory =>
        match inventory.runners.filter fun r => some r.name == ticket.identity.runner with
        | [runner] =>
          if runner.verified && runner.runnerId == some runnerId &&
              runner.placement = ticket.placement then some (inventory, runner)
          else none
        | _ => none
    else none

/-- Refresh a waiting ticket's identity and limits, ending one no longer valid. -/
def refreshTicket (policy : Policy) (relays : Relays) (ticket : Ticket) : Ticket :=
  match ticket.identity.gitlab, ticket.identity.runnerId with
  | some gitlab, some runnerId =>
    match relays.currentRunner ticket gitlab runnerId, policy.runner gitlab runnerId with
    | some (inventory, runner), some lane =>
      { ticket with identity := { ticket.identity with
          lane := .runner gitlab runnerId
          cls := lane.cls
          concurrent := inventory.concurrent
          limit := runner.limit
          requestConcurrency := runner.requestConcurrency } }
    | _, _ => { ticket with phase := .finished .error }
  | _, _ =>
    match policy.client ticket.key with
    | some (lane, _) => { ticket with identity := { ticket.identity with lane := lane } }
    | none => { ticket with phase := .finished .error }

/-- Refresh the waiting tickets from the current policy and inventories. -/
def refresh (s : State) (policy : Policy) (relays : Relays) : State :=
  { s with tickets := s.tickets.mapValues fun _ t =>
      if t.phase = .waiting then refreshTicket policy relays t else t }

/-!
## Loads

What lanes, relays and relay runners hold as arbitration charges it. A pass reads the loads once
from the tickets and jobs and keeps them up to date as it places work. The source's maps of counts,
read with a default of zero, are functions here, and its counters, which saturate far beyond any
number of tickets and jobs, are natural numbers.
-/

def holds : TicketPhase → Bool
  | .offering _ _ | .granted _ _ | .claimed _ | .job => true
  | .waiting | .finished _ => false

/-- A relay runner as GitLab knows it: the instance and the runner ID of an identity. -/
def demandKey (identity : ResolvedIdentity) : Option (String × ℕ) :=
  match identity.gitlab, identity.runnerId with
  | some gitlab, some runnerId => some (gitlab, runnerId)
  | _, _ => none

/-- The runner a probing ticket probes for. -/
def probeOf (ticket : Ticket) : Option (String × ℕ) :=
  if ticket.probe then demandKey ticket.identity else none

/-- Whether a job is charged as a job: placed, or queued on an admission, unless its admission's
ticket still holds the capacity. -/
def charged (s : State) (row : JobRow) : Bool :=
  !(row.state == .queued && row.admission.isNone) &&
    !(row.admission.any fun id => (s.tickets.lookup id).any fun t => holds t.phase)

/-- What lanes, relays and runners hold. -/
structure Loads where
  lane : LaneId → ℕ
  relay : String → ℕ
  runner : String × String → ℕ
  unadmittedRelay : String → ℕ
  unadmittedRunner : String × String → ℕ
  probing : String × ℕ → Bool
  probes : ℕ

/-- Add one to the count of a key, or take one off. -/
def countKey {K : Type*} [DecidableEq K] (map : K → ℕ) (key : K) (add : Bool) : K → ℕ :=
  Function.update map key (if add then map key + 1 else map key - 1)

/-- Charge a ticket, which holds capacity. -/
def Loads.chargeTicket (l : Loads) (ticket : Ticket) : Loads :=
  let probes := ticket.probe && ticket.phase ≠ .job
  { l with
    probes := if probes then l.probes + 1 else l.probes
    probing := fun r => l.probing r || (probes && probeOf ticket == some r)
    lane := countKey l.lane ticket.identity.lane true
    relay := countKey l.relay ticket.key true
    runner :=
      match ticket.identity.runner with
      | some runner => countKey l.runner (ticket.key, runner) true
      | none => l.runner }

/-- The name of the runner a job is charged to. -/
def jobRunner (row : JobRow) : Option String :=
  row.scheduling.bind (relays.runnerName row.key)

variable (l : Loads) (relays : Relays)

/-- Charge a job, or take its charge back. -/
def Loads.chargeJob (row : JobRow) (add : Bool) : Loads :=
  { l with
    lane := countKey l.lane (jobLane row) add
    relay := countKey l.relay row.key add
    unadmittedRelay :=
      if row.admission.isNone then countKey l.unadmittedRelay row.key add else l.unadmittedRelay
    runner :=
      match jobRunner relays row with
      | some runner => countKey l.runner (row.key, runner) add
      | none => l.runner
    unadmittedRunner :=
      match jobRunner relays row with
      | some runner =>
        if row.admission.isNone then countKey l.unadmittedRunner (row.key, runner) add
        else l.unadmittedRunner
      | none => l.unadmittedRunner }

/-- The loads of a state, before any ticket or job is charged: the probes abandoned. -/
def Loads.abandoned (s : State) : Loads where
  lane := fun _ => 0
  relay := fun _ => 0
  runner := fun _ => 0
  unadmittedRelay := fun _ => 0
  unadmittedRunner := fun _ => 0
  probing := fun r => s.abandonedProbes.entries.any fun e => e.2.1 == r
  probes := s.abandonedProbes.entries.length

def Loads.new (s : State) (relays : Relays) : Loads :=
  let tickets := (s.tickets.entries.map Sigma.snd).filter fun t => holds t.phase
  let jobs := (s.jobs.entries.map fun e => e.2.row).filter (charged s)
  jobs.foldl (fun l row => l.chargeJob relays row true) (tickets.foldl Loads.chargeTicket (Loads.abandoned s))

/-- What a relay holds: what is charged to it, and the jobs its heartbeat counts without an
admission that no job charged accounts for. -/
def Loads.relayLoad (key : String) : ℕ :=
  l.relay key + (relays.unadmittedByRelay key - l.unadmittedRelay key)

/-- What a runner of a relay holds, as a relay's load is counted. -/
def Loads.runnerLoad (key runner : String) : ℕ :=
  l.runner (key, runner) + (relays.unadmitted key runner - l.unadmittedRunner (key, runner))

/-- The figures of the loads, under one name. -/
inductive Meter where
  | lane (id : LaneId)
  | relay (key : String)
  | runner (key runner : String)
  | unadmittedRelay (key : String)
  | unadmittedRunner (key runner : String)
  | probes

def Loads.reading (l : Loads) : Meter → ℕ
  | .lane id => l.lane id
  | .relay key => l.relay key
  | .runner key runner => l.runner (key, runner)
  | .unadmittedRelay key => l.unadmittedRelay key
  | .unadmittedRunner key runner => l.unadmittedRunner (key, runner)
  | .probes => l.probes

/-- What a ticket that holds capacity adds to a meter. -/
def ticketCharge (t : Ticket) : Meter → ℕ
  | .lane id => if id = t.identity.lane then 1 else 0
  | .relay key => if key = t.key then 1 else 0
  | .runner key runner => if key = t.key ∧ some runner = t.identity.runner then 1 else 0
  | .unadmittedRelay _ => 0
  | .unadmittedRunner _ _ => 0
  | .probes => if t.probe && t.phase ≠ .job then 1 else 0

def jobCharge (row : JobRow) : Meter → ℕ
  | .lane id => if id = jobLane row then 1 else 0
  | .relay key => if key = row.key then 1 else 0
  | .runner key runner => if key = row.key ∧ some runner = jobRunner relays row then 1 else 0
  | .unadmittedRelay key => if row.admission = none ∧ key = row.key then 1 else 0
  | .unadmittedRunner key runner =>
    if row.admission = none ∧ key = row.key ∧ some runner = jobRunner relays row then 1 else 0
  | .probes => 0

/-- Loads are known from their readings. -/
theorem Loads.ext_reading {l l' : Loads} (h : ∀ m, l.reading m = l'.reading m)
    (hprobing : l.probing = l'.probing) : l = l' := by
  cases l
  cases l'
  simp only [Loads.mk.injEq]
  exact ⟨funext fun i => h (.lane i), funext fun k => h (.relay k),
    funext fun k => h (.runner k.1 k.2), funext fun k => h (.unadmittedRelay k),
    funext fun k => h (.unadmittedRunner k.1 k.2), hprobing, h .probes⟩

theorem countKey_apply {K : Type*} [DecidableEq K] (map : K → ℕ) (key k : K) (add : Bool) : countKey map key add k =
      if add then map k + (if k = key then 1 else 0) else map k - (if k = key then 1 else 0) := by
  by_cases h : k = key
  · subst h
    cases add <;> simp [countKey]
  · cases add <;> simp [countKey, h]

theorem Loads.reading_chargeTicket (l : Loads) (t : Ticket) (m : Meter) :
    (l.chargeTicket t).reading m = l.reading m + ticketCharge t m := by
  cases m with
  | lane id | relay key => simp [reading, chargeTicket, ticketCharge, countKey_apply]
  | runner key runner =>
    cases hr : t.identity.runner with
    | none => simp [reading, chargeTicket, ticketCharge, hr]
    | some r => simp [reading, chargeTicket, ticketCharge, countKey_apply, hr]
  | unadmittedRelay key | unadmittedRunner key runner => rfl
  | probes =>
    simp only [reading, chargeTicket, ticketCharge]
    split <;> rfl

theorem Loads.reading_chargeJob (row : JobRow) (add : Bool) (m : Meter) : (l.chargeJob relays row add).reading m =
      if add then l.reading m + jobCharge relays row m else l.reading m - jobCharge relays row m := by
  cases m with
  | lane id | relay key => simp [reading, chargeJob, jobCharge, countKey_apply]
  | runner key runner =>
    cases hr : jobRunner relays row with
    | none => simp [reading, chargeJob, jobCharge, hr]
    | some r => simp [reading, chargeJob, jobCharge, countKey_apply, hr]
  | unadmittedRelay key =>
    cases ha : row.admission with
    | none => simp [reading, chargeJob, jobCharge, countKey_apply, ha]
    | some a => simp [reading, chargeJob, jobCharge, ha]
  | unadmittedRunner key runner =>
    cases hr : jobRunner relays row with
    | none => simp [reading, chargeJob, jobCharge, hr]
    | some r =>
      cases ha : row.admission with
      | none => simp [reading, chargeJob, jobCharge, countKey_apply, ha, hr]
      | some a => simp [reading, chargeJob, jobCharge, ha, hr]
  | probes => simp [reading, chargeJob, jobCharge]

end Virtkit.Hub
