import Virtkit.Hub.LoadsExact

/-!
# How a turn moves the loads

Every turn of a pass adds at most one charge to the loads: that of the job it started without an
admission, or of the ticket it offered a reservation. A job on an admission is charged as much once
it is placed as before.
-/

namespace Virtkit.Hub

open Virtkit.Common Option Table Loads

/-- What a ticket adds to the probes out for a runner. -/
def probeFigure (r : String × ℕ) (_ : String) (t : Ticket) : ℕ :=
  if holds t.phase && t.probesFor r then 1 else 0

/-- The probes out for a runner, abandoned ones included. -/
def probesOut (s : State) (r : String × ℕ) : ℕ :=
  s.tickets.sum (probeFigure r) + (s.abandonedProbes.entries.filter fun e => e.2.1 == r).length

/-- From one state to the other the loads grew by no more than a charge. -/
structure Grown (relays : Relays) (s s' : State) (charge : Meter → ℕ) (probing : String × ℕ → ℕ) : Prop where
  lane : ∀ id, (Loads.new s' relays).lane id ≤ (Loads.new s relays).lane id + charge (.lane id)
  relay : ∀ key, (Loads.new s' relays).relayLoad relays key ≤
    (Loads.new s relays).relayLoad relays key + charge (.relay key)
  runner : ∀ key name, (Loads.new s' relays).runnerLoad relays key name ≤
    (Loads.new s relays).runnerLoad relays key name + charge (.runner key name)
  probes : (Loads.new s' relays).probes ≤ (Loads.new s relays).probes + charge .probes
  probing : ∀ r, probesOut s' r ≤ probesOut s r + probing r

variable {s s' : State}

theorem Grown.of_reading {relays : Relays} {charge : Meter → ℕ} {probing : String × ℕ → ℕ}
    (h : ∀ m, (Loads.new s' relays).reading m ≤ (Loads.new s relays).reading m + charge m)
    (hrelay : ∀ key, (Loads.new s relays).unadmittedRelay key ≤ (Loads.new s' relays).unadmittedRelay key)
    (hrunner : ∀ key name, (Loads.new s relays).unadmittedRunner (key, name) ≤
      (Loads.new s' relays).unadmittedRunner (key, name)) (hprobing : ∀ r, probesOut s' r ≤ probesOut s r + probing r) :
    Grown relays s s' charge probing where
  lane id := h (.lane id)
  relay key := by
    have hkey : (Loads.new s' relays).relay key ≤ (Loads.new s relays).relay key + charge (.relay key) := h (.relay key)
    have hun := hrelay key
    unfold relayLoad
    omega
  runner key name := by
    have hkey : (Loads.new s' relays).runner (key, name) ≤
        (Loads.new s relays).runner (key, name) + charge (.runner key name) := h (.runner key name)
    have hun := hrunner key name
    unfold runnerLoad
    omega
  probes := h .probes
  probing := hprobing

theorem SameTickets.probesOut_eq (h : SameTickets s s')
    (hab : s'.abandonedProbes = s.abandonedProbes) (r : String × ℕ) : probesOut s' r = probesOut s r := by
  have hsum : s'.tickets.sum (probeFigure r) = s.tickets.sum (probeFigure r) := by
    apply sum_congr
    intro id
    apply valueAt_eq_of_map_eq (h id)
    intro t' t hcore _
    rw [probeFigure, probeFigure, phase_eq_of_core_eq hcore, probesFor_eq_of_core_eq hcore]
  rw [probesOut, probesOut, hsum, hab]

/-- Notes charge nothing. -/
theorem Notes.grown (h : Notes s s') (relays : Relays) : Grown relays s s' (fun _ => 0) fun _ => 0 := by
  have hloads := h.loads_eq relays
  apply Grown.of_reading
  · intro m
    rw [hloads, Nat.add_zero]
  · intro key
    rw [hloads]
  · intro key name
    rw [hloads]
  · intro r
    rw [SameTickets.probesOut_eq h.tickets h.abandonedProbes, Nat.add_zero]

/-- What placing a queued job may add to a meter: its charge, unless it has an admission. -/
def placedCharge (relays : Relays) (row : JobRow) (m : Meter) : ℕ :=
  if row.admission = none then jobCharge relays row m else 0

theorem charged_of_identity_eq {row row' : JobRow} (h : row'.identity = row.identity)
    (hadmitted : row.admission ≠ none) : charged s row' = charged s row := by
  have hadmission : row'.admission = row.admission := congrArg (fun i => i.2.1) h
  obtain ⟨a, ha⟩ := ne_none_iff_exists'.mp hadmitted
  simp [charged, hadmission, ha]

theorem jobCharge_of_identity_eq (relays : Relays) {row row' : JobRow} (h : row'.identity = row.identity) (m : Meter) :
    jobCharge relays row' m = jobCharge relays row m := by
  have hkey : row'.key = row.key := congrArg (fun i => i.1) h
  have hadmission : row'.admission = row.admission := congrArg (fun i => i.2.1) h
  have hscheduling : row'.scheduling = row.scheduling := congrArg (fun i => i.2.2.1) h
  have hlane : jobLane row' = jobLane row := by rw [jobLane, jobLane, hscheduling]
  have hrunner : jobRunner relays row' = jobRunner relays row := by rw [jobRunner, jobRunner, hkey, hscheduling]
  cases m <;> simp only [jobCharge, hlane, hrunner, hkey, hadmission]

theorem charged_of_queued {row : JobRow} (hqueued : row.state = .queued)
    (hadmission : row.admission = none) : charged s row = false := by
  simp [charged, hqueued, hadmission]

section Job

variable (relays : Relays) {s s' : State} {id : String} {j : LiveJob}

/-- A placed job's figures grow by its charge at most. -/
theorem JobFrame.figures (h : JobFrame s s' id) (hj : s.jobs.lookup id = some j) (m : Meter) :
    s'.jobs.valueAt (jobFigure s relays m) id ≤
      s.jobs.valueAt (jobFigure s relays m) id + placedCharge relays j.row m := by
  have hbefore : s.jobs.valueAt (jobFigure s relays m) id = jobFigure s relays m id j := by
    rw [valueAt, hj, elim_some]
  cases hj' : s'.jobs.lookup id with
  | none =>
    rw [valueAt, hj', elim_none]
    exact Nat.zero_le _
  | some j' =>
    obtain ⟨j₀, hj₀, hidentity⟩ := h.own j' hj'
    rw [hj, some_inj] at hj₀
    subst hj₀
    rw [hbefore, valueAt, hj', elim_some, jobFigure, jobFigure, placedCharge, jobCharge_of_identity_eq relays hidentity]
    by_cases hadmission : j.row.admission = none
    · rw [if_pos hadmission]
      split <;> omega
    · rw [if_neg hadmission, charged_of_identity_eq hidentity hadmission]
      exact Nat.le_refl _

theorem JobFrame.unadmitted (hj : s.jobs.lookup id = some j) (hqueued : j.row.state = .queued)
    {m : Meter} (hm : ∀ row : JobRow, row.admission ≠ none → jobCharge relays row m = 0) :
    s.jobs.valueAt (jobFigure s relays m) id = 0 := by
  rw [valueAt, hj, elim_some, jobFigure]
  by_cases hadmission : j.row.admission = none
  · rw [charged_of_queued hqueued hadmission, if_neg Bool.false_ne_true]
  · rw [hm j.row hadmission, ite_self]

theorem JobFrame.reading (h : JobFrame s s' id) (m : Meter) :
    (Loads.new s' relays).reading m + s.jobs.valueAt (jobFigure s relays m) id =
      (Loads.new s relays).reading m + s'.jobs.valueAt (jobFigure s relays m) id := by
  have hfig : jobFigure s' relays m = jobFigure s relays m := by
    funext k j
    exact jobFigure_eq h.tickets relays m k rfl
  have hsum : s'.jobs.sum (jobFigure s relays m) + s.jobs.valueAt (jobFigure s relays m) id =
      s.jobs.sum (jobFigure s relays m) + s'.jobs.valueAt (jobFigure s relays m) id :=
    sum_add_valueAt id fun k hk => valueAt_eq_of_map_eq (h.jobs k hk) fun _ _ hcore _ =>
      jobFigure_eq (fun _ => rfl) relays m k (Notes.row_eq_of_core_eq hcore)
  have hbase : (Loads.abandoned s').reading m = (Loads.abandoned s).reading m := by
    simp only [Loads.abandoned, h.abandonedProbes]
  rw [reading_new, reading_new, hfig, hbase, SameTickets.sum_eq h.tickets]
  omega

/-- A step on a job charges its meters only. -/
theorem JobFrame.grown (h : JobFrame s s' id) (hj : s.jobs.lookup id = some j) (hqueued : j.row.state = .queued) :
    Grown relays s s' (placedCharge relays j.row) fun _ => 0 := by
  have hunadmitted : ∀ m, (∀ row : JobRow, row.admission ≠ none → jobCharge relays row m = 0) →
      (Loads.new s relays).reading m ≤ (Loads.new s' relays).reading m := by
    intro m hm
    have hreading := h.reading relays m
    have hzero := JobFrame.unadmitted relays hj hqueued hm
    omega
  apply Grown.of_reading
  · intro m
    have hreading := h.reading relays m
    have hfigures := h.figures relays hj m
    omega
  · intro key
    exact hunadmitted (.unadmittedRelay key) fun row hrow => by simp [jobCharge, hrow]
  · intro key name
    exact hunadmitted (.unadmittedRunner key name) fun row hrow => by simp [jobCharge, hrow]
  · intro r
    rw [SameTickets.probesOut_eq h.tickets h.abandonedProbes, Nat.add_zero]

end Job

theorem TicketFrame.probesOut_eq {id : String} {t t' : Ticket}
    (h : TicketFrame s s' id t') (ht : s.tickets.lookup id = some t) (hwaits : t.phase = .waiting)
    (r : String × ℕ) : probesOut s' r = probesOut s r + probeFigure r id t' := by
  have hsum : s'.tickets.sum (probeFigure r) + s.tickets.valueAt (probeFigure r) id =
      s.tickets.sum (probeFigure r) + s'.tickets.valueAt (probeFigure r) id := by
    apply sum_add_valueAt id
    intro k hk
    apply valueAt_eq_of_map_eq (h.tickets k hk)
    intro u' u hcore _
    rw [probeFigure, probeFigure, phase_eq_of_core_eq hcore, probesFor_eq_of_core_eq hcore]
  have hthen : s.tickets.valueAt (probeFigure r) id = 0 := by simp [valueAt, ht, probeFigure, hwaits, holds]
  have hnow : s'.tickets.valueAt (probeFigure r) id = probeFigure r id t' := by rw [valueAt, h.own, elim_some]
  rw [probesOut, probesOut, h.abandonedProbes]
  omega

/-- A step on a waiting ticket charges what it then holds. -/
theorem TicketFrame.grown {id : String} {t t' : Ticket}
    (h : TicketFrame s s' id t') (hs : AdmissionsTaken s) (ht : s.tickets.lookup id = some t)
    (hwaits : t.phase = .waiting) (relays : Relays) :
    Grown relays s s' (fun m => ticketFigure m id t') fun r => probeFigure r id t' := by
  have hloads := h.loads hs ht hwaits relays
  have hreading : ∀ m, (Loads.new s' relays).reading m = (Loads.new s relays).reading m + ticketFigure m id t' := by
    intro m
    rw [hloads, ticketFigure]
    split
    · exact reading_chargeTicket _ t' m
    · rw [Nat.add_zero]
  apply Grown.of_reading
  · intro m
    exact (hreading m).le
  · intro key
    exact Nat.le.intro (hreading (.unadmittedRelay key)).symm
  · intro key name
    exact Nat.le.intro (hreading (.unadmittedRunner key name)).symm
  · intro r
    exact (h.probesOut_eq ht hwaits r).le

theorem probesOut_eq_zero {relays : Relays} {r : String × ℕ}
    (h : (Loads.new s relays).probing r = false) : probesOut s r = 0 := by
  have hnone : ¬ ((Loads.abandoned s).probing r = true ∨
      ∃ id t, s.tickets.lookup id = some t ∧ holds t.phase = true ∧ t.probesFor r = true) := by
    rw [← probing_new s relays r, h]
    exact Bool.false_ne_true
  rw [not_or] at hnone
  have hsum : s.tickets.sum (probeFigure r) = 0 := by
    have hzero : s.tickets.sum (probeFigure r) = s.tickets.sum fun _ _ => 0 := by
      apply sum_congr
      intro k
      cases hk : s.tickets.lookup k with
      | none => simp [valueAt, hk]
      | some t =>
        have ht : (holds t.phase && t.probesFor r) = false := by
          by_contra htrue
          rw [Bool.not_eq_false, Bool.and_eq_true] at htrue
          exact hnone.2 ⟨k, t, hk, htrue⟩
        simp [valueAt, hk, probeFigure, ht]
    rw [hzero]
    simp [Table.sum]
  have habandoned : (s.abandonedProbes.entries.filter fun e => e.2.1 == r) = [] := by
    have hany := hnone.1
    rw [Loads.abandoned, Bool.not_eq_true, List.any_eq_false] at hany
    exact List.filter_eq_nil_iff.mpr hany
  rw [probesOut, hsum, habandoned, List.length_nil]

end Virtkit.Hub
