import Virtkit.Hub.Charges

/-!
# Arbitration respects every ceiling

A pass leaves each count at or below its ceiling, or where it was if it was above: the charged
entries of a lane, what a relay and a runner hold, the probes out in all and those for one runner.
Each turn that adds a charge passed the gates with the loads of the state it charged.

The hub gives a relay's work the identity of one of its runners, which the refresh before every pass
holds to the relay's current inventory.
-/

namespace Virtkit.Hub

open Virtkit.Common Option

/-- In the second state each count is within its ceiling or no higher than in the first. -/
structure Ceilings (policy : Policy) (relays : Relays) (s s' : State) : Prop where
  lane : ∀ id lane slots, policy.lane id = some lane → lane.maxSlots = some slots →
    (Loads.new s' relays).lane id ≤ max slots ((Loads.new s relays).lane id)
  relay : ∀ key inventory, relays.inventory key = some inventory → (Loads.new s' relays).relayLoad relays key ≤
      max inventory.concurrent ((Loads.new s relays).relayLoad relays key)
  runner : ∀ key inventory runner limit, relays.inventory key = some inventory →
    inventory.runners.filter (fun r => r.name == runner.name) = [runner] →
    runner.limit = some limit →
    (Loads.new s' relays).runnerLoad relays key runner.name ≤
      max limit ((Loads.new s relays).runnerLoad relays key runner.name)
  probes : (Loads.new s' relays).probes ≤ max policy.probeLimit (Loads.new s relays).probes
  probing : ∀ r, probesOut s' r ≤ max 1 (probesOut s r)

variable {hub : HubEnv} {ctx : ScheduleCtx} {policy : Policy} {relays : Relays} {now : ℕ} {s s' s'' : State}

theorem Ceilings.trans (h : Ceilings policy relays s s') (h' : Ceilings policy relays s' s'') :
    Ceilings policy relays s s'' where
  lane id lane slots hlane hslots := by
    have h₁ := h.lane id lane slots hlane hslots
    have h₂ := h'.lane id lane slots hlane hslots
    omega
  relay key inventory hkey := by
    have h₁ := h.relay key inventory hkey
    have h₂ := h'.relay key inventory hkey
    omega
  runner key inventory runner limit hkey hrunner hlimit := by
    have h₁ := h.runner key inventory runner limit hkey hrunner hlimit
    have h₂ := h'.runner key inventory runner limit hkey hrunner hlimit
    omega
  probes := by
    have h₁ := h.probes
    have h₂ := h'.probes
    omega
  probing r := by
    have h₁ := h.probing r
    have h₂ := h'.probing r
    omega

/-- What is charged only below a ceiling stays within it. -/
theorem Grown.ceilings {charge : Meter → ℕ} {probing : String × ℕ → ℕ}
    (h : Grown relays s s' charge probing) (hone : ∀ m, charge m ≤ 1) (hone' : ∀ r, probing r ≤ 1)
    (hlane : ∀ id lane slots, policy.lane id = some lane → lane.maxSlots = some slots →
      charge (.lane id) ≠ 0 → (Loads.new s relays).lane id < slots)
    (hrelay : ∀ key inventory, relays.inventory key = some inventory → charge (.relay key) ≠ 0 →
      (Loads.new s relays).relayLoad relays key < inventory.concurrent)
    (hrunner : ∀ key inventory runner limit, relays.inventory key = some inventory →
      inventory.runners.filter (fun r => r.name == runner.name) = [runner] →
      runner.limit = some limit → charge (.runner key runner.name) ≠ 0 →
      (Loads.new s relays).runnerLoad relays key runner.name < limit)
    (hprobes : charge .probes ≠ 0 → (Loads.new s relays).probes < policy.probeLimit)
    (hprobing : ∀ r, probing r ≠ 0 → probesOut s r = 0) : Ceilings policy relays s s' where
  lane id lane slots hid hslots := by
    have hgrown := h.lane id
    have hgate := hlane id lane slots hid hslots
    have hle := hone (.lane id)
    omega
  relay key inventory hkey := by
    have hgrown := h.relay key
    have hgate := hrelay key inventory hkey
    have hle := hone (.relay key)
    omega
  runner key inventory runner limit hkey hname hlimit := by
    have hgrown := h.runner key runner.name
    have hgate := hrunner key inventory runner limit hkey hname hlimit
    have hle := hone (.runner key runner.name)
    omega
  probes := by
    have hgrown := h.probes
    have hle := hone .probes
    omega
  probing r := by
    have hgrown := h.probing r
    have hgate := hprobing r
    have hle := hone' r
    omega

theorem Grown.ceilings_of_zero (h : Grown relays s s' (fun _ => 0) fun _ => 0) : Ceilings policy relays s s' := by
  apply h.ceilings (fun _ => Nat.zero_le 1) fun _ => Nat.zero_le 1
  · intro id lane slots hid hslots hne
    exact absurd rfl hne
  · intro key inventory hkey hne
    exact absurd rfl hne
  · intro key inventory runner limit hkey hname hlimit hne
    exact absurd rfl hne
  · intro hne
    exact absurd rfl hne
  · intro r hne
    exact absurd rfl hne

/-- A relay's waiting ticket carries the limits of its relay and its runner. -/
structure Ticket.Current (relays : Relays) (t : Ticket) : Prop where
  concurrent : ∀ inventory, relays.inventory t.key = some inventory →
    t.identity.concurrent = inventory.concurrent
  limit : ∀ inventory name runner, relays.inventory t.key = some inventory → t.identity.runner = some name →
    inventory.runners.filter (fun r => r.name == name) = [runner] →
    t.identity.limit = runner.limit

def JobRow.NamesRunner (relays : Relays) (row : JobRow) : Prop :=
  ∀ inventory identity, relays.inventory row.key = some inventory →
    row.scheduling = some identity → identity.runnerId ≠ none

/-- A ticket that is let through is below its lane's, relay's and runner's ceilings. -/
theorem ticketGate_eq_ok {loads : Loads} {t : Ticket} {gate : Gate} (h : ticketGate hub ctx now loads s t = .ok gate) :
    (∀ lane slots, ctx.place.policy.lane t.identity.lane = some lane → lane.maxSlots = some slots →
      loads.lane t.identity.lane < slots) ∧ loads.relayLoad ctx.relays t.key < t.identity.concurrent ∧
    (∀ name limit, t.identity.runner = some name → t.identity.limit = some limit →
      loads.runnerLoad ctx.relays t.key name < limit) ∧
    (gate.probe = true → loads.probes < ctx.place.policy.probeLimit) ∧
    (gate.probe = true → ∀ r, demandKey t.identity = some r → loads.probing r = false) := by
  unfold ticketGate at h
  dsimp only at h
  split at h
  · simp at h
  · split at h
    · simp at h
    · rename_i lane hlane
      split at h
      · simp at h
      · rename_i hslots
        split at h
        · simp at h
        · rename_i hrelay
          split at h
          · simp at h
          · rename_i hlimit
            split at h
            · simp at h
            · split at h
              · simp at h
              · rename_i hprobes
                split at h
                · simp at h
                · rename_i hprobing
                  rw [Except.ok.injEq] at h
                  subst h
                  refine ⟨?_, by omega, ?_, ?_, ?_⟩
                  · intro lane' slots hlane' hmax
                    rw [hlane, some_inj] at hlane'
                    subst hlane'
                    simpa [hmax] using hslots
                  · intro name limit hname hmax
                    simpa [hname, hmax] using hlimit
                  · intro hprobe
                    dsimp only at hprobe
                    simpa [hprobe] using hprobes
                  · intro hprobe r hr
                    dsimp only at hprobe
                    rw [hprobe, Bool.true_and, hr, any_some, Bool.not_eq_true] at hprobing
                    exact hprobing

theorem of_ite_ne_zero {p : Prop} [Decidable p] (h : (if p then 1 else 0) ≠ 0) : p := by
  by_contra hp
  exact h (if_neg hp)

theorem ite_le_one (p : Prop) [Decidable p] : (if p then 1 else 0) ≤ 1 := by
  split <;> omega

theorem ticketCharge_le_one (t : Ticket) (m : Meter) : ticketCharge t m ≤ 1 := by
  cases m <;> first | exact ite_le_one _ | exact Nat.zero_le 1

/-- A ticket's offer stays within the ceilings. -/
theorem TicketFrame.ceilings {id r : String} {t : Ticket} {gate : Gate} {st : State}
    (h : TicketFrame s s' id (t.offer r now gate.probe)) (hs : AdmissionsTaken s)
    (ht : s.tickets.lookup id = some t) (hwaits : t.phase = .waiting) (hcurrent : t.Current ctx.relays)
    (hgate : ticketGate hub ctx now (Loads.new s ctx.relays) st t = .ok gate) :
    Ceilings ctx.place.policy ctx.relays s s' := by
  obtain ⟨hlane, hrelay, hrunner, hprobes, hprobing⟩ := ticketGate_eq_ok hgate
  apply (h.grown hs ht hwaits ctx.relays).ceilings
    (fun m => ticketCharge_le_one (t.offer r now gate.probe) m) fun r' => ite_le_one _
  · intro id' lane slots hid hslots hne
    have heq : id' = t.identity.lane := of_ite_ne_zero hne
    subst heq
    exact hlane lane slots hid hslots
  · intro key inventory hkey hne
    have heq : key = t.key := of_ite_ne_zero hne
    subst heq
    rw [← hcurrent.concurrent inventory hkey]
    exact hrelay
  · intro key inventory runner limit hkey hname hlimit hne
    have heq : key = t.key ∧ some runner.name = t.identity.runner := of_ite_ne_zero hne
    obtain ⟨rfl, hrun⟩ := heq
    refine hrunner runner.name limit hrun.symm ?_
    rw [hcurrent.limit inventory runner.name runner hkey hrun.symm hname, hlimit]
  · intro hne
    have hprobe : (gate.probe && (TicketPhase.offering r now ≠ .job : Bool)) = true := of_ite_ne_zero hne
    exact hprobes (Bool.and_eq_true_iff.mp hprobe).1
  · intro r' hne
    have hout : (true && (t.offer r now gate.probe).probesFor r') = true := of_ite_ne_zero hne
    have hprobe : gate.probe = true := by
      by_contra hno
      simp [Ticket.probesFor, Ticket.offer, hno] at hout
    have hkey : demandKey t.identity = some r' := by
      simpa [Ticket.probesFor, Ticket.offer, probeOf, hprobe] using hout
    exact probesOut_eq_zero (hprobing hprobe r' hkey)

theorem jobGate_eq_none {loads : Loads} {row : JobRow} (hadmission : row.admission = none)
    (h : jobGate ctx loads row = none) :
    (∀ lane slots, ctx.place.policy.lane (jobLane row) = some lane → lane.maxSlots = some slots →
      loads.lane (jobLane row) < slots) ∧ ∀ inventory, ctx.relays.inventory row.key = some inventory →
      loads.relayLoad ctx.relays row.key < inventory.concurrent ∧
      ∀ identity runnerId runner limit, row.scheduling = some identity → identity.runnerId = some runnerId →
        inventory.runners.find? (fun r => r.runnerId == some runnerId) = some runner →
        runner.limit = some limit → loads.runnerLoad ctx.relays row.key runner.name < limit := by
  unfold jobGate at h
  rw [hadmission, isSome_none, if_neg Bool.false_ne_true] at h
  split at h
  · simp at h
  · rename_i hslots
    refine ⟨?_, ?_⟩
    · intro lane slots hlane hmax
      simpa [hlane, hmax] using hslots
    · intro inventory hinventory
      have hrow : (ctx.relays.row row.key).map RelayRow.inventory = some (some inventory) := by
        unfold Relays.inventory at hinventory
        cases hrelay : ctx.relays.row row.key with
        | none => simp [hrelay] at hinventory
        | some relay =>
          rw [hrelay, bind_some] at hinventory
          rw [map_some, hinventory]
      rw [hrow] at h
      dsimp only at h
      split at h
      · simp at h
      · rename_i hrelay
        refine ⟨by omega, ?_⟩
        intro identity runnerId runner limit hscheduling hid hfind hlimit
        rw [hscheduling, bind_some, hid] at h
        dsimp only at h
        rw [hfind] at h
        dsimp only at h
        split at h
        · simp at h
        · rename_i hbelow
          simpa [hlimit] using hbelow

theorem runner_of_jobRunner {row : JobRow} {inventory : RelayInventory} {runner : Runner}
    (hinventory : relays.inventory row.key = some inventory)
    (hname : inventory.runners.filter (fun r => r.name == runner.name) = [runner])
    (h : jobRunner relays row = some runner.name) : ∃ identity, row.scheduling = some identity ∧
      inventory.runners.find? (fun r => r.runnerId == identity.runnerId) = some runner := by
  unfold jobRunner at h
  obtain ⟨identity, hscheduling, hrunner⟩ := bind_eq_some_iff.mp h
  rw [Relays.runnerName, hinventory, bind_some, map_eq_some_iff] at hrunner
  obtain ⟨found, hfound, hfoundName⟩ := hrunner
  have hmem : found ∈ inventory.runners.filter (fun r => r.name == runner.name) := by
    rw [List.mem_filter, hfoundName]
    exact ⟨List.mem_of_find?_eq_some hfound, by simp⟩
  rw [hname, List.mem_singleton] at hmem
  exact ⟨identity, hscheduling, hmem ▸ hfound⟩

theorem jobCharge_le_one (relays : Relays) (row : JobRow) (m : Meter) : jobCharge relays row m ≤ 1 := by
  cases m <;> first | exact ite_le_one _ | exact Nat.zero_le 1

/-- A job's placement stays within the ceilings. -/
theorem JobFrame.ceilings {id : String} {j : LiveJob} (h : JobFrame s s' id)
    (hj : s.jobs.lookup id = some j) (hqueued : j.row.state = .queued) (hnames : j.row.NamesRunner ctx.relays)
    (hgate : jobGate ctx (Loads.new s ctx.relays) j.row = none) : Ceilings ctx.place.policy ctx.relays s s' := by
  have hgrown := h.grown ctx.relays hj hqueued
  by_cases hadmission : j.row.admission = none
  · have hcharge : placedCharge ctx.relays j.row = jobCharge ctx.relays j.row := by
      funext m
      rw [placedCharge, if_pos hadmission]
    rw [hcharge] at hgrown
    obtain ⟨hlane, hinventory⟩ := jobGate_eq_none hadmission hgate
    apply hgrown.ceilings (jobCharge_le_one ctx.relays j.row) fun _ => Nat.zero_le 1
    · intro id' lane slots hid hslots hne
      have heq : id' = jobLane j.row := of_ite_ne_zero hne
      subst heq
      exact hlane lane slots hid hslots
    · intro key inventory hkey hne
      have heq : key = j.row.key := of_ite_ne_zero hne
      subst heq
      exact (hinventory inventory hkey).1
    · intro key inventory runner limit hkey hname hlimit hne
      have heq : key = j.row.key ∧ some runner.name = jobRunner ctx.relays j.row := of_ite_ne_zero hne
      obtain ⟨rfl, hrun⟩ := heq
      obtain ⟨identity, hscheduling, hfind⟩ := runner_of_jobRunner hkey hname hrun.symm
      obtain ⟨runnerId, hid⟩ := ne_none_iff_exists'.mp (hnames inventory identity hkey hscheduling)
      rw [hid] at hfind
      exact (hinventory inventory hkey).2 identity runnerId runner limit hscheduling hid hfind hlimit
    · intro hne
      exact absurd rfl hne
    · intro r hne
      exact absurd rfl hne
  · have hcharge : placedCharge ctx.relays j.row = fun _ => 0 := by
      funext m
      rw [placedCharge, if_neg hadmission]
    rw [hcharge] at hgrown
    exact hgrown.ceilings_of_zero

end Virtkit.Hub
