import Virtkit.Hub.Ceilings

/-!
# The refresh before a pass

Before every pass the hub refreshes the waiting tickets from its policy and the relays' inventories,
ending those no longer valid. Tickets that wait hold no capacity, so the loads stay as they are; and
what still waits for a relay then carries the limits of the relay's inventory.
-/

namespace Virtkit.Hub

open Virtkit.Common Option Table Loads

section

variable {policy : Policy} {relays : Relays} {s s' : State}

/-- The ticket under an ID, where it holds capacity. -/
def State.holding (s : State) (id : String) : Option Ticket :=
  (s.tickets.lookup id).filter fun t => holds t.phase

section

variable (htickets : ∀ id, s'.holding id = s.holding id)
include htickets

theorem sum_of_holding (figure : Ticket → ℕ) : s'.tickets.sum (fun _ t => if holds t.phase then figure t else 0) =
      s.tickets.sum fun _ t => if holds t.phase then figure t else 0 := by
  have hvalue : ∀ (s : State) id, s.tickets.valueAt (fun _ t => if holds t.phase then figure t else 0) id =
        (s.holding id).elim 0 figure := by
    intro s id
    unfold valueAt State.holding
    cases s.tickets.lookup id with
    | none => rfl
    | some t =>
      rw [elim_some, filter_some]
      cases hholds : holds t.phase <;> simp [hholds]
  apply sum_congr
  intro id
  rw [hvalue, hvalue, htickets]

theorem probesOut_of_holding (hab : s'.abandonedProbes = s.abandonedProbes) (r : String × ℕ) :
    probesOut s' r = probesOut s r := by
  have hfigure : probeFigure r = fun _ t => if holds t.phase then (if t.probesFor r then 1 else 0) else 0 := by
    funext id t
    rw [probeFigure]
    cases holds t.phase <;> cases t.probesFor r <;> rfl
  rw [probesOut, probesOut, hab, hfigure, sum_of_holding htickets]

/-- States with the same tickets holding capacity, jobs and abandoned probes have the same
loads. -/
theorem Loads.new_of_holding (hjobs : s'.jobs = s.jobs) (hab : s'.abandonedProbes = s.abandonedProbes)
    (relays : Relays) : Loads.new s' relays = Loads.new s relays := by
  have hsum : ∀ m, s'.tickets.sum (ticketFigure m) = s.tickets.sum (ticketFigure m) :=
    fun m => sum_of_holding htickets fun t => ticketCharge t m
  have hcharged : ∀ row, charged s' row = charged s row := by
    intro row
    have hany : ∀ (s : State) id, ((s.tickets.lookup id).any fun t => holds t.phase) = (s.holding id).isSome := by
      intro s id
      unfold State.holding
      cases s.tickets.lookup id with
      | none => rfl
      | some t =>
        rw [any_some, filter_some]
        cases holds t.phase <;> rfl
    unfold charged
    simp only [hany, htickets]
  apply ext_reading
  · intro m
    have hfigure : jobFigure s' relays m = jobFigure s relays m := by
      funext id j
      rw [jobFigure, jobFigure, hcharged]
    rw [reading_new, reading_new, hsum, hjobs, hfigure]
    simp only [Loads.abandoned, hab]
  · funext r
    have hmem : ∀ (s : State), (∃ id t, s.tickets.lookup id = some t ∧ holds t.phase = true ∧
        t.probesFor r = true) ↔ ∃ id t, s.holding id = some t ∧ t.probesFor r = true := by
      intro s
      simp only [State.holding, filter_eq_some_iff, and_assoc]
    rw [Bool.eq_iff_iff, probing_new, probing_new, hmem, hmem]
    simp only [htickets, Loads.abandoned, hab]

end

theorem lookup_refresh (s : State) (policy : Policy) (relays : Relays) (id : String) :
    (refresh s policy relays).tickets.lookup id = (s.tickets.lookup id).map fun t =>
      if t.phase = .waiting then refreshTicket policy relays t else t :=
  lookup_mapValues _ _ _

theorem phase_refreshTicket (policy : Policy) (relays : Relays) (t : Ticket) :
    (refreshTicket policy relays t).phase = t.phase ∨ (refreshTicket policy relays t).phase = .finished .error := by
  unfold refreshTicket
  split
  all_goals
    split
    · exact .inl rfl
    · exact .inr rfl

/-- A refresh changes no ticket that holds something. -/
theorem holding_refresh (s : State) (policy : Policy) (relays : Relays) (id : String) :
    (refresh s policy relays).holding id = s.holding id := by
  unfold State.holding
  rw [lookup_refresh]
  cases s.tickets.lookup id with
  | none => rfl
  | some t =>
    rw [map_some, filter_some, filter_some]
    by_cases hwaits : t.phase = .waiting
    · have hthen : holds t.phase = false := by rw [hwaits]; rfl
      have hnow : holds (refreshTicket policy relays t).phase = false := by
        rcases phase_refreshTicket policy relays t with hphase | hphase
        · rw [hphase, hthen]
        · rw [hphase]
          rfl
      rw [if_pos hwaits, hthen, hnow]
      rfl
    · rw [if_neg hwaits]

theorem AdmissionsTaken.refresh (h : AdmissionsTaken s) (policy : Policy) (relays : Relays) :
    AdmissionsTaken (refresh s policy relays) := by
  intro id j a t' hj ha ht' hwaits'
  rw [lookup_refresh, map_eq_some_iff] at ht'
  obtain ⟨t, ht, rfl⟩ := ht'
  have hne := h id j a t hj ha ht
  rw [if_neg hne] at hwaits'
  exact hne hwaits'

theorem currentRunner_eq_some {t : Ticket} {gitlab : String} {runnerId : ℕ}
    {inventory : RelayInventory} {runner : Runner}
    (h : relays.currentRunner t gitlab runnerId = some (inventory, runner)) : relays.inventory t.key = some inventory ∧
      inventory.runners.filter (fun r => some r.name == t.identity.runner) = [runner] := by
  obtain ⟨relay, hrelay, h⟩ := bind_eq_some_iff.mp h
  split at h
  · obtain ⟨inventory', hinventory, h⟩ := bind_eq_some_iff.mp h
    split at h
    · rename_i runner' hfilter
      split at h
      · rw [some_inj, Prod.mk.injEq] at h
        obtain ⟨rfl, rfl⟩ := h
        refine ⟨?_, hfilter⟩
        rw [Relays.inventory, Relays.row, hrelay, map_some, bind_some, hinventory]
      · simp at h
    · simp at h
  · simp at h

/-- A ticket that still waits after a refresh has its runner's current settings. -/
theorem current_refreshTicket {t : Ticket} (hrelay : relays.inventory t.key ≠ none →
      t.identity.gitlab ≠ none ∧ t.identity.runnerId ≠ none)
    (hwaits : (refreshTicket policy relays t).phase = .waiting) : (refreshTicket policy relays t).Current relays := by
  unfold refreshTicket at hwaits ⊢
  split at hwaits
  · split at hwaits
    · rename_i inventory runner lane hcurrent _
      obtain ⟨hinventory, hfilter⟩ := currentRunner_eq_some hcurrent
      constructor
      · intro inventory' hinventory'
        rw [hinventory, some_inj] at hinventory'
        rw [← hinventory']
      · intro inventory' name runner' hinventory' hname hfilter'
        rw [hinventory, some_inj] at hinventory'
        subst hinventory'
        rw [hname] at hfilter
        have hsame : [runner] = [runner'] := by
          rw [← hfilter, ← hfilter']
          exact List.filter_congr fun r _ => by simp
        rw [List.cons.injEq] at hsame
        rw [hsame.1]
    · simp at hwaits
  · rename_i hneither
    have hnone : relays.inventory t.key = none := by
      by_contra hsome
      obtain ⟨hgitlab, hrunner⟩ := hrelay hsome
      obtain ⟨gitlab, hgitlab⟩ := ne_none_iff_exists'.mp hgitlab
      obtain ⟨runnerId, hrunner⟩ := ne_none_iff_exists'.mp hrunner
      exact hneither gitlab runnerId hgitlab hrunner
    split at hwaits
    · constructor
      · intro inventory hinventory
        rw [hnone] at hinventory
        simp at hinventory
      · intro inventory name runner hinventory
        rw [hnone] at hinventory
        simp at hinventory
    · simp at hwaits

/-- The identities of waiting work are current. -/
structure Identified (relays : Relays) (s : State) : Prop where
  tickets : ∀ id t, s.tickets.lookup id = some t → t.phase = .waiting → t.Current relays
  jobs : ∀ id j, s.jobs.lookup id = some j → j.row.NamesRunner relays

/-- The identities the hub gives work: a relay's ticket and a relay's job name their runner. -/
structure RelayIdentities (relays : Relays) (s : State) : Prop where
  tickets : ∀ id t, s.tickets.lookup id = some t → t.phase = .waiting →
    relays.inventory t.key ≠ none → t.identity.gitlab ≠ none ∧ t.identity.runnerId ≠ none
  jobs : ∀ id j, s.jobs.lookup id = some j → j.row.NamesRunner relays

theorem RelayIdentities.identified (h : RelayIdentities relays s) (policy : Policy) :
    Identified relays (refresh s policy relays) where
  tickets id t' ht' hwaits := by
    rw [lookup_refresh, map_eq_some_iff] at ht'
    obtain ⟨t, ht, rfl⟩ := ht'
    by_cases hthen : t.phase = .waiting
    · rw [if_pos hthen] at hwaits ⊢
      exact current_refreshTicket (h.tickets id t ht hthen) hwaits
    · rw [if_neg hthen] at hwaits
      exact absurd hwaits hthen
  jobs := h.jobs

end

/-!
## The ceilings over a whole pass

The refresh before a pass changes no load and gives every waiting ticket of a relay the limits of
the relay's current inventory. Each turn then keeps the ceilings and those identities, and so does
the whole pass.
-/

variable {hub : HubEnv} {ctx : ScheduleCtx} {relays : Relays} {now : ℕ} {s s' : State}

theorem Ticket.Current.of_core_eq {t t' : Ticket} (h : t.Current relays)
    (hcore : t'.core = t.core) : t'.Current relays := by
  have hkey : t'.core.key = t.core.key := by rw [hcore]
  have hidentity : t'.core.identity = t.core.identity := by rw [hcore]
  dsimp only [Ticket.core] at hkey hidentity
  constructor
  · rw [hkey, hidentity]
    exact h.concurrent
  · rw [hkey, hidentity]
    exact h.limit

theorem SameTickets.current (h : SameTickets s s') (hs : Identified relays s) :
    ∀ id t, s'.tickets.lookup id = some t → t.phase = .waiting → t.Current relays := by
  intro id t' ht' hwaits
  obtain ⟨t, ht, hcore⟩ := ticket_of_map_core_eq (h id).symm ht'
  exact (hs.tickets id t ht (phase_eq_of_core_eq hcore ▸ hwaits)).of_core_eq hcore.symm

theorem JobFrame.identified {id : String} (h : JobFrame s s' id) (hs : Identified relays s) : Identified relays s' where
  tickets := SameTickets.current h.tickets hs
  jobs k j' hj' := by
    by_cases hk : k = id
    · subst hk
      obtain ⟨j, hj, hidentity⟩ := h.own j' hj'
      have hkey : j'.row.key = j.row.key := congrArg (fun i => i.1) hidentity
      have hscheduling : j'.row.scheduling = j.row.scheduling := congrArg (fun i => i.2.2.1) hidentity
      have hnames := hs.jobs k j hj
      unfold JobRow.NamesRunner at hnames ⊢
      rw [hkey, hscheduling]
      exact hnames
    · have hjob := h.jobs k hk
      rw [hj', map_some, eq_comm, map_eq_some_iff] at hjob
      obtain ⟨j, hj, hcore⟩ := hjob
      rw [← Notes.row_eq_of_core_eq hcore]
      exact hs.jobs k j hj

theorem Notes.identified (h : Notes s s') (hs : Identified relays s) : Identified relays s' where
  tickets := SameTickets.current h.tickets hs
  jobs id j' hj' := by
    obtain ⟨j, hj, hrow⟩ := h.jobBefore hj'
    rw [hrow]
    exact hs.jobs id j hj

theorem TicketFrame.identified {id : String} {t' : Ticket} (h : TicketFrame s s' id t')
    (hs : Identified relays s) (ht' : t'.Current relays) : Identified relays s' where
  tickets k u' hu' hwaits := by
    by_cases hk : k = id
    · rw [hk, h.own, some_inj] at hu'
      exact hu' ▸ ht'
    · obtain ⟨u, hu, hcore⟩ := ticket_of_map_core_eq (h.tickets k hk).symm hu'
      exact (hs.tickets k u hu (phase_eq_of_core_eq hcore ▸ hwaits)).of_core_eq hcore.symm
  jobs := by
    rw [h.jobs]
    exact hs.jobs

theorem placeJob_frame (hub : HubEnv) (ctx : ScheduleCtx) (now : ℕ) (pass : Pass) (s : State)
    (eligible : List Candidate) (chosen : Candidate) :
    ∃ s₁, JobFrame s s₁ chosen.id ∧ (placeJob hub ctx now pass s eligible chosen).state =
        { s₁ with turns := (placeJob hub ctx now pass s eligible chosen).state.turns } := by
  unfold placeJob
  dsimp only
  generalize hplace : place hub s ctx.place chosen.id now _ = placed
  obtain ⟨s₁, written⟩ := placed
  exact ⟨s₁, place_jobFrame hplace, rfl⟩

/-- A turn grants no more than the ceilings leave. -/
theorem turn_ceilings {pass : Pass} (h : PassInv hub ctx pass)
    (hidentified : Identified ctx.relays pass.state) (now : ℕ) : Identified ctx.relays (turn hub ctx now pass).1.state ∧
      Ceilings ctx.place.policy ctx.relays pass.state (turn hub ctx now pass).1.state := by
  have hscan : ScanInv hub ctx now pass.loads pass.state (pass.scan hub ctx now) := .scan pass.skipped h.found
  have houtcome := turn_outcome hub ctx now pass
  generalize pass.scan hub ctx now = sc at hscan houtcome
  generalize turn hub ctx now pass = next at houtcome ⊢
  have hkeeps {s : State} (hnotes : Notes pass.state s) :
      Identified ctx.relays s ∧ Ceilings ctx.place.policy ctx.relays pass.state s :=
    ⟨hnotes.identified hidentified, (hnotes.grown ctx.relays).ceilings_of_zero⟩
  cases houtcome with
  | stops hs hstop => exact hkeeps (hscan.notes.trans hs.toNotes)
  | @job s chosen hs hchosen hjob =>
    have hnotes := hscan.notes.trans hs.toNotes
    obtain ⟨hnow, hbefore⟩ := hkeeps hnotes
    obtain ⟨j, hj⟩ := (eligible_of_choose hscan hchosen).job hjob
    obtain ⟨j', hj', hcore⟩ := hnotes.job hj.job
    have hrow := Notes.row_eq_of_core_eq hcore
    have hgate : jobGate ctx (Loads.new s ctx.relays) j'.row = none := by
      rw [hnotes.loads_eq ctx.relays, ← h.loads, hrow]
      exact hj.gate
    obtain ⟨s₁, hframe, hstate⟩ := placeJob_frame hub ctx now (pass.scanned hub ctx now s) s sc.eligible chosen
    rw [hstate]
    have hceilings : Ceilings ctx.place.policy ctx.relays s s₁ :=
      hframe.ceilings hj' (hrow ▸ hj.queued) (hnow.jobs _ j' hj') hgate
    have hafter := hframe.identified hnow
    exact ⟨⟨hafter.tickets, hafter.jobs⟩, hbefore.trans ⟨hceilings.lane, hceilings.relay,
      hceilings.runner, hceilings.probes, hceilings.probing⟩⟩
  | @ticket s chosen t r ids hs hlinks hchosen hjob ht hids =>
    have hnotes := hscan.notes.trans hs.toNotes
    obtain ⟨hnow, hbefore⟩ := hkeeps hnotes
    obtain ⟨t₀, ht₀⟩ := (eligible_of_choose hscan hchosen).ticket hjob
    obtain ⟨t', ht', hcore⟩ := hnotes.ticket ht₀.ticket
    rw [ht, some_inj] at ht'
    subst ht'
    obtain ⟨gate, hgate, hprobe⟩ := ht₀.gate
    have hwaits : t.phase = .waiting := (phase_eq_of_core_eq hcore).trans ht₀.waiting
    have hcurrent := hnow.tickets _ t ht hwaits
    have hgate' : ticketGate hub ctx now (Loads.new s ctx.relays) pass.state t = .ok gate := by
      have hcongr := congrArg (ticketGate hub ctx now pass.loads pass.state) hcore
      rw [hnotes.loads_eq ctx.relays, ← h.loads, ← hgate]
      exact hcongr
    have hinv := h.notes hnotes (hs.found hscan.found)
    have hfresh : s.reservations.lookup r = none := hinv.fresh r (by rw [hids]; exact List.mem_cons_self)
    rcases offerTicket_cases ctx now (pass.scanned hub ctx now s) sc.eligible chosen ids ht hfresh with hfailed | hsent
    · have hgrown := hfailed.frame.grown hinv.taken ht hwaits ctx.relays
      exact ⟨hfailed.frame.identified hnow ⟨hcurrent.concurrent, hcurrent.limit⟩,
        hbefore.trans (Grown.ceilings_of_zero hgrown)⟩
    · have hframe := hsent.frame
      rw [hprobe] at hframe
      exact ⟨hframe.identified hnow ⟨hcurrent.concurrent, hcurrent.limit⟩,
        hbefore.trans (hframe.ceilings hinv.taken ht hwaits hcurrent hgate')⟩

theorem Quiet.blockAll (s : State) : Quiet s (blockAll s) where
  tickets id := by
    rw [Virtkit.Hub.blockAll, lookup_mapValues, map_map]
    refine map_congr fun t _ => ?_
    dsimp only [Function.comp]
    split <;> rfl
  jobs id := by
    rw [Virtkit.Hub.blockAll, lookup_mapValues, map_map]
    refine map_congr fun j _ => ?_
    dsimp only [Function.comp]
    split <;> rfl
  jobReservation id j' hj' := by
    rw [Virtkit.Hub.blockAll, lookup_mapValues, map_eq_some_iff] at hj'
    obtain ⟨j, hj, rfl⟩ := hj'
    refine ⟨j, hj, .inl ?_⟩
    split <;> rfl
  held _ := rfl
  reservations _ _ h := h
  rest := rfl
  kept := rfl
  reserved id := by
    rw [Virtkit.Hub.blockAll, lookup_mapValues, map_map]
    refine map_congr fun j _ => ?_
    dsimp only [Function.comp]
    split <;> rfl

/-- What holds of a pass under way from a state of current identities. -/
structure CeilingInv (hub : HubEnv) (ctx : ScheduleCtx) (s : State) (pass : Pass) : Prop
    extends PassInv hub ctx pass where
  identified : Identified ctx.relays pass.state
  ceilings : Ceilings ctx.place.policy ctx.relays s pass.state

theorem CeilingInv.turn {pass : Pass} (h : CeilingInv hub ctx s pass) (now : ℕ) :
    CeilingInv hub ctx s (turn hub ctx now pass).1 := by
  obtain ⟨hidentified, hceilings⟩ := turn_ceilings h.toPassInv h.identified now
  exact ⟨h.toPassInv.turn now, hidentified, h.ceilings.trans hceilings⟩

/-- A pass grants no more than the ceilings leave. -/
theorem arbitrate_ceilings (hub : HubEnv) (ctx : ScheduleCtx) (now : ℕ) {ids : List String}
    (hidentified : Identified ctx.relays s) (htaken : AdmissionsTaken s) (hnodup : ids.Nodup)
    (hfresh : ∀ r ∈ ids, s.reservations.lookup r = none) :
    Ceilings ctx.place.policy ctx.relays s (arbitrate hub ctx now ids s).state := by
  have hstart : CeilingInv hub ctx s (Pass.start ctx s ids) :=
    ⟨.start hub ctx htaken hnodup hfresh, hidentified, ((Notes.refl s).grown ctx.relays).ceilings_of_zero⟩
  have hpass : CeilingInv hub ctx s (turns hub ctx now maxPlacementsPerStep (Pass.start ctx s ids)) :=
    turns_invariant (fun pass hpass => hpass.turn now) maxPlacementsPerStep hstart
  unfold arbitrate
  split
  · exact ((Quiet.blockAll s).toNotes.grown ctx.relays).ceilings_of_zero
  · exact hpass.ceilings

/-- A refresh and the pass after it leave every count within its ceiling, or no higher than it
was. -/
theorem pass_respects_ceilings (hub : HubEnv) (ctx : ScheduleCtx) (now : ℕ) (ids : List String)
    (s : State) (hidentities : RelayIdentities ctx.relays s) (htaken : AdmissionsTaken s)
    (hnodup : ids.Nodup) (hfresh : ∀ r ∈ ids, s.reservations.lookup r = none) :
    Ceilings ctx.place.policy ctx.relays s
      (arbitrate hub ctx now ids (refresh s ctx.place.policy ctx.relays)).state := by
  have hpass := arbitrate_ceilings hub ctx now (hidentities.identified ctx.place.policy)
    (htaken.refresh ctx.place.policy ctx.relays) hnodup hfresh
  have hloads : Loads.new (refresh s ctx.place.policy ctx.relays) ctx.relays = Loads.new s ctx.relays :=
    new_of_holding (holding_refresh s ctx.place.policy ctx.relays) rfl rfl ctx.relays
  have hprobes := probesOut_of_holding (holding_refresh s ctx.place.policy ctx.relays) rfl
  obtain ⟨hlane, hrelay, hrunner, hbudget, hprobing⟩ := hpass
  rw [hloads] at hlane hrelay hrunner hbudget
  simp only [hprobes] at hprobing
  exact ⟨hlane, hrelay, hrunner, hbudget, hprobing⟩

theorem RelayIdentities.of_entries (htickets : ∀ e ∈ s.tickets.entries, relays.inventory e.2.key = none ∨
      e.2.identity.gitlab ≠ none ∧ e.2.identity.runnerId ≠ none)
    (hjobs : ∀ e ∈ s.jobs.entries, relays.inventory e.2.row.key = none) : RelayIdentities relays s where
  tickets id t ht _ hsome := (htickets ⟨id, t⟩ (AList.mem_lookup_iff.mp ht)).resolve_left hsome
  jobs id j hj inventory _ hinventory := by
    have hnone := hjobs ⟨id, j⟩ (AList.mem_lookup_iff.mp hj)
    rw [hnone] at hinventory
    simp at hinventory

/-- A client's ticket and job, and a relay's ticket. -/
def sampleQueue : State :=
  sampleState (((∅ : Table String Ticket).insert "t" (sampleTicket "a" sampleClient)).insert
    "u" (sampleTicket "relay" sampleRunner)) ((∅ : Table String LiveJob).insert "j" sampleJob)

/-- All three are placed, and the one probe out is within the budget of two. -/
theorem pass_respects_ceilings_one_probe :
    let pass := arbitrate sampleHub (sampleCtx [] 3) 5 ["r1", "r2"]
      (refresh sampleQueue (sampleCtx [] 3).place.policy (sampleCtx [] 3).relays)
    pass.picks.map (fun p => (p.chosen.id, p.granted)) =
        [("u", some false), ("t", some false), ("j", some false)] ∧
      (Loads.new pass.state (sampleCtx [] 3).relays).probes = 1 ∧
      Ceilings (sampleCtx [] 3).place.policy (sampleCtx [] 3).relays sampleQueue pass.state :=
  ⟨by decide +kernel, by decide +kernel, pass_respects_ceilings sampleHub (sampleCtx [] 3) 5
    ["r1", "r2"] sampleQueue (.of_entries (by decide +kernel) (by decide +kernel))
    (.of_unadmitted (by decide)) (by decide) (by decide)⟩

end Virtkit.Hub
