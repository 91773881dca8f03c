import Virtkit.Hub.Notes

/-!
# Loads as sums

The loads of a state, read off all at once, are sums over its tickets and jobs: each ticket that
holds capacity and each job charged adds its own charge. So they depend on nothing that notes
change, and they move by one charge when one job or one ticket changes.
-/

namespace Virtkit.Hub

open Virtkit.Common List Table Loads

/-- What a ticket adds to a meter, nothing unless it holds capacity. -/
def ticketFigure (m : Meter) (_ : String) (t : Ticket) : ℕ :=
  if holds t.phase then ticketCharge t m else 0

/-- What a job adds to a meter, nothing unless it is charged. -/
def jobFigure (s : State) (relays : Relays) (m : Meter) (_ : String) (j : LiveJob) : ℕ :=
  if charged s j.row then jobCharge relays j.row m else 0

/-- Whether a ticket has a probe out for a runner. -/
def Ticket.probesFor (t : Ticket) (r : String × ℕ) : Bool :=
  t.probe && t.phase ≠ .job && probeOf t == some r

theorem reading_foldl_chargeTicket (ts : List Ticket) (l : Loads) (m : Meter) :
    (ts.foldl chargeTicket l).reading m = l.reading m + (ts.map fun t => ticketCharge t m).sum := by
  induction ts generalizing l with
  | nil => simp
  | cons t ts ih =>
    rw [foldl_cons, ih, reading_chargeTicket, map_cons, sum_cons]
    omega

theorem reading_foldl_chargeJob (relays : Relays) (rows : List JobRow) (l : Loads) (m : Meter) :
    (rows.foldl (fun l row => l.chargeJob relays row true) l).reading m =
      l.reading m + (rows.map fun row => jobCharge relays row m).sum := by
  induction rows generalizing l with
  | nil => simp
  | cons row rows ih =>
    rw [foldl_cons, ih, reading_chargeJob, if_pos rfl, map_cons, sum_cons]
    omega

theorem sum_map_filter {α : Type*} (p : α → Bool) (f : α → ℕ) (l : List α) :
    ((l.filter p).map f).sum = (l.map fun a => if p a then f a else 0).sum := by
  induction l with
  | nil => rfl
  | cons a l ih =>
    rw [filter_cons, map_cons, sum_cons, ← ih]
    split
    · rw [map_cons, sum_cons]
    · rw [Nat.zero_add]

/-- A load is what is abandoned, and what tickets and jobs are charged. -/
theorem Loads.reading_new (s : State) (relays : Relays) (m : Meter) :
    (Loads.new s relays).reading m = (Loads.abandoned s).reading m +
      s.tickets.sum (ticketFigure m) + s.jobs.sum (jobFigure s relays m) := by
  rw [Loads.new, reading_foldl_chargeJob, reading_foldl_chargeTicket, sum_map_filter, sum_map_filter, map_map, map_map]
  rfl

theorem probing_foldl_chargeTicket (ts : List Ticket) (l : Loads) (r : String × ℕ) :
    (ts.foldl chargeTicket l).probing r = (l.probing r || ts.any (·.probesFor r)) := by
  induction ts generalizing l with
  | nil => simp
  | cons t ts ih =>
    rw [foldl_cons, ih, any_cons, ← Bool.or_assoc]
    rfl

theorem probing_foldl_chargeJob (relays : Relays) (rows : List JobRow) (l : Loads) :
    (rows.foldl (fun l row => l.chargeJob relays row true) l).probing = l.probing := by
  induction rows generalizing l with
  | nil => rfl
  | cons row rows ih =>
    rw [foldl_cons, ih]
    rfl

/-- A runner is probed if some ticket or abandoned probe does so. -/
theorem Loads.probing_new (s : State) (relays : Relays) (r : String × ℕ) :
    (Loads.new s relays).probing r = true ↔ (Loads.abandoned s).probing r = true ∨
      ∃ id t, s.tickets.lookup id = some t ∧ holds t.phase = true ∧ t.probesFor r = true := by
  rw [Loads.new, probing_foldl_chargeJob, probing_foldl_chargeTicket, Bool.or_eq_true, any_eq_true]
  apply or_congr_right
  constructor
  · rintro ⟨t, ht, hr⟩
    obtain ⟨hmem, hholds⟩ := mem_filter.mp ht
    obtain ⟨e, he, rfl⟩ := mem_map.mp hmem
    exact ⟨e.1, e.2, AList.mem_lookup_iff.mpr he, hholds, hr⟩
  · rintro ⟨id, t, ht, hholds, hr⟩
    refine ⟨t, mem_filter.mpr ⟨mem_map.mpr ⟨⟨id, t⟩, ?_, rfl⟩, hholds⟩, hr⟩
    exact AList.mem_lookup_iff.mp ht

theorem valueAt_eq_of_map_eq {V W : Type*} {core : V → W} {t u : Table String V}
    {f g : String → V → ℕ} {k : String} (h : (t.lookup k).map core = (u.lookup k).map core)
    (hfg : ∀ v w, core v = core w → t.lookup k = some v → f k v = g k w) : t.valueAt f k = u.valueAt g k := by
  cases ht : t.lookup k with
  | none =>
    rw [ht, Option.map_none, eq_comm, Option.map_eq_none_iff] at h
    rw [valueAt, valueAt, ht, h, Option.elim_none, Option.elim_none]
  | some v =>
    rw [ht, Option.map_some, eq_comm, Option.map_eq_some_iff] at h
    obtain ⟨w, hw, hcore⟩ := h
    rw [valueAt, valueAt, ht, hw, Option.elim_some, Option.elim_some]
    exact hfg v w hcore.symm ht

theorem abandoned_congr {s s' : State} (h : s'.abandonedProbes = s.abandonedProbes) :
    Loads.abandoned s' = Loads.abandoned s := by
  simp only [Loads.abandoned, h]

/-- The tickets of two states are the same but for notes. -/
def SameTickets (s s' : State) : Prop :=
  ∀ id, (s'.tickets.lookup id).map Ticket.core = (s.tickets.lookup id).map Ticket.core

variable {t t' : Ticket}

theorem phase_eq_of_core_eq (h : t'.core = t.core) : t'.phase = t.phase := by
  have hphase : t'.core.phase = t.core.phase := by rw [h]
  exact hphase

theorem ticketFigure_eq_of_core_eq (h : t'.core = t.core) (m : Meter) (id : String) :
    ticketFigure m id t' = ticketFigure m id t := by
  have hcore : ∀ t : Ticket, ticketFigure m id t = ticketFigure m id t.core := by
    intro t
    cases m <;> rfl
  rw [hcore t', hcore t, h]

theorem probesFor_eq_of_core_eq (h : t'.core = t.core) (r : String × ℕ) : t'.probesFor r = t.probesFor r := by
  have hcore : ∀ t : Ticket, t.probesFor r = t.core.probesFor r := fun _ => rfl
  rw [hcore t', hcore t, h]

variable {s s' : State} {relays : Relays}

section

variable (h : SameTickets s s')
include h

theorem charged_congr (row : JobRow) : charged s' row = charged s row := by
  unfold charged
  cases row.admission with
  | none => rfl
  | some a =>
    have ha := h a
    cases ht : s.tickets.lookup a with
    | none =>
      rw [ht, Option.map_none, Option.map_eq_none_iff] at ha
      simp [ht, ha]
    | some t =>
      rw [ht, Option.map_some, Option.map_eq_some_iff] at ha
      obtain ⟨t', ht', hcore⟩ := ha
      simp [ht, ht', phase_eq_of_core_eq hcore]

theorem SameTickets.sum_eq (m : Meter) : s'.tickets.sum (ticketFigure m) = s.tickets.sum (ticketFigure m) :=
  sum_congr fun id => valueAt_eq_of_map_eq (h id) fun _ _ hcore _ => ticketFigure_eq_of_core_eq hcore m id

theorem SameTickets.probing_eq (hab : s'.abandonedProbes = s.abandonedProbes) :
    (Loads.new s' relays).probing = (Loads.new s relays).probing := by
  funext r
  rw [Bool.eq_iff_iff, probing_new, probing_new, abandoned_congr hab]
  apply or_congr_right
  constructor
  · rintro ⟨id, t', ht', hholds, hr⟩
    have hid := h id
    rw [ht', Option.map_some, eq_comm, Option.map_eq_some_iff] at hid
    obtain ⟨t, ht, hcore⟩ := hid
    exact ⟨id, t, ht, phase_eq_of_core_eq hcore.symm ▸ hholds, probesFor_eq_of_core_eq hcore.symm r ▸ hr⟩
  · rintro ⟨id, t, ht, hholds, hr⟩
    have hid := h id
    rw [ht, Option.map_some, Option.map_eq_some_iff] at hid
    obtain ⟨t', ht', hcore⟩ := hid
    exact ⟨id, t', ht', (phase_eq_of_core_eq hcore).symm ▸ hholds, (probesFor_eq_of_core_eq hcore r).symm ▸ hr⟩

theorem jobFigure_eq (relays : Relays) (m : Meter) (id : String) {j j' : LiveJob} (hrow : j'.row = j.row) :
    jobFigure s' relays m id j' = jobFigure s relays m id j := by
  rw [jobFigure, jobFigure, hrow, charged_congr h]

end

/-- Notes leave the loads as they are. -/
theorem Notes.loads_eq (h : Notes s s') (relays : Relays) : Loads.new s' relays = Loads.new s relays := by
  have hsame : SameTickets s s' := h.tickets
  apply ext_reading
  · intro m
    have hjobs : s'.jobs.sum (jobFigure s' relays m) = s.jobs.sum (jobFigure s relays m) :=
      sum_congr fun id => valueAt_eq_of_map_eq (h.jobs id) fun _ _ hcore _ =>
        jobFigure_eq hsame relays m id (Notes.row_eq_of_core_eq hcore)
    rw [reading_new, reading_new, hsame.sum_eq, hjobs, abandoned_congr h.abandonedProbes]
  · exact hsame.probing_eq h.abandonedProbes

theorem Loads.probing_recharge (l : Loads) (relays : Relays) (s : State) (row : Option JobRow)
    (add : Bool) : (l.recharge relays s row add).probing = l.probing := by
  unfold Loads.recharge
  split
  · split <;> rfl
  · rfl

/-- Charging a job again adds or takes its figure. -/
theorem Loads.reading_recharge (l : Loads) (relays : Relays) (s : State) (t : Table String LiveJob)
    (id : String) (add : Bool) (m : Meter) : (l.recharge relays s ((t.lookup id).map LiveJob.row) add).reading m =
      if add then l.reading m + t.valueAt (jobFigure s relays m) id
      else l.reading m - t.valueAt (jobFigure s relays m) id := by
  unfold Loads.recharge valueAt
  cases t.lookup id with
  | none => simp
  | some j =>
    simp only [Option.map_some, Option.elim_some, jobFigure]
    split
    · exact reading_chargeJob l relays j.row add m
    · simp

/-- When one job changed and no ticket did, its charge as it was goes and its charge as it is
comes. -/
theorem Loads.new_of_job (id : String) (htickets : SameTickets s s') (hab : s'.abandonedProbes = s.abandonedProbes)
    (hjobs : ∀ k, k ≠ id → (s'.jobs.lookup k).map LiveJob.core = (s.jobs.lookup k).map LiveJob.core) :
    Loads.new s' relays = ((Loads.new s relays).recharge relays s' ((s.jobs.lookup id).map LiveJob.row) false).recharge
        relays s' ((s'.jobs.lookup id).map LiveJob.row) true := by
  apply ext_reading
  · intro m
    have hfig : ∀ j, jobFigure s' relays m id j = jobFigure s relays m id j :=
      fun j => jobFigure_eq htickets relays m id rfl
    have hbefore : s.jobs.valueAt (jobFigure s' relays m) id = s.jobs.valueAt (jobFigure s relays m) id := by
      simp only [valueAt, funext hfig]
    have hmove : s'.jobs.sum (jobFigure s' relays m) + s.jobs.valueAt (jobFigure s relays m) id =
        s.jobs.sum (jobFigure s relays m) + s'.jobs.valueAt (jobFigure s' relays m) id :=
      sum_add_valueAt id fun k hk => valueAt_eq_of_map_eq (hjobs k hk) fun _ _ hcore _ =>
        jobFigure_eq htickets relays m k (Notes.row_eq_of_core_eq hcore)
    have hle := sum_erase_add_valueAt (jobFigure s relays m) s.jobs id
    rw [reading_recharge, if_pos rfl, reading_recharge, if_neg Bool.false_ne_true,
      reading_new, reading_new, htickets.sum_eq, hbefore, abandoned_congr hab]
    omega
  · rw [probing_recharge, probing_recharge]
    exact htickets.probing_eq hab

variable {id : String}

theorem charged_of_ne {row : JobRow} (hrow : row.admission ≠ some id) (h : ∀ k, k ≠ id →
      (s'.tickets.lookup k).map Ticket.core = (s.tickets.lookup k).map Ticket.core) :
    charged s' row = charged s row := by
  unfold charged
  cases ha : row.admission with
  | none => rfl
  | some a =>
    have hne : a ≠ id := fun heq => hrow (heq ▸ ha)
    have hphase : (s'.tickets.lookup a).map (fun t => t.core.phase) =
        (s.tickets.lookup a).map fun t => t.core.phase := by
      have hmap := congrArg (Option.map Ticket.phase) (h a hne)
      rwa [Option.map_map, Option.map_map] at hmap
    have hany : ∀ o : Option Ticket, o.any (fun t => holds t.phase) = (o.map fun t => t.core.phase).any holds := by
      intro o
      cases o <;> rfl
    simp only [Option.any_some, hany, hphase]

theorem ticket_of_map_core_eq {k : String}
    (h : (s'.tickets.lookup k).map Ticket.core = (s.tickets.lookup k).map Ticket.core)
    (ht : s.tickets.lookup k = some t) : ∃ t', s'.tickets.lookup k = some t' ∧ t'.core = t.core := by
  rw [ht, Option.map_some, Option.map_eq_some_iff] at h
  exact h

section

variable (ht : s.tickets.lookup id = some t) (hwaits : holds t.phase = false)
  (ht' : s'.tickets.lookup id = some t')
  (hother : ∀ k, k ≠ id → (s'.tickets.lookup k).map Ticket.core = (s.tickets.lookup k).map Ticket.core)
  (hab : s'.abandonedProbes = s.abandonedProbes)
include ht hwaits ht' hother hab

theorem Loads.probing_of_ticket (r : String × ℕ) : (Loads.new s' relays).probing r =
      ((Loads.new s relays).probing r || (holds t'.phase && t'.probesFor r)) := by
  rw [Bool.eq_iff_iff, Bool.or_eq_true, probing_new, probing_new, abandoned_congr hab, or_assoc, Bool.and_eq_true]
  apply or_congr_right
  constructor
  · rintro ⟨k, u', hu', hholds, hr⟩
    by_cases hk : k = id
    · rw [hk, ht', Option.some.injEq] at hu'
      exact .inr ⟨hu' ▸ hholds, hu' ▸ hr⟩
    · obtain ⟨u, hu, hcore⟩ := ticket_of_map_core_eq (hother k hk).symm hu'
      exact .inl ⟨k, u, hu, (phase_eq_of_core_eq hcore).symm ▸ hholds, (probesFor_eq_of_core_eq hcore r).symm ▸ hr⟩
  · rintro (⟨k, u, hu, hholds, hr⟩ | ⟨hholds, hr⟩)
    · have hk : k ≠ id := by
        rintro rfl
        rw [ht, Option.some.injEq] at hu
        rw [← hu, hwaits] at hholds
        exact Bool.false_ne_true hholds
      obtain ⟨u', hu', hcore⟩ := ticket_of_map_core_eq (hother k hk) hu
      exact ⟨k, u', hu', (phase_eq_of_core_eq hcore).symm ▸ hholds, (probesFor_eq_of_core_eq hcore r).symm ▸ hr⟩
    · exact ⟨id, t', ht', hholds, hr⟩

/-- When one ticket that held no capacity changed, no job naming it, its charge comes if it holds
capacity now. -/
theorem Loads.new_of_ticket (hjobs : ∀ k, (s'.jobs.lookup k).map LiveJob.core = (s.jobs.lookup k).map LiveJob.core)
    (hunnamed : ∀ k j, s.jobs.lookup k = some j → j.row.admission ≠ some id) : Loads.new s' relays =
      if holds t'.phase then (Loads.new s relays).chargeTicket t' else Loads.new s relays := by
  have hreading : ∀ m, (Loads.new s' relays).reading m = (Loads.new s relays).reading m + ticketFigure m id t' := by
    intro m
    have htickets := sum_add_valueAt (f := ticketFigure m) (g := ticketFigure m)
      (t := s'.tickets) (u := s.tickets) id fun k hk =>
        valueAt_eq_of_map_eq (hother k hk) fun _ _ hcore _ => ticketFigure_eq_of_core_eq hcore m k
    have hnow : s'.tickets.valueAt (ticketFigure m) id = ticketFigure m id t' := by simp [valueAt, ht']
    have hthen : s.tickets.valueAt (ticketFigure m) id = 0 := by simp [valueAt, ht, ticketFigure, hwaits]
    have hsum : s'.jobs.sum (jobFigure s' relays m) = s.jobs.sum (jobFigure s relays m) := by
      apply sum_congr
      intro k
      apply valueAt_eq_of_map_eq (hjobs k)
      intro j' j hcore hj'
      have hback := hjobs k
      rw [hj', Option.map_some, eq_comm, Option.map_eq_some_iff] at hback
      obtain ⟨j₀, hj₀, hcore₀⟩ := hback
      have hrow := Notes.row_eq_of_core_eq hcore
      have hne : j.row.admission ≠ some id := by
        rw [← hrow, ← Notes.row_eq_of_core_eq hcore₀]
        exact hunnamed k j₀ hj₀
      rw [jobFigure, jobFigure, hrow, charged_of_ne hne hother]
    rw [reading_new, reading_new, hsum, abandoned_congr hab]
    omega
  have hprobing : ∀ r, (Loads.new s' relays).probing r =
      ((Loads.new s relays).probing r || (holds t'.phase && t'.probesFor r)) :=
    probing_of_ticket ht hwaits ht' hother hab
  split
  · rename_i hholds
    apply ext_reading
    · intro m
      rw [hreading, reading_chargeTicket, ticketFigure, if_pos hholds]
    · funext r
      rw [hprobing, hholds, Bool.true_and]
      rfl
  · rename_i hholds
    apply ext_reading
    · intro m
      rw [hreading, ticketFigure, if_neg hholds, Nat.add_zero]
    · funext r
      rw [hprobing, Bool.eq_false_iff.mpr hholds, Bool.false_and, Bool.or_false]

end

end Virtkit.Hub
