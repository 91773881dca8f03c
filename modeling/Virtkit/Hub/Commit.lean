import Virtkit.Hub.RoomSums

/-!
# The fleet's room

The room of the fleet for a placement is the sum of its nodes' rooms. A node admits normal work
where each headroom entry keeps its slots, or all the room it has, once the work is added there: so
wherever the work leaves that node with no less room than was predicted, and the others with no less
than they had, the entry keeps as much.
-/

namespace Virtkit.Hub

open Virtkit.Common List Option Table

/-- A node's room for a placement as things stand. -/
def nodeRoom (hub : HubEnv) (s : State) (p : Placement) (node : String) (row : NodeRow) : ℕ :=
  roomNat hub s node row p (tally s node).placed none

section FleetRoom

variable {hub : HubEnv} {s s' : State} {nodes : Nodes} {p : Placement}

theorem Lighter.nodeRoom_le (h : Lighter s s') (hub : HubEnv) (p : Placement) (node : String)
    (row : NodeRow) : nodeRoom hub s p node row ≤ nodeRoom hub s' p node row := by
  have hplaced : (tally s' node).placed ≤ (tally s node).placed := by
    have hle := h.placed node
    rw [tally_placed, tally_placed]
    omega
  exact h.roomNat_le hub node row p hplaced none

theorem roomsOn_eq (hub : HubEnv) (s : State) (nodes : Nodes) (p : Placement) :
    roomsOn hub s nodes p = nodes.positive (nodeRoom hub s p) := by
  unfold roomsOn rooms Table.positive nodeRoom
  rw [map_filterMap]
  simp only [contains_nil, Bool.not_false, filter_true]
  apply filterMap_congr
  intro n _
  rw [room_eq]
  split <;> rfl

/-- The fleet's room is the sum over its nodes. -/
theorem fleetRoom_eq (hub : HubEnv) (s : State) (nodes : Nodes) (p : Placement) :
    fleetRoom hub s nodes p = min (nodes.sum (nodeRoom hub s p)) u64Max := by
  unfold fleetRoom
  rw [foldl_satAdd u64Max (fun n : String × ℕ => n.2) _ 0 (Nat.zero_le _), Nat.zero_add, roomsOn_eq, ← sum_positive]

/-- Less work leaves the fleet no less room. -/
theorem Lighter.fleetRoom_le (h : Lighter s s') (hub : HubEnv) (nodes : Nodes) (p : Placement) :
    fleetRoom hub s nodes p ≤ fleetRoom hub s' nodes p := by
  have hsum : nodes.sum (nodeRoom hub s p) ≤ nodes.sum (nodeRoom hub s' p) := by
    apply sum_le_of_lookup
    intro node row hrow
    exact ⟨row, hrow, h.nodeRoom_le hub p node row⟩
  rw [fleetRoom_eq, fleetRoom_eq]
  omega

/-- A reading of the fleet's room for a headroom placement. -/
structure KeptEntry.Reads (hub : HubEnv) (s : State) (nodes : Nodes) (e : KeptEntry) : Prop where
  on : e.on = roomsOn hub s nodes e.placement
  total : e.total = fleetRoom hub s nodes e.placement

/-- A reading has an entry that keeps a headroom's slots for its placement. -/
def Covers (entries : List KeptEntry) (h : Headroom) : Prop :=
  ∃ e ∈ entries, e.placement = h.placement ∧ h.slots ≤ e.slots

theorem keep_spec {entries : List KeptEntry} (hreads : ∀ e ∈ entries, e.Reads hub s nodes) (h : Headroom) :
    (∀ e ∈ keep hub s nodes entries h, e.Reads hub s nodes) ∧ Covers (keep hub s nodes entries h) h ∧
      ∀ g, Covers entries g → Covers (keep hub s nodes entries h) g := by
  unfold keep
  split
  · rename_i hany
    obtain ⟨e₀, he₀, hp₀⟩ := any_eq_true.mp hany
    have hp₀ : e₀.placement = h.placement := by simpa using hp₀
    refine ⟨?_, ?_, ?_⟩
    · intro e he
      obtain ⟨e', he', rfl⟩ := mem_map.mp he
      have hread := hreads e' he'
      split
      · exact ⟨hread.on, hread.total⟩
      · exact hread
    · refine ⟨_, mem_map.mpr ⟨e₀, he₀, rfl⟩, ?_⟩
      rw [if_pos hp₀]
      exact ⟨hp₀, le_max_right _ _⟩
    · rintro g ⟨e, he, hp, hslots⟩
      refine ⟨_, mem_map.mpr ⟨e, he, rfl⟩, ?_⟩
      split
      · exact ⟨hp, le_trans hslots (le_max_left _ _)⟩
      · exact ⟨hp, hslots⟩
  · refine ⟨?_, ?_, ?_⟩
    · intro e he
      rcases mem_append.mp he with he | he
      · exact hreads e he
      · rw [mem_singleton.mp he]
        exact ⟨rfl, rfl⟩
    · exact ⟨_, mem_append_right _ mem_cons_self, rfl, le_refl _⟩
    · rintro g ⟨e, he, hp, hslots⟩
      exact ⟨e, mem_append_left _ he, hp, hslots⟩

/-- The rooms kept are read as they are, and cover each headroom entry. -/
theorem keptRooms_spec (hub : HubEnv) (s : State) (nodes : Nodes) (policy : Policy) :
    (∀ e ∈ keptRooms hub s nodes policy, e.Reads hub s nodes) ∧
      ∀ h ∈ policy.headroom, Covers (keptRooms hub s nodes policy) h := by
  have hfold : ∀ (l : List Headroom) (entries : List KeptEntry), (∀ e ∈ entries, e.Reads hub s nodes) →
      (∀ e ∈ l.foldl (keep hub s nodes) entries, e.Reads hub s nodes) ∧
        ∀ h, (h ∈ l ∨ Covers entries h) → Covers (l.foldl (keep hub s nodes) entries) h := by
    intro l
    induction l with
    | nil =>
      intro entries hreads
      exact ⟨hreads, fun h hh => hh.resolve_left (by simp)⟩
    | cons g l ih =>
      intro entries hreads
      obtain ⟨hreads', hcovers, hkept⟩ := keep_spec hreads g
      obtain ⟨hall, hcovered⟩ := ih _ hreads'
      refine ⟨hall, fun h hh => hcovered h ?_⟩
      rcases hh with hh | hh
      · rcases mem_cons.mp hh with rfl | hh
        · exact .inr hcovers
        · exact .inl hh
      · exact .inr (hkept h hh)
  obtain ⟨hreads, hcovers⟩ := hfold policy.headroom [] (by simp)
  exact ⟨hreads, fun h hh => hcovers h (.inl hh)⟩

/-- Normal work admitted to a node keeps each headroom's slots, or all the room it has, wherever it
leaves the node with the room predicted and the others with theirs. -/
theorem headroom_of_admits {policy : Policy} {node : String} (hadmits : admits hub s nodes policy p .normal node = true)
    (hothers : ∀ q k row, k ≠ node → nodes.lookup k = some row → nodeRoom hub s q k row ≤ nodeRoom hub s' q k row)
    (hown : ∀ q row, nodes.lookup node = some row →
      roomNat hub s node row q (satAdd u64Max (tally s node).placed 1) (some p.envelope) ≤ nodeRoom hub s' q node row)
    {h : Headroom} (hh : h ∈ policy.headroom) :
    min h.slots (fleetRoom hub s nodes h.placement) ≤ fleetRoom hub s' nodes h.placement := by
  have hsome : policy.headroom.isEmpty = false := by
    cases hheadroom : policy.headroom with
    | nil => simp [hheadroom] at hh
    | cons g l => rfl
  obtain ⟨hreads, hcovers⟩ := keptRooms_spec hub s nodes policy
  obtain ⟨e, he, hplacement, hslots⟩ := hcovers h hh
  have hread := hreads e he
  unfold admits at hadmits
  rw [hsome] at hadmits
  cases hrow : nodes.lookup node with
  | none => simp [hrow] at hadmits
  | some row =>
    rw [hrow] at hadmits
    have hkeeps := all_eq_true.mp hadmits e he
    unfold KeptEntry.keeps KeptEntry.roomOn at hkeeps
    rw [hread.on, hread.total, hplacement, roomsOn_eq, find_positive, room_getD] at hkeeps
    simp only [Bool.or_eq_true, beq_iff_eq, decide_eq_true_eq] at hkeeps
    have hpredicted := hown h.placement row hrow
    have hrest : Table.sum (nodeRoom hub s h.placement) (nodes.erase node) ≤
        Table.sum (nodeRoom hub s' h.placement) (nodes.erase node) := by
      apply sum_le_of_lookup
      intro k row' hk
      rw [lookup_erase_ite] at hk
      split at hk
      · simp at hk
      · rename_i hne
        refine ⟨row', ?_, hothers h.placement k row' hne hk⟩
        rw [lookup_erase_ite, if_neg hne]
        exact hk
    have hsum := sum_erase_add_valueAt (nodeRoom hub s h.placement) nodes node
    have hsum' := sum_erase_add_valueAt (nodeRoom hub s' h.placement) nodes node
    have hat : nodes.valueAt (nodeRoom hub s' h.placement) node = nodeRoom hub s' h.placement node row := by
      rw [valueAt, hrow, elim_some]
    generalize roomNat hub s node row h.placement (satAdd u64Max (tally s node).placed 1)
      (some p.envelope) = predicted at hkeeps hpredicted
    rw [fleetRoom_eq] at hkeeps
    rw [fleetRoom_eq, fleetRoom_eq]
    unfold satAdd at hkeeps
    omega

theorem mem_candidates {skip : List String} {node : String} (h : node ∈ (candidates hub s nodes p skip).map Prod.fst) :
    ∃ row, nodes.lookup node = some row ∧ 0 < nodeRoom hub s p node row := by
  unfold candidates leastLoadedFirst at h
  rw [List.map_map] at h
  obtain ⟨n, hn, rfl⟩ := mem_map.mp h
  rw [mem_insertionSort] at hn
  obtain ⟨m, hm, rfl⟩ := mem_map.mp hn
  obtain ⟨e, he, hroom⟩ := mem_filterMap.mp hm
  obtain ⟨r, hr, rfl⟩ := Option.map_eq_some_iff.mp hroom
  refine ⟨e.2, AList.mem_lookup_iff.mpr (mem_of_mem_filter he), ?_⟩
  rw [room_eq] at hr
  split at hr
  · rename_i hpos
    exact hpos
  · simp at hr

theorem fitsBy_le_self (n : ℕ) (free : Option ℕ) (size : ℕ) : fitsBy n free size ≤ n := by
  unfold fitsBy
  split
  · split
    · exact le_refl _
    · exact min_le_left _ _
  · exact le_refl _

/-- A node with room is not at its cap. -/
theorem placed_lt_of_nodeRoom_pos {node : String} {row : NodeRow} {cap : ℕ}
    (h : 0 < nodeRoom hub s p node row) (hcap : placedCap row.ceiling row.report = some cap) :
    (tally s node).placed < cap := by
  unfold nodeRoom roomNat roomFigure at h
  split at h
  · split at h
    · split at h
      · unfold fits at h
        rw [hcap, elim_some] at h
        have hdisk := lt_of_lt_of_le h (fitsBy_le_self _ _ _)
        have hcpus := lt_of_lt_of_le hdisk (fitsBy_le_self _ _ _)
        have hmem := lt_of_lt_of_le hcpus (fitsBy_le_self _ _ _)
        omega
      · simp at h
    · simp at h
  · simp at h

end FleetRoom

/-!
## What committing a placement does to room

Offering a ticket a reservation, or sending a job to the node selected for it, adds one placement of
its envelope to one node, so the room left everywhere is the room that was predicted with the
placement added. A job that starts on its reservation takes over what the reservation held, and one
that ends leaves only less behind.
-/

/-- The second state is the first with one placement added on a node. -/
structure Placed (s s' : State) (node : String) (e : Envelope) : Prop where
  pending : ∀ k since field, pendingSum s' k since field =
    pendingSum s k since field + if k = node then field e else 0
  placed : ∀ k, placedSum s' k = placedSum s k + if k = node then 1 else 0
  held : ∀ k, (s'.links.lookup k).map Link.held = (s.links.lookup k).map Link.held

/-- The second state has at most one placement more on a node. -/
structure PlacedWithin (s s' : State) (node : String) (e : Envelope) : Prop where
  pending : ∀ k since field, pendingSum s' k since field ≤
    pendingSum s k since field + if k = node then field e else 0
  placed : ∀ k, placedSum s' k ≤ placedSum s k + if k = node then 1 else 0
  held : ∀ k, (s'.links.lookup k).map Link.held = (s.links.lookup k).map Link.held

section Placed

variable {s s' s'' : State} {node : String} {e : Envelope}

theorem Placed.within (h : Placed s s' node e) : PlacedWithin s s' node e :=
  ⟨fun k since field => (h.pending k since field).le, fun k => (h.placed k).le, h.held⟩

/-- The room after a placement is the room predicted. -/
theorem Placed.room_eq (h : Placed s s' node e) (hub : HubEnv) (k : String) (row : NodeRow) (p : Placement) :
    room hub s' k row p (tally s' k).placed none =
      if k = node then room hub s k row p (satAdd u64Max (tally s k).placed 1) (some e)
      else room hub s k row p (tally s k).placed none := by
  have hplaced := h.placed k
  split
  · rename_i hk
    rw [if_pos hk] at hplaced
    have htally : (tally s' k).placed = satAdd u64Max (tally s k).placed 1 := by
      rw [tally_placed, tally_placed, hplaced, satAdd]
      omega
    have hpending : pendingOn s' k row.since none = pendingOn s k row.since (some e) := by
      apply pendingOn_congr
      intro field
      rw [h.pending, if_pos hk, elim_none, elim_some]
      omega
    rw [Virtkit.Hub.room_eq, Virtkit.Hub.room_eq, roomNat, roomNat, takesWork_congr h.held, htally, hpending]
  · rename_i hk
    rw [if_neg hk, Nat.add_zero] at hplaced
    have htally : (tally s' k).placed = (tally s k).placed := by rw [tally_placed, tally_placed, hplaced]
    have hpending : pendingOn s' k row.since none = pendingOn s k row.since none := by
      apply pendingOn_congr
      intro field
      rw [h.pending, if_neg hk, Nat.add_zero]
    rw [Virtkit.Hub.room_eq, Virtkit.Hub.room_eq, roomNat, roomNat, takesWork_congr h.held, htally, hpending]

theorem PlacedWithin.nodeRoom_le (h : PlacedWithin s s' node e) (hub : HubEnv) (p : Placement)
    {k : String} (hk : k ≠ node) (row : NodeRow) : nodeRoom hub s p k row ≤ nodeRoom hub s' p k row := by
  have hplaced := h.placed k
  rw [if_neg hk, Nat.add_zero] at hplaced
  have htally : (tally s' k).placed ≤ (tally s k).placed := by
    rw [tally_placed, tally_placed]
    omega
  apply roomNat_le h.held hub k row p htally
  intro field
  have hpending := h.pending k row.since field
  rw [if_neg hk, Nat.add_zero] at hpending
  exact Nat.add_le_add_left hpending _

theorem PlacedWithin.predicted_le (h : PlacedWithin s s' node e) (hub : HubEnv) (p : Placement) (row : NodeRow) :
    roomNat hub s node row p (satAdd u64Max (tally s node).placed 1) (some e) ≤ nodeRoom hub s' p node row := by
  have hplaced := h.placed node
  rw [if_pos rfl] at hplaced
  have htally : (tally s' node).placed ≤ satAdd u64Max (tally s node).placed 1 := by
    rw [tally_placed, tally_placed, satAdd]
    omega
  apply roomNat_le h.held hub node row p htally
  intro field
  have hpending := h.pending node row.since field
  rw [if_pos rfl] at hpending
  rw [elim_none, elim_some]
  omega

/-- No placement fills a node above its cap. -/
theorem PlacedWithin.placed_le (h : PlacedWithin s s' node e) {hub : HubEnv} {p : Placement}
    {nodes : Nodes} (hroom : ∃ row, nodes.lookup node = some row ∧ 0 < nodeRoom hub s p node row)
    {k : String} {row : NodeRow} {cap : ℕ} (hrow : nodes.lookup k = some row)
    (hcap : placedCap row.ceiling row.report = some cap) : (tally s' k).placed ≤ max cap (tally s k).placed := by
  have hplaced := h.placed k
  by_cases hk : k = node
  · subst hk
    obtain ⟨row', hrow', hpos⟩ := hroom
    rw [hrow, some_inj] at hrow'
    subst hrow'
    have hlt := placed_lt_of_nodeRoom_pos hpos hcap
    rw [if_pos rfl] at hplaced
    rw [tally_placed] at hlt ⊢
    omega
  · rw [if_neg hk, Nat.add_zero] at hplaced
    rw [tally_placed, tally_placed]
    omega

theorem Lighter.placed_le (h : Lighter s s') (k : String) : (tally s' k).placed ≤ (tally s k).placed := by
  have hplaced := h.placed k
  rw [tally_placed, tally_placed]
  omega

end Placed

section Sums

variable {s s' : State} {id : String} {j : LiveJob}

/-- An offer that is sent places the ticket's envelope. -/
theorem OfferSent.placed {ctx : ScheduleCtx} {now : ℕ} {pass pass' : Pass}
    {eligible : List Candidate} {chosen : Candidate} {t : Ticket} {r : String}
    (h : OfferSent ctx now pass s eligible chosen t r pass') (hr : s.reservations.lookup r = none) :
    Placed s pass'.state chosen.node t.placement.envelope where
  pending k since field := by
    have hfigure : resvFigure field k since r (t.resv chosen.id chosen.node) =
        if k = chosen.node then field t.placement.envelope else 0 := by
      by_cases hk : k = chosen.node
      · simp [resvFigure, Resv.pending, Ticket.resv, hk]
      · simp [resvFigure, Resv.pending, Ticket.resv, hk, Ne.symm hk]
    rw [pendingSum, pendingSum, h.reservations, h.frame.jobs, sum_insert _ hr, hfigure]
    omega
  placed k := by
    have hfigure : liveFigure k r (t.resv chosen.id chosen.node) = if k = chosen.node then 1 else 0 := by
      by_cases hk : k = chosen.node
      · simp [liveFigure, Resv.live, Ticket.resv, hk]
      · simp [liveFigure, Resv.live, Ticket.resv, hk, Ne.symm hk]
    rw [placedSum, placedSum, h.reservations, h.frame.jobs, h.frame.disowned, sum_insert _ hr, hfigure]
    omega
  held := h.frame.held

theorem OfferFailed.lighter {now : ℕ} {pass pass' : Pass} {eligible : List Candidate}
    {chosen : Candidate} {t : Ticket} {r : String}
    (h : OfferFailed now pass s eligible chosen t r pass') : Lighter s pass'.state where
  pending k since field := by rw [pendingSum, pendingSum, h.reservations, h.frame.jobs]
  placed k := by rw [placedSum, placedSum, h.reservations, h.frame.jobs, h.frame.disowned]
  held := h.frame.held

theorem sum_modify (f : String → LiveJob → ℕ) (update : LiveJob → LiveJob) (hj : s.jobs.lookup id = some j) :
    (s.jobs.modify id update).sum f + f id j = s.jobs.sum f + f id (update j) := by
  have hmove : (s.jobs.modify id update).sum f + s.jobs.valueAt f id =
      s.jobs.sum f + (s.jobs.modify id update).valueAt f id := by
    apply sum_add_valueAt id
    intro k hk
    rw [valueAt, valueAt, lookup_modify, if_neg hk]
  rw [valueAt, valueAt, lookup_modify, if_pos rfl, hj, map_some, elim_some, elim_some] at hmove
  exact hmove

theorem held_sendTo {t : Target} (h : sendTo s id t = some s') (k : String) :
    (s'.links.lookup k).map Link.held = (s.links.lookup k).map Link.held := by
  unfold sendTo at h
  split at h
  · simp at h
  · rename_i s₁ hsend
    have hheld := held_send hsend k
    rw [some_inj] at h
    rw [← h, ← hheld]
    cases t.givenUp with
    | none => rfl
    | some r => exact (Notes.dropReservation _ r).held k

end Sums

end Virtkit.Hub
