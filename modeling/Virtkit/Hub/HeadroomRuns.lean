import Virtkit.Hub.Headroom

/-!
# Headroom survives normal work

Each turn of a pass commits what it picks. So a turn that places normal work leaves every headroom
entry its slots, or the room it had if that was less, and no turn fills a node above its cap.

Headroom entries name no lane: what they keep is kept from normal work and for work in production,
which may take it.
-/

namespace Virtkit.Hub

open Virtkit.Common List

section Turns

variable {hub : HubEnv} {ctx : ScheduleCtx} {now : ℕ} {pass : Pass}

/-- What a pick of a turn between two states comes to: its work is committed, as it was checked if
it was granted without a reservation of its own. -/
def PickCommits (hub : HubEnv) (ctx : ScheduleCtx) (s s' : State) (p : Pick) : Prop :=
  Commits hub ctx.place s s' p.chosen.cls ∧ (p.granted = some false → p.chosen.reserved = false →
      ∃ shape, workPlacement s p.chosen = some shape ∧
        Checked hub ctx.place s s' shape p.chosen.cls p.chosen.node)

section

variable (hinv : PassInv hub ctx pass) (hres : Reserved pass.ids pass.state)
include hinv hres

/-- A turn commits what it picks; if it picks nothing, the state only lightens. -/
theorem turn_commits (hnodes : ctx.place.nodes.lookup "" = none) (now : ℕ) : let next := (turn hub ctx now pass).1
    (next.picks = pass.picks ∧ Lighter pass.state next.state) ∨
      ∃ p, next.picks = pass.picks ++ [p] ∧ PickCommits hub ctx pass.state next.state p := by
  have hscan : ScanInv hub ctx now pass.loads pass.state (pass.scan hub ctx now) := .scan pass.skipped hinv.found
  have hsc : ScanReserved hub ctx pass.state (pass.scan hub ctx now) := .scan hres pass.skipped pass.found
  have houtcome := turn_outcome hub ctx now pass
  dsimp only
  generalize turn hub ctx now pass = next at houtcome ⊢
  generalize pass.scan hub ctx now = sc at hscan hsc houtcome
  cases houtcome with
  | stops hs hstop => exact .inl ⟨rfl, (hscan.notes.trans hs.toNotes).roomier.lighter⟩
  | @job s chosen hs hchosen hjob =>
    right
    have hmem := (choose_spec hchosen).1
    obtain ⟨j, hj⟩ := (hscan.eligible chosen hmem).job hjob
    unfold placeJob
    dsimp only
    generalize hplace : place hub s ctx.place chosen.id now _ = placed
    obtain ⟨s', written⟩ := placed
    obtain ⟨hcommits, hchecked⟩ := commits_place hres hsc hmem hj hnodes hscan.notes hs hplace
    refine ⟨_, rfl, hcommits.turns _, fun hgranted hreserved => ⟨j.row.placement, ?_, ?_⟩⟩
    · rw [workPlacement, if_pos hjob, hj.job, Option.map_some]
    · exact (hchecked hgranted hreserved).turns _
  | @ticket s chosen t r ids hs hlinks hchosen hjob ht hids =>
    right
    have hnotes := hscan.notes.trans hs.toNotes
    obtain ⟨u, hu⟩ := (eligible_of_choose hscan hchosen).ticket hjob
    obtain ⟨t', ht', hcore⟩ := hnotes.ticket hu.ticket
    rw [ht, Option.some_inj] at ht'
    have hplacement : t.placement = u.placement := by
      have hsame : t'.core.placement = u.core.placement := by rw [hcore]
      rw [ht']
      exact hsame
    have hr : s.reservations.lookup r = none := (hinv.notes hnotes (hs.found hscan.found)).fresh r (by rw [hids]; simp)
    have hfor : NodeFor hub ctx.place pass.state s u.placement chosen.cls chosen.node := by
      rw [hu.cls]
      exact hu.node.trans hs.toNotes
    rcases offerTicket_cases ctx now (pass.scanned hub ctx now s) sc.eligible chosen ids ht hr with
      hfailed | hsent
    · exact ⟨_, hfailed.picks, .inl (hnotes.roomier.lighter.trans hfailed.lighter),
        fun hgranted => by simp at hgranted⟩
    · have hplaced := hsent.placed hr
      rw [hplacement] at hplaced
      refine ⟨_, hsent.picks, hfor.commits hplaced.within, fun _ _ => ⟨u.placement, ?_, s, hfor, ?_⟩⟩
      · rw [workPlacement, if_neg (by simp [hjob]), hu.ticket, Option.map_some]
      · exact hplaced

/-- Jobs keep to their reservations through a turn. -/
theorem Reserved.turn (now : ℕ) :
    Reserved (turn hub ctx now pass).1.ids (Virtkit.Hub.turn hub ctx now pass).1.state := by
  have hscan : ScanInv hub ctx now pass.loads pass.state (pass.scan hub ctx now) := .scan pass.skipped hinv.found
  have houtcome := turn_outcome hub ctx now pass
  generalize Virtkit.Hub.turn hub ctx now pass = next at houtcome ⊢
  generalize pass.scan hub ctx now = sc at hscan houtcome
  cases houtcome with
  | stops hs hstop => exact hres.notes (hscan.notes.trans hs.toNotes)
  | @job s chosen hs hchosen hjob =>
    have hafter := hres.notes (hscan.notes.trans hs.toNotes)
    unfold placeJob
    dsimp only
    generalize hplace : place hub s ctx.place chosen.id now _ = placed
    obtain ⟨s', written⟩ := placed
    have hqueued := place_queuedBefore hplace
    exact hafter.within (fun id j' hj' => hqueued id j' hj') (List.Subset.refl _)
      fun r x hx => .inl ((place_jobFrame hplace).reservations r x hx)
  | @ticket s chosen t r ids hs hlinks hchosen hjob ht hids =>
    have hnotes := hscan.notes.trans hs.toNotes
    have hafter := hres.notes hnotes
    have hr : s.reservations.lookup r = none := (hinv.notes hnotes (hs.found hscan.found)).fresh r (by rw [hids]; simp)
    have hids' : (offerTicket ctx now (pass.scanned hub ctx now s) s sc.eligible chosen t r ids).ids = ids := by
      unfold offerTicket
      dsimp only
      split <;> rfl
    rw [hids']
    have hsubset : ids ⊆ pass.ids := by
      rw [hids]
      exact subset_cons_self r ids
    rcases offerTicket_cases ctx now (pass.scanned hub ctx now s) sc.eligible chosen ids ht hr with
      hfailed | hsent
    · refine hafter.within (fun id j' hj' _ => ?_) hsubset fun k x hx => .inl ?_
      · rw [hfailed.frame.jobs] at hj'
        exact ⟨j', hj', rfl, .inl rfl⟩
      · rw [hfailed.reservations] at hx
        exact hx
    · refine hafter.within (fun id j' hj' _ => ?_) hsubset fun k x hx => ?_
      · rw [hsent.frame.jobs] at hj'
        exact ⟨j', hj', rfl, .inl rfl⟩
      · rw [hsent.reservations, Table.lookup_insert_ite] at hx
        split at hx
        · rename_i hk
          right
          rw [hk, hids]
          exact mem_cons_self
        · exact .inl hx

end

/-- What a pass keeps of a state's headroom while all it picks is normal work. -/
def HeadroomKept (hub : HubEnv) (ctx : ScheduleCtx) (s : State) (pass : Pass) : Prop :=
  (∀ p ∈ pass.picks, p.chosen.cls = .normal) → ∀ room ∈ ctx.place.policy.headroom,
    min room.slots (fleetRoom hub s ctx.place.nodes room.placement) ≤
      fleetRoom hub pass.state ctx.place.nodes room.placement

theorem HeadroomKept.turn {s : State} (h : HeadroomKept hub ctx s pass)
    (hinv : PassInv hub ctx pass) (hres : Reserved pass.ids pass.state)
    (hnodes : ctx.place.nodes.lookup "" = none) (now : ℕ) : HeadroomKept hub ctx s (turn hub ctx now pass).1 := by
  intro hnormal room hroom
  have hturn := turn_commits hinv hres hnodes now
  dsimp only at hturn
  generalize Virtkit.Hub.turn hub ctx now pass = next at hturn hnormal ⊢
  rcases hturn with ⟨hpicks, hlighter⟩ | ⟨p, hpicks, hcommits, -⟩
  · rw [hpicks] at hnormal
    exact le_trans (h hnormal room hroom) (hlighter.fleetRoom_le hub ctx.place.nodes room.placement)
  · rw [hpicks] at hnormal
    have hbefore := h (fun q hq => hnormal q (mem_append_left _ hq)) room hroom
    rw [hnormal p (mem_append_right _ mem_cons_self)] at hcommits
    have hafter := hcommits.headroom hroom
    omega

end Turns

/-- In every turn of a pass, normal work picked leaves each headroom entry its slots, or all the
room it had; the room left by work granted without a reservation of its own is the room predicted
for it, with it added, once it was checked; no node is filled above its cap. And while all it picks
is normal work, a pass leaves each entry its slots, or all the room it had before the pass. -/
theorem normal_work_keeps_headroom (hub : HubEnv) (ctx : ScheduleCtx) (now n : ℕ) (s : State)
    (ids : List String) (htaken : AdmissionsTaken s) (hreserved : Reserved ids s)
    (hnodup : ids.Nodup) (hfresh : ∀ r ∈ ids, s.reservations.lookup r = none)
    (hnodes : ctx.place.nodes.lookup "" = none) :
    let pass := turns hub ctx now n (Pass.start ctx s ids)
    let next := (turn hub ctx now pass).1
    (∀ p, next.picks = pass.picks ++ [p] → p.chosen.cls = .normal → ∀ h ∈ ctx.place.policy.headroom,
        min h.slots (fleetRoom hub pass.state ctx.place.nodes h.placement) ≤
          fleetRoom hub next.state ctx.place.nodes h.placement) ∧
    (∀ p, next.picks = pass.picks ++ [p] → p.granted = some false → p.chosen.reserved = false →
      ∃ st shape, workPlacement pass.state p.chosen = some shape ∧
        NodeFor hub ctx.place pass.state st shape p.chosen.cls p.chosen.node ∧
        ∀ node row q, room hub next.state node row q (tally next.state node).placed none =
          if node = p.chosen.node then
            room hub st node row q (satAdd u64Max (tally st node).placed 1) (some shape.envelope)
          else room hub st node row q (tally st node).placed none) ∧
    (∀ node row cap, ctx.place.nodes.lookup node = some row → placedCap row.ceiling row.report = some cap →
      (tally next.state node).placed ≤ max cap (tally pass.state node).placed) ∧
    HeadroomKept hub ctx s pass := by
  have hrun : PassInv hub ctx (turns hub ctx now n (Pass.start ctx s ids)) ∧
      Reserved (turns hub ctx now n (Pass.start ctx s ids)).ids
        (turns hub ctx now n (Pass.start ctx s ids)).state ∧
      HeadroomKept hub ctx s (turns hub ctx now n (Pass.start ctx s ids)) := by
    refine turns_invariant (P := fun pass => PassInv hub ctx pass ∧
      Reserved pass.ids pass.state ∧ HeadroomKept hub ctx s pass) ?_ n ?_
    · rintro pass ⟨hinv, hres, hkept⟩
      exact ⟨hinv.turn now, hres.turn hinv now, hkept.turn hinv hres hnodes now⟩
    · exact ⟨PassInv.start hub ctx htaken hnodup hfresh, hreserved, fun _ room _ => min_le_right _ _⟩
  dsimp only
  generalize turns hub ctx now n (Pass.start ctx s ids) = pass at hrun ⊢
  obtain ⟨hinv, hres, hkept⟩ := hrun
  have hturn := turn_commits hinv hres hnodes now
  dsimp only at hturn
  generalize turn hub ctx now pass = next at hturn ⊢
  refine ⟨fun p hp hnormal room hroom => ?_, fun p hp hgranted hown => ?_,
    fun node row cap hrow hcap => ?_, hkept⟩
  · rcases hturn with ⟨-, hlighter⟩ | ⟨q, hq, hcommits, -⟩
    · exact le_trans (min_le_right _ _) (hlighter.fleetRoom_le hub ctx.place.nodes room.placement)
    · rw [hp, append_cancel_left_eq, singleton_inj] at hq
      rw [← hq, hnormal] at hcommits
      exact hcommits.headroom hroom
  · rcases hturn with ⟨hsame, -⟩ | ⟨q, hq, -, hchecked⟩
    · rw [hp] at hsame
      simp at hsame
    · rw [hp, append_cancel_left_eq, singleton_inj] at hq
      rw [← hq] at hchecked
      obtain ⟨shape, hshape, st, hfor, hplaced⟩ := hchecked hgranted hown
      exact ⟨st, shape, hshape, hfor, fun node row q => hplaced.room_eq hub node row q⟩
  · rcases hturn with ⟨-, hlighter⟩ | ⟨q, -, hcommits, -⟩
    · exact le_trans (hlighter.placed_le node) (le_max_right _ _)
    · exact hcommits.placed_le hrow hcap

/-- Two nodes of two pools, one of which keeps its only slot. -/
def headroomCtx : ScheduleCtx where
  place := ⟨((∅ : Nodes).insert "n" (sampleNode 1)).insert "m" { sampleNode 2 with pools := ["q"] },
    fun _ => .ok (), samplePolicy [⟨sampleShape, 1⟩]⟩
  held := false
  relays := sampleRelays

/-- A waiting ticket of normal work for the other pool, with other tickets. -/
def headroomState (tickets : Table String Ticket) : State :=
  let other := { sampleTicket "a" sampleClient with placement := { sampleShape with pool := "q" } }
  { sampleState (tickets.insert "t" other) ∅ with
    links := ((∅ : Table String Link).insert "n" ⟨1, [], false, true⟩).insert "m" ⟨1, [], false, true⟩ }

theorem Reserved.of_no_jobs {ids : List String} {s : State} (h : s.jobs.entries = []) : Reserved ids s := by
  have hnone : ∀ id j, s.jobs.lookup id = some j → False := by
    intro id j hj
    have hmem := AList.mem_lookup_iff.mp hj
    rw [h] at hmem
    simp at hmem
  exact ⟨fun id j hj => (hnone id j hj).elim, fun id j r x hj => (hnone id j hj).elim,
    fun id j id' j' r hj => (hnone id j hj).elim, fun r _ id j hj => (hnone id j hj).elim⟩

/-- Normal work is placed, and the slot is kept. -/
theorem normal_work_keeps_headroom_one_slot :
    let pass := turns sampleHub headroomCtx 5 1 (Pass.start headroomCtx (headroomState ∅) ["r"])
    pass.picks.map (fun p => (p.chosen.id, p.chosen.cls, p.granted)) = [("t", .normal, some false)] ∧
      1 ≤ fleetRoom sampleHub pass.state headroomCtx.place.nodes sampleShape := by
  have hkept := (normal_work_keeps_headroom sampleHub headroomCtx 5 1 (headroomState ∅) ["r"]
    (.of_unadmitted (by decide)) (.of_no_jobs (by decide)) (by decide) (by decide)
    (by decide)).2.2.2 (by decide +kernel) ⟨sampleShape, 1⟩ (by decide)
  refine ⟨by decide +kernel, le_trans ?_ hkept⟩
  decide +kernel

/-- Work in production takes the slot, and normal work placed after it finds it taken. -/
theorem production_work_takes_headroom :
    let s := headroomState ((∅ : Table String Ticket).insert "u" (sampleTicket "relay" sampleRunner))
    let pass := arbitrate sampleHub headroomCtx 5 ["r1", "r2"] s
    fleetRoom sampleHub s headroomCtx.place.nodes sampleShape = 1 ∧
      pass.picks.map (fun p => (p.chosen.id, p.chosen.cls, p.granted)) =
        [("u", .production, some false), ("t", .normal, some false)] ∧
      fleetRoom sampleHub pass.state headroomCtx.place.nodes sampleShape = 0 := by
  decide +kernel

end Virtkit.Hub
