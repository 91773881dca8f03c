import Mathlib.Data.List.Perm.Subperm
import Virtkit.Fleet.RolloutRuns

/-!
# The waves of a plan

A plan names every node it was made for once, each pending. With canaries its wave 0 has one node
of each profile; every other wave has at most a batch of nodes, up to the last number of a wave.
-/

namespace Virtkit.Fleet

open Virtkit.Common List Bool RolloutRow

/-- What picking canaries keeps: their profiles differ, there are none unless asked for, and
another node waits only behind a canary. -/
structure Picked (canaries : Bool) (nodes : List Planned) (acc : List Planned × List Planned) : Prop where
  perm : (acc.1 ++ acc.2).Perm nodes
  profiles : (acc.1.map (·.2.2)).Nodup
  none : canaries = false → acc.1 = []
  behind : canaries = true → acc.1 = [] → acc.2 = []

/-- A node is picked as a canary if none of its profile was. -/
theorem Picked.step {canaries : Bool} {nodes : List Planned} {acc : List Planned × List Planned}
    (h : Picked canaries nodes acc) (p : Planned) : Picked canaries (nodes ++ [p]) (pickCanary canaries acc p) := by
  unfold pickCanary
  split_ifs with hc
  · rw [and_eq_true, not_eq_true', contains_eq_mem, decide_eq_false_iff_not] at hc
    refine ⟨?_, ?_, fun hf => ?_, fun _ hnil => ?_⟩
    · refine (List.Perm.trans ?_ (h.perm.append_right [p]))
      rw [append_assoc, append_assoc]
      exact (perm_append_comm).append_left acc.1
    · rw [map_append, nodup_append]
      refine ⟨h.profiles, pairwise_singleton _ _, ?_⟩
      rintro a ha b hb rfl
      rw [mem_singleton.mp hb] at ha
      exact hc.2 ha
    · rw [hc.1] at hf
      nomatch hf
    · exact absurd hnil (append_ne_nil_of_right_ne_nil _ (cons_ne_nil _ _))
  · refine ⟨?_, h.profiles, h.none, fun ht hnil => ?_⟩
    · rw [← append_assoc]
      exact h.perm.append_right [p]
    · rw [and_eq_true, not_eq_true'] at hc
      exact absurd ⟨ht, by rw [hnil]; rfl⟩ hc

theorem picked_foldl {canaries : Bool} (nodes before : List Planned)
    (acc : List Planned × List Planned) (h : Picked canaries before acc) :
    Picked canaries (before ++ nodes) (nodes.foldl (pickCanary canaries) acc) := by
  induction nodes generalizing before acc with
  | nil =>
    rw [append_nil]
    exact h
  | cons p nodes ih =>
    rw [foldl_cons, append_cons]
    exact ih _ _ (h.step p)

theorem picked_pickCanaries (canaries : Bool) (nodes : List Planned) :
    Picked canaries nodes (pickCanaries canaries nodes) :=
  picked_foldl nodes [] ([], []) ⟨.refl _, nodup_nil, fun _ => rfl, fun _ _ => rfl⟩

theorem countP_div_le (length size quotient : ℕ) (hsize : 0 < size) :
    (List.range length).countP (fun i => i / size = quotient) ≤ size := by
  rw [countP_eq_length_filter]
  have hsub : (List.range length).filter (fun i => i / size = quotient) ⊆ List.range' (quotient * size) size := by
    intro i hi
    have hq : i / size = quotient := by simpa using (mem_filter.mp hi).2
    rw [mem_range'_1]
    have hdiv := Nat.div_add_mod i size
    have hmod := Nat.mod_lt i hsize
    rw [hq, mul_comm] at hdiv
    omega
  have hle := (subperm_of_subset (nodup_range.filter _) hsub).length_le
  rwa [length_range'] at hle

/-- A batch has no more nodes than its size. -/
theorem countP_batches_le (offset batch : ℕ) (rest : List Planned) {wave : ℕ} (hwave : wave < u32Max) :
    (batches offset batch rest).countP (fun n => n.wave = wave) ≤ max batch 1 := by
  have hle : (batches offset batch rest).countP (fun n => n.wave = wave) ≤
      (rest.zipIdx.map Prod.snd).countP fun i => i / max batch 1 = wave - offset := by
    rw [batches, countP_map, countP_map]
    apply countP_mono_left
    rintro ⟨p, i⟩ - hw
    simp only [Function.comp_apply, RolloutNode.planned, satAdd, decide_eq_true_eq] at hw ⊢
    generalize u32Max = cap at hw hwave
    generalize i / max batch 1 = quotient at hw ⊢
    omega
  rw [zipIdx_map_snd, ← range_eq_range'] at hle
  exact hle.trans (countP_div_le _ _ _ (by omega))

theorem wave_ne_zero_of_mem_batches {batch : ℕ} {rest : List Planned} {n : RolloutNode}
    (h : n ∈ batches 1 batch rest) : n.wave ≠ 0 := by
  rw [batches, mem_map] at h
  obtain ⟨e, -, rfl⟩ := h
  simp only [RolloutNode.planned, satAdd, u32Max]
  generalize e.2 / max batch 1 = quotient
  omega

section

variable (nodes : List Planned) (batch : ℕ)
include nodes batch

theorem plan_eq (canaries : Bool) :
    ∃ first rest, Picked canaries (nodes.insertionSort fun a b => plannedLE a b) (first, rest) ∧
      plan nodes batch canaries = (first.map fun p => .planned p 0) ++
        batches (if canaries then 1 else 0) batch rest := by
  have hp := picked_pickCanaries canaries (nodes.insertionSort fun a b => plannedLE a b)
  unfold plan
  generalize pickCanaries canaries (nodes.insertionSort fun a b => plannedLE a b) = picked at hp ⊢
  obtain ⟨first, rest⟩ := picked
  refine ⟨first, rest, hp, ?_⟩
  cases canaries with
  | false => rfl
  | true =>
    cases first with
    | nil =>
      have hrest : rest = [] := hp.behind rfl rfl
      rw [hrest]
      rfl
    | cons p first => rfl

/-- A plan has each node once. -/
theorem plan_ids (canaries : Bool) : ((plan nodes batch canaries).map RolloutNode.id).Perm (nodes.map Prod.fst) := by
  obtain ⟨first, rest, hp, heq⟩ := plan_eq nodes batch canaries
  have hbatch : ∀ offset, (batches offset batch rest).map RolloutNode.id = rest.map Prod.fst := by
    intro offset
    rw [batches, map_map, ← zipIdx_map_fst 0 rest, map_map, zipIdx_map_fst]
    rfl
  have hids : (plan nodes batch canaries).map RolloutNode.id = (first ++ rest).map Prod.fst := by
    rw [heq, map_append, hbatch, map_append, map_map]
    rfl
  rw [hids]
  exact (hp.perm.trans (perm_insertionSort _ nodes)).map _

/-- Canaries are of different profiles. -/
theorem plan_canary_profiles :
    (((plan nodes batch true).filter fun n => n.wave = 0).map RolloutNode.profile).Nodup := by
  obtain ⟨first, rest, hp, heq⟩ := plan_eq nodes batch true
  have hbatch : (batches 1 batch rest).filter (fun n => n.wave = 0) = [] := by
    rw [filter_eq_nil_iff]
    intro n hn
    simpa using wave_ne_zero_of_mem_batches hn
  have hfirst : (first.map fun p => RolloutNode.planned p 0).filter (fun n => n.wave = 0) =
      first.map fun p => RolloutNode.planned p 0 := by
    rw [filter_eq_self]
    intro n hn
    obtain ⟨p, -, rfl⟩ := mem_map.mp hn
    rfl
  rw [heq, if_pos rfl, filter_append, hbatch, hfirst, append_nil, map_map]
  exact hp.profiles

theorem plan_wave_le (canaries : Bool) {wave : ℕ} (hwave : wave < u32Max) (hcanary : ¬(canaries = true ∧ wave = 0)) :
    (plan nodes batch canaries).countP (fun n => n.wave = wave) ≤ max batch 1 := by
  obtain ⟨first, rest, hp, heq⟩ := plan_eq nodes batch canaries
  have hfirst : (first.map fun p => RolloutNode.planned p 0).countP (fun n => n.wave = wave) = 0 := by
    cases canaries with
    | false =>
      have hnil : first = [] := hp.none rfl
      rw [hnil]
      rfl
    | true =>
      rw [countP_eq_zero]
      intro n hn
      obtain ⟨p, -, rfl⟩ := mem_map.mp hn
      simpa [RolloutNode.planned, eq_comm] using hcanary
  rw [heq, countP_append, hfirst, Nat.zero_add]
  exact countP_batches_le _ _ _ hwave

end

/-!
## Rollouts created from a plan

A rollout created from a plan over distinct nodes goes wave by wave within its failure budget: the
plan bounds how many nodes are pending in a wave, and over the rollout's life only these update.
-/

/-- The nodes of a rollout whose update is under way. -/
def RolloutRow.updatingNodes (row : RolloutRow) : List RolloutNode :=
  row.nodes.filter fun n => n.status.isUpdating

theorem Moved.filter_sublist {ns ns' : List RolloutNode} (h : Moved ns ns') {p q : RolloutNode → Bool}
    (hpq : ∀ n n' : RolloutNode, n.Moves n' → q n' = true → p n = true) :
    ((ns'.filter q).map RolloutNode.profile).Sublist ((ns.filter p).map RolloutNode.profile) := by
  induction ns generalizing ns' with
  | nil =>
    rw [length_eq_zero_iff.mp h.length]
    exact List.Sublist.slnil
  | cons n ns ih =>
    cases ns' with
    | nil => nomatch h.length
    | cons n' ns' =>
      have htail : Moved ns ns' := by
        refine ⟨Nat.succ.inj h.length, fun i m hm => ?_⟩
        exact h.node (i + 1) m hm
      obtain ⟨m, hm, hmove⟩ := h.node 0 n rfl
      rw [getElem?_cons_zero, Option.some.injEq] at hm
      subst hm
      have hrest := ih htail
      rw [filter_cons, filter_cons]
      split_ifs with hq hp hp
      · rw [map_cons, map_cons, hmove.profile_eq]
        exact hrest.cons_cons _
      · exact absurd (hpq n n' hmove hq) hp
      · exact hrest.cons _
      · exact hrest

section Created

variable {release version : String} {batch : ℕ} {canaries : Bool}
  {maxFailures nodeTimeoutSecs drainTimeoutSecs : ℕ} {force : Bool} {toDo : List Planned}
  {plannedVk : String → Option String} {skipped : List (Planned × String)} {start : RolloutRow}
  (hstart : start = .created release version batch canaries maxFailures nodeTimeoutSecs
    drainTimeoutSecs force toDo plannedVk skipped)
include hstart

theorem RolloutRow.not_updating_created {n : RolloutNode} (hn : n ∈ start.nodes) : n.status.isUpdating = false := by
  subst hstart
  obtain ⟨first, rest, -, heq⟩ := plan_eq toDo batch canaries
  simp only [RolloutRow.created, heq, map_append, mem_append, mem_map] at hn
  rcases hn with (⟨_, ⟨p, -, rfl⟩, rfl⟩ | ⟨_, hm, rfl⟩) | ⟨e, -, rfl⟩
  · rfl
  · obtain ⟨e, -, rfl⟩ := mem_map.mp hm
    rfl
  · rfl

/-- A new rollout is orderly. -/
theorem RolloutRow.orderly_created : start.Orderly := by
  have hnone := fun n => not_updating_created hstart (n := n)
  subst hstart
  refine ⟨fun n hn hu => ?_, fun _ => Nat.zero_le _, Nat.zero_le _, nofun⟩
  rw [hnone n hn] at hu
  nomatch hu

theorem RolloutRow.nodup_created (hids : (toDo.map Prod.fst ++ skipped.map fun e => e.1.1).Nodup) :
    (start.nodes.map RolloutNode.id).Nodup := by
  subst hstart
  have hplan := plan_ids toDo batch canaries
  simp only [RolloutRow.created, map_append, map_map, Function.comp_def]
  exact (hplan.append_right _).nodup_iff.mpr hids

theorem RolloutRow.pending_created (wave : ℕ) :
    (start.nodes.filter fun n => n.status.isOpen && n.wave = wave).map RolloutNode.profile =
      ((plan toDo batch canaries).filter fun n => n.status.isOpen && n.wave = wave).map RolloutNode.profile := by
  subst hstart
  have hskipped : (skipped.map fun e => RolloutNode.leftOut e.1 e.2).filter
      (fun n => n.status.isOpen && n.wave = wave) = [] := by
    rw [filter_eq_nil_iff]
    intro n hn
    obtain ⟨e, -, rfl⟩ := mem_map.mp hn
    simp [RolloutNode.leftOut, NodeStatus.isOpen]
  simp only [RolloutRow.created, filter_append, hskipped, append_nil, filter_map, map_map, Function.comp_def]

/-- How many nodes of a rollout update at once, all of one wave: one of each profile in the wave of
canaries, and a batch in any other. -/
theorem RolloutRow.updating_le (events : List RolloutEvent) {wave : ℕ}
    (hsame : ∀ m ∈ (start.run events).1.nodes, m.status.isUpdating = true → m.wave = wave) (hwave : wave < u32Max) :
    if canaries = true ∧ wave = 0 then ((start.run events).1.updatingNodes.map RolloutNode.profile).Nodup
    else (start.run events).1.updatingNodes.length ≤ max batch 1 := by
  have hmoved := start.moved_run events
  have hpend := pending_created hstart wave
  have hfilter : (start.run events).1.updatingNodes =
      (start.run events).1.nodes.filter fun m => m.status.isUpdating && m.wave = wave := by
    apply filter_congr
    intro m hm
    cases hmu : m.status.isUpdating with
    | false => rfl
    | true => simp [hsame m hm hmu]
  have hsub := hmoved.filter_sublist (p := fun m => m.status.isOpen && m.wave = wave)
    (q := fun m => m.status.isUpdating && m.wave = wave) fun m m' hmove hm' => by
      rw [and_eq_true] at hm' ⊢
      refine ⟨?_, by rw [← hmove.wave_eq]; exact hm'.2⟩
      by_contra hended
      rw [not_eq_true] at hended
      rw [hmove.eq_of_ended hended] at hm'
      rw [NodeStatus.isOpen_of_isUpdating hm'.1] at hended
      nomatch hended
  rw [← hfilter, hpend] at hsub
  have hsub' : ((start.run events).1.updatingNodes.map RolloutNode.profile).Sublist
      (((plan toDo batch canaries).filter fun m => m.wave = wave).map RolloutNode.profile) := by
    refine hsub.trans (List.Sublist.map _ ?_)
    exact monotone_filter_right _ fun m hm => (and_eq_true _ _ ▸ hm).2
  split_ifs with hcanary
  · rw [hcanary.1, hcanary.2] at hsub'
    exact hsub'.nodup (plan_canary_profiles toDo batch)
  · have hle := hsub'.length_le
    rw [length_map, length_map, ← countP_eq_length_filter] at hle
    exact hle.trans (plan_wave_le toDo batch canaries hwave hcanary)

/-- A rollout goes wave by wave within its failure budget. -/
theorem rollout_goes_wave_by_wave (hids : (toDo.map Prod.fst ++ skipped.map fun e => e.1.1).Nodup)
    (events : List RolloutEvent) (event : RolloutEvent) :
    let row := (start.run events).1
    let next := row.apply event
    -- The update is issued while the rollout runs, to nodes whose earlier waves have ended.
    (∀ id ∈ next.2, row.state = .running ∧ ∃ n ∈ next.1.nodes, n.id = id ∧ n.status.isUpdating = true ∧
      ∀ m ∈ next.1.nodes, m.wave < n.wave → m.status.isOpen = false) ∧
    -- The nodes that update at once are of one wave, and a batch or one of each profile.
    (∀ n ∈ row.nodes, ∀ m ∈ row.nodes, n.status.isUpdating = true →
      m.status.isUpdating = true → m.wave = n.wave) ∧
    (∀ n ∈ row.nodes, n.status.isUpdating = true → n.wave < u32Max →
      if canaries = true ∧ n.wave = 0 then (row.updatingNodes.map RolloutNode.profile).Nodup
      else row.updatingNodes.length ≤ max batch 1) ∧
    -- A node is issued the update once.
    (start.run (events ++ [event])).2.Nodup ∧
    -- Once a node fails, nothing is issued until an operator resumes.
    (failedCount next.1.nodes ≠ failedCount row.nodes → next.2 = [] ∧
      ∀ later, (∀ e ∈ later, RolloutEvent.resumes e = false) → (next.1.run later).2 = []) ∧
    -- The failures are those of the rollout while it was to finish, up to the first past its
    -- budget, where it is aborted for good.
    row.failures = min (failedWhileActive start events) (min (maxFailures + 1) u32Max) ∧
    (maxFailures < row.failures → row.state.isAborted = true ∧
      ∀ later, (row.run later).1.state = row.state ∧ (row.run later).2 = []) ∧
    -- It is done only with every node ended, and an ended node stays as it is.
    (row.state = .done → ∀ m ∈ row.nodes, m.status.isOpen = false) ∧
    (∀ (i : ℕ) (n : RolloutNode), row.nodes[i]? = some n → n.status.isOpen = false →
      next.1.nodes[i]? = some n) := by
  intro row next
  have hstartOrderly := orderly_created hstart
  have horderly : row.Orderly := hstartOrderly.run events
  have hmax : row.maxFailures = maxFailures := by
    rw [maxFailures_run, hstart]
    rfl
  have hwaves : ∀ n ∈ row.nodes, ∀ m ∈ row.nodes, n.status.isUpdating = true →
      m.status.isUpdating = true → m.wave = n.wave := by
    intro n hn m hm hu hu'
    have hopen := NodeStatus.isOpen_of_isUpdating hu
    have hopen' := NodeStatus.isOpen_of_isUpdating hu'
    rcases lt_trichotomy m.wave n.wave with hlt | heq | hlt
    · rw [horderly.waves n hn hu m hm hlt] at hopen'
      cases hopen'
    · exact heq
    · rw [horderly.waves m hm hu' n hn hlt] at hopen
      cases hopen
  refine ⟨?_, hwaves, ?_, ?_, ?_, ?_, ?_, horderly.done, ?_⟩
  · intro id hid
    obtain ⟨hrun, -, i, n, n', -, hn', hidn, -, hu, hearlier⟩ := row.issued_apply event hid
    exact ⟨hrun, n', mem_of_getElem? hn', hidn, hu, hearlier⟩
  · intro n hn hu hwave
    exact updating_le hstart events (fun m hm hu' => hwaves n hn m hm hu hu') hwave
  · exact (start.issued_run (events ++ [event]) (nodup_created hstart hids)).1
  · intro hfailed
    obtain ⟨hs, hnil⟩ := row.halted_of_failed event hfailed
    exact ⟨hnil, fun later hlater => (next.1.halted_run later hs hlater).2⟩
  · have hnone : start.failures = 0 := by rw [hstart]; rfl
    have hbudget : start.maxFailures = maxFailures := by rw [hstart]; rfl
    rw [hstartOrderly.failures_run events, blamedFailures, hnone, hbudget, Nat.zero_add]
  · intro hpast
    have haborted : row.state.isAborted = true := by
      by_contra hna
      rw [not_eq_true] at hna
      have hle := horderly.budget hna
      omega
    refine ⟨haborted, fun later => row.over_run later ?_⟩
    cases hs : row.state with
    | aborted reason => rfl
    | _ =>
      rw [hs] at haborted
      cases haborted
  · intro i n hn hended
    obtain ⟨n', hn', hmove⟩ := (row.moved_apply event).node i n hn
    rw [hn', hmove.eq_of_ended hended]

end Created

/-- Two nodes of one batch that refuse the update. -/
def refusedFacts (command : String) : String → Option Facts := fun _ =>
  some ⟨some .ready, some "1.0.0", none,
    if command = "" then none else some (.refused "no"), none, true, some 2, false⟩

/-- A rollout of two nodes in one batch that absorbs no failure. -/
def refusedRollout : RolloutRow :=
  .created "sha" "1.1.0" 2 false 0 1800 14400 false
    [("node-a", "a", "x86"), ("node-b", "b", "x86")] (fun _ => none) []

/-- Both nodes are issued the update, and both refuse it. -/
def refusedEvents : List RolloutEvent :=
  [.advance (refusedFacts "") 10 0 true ["c1", "c2"], .advance (refusedFacts "c1") 20 0 true []]

/-- Both nodes fail while the rollout runs, and one of them is counted. -/
theorem failures_miss_a_node : (refusedRollout.run refusedEvents).2 = ["node-a", "node-b"] ∧
      ((refusedRollout.run refusedEvents).1.nodes.map (·.status.isFailed)) = [true, true] ∧
      failedWhileActive refusedRollout refusedEvents = 2 ∧
      (refusedRollout.run refusedEvents).1.failures = 1 := by
  decide +kernel

/-- The bounds of that rollout over its life. -/
theorem rollout_goes_wave_by_wave_refused :
    (refusedRollout.run (refusedEvents ++ [.steer .resume "admin"])).2.Nodup :=
  (rollout_goes_wave_by_wave (Eq.refl refusedRollout) (by decide) refusedEvents
    (.steer .resume "admin")).2.2.2.1

end Virtkit.Fleet
