import Virtkit.Fleet.RolloutWaves

/-!
# One advance of a rollout

What the store carries out of a step turns the nodes issued the update into updating ones. With
what judging, blaming and going over the waves do, this gives the one statement about an advance
from which all that holds over a rollout's life is derived.
-/

namespace Virtkit.Fleet

open Virtkit.Common List Option

/-- What carrying out effects comes to: some of the nodes they issue to are updating, and these
are the nodes issued. -/
structure Carried (row : RolloutRow) (effects : List Effect) (row' : RolloutRow)
    (issued : List String) : Prop where
  kept : row' = { row with nodes := row'.nodes }
  length : row'.nodes.length = row.nodes.length
  node : ∀ (i : ℕ) (n : RolloutNode), row.nodes[i]? = some n → ∃ n', row'.nodes[i]? = some n' ∧
    (n' = n ∨ i ∈ issues effects ∧ ∃ status, status.isUpdating = true ∧ n' = { n with status := status })
  updating : ∀ i ∈ issues effects, ∀ n, row'.nodes[i]? = some n → n.status.isUpdating = true
  issued : issued = (issues effects).filterMap fun i => row.nodes[i]?.map RolloutNode.id

theorem Carried.nil (row : RolloutRow) : Carried row [] row [] :=
  ⟨rfl, rfl, fun _ n hn => ⟨n, hn, .inl rfl⟩, fun _ hi => absurd hi not_mem_nil, rfl⟩

variable {row row' : RolloutRow} {effects : List Effect} {issued : List String}

theorem Carried.skip {effect : Effect} (hi : issues (effect :: effects) = issues effects)
    (h : Carried row effects row' issued) : Carried row (effect :: effects) row' issued := by
  obtain ⟨hkept, hlen, hnode, hupd, hissued⟩ := h
  rw [← hi] at hnode hupd hissued
  exact ⟨hkept, hlen, hnode, hupd, hissued⟩

theorem Carried.beyond {index : ℕ} {resume : NodeState} (hi : row.nodes[index]? = none)
    (h : Carried row effects row' issued) : Carried row (.issue index resume :: effects) row' issued := by
  have hissues : issues (.issue index resume :: effects) = index :: issues effects := rfl
  refine ⟨h.kept, h.length, ?_, ?_, ?_⟩
  · intro i n hn
    obtain ⟨n', hn', hsame⟩ := h.node i n hn
    exact ⟨n', hn', hsame.imp id fun hs => ⟨by rw [hissues]; exact mem_cons_of_mem _ hs.1, hs.2⟩⟩
  · intro i hmem n hn
    rw [hissues] at hmem
    rcases mem_cons.mp hmem with rfl | hmem
    · have hlen := getElem?_eq_none_iff.mp hi
      rw [← h.length] at hlen
      rw [getElem?_eq_none hlen] at hn
      nomatch hn
    · exact h.updating i hmem n hn
  · rw [hissues, filterMap_cons, hi]
    exact h.issued

theorem Carried.cons {index : ℕ} {resume : NodeState} {n : RolloutNode} {status : NodeStatus}
    (hn : row.nodes[index]? = some n) (hs : status.isUpdating = true)
    (h : Carried { row with nodes := row.nodes.set index { n with status := status } } effects row'
      issued) : Carried row (.issue index resume :: effects) row' (n.id :: issued) := by
  have hissues : issues (.issue index resume :: effects) = index :: issues effects := rfl
  have hlt := (List.getElem?_eq_some_iff.mp hn).1
  have hset : ∀ i, (row.nodes.set index { n with status := status })[i]? =
      if index = i then some { n with status := status } else row.nodes[i]? := by
    intro i
    rw [List.getElem?_set]
    split_ifs with heq <;> rfl
  refine ⟨h.kept, by rw [h.length, List.length_set], ?_, ?_, ?_⟩
  · intro i m hm
    by_cases hi : index = i
    · subst hi
      rw [hn, some.injEq] at hm
      subst hm
      obtain ⟨n', hn', hsame⟩ := h.node index { n with status := status } (by rw [hset, if_pos rfl])
      refine ⟨n', hn', .inr ⟨by rw [hissues]; exact List.mem_cons_self, ?_⟩⟩
      rcases hsame with rfl | ⟨-, status', hs', rfl⟩
      · exact ⟨status, hs, rfl⟩
      · exact ⟨status', hs', rfl⟩
    · obtain ⟨n', hn', hsame⟩ := h.node i m (by rw [hset, if_neg hi]; exact hm)
      exact ⟨n', hn', hsame.imp id fun hs => ⟨by rw [hissues]; exact List.mem_cons_of_mem _ hs.1, hs.2⟩⟩
  · intro i hmem m hm
    rw [hissues] at hmem
    rcases List.mem_cons.mp hmem with rfl | hmem
    · obtain ⟨n', hn', hsame⟩ := h.node i { n with status := status } (by rw [hset, if_pos rfl])
      rw [hm, some.injEq] at hn'
      subst hn'
      rcases hsame with rfl | ⟨-, status', hs', rfl⟩
      · exact hs
      · exact hs'
    · exact h.updating i hmem m hm
  · rw [hissues, List.filterMap_cons, hn, h.issued]
    congr 1
    apply List.filterMap_congr
    intro i _
    rw [hset]
    split_ifs with heq
    · subst heq
      rw [hn]
      rfl
    · rfl

/-- Carrying out effects one by one is to carry out the rows they make. -/
theorem carried_of_foldlM {release : Bool} {now : ℕ} (effects : List Effect) (row : RolloutRow)
    (ids before : List String) {ids' after : List String}
    (h : effects.foldlM (carryOut release now) (row, ids, before) = some (row', ids', after)) :
    ∃ issued, after = before ++ issued ∧ Carried row effects row' issued := by
  induction effects generalizing row ids before with
  | nil =>
    simp only [foldlM_nil, Option.pure_def, Option.some.injEq, Prod.mk.injEq] at h
    obtain ⟨rfl, rfl, rfl⟩ := h
    exact ⟨[], (append_nil _).symm, .nil row⟩
  | cons effect effects ih =>
    rw [foldlM_cons, Option.bind_eq_bind, Option.bind_eq_some_iff] at h
    obtain ⟨⟨row₁, ids₁, before₁⟩, hstep, hrest⟩ := h
    cases effect with
    | audit node event =>
      obtain ⟨rfl, rfl, rfl⟩ := hstep
      obtain ⟨issued, hafter, hc⟩ := ih _ _ _ hrest
      exact ⟨issued, hafter, hc.skip rfl⟩
    | issue index resume =>
      simp only [carryOut] at hstep
      split_ifs at hstep with hrel
      cases hn : row.nodes[index]? with
      | none =>
        simp only [hn, Option.some.injEq, Prod.mk.injEq] at hstep
        obtain ⟨rfl, rfl, rfl⟩ := hstep
        obtain ⟨issued, hafter, hc⟩ := ih _ _ _ hrest
        exact ⟨issued, hafter, hc.beyond hn⟩
      | some n =>
        cases ids with
        | nil =>
          simp only [hn] at hstep
          nomatch hstep
        | cons command ids =>
          simp only [hn, Option.some.injEq, Prod.mk.injEq] at hstep
          obtain ⟨rfl, rfl, rfl⟩ := hstep
          obtain ⟨issued, hafter, hc⟩ := ih _ _ _ hrest
          refine ⟨n.id :: issued, by rw [hafter, append_assoc]; rfl, ?_⟩
          exact hc.cons hn rfl

def RolloutState.isAborted : RolloutState → Bool
  | .aborted _ => true
  | _ => false

/-- What one advance does: nodes move on, failures are counted within the budget, and the update is
issued only by a running rollout without new failures, to pending nodes whose earlier waves have
ended. -/
structure Advanced (row row' : RolloutRow) (issued : List String) : Prop where
  kept : row' = { row with state := row'.state, failures := row'.failures, nodes := row'.nodes }
  moved : Moved row.nodes row'.nodes
  inactive : row.state.active = false → row'.state = row.state ∧ row'.failures = row.failures
  counted : row.state.active = true → row.failures ≤ row.maxFailures → row.failures ≤ u32Max →
    row'.failures = blamedFailures row (failedCount row'.nodes - failedCount row.nodes) ∧
      (row'.state.isAborted = false → row'.failures ≤ row.maxFailures)
  halted : row.state ≠ .running ∨ failedCount row'.nodes ≠ failedCount row.nodes →
    row'.state ≠ .running ∧ issued = []
  done : row'.state = .done → row.state = .done ∨ ∀ m ∈ row'.nodes, m.status.isOpen = false
  updating : ∀ (i : ℕ) (n' : RolloutNode), row'.nodes[i]? = some n' → n'.status.isUpdating = true →
      (∃ n, row.nodes[i]? = some n ∧ n.status.isUpdating = true) ∨
        ∀ m ∈ row'.nodes, m.wave < n'.wave → m.status.isOpen = false
  toPending : ∀ id ∈ issued, row'.state = .running ∧ ∃ (i : ℕ) (n n' : RolloutNode),
    row.nodes[i]? = some n ∧ row'.nodes[i]? = some n' ∧ n'.id = id ∧ n.status = .pending ∧
      n'.status.isUpdating = true ∧ ∀ m ∈ row'.nodes, m.wave < n'.wave → m.status.isOpen = false
  nodup : (row.nodes.map RolloutNode.id).Nodup → issued.Nodup

section Stages

variable {row start blamed row' : RolloutRow} {effects : List Effect}
  {r : RolloutRow × List Effect} {issued : List String}

/-- A wave moves no node back. -/
theorem Waved.moved (h : Waved row r) : Moved row.nodes r.1.nodes where
  length := h.length
  node i n hn := by
    obtain ⟨n', hn', rfl | ⟨hp, reason, rfl⟩⟩ := h.node i n hn
    · exact ⟨n', hn', .refl n'⟩
    · exact ⟨_, hn', .of_open (by rw [hp]; rfl) nofun⟩

theorem Waved.failedCount_eq (h : Waved row r) : failedCount r.1.nodes = failedCount row.nodes := by
  refine failedCount_congr h.length fun i n hn => ?_
  obtain ⟨n', hn', rfl | ⟨hp, reason, rfl⟩⟩ := h.node i n hn
  · exact ⟨n', hn', rfl⟩
  · exact ⟨_, hn', by rw [hp]; rfl⟩

theorem Waved.unskipped (h : Waved row r) {i : ℕ} {n' : RolloutNode} (hn' : r.1.nodes[i]? = some n')
    (hs : ∀ reason, n'.status ≠ .skipped reason) : row.nodes[i]? = some n' := by
  obtain ⟨n, hn, -⟩ := h.moved.source hn'
  obtain ⟨m, hm, hsame⟩ := h.node i n hn
  obtain rfl := some.inj (hn'.symm.trans hm)
  rcases hsame with rfl | ⟨-, reason, rfl⟩
  · exact hn
  · exact absurd rfl (hs reason)

variable (hw : Waved row r) (hc : Carried r.1 r.2 row' issued)
include hw hc

theorem Carried.moved : Moved r.1.nodes row'.nodes where
  length := hc.length
  node i n hn := by
    obtain ⟨n', hn', rfl | ⟨hi, status, hs, rfl⟩⟩ := hc.node i n hn
    · exact ⟨n', hn', .refl n'⟩
    · obtain ⟨m, hm, hp, -⟩ := hw.issued i hi
      rw [hn, some.injEq] at hm
      subst hm
      refine ⟨_, hn', .of_open (by rw [hp]; rfl) ?_⟩
      rintro rfl
      nomatch hs

/-- Carrying out effects fails no node. -/
theorem Carried.failedCount_eq : failedCount row'.nodes = failedCount r.1.nodes := by
  refine failedCount_congr hc.length fun i n hn => ?_
  obtain ⟨n', hn', rfl | ⟨hi, status, hs, rfl⟩⟩ := hc.node i n hn
  · exact ⟨n', hn', rfl⟩
  · obtain ⟨m, hm, hp, -⟩ := hw.issued i hi
    obtain rfl := some.inj (hn.symm.trans hm)
    obtain ⟨command, since, resume, drainedAt, rfl⟩ := NodeStatus.exists_of_isUpdating hs
    exact ⟨_, hn', by rw [hp]; rfl⟩

omit hw in
theorem Carried.of_quiet (hq : issues r.2 = []) : row' = r.1 ∧ issued = [] := by
  have hnodes : row'.nodes = r.1.nodes := by
    apply ext_getElem?
    intro i
    cases hn : r.1.nodes[i]? with
    | none =>
      have hi : row'.nodes.length ≤ i := by rw [hc.length]; exact getElem?_eq_none_iff.mp hn
      rw [getElem?_eq_none hi]
    | some n =>
      obtain ⟨n', hn', rfl | ⟨hi, -⟩⟩ := hc.node i n hn
      · exact hn'
      · rw [hq] at hi
        exact absurd hi not_mem_nil
  refine ⟨by rw [hc.kept, hnodes], ?_⟩
  rw [hc.issued, hq]
  rfl

end Stages

section Judged

variable (row : RolloutRow) (facts : String → Option Facts) (now notBefore : ℕ)

/-- A row with its updates under way judged, and what is to be written of that. -/
def RolloutRow.judgeAll : RolloutRow × List Effect :=
  let judged := row.nodes.map (RolloutNode.judged row.update facts now notBefore)
  ({ row with nodes := judged.map Prod.fst }, judged.flatMap (·.2.1))

/-- The failures found as a row's updates under way are judged. -/
def RolloutRow.failedNow : List String :=
  (row.nodes.map (RolloutNode.judged row.update facts now notBefore)).filterMap (·.2.2)

/-- A row judged, and blamed for the failures found. -/
def RolloutRow.blameAll : RolloutRow × List Effect :=
  (row.failedNow facts now notBefore).foldl RolloutRow.blame (row.judgeAll facts now notBefore)

theorem RolloutRow.getElem?_judgeAll (i : ℕ) : (row.judgeAll facts now notBefore).1.nodes[i]? =
      row.nodes[i]?.map fun n => (n.judged row.update facts now notBefore).1 := by
  simp only [RolloutRow.judgeAll, List.map_map, getElem?_map]
  rfl

theorem RolloutRow.moved_judgeAll : Moved row.nodes (row.judgeAll facts now notBefore).1.nodes :=
  .of_map (fun _ n => (n.judged row.update facts now notBefore).1)
    (fun _ n => n.judged_moves row.update facts now notBefore)
    (row.getElem?_judgeAll facts now notBefore)

theorem RolloutRow.quiet_judgeAll : ∀ e ∈ (row.judgeAll facts now notBefore).2, e.isIssue = false := by
  intro e he
  simp only [RolloutRow.judgeAll, flatMap_map, mem_flatMap] at he
  obtain ⟨n, -, he⟩ := he
  exact n.judged_quiet row.update facts now notBefore e he

/-- A step is a wave after the blame, and nothing if the rollout does not run. -/
theorem RolloutRow.step_waved : Waved (row.blameAll facts now notBefore).1 (row.step facts now notBefore) ∧
    ((row.blameAll facts now notBefore).1.state ≠ .running →
      row.step facts now notBefore = row.blameAll facts now notBefore ∧
        issues (row.step facts now notBefore).2 = []) := by
  have hb : Blamed (row.judgeAll facts now notBefore) (row.blameAll facts now notBefore) := blamed_foldl _ _
  have hquiet := hb.quiet (row.quiet_judgeAll facts now notBefore)
  have hstep : row.step facts now notBefore =
      if (row.blameAll facts now notBefore).1.state ≠ .running then row.blameAll facts now notBefore
      else waves facts (row.nodes.length + 1) (row.blameAll facts now notBefore) := rfl
  have hlen : (row.blameAll facts now notBefore).1.nodes.length = row.nodes.length := by
    rw [hb.kept]
    exact (row.moved_judgeAll facts now notBefore).length
  rw [hstep]
  generalize row.blameAll facts now notBefore = blamed at hquiet hlen ⊢
  split_ifs with hs
  · exact ⟨.stay hquiet, fun _ => ⟨rfl, issues_eq_nil hquiet⟩⟩
  · refine ⟨waved_waves facts _ _ _ ?_ hquiet, fun h => absurd h hs⟩
    have hle : openCount blamed.1.nodes ≤ blamed.1.nodes.length := countP_le_length
    omega

end Judged

section Assembly

variable {row row' : RolloutRow} {start blamed r : RolloutRow × List Effect} {whats issued : List String}

/-- The state that an advance ends in. -/
theorem state_of_stages (hw : Waved blamed.1 r)
    (hstop : blamed.1.state ≠ .running → r = blamed ∧ issues r.2 = []) (hc : Carried r.1 r.2 row' issued) :
    row'.state = blamed.1.state ∨ blamed.1.state = .running ∧ row'.state = .done ∧ issued = [] ∧
      ∀ m ∈ row'.nodes, m.status.isOpen = false := by
  have hstate : row'.state = r.1.state := by rw [hc.kept]
  by_cases hrun : blamed.1.state = .running
  · rcases hw.state with hs | ⟨hs, hq, hall⟩
    · exact .inl (hstate.trans hs)
    · obtain ⟨rfl, hnil⟩ := hc.of_quiet hq
      exact .inr ⟨hrun, hs, hnil, hall⟩
  · exact .inl (by rw [hstate, (hstop hrun).1])

/-- A node that is issued an update was pending. -/
theorem issued_of_stages (hmoved : Moved row.nodes blamed.1.nodes) (hw : Waved blamed.1 r)
    (hc : Carried r.1 r.2 row' issued) {i : ℕ} (hi : i ∈ issues r.2) :
    ∃ n n', row.nodes[i]? = some n ∧ row'.nodes[i]? = some n' ∧ n'.id = n.id ∧
      n.status = .pending ∧ n'.status.isUpdating = true ∧ r.1.nodes[i]?.map RolloutNode.id = some n.id ∧
      ∀ m ∈ row'.nodes, m.wave < n'.wave → m.status.isOpen = false := by
  have hcm := Carried.moved hw hc
  obtain ⟨n₁, hn₁, hp, hearlier⟩ := hw.issued i hi
  obtain ⟨n, hn, hmove⟩ := hmoved.source (hw.unskipped hn₁ (by rw [hp]; nofun))
  obtain ⟨n', hn', hmove'⟩ := hcm.node i n₁ hn₁
  refine ⟨n, n', hn, hn', by rw [hmove'.id_eq, hmove.id_eq], ?_, hc.updating i hi n' hn', ?_, ?_⟩
  · by_contra hne
    exact hmove.left hne hp
  · rw [hn₁, map_some, hmove.id_eq]
  · refine hcm.ended_mem (p := fun m => m.wave < n'.wave) ?_ ?_
    · intro m m' hm hlt
      rwa [hm.wave_eq] at hlt
    · intro m hm hlt
      exact hearlier m hm (by rwa [hmove'.wave_eq] at hlt)

theorem mem_issued_of_stages (hc : Carried r.1 r.2 row' issued) {id : String} (hid : id ∈ issued) :
    ∃ i ∈ issues r.2, r.1.nodes[i]?.map RolloutNode.id = some id := by
  rw [hc.issued, mem_filterMap] at hid
  exact hid

theorem nodup_of_stages (hmoved : Moved row.nodes r.1.nodes) (hnodup : (issues r.2).Nodup)
    (hc : Carried r.1 r.2 row' issued) (hids : (row.nodes.map RolloutNode.id).Nodup) : issued.Nodup := by
  rw [← hmoved.ids] at hids
  rw [hc.issued]
  refine List.Nodup.filterMap ?_ hnodup
  intro i j id hi hj
  rw [mem_def, ← List.getElem?_map] at hi hj
  exact (List.getElem?_inj (List.getElem?_eq_some_iff.mp hi).1 hids).mp (hi.trans hj.symm)

theorem counted_of_stages (hkept : start.1 = { row with nodes := start.1.nodes })
    (hblamed : blamed = whats.foldl RolloutRow.blame start)
    (hfailed : failedCount row'.nodes = failedCount row.nodes + whats.length) (hw : Waved blamed.1 r)
    (hc : Carried r.1 r.2 row' issued) (ha : row.state.active = true) (hm : row.failures ≤ row.maxFailures)
    (hcap : row.failures ≤ u32Max) (hstate : row'.state = blamed.1.state ∨ blamed.1.state = .running) :
    row'.failures = blamedFailures row (failedCount row'.nodes - failedCount row.nodes) ∧
      (row'.state.isAborted = false → row'.failures ≤ row.maxFailures) := by
  have hfailures : row'.failures = blamed.1.failures := by rw [hc.kept, hw.kept]
  obtain ⟨hf, hact⟩ := foldl_blame_failures whats start (by rw [hkept]; exact ha)
    (by rw [hkept]; exact hm) (by rw [hkept]; exact hcap)
  have hnotDone := (blamed_foldl whats start).notDone
  rw [← hblamed] at hf hact hnotDone
  have hrow : blamedFailures start.1 whats.length = blamedFailures row whats.length := by
    rw [hkept]
    rfl
  have hmax : start.1.maxFailures = row.maxFailures := by rw [hkept]
  rw [hmax] at hact
  refine ⟨by rw [hfailures, hf, hrow, hfailed, Nat.add_sub_cancel_left], fun hna => ?_⟩
  rw [hfailures, ← hact]
  rcases hstate with hs | hrun
  · cases hst : blamed.1.state with
    | running | paused reason => rfl
    | aborted reason =>
      rw [hs, hst] at hna
      nomatch hna
    | done =>
      have hd := hnotDone hst
      rw [hkept] at hd
      rw [hd] at ha
      nomatch ha
  · rw [hrun]
    rfl

theorem advanced_of_stages (hkept : start.1 = { row with nodes := start.1.nodes })
    (hmoved : Moved row.nodes start.1.nodes)
    (hupd : ∀ (i : ℕ) (n' : RolloutNode), start.1.nodes[i]? = some n' →
      n'.status.isUpdating = true → ∃ n, row.nodes[i]? = some n ∧ n.status.isUpdating = true)
    (hcount : failedCount start.1.nodes = failedCount row.nodes + whats.length)
    (hblamed : blamed = whats.foldl RolloutRow.blame start) (hw : Waved blamed.1 r)
    (hstop : blamed.1.state ≠ .running → r = blamed ∧ issues r.2 = [])
    (hc : Carried r.1 r.2 row' issued) : Advanced row row' issued := by
  have hb : Blamed start blamed := hblamed ▸ blamed_foldl whats start
  have hmid : blamed.1.nodes = start.1.nodes := by rw [hb.kept]
  rw [← hmid] at hmoved hupd hcount
  have hstate : start.1.state = row.state := by rw [hkept]
  have hmoved' : Moved row.nodes r.1.nodes := hmoved.trans hw.moved
  have hfailed : failedCount row'.nodes = failedCount row.nodes + whats.length := by
    rw [Carried.failedCount_eq hw hc, hw.failedCount_eq, hcount]
  have hstates := state_of_stages hw hstop hc
  constructor
  case kept => rw [hc.kept, hw.kept, hb.kept, hkept]
  case moved => exact hmoved'.trans (Carried.moved hw hc)
  case inactive =>
    intro hover
    have hsame := hblamed.trans (foldl_blame_of_over whats (hstate ▸ hover))
    have hrun : row.state ≠ .running := by
      intro h
      rw [h] at hover
      nomatch hover
    rw [hsame] at hstop
    obtain ⟨rfl, hq⟩ := hstop (hstate ▸ hrun)
    obtain ⟨rfl, -⟩ := hc.of_quiet hq
    exact ⟨hstate, by rw [hkept]⟩
  case counted =>
    exact fun ha hm hcap => counted_of_stages hkept hblamed hfailed hw hc ha hm hcap (hstates.imp_right And.left)
  case halted =>
    intro h
    have hrun : blamed.1.state ≠ .running := by
      rw [hblamed]
      apply foldl_blame_state_ne_running
      rw [hstate]
      refine h.imp id fun hne hnil => hne ?_
      rw [hfailed, hnil]
      rfl
    obtain ⟨rfl, hq⟩ := hstop hrun
    obtain ⟨rfl, hnil⟩ := hc.of_quiet hq
    exact ⟨hrun, hnil⟩
  case done =>
    intro hd
    rcases hstates with hs | ⟨-, -, -, hall⟩
    · exact .inl (by rw [← hstate]; exact hb.notDone (hs ▸ hd))
    · exact .inr hall
  case updating =>
    intro i n' hn' hu
    by_cases hi : i ∈ issues r.2
    · obtain ⟨-, m, -, hm, -, -, -, -, hearlier⟩ := issued_of_stages hmoved hw hc hi
      rw [hn', some.injEq] at hm
      subst hm
      exact .inr hearlier
    · obtain ⟨n₁, hn₁, -⟩ := (Carried.moved hw hc).source hn'
      obtain ⟨m, hm, rfl | ⟨hi', -⟩⟩ := hc.node i n₁ hn₁
      · rw [hn', some.injEq] at hm
        subst hm
        exact .inl (hupd i n' (hw.unskipped hn₁ (by rintro _ h; rw [h] at hu; nomatch hu)) hu)
      · exact absurd hi' hi
  case toPending =>
    intro id hid
    obtain ⟨i, hi, hidi⟩ := mem_issued_of_stages hc hid
    obtain ⟨n, n', hn, hn', hsame, hp, hu, hidn, hearlier⟩ := issued_of_stages hmoved hw hc hi
    rw [hidi, some.injEq] at hidn
    refine ⟨?_, i, n, n', hn, hn', by rw [hsame, hidn], hp, hu, hearlier⟩
    by_contra hne
    rcases hstates with hs | ⟨-, -, hnil, -⟩
    · rw [(hstop (hs ▸ hne)).2] at hi
      exact absurd hi not_mem_nil
    · rw [hnil] at hid
      exact absurd hid not_mem_nil
  case nodup => exact fun hids => nodup_of_stages hmoved' hw.nodup hc hids

end Assembly

/-- What an advance of a rollout does. -/
theorem advanced_advance {facts : String → Option Facts} {now notBefore : ℕ} {release : Bool} {ids : List String}
    (h : row.advance facts now notBefore release ids = some (row', issued)) : Advanced row row' issued := by
  obtain ⟨⟨row₁, ids₁, issued₁⟩, hfold, heq⟩ := map_eq_some_iff.mp h
  obtain ⟨rfl, rfl⟩ := heq
  obtain ⟨issued, hissued, hc⟩ := carried_of_foldlM _ _ _ _ hfold
  rw [nil_append] at hissued
  subst hissued
  obtain ⟨hw, hstop⟩ := row.step_waved facts now notBefore
  refine advanced_of_stages rfl (row.moved_judgeAll facts now notBefore) ?_
    (failedCount_judged row.update facts now notBefore row.nodes) rfl hw hstop hc
  intro i n' hn' hu
  rw [row.getElem?_judgeAll, map_eq_some_iff] at hn'
  obtain ⟨n, hn, rfl⟩ := hn'
  exact ⟨n, hn, RolloutNode.judged_updating row.update facts now notBefore hu⟩

end Virtkit.Fleet
