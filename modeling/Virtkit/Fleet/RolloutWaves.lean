import Virtkit.Fleet.RolloutJudge

/-!
# What a step issues

A running rollout goes over its waves until one has an update under way or to issue. Between two
waves all nodes of the first were skipped, so that fewer nodes are still to finish in each round,
and the rounds never run out. What is issued goes to the pending nodes of one wave, with all nodes
of earlier waves ended.
-/

namespace Virtkit.Fleet

open Virtkit.Common List RolloutRow

/-- The nodes an effect is to issue the update to. -/
def Effect.index? : Effect → Option ℕ
  | .issue index _ => some index
  | .audit .. => none

/-- The places of the nodes that effects are to issue the update to. -/
def issues (effects : List Effect) : List ℕ := effects.filterMap Effect.index?

variable {effects : List Effect} {row : RolloutRow}

theorem issues_eq_nil (h : ∀ e ∈ effects, e.isIssue = false) : issues effects = [] := by
  rw [issues, filterMap_eq_nil_iff]
  intro e he
  cases e with
  | issue index resume => nomatch h _ he
  | audit node event => rfl

theorem any_isIssue_eq_false : effects.any Effect.isIssue = false ↔ ∀ e ∈ effects, e.isIssue = false := by
  rw [any_eq_false]
  exact forall₂_congr fun e _ => by rw [Bool.not_eq_true]

section Reach

variable {row : RolloutRow} {facts : String → Option Facts} {wave : ℕ}

/-- What a wave's coming does to a node: nothing, or it is skipped, or it is issued the update. -/
inductive Reached (wave : ℕ) (n : RolloutNode) (i : ℕ) : RolloutNode × List Effect → Prop
  | other (h : n.wave ≠ wave ∨ n.status ≠ .pending) : Reached wave n i (n, [])
  | skipped (reason event : String) (hw : n.wave = wave) (hp : n.status = .pending) :
      Reached wave n i ({ n with status := .skipped reason }, [.audit (some n.id) event])
  | issued (resume : NodeState) (hw : n.wave = wave) (hp : n.status = .pending) :
      Reached wave n i (n, [.issue i resume])

/-- What reaching a node can do. -/
theorem RolloutRow.reach_reached (row : RolloutRow) (facts : String → Option Facts) (wave : ℕ)
    (n : RolloutNode) (i : ℕ) : Reached wave n i (row.reach facts wave (n, i)) := by
  unfold RolloutRow.reach
  dsimp only
  split_ifs with h
  · exact .other h
  · obtain ⟨hw, hp⟩ := not_or.mp h
    rw [not_not] at hw hp
    cases row.skipReason facts n with
    | some reason => exact .skipped reason _ hw hp
    | none => exact .issued _ hw hp

theorem Reached.node {n : RolloutNode} {i : ℕ} {r : RolloutNode × List Effect} (h : Reached wave n i r) :
    r.1 = n ∨ n.status = .pending ∧ ∃ reason, r.1 = { n with status := .skipped reason } := by
  cases h with
  | other h | issued resume hw hp => exact .inl rfl
  | skipped reason event hw hp => exact .inr ⟨hp, reason, rfl⟩

theorem getElem?_reached (ns : List RolloutNode) (f : RolloutNode × ℕ → RolloutNode × List Effect)
    (i : ℕ) : ((ns.zipIdx.map f).map Prod.fst)[i]? = ns[i]?.map fun n => (f (n, i)).1 := by
  rw [getElem?_map, getElem?_map, getElem?_zipIdx, Option.map_map, Option.map_map]
  simp only [Function.comp_def, Nat.zero_add]

theorem issues_reached (ns : List RolloutNode) (k : ℕ) :
    issues (((ns.zipIdx k).map (row.reach facts wave)).flatMap Prod.snd) =
      ((ns.zipIdx k).filter fun e => (row.reach facts wave e).2.any Effect.isIssue).map Prod.snd := by
  induction ns generalizing k with
  | nil => rfl
  | cons n ns ih =>
    simp only [zipIdx_cons, map_cons, flatMap_cons, filter_cons]
    have hr := row.reach_reached facts wave n k
    rw [issues, filterMap_append, ← issues, ← issues, ih]
    generalize row.reach facts wave (n, k) = r at hr ⊢
    cases hr <;> simp [issues, Effect.index?, Effect.isIssue]

/-- Updates are issued to pending nodes of the wave. -/
theorem mem_issues_reached {ns : List RolloutNode} {i : ℕ}
    (h : i ∈ issues ((ns.zipIdx.map (row.reach facts wave)).flatMap Prod.snd)) :
    ∃ n, ns[i]? = some n ∧ n.status = .pending ∧ n.wave = wave ∧ (row.reach facts wave (n, i)).1 = n := by
  rw [issues_reached, mem_map] at h
  obtain ⟨⟨n, j⟩, hmem, rfl⟩ := h
  rw [mem_filter] at hmem
  obtain ⟨hmem, hissue⟩ := hmem
  have hn := mem_zipIdx_iff_getElem?.mp hmem
  have hr := row.reach_reached facts wave n j
  dsimp only at hn hissue ⊢
  refine ⟨n, hn, ?_⟩
  generalize row.reach facts wave (n, j) = r at hr hissue ⊢
  cases hr with
  | other h | skipped reason event hw hp => nomatch hissue
  | issued resume hw hp => exact ⟨hp, hw, rfl⟩

theorem issues_reached_nodup (ns : List RolloutNode) :
    (issues ((ns.zipIdx.map (row.reach facts wave)).flatMap Prod.snd)).Nodup := by
  rw [issues_reached]
  have hsub : ((ns.zipIdx.filter fun e => (row.reach facts wave e).2.any Effect.isIssue).map
      Prod.snd).Sublist (ns.zipIdx.map Prod.snd) := filter_sublist.map _
  refine hsub.nodup ?_
  rw [zipIdx_map_snd]
  exact nodup_range' 

end Reach

/-- A row's nodes still to finish. -/
def openCount (ns : List RolloutNode) : ℕ := ns.countP fun n => n.status.isOpen

theorem countP_lt_of_map {α β : Type*} {p : α → Bool} {q : β → Bool} {f : α → β} {l : List α}
    (hle : ∀ a ∈ l, q (f a) = true → p a = true)
    (hlt : ∃ a ∈ l, p a = true ∧ q (f a) = false) : (l.map f).countP q < l.countP p := by
  induction l with
  | nil => simp at hlt
  | cons a l ih =>
    have hmono : (l.map f).countP q ≤ l.countP p := by
      rw [countP_map]
      exact countP_mono_left fun b hb => hle b (mem_cons_of_mem a hb)
    have ha := hle a mem_cons_self
    obtain ⟨b, hb, hpb, hqb⟩ := hlt
    simp only [map_cons, countP_cons]
    rcases mem_cons.mp hb with rfl | hb
    · rw [if_pos hpb, hqb, if_neg Bool.false_ne_true]
      omega
    · have hrest := ih (fun b hb => hle b (mem_cons_of_mem a hb)) ⟨b, hb, hpb, hqb⟩
      split_ifs with hq hp
      · omega
      · exact absurd (ha hq) hp
      · omega
      · omega

theorem RolloutRow.currentWave_mem {wave : ℕ} (h : row.currentWave = some wave) :
    ∃ n ∈ row.nodes, n.status.isOpen = true ∧ n.wave = wave := by
  have hmem := min?_mem h
  rw [mem_map] at hmem
  obtain ⟨n, hn, hw⟩ := hmem
  rw [mem_filter] at hn
  exact ⟨n, hn.1, hn.2, hw⟩

/-- Before the current wave every node has ended. -/
theorem RolloutRow.ended_of_lt_currentWave {wave : ℕ}
    (h : row.currentWave = some wave) {m : RolloutNode} (hm : m ∈ row.nodes)
    (hlt : m.wave < wave) : m.status.isOpen = false := by
  cases ho : m.status.isOpen with
  | false => rfl
  | true =>
    have hle := (min?_eq_some_iff.mp h).2 m.wave (mem_map_of_mem (mem_filter.mpr ⟨hm, ho⟩))
    omega

theorem RolloutRow.ended_of_currentWave_none (h : row.currentWave = none)
    {m : RolloutNode} (hm : m ∈ row.nodes) : m.status.isOpen = false := by
  rw [currentWave, min?_eq_none_iff, map_eq_nil_iff, filter_eq_nil_iff] at h
  simpa using h m hm

/-- What going over waves comes to. The rows' other fields stay, nodes change only from pending to
skipped, and the rollout is done only with every node ended; whatever is issued goes to pending
nodes whose earlier waves have ended. -/
structure Waved (row : RolloutRow) (r : RolloutRow × List Effect) : Prop where
  kept : r.1 = { row with state := r.1.state, nodes := r.1.nodes }
  length : r.1.nodes.length = row.nodes.length
  node : ∀ (i : ℕ) (n : RolloutNode), row.nodes[i]? = some n → ∃ n', r.1.nodes[i]? = some n' ∧
    (n' = n ∨ n.status = .pending ∧ ∃ reason, n' = { n with status := .skipped reason })
  state : r.1.state = row.state ∨ r.1.state = .done ∧ issues r.2 = [] ∧ ∀ m ∈ r.1.nodes, m.status.isOpen = false
  issued : ∀ i ∈ issues r.2, ∃ n, r.1.nodes[i]? = some n ∧ n.status = .pending ∧
    ∀ m ∈ r.1.nodes, m.wave < n.wave → m.status.isOpen = false
  nodup : (issues r.2).Nodup

theorem Waved.stay (hq : ∀ e ∈ effects, e.isIssue = false) : Waved row (row, effects) where
  kept := rfl
  length := rfl
  node i n hn := ⟨n, hn, .inl rfl⟩
  state := .inl rfl
  issued i hi := by
    rw [issues_eq_nil hq] at hi
    exact absurd hi not_mem_nil
  nodup := by
    rw [issues_eq_nil hq]
    exact nodup_nil

section Round

variable {row : RolloutRow} {facts : String → Option Facts} {wave : ℕ}

/-- The row once a wave has come. -/
def RolloutRow.reachAll (row : RolloutRow) (facts : String → Option Facts) (wave : ℕ) : RolloutRow :=
  { row with nodes := (row.nodes.zipIdx.map (row.reach facts wave)).map Prod.fst }

theorem RolloutRow.getElem?_reachAll (i : ℕ) : (row.reachAll facts wave).nodes[i]? =
      row.nodes[i]?.map fun n => (row.reach facts wave (n, i)).1 :=
  getElem?_reached row.nodes _ i

theorem RolloutRow.length_reachAll : (row.reachAll facts wave).nodes.length = row.nodes.length := by
  simp [reachAll]

theorem RolloutRow.mem_reachAll {m : RolloutNode} (hm : m ∈ (row.reachAll facts wave).nodes) :
    ∃ n ∈ row.nodes, m = n ∨ n.status = .pending ∧ ∃ reason, m = { n with status := .skipped reason } := by
  obtain ⟨i, hi⟩ := mem_iff_getElem?.mp hm
  rw [getElem?_reachAll, Option.map_eq_some_iff] at hi
  obtain ⟨n, hn, rfl⟩ := hi
  exact ⟨n, mem_of_getElem? hn, (row.reach_reached facts wave n i).node⟩

/-- A round that issues updates ends the step. -/
theorem Waved.issue (hq : ∀ e ∈ effects, e.isIssue = false) (hw : row.currentWave = some wave) :
    Waved row (row.reachAll facts wave, effects ++ (row.nodes.zipIdx.map (row.reach facts wave)).flatMap Prod.snd) := by
  have hissues : issues (effects ++ (row.nodes.zipIdx.map (row.reach facts wave)).flatMap
      Prod.snd) = issues ((row.nodes.zipIdx.map (row.reach facts wave)).flatMap Prod.snd) := by
    rw [issues, filterMap_append, ← issues, ← issues, issues_eq_nil hq, nil_append]
  refine ⟨rfl, length_reachAll, ?_, .inl rfl, ?_, ?_⟩
  · intro i n hn
    refine ⟨_, by rw [getElem?_reachAll, hn]; rfl, ?_⟩
    exact (row.reach_reached facts wave n i).node
  · intro i hi
    rw [hissues] at hi
    obtain ⟨n, hn, hp, hnw, heq⟩ := mem_issues_reached hi
    refine ⟨n, by rw [getElem?_reachAll, hn, Option.map_some, heq], hp, ?_⟩
    intro m hm hlt
    obtain ⟨m₀, hm₀, hsame⟩ := mem_reachAll hm
    rcases hsame with rfl | ⟨-, reason, rfl⟩
    · exact ended_of_lt_currentWave hw hm₀ (by omega)
    · rfl
  · rw [hissues]
    exact issues_reached_nodup row.nodes

/-- A wave that comes with nothing under way and issues nothing leaves fewer nodes to finish. -/
theorem openCount_reachAll_lt (facts : String → Option Facts) (hw : row.currentWave = some wave)
    (hu : ¬row.nodes.any (fun n => n.wave = wave && n.status.isUpdating) = true)
    (hq : ∀ e ∈ (row.nodes.zipIdx.map (row.reach facts wave)).flatMap Prod.snd, e.isIssue = false) :
    openCount (row.reachAll facts wave).nodes < openCount row.nodes := by
  have hfst : openCount row.nodes = row.nodes.zipIdx.countP fun e => e.1.status.isOpen := by
    rw [openCount, ← zipIdx_map_fst 0 row.nodes, countP_map, zipIdx_map_fst]
    rfl
  rw [hfst, openCount, reachAll, map_map]
  apply countP_lt_of_map
  · rintro ⟨n, i⟩ - ho
    rcases (row.reach_reached facts wave n i).node with heq | ⟨hp, -⟩
    · rwa [Function.comp_apply, heq] at ho
    · rw [hp]
      rfl
  · obtain ⟨n, hn, ho, hnw⟩ := currentWave_mem hw
    obtain ⟨i, hi⟩ := mem_iff_getElem?.mp hn
    have hmem : (n, i) ∈ row.nodes.zipIdx := mem_zipIdx_iff_getElem?.mpr hi
    have hpend : n.status = .pending := by
      cases hs : n.status with
      | pending => rfl
      | updating command since resume drainedAt =>
        refine absurd (any_eq_true.mpr ⟨n, hn, ?_⟩) hu
        rw [hs]
        simp [hnw, NodeStatus.isUpdating]
      | _ =>
        rw [hs] at ho
        nomatch ho
    refine ⟨(n, i), hmem, ho, ?_⟩
    have hquiet : ∀ e ∈ (row.reach facts wave (n, i)).2, e.isIssue = false := fun e he =>
      hq e (mem_flatMap.mpr ⟨_, mem_map_of_mem hmem, he⟩)
    have hr := row.reach_reached facts wave n i
    rw [Function.comp_apply]
    generalize row.reach facts wave (n, i) = r at hr hquiet ⊢
    cases hr with
    | other h => exact absurd hpend (h.resolve_left (fun h => h hnw))
    | skipped reason event hw hp => rfl
    | issued resume hw hp => nomatch hquiet _ mem_cons_self

end Round

theorem Waved.after_round {facts : String → Option Facts} {wave : ℕ}
    {r : RolloutRow × List Effect} (h : Waved (row.reachAll facts wave) r) : Waved row r where
  kept := h.kept
  length := h.length.trans length_reachAll
  node i n hn := by
    obtain ⟨n', hn', hsame⟩ := h.node i (row.reach facts wave (n, i)).1 (by rw [getElem?_reachAll, hn]; rfl)
    refine ⟨n', hn', ?_⟩
    rcases (row.reach_reached facts wave n i).node with heq | ⟨hp, reason, heq⟩
    · rwa [heq] at hsame
    · rw [heq] at hsame
      rcases hsame with rfl | ⟨hp', -⟩
      · exact .inr ⟨hp, reason, rfl⟩
      · nomatch hp'
  state := h.state
  issued := h.issued
  nodup := h.nodup

/-- Waves are gone through until updates are issued, or nothing is left. -/
theorem waved_waves (facts : String → Option Facts) (rounds : ℕ) (row : RolloutRow)
    (effects : List Effect) (hrounds : openCount row.nodes < rounds)
    (hq : ∀ e ∈ effects, e.isIssue = false) : Waved row (waves facts rounds (row, effects)) := by
  induction rounds generalizing row effects with
  | zero => omega
  | succ rounds ih =>
    unfold waves
    cases hw : row.currentWave with
    | none =>
      have hq' : ∀ event : String, ∀ e ∈ effects ++ [.audit none event], e.isIssue = false := by
        intro event e he
        rcases mem_append.mp he with he | he
        · exact hq e he
        · rw [mem_singleton.mp he]
          rfl
      refine ⟨rfl, rfl, fun i n hn => ⟨n, hn, .inl rfl⟩, .inr ⟨rfl, ?_, ?_⟩, ?_, ?_⟩
      · exact issues_eq_nil (hq' _)
      · exact fun m hm => ended_of_currentWave_none hw hm
      · rw [issues_eq_nil (hq' _)]
        exact fun i hi => absurd hi not_mem_nil
      · rw [issues_eq_nil (hq' _)]
        exact nodup_nil
    | some wave =>
      dsimp only
      split_ifs with hu hi
      · exact .stay hq
      · exact .issue hq hw
      · rw [Bool.not_eq_true, any_isIssue_eq_false] at hi
        have hlt := openCount_reachAll_lt facts hw hu fun e he => hi e (mem_append_right _ he)
        exact Waved.after_round (ih (row.reachAll facts wave) _ (by omega) hi)

end Virtkit.Fleet
