import Virtkit.Fleet.Rollout
import Mathlib.Data.List.Count

/-!
# What a step does to the nodes it judges

A node of a rollout only ever moves on: from pending to skipped or updating, from updating to an
end, and never out of an end. Judging the updates under way moves nodes in this way, and blaming
the failures found counts each of them until the rollout aborts.
-/

namespace Virtkit.Fleet

open Virtkit.Common List Option RolloutRow RolloutNode

theorem NodeStatus.exists_of_isUpdating {status : NodeStatus} (h : status.isUpdating = true) :
    ∃ command since resume drainedAt, status = .updating command since resume drainedAt := by
  cases status with
  | updating command since resume drainedAt => exact ⟨command, since, resume, drainedAt, rfl⟩
  | _ => nomatch h

theorem NodeStatus.isOpen_of_isUpdating {status : NodeStatus} (h : status.isUpdating = true) :
    status.isOpen = true := by
  obtain ⟨command, since, resume, drainedAt, rfl⟩ := exists_of_isUpdating h
  rfl

/-- A node moves on: nothing but its status changes, an end stays, and nothing is pending again. -/
structure RolloutNode.Moves (n n' : RolloutNode) : Prop where
  kept : n' = { n with status := n'.status }
  ended : n.status.isOpen = false → n'.status = n.status
  left : n.status ≠ .pending → n'.status ≠ .pending

variable {n : RolloutNode}

namespace RolloutNode.Moves

theorem refl (n : RolloutNode) : n.Moves n := ⟨rfl, fun _ => rfl, fun h => h⟩

theorem trans {n' n'' : RolloutNode} (h : n.Moves n') (h' : n'.Moves n'') : n.Moves n'' where
  kept := by rw [h'.kept, h.kept]
  ended he := by
    have hs := h.ended he
    rw [h'.ended (by rw [hs]; exact he), hs]
  left hp := h'.left (h.left hp)

theorem of_open {status : NodeStatus} (ho : n.status.isOpen = true)
    (hs : status ≠ .pending) : n.Moves { n with status := status } :=
  ⟨rfl, fun he => by rw [ho] at he; exact absurd he (by decide), fun _ => hs⟩

variable {n n' : RolloutNode} (h : n.Moves n')
include h

theorem id_eq : n'.id = n.id := by rw [h.kept]

theorem profile_eq : n'.profile = n.profile := by rw [h.kept]

theorem wave_eq : n'.wave = n.wave := by rw [h.kept]

/-- A node that ended stays as it is. -/
theorem eq_of_ended (he : n.status.isOpen = false) : n' = n := by
  rw [h.kept, h.ended he]

end RolloutNode.Moves

/-- Every node of a list moves on, in its place. -/
structure Moved (ns ns' : List RolloutNode) : Prop where
  length : ns'.length = ns.length
  node : ∀ (i : ℕ) (n : RolloutNode), ns[i]? = some n → ∃ n', ns'[i]? = some n' ∧ n.Moves n'

namespace Moved

theorem refl (ns : List RolloutNode) : Moved ns ns :=
  ⟨rfl, fun _ n hn => ⟨n, hn, .refl n⟩⟩

variable {ns ns' : List RolloutNode}

theorem trans {ns'' : List RolloutNode} (h : Moved ns ns') (h' : Moved ns' ns'') : Moved ns ns'' where
  length := h'.length.trans h.length
  node i n hn := by
    obtain ⟨n', hn', hm⟩ := h.node i n hn
    obtain ⟨n'', hn'', hm'⟩ := h'.node i n' hn'
    exact ⟨n'', hn'', hm.trans hm'⟩

theorem of_map (f : ℕ → RolloutNode → RolloutNode)
    (hf : ∀ (i : ℕ) (n : RolloutNode), n.Moves (f i n)) (h : ∀ i : ℕ, ns'[i]? = ns[i]?.map (f i)) : Moved ns ns' where
  length := by
    apply le_antisymm
    · have h := h ns.length
      rw [getElem?_eq_none le_rfl] at h
      exact getElem?_eq_none_iff.mp h
    · have h := h ns'.length
      rw [getElem?_eq_none le_rfl, eq_comm, map_eq_none_iff] at h
      exact getElem?_eq_none_iff.mp h
  node i n hn := ⟨f i n, by rw [h, hn]; rfl, hf i n⟩

theorem source (h : Moved ns ns') {i : ℕ} {n' : RolloutNode} (hn' : ns'[i]? = some n') :
    ∃ n, ns[i]? = some n ∧ n.Moves n' := by
  have hi : i < ns.length := by
    rw [← h.length]
    exact (List.getElem?_eq_some_iff.mp hn').1
  obtain ⟨m, hm, hmove⟩ := h.node i _ (List.getElem?_eq_getElem hi)
  rw [hn', some.injEq] at hm
  subst hm
  exact ⟨_, List.getElem?_eq_getElem hi, hmove⟩

/-- Nodes that all ended have all ended after any move. -/
theorem ended_mem (h : Moved ns ns') {p : RolloutNode → Prop} (hp : ∀ n n' : RolloutNode, n.Moves n' → p n' → p n)
    (hall : ∀ m ∈ ns, p m → m.status.isOpen = false) : ∀ m ∈ ns', p m → m.status.isOpen = false := by
  intro m' hm' hpm
  obtain ⟨i, hi⟩ := mem_iff_getElem?.mp hm'
  obtain ⟨m, hm, hmove⟩ := h.source hi
  have he := hall m (mem_of_getElem? hm) (hp m m' hmove hpm)
  rw [hmove.eq_of_ended he]
  exact he

theorem ids (h : Moved ns ns') : ns'.map RolloutNode.id = ns.map RolloutNode.id := by
  apply ext_getElem?
  intro i
  rw [getElem?_map, getElem?_map]
  cases hn : ns[i]? with
  | none =>
    have hi : ns'.length ≤ i := by rw [h.length]; exact getElem?_eq_none_iff.mp hn
    rw [getElem?_eq_none hi]
  | some n =>
    obtain ⟨n', hn', hmove⟩ := h.node i n hn
    rw [hn', map_some, map_some, hmove.id_eq]

end Moved

def failedCount (ns : List RolloutNode) : ℕ := ns.countP fun n => n.status.isFailed

theorem failedCount_congr {ns ns' : List RolloutNode} (hlen : ns'.length = ns.length)
    (h : ∀ (i : ℕ) n, ns[i]? = some n → ∃ n', ns'[i]? = some n' ∧ n'.status.isFailed = n.status.isFailed) :
    failedCount ns' = failedCount ns := by
  have hmap : ns'.map (·.status.isFailed) = ns.map (·.status.isFailed) := by
    refine ext_getElem? fun i => ?_
    rw [getElem?_map, getElem?_map]
    cases hn : ns[i]? with
    | none => rw [getElem?_eq_none (hlen ▸ getElem?_eq_none_iff.mp hn)]
    | some n =>
      obtain ⟨n', hn', hsame⟩ := h i n hn
      rw [hn', map_some, map_some, hsame]
  have hcount : ∀ l : List RolloutNode, failedCount l = (l.map (·.status.isFailed)).countP id := by
    intro l
    rw [countP_map]
    rfl
  rw [hcount, hcount, hmap]

section Judged

variable (update : Update) (facts : String → Option Facts) (now notBefore : ℕ)

theorem RolloutNode.judged_of_not_updating (h : n.status.isUpdating = false) :
    n.judged update facts now notBefore = (n, [], none) := by
  cases hs : n.status with
  | updating command since resume drainedAt =>
    rw [hs] at h
    nomatch h
  | _ => simp only [RolloutNode.judged, hs]

theorem RolloutNode.judged_of_updating (h : n.status.isUpdating = true) :
    ∃ status, (n.judged update facts now notBefore).1 = { n with status := status } ∧ status ≠ .pending ∧
      (status.isFailed = (n.judged update facts now notBefore).2.2.isSome) ∧
      ∀ e ∈ (n.judged update facts now notBefore).2.1, e.isIssue = false := by
  obtain ⟨command, since, resume, drainedAt, hs⟩ := NodeStatus.exists_of_isUpdating h
  simp only [RolloutNode.judged, hs, judge]
  cases verdict update since resume (seenDrained drainedAt (facts n.id) now) (facts n.id) now notBefore with
  | none => exact ⟨_, rfl, by simp, rfl, by simp⟩
  | some result =>
    cases result with
    | ok _ | error why => exact ⟨_, rfl, by simp, rfl, by simp [Effect.isIssue]⟩

/-- Judging moves a node on. -/
theorem RolloutNode.judged_moves (n : RolloutNode) : n.Moves (n.judged update facts now notBefore).1 := by
  cases hu : n.status.isUpdating with
  | false =>
    rw [judged_of_not_updating update facts now notBefore hu]
    exact .refl n
  | true =>
    obtain ⟨status, heq, hs, -, -⟩ := judged_of_updating update facts now notBefore hu
    rw [heq]
    exact .of_open (NodeStatus.isOpen_of_isUpdating hu) hs

theorem RolloutNode.judged_updating (h : (n.judged update facts now notBefore).1.status.isUpdating = true) :
    n.status.isUpdating = true := by
  cases hu : n.status.isUpdating with
  | true => rfl
  | false =>
    rw [judged_of_not_updating update facts now notBefore hu, hu] at h
    exact h

theorem RolloutNode.judged_quiet (n : RolloutNode) :
    ∀ e ∈ (n.judged update facts now notBefore).2.1, e.isIssue = false := by
  cases hu : n.status.isUpdating with
  | true => exact (judged_of_updating update facts now notBefore hu).choose_spec.2.2.2
  | false =>
    rw [judged_of_not_updating update facts now notBefore hu]
    simp

/-- Each failure that is found is counted. -/
theorem failedCount_judged (ns : List RolloutNode) :
    failedCount ((ns.map (RolloutNode.judged update facts now notBefore)).map Prod.fst) = failedCount ns +
        ((ns.map (RolloutNode.judged update facts now notBefore)).filterMap (·.2.2)).length := by
  induction ns with
  | nil => rfl
  | cons n ns ih =>
    unfold failedCount at ih ⊢
    simp only [map_cons, countP_cons, filterMap_cons] at ih ⊢
    rw [ih]
    cases hu : n.status.isUpdating with
    | false =>
      simp only [judged_of_not_updating update facts now notBefore hu]
      omega
    | true =>
      obtain ⟨status, heq, -, hf, -⟩ := judged_of_updating update facts now notBefore hu
      have hn : n.status.isFailed = false := by
        obtain ⟨command, since, resume, drainedAt, hs⟩ := NodeStatus.exists_of_isUpdating hu
        rw [hs]
        rfl
      rw [heq, hn]
      cases hw : (n.judged update facts now notBefore).2.2 with
      | none =>
        rw [hw] at hf
        simp only [hf, isSome_none]
        simp
      | some what =>
        rw [hw] at hf
        simp only [hf, isSome_some, length_cons]
        simp
        omega

end Judged

section Blame

variable {acc : RolloutRow × List Effect}

theorem RolloutRow.blame_of_over (what : String) (h : acc.1.state.active = false) :
    RolloutRow.blame acc what = acc := by
  simp only [RolloutRow.blame, h, Bool.not_false, if_true]

variable (whats : List String)

theorem foldl_blame_of_over (h : acc.1.state.active = false) : whats.foldl RolloutRow.blame acc = acc := by
  induction whats with
  | nil => rfl
  | cons what whats ih => rw [foldl_cons, blame_of_over what h, ih]

/-- What blaming leaves alone, and that it halts the rollout. -/
structure Blamed (acc acc' : RolloutRow × List Effect) : Prop where
  kept : acc'.1 = { acc.1 with state := acc'.1.state, failures := acc'.1.failures }
  notDone : acc'.1.state = .done → acc.1.state = .done
  quiet : (∀ e ∈ acc.2, e.isIssue = false) → ∀ e ∈ acc'.2, e.isIssue = false

theorem blamed_blame (acc : RolloutRow × List Effect) (what : String) : Blamed acc (RolloutRow.blame acc what) := by
  obtain ⟨row, effects⟩ := acc
  unfold RolloutRow.blame
  dsimp only
  split_ifs with ha hm hr
  · exact ⟨rfl, id, id⟩
  · exact ⟨rfl, nofun, by simp +contextual [or_imp, Effect.isIssue]⟩
  · exact ⟨rfl, nofun, by simp +contextual [or_imp, Effect.isIssue]⟩
  · exact ⟨rfl, id, id⟩

/-- Blame changes only the state and the failures, and issues nothing. -/
theorem blamed_foldl (acc : RolloutRow × List Effect) : Blamed acc (whats.foldl RolloutRow.blame acc) := by
  induction whats generalizing acc with
  | nil => exact ⟨rfl, id, id⟩
  | cons what whats ih =>
    have h := blamed_blame acc what
    have h' := ih (RolloutRow.blame acc what)
    refine ⟨?_, fun hd => h.notDone (h'.notDone hd), fun hq => h'.quiet (h.quiet hq)⟩
    rw [foldl_cons, h'.kept, h.kept]

theorem RolloutRow.blame_state_ne_running (acc : RolloutRow × List Effect) (what : String) :
    (RolloutRow.blame acc what).1.state ≠ .running := by
  obtain ⟨row, effects⟩ := acc
  unfold RolloutRow.blame
  dsimp only
  split_ifs with ha hm hr
  · intro hs
    rw [hs] at ha
    exact absurd ha (by decide)
  · nofun
  · nofun
  · exact hr

theorem foldl_blame_state_ne_running (acc : RolloutRow × List Effect) (h : acc.1.state ≠ .running ∨ whats ≠ []) :
    (whats.foldl RolloutRow.blame acc).1.state ≠ .running := by
  induction whats generalizing acc with
  | nil => exact h.resolve_right (fun h => h rfl)
  | cons what whats ih => exact ih _ (.inl (blame_state_ne_running acc what))

/-- A rollout's failures once `count` more are blamed: all of them, up to the first past those it
absorbs. -/
def blamedFailures (row : RolloutRow) (count : ℕ) : ℕ :=
  min (row.failures + count) (min (row.maxFailures + 1) u32Max)

/-- A failure is counted, and over the limit the rollout is over. -/
theorem RolloutRow.blame_of_active (what : String) (ha : acc.1.state.active = true) :
    (RolloutRow.blame acc what).1.failures = satAdd u32Max acc.1.failures 1 ∧
      ((RolloutRow.blame acc what).1.state.active = true ↔ satAdd u32Max acc.1.failures 1 ≤ acc.1.maxFailures) := by
  obtain ⟨row, effects⟩ := acc
  dsimp only at ha ⊢
  simp only [RolloutRow.blame, ha, Bool.not_true, Bool.false_eq_true, if_false]
  split_ifs with hpast hr
  · exact ⟨rfl, by simpa [RolloutState.active] using hpast⟩
  · exact ⟨rfl, by simpa [RolloutState.active] using hpast⟩
  · exact ⟨rfl, by simpa [ha] using hpast⟩

/-- Blame counts a rollout's failures up to the first past those it absorbs, and ends the rollout
there. -/
theorem foldl_blame_failures (acc : RolloutRow × List Effect)
    (ha : acc.1.state.active = true) (hm : acc.1.failures ≤ acc.1.maxFailures) (hc : acc.1.failures ≤ u32Max) :
    (whats.foldl RolloutRow.blame acc).1.failures = blamedFailures acc.1 whats.length ∧
      ((whats.foldl RolloutRow.blame acc).1.state.active = true ↔
        (whats.foldl RolloutRow.blame acc).1.failures ≤ acc.1.maxFailures) := by
  induction whats generalizing acc with
  | nil =>
    refine ⟨?_, by simp [ha, hm]⟩
    simp only [foldl_nil, blamedFailures, length_nil]
    omega
  | cons what whats ih =>
    obtain ⟨hf, hact⟩ := blame_of_active what ha
    have hmax : (RolloutRow.blame acc what).1.maxFailures = acc.1.maxFailures := by
      rw [(blamed_blame acc what).kept]
    rw [foldl_cons]
    generalize RolloutRow.blame acc what = acc₁ at hf hact hmax ⊢
    simp only [satAdd] at hf hact
    cases ha₁ : acc₁.1.state.active with
    | false =>
      rw [foldl_blame_of_over _ ha₁, ha₁]
      rw [ha₁] at hact
      simp only [Bool.false_eq_true, false_iff, blamedFailures, length_cons] at hact ⊢
      omega
    | true =>
      rw [ha₁] at hact
      simp only [true_iff] at hact
      obtain ⟨hfail, hact'⟩ := ih acc₁ ha₁ (by omega) (by omega)
      rw [hmax] at hact'
      refine ⟨?_, hact'⟩
      rw [hfail]
      simp only [blamedFailures, length_cons]
      clear hact' hfail ih
      generalize u32Max = cap at hf hact hc ⊢
      omega

end Blame

end Virtkit.Fleet
