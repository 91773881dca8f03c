import Virtkit.Hub.Commit

/-!
# What placing a job does to room

A queued job goes to the reservation it was submitted on, taking over what that held, or to a node
with room: the one selected for it, or a warmer one that admits it, for which it gives its
reservation up.
-/

namespace Virtkit.Hub

open Virtkit.Common Option Table List

variable {hub : HubEnv} {s s' : State} {ctx : PlaceCtx} {id : String} {j : LiveJob} {now : ℕ}

theorem sum_elim_erase_le {V : Type*} (f : String → V → ℕ) (t : Table String V)
    (o : Option String) : Table.sum f (o.elim t t.erase) ≤ t.sum f := by
  apply sum_le_of_lookup
  intro k v hk
  exact ⟨v, lookup_of_elim_erase hk, le_refl _⟩

/-- A job sent without a reservation is a placement on its node, of which it may give up another. -/
theorem PlacedWithin.of_sendTo {t : Target} (h : sendTo s id t = some s')
    (hj : s.jobs.lookup id = some j) (hqueued : j.row.state = .queued) (hnode : j.row.node = none)
    (hreservation : t.reservation = none) (haccepted : t.acceptedAt = none) :
    PlacedWithin s s' t.node j.row.placement.envelope ∧
      (t.givenUp = none → Placed s s' t.node j.row.placement.envelope) := by
  have hs' := sendTo_eq h
  have hjobs : s'.jobs = s.jobs.modify id fun j => j.sent t := by rw [hs']
  have hdisowned : s'.disowned = s.disowned := by rw [hs']
  have hreservations : s'.reservations = t.givenUp.elim s.reservations s.reservations.erase := by
    rw [hs', hreservation, elim_none]
  have hsent : ∀ k since field, s'.jobs.sum (sentFigure field k since) = s.jobs.sum (sentFigure field k since) +
        if k = t.node then field j.row.placement.envelope else 0 := by
    intro k since field
    have hmove := sum_modify (sentFigure field k since) (fun j => j.sent t) hj
    have hbefore : sentFigure field k since id j = 0 := by simp [sentFigure, LiveJob.pending, hqueued]
    have hafter : sentFigure field k since id (j.sent t) =
        if k = t.node then field j.row.placement.envelope else 0 := by
      by_cases hk : k = t.node
      · simp [sentFigure, LiveJob.pending, LiveJob.sent, haccepted, hk]
      · simp [sentFigure, LiveJob.pending, LiveJob.sent, hk, Ne.symm hk]
    rw [hjobs]
    omega
  have hon : ∀ k, s'.jobs.sum (onNodeFigure k) = s.jobs.sum (onNodeFigure k) + if k = t.node then 1 else 0 := by
    intro k
    have hmove := sum_modify (onNodeFigure k) (fun j => j.sent t) hj
    have hbefore : onNodeFigure k id j = 0 := by simp [onNodeFigure, hnode]
    have hafter : onNodeFigure k id (j.sent t) = if k = t.node then 1 else 0 := by
      by_cases hk : k = t.node
      · simp [onNodeFigure, LiveJob.sent, hk]
      · simp [onNodeFigure, LiveJob.sent, hk, Ne.symm hk]
    rw [hjobs]
    omega
  refine ⟨⟨fun k since field => ?_, fun k => ?_, held_sendTo h⟩, fun hkept =>
    ⟨fun k since field => ?_, fun k => ?_, held_sendTo h⟩⟩
  · have hle := sum_elim_erase_le (resvFigure field k since) s.reservations t.givenUp
    rw [pendingSum, pendingSum, hsent, hreservations]
    omega
  · have hle := sum_elim_erase_le (liveFigure k) s.reservations t.givenUp
    rw [placedSum, placedSum, hon, hreservations, hdisowned]
    omega
  · rw [pendingSum, pendingSum, hsent, hreservations, hkept, elim_none]
    omega
  · rw [placedSum, placedSum, hon, hreservations, hkept, elim_none, hdisowned]
    omega

/-- A job on its own reservation adds nothing. -/
theorem Lighter.of_sendTo {r : String} {x : Resv} {lease : ℕ}
    (h : sendTo s id ⟨x.node, some r, x.envelope, some x.acceptedAt, none⟩ = some s') (hj : s.jobs.lookup id = some j)
    (hx : s.reservations.lookup r = some x) (hphase : x.phase = .held lease)
    (henvelope : x.envelope = j.row.placement.envelope) : Lighter s s' := by
  have hs' := sendTo_eq h
  generalize htarget : (⟨x.node, some r, x.envelope, some x.acceptedAt, none⟩ : Target) = t at hs' h
  have hjobs : s'.jobs = s.jobs.modify id fun j => j.sent t := by rw [hs']
  have hdisowned : s'.disowned = s.disowned := by rw [hs']
  have hreservations : s'.reservations = s.reservations.erase r := by rw [hs', ← htarget]; rfl
  refine ⟨fun k since field => ?_, fun k => ?_, held_sendTo h⟩
  · have hmove := sum_modify (sentFigure field k since) (fun j => j.sent t) hj
    have herase := sum_erase_add_valueAt (resvFigure field k since) s.reservations r
    have hafter : sentFigure field k since id (j.sent t) = s.reservations.valueAt (resvFigure field k since) r := by
      rw [valueAt, hx, elim_some, ← htarget, resvFigure, henvelope]
      simp [sentFigure, LiveJob.pending, LiveJob.sent, Resv.pending, hphase]
    rw [pendingSum, pendingSum, hjobs, hreservations]
    omega
  · have hmove := sum_modify (onNodeFigure k) (fun j => j.sent t) hj
    have herase := sum_erase_add_valueAt (liveFigure k) s.reservations r
    have hafter : onNodeFigure k id (j.sent t) = s.reservations.valueAt (liveFigure k) r := by
      rw [valueAt, hx, elim_some, ← htarget]
      simp [onNodeFigure, LiveJob.sent, liveFigure, Resv.live, hphase]
    rw [placedSum, placedSum, hjobs, hreservations, hdisowned]
    omega

/-- A job that ends leaves more room. -/
theorem Lighter.of_finish {failure : Option FailureClass} {message : Option String} {row : JobRow}
    (h : finish hub s id failure message = some (s', row)) : Lighter s s' := by
  obtain ⟨job, hjob, hs'⟩ := finish_eq h
  have hjobs : s'.jobs = s.jobs.erase id := by rw [hs']
  have hreservations : s'.reservations = job.reservation.elim s.reservations s.reservations.erase := by rw [hs']
  have hdisowned : s'.disowned = s.disowned := by rw [hs']
  have hsum : ∀ f : String → LiveJob → ℕ, s'.jobs.sum f ≤ s.jobs.sum f := by
    intro f
    rw [hjobs]
    exact sum_elim_erase_le f s.jobs (some id)
  refine ⟨fun k since field => ?_, fun k => ?_, fun k => ?_⟩
  · have hsent := hsum (sentFigure field k since)
    have hle := sum_elim_erase_le (resvFigure field k since) s.reservations job.reservation
    rw [pendingSum, pendingSum, hreservations]
    omega
  · have hon := hsum (onNodeFigure k)
    have hle := sum_elim_erase_le (liveFigure k) s.reservations job.reservation
    rw [placedSum, placedSum, hreservations, hdisowned]
    omega
  · unfold finish at h
    rw [hjob] at h
    dsimp only at h
    rw [some_inj, Prod.mk.injEq] at h
    rw [← h.1]
    dsimp only
    have hdropped : ∀ s₀ : State, s₀.links = s.links →
        ((job.reservation.elim s₀ (dropReservation s₀)).links.lookup k).map Link.held =
          (s.links.lookup k).map Link.held := by
      intro s₀ hlinks
      rw [← hlinks]
      cases job.reservation with
      | none => rfl
      | some r => exact (Notes.dropReservation s₀ r).held k
    split
    · rw [warmTouch_eq]
      exact hdropped _ rfl
    · exact hdropped _ rfl

variable {selected : Option String}

theorem firstCandidate_eq_some {found : List (String × ℕ)} {n : String}
    (h : firstCandidate hub s ctx j found selected = some n) :
    n ∈ found.map Prod.fst ∧ ∀ m, selected = some m → n = m := by
  have hwarm : ∀ (l : List (String × ℕ)) (light : List String),
      (warmFirst l light).head?.map Prod.fst = some n → n ∈ l.map Prod.fst := by
    intro l light hhead
    unfold warmFirst at hhead
    split at hhead
    · rename_i m hm
      rw [head?_cons, map_some, some_inj] at hhead
      exact hhead ▸ mem_map_of_mem (mem_of_find?_eq_some hm)
    · obtain ⟨m, hm, rfl⟩ := map_eq_some_iff.mp hhead
      exact mem_map_of_mem (mem_of_mem_head? hm)
  unfold firstCandidate at h
  dsimp only at h
  have hmem := hwarm _ _ h
  cases selected with
  | none => exact ⟨hmem, fun m hm => by simp at hm⟩
  | some m =>
    dsimp only at hmem
    obtain ⟨e, he, rfl⟩ := mem_map.mp hmem
    obtain ⟨hfound, hselected⟩ := mem_filter.mp he
    refine ⟨mem_map_of_mem hfound, fun m' hm' => ?_⟩
    rw [some_inj] at hm'
    rw [← hm']
    simpa using hselected

/-- The node found for a job has room for it. -/
theorem openNode_eq_some {n : String} (h : (openNode hub s ctx id j now selected).2 = some n) :
    (∃ row, ctx.nodes.lookup n = some row ∧ 0 < nodeRoom hub s j.row.placement n row) ∧
      ∀ m, selected = some m → n = m := by
  unfold openNode at h
  dsimp only at h
  split at h
  · split at h
    · simp at h
    · dsimp only at h
      obtain ⟨hmem, hselected⟩ := firstCandidate_eq_some h
      have hquiet : Quiet s (s.setJob id fun j => { j with tried := [], roundEnded := none }) :=
        .setJob s id (fun _ => rfl) fun _ => rfl
      rw [hquiet.sameRoom.candidates_eq] at hmem
      exact ⟨mem_candidates hmem, hselected⟩
  · obtain ⟨hmem, hselected⟩ := firstCandidate_eq_some h
    exact ⟨mem_candidates hmem, hselected⟩

/-- Where a queued job goes: to its reservation; without a usable one, to a node with room, the one
selected if one was; or from a usable one to a warmer node with room, one that admits it. -/
theorem target_eq_some {s₁ : State} {t : Target} (h : target hub s ctx id j now selected = (s₁, some t)) :
    let usable := usableReservation hub s ctx.nodes (jobExclusions ctx.policy j.row ctx.nodes)
    (∃ r x, j.reservation = some r ∧ usable r = some x ∧ t = ⟨x.node, some r, x.envelope, some x.acceptedAt, none⟩) ∨
    t.reservation = none ∧ t.acceptedAt = none ∧ (∃ row, ctx.nodes.lookup t.node = some row ∧
        0 < nodeRoom hub s j.row.placement t.node row) ∧
      ((∀ r, j.reservation = some r → usable r = none) ∧ t.givenUp = none ∧ (∀ m, selected = some m → t.node = m) ∨
        (∃ r x, j.reservation = some r ∧ usable r = some x) ∧
          admits hub s ctx.nodes ctx.policy j.row.placement (jobClass j.row) t.node = true) := by
  intro usable
  unfold target at h
  dsimp only at h
  generalize hreserved : (j.reservation.bind fun r => (usable r).map fun x => (r, x)) = reserved at h
  cases reserved with
  | none =>
    right
    rw [Prod.mk.injEq] at h
    obtain ⟨n, hn, rfl⟩ := map_eq_some_iff.mp h.2
    obtain ⟨hroom, hselected⟩ := openNode_eq_some hn
    refine ⟨rfl, rfl, hroom, .inl ⟨fun r hr => ?_, rfl, hselected⟩⟩
    rw [hr, bind_some, map_eq_none_iff] at hreserved
    exact hreserved
  | some x =>
    rw [bind_some] at h
    obtain ⟨r, hr, hx⟩ := bind_eq_some_iff.mp hreserved
    obtain ⟨y, hy, hxy⟩ := map_eq_some_iff.mp hx
    cases hwarmer : warmerNode hub s ctx j (j.tried ++ jobExclusions ctx.policy j.row ctx.nodes) x.2.node with
    | none =>
      rw [hwarmer] at h
      left
      rw [Prod.mk.injEq, some_inj] at h
      rw [← hxy] at h
      exact ⟨r, y, hr, hy, h.2.symm⟩
    | some w =>
      rw [hwarmer] at h
      right
      rw [Prod.mk.injEq] at h
      obtain ⟨n, hn, rfl⟩ := map_eq_some_iff.mp h.2
      obtain ⟨hroom, hselected⟩ := openNode_eq_some hn
      have hw : n = w := hselected w rfl
      refine ⟨rfl, rfl, hroom, .inr ⟨⟨r, y, hr, hy⟩, ?_⟩⟩
      unfold warmerNode at hwarmer
      dsimp only at hwarmer
      split at hwarmer
      · simp at hwarmer
      · dsimp only
        rw [hw]
        exact find?_some hwarmer

end Virtkit.Hub
