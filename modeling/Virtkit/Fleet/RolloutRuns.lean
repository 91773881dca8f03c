import Virtkit.Fleet.RolloutAdvance

/-!
# The life of a rollout

A rollout is advanced and steered any number of times, in any order, from whatever the database
says of its nodes. It goes wave by wave within its failure budget. Its failures are those of the
nodes that failed while it was to finish, counted up to the first past the budget: nodes that fail
in the same advance after that one are recorded, not counted.
-/

namespace Virtkit.Fleet

open Virtkit.Common List Option

/-- What happens to a rollout: the hub advances it, or an operator steers it. -/
inductive RolloutEvent where
  | advance (facts : String → Option Facts) (now notBefore : ℕ) (release : Bool)
      (ids : List String)
  | steer (action : RolloutAction) (actor : String)

/-- The rollout after an event, and the nodes issued the update by it. What cannot be done changes
nothing. -/
def RolloutRow.apply (row : RolloutRow) : RolloutEvent → RolloutRow × List String
  | .advance facts now notBefore release ids => (row.advance facts now notBefore release ids).getD (row, [])
  | .steer action actor => ((row.steer action actor).getD row, [])

/-- The rollout after events, and the nodes issued the update over them. -/
def RolloutRow.run : RolloutRow → List RolloutEvent → RolloutRow × List String
  | row, [] => (row, [])
  | row, event :: events =>
    let (row', issued) := row.apply event
    let (row'', later) := row'.run events
    (row'', issued ++ later)

theorem RolloutRow.run_cons_snd (row : RolloutRow) (event : RolloutEvent) (events : List RolloutEvent) :
    (row.run (event :: events)).2 = (row.apply event).2 ++ ((row.apply event).1.run events).2 :=
  rfl

/-- What an event comes to: an advance, or a change of state alone. -/
inductive Applied (row : RolloutRow) : RolloutEvent → RolloutRow × List String → Prop
  | advanced {facts : String → Option Facts} {now notBefore : ℕ} {release : Bool}
      {ids : List String} {row' : RolloutRow} {issued : List String}
      (h : Advanced row row' issued) :
      Applied row (.advance facts now notBefore release ids) (row', issued)
  | stayed (event : RolloutEvent) : Applied row event (row, [])
  | paused (actor : String) (reason : String) (h : row.state = .running) :
      Applied row (.steer .pause actor) ({ row with state := .paused reason }, [])
  | resumed (actor : String) (reason : String) (h : row.state = .paused reason) :
      Applied row (.steer .resume actor) ({ row with state := .running }, [])
  | aborted (actor : String) (reason : String) (h : row.state.active = true) :
      Applied row (.steer .abort actor) ({ row with state := .aborted reason }, [])

/-- What an event does to a rollout. -/
theorem RolloutRow.applied (row : RolloutRow) (event : RolloutEvent) : Applied row event (row.apply event) := by
  cases event with
  | advance facts now notBefore release ids =>
    cases h : row.advance facts now notBefore release ids with
    | none =>
      simp only [RolloutRow.apply, h, getD_none]
      exact .stayed _
    | some r =>
      simp only [RolloutRow.apply, h, getD_some]
      exact .advanced (advanced_advance h)
  | steer action actor =>
    cases action with
    | pause =>
      cases hs : row.state with
      | running =>
        simp only [RolloutRow.apply, RolloutRow.steer, hs, getD_some]
        exact .paused actor _ hs
      | _ =>
        simp only [RolloutRow.apply, RolloutRow.steer, hs, getD_none]
        exact .stayed _
    | resume =>
      cases hs : row.state with
      | paused reason =>
        simp only [RolloutRow.apply, RolloutRow.steer, hs, getD_some]
        exact .resumed actor _ hs
      | _ =>
        simp only [RolloutRow.apply, RolloutRow.steer, hs, getD_none]
        exact .stayed _
    | abort =>
      cases hs : row.state.active with
      | true =>
        simp only [RolloutRow.apply, RolloutRow.steer, hs, if_true, getD_some]
        exact .aborted actor _ hs
      | false =>
        simp only [RolloutRow.apply, RolloutRow.steer, hs, Bool.false_eq_true, if_false, getD_none]
        exact .stayed _

/-- A rollout's bounds: waves go in order, the failures are within the budget unless it was
aborted, and it is done only with every node ended. -/
structure RolloutRow.Orderly (row : RolloutRow) : Prop where
  waves : ∀ n ∈ row.nodes, n.status.isUpdating = true →
    ∀ m ∈ row.nodes, m.wave < n.wave → m.status.isOpen = false
  budget : row.state.isAborted = false → row.failures ≤ row.maxFailures
  capped : row.failures ≤ min (row.maxFailures + 1) u32Max
  done : row.state = .done → ∀ m ∈ row.nodes, m.status.isOpen = false

theorem RolloutState.isAborted_of_active {state : RolloutState} (h : state.active = true) :
    state.isAborted = false := by
  cases state <;> first | rfl | nomatch h

/-- An advance keeps a rollout orderly. -/
theorem RolloutRow.Orderly.advanced {row row' : RolloutRow} {issued : List String}
    (h : row.Orderly) (ha : Advanced row row' issued) : row'.Orderly := by
  have hmax : row'.maxFailures = row.maxFailures := by rw [ha.kept]
  have hcap := h.capped
  constructor
  case waves =>
    intro n' hn' hu
    obtain ⟨i, hi⟩ := mem_iff_getElem?.mp hn'
    rcases ha.updating i n' hi hu with ⟨n, hn, hnu⟩ | hearlier
    · obtain ⟨n₁, hn₁, hmove⟩ := ha.moved.source hi
      rw [hn, some.injEq] at hn₁
      subst hn₁
      refine ha.moved.ended_mem (p := fun m => m.wave < n'.wave) ?_ ?_
      · intro m m' hm hlt
        rwa [hm.wave_eq] at hlt
      · intro m hm hlt
        rw [hmove.wave_eq] at hlt
        exact h.waves n (mem_of_getElem? hn) hnu m hm hlt
    · exact hearlier
  case budget =>
    intro hna
    rw [hmax]
    cases hact : row.state.active with
    | true => exact (ha.counted hact (h.budget (RolloutState.isAborted_of_active hact)) (by omega)).2 hna
    | false =>
      obtain ⟨hs, hf⟩ := ha.inactive hact
      rw [hf]
      exact h.budget (by rw [← hs]; exact hna)
  case capped =>
    rw [hmax]
    cases hact : row.state.active with
    | true =>
      rw [(ha.counted hact (h.budget (RolloutState.isAborted_of_active hact)) (by omega)).1]
      exact min_le_right _ _
    | false =>
      rw [(ha.inactive hact).2]
      exact hcap
  case done =>
    intro hd
    rcases ha.done hd with hd' | hall
    · refine fun m hm => ha.moved.ended_mem (p := fun _ => True) (fun _ _ _ _ => trivial) ?_ m hm trivial
      exact fun m hm _ => h.done hd' m hm
    · exact hall

theorem RolloutRow.Orderly.apply {row : RolloutRow} (h : row.Orderly) (event : RolloutEvent) :
    (row.apply event).1.Orderly := by
  have happ := row.applied event
  generalize row.apply event = r at happ ⊢
  cases happ with
  | advanced ha => exact h.advanced ha
  | stayed _ => exact h
  | paused actor reason hs | resumed actor reason hs =>
    exact ⟨h.waves, fun _ => h.budget (by rw [hs]; rfl), h.capped, nofun⟩
  | aborted actor reason hs => exact ⟨h.waves, nofun, h.capped, nofun⟩

/-- A rollout stays orderly through any events. -/
theorem RolloutRow.Orderly.run {row : RolloutRow} (h : row.Orderly) (events : List RolloutEvent) :
    (row.run events).1.Orderly := by
  induction events generalizing row with
  | nil => exact h
  | cons event events ih => exact ih (h.apply event)

section

variable (row : RolloutRow)
include row

variable (event : RolloutEvent)

theorem RolloutRow.moved_apply : Moved row.nodes (row.apply event).1.nodes := by
  have happ := row.applied event
  generalize row.apply event = r at happ ⊢
  cases happ with
  | advanced ha => exact ha.moved
  | _ => exact .refl _

theorem RolloutRow.moved_run (events : List RolloutEvent) : Moved row.nodes (row.run events).1.nodes := by
  induction events generalizing row with
  | nil => exact .refl _
  | cons event events ih => exact (row.moved_apply event).trans (ih _)

theorem RolloutRow.maxFailures_apply : (row.apply event).1.maxFailures = row.maxFailures := by
  have happ := row.applied event
  generalize row.apply event = r at happ ⊢
  cases happ with
  | advanced ha => rw [ha.kept]
  | _ => rfl

theorem RolloutRow.maxFailures_run (events : List RolloutEvent) : (row.run events).1.maxFailures = row.maxFailures := by
  induction events generalizing row with
  | nil => rfl
  | cons event events ih => exact (ih _).trans (row.maxFailures_apply event)

/-- A failure stops a rollout that runs. -/
theorem RolloutRow.halted_of_failed (h : failedCount (row.apply event).1.nodes ≠ failedCount row.nodes) :
    (row.apply event).1.state ≠ .running ∧ (row.apply event).2 = [] := by
  have happ := row.applied event
  generalize row.apply event = r at happ h ⊢
  cases happ with
  | advanced ha => exact ha.halted (.inr h)
  | _ => exact absurd rfl h

/-- Only pending nodes of a running rollout are issued an update. -/
theorem RolloutRow.issued_apply {id : String} (hid : id ∈ (row.apply event).2) :
    row.state = .running ∧ (row.apply event).1.state = .running ∧
      ∃ (i : ℕ) (n n' : RolloutNode), row.nodes[i]? = some n ∧
        (row.apply event).1.nodes[i]? = some n' ∧ n'.id = id ∧ n.status = .pending ∧ n'.status.isUpdating = true ∧
        ∀ m ∈ (row.apply event).1.nodes, m.wave < n'.wave → m.status.isOpen = false := by
  have happ := row.applied event
  generalize row.apply event = r at happ hid ⊢
  cases happ with
  | advanced ha =>
    refine ⟨?_, ha.toPending id hid⟩
    by_contra hrun
    rw [(ha.halted (.inl hrun)).2] at hid
    exact absurd hid not_mem_nil
  | _ => exact absurd hid not_mem_nil

theorem RolloutRow.nodup_apply (hids : (row.nodes.map RolloutNode.id).Nodup) : (row.apply event).2.Nodup := by
  have happ := row.applied event
  generalize row.apply event = r at happ ⊢
  cases happ with
  | advanced ha => exact ha.nodup hids
  | _ => exact nodup_nil

/-- No node is issued an update twice. -/
theorem RolloutRow.issued_run (events : List RolloutEvent) (hids : (row.nodes.map RolloutNode.id).Nodup) :
    (row.run events).2.Nodup ∧ ∀ id ∈ (row.run events).2, ∃ n ∈ row.nodes, n.id = id ∧ n.status = .pending := by
  induction events generalizing row with
  | nil => exact ⟨nodup_nil, fun _ hid => absurd hid not_mem_nil⟩
  | cons event events ih =>
    have hmoved := row.moved_apply event
    have hids' : ((row.apply event).1.nodes.map RolloutNode.id).Nodup := by
      rw [hmoved.ids]
      exact hids
    obtain ⟨hnodup, hpend⟩ := ih (row.apply event).1 hids'
    refine ⟨nodup_append.mpr ⟨row.nodup_apply event hids, hnodup, ?_⟩, fun id hid => ?_⟩
    · -- A node issued to now is updating, and whatever is issued to later is pending by then.
      rintro id hid _ hlater rfl
      obtain ⟨-, -, i, n, n', -, hn', hidn, -, hu, -⟩ := row.issued_apply event hid
      obtain ⟨m, hm, hidm, hp⟩ := hpend id hlater
      have heq := inj_on_of_nodup_map hids' (mem_of_getElem? hn') hm (hidn.trans hidm.symm)
      rw [heq, hp] at hu
      nomatch hu
    · rcases mem_append.mp hid with hid | hid
      · obtain ⟨-, -, i, n, n', hn, hn', hidn, hp, -⟩ := row.issued_apply event hid
        obtain ⟨n₁, hn₁, hmove⟩ := hmoved.node i n hn
        rw [hn', some.injEq] at hn₁
        subst hn₁
        exact ⟨n, mem_of_getElem? hn, by rw [← hmove.id_eq, hidn], hp⟩
      · obtain ⟨n', hn', hidn, hp⟩ := hpend id hid
        obtain ⟨i, hi⟩ := mem_iff_getElem?.mp hn'
        obtain ⟨n, hn, hmove⟩ := hmoved.source hi
        refine ⟨n, mem_of_getElem? hn, by rw [← hmove.id_eq, hidn], ?_⟩
        by_contra hne
        exact hmove.left hne hp

end

def RolloutEvent.resumes : RolloutEvent → Bool
  | .steer .resume _ => true
  | _ => false

/-- Until it is resumed, a rollout that does not run issues nothing. -/
theorem RolloutRow.halted_run (row : RolloutRow) (events : List RolloutEvent)
    (hs : row.state ≠ .running) (hevents : ∀ e ∈ events, e.resumes = false) :
    (row.run events).1.state ≠ .running ∧ (row.run events).2 = [] := by
  induction events generalizing row with
  | nil => exact ⟨hs, rfl⟩
  | cons event events ih =>
    have hevent := hevents event mem_cons_self
    have happ := row.applied event
    have hnext : (row.apply event).1.state ≠ .running ∧ (row.apply event).2 = [] := by
      generalize row.apply event = r at happ ⊢
      cases happ with
      | advanced ha => exact ha.halted (.inl hs)
      | stayed _ => exact ⟨hs, rfl⟩
      | paused actor reason h => exact absurd h hs
      | resumed actor reason h => nomatch hevent
      | aborted actor reason h => exact ⟨nofun, rfl⟩
    obtain ⟨hrun, hlater⟩ := ih (row.apply event).1 hnext.1 fun e he => hevents e (mem_cons_of_mem _ he)
    refine ⟨hrun, ?_⟩
    rw [RolloutRow.run_cons_snd, hnext.2]
    exact hlater

/-- A rollout that is over stays as it is. -/
theorem RolloutRow.over_run (row : RolloutRow) (events : List RolloutEvent) (hs : row.state.active = false) :
    (row.run events).1.state = row.state ∧ (row.run events).2 = [] := by
  induction events generalizing row with
  | nil => exact ⟨rfl, rfl⟩
  | cons event events ih =>
    have hne : row.state ≠ .running := by
      intro h
      rw [h] at hs
      nomatch hs
    have happ := row.applied event
    have hnext : (row.apply event).1.state = row.state ∧ (row.apply event).2 = [] := by
      generalize row.apply event = r at happ ⊢
      cases happ with
      | advanced ha => exact ⟨(ha.inactive hs).1, (ha.halted (.inl hne)).2⟩
      | stayed _ => exact ⟨rfl, rfl⟩
      | paused actor reason h => exact absurd h hne
      | resumed actor reason h | aborted actor reason h =>
        rw [h] at hs
        nomatch hs
    obtain ⟨hrun, hlater⟩ := ih (row.apply event).1 (by rw [hnext.1]; exact hs)
    refine ⟨hrun.trans hnext.1, ?_⟩
    rw [RolloutRow.run_cons_snd, hnext.2]
    exact hlater

/-- How many nodes fail over events in advances of a rollout that is still to finish. -/
def failedWhileActive : RolloutRow → List RolloutEvent → ℕ
  | _, [] => 0
  | row, event :: events =>
    (if row.state.active then failedCount (row.apply event).1.nodes - failedCount row.nodes else 0) +
      failedWhileActive (row.apply event).1 events

theorem RolloutRow.Orderly.failures_apply {row : RolloutRow} (h : row.Orderly) (event : RolloutEvent) :
    (row.apply event).1.failures = blamedFailures row
      (if row.state.active then failedCount (row.apply event).1.nodes - failedCount row.nodes else 0) := by
  have hcap := h.capped
  have hzero : blamedFailures row 0 = row.failures := min_eq_left hcap
  have happ := row.applied event
  generalize row.apply event = r at happ ⊢
  cases happ with
  | advanced ha =>
    cases hact : row.state.active with
    | true =>
      rw [if_pos rfl]
      exact (ha.counted hact (h.budget (RolloutState.isAborted_of_active hact)) (by omega)).1
    | false =>
      rw [if_neg Bool.false_ne_true, hzero]
      exact (ha.inactive hact).2
  | _ => simp only [Nat.sub_self, ite_self, hzero]

/-- The failures counted are those found while the rollout was active. -/
theorem RolloutRow.Orderly.failures_run {row : RolloutRow} (h : row.Orderly) (events : List RolloutEvent) :
    (row.run events).1.failures = blamedFailures row (failedWhileActive row events) := by
  induction events generalizing row with
  | nil => exact (min_eq_left h.capped).symm
  | cons event events ih =>
    have hstep := h.failures_apply event
    have hmax := row.maxFailures_apply event
    rw [RolloutRow.run, ih (h.apply event), failedWhileActive]
    simp only [blamedFailures, hmax, hstep]
    generalize (if row.state.active then failedCount (row.apply event).1.nodes - failedCount row.nodes else 0) = now
    generalize u32Max = cap
    omega

end Virtkit.Fleet
