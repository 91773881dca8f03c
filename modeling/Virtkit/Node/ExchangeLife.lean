import Virtkit.Node.ExchangeRuns

/-!
# A command runs at most once

Over every run of a node and its hub: each command is carried out at most once and before it expires,
the node's answers and the outcomes the hub stores go from accepted to one final outcome, and the node
drops a journaled command only when it is over and the hub stored its outcome or forgot the command. The
hub forgets a command that was not answered once it expired long ago, but still replies to a late
answer of it as recorded. What it stores is the answer with its text made safe to print.
-/

namespace Virtkit.Node

open Virtkit.Common Virtkit.Fleet Option

section Life

variable {name : String} {s s' : Exchange}

/-- What the node's journal keeps in a step of the exchange. -/
theorem Exchange.Sound.kept (hs : s.Sound name) {event : ExchangeEvent}
    (hstep : s.next name event = some s') : ∃ notes fresh,
      Kept notes fresh s.node.persisted.journal s'.node.persisted.journal ∧
      ∀ x ∈ notes, x ∈ s.node.answered ∧ (x.2 ≠ .accepted → s.hub.Keeps x.1 x.2) := by
  have hmoved : ∀ {may es}, List.Forall₂ (Moved may) s.node.persisted.journal es →
      ∃ notes fresh, Kept notes fresh s.node.persisted.journal es ∧
        ∀ x ∈ notes, x ∈ s.node.answered ∧ (x.2 ≠ .accepted → s.hub.Keeps x.1 x.2) := fun hm =>
    ⟨[], none, kept_of_moved hm, nofun⟩
  have hsame := hmoved (moved_refl never s.node.persisted.journal)
  unfold Exchange.next at hstep
  cases event with
  | issue command =>
    dsimp only at hstep
    split_ifs at hstep
    cases hstep
    exact hsame
  | deliver can =>
    dsimp only at hstep
    split at hstep
    · nomatch hstep
    · next command rest hnext =>
      cases hstep
      cases hfind : s.node.persisted.journal.find? (·.id = command.id) with
      | none => exact ⟨[], _, kept_commandAs hs.node.journaled hfind s.node.now can, nofun⟩
      | some entry =>
        have heq : (s.node.take command can).persisted = s.node.persisted := by
          unfold NodeSide.take Persisted.commandAs
          rw [hfind]
        dsimp only
        rw [heq]
        exact hsame
    · next id outcome rest hnext =>
      cases hstep
      refine ⟨[(id, outcome)], none, kept_recorded _ id outcome _, fun x hx => ?_⟩
      obtain rfl := List.mem_singleton.mp hx
      exact (hs.link.notes id outcome (hnext ▸ List.mem_cons_self)).imp_right fun hkept hfinal => (hkept hfinal).2
  | tell id | acknowledgeLate i =>
    obtain ⟨ack, -, rfl⟩ := map_eq_some_iff.mp hstep
    exact hsame
  | acknowledge =>
    dsimp only at hstep
    split at hstep
    · nomatch hstep
    · cases hstep
      exact hsame
  | step event =>
    dsimp only at hstep
    split_ifs at hstep with hown
    obtain ⟨p, hp, rfl⟩ := map_eq_some_iff.mp hstep
    obtain ⟨may, hc⟩ := moves_of_ownStep hs.node.journaled hown hp
    exact hmoved hc.journal
  | _ =>
    cases hstep
    exact hsame

theorem forgotten_next {event : ExchangeEvent} (hstep : s.next name event = some s') {id : String}
    (hid : id ∈ s'.hub.forgotten) : id ∈ s.hub.forgotten ∨
      ∃ row, s.hub.commands.lookup (name, id) = some row ∧ row.outcome = none ∧
        commandKeep < s.hub.now - row.command.expiresAt := by
  unfold Exchange.next at hstep
  cases event with
  | issue command =>
    dsimp only at hstep
    split_ifs at hstep
    cases hstep
    refine (List.mem_append.mp hid).symm.imp_right fun hmem => ?_
    obtain ⟨-, hgone⟩ := List.mem_filter.mp hmem
    obtain ⟨hany, hnone⟩ := (Bool.and_eq_true _ _).mp hgone
    obtain ⟨row, hrow, hout⟩ := (any_eq_true _ _).mp hany
    have hout := of_decide_eq_true hout
    refine ⟨row, hrow, hout, ?_⟩
    unfold insertCommand at hnone
    dsimp only at hnone
    rw [Table.lookup_insert_ite] at hnone
    split_ifs at hnone
    · nomatch hnone
    · rw [Table.lookup_retain, hrow] at hnone
      have hsettled : row.settledBefore s.hub.now commandKeep = true := by
        by_contra hkept
        simp [hkept] at hnone
      unfold CommandRow.settledBefore at hsettled
      rw [hout] at hsettled
      exact of_decide_eq_true hsettled
  | deliver can =>
    dsimp only at hstep
    split at hstep
    · nomatch hstep
    · cases hstep
      exact .inl hid
    · cases hstep
      exact .inl hid
  | tell id | acknowledgeLate i =>
    obtain ⟨ack, -, rfl⟩ := map_eq_some_iff.mp hstep
    exact .inl hid
  | acknowledge =>
    dsimp only at hstep
    split at hstep
    · nomatch hstep
    · cases hstep
      exact .inl hid
  | step event =>
    dsimp only at hstep
    split_ifs at hstep
    obtain ⟨p, -, rfl⟩ := map_eq_some_iff.mp hstep
    exact .inl hid
  | _ =>
    cases hstep
    exact .inl hid

/-- A node took a command: it carried the command out, and its history says so, or it changed nothing but its
journal. -/
def NodeSide.Took (n : NodeSide) (command : Command) (can : Abilities) (n' : NodeSide) : Prop :=
  n'.executed = (command.id, command.expiresAt, n.now) :: n.executed ∧
      (∃ journal, n'.persisted = { (n.persisted.execute command n.now can).1 with journal := journal }) ∨
    n'.executed = n.executed ∧ ∃ journal, n'.persisted = { n.persisted with journal := journal }

theorem NodeSide.took_take (n : NodeSide) (command : Command) (can : Abilities) :
    n.Took command can (n.take command can) := by
  unfold NodeSide.Took NodeSide.take Persisted.commandAs
  cases hfind : n.persisted.journal.find? (·.id = command.id) with
  | some entry =>
    have hid := List.find?_some hfind
    have hany : n.persisted.journal.any (·.id = command.id) = true :=
      List.any_eq_true.mpr ⟨entry, List.mem_of_find?_eq_some hfind, hid⟩
    rw [hany]
    exact .inr ⟨rfl, _, rfl⟩
  | none =>
    have hany : n.persisted.journal.any (·.id = command.id) = false :=
      List.any_eq_false.mpr (List.find?_eq_none.mp hfind)
    rw [hany]
    by_cases hlate : command.expiresAt ≤ n.now
    · rw [if_pos hlate, if_neg (by simpa using hlate)]
      exact .inr ⟨rfl, _, rfl⟩
    · rw [if_neg hlate, if_pos (by simpa using hlate)]
      exact .inl ⟨rfl, _, rfl⟩

/-- In every run of a node and its hub, a command is carried out at most once, and before it expires: a
delivery that does not carry its command out changes nothing of the node but its journal. The answers to a
command go from accepted to one final outcome; so do the outcomes stored for it, of which the last is the one
kept, and each is the safe form of an answer. A journaled command is dropped only when it is over, with its
outcome stored by the hub or the command forgotten by it, which happens only to a command without an answer
long past its expiry. -/
theorem command_runs_once (h : (exchangeSystem name).Reachable s) :
    ((s.node.executed.map Prod.fst).Nodup ∧ ∀ x ∈ s.node.executed, x.2.2 < x.2.1) ∧
    s.node.answered.Pairwise Follows ∧ s.hub.stored.Pairwise Follows ∧
    (∀ id row, s.hub.commands.lookup (name, id) = some row → row.outcome = s.hub.last id) ∧
    (∀ x ∈ s.hub.stored, ∃ o, (x.1, o) ∈ s.node.answered ∧ displaySafeOutcome o = x.2) ∧
    (∀ command rest can s', s.link.toNode = .command command :: rest →
      s.next name (.deliver can) = some s' → s.node.Took command can s'.node) ∧
    ∀ event s', s.next name event = some s' →
      (∀ e ∈ s.node.persisted.journal, (∀ e' ∈ s'.node.persisted.journal, e'.id ≠ e.id) →
        e.outcome ≠ .accepted ∧
          ((e.id, displaySafeOutcome e.outcome) ∈ s.hub.stored ∨ e.id ∈ s.hub.forgotten)) ∧
      ∀ id ∈ s'.hub.forgotten, id ∈ s.hub.forgotten ∨
        ∃ row, s.hub.commands.lookup (name, id) = some row ∧ row.outcome = none ∧
          commandKeep < s.hub.now - row.command.expiresAt := by
  have hs := sound_of_exchange h
  refine ⟨⟨hs.node.once, fun x hx => (hs.node.runs x hx).1⟩, hs.node.tracks.order, hs.hub.order,
    fun id row hrow => (hs.hub.rows id row hrow).2.2, hs.hub.given, fun command rest can s' hnext hstep => ?_,
    fun event s' hstep => ⟨?_, ?_⟩⟩
  · unfold Exchange.next at hstep
    rw [hnext] at hstep
    cases hstep
    exact s.node.took_take command can
  · intro e he hgone
    obtain ⟨notes, fresh, hk, hnotes⟩ := hs.kept hstep
    exact hs.node.tracks.dropped hk hnotes he hgone
  · exact fun id hid => forgotten_next hstep hid

end Life

section Examples

def enrolled : Exchange :=
  ⟨⟨∅, 0, [], [], []⟩, ⟨[], [], [], []⟩, ⟨.default, false, 0, [], []⟩⟩

theorem enrolled_init : (exchangeSystem "node").init enrolled :=
  ⟨rfl, rfl, rfl, rfl, rfl, rfl, rfl, rfl, rfl, rfl, rfl⟩

/-- Every command readable is sent, and the node takes it. -/
def handedOver : List ExchangeEvent := [.sync fun _ => false, .deliver ⟨false, .ok ()⟩]

/-- Sent again after a lost answer, a quarantine is carried out once and stored as done. -/
theorem command_runs_once_redelivered : ∃ s : Exchange, (exchangeSystem "node").Reachable s ∧
    s.node.executed = [("quarantine", 10, 0)] ∧ s.node.answered.length = 2 ∧
    s.hub.stored = [("quarantine", .done)] ∧ (s.node.executed.map Prod.fst).Nodup := by
  obtain ⟨s, hreach, hexecuted, hanswered, hstored⟩ : ∃ s : Exchange, (exchangeSystem "node").Reachable s ∧
      s.node.executed = [("quarantine", 10, 0)] ∧ s.node.answered.length = 2 ∧
      s.hub.stored = [("quarantine", .done)] :=
    System.exists_reachable enrolled (.issue ⟨"quarantine", 10, .quarantine⟩ :: handedOver ++
      [.loseToHub 0, .reconnect true] ++ handedOver ++ [.acknowledge]) enrolled_init (by decide +kernel)
  exact ⟨s, hreach, hexecuted, hanswered, hstored, (command_runs_once hreach).1.1⟩

/-- A quarantine is carried out, but its answer is lost, and the node is away until the hub has dropped
the command. Told the answer then, the hub stores nothing and replies that it is recorded, and the node
drops its entry. And of an update that failed with a control character in its error, the hub stores an
outcome that the node never gave. -/
theorem entry_dropped_unstored : (∃ s s' : Exchange, (exchangeSystem "node").Reachable s ∧
      s.next "node" (.deliver ⟨false, .ok ()⟩) = some s' ∧
      s.node.persisted.journal.map (fun e => (e.id, e.outcome)) = [("quarantine", .done)] ∧
      s'.node.persisted.journal = [] ∧ s.hub.stored = []) ∧
    ∃ s : Exchange, (exchangeSystem "node").Reachable s ∧
      s.hub.stored = [("update", .failed "bad")] ∧ ∀ x ∈ s.node.answered, x ∉ s.hub.stored := by
  constructor
  · obtain ⟨s, hreach, hjournal, hstored, hnext⟩ : ∃ s : Exchange, (exchangeSystem "node").Reachable s ∧
        s.node.persisted.journal.map (fun e => (e.id, e.outcome)) = [("quarantine", .done)] ∧ s.hub.stored = [] ∧
        (s.next "node" (.deliver ⟨false, .ok ()⟩)).any (·.node.persisted.journal = []) = true :=
      System.exists_reachable enrolled (.issue ⟨"quarantine", 10, .quarantine⟩ :: handedOver ++
        [.loseToHub 0, .reconnect false, .wait 2592011 2592011, .issue ⟨"later", 5000000, .drain⟩,
          .tell "quarantine", .acknowledge]) enrolled_init (by decide +kernel)
    obtain ⟨s', hs', hdropped⟩ := (any_eq_true _ _).mp hnext
    exact ⟨s, s', hreach, hs', hjournal, of_decide_eq_true hdropped, hstored⟩
  · exact System.exists_reachable enrolled
      (.issue ⟨"update", 10, .update "2.0.0" (String.ofList (List.replicate 64 'a')) 1 none true none⟩ ::
        handedOver ++ [.loseToHub 0, .step (.endUpdate (some "bad\n") .failed false), .tell "update",
          .acknowledge]) enrolled_init (by decide +kernel)

end Examples

end Virtkit.Node
