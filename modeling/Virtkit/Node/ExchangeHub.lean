import Virtkit.Node.Journaled

/-!
# A node and its hub exchanging commands

The hub issues commands to a node, sends those still to finish once in each session, oldest first, and
records the node's answers, replying to each that it did. The node carries out a command it has not
journaled, answers every delivery, and repeats the answers the hub has not recorded. Messages arrive in
order within a session, and any may be lost; a session that ends loses those on their way to the node,
while the hub may still come to handle answers already sent. Both sides persist what they keep, so that
a restart of either is the end of a session.

With each side goes its history: the commands issued, the outcomes stored and the commands dropped
without one; the answers given, newest first, and the commands carried out, with their expiry and the
time. A session tells each answer once; here a node may repeat those not recorded at any time.
-/

namespace Virtkit.Node

open Virtkit.Common Virtkit.Fleet List Table

inductive HubMsg where
  | command (command : Command)
  | recorded (id : String) (outcome : Outcome)
  deriving DecidableEq

/-- The hub's side: the commands it keeps, its clock, and its history. -/
structure HubSide where
  commands : Commands
  now : ℕ
  issued : List String
  stored : List (String × Outcome)
  forgotten : List String

/-- The messages on their way in the session, the answers of earlier sessions that the hub may still
handle, and the commands sent in the session. -/
structure Link where
  toNode : List HubMsg
  toHub : List (String × Outcome)
  late : List (String × Outcome)
  sent : List String

/-- The node's side: its persisted state, whether its update task is about to quarantine it, its clock
and its history. -/
structure NodeSide where
  persisted : Persisted
  quarantining : Bool
  now : ℕ
  answered : List (String × Outcome)
  executed : List (String × ℕ × ℕ)

structure Exchange where
  hub : HubSide
  link : Link
  node : NodeSide

/-- What happens between a node and its hub. -/
inductive ExchangeEvent where
  /-- Time passes at the hub and at the node. -/
  | wait (hub node : ℕ)
  | issue (command : Command)
  /-- The session sends the commands still to finish that it has not sent, but for those the node
  cannot read. -/
  | sync (unreadable : Command → Bool)
  /-- The node handles the next message. -/
  | deliver (can : Abilities)
  /-- The node sends an answer that the hub has not recorded. -/
  | tell (id : String)
  /-- The hub handles the next answer of the session. -/
  | acknowledge
  /-- The hub handles an answer of an earlier session. -/
  | acknowledgeLate (i : ℕ)
  | loseToNode (i : ℕ)
  | loseToHub (i : ℕ)
  /-- The session ends and another begins, the node started again or not. -/
  | reconnect (restart : Bool)
  /-- A step of the node's own. -/
  | step (event : NodeEvent)

/-- Whether an event is a step of the node's own for the same issuer. -/
def ownStep : NodeEvent → Bool
  | .command .. | .recorded .. | .restart _ => false
  | _ => true

section Sides

variable (name : String)

/-- Issue a command, which drops those settled long ago. -/
def HubSide.issue (h : HubSide) (command : Command) : HubSide :=
  let commands := insertCommand h.commands name command h.now
  { h with
    commands := commands
    issued := command.id :: h.issued
    forgotten := h.issued.filter (fun id =>
      (h.commands.lookup (name, id)).any (·.outcome = none) &&
        (commands.lookup (name, id)).isNone) ++ h.forgotten }

def HubSide.record (h : HubSide) (ack : String × Outcome) : HubSide :=
  { h with
    commands := recordAck h.commands name ack.1 ack.2 h.now
    stored := if (h.commands.lookup (name, ack.1)).any (fun row =>
        row.pending && row.outcome ≠ some (displaySafeOutcome ack.2))
      then (ack.1, displaySafeOutcome ack.2) :: h.stored else h.stored }

def NodeSide.take (n : NodeSide) (command : Command) (can : Abilities) : NodeSide :=
  { n with
    persisted := (n.persisted.commandAs command n.now can).1
    answered := (command.id, (n.persisted.commandAs command n.now can).2) :: n.answered
    executed := if !n.persisted.journal.any (·.id = command.id) && n.now < command.expiresAt
      then (command.id, command.expiresAt, n.now) :: n.executed else n.executed }

def Exchange.next (s : Exchange) : ExchangeEvent → Option Exchange
  | .wait hub node => some { s with
      hub := { s.hub with now := s.hub.now + hub }
      node := { s.node with now := s.node.now + node } }
  | .issue command =>
    if command.id ∈ s.hub.issued then none else some { s with hub := s.hub.issue name command }
  | .sync unreadable =>
    let commands := (pendingCommands s.hub.commands name s.hub.now).filter fun c =>
      !unreadable c && c.id ∉ s.link.sent
    some { s with link := { s.link with
      toNode := s.link.toNode ++ commands.map .command
      sent := commands.map Command.id ++ s.link.sent } }
  | .deliver can =>
    match s.link.toNode with
    | [] => none
    | .command command :: rest =>
      some { s with
        link := { s.link with
          toNode := rest
          toHub := s.link.toHub ++ [(command.id, (s.node.persisted.commandAs command s.node.now can).2)] }
        node := s.node.take command can }
    | .recorded id outcome :: rest =>
      some { s with
        link := { s.link with toNode := rest }
        node := { s.node with persisted := s.node.persisted.recorded id outcome s.node.now } }
  | .tell id =>
    (s.node.persisted.unrecorded.find? fun ack => ack.1 = id).map fun ack =>
      { s with
        link := { s.link with toHub := s.link.toHub ++ [ack] }
        node := { s.node with answered := ack :: s.node.answered } }
  | .acknowledge =>
    match s.link.toHub with
    | [] => none
    | ack :: rest => some { s with
        hub := s.hub.record name ack
        link := { s.link with
          toHub := rest
          toNode := s.link.toNode ++ [.recorded ack.1 ack.2] } }
  | .acknowledgeLate i =>
    (s.link.late[i]?).map fun ack => { s with
      hub := s.hub.record name ack
      link := { s.link with late := s.link.late.eraseIdx i } }
  | .loseToNode i => some { s with link := { s.link with toNode := s.link.toNode.eraseIdx i } }
  | .loseToHub i => some { s with link := { s.link with toHub := s.link.toHub.eraseIdx i } }
  | .reconnect restart => some { s with
      link := ⟨[], [], s.link.late ++ s.link.toHub, []⟩
      node := { s.node with quarantining := s.node.quarantining && !restart } }
  | .step event =>
    if ownStep event then
      (s.node.persisted.apply s.node.quarantining event).map fun p => { s with
        node := { s.node with
          persisted := p
          quarantining := quarantiningAfter s.node.quarantining event } }
    else none

def exchangeSystem : System Exchange ExchangeEvent :=
  .ofFunction (fun s => s.hub.commands = ∅ ∧ s.hub.issued = [] ∧ s.hub.stored = [] ∧
    s.hub.forgotten = [] ∧ s.link = ⟨[], [], [], []⟩ ∧ s.node.persisted.journal = [] ∧
    s.node.persisted.job = none ∧ s.node.persisted.tools = none ∧ s.node.quarantining = false ∧
    s.node.answered = [] ∧ s.node.executed = []) (Exchange.next name)

end Sides

/-!
## The hub's side of commands

What the hub stores for a command only moves from accepted to a final outcome, and is the text-safe
form of an answer the node gave. A command is gone from the table only with a final outcome stored, or
forgotten: dropped without an answer long after its expiry.
-/

/-- Of two values given for one command, the later is the same, or the earlier is accepted. -/
def Follows (later earlier : String × Outcome) : Prop :=
  later.1 = earlier.1 → earlier.2 = later.2 ∨ earlier.2 = .accepted

/-- The hub does not send a command any more. -/
def HubSide.Over (name : String) (h : HubSide) (id : String) : Prop :=
  ∀ row, h.commands.lookup (name, id) = some row → row.pending = false

/-- The hub has stored an outcome of a command, or forgot the command. -/
def HubSide.Keeps (h : HubSide) (id : String) (outcome : Outcome) : Prop :=
  (id, displaySafeOutcome outcome) ∈ h.stored ∨ id ∈ h.forgotten

/-- The outcome last stored for a command. -/
def HubSide.last (h : HubSide) (id : String) : Option Outcome :=
  (h.stored.find? fun x => x.1 = id).map Prod.snd

/-- What the hub's side keeps to, given the node's answers. -/
structure HubSide.Sound (name : String) (h : HubSide) (answered : List (String × Outcome)) : Prop where
  rows : ∀ id row, h.commands.lookup (name, id) = some row → row.command.id = id ∧ id ∈ h.issued ∧
    row.outcome = h.last id
  gone : ∀ id, id ∈ h.issued → h.commands.lookup (name, id) = none → id ∈ h.forgotten ∨
    ∃ o, o ≠ .accepted ∧ (id, o) ∈ h.stored
  final : ∀ x ∈ h.stored, x.2 ≠ .accepted → h.Over name x.1
  known : ∀ x ∈ h.stored, x.1 ∈ h.issued
  given : ∀ x ∈ h.stored, ∃ o, (x.1, o) ∈ answered ∧ displaySafeOutcome o = x.2
  order : h.stored.Pairwise Follows

section Hub

variable {name : String} {h : HubSide} {answered answered' : List (String × Outcome)}

variable {outcome : Outcome}

theorem displaySafeOutcome_accepted : displaySafeOutcome outcome = .accepted ↔ outcome = .accepted := by
  cases outcome with
  | accepted | done => exact Iff.rfl
  | failed message | refused reason => exact ⟨nofun, nofun⟩
  | expired => exact Iff.rfl

variable {id : String}

/-- A command has one final outcome. -/
theorem final_unique (horder : answered.Pairwise Follows) {o o' : Outcome} (ho : (id, o) ∈ answered)
    (ho' : (id, o') ∈ answered) (hfinal : o ≠ .accepted) (hfinal' : o' ≠ .accepted) : o = o' := by
  by_cases heq : (id, o) = (id, o')
  · exact congrArg Prod.snd heq
  · have hpair := pairwise_iff_getElem.mp horder
    obtain ⟨i, hi, hio⟩ := getElem_of_mem ho
    obtain ⟨j, hj, hjo⟩ := getElem_of_mem ho'
    rcases Nat.lt_trichotomy i j with hlt | rfl | hgt
    · have hf := hpair i j hi hj hlt
      rw [hio, hjo] at hf
      rcases hf rfl with hsame | hacc
      · exact hsame.symm
      · exact absurd hacc hfinal'
    · exact absurd (hio.symm.trans hjo) heq
    · have hf := hpair j i hj hi hgt
      rw [hio, hjo] at hf
      rcases hf rfl with hsame | hacc
      · exact hsame
      · exact absurd hacc hfinal

theorem pending_eq_false {row : CommandRow} : row.pending = false ↔ ∃ o, row.outcome = some o ∧ o ≠ .accepted := by
  unfold CommandRow.pending
  cases row.outcome with
  | none => exact ⟨nofun, fun ⟨_, h, _⟩ => (nomatch h)⟩
  | some o =>
    constructor
    · intro hp
      refine ⟨o, rfl, fun hacc => ?_⟩
      rw [hacc] at hp
      nomatch hp
    · rintro ⟨o', ho', hne⟩
      cases ho'
      simp [hne]

theorem mem_of_last {o : Outcome} (ho : h.last id = some o) : (id, o) ∈ h.stored := by
  obtain ⟨x, hx, rfl⟩ := Option.map_eq_some_iff.mp ho
  have hid : x.1 = id := by simpa using find?_some hx
  exact hid ▸ mem_of_find?_eq_some hx

theorem HubSide.Sound.mem_stored (hs : h.Sound name answered) {row : CommandRow}
    (hrow : h.commands.lookup (name, id) = some row) {o : Outcome} (ho : row.outcome = some o) : (id, o) ∈ h.stored :=
  mem_of_last ((hs.rows id row hrow).2.2.symm.trans ho)

theorem HubSide.Sound.mono (hs : h.Sound name answered)
    (hsub : ∀ x, x ∈ answered → x ∈ answered') : h.Sound name answered' :=
  ⟨hs.rows, hs.gone, hs.final, hs.known, fun x hx =>
    let ⟨o, ho, heq⟩ := hs.given x hx
    ⟨o, hsub _ ho, heq⟩, hs.order⟩

theorem lookup_issue (h : HubSide) (name : String) (command : Command) (id : String) :
    (∃ row, id = command.id ∧ (h.issue name command).commands.lookup (name, id) = some row ∧
      row.command = command ∧ row.outcome = none) ∨
    id ≠ command.id ∧ ((h.issue name command).commands.lookup (name, id) = h.commands.lookup (name, id) ∨
      (h.issue name command).commands.lookup (name, id) = none ∧
        ∀ row, h.commands.lookup (name, id) = some row → row.outcome ≠ some .accepted) := by
  unfold HubSide.issue insertCommand
  rw [lookup_insert_ite]
  by_cases hid : id = command.id
  · subst hid
    rw [if_pos rfl]
    exact .inl ⟨_, rfl, rfl, rfl, rfl⟩
  · rw [if_neg (by simp [hid]), lookup_retain]
    refine .inr ⟨hid, ?_⟩
    cases hrow : h.commands.lookup (name, id) with
    | none => exact .inl rfl
    | some row =>
      by_cases hsettled : row.settledBefore h.now commandKeep = true
      · refine .inr ⟨by simp [hsettled], fun row' hrow' => ?_⟩
        cases hrow'
        intro hacc
        rw [CommandRow.settledBefore, hacc] at hsettled
        nomatch hsettled
      · exact .inl (by simp [hsettled])

theorem HubSide.Over.issue (ho : h.Over name id) {command : Command} (hne : id ≠ command.id) :
    (h.issue name command).Over name id := by
  intro row hrow
  rcases lookup_issue h name command id with ⟨-, heq, -⟩ | ⟨-, hsame | ⟨hnone, -⟩⟩
  · exact absurd heq hne
  · exact ho row (hsame.symm.trans hrow)
  · rw [hnone] at hrow
    nomatch hrow

/-- A new command keeps the hub's side sound. -/
theorem HubSide.Sound.issue (hs : h.Sound name answered) {command : Command}
    (hnew : command.id ∉ h.issued) : (h.issue name command).Sound name answered := by
  refine ⟨fun id row hrow => ?_, fun id hid hnone => ?_, fun x hx hfinal => ?_,
    fun x hx => mem_cons_of_mem _ (hs.known x hx), hs.given, hs.order⟩
  · rcases lookup_issue h name command id with ⟨row', rfl, hrow', hc, hout⟩ | ⟨-, hsame | ⟨hnone, -⟩⟩
    · obtain rfl := Option.some.inj (hrow'.symm.trans hrow)
      refine ⟨by rw [hc], mem_cons_self, hout.trans (Eq.symm ?_)⟩
      cases hlast : (h.issue name command).last command.id with
      | none => rfl
      | some o => exact absurd (hs.known _ (mem_of_last (h := h) hlast)) hnew
    · obtain ⟨hid, hissued, hstored⟩ := hs.rows id row (hsame.symm.trans hrow)
      exact ⟨hid, mem_cons_of_mem _ hissued, hstored⟩
    · rw [hnone] at hrow
      nomatch hrow
  · rcases lookup_issue h name command id with ⟨row', -, hrow', -⟩ | ⟨hne, hcases⟩
    · rw [hnone] at hrow'
      nomatch hrow'
    · have hissued : id ∈ h.issued := (mem_cons.mp hid).resolve_left hne
      cases hold : h.commands.lookup (name, id) with
      | none => exact (hs.gone id hissued hold).imp_left fun hf => mem_append_right _ hf
      | some row =>
        cases hout : row.outcome with
        | none =>
          refine .inl (mem_append_left _ (mem_filter.mpr ⟨hissued, ?_⟩))
          have hnone' : (insertCommand h.commands name command h.now).lookup (name, id) = none := hnone
          rw [hold, hnone']
          simp [hout]
        | some o =>
          refine .inr ⟨o, fun hacc => ?_, hs.mem_stored hold hout⟩
          rcases hcases with hsame | ⟨-, hnot⟩
          · rw [hold, hnone] at hsame
            nomatch hsame
          · exact hnot row hold (by rw [hout, hacc])
  · refine (hs.final x hx hfinal).issue ?_
    intro heq
    exact hnew (heq ▸ hs.known x hx)

/-- An answer is recorded while its command is pending, and then not again. -/
theorem record_cases (h : HubSide) (name : String) (ack : String × Outcome) :
    (∃ row, h.commands.lookup (name, ack.1) = some row ∧ row.pending = true ∧ h.record name ack = { h with
        commands := h.commands.insert (name, ack.1)
          { row with outcome := some (displaySafeOutcome ack.2), outcomeAt := some h.now }
        stored := (ack.1, displaySafeOutcome ack.2) :: h.stored }) ∨
    (∀ row, h.commands.lookup (name, ack.1) = some row → row.pending = true →
      row.outcome = some (displaySafeOutcome ack.2)) ∧ h.record name ack = h := by
  unfold HubSide.record recordAck
  cases hrow : h.commands.lookup (name, ack.1) with
  | none =>
    refine .inr ⟨nofun, ?_⟩
    simp
  | some row =>
    by_cases hnews : (row.pending && row.outcome ≠ some (displaySafeOutcome ack.2)) = true
    · refine .inl ⟨row, rfl, ((Bool.and_eq_true _ _).mp hnews).1, ?_⟩
      simp only [hnews, Option.any_some, if_true]
    · refine .inr ⟨fun row' hrow' hp => ?_, ?_⟩
      · cases hrow'
        rw [hp, Bool.true_and, decide_eq_true_eq, not_not] at hnews
        exact hnews
      · simp only [hnews, Option.any_some, Bool.false_eq_true, if_false]

theorem HubSide.Over.record (ho : h.Over name id) (ack : String × Outcome) : (h.record name ack).Over name id := by
  rcases record_cases h name ack with ⟨row, hrow, hpending, heq⟩ | ⟨-, heq⟩
  · rw [heq]
    intro row' hrow'
    rw [lookup_insert_ite] at hrow'
    split_ifs at hrow' with hkey
    · rw [Prod.mk.injEq] at hkey
      rw [ho row (hkey.2 ▸ hrow)] at hpending
      nomatch hpending
    · exact ho row' hrow'
  · rw [heq]
    exact ho

theorem HubSide.Keeps.record (hk : h.Keeps id outcome) (name : String) (ack : String × Outcome) :
    (h.record name ack).Keeps id outcome := by
  rcases record_cases h name ack with ⟨row, -, -, heq⟩ | ⟨-, heq⟩
  · rw [heq]
    exact hk.imp_left fun hmem => mem_cons_of_mem _ hmem
  · rw [heq]
    exact hk

theorem HubSide.Keeps.issue (hk : h.Keeps id outcome) (name : String) (command : Command) :
    (h.issue name command).Keeps id outcome :=
  hk.imp_right fun hmem => mem_append_right _ hmem

/-- An answer that the node gave keeps the hub's side sound. -/
theorem HubSide.Sound.record (hs : h.Sound name answered) {ack : String × Outcome}
    (hack : ack ∈ answered) : (h.record name ack).Sound name answered := by
  rcases record_cases h name ack with ⟨row, hrow, hpending, heq⟩ | ⟨-, heq⟩
  · -- What was stored for the command before was accepted: it was still to finish.
    have hbefore : ∀ x ∈ h.stored, x.1 = ack.1 → x.2 = .accepted := by
      intro x hx hid
      by_contra hfinal
      rw [hs.final x hx hfinal row (by rw [hid]; exact hrow)] at hpending
      nomatch hpending
    obtain ⟨hid, hissued, -⟩ := hs.rows ack.1 row hrow
    rw [heq]
    have hlookup : ∀ id, (h.commands.insert (name, ack.1)
        { row with outcome := some (displaySafeOutcome ack.2), outcomeAt := some h.now }).lookup
          (name, id) = if id = ack.1 then
            some { row with outcome := some (displaySafeOutcome ack.2), outcomeAt := some h.now }
          else h.commands.lookup (name, id) := by
      intro id
      rw [lookup_insert_ite]
      simp only [Prod.mk.injEq, true_and]
    refine ⟨fun id row' hrow' => ?_, fun id hmem hnone => ?_, fun x hx hfinal => ?_, fun x hx => ?_,
      fun x hx => ?_, pairwise_cons.mpr ⟨fun x hx hsame => .inr (hbefore x hx hsame.symm), hs.order⟩⟩
    · rw [hlookup] at hrow'
      split_ifs at hrow' with hsame
      · cases hrow'
        subst hsame
        refine ⟨hid, hissued, ?_⟩
        simp [HubSide.last]
      · obtain ⟨hid', hissued', hlast⟩ := hs.rows id row' hrow'
        refine ⟨hid', hissued', hlast.trans ?_⟩
        have hne : ack.1 ≠ id := fun heq => hsame heq.symm
        simp [HubSide.last, hne]
    · rw [hlookup] at hnone
      split_ifs at hnone
      exact (hs.gone id hmem hnone).imp_right fun ⟨o, ho, hmem⟩ => ⟨o, ho, mem_cons_of_mem _ hmem⟩
    · intro row' hrow'
      rw [hlookup] at hrow'
      rcases mem_cons.mp hx with rfl | hx
      · rw [if_pos rfl] at hrow'
        cases hrow'
        exact pending_eq_false.mpr ⟨_, rfl, hfinal⟩
      · split_ifs at hrow' with hsame
        · exact absurd (hbefore x hx hsame) hfinal
        · exact hs.final x hx hfinal row' hrow'
    · rcases mem_cons.mp hx with rfl | hx
      · exact hissued
      · exact hs.known x hx
    · rcases mem_cons.mp hx with rfl | hx
      · exact ⟨ack.2, hack, rfl⟩
      · exact hs.given x hx
  · rw [heq]
    exact hs

/-- A final answer that the hub handled is stored, or the command was forgotten; and the hub does not
send the command any more. -/
theorem HubSide.Sound.handled (hs : h.Sound name answered) (horder : answered.Pairwise Follows)
    {ack : String × Outcome} (hack : ack ∈ answered) (hissued : ack.1 ∈ h.issued) (hfinal : ack.2 ≠ .accepted) :
    (h.record name ack).Over name ack.1 ∧ (h.record name ack).Keeps ack.1 ack.2 := by
  have hsafe : displaySafeOutcome ack.2 ≠ .accepted := fun hacc => hfinal (displaySafeOutcome_accepted.mp hacc)
  -- Whatever final outcome is stored for the command is the one answered now.
  have hsame : ∀ o, o ≠ .accepted → (ack.1, o) ∈ h.stored → (ack.1, displaySafeOutcome ack.2) ∈ h.stored := by
    intro o ho hmem
    obtain ⟨o₀, hgiven, heq⟩ := hs.given _ hmem
    have hne : o₀ ≠ .accepted := by
      rintro rfl
      exact ho heq.symm
    rw [final_unique horder hack hgiven hfinal hne, heq]
    exact hmem
  rcases record_cases h name ack with ⟨row, hrow, hpending, heq⟩ | ⟨hold, heq⟩
  · rw [heq]
    refine ⟨fun row' hrow' => ?_, .inl mem_cons_self⟩
    rw [lookup_insert_ite, if_pos rfl] at hrow'
    cases hrow'
    exact pending_eq_false.mpr ⟨_, rfl, hsafe⟩
  · rw [heq]
    have hover : h.Over name ack.1 := by
      intro row hrow
      by_contra hp
      have hout := hold row hrow (Bool.not_eq_false _ ▸ hp)
      exact hp (pending_eq_false.mpr ⟨_, hout, hsafe⟩)
    refine ⟨hover, ?_⟩
    cases hrow : h.commands.lookup (name, ack.1) with
    | none =>
      rcases hs.gone ack.1 hissued hrow with hforgot | ⟨o, ho, hmem⟩
      · exact .inr hforgot
      · exact .inl (hsame o ho hmem)
    | some row =>
      obtain ⟨o, hout, hne⟩ := pending_eq_false.mp (hover row hrow)
      exact .inl (hsame o hne (hs.mem_stored hrow hout))

end Hub

end Virtkit.Node
