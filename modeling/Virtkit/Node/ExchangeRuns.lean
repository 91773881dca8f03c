import Virtkit.Node.ExchangeNode

/-!
# Every step of a node and its hub

A command closes when the hub has handled a final answer of it: it is not pending any more, and on its
way to the node no delivery of it follows the hub's reply. With the hub's side, the messages on their
way and the node's side each sound, every step keeps them so.
-/

namespace Virtkit.Node

open Virtkit.Common Virtkit.Fleet List Option

/-- A command that the hub issued does not come to the node again. -/
structure Exchange.Closed (name : String) (s : Exchange) (id : String) : Prop where
  ended : s.hub.Over name id
  issued : id ∈ s.hub.issued
  absent : ∀ c, HubMsg.command c ∈ s.link.toNode → c.id ≠ id

/-- No delivery of a command follows the reply to a final answer of it. -/
def Precedes (m m' : HubMsg) : Prop :=
  ∀ id o c, m = .recorded id o → o ≠ .accepted → m' = .command c → c.id ≠ id

/-- What the messages on their way keep to. -/
structure Link.Sound (name : String) (h : HubSide) (answered : List (String × Outcome)) (l : Link) : Prop where
  commands : ∀ c, HubMsg.command c ∈ l.toNode → c.id ∈ h.issued
  notes : ∀ id o, HubMsg.recorded id o ∈ l.toNode → (id, o) ∈ answered ∧
    (o ≠ .accepted → h.Over name id ∧ h.Keeps id o)
  after : l.toNode.Pairwise Precedes
  acks : ∀ x ∈ l.toHub ++ l.late, x ∈ answered

/-- What a node and its hub keep to. -/
structure Exchange.Sound (name : String) (s : Exchange) : Prop where
  hub : s.hub.Sound name s.node.answered
  link : s.link.Sound name s.hub s.node.answered
  node : s.node.Sound (s.Closed name) s.hub.Keeps
  issued : ∀ x ∈ s.node.answered, x.1 ∈ s.hub.issued

section Steps

variable {name : String} {s : Exchange}

variable {answered : List (String × Outcome)} {ack : String × Outcome}

theorem Link.Sound.lose {h : HubSide} {l : Link}
    (hl : l.Sound name h answered) {toNode : List HubMsg} {toHub : List (String × Outcome)}
    {late : List (String × Outcome)} {sent : List String} (hnode : toNode.Sublist l.toNode)
    (hacks : ∀ x ∈ toHub ++ late, x ∈ l.toHub ++ l.late) : Link.Sound name h answered ⟨toNode, toHub, late, sent⟩ :=
  ⟨fun c hc => hl.commands c (hnode.subset hc), fun id o ho => hl.notes id o (hnode.subset ho),
    hl.after.sublist hnode, fun x hx => hl.acks x (hacks x hx)⟩

theorem Link.Sound.mono {h : HubSide} {answered' : List (String × Outcome)} {l : Link}
    (hl : l.Sound name h answered) (hsub : ∀ x, x ∈ answered → x ∈ answered') (hack : ack ∈ answered') :
    Link.Sound name h answered' { l with toHub := l.toHub ++ [ack] } := by
  refine ⟨hl.commands, fun id o ho => (hl.notes id o ho).imp_left (hsub _), hl.after, fun x hx => ?_⟩
  rcases mem_append.mp hx with hx | hx
  · rcases mem_append.mp hx with hx | hx
    · exact hsub x (hl.acks x (mem_append_left _ hx))
    · obtain rfl := mem_singleton.mp hx
      exact hack
  · exact hsub x (hl.acks x (mem_append_right _ hx))

theorem Exchange.Sound.wait (hs : s.Sound name) (hub node : ℕ) :
    ({ s with hub := { s.hub with now := hub }, node := { s.node with now := node } } : Exchange).Sound name :=
  ⟨⟨hs.hub.rows, hs.hub.gone, hs.hub.final, hs.hub.known, hs.hub.given, hs.hub.order⟩,
    ⟨hs.link.commands, hs.link.notes, hs.link.after, hs.link.acks⟩,
    ⟨hs.node.journaled, hs.node.owns, hs.node.tracks.mono
      (fun _ hc => ⟨hc.ended, hc.issued, hc.absent⟩) (fun _ _ hk => hk), hs.node.runs, hs.node.once⟩,
    hs.issued⟩

theorem Exchange.Sound.issue (hs : s.Sound name) {command : Command} (hnew : command.id ∉ s.hub.issued) :
    ({ s with hub := s.hub.issue name command } : Exchange).Sound name := by
  have hover : ∀ id ∈ s.hub.issued, s.hub.Over name id → (s.hub.issue name command).Over name id :=
    fun id hid ho => ho.issue fun heq => hnew (heq ▸ hid)
  refine ⟨hs.hub.issue hnew, ⟨fun c hc => mem_cons_of_mem _ (hs.link.commands c hc),
    fun id o ho => ?_, hs.link.after, hs.link.acks⟩, hs.node.mono (fun id hc => ?_)
    (fun id o hk => hk.issue name command), fun x hx => mem_cons_of_mem _ (hs.issued x hx)⟩
  · obtain ⟨hgiven, hkept⟩ := hs.link.notes id o ho
    exact ⟨hgiven, fun hfinal => (hkept hfinal).imp (hover id (hs.issued _ hgiven)) fun hk => hk.issue name command⟩
  · exact ⟨hover id hc.issued hc.ended, mem_cons_of_mem _ hc.issued, hc.absent⟩

/-- A pending command was issued and is not over. -/
theorem HubSide.Sound.pending {h : HubSide} (hs : h.Sound name answered) {now : ℕ} {c : Command}
    (hc : c ∈ pendingCommands h.commands name now) : c.id ∈ h.issued ∧ ¬ h.Over name c.id := by
  obtain ⟨row, hrow, rfl⟩ := mem_map.mp hc
  obtain ⟨hmem, hlive⟩ := mem_filter.mp hrow
  obtain ⟨id, hlookup⟩ := mem_commandsOf.mp ((mem_insertionSort _).mp hmem)
  obtain ⟨hid, hissued, -⟩ := hs.rows id row hlookup
  rw [hid]
  refine ⟨hissued, fun hover => ?_⟩
  rw [CommandRow.live, hover row hlookup] at hlive
  nomatch hlive

section

variable (hs : s.Sound name)
include hs

theorem Exchange.Sound.sync {commands : List Command} (sent : List String)
    (hpending : ∀ c ∈ commands, c.id ∈ s.hub.issued ∧ ¬ s.hub.Over name c.id) :
    ({ s with link := { s.link with
      toNode := s.link.toNode ++ commands.map .command, sent := sent } } : Exchange).Sound name := by
  have hmem : ∀ m, m ∈ s.link.toNode ++ commands.map HubMsg.command → m ∈ s.link.toNode ∨
      ∃ c ∈ commands, m = .command c := by
    intro m hm
    refine (mem_append.mp hm).imp_right fun hm => ?_
    obtain ⟨c, hc, rfl⟩ := mem_map.mp hm
    exact ⟨c, hc, rfl⟩
  have hcommand : ∀ c, HubMsg.command c ∈ s.link.toNode ++ commands.map HubMsg.command →
      HubMsg.command c ∈ s.link.toNode ∨ c ∈ commands := by
    intro c hc
    refine (hmem _ hc).imp_right fun ⟨c', hc', heq⟩ => ?_
    obtain rfl := HubMsg.command.inj heq
    exact hc'
  refine ⟨hs.hub, ⟨fun c hc => ?_, fun id o ho => ?_, ?_, hs.link.acks⟩,
    hs.node.mono (fun id hc => ⟨hc.ended, hc.issued, fun c hmem' => ?_⟩) (fun _ _ hk => hk), hs.issued⟩
  · rcases hcommand c hc with hc | hc
    · exact hs.link.commands c hc
    · exact (hpending c hc).1
  · rcases hmem _ ho with ho | ⟨c, -, heq⟩
    · exact hs.link.notes id o ho
    · nomatch heq
  · refine pairwise_append.mpr ⟨hs.link.after, ?_, fun m hm m' hm' => ?_⟩
    · rw [pairwise_map]
      exact pairwise_of_forall fun c c' id o c₀ heq => nomatch heq
    · rintro id o c rfl hfinal rfl rfl
      obtain ⟨c', hc', heq⟩ := mem_map.mp hm'
      obtain rfl := HubMsg.command.inj heq
      exact (hpending c' hc').2 ((hs.link.notes _ _ hm).2 hfinal).1
  · rcases hcommand c hmem' with hc' | hc'
    · exact hc.absent c hc'
    · rintro rfl
      exact (hpending c hc').2 hc.ended

/-- Taking a command keeps the exchange sound. -/
theorem Exchange.Sound.take {command : Command} {rest : List HubMsg}
    (hnext : s.link.toNode = .command command :: rest) (can : Abilities) :
    ({ s with
      link := { s.link with
        toNode := rest
        toHub := s.link.toHub ++ [(command.id, (s.node.persisted.commandAs command s.node.now can).2)] }
      node := s.node.take command can } : Exchange).Sound name := by
  have hhead : HubMsg.command command ∈ s.link.toNode := hnext ▸ mem_cons_self
  have hrest : rest.Sublist s.link.toNode := hnext ▸ sublist_cons_self _ _
  have hopen : ¬ s.Closed name command.id := fun hc => hc.absent command hhead rfl
  refine ⟨hs.hub.mono fun x hx => mem_cons_of_mem _ hx, ?_,
    (hs.node.take hopen can).mono (fun id hc => ⟨hc.ended, hc.issued, fun c hmem =>
      hc.absent c (hrest.subset hmem)⟩) (fun _ _ hk => hk), fun x hx => ?_⟩
  · exact (hs.link.mono (fun x hx => mem_cons_of_mem _ hx) mem_cons_self).lose hrest fun x hx => hx
  · rcases mem_cons.mp hx with rfl | hx
    · exact hs.link.commands command hhead
    · exact hs.issued x hx

theorem Exchange.Sound.recorded {id : String} {outcome : Outcome} {rest : List HubMsg}
    (hnext : s.link.toNode = .recorded id outcome :: rest) :
    ({ s with
      link := { s.link with toNode := rest }
      node := { s.node with persisted := s.node.persisted.recorded id outcome s.node.now } } :
        Exchange).Sound name := by
  have hrest : rest.Sublist s.link.toNode := hnext ▸ sublist_cons_self _ _
  obtain ⟨hgiven, hkept⟩ := hs.link.notes id outcome (hnext ▸ mem_cons_self)
  have hafter : ∀ m ∈ rest, Precedes (.recorded id outcome) m := (pairwise_cons.mp (hnext ▸ hs.link.after)).1
  let s' : Exchange := { s with link := { s.link with toNode := rest } }
  have hnode : s.node.Sound (s'.Closed name) s.hub.Keeps :=
    hs.node.mono (fun id hc => ⟨hc.ended, hc.issued, fun c hmem => hc.absent c (hrest.subset hmem)⟩) fun _ _ hk => hk
  have hnode' := hnode.recorded hgiven fun hfinal => ⟨⟨(hkept hfinal).1, hs.issued _ hgiven, fun c hmem =>
      hafter _ hmem id outcome c rfl hfinal rfl⟩, (hkept hfinal).2⟩
  exact ⟨hs.hub, hs.link.lose hrest fun x hx => hx, hnode'.mono
    (fun id hc => ⟨hc.ended, hc.issued, hc.absent⟩) (fun _ _ hk => hk), hs.issued⟩

theorem Exchange.Sound.told (hack : ack ∈ s.node.persisted.unrecorded) : ({ s with
      link := { s.link with toHub := s.link.toHub ++ [ack] }
      node := { s.node with answered := ack :: s.node.answered } } : Exchange).Sound name := by
  obtain ⟨e, he, rfl⟩ := mem_map.mp hack
  have hmem := mem_of_mem_filter he
  refine ⟨hs.hub.mono fun x hx => mem_cons_of_mem _ hx, hs.link.mono (fun x hx => mem_cons_of_mem _ hx) mem_cons_self,
    (hs.node.told hmem).mono (fun id hc => ⟨hc.ended, hc.issued, hc.absent⟩) (fun _ _ hk => hk),
    fun x hx => ?_⟩
  rcases mem_cons.mp hx with rfl | hx
  · obtain ⟨o, ho⟩ := hs.node.tracks.known e hmem
    exact hs.issued (e.id, o) ho
  · exact hs.issued x hx

/-- Recording an answer keeps the exchange sound. -/
theorem Exchange.Sound.acknowledge (hack : ack ∈ s.node.answered) {toHub late : List (String × Outcome)} (reply : Bool)
    (hacks : ∀ x ∈ toHub ++ late, x ∈ s.link.toHub ++ s.link.late) :
    ({ s with
      hub := s.hub.record name ack
      link := { s.link with
        toHub := toHub
        late := late
        toNode := if reply then s.link.toNode ++ [.recorded ack.1 ack.2] else s.link.toNode } } :
        Exchange).Sound name := by
  have hissued : ∀ id, id ∈ s.hub.issued → id ∈ (s.hub.record name ack).issued := fun id hid => hid
  have hkeep : ∀ id o, s.hub.Keeps id o → (s.hub.record name ack).Keeps id o := fun id o hk => hk.record name ack
  have hmem : ∀ m ∈ (if reply then s.link.toNode ++ [HubMsg.recorded ack.1 ack.2]
      else s.link.toNode), m ∈ s.link.toNode ∨ m = .recorded ack.1 ack.2 := by
    intro m hm
    split_ifs at hm
    · exact (mem_append.mp hm).imp_right mem_singleton.mp
    · exact .inl hm
  have hcommand : ∀ c, HubMsg.command c ∈ (if reply then
      s.link.toNode ++ [HubMsg.recorded ack.1 ack.2] else s.link.toNode) →
      HubMsg.command c ∈ s.link.toNode := fun c hc =>
    (hmem _ hc).resolve_right nofun
  refine ⟨hs.hub.record hack, ⟨fun c hc => hissued _ (hs.link.commands c (hcommand c hc)),
    fun id o ho => ?_, ?_, fun x hx => hs.link.acks x (hacks x hx)⟩,
    hs.node.mono (fun id hc => ⟨hc.ended.record ack, hissued id hc.issued, fun c hc' =>
      hc.absent c (hcommand c hc')⟩) hkeep, fun x hx => hissued _ (hs.issued x hx)⟩
  · rcases hmem _ ho with ho | heq
    · exact (hs.link.notes id o ho).imp_right fun hkept hfinal =>
        (hkept hfinal).imp (fun hover => hover.record ack) (hkeep id o)
    · obtain ⟨rfl, rfl⟩ := HubMsg.recorded.inj heq
      exact ⟨hack, hs.hub.handled hs.node.tracks.order hack (hs.issued ack hack)⟩
  · dsimp only
    split_ifs
    · refine pairwise_append.mpr ⟨hs.link.after, pairwise_singleton _ _, ?_⟩
      rintro m - m' hm' id o c - - rfl
      nomatch mem_singleton.mp hm'
    · exact hs.link.after

end

theorem sound_init (hinit : (exchangeSystem name).init s) : s.Sound name := by
  obtain ⟨hcommands, hissued, hstored, -, hlink, hjournal, hjob, htools, -, hanswered, hexecuted⟩ := hinit
  refine ⟨⟨fun id row hrow => ?_, fun id hid => ?_, ?_, ?_, ?_, ?_⟩, ?_,
    ⟨⟨?_, ?_, ?_⟩, ⟨fun j hj => ?_, fun t ht => ?_⟩, ⟨?_, ?_, ?_, ?_, ?_⟩, ?_, ?_⟩, ?_⟩
  · rw [hcommands, AList.lookup_empty] at hrow
    nomatch hrow
  · rw [hissued] at hid
    nomatch hid
  · exact hstored ▸ fun x hx => nomatch hx
  · exact hstored ▸ fun x hx => nomatch hx
  · exact hstored ▸ fun x hx => nomatch hx
  · exact hstored ▸ List.Pairwise.nil
  · rw [hlink]
    exact ⟨fun c hc => (nomatch hc), fun id o ho => (nomatch ho), List.Pairwise.nil, fun x hx => (nomatch hx)⟩
  · rw [hjournal]
    exact nodup_nil
  · exact hjournal ▸ fun _ _ e he => nomatch he
  · exact hjournal ▸ fun _ _ e he => nomatch he
  · rw [hjob] at hj
    nomatch hj
  · rw [htools] at ht
    nomatch ht
  · exact hjournal ▸ fun e he => nomatch he
  · exact hanswered ▸ fun x hx => nomatch hx
  · exact hanswered ▸ fun x hx => nomatch hx
  · exact hjournal ▸ fun e he => nomatch he
  · exact hanswered ▸ List.Pairwise.nil
  · exact hexecuted ▸ fun x hx => nomatch hx
  · rw [hexecuted]
    exact nodup_nil
  · exact hanswered ▸ fun x hx => nomatch hx

/-- Every step keeps the exchange sound. -/
theorem Exchange.Sound.next (hs : s.Sound name) {event : ExchangeEvent} {s' : Exchange}
    (hstep : s.next name event = some s') : s'.Sound name := by
  cases event <;> dsimp only [Exchange.next] at hstep
  case wait hub node =>
    obtain rfl := some.inj hstep
    exact hs.wait _ _
  case issue command =>
    split_ifs at hstep with hissued
    obtain rfl := some.inj hstep
    exact hs.issue hissued
  case sync unreadable =>
    obtain rfl := some.inj hstep
    exact hs.sync _ fun c hc => hs.hub.pending (mem_of_mem_filter hc)
  case deliver can =>
    split at hstep
    · nomatch hstep
    · next command rest hnext =>
      obtain rfl := some.inj hstep
      exact hs.take hnext can
    · next id outcome rest hnext =>
      obtain rfl := some.inj hstep
      exact hs.recorded hnext
  case tell id =>
    obtain ⟨ack, hfind, rfl⟩ := map_eq_some_iff.mp hstep
    exact hs.told (mem_of_find?_eq_some hfind)
  case acknowledge =>
    split at hstep
    · nomatch hstep
    · next ack rest hnext =>
      obtain rfl := some.inj hstep
      refine hs.acknowledge (hs.link.acks ack ?_) true fun x hx => ?_
      · rw [hnext]
        exact mem_cons_self
      · rw [hnext]
        exact mem_cons_of_mem _ hx
  case acknowledgeLate i =>
    obtain ⟨ack, hack, rfl⟩ := map_eq_some_iff.mp hstep
    refine hs.acknowledge (hs.link.acks ack (mem_append_right _ (mem_of_getElem? hack))) false fun x hx => ?_
    exact (mem_append.mp hx).elim (mem_append_left _) fun hx => mem_append_right _ (mem_of_mem_eraseIdx hx)
  case loseToNode i =>
    obtain rfl := some.inj hstep
    have hsub : (s.link.toNode.eraseIdx i).Sublist s.link.toNode := eraseIdx_sublist _ _
    exact ⟨hs.hub, hs.link.lose hsub fun x hx => hx, hs.node.mono (fun id hc =>
      ⟨hc.ended, hc.issued, fun c hmem => hc.absent c (hsub.subset hmem)⟩) (fun _ _ hk => hk),
      hs.issued⟩
  case loseToHub i =>
    obtain rfl := some.inj hstep
    refine ⟨hs.hub, hs.link.lose (List.Sublist.refl _) fun x hx => ?_, hs.node.mono (fun id hc =>
      ⟨hc.ended, hc.issued, hc.absent⟩) (fun _ _ hk => hk), hs.issued⟩
    exact (mem_append.mp hx).elim (fun hx => mem_append_left _ (mem_of_mem_eraseIdx hx)) (mem_append_right _)
  case reconnect restart =>
    obtain rfl := some.inj hstep
    refine ⟨hs.hub, hs.link.lose (nil_sublist _) fun x hx => ?_,
      ⟨hs.node.journaled, hs.node.owns, hs.node.tracks.mono (fun id hc =>
        ⟨hc.ended, hc.issued, fun c hmem => nomatch hmem⟩) (fun _ _ hk => hk), hs.node.runs,
        hs.node.once⟩, hs.issued⟩
    have hx : x ∈ s.link.late ++ s.link.toHub := hx
    exact mem_append.mpr (mem_append.mp hx).symm
  case step event =>
    split_ifs at hstep with hown
    obtain ⟨p, hp, rfl⟩ := map_eq_some_iff.mp hstep
    exact ⟨hs.hub, hs.link, (hs.node.own hown hp _).mono (fun id hc =>
      ⟨hc.ended, hc.issued, hc.absent⟩) (fun _ _ hk => hk), hs.issued⟩

theorem sound_of_exchange (h : (exchangeSystem name).Reachable s) : s.Sound name :=
  h.invariant (fun _ => sound_init) fun _ _ _ hs hstep => hs.next hstep

end Steps

end Virtkit.Node
