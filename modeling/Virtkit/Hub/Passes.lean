import Virtkit.Hub.LoadsExact

/-!
# Passes one after another

The picks of one pass follow the turns, each as the last one left them, and the next pass goes on
from the turns the last one left, whatever happened to the rest of the state in between. So the
picks of any number of passes are one sequence, and production probes do not starve normal work in
it.
-/

namespace Virtkit.Hub

open Virtkit.Common List

/-- What a scan lists: tickets of the state, which have no deadline and no reservation of their
own, and jobs, which are no probes. -/
def Listed (s : State) (c : Candidate) : Prop :=
  (c.job = false ∧ (s.tickets.lookup c.id).isSome ∧ c.due = false ∧ c.reserved = false) ∨
    (c.job = true ∧ c.probe = false)

theorem Policy.weight_pos {policy : Policy} (h : policy.validate = .ok ()) :
    ∀ lane ∈ policy.lanes, 0 < lane.weight := by
  have hlane : ∀ lane id, validateLane lane id = .ok () → 0 < lane.weight := by
    intro lane id hok
    simp only [validateLane, bind, Except.bind] at hok
    grind
  have hlanes : ∀ (lanes : List Lane) (n : ℕ) (seen : List LaneId),
      validateLanes n seen lanes = .ok () → ∀ lane ∈ lanes, 0 < lane.weight := by
    intro lanes
    induction lanes with
    | nil => simp
    | cons l lanes ih =>
      intro n seen hok
      unfold validateLanes at hok
      grind
  unfold validate at h
  grind

/-- The weight of what is listed under a stored policy is positive. -/
def Weighed (policy : Policy) (c : Candidate) : Prop := policy.validate = .ok () → 0 < c.weight

theorem eligible_foldl {α : Type*} {step : Scan → α → Scan} {P : Candidate → Prop} (l : List α)
    (hstep : ∀ acc, ∀ a ∈ l, ∀ c ∈ (step acc a).eligible, c ∈ acc.eligible ∨ P c) {acc : Scan}
    (h : ∀ c ∈ acc.eligible, P c) : ∀ c ∈ (l.foldl step acc).eligible, P c := by
  induction l generalizing acc with
  | nil => exact h
  | cons a l ih =>
    refine ih (fun acc b hb => hstep acc b (mem_cons_of_mem _ hb)) fun c hc => ?_
    rcases hstep acc a mem_cons_self c hc with hc | hc
    · exact h c hc
    · exact hc

section

variable (hub : HubEnv) (ctx : ScheduleCtx) (now : ℕ) (loads : Loads)
include hub ctx now loads

theorem ticketGate_lane {s : State} {t : Ticket} {gate : Gate}
    (h : ticketGate hub ctx now loads s t = .ok gate) : gate.lane ∈ ctx.place.policy.lanes := by
  unfold ticketGate at h
  cases hlane : ctx.place.policy.lane t.identity.lane with
  | none => grind
  | some lane =>
    have hmem := mem_of_find?_eq_some hlane
    grind

theorem listed_scanTicket {s : State} (acc : Scan) {e : Sigma fun _ : String => Ticket}
    (he : s.tickets.lookup e.1 = some e.2) : ∀ c ∈ (scanTicket hub ctx now loads acc e).eligible,
      c ∈ acc.eligible ∨ Listed s c ∧ Weighed ctx.place.policy c := by
  intro c hc
  unfold scanTicket at hc
  split at hc
  · exact .inl hc
  · rename_i gate hgate
    dsimp only at hc
    split at hc
    · exact .inl hc
    · rcases mem_append.mp hc with hc | hc
      · exact .inl hc
      · rw [mem_singleton.mp hc]
        exact .inr ⟨.inl ⟨rfl, by rw [he]; rfl, rfl, rfl⟩, fun hvalid =>
          Policy.weight_pos hvalid _ (ticketGate_lane hub ctx now loads hgate)⟩

theorem listed_scanJob (s : State) (acc : Scan) (e : Sigma fun _ : String => LiveJob) :
    ∀ c ∈ (scanJob hub ctx now loads acc e).eligible, c ∈ acc.eligible ∨ Listed s c ∧ Weighed ctx.place.policy c := by
  intro c hc
  have hadded : ∀ node reserved, c ∈ acc.eligible ++ [jobCandidate hub ctx now loads e.1 e.2 node reserved] →
        c ∈ acc.eligible ∨ Listed s c ∧ Weighed ctx.place.policy c := by
    intro node reserved hmem
    rcases mem_append.mp hmem with hmem | hmem
    · exact .inl hmem
    · rw [mem_singleton.mp hmem]
      refine .inr ⟨.inr ⟨rfl, rfl⟩, fun hvalid => ?_⟩
      dsimp only [jobCandidate]
      cases hlane : ctx.place.policy.lane (jobLane e.2.row) with
      | none => exact Nat.one_pos
      | some lane => exact Policy.weight_pos hvalid lane (mem_of_find?_eq_some hlane)
  unfold scanJob at hc
  dsimp only at hc
  split at hc
  · exact .inl hc
  · split at hc
    · exact .inl hc
    · split at hc
      · exact hadded _ _ hc
      · split at hc
        · exact .inl hc
        · exact hadded _ _ hc

/-- What a scan lists has the weight of its lane, and only tickets probe. -/
theorem listed_scan (skipped : List String) (s : State) (found : Found) :
    ∀ c ∈ (scan hub ctx now loads skipped s found).eligible, Listed s c ∧ Weighed ctx.place.policy c := by
  refine eligible_foldl _ (fun acc e _ => listed_scanJob hub ctx now loads s acc e) ?_
  refine eligible_foldl _ (fun acc e he => ?_) (by simp)
  exact listed_scanTicket hub ctx now loads acc (AList.mem_lookup_iff.mpr (mem_of_mem_filter he))

end

/-- A turn that makes no pick leaves the turns, and one that makes a pick follows them. -/
structure Turned (burst : ℕ) (pass pass' : Pass) (p : Pick) : Prop where
  follows : p.Follows pass.state.turns
  picks : pass'.picks = pass.picks ++ [p]
  turns : pass'.state.turns = pass.state.turns.after burst p

variable (hub : HubEnv) (ctx : ScheduleCtx) (now : ℕ)

/-- Placing a job is recorded as one pick. -/
theorem placeJob_pick (pass : Pass) (s : State)
    (eligible : List Candidate) {chosen : Candidate} (hprobe : chosen.probe = false) :
    ∃ granted, (placeJob hub ctx now pass s eligible chosen).picks = pass.picks ++ [⟨eligible, chosen, granted⟩] ∧
      (placeJob hub ctx now pass s eligible chosen).state.turns =
        s.turns.after ctx.place.policy.productionProbeBurst ⟨eligible, chosen, granted⟩ := by
  unfold placeJob
  dsimp only
  generalize hplace : place hub s ctx.place chosen.id now _ = placed
  obtain ⟨s', written⟩ := placed
  have hturns := (place_jobFrame hplace).turns
  refine ⟨startedOn s' chosen.id, rfl, ?_⟩
  dsimp only [Turns.after]
  rw [hturns, hprobe]
  cases startedOn s' chosen.id with
  | none | some reserved => rfl

def takesMessages (s : State) (node : String) : Bool :=
  (s.links.lookup node).any fun l => !(l.closed || linkQueue ≤ l.queue.length)

theorem send_ne_none {s : State} {node : String} (h : takesMessages s node = true)
    (msg : HubJobMsg) : send s node msg ≠ none := by
  unfold takesMessages at h
  unfold send
  cases hlink : s.links.lookup node with
  | none => simp [hlink] at h
  | some l =>
    rw [hlink, Option.any_some, Bool.not_eq_true'] at h
    simp [h]

theorem offerTicket_pick (ctx : ScheduleCtx) (now : ℕ) (pass : Pass) (s : State)
    (eligible : List Candidate) (chosen : Candidate) (t : Ticket) (r : String) (ids : List String) :
    ∃ granted, (offerTicket ctx now pass s eligible chosen t r ids).picks =
        pass.picks ++ [⟨eligible, chosen, granted⟩] ∧ (offerTicket ctx now pass s eligible chosen t r ids).state.turns =
        s.turns.after ctx.place.policy.productionProbeBurst ⟨eligible, chosen, granted⟩ ∧
      (takesMessages s chosen.node = true → granted = some false) := by
  unfold offerTicket
  dsimp only
  split
  · rename_i hsend
    exact ⟨none, rfl, rfl, fun htakes => absurd hsend (send_ne_none (by exact htakes) _)⟩
  · rename_i s₂ hsend
    have hturns : s₂.turns = s.turns := by rw [send_eq hsend]
    refine ⟨some false, rfl, ?_, fun _ => rfl⟩
    dsimp only [Turns.after]
    split
    · rw [noteProbe_eq, hturns]
    · rw [hturns]

/-- A turn picks nothing, or one candidate by the rules. -/
theorem turn_picks (pass : Pass) :
    ((turn hub ctx now pass).1.picks = pass.picks ∧ (turn hub ctx now pass).1.state.turns = pass.state.turns) ∨
      ∃ p, Turned ctx.place.policy.productionProbeBurst pass (turn hub ctx now pass).1 p := by
  have hnotes := Notes.scan hub ctx now pass.loads pass.skipped pass.state pass.found
  have hlisted := listed_scan hub ctx now pass.loads pass.skipped pass.state pass.found
  have hfollows : ∀ chosen granted, choose ((pass.scan hub ctx now).state.turns.owed (pass.scan hub ctx now).eligible)
        (pass.scan hub ctx now).eligible = some chosen →
      Pick.Follows pass.state.turns ⟨(pass.scan hub ctx now).eligible, chosen, granted⟩ := by
    intro chosen granted hchosen
    rw [hnotes.turns] at hchosen
    refine ⟨hchosen, fun e he hprobe => ?_⟩
    rcases (hlisted e he).1 with ⟨-, -, hdue, hreserved⟩ | ⟨-, hnot⟩
    · exact ⟨hdue, hreserved⟩
    · rw [hnot] at hprobe
      simp at hprobe
  have houtcome := turn_outcome hub ctx now pass
  generalize turn hub ctx now pass = next at houtcome ⊢
  cases houtcome with
  | stops hs hstop => exact .inl ⟨rfl, hs.turns.trans hnotes.turns⟩
  | @job s chosen hs hchosen hjob =>
    have hprobe : chosen.probe = false := by
      rcases hlisted chosen (choose_spec hchosen).1 with ⟨hnot, -⟩ | ⟨-, hprobe⟩
      · rw [hnot] at hjob
        simp at hjob
      · exact hprobe
    obtain ⟨granted, hpicks, hturns⟩ := placeJob_pick hub ctx now (pass.scanned hub ctx now s) s _ hprobe
    exact .inr ⟨_, hfollows chosen granted hchosen, hpicks, by rw [hturns, hs.turns.trans hnotes.turns]⟩
  | @ticket s chosen t r ids hs hlinks hchosen hjob ht hids =>
    obtain ⟨granted, hpicks, hturns, -⟩ := offerTicket_pick ctx now (pass.scanned hub ctx now s) s _ chosen t r ids
    exact .inr ⟨_, hfollows chosen granted hchosen, hpicks, by rw [hturns, hs.turns.trans hnotes.turns]⟩

theorem turns_picks (hub : HubEnv) (ctx : ScheduleCtx) (now n : ℕ) (pass : Pass) :
    ∃ ps, (turns hub ctx now n pass).picks = pass.picks ++ ps ∧
      Picks ctx.place.policy.productionProbeBurst pass.state.turns ps (turns hub ctx now n pass).state.turns := by
  induction n generalizing pass with
  | zero => exact ⟨[], (append_nil _).symm, .nil _⟩
  | succ n ih =>
    have hturn := turn_picks hub ctx now pass
    unfold turns
    split
    · rename_i pass' heq
      rw [heq] at hturn
      obtain ⟨ps, hps, hpicks⟩ := ih pass'
      rcases hturn with ⟨hsame, hturns⟩ | ⟨p, hp⟩
      · dsimp only at hsame hturns
        exact ⟨ps, by rw [hps, hsame], hturns ▸ hpicks⟩
      · have hnext := hp.picks
        have hturns := hp.turns
        exact ⟨p :: ps, by rw [hps, hnext, append_assoc]; rfl, .cons hp.follows (hturns ▸ hpicks)⟩
    · rename_i pass' heq
      rw [heq] at hturn
      rcases hturn with ⟨hsame, hturns⟩ | ⟨p, hp⟩
      · dsimp only at hsame hturns
        exact ⟨[], by rw [hsame, append_nil], hturns ▸ .nil _⟩
      · have hturns := hp.turns
        exact ⟨[p], hp.picks, .cons hp.follows (hturns ▸ .nil _)⟩

/-- The picks of a pass follow its turns. -/
theorem arbitrate_picks (ids : List String) (s : State) :
    Picks ctx.place.policy.productionProbeBurst s.turns (arbitrate hub ctx now ids s).picks
      (arbitrate hub ctx now ids s).state.turns := by
  unfold arbitrate
  split
  · exact .nil _
  · obtain ⟨ps, hps, hpicks⟩ := turns_picks hub ctx now maxPlacementsPerStep (Pass.start ctx s ids)
    rw [hps]
    exact hpicks

/-- What one pass is given. Of the state the turns are those the pass before left. -/
structure PassInput where
  hub : HubEnv
  ctx : ScheduleCtx
  now : ℕ
  ids : List String
  state : State

def PassInput.run (i : PassInput) (t : Turns) : Pass :=
  arbitrate i.hub i.ctx i.now i.ids { i.state with turns := t }

/-- The picks of passes one after another, and the turns they leave. -/
def runPasses : Turns → List PassInput → List Pick × Turns
  | t, [] => ([], t)
  | t, i :: rest =>
    let pass := i.run t
    let (ps, t') := runPasses pass.state.turns rest
    (pass.picks ++ ps, t')

theorem runPasses_picks (policy : Policy) (t : Turns) (passes : List PassInput)
    (hpolicy : ∀ i ∈ passes, i.ctx.place.policy = policy) :
    Picks policy.productionProbeBurst t (runPasses t passes).1 (runPasses t passes).2 := by
  induction passes generalizing t with
  | nil => exact .nil t
  | cons i rest ih =>
    have hpass := arbitrate_picks i.hub i.ctx i.now i.ids { i.state with turns := t }
    rw [hpolicy i mem_cons_self] at hpass
    exact hpass.append (ih _ fun j hj => hpolicy j (mem_cons_of_mem _ hj))

/-- Where all that is eligible is probes, one of them is picked, and granted what it asks for if
its node's session takes the offer. -/
theorem turn_of_probes {pass : Pass} {sc : Scan} (hsc : pass.scan hub ctx now = sc)
    (hsome : sc.eligible ≠ []) (hprobes : ∀ e ∈ sc.eligible, e.probe = true) (hids : pass.ids ≠ []) :
    ∃ p, (turn hub ctx now pass).1.picks = pass.picks ++ [p] ∧ p.chosen ∈ sc.eligible ∧
      (takesMessages sc.state p.chosen.node = true → p.granted = some false) := by
  have hlisted := listed_scan hub ctx now pass.loads pass.skipped pass.state pass.found
  have hnotes := Notes.scan hub ctx now pass.loads pass.skipped pass.state pass.found
  have houtcome := turn_outcome hub ctx now pass
  unfold Pass.scan at hsc houtcome
  rw [hsc] at hlisted hnotes houtcome
  have hticket : ∀ c ∈ sc.eligible, c.job = false ∧ (pass.state.tickets.lookup c.id).isSome := by
    intro c hc
    rcases (hlisted c hc).1 with ⟨hjob, hlookup, -⟩ | ⟨-, hprobe⟩
    · exact ⟨hjob, hlookup⟩
    · rw [hprobes c hc] at hprobe
      simp at hprobe
  generalize turn hub ctx now pass = next at houtcome ⊢
  cases houtcome with
  | @stops s hs hstop =>
    exfalso
    obtain ⟨chosen, hchosen⟩ := Option.ne_none_iff_exists'.mp (choose_ne_none (sc.state.turns.owed sc.eligible) hsome)
    obtain ⟨t, ht⟩ := Option.isSome_iff_exists.mp (hticket chosen (choose_spec hchosen).1).2
    obtain ⟨t', ht', -⟩ := (hnotes.trans hs.toNotes).ticket ht
    rcases (hstop chosen hchosen).2 with hnone | hnil
    · rw [ht'] at hnone
      simp at hnone
    · exact hids hnil
  | @job s chosen hs hchosen hjob =>
    have hnot := (hticket chosen (choose_spec hchosen).1).1
    rw [hnot] at hjob
    simp at hjob
  | @ticket s chosen t r ids hs hlinks hchosen hjob ht hids =>
    obtain ⟨granted, hpicks, -, hgranted⟩ :=
      offerTicket_pick ctx now (pass.scanned hub ctx now s) s sc.eligible chosen t r ids
    refine ⟨_, hpicks, (choose_spec hchosen).1, fun htakes => hgranted ?_⟩
    unfold takesMessages at htakes ⊢
    rw [hlinks]
    exact htakes

/-- Under a validated policy, in any stretch of the picks of any passes in which normal work waits
at every pick and none is granted a turn, at most a burst of production probes is granted; and
where only probes are eligible, a turn picks one of them and grants it the offer if it can be
queued. -/
theorem production_probes_take_turns (policy : Policy) (hvalid : policy.validate = .ok ())
    (t : Turns) (passes : List PassInput) (hpolicy : ∀ i ∈ passes, i.ctx.place.policy = policy) :
    (∀ before stretch after, (runPasses t passes).1 = before ++ stretch ++ after →
      (∀ p ∈ stretch, p.normalWaits = true) → (∀ p ∈ stretch, p.isNormalGrant = false) →
        stretch.countP Pick.isProbeGrant ≤ policy.productionProbeBurst) ∧
    ∀ hub ctx now pass sc, scan hub ctx now pass.loads pass.skipped pass.state pass.found = sc →
      sc.eligible ≠ [] → (∀ e ∈ sc.eligible, e.probe = true) → pass.ids ≠ [] →
      ∃ p, (turn hub ctx now pass).1.picks = pass.picks ++ [p] ∧ p.chosen ∈ sc.eligible ∧
        (takesMessages sc.state p.chosen.node = true → p.granted = some false) := by
  refine ⟨fun before stretch after hpicks hwaits hnormal => ?_,
    fun hub ctx now pass sc hsc hsome hprobes hids => turn_of_probes hub ctx now hsc hsome hprobes hids⟩
  have hsequence := runPasses_picks policy t passes hpolicy
  rw [hpicks] at hsequence
  exact hsequence.probeGrants_le_burst (policy.productionProbeBurst_pos hvalid) hwaits hnormal

/-- A pass over a ticket of normal work and one of a production runner. -/
def samplePass : PassInput where
  hub := sampleHub
  ctx := sampleCtx [] 2
  now := 5
  ids := ["r1", "r2"]
  state := sampleState (((∅ : Table String Ticket).insert "t" (sampleTicket "a" sampleClient)).insert
    "u" (sampleTicket "relay" sampleRunner)) ∅

/-- The production probe goes first, then the normal work its burst made it owe a turn. -/
theorem production_probes_take_turns_burst_of_one :
    (runPasses ⟨0, false⟩ [samplePass]).1.map (fun p => (p.chosen.id, p.granted)) =
        [("u", some false), ("t", some false)] ∧
      ((runPasses ⟨0, false⟩ [samplePass]).1.take 1).countP Pick.isProbeGrant ≤ 1 :=
  ⟨by decide +kernel, (production_probes_take_turns (samplePolicy []) (by decide +kernel)
    ⟨0, false⟩ [samplePass] (by decide +kernel)).1 [] _ ((runPasses ⟨0, false⟩ [samplePass]).1.drop 1)
    (take_append_drop 1 _).symm (by decide +kernel) (by decide +kernel)⟩

end Virtkit.Hub
