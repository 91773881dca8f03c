import Virtkit.Jobs.Served

/-!
# The attempts over a run

Every step of the hub keeps `Service.Served`, and what a start leaves has it.
-/

namespace Virtkit.Jobs.Service

open Virtkit.Common List

section Steps

variable {normalize : String → Option String} {s s' : Service} {i : ℕ} {a : Attempt} {event : AttemptEvent}

theorem Served.same (hs : s.Served) (hattempts : s'.attempts = s.attempts) (hids : s'.ids = s.ids)
    (hinflight : s'.inflight = s.inflight) (htold : s'.told = s.told) (hnamed : Named s.db s'.db) : s'.Served := by
  have hfree : ∀ id, s.Free id → s'.Free id := fun id hf =>
    ⟨hids ▸ hf.known, hattempts ▸ hf.unrecorded, hattempts ▸ hf.untaken⟩
  refine ⟨?_, ?_, ?_, ?_, fun r row id hrow hjob => ?_, fun b hb id hf => ?_, fun id hid => ?_, ?_⟩
  · rw [hattempts, hinflight]
    exact hs.inflight
  · rw [hattempts]
    exact hs.alone
  · rw [hattempts]
    exact hs.used
  · rw [hattempts, hids]
    exact hs.rows
  · rw [hattempts, hids]
    exact hs.named r row id (hnamed r row id hrow hjob) hjob
  · exact hfree id (hs.finds b (hattempts ▸ hb) id hf)
  · exact hfree id (hs.told id (htold ▸ hid))
  · rw [hattempts, htold]
    exact hs.looks

/-- An attempt begins with its request taken. -/
theorem Served.concat (hs : s.Served) (hidle : a.stage.idle = true) (halone : a.alive = true → a.ask.key ∉ s.inflight)
    (hattempts : s'.attempts = s.attempts ++ [a]) (hids : s'.ids = s.ids)
    (hinflight : ∀ r, r ∈ s.inflight ∨ a.alive = true ∧ r = a.ask.key → r ∈ s'.inflight)
    (htold : s'.told = s.told) (hdb : s'.db = s.db) : s'.Served := by
  have hcases : ∀ b ∈ s'.attempts, b ∈ s.attempts ∨ b = a := by
    intro b hb
    rw [hattempts, mem_append, mem_singleton] at hb
    exact hb
  have hnone : ∀ id row, ¬ a.Uses id row := by
    rintro id row (h | ⟨submitted, h⟩) <;> rw [h] at hidle <;> nomatch hidle
  have hnotfinds : ∀ id, ¬ a.Finds id := by rintro id (⟨_, _, h⟩ | h | h) <;> rw [h] at hidle <;> nomatch hidle
  have hold : ∀ id, (∀ b ∈ s.attempts, ∀ row, b.stage ≠ .recording id row) →
      ∀ b ∈ s'.attempts, ∀ row, b.stage ≠ .recording id row := by
    intro id h b hb row hrec
    rcases hcases b hb with hb | rfl
    · exact h b hb row hrec
    · exact hnone id row (.inl hrec)
  have hfree : ∀ id, s.Free id → s'.Free id := by
    intro id hf
    refine ⟨hids ▸ hf.known, hold id hf.unrecorded, fun b hb row ht => ?_⟩
    rcases hcases b hb with hb | rfl
    · exact hf.untaken b hb row ht
    · exact hnone id row (uses_of_takesUp ht)
  refine ⟨fun b hb hserved => ?_, fun j k b c hb hc hblive hclive hkey => ?_,
    fun j k b c id row row' hb hc hbu hcu => ?_, fun b hb id row hu => ?_,
    fun r row id hrow hjob => ?_, fun b hb id hf => ?_, fun id hid => ?_, fun b hb id hlook => ?_⟩
  · rcases hcases b hb with hb | rfl
    · exact hinflight _ (.inl (hs.inflight b hb hserved))
    · exact hinflight _ (.inr ⟨hserved, rfl⟩)
  · rw [hattempts] at hb hc
    rcases getElem?_concat_eq_some hb with hb' | ⟨hj, hba⟩ <;> rcases getElem?_concat_eq_some hc with hc' | ⟨hk, hca⟩
    · exact hs.alone j k b c hb' hc' hblive hclive hkey
    · subst hca
      exact absurd (hkey ▸ hs.inflight b (mem_of_getElem? hb') hblive) (halone hclive)
    · subst hba
      exact absurd (hkey ▸ hs.inflight c (mem_of_getElem? hc') hclive) (halone hblive)
    · exact hj.trans hk.symm
  · rw [hattempts] at hb hc
    rcases getElem?_concat_eq_some hb with hb | ⟨-, rfl⟩
    · rcases getElem?_concat_eq_some hc with hc | ⟨-, rfl⟩
      · exact hs.used j k b c id row row' hb hc hbu hcu
      · exact absurd hcu (hnone id row')
    · exact absurd hbu (hnone id row)
  · rcases hcases b hb with hb | rfl
    · exact hids ▸ hs.rows b hb id row hu
    · exact absurd hu (hnone id row)
  · rw [hdb] at hrow
    obtain ⟨hknown, hnot, htaken⟩ := hs.named r row id hrow hjob
    refine ⟨hids ▸ hknown, hold id hnot, fun b hb row ht => ?_⟩
    rcases hcases b hb with hb | rfl
    · exact htaken b hb row ht
    · exact absurd (uses_of_takesUp ht) (hnone id row)
  · rcases hcases b hb with hb | rfl
    · exact hfree id (hs.finds b hb id hf)
    · exact absurd hf (hnotfinds id)
  · exact hfree id (hs.told id (htold ▸ hid))
  · rcases hcases b hb with hb | rfl
    · exact htold ▸ hs.looks b hb id hlook
    · exact absurd (.inr hlook) (hnotfinds id)

theorem Served.begin (hs : s.Served) (ask : Ask) : (s.begin ask).Served := by
  unfold Service.begin
  split_ifs with hbusy
  · refine hs.concat (a := ⟨ask, s.clock, .over (some .unavailable), false, s.heard ask⟩) rfl nofun rfl
      rfl ?_ rfl rfl
    rintro r (hr | ⟨hserved, -⟩)
    · exact hr
    · nomatch hserved
  · refine hs.concat (a := ⟨ask, s.clock, .lookup, true, s.heard ask⟩) rfl (fun _ => hbusy) rfl rfl ?_ rfl rfl
    rintro r (hr | ⟨-, rfl⟩)
    · exact mem_cons_of_mem _ hr
    · exact mem_cons_self

section

variable (hs : s.Served) (hi : s.attempts[i]? = some a)
include hs hi

theorem Served.answer (halive : a.alive = true) (ans : Answer) : (s.answer i a ans).Served := by
  refine hs.goesOn hi rfl rfl rfl nofun ?_ (.inr (.inl rfl)) (fun _ _ _ h _ => h) (fun _ h => .inl h) fun _ h => h
  rintro r hr (hdead | hlive | hne)
  · nomatch halive.symm.trans hdead
  · nomatch hlive
  · exact mem_filter_inflight hr hne

theorem Served.answerAgain (halive : a.alive = true) (id : String) (found : Option JobRow) :
    (s.answerAgain i a id found).Served := by
  unfold Service.answerAgain
  split
  · rename_i row _
    have hseen : ({ s with seen := (id, row) :: s.seen } : Service).Served := hs.same rfl rfl rfl rfl fun _ _ _ h _ => h
    exact hseen.answer hi halive _
  · exact hs.answer hi halive _

theorem Served.resume (halive : a.alive = true) {id : String} {row : JobRow} {submitted : Submitted}
    (hstage : a.stage = .recorded id row submitted) : (s.resume i a id row submitted).Served := by
  have hmem := mem_of_getElem? hi
  cases submitted with
  | new =>
    refine hs.goesOn hi rfl rfl rfl nofun ?_ (.inr (.inl rfl))
      (fun _ _ _ h _ => h) (fun id' hid' => ?_) fun _ h => mem_cons_of_mem _ h
    · rintro r hr (hdead | hlive | hne)
      · nomatch halive.symm.trans hdead
      · nomatch hlive
      · exact mem_filter_inflight hr hne
    · rcases mem_cons.mp hid' with rfl | hid'
      · have hattempts : (s.resume i a id' row .new).attempts = s.attempts.set i
            { a with stage := .over (some (.job id' row)), alive := false } := rfl
        exact .inr (hs.free_of_uses hi hattempts rfl (.inr ⟨.new, hstage⟩) rfl)
      · exact .inl hid'
  | again job =>
    have hfree : s.Free job := hs.finds a hmem job (.inl ⟨id, row, hstage⟩)
    refine hs.goesOn hi rfl rfl rfl (fun h => h)
      (fun _ hr _ => hr) (.inr (.inr ⟨job, hfree, mem_cons_self, .inl rfl⟩)) (fun _ _ _ h _ => h)
      (fun id' hid' => ?_) fun _ h => mem_cons_of_mem _ h
    rcases mem_cons.mp hid' with rfl | hid'
    · exact .inr (hfree.set rfl hfree.known (fun _ h => nomatch h) fun _ h => nomatch h.2)
    · exact .inl hid'
  | conflict | admissionTaken => exact hs.answer hi halive _

/-- A step of an attempt keeps to the order of attempts. -/
theorem Served.attemptStep (hstep : AttemptStep s s' i a event) : s'.Served := by
  have hmem := mem_of_getElem? hi
  cases hstep with
  | quiet a' h hevent =>
    exact hs.goesOn hi h.attempts h.ids h.ask h.alive h.inflight (h.stage.imp_right .inl) h.named
      (fun id hid => .inl (h.told ▸ hid)) fun id hid => h.told ▸ hid
  | start id admission seen hstage halive hnew h => exact h ▸ hs.start hi hnew admission
  | record id row hstage h => exact h ▸ hs.record hi hstage
  | resume id row submitted hstage halive h => exact h ▸ hs.resume hi halive hstage
  | view id row hstage halive hrow h => exact h ▸ hs.answerAgain hi halive id (some row)
  | miss id hstage halive hrow h =>
    have hfree : s.Free id := hs.finds a hmem id (.inr (.inl hstage))
    subst h
    exact hs.goesOn hi rfl rfl rfl (fun h => h) (fun _ hr _ => hr)
      (.inr (.inr ⟨id, hfree, hs.looks a hmem id (.inl hstage), .inr rfl⟩)) (fun _ _ _ h _ => h)
      (fun _ h => .inl h) fun _ h => h
  | read id hstage halive h => exact h ▸ hs.answerAgain hi halive id _

end

/-- What happens to the hub's jobs leaves the attempts and the history, and of the database all but the
jobs: a write may be handled, or the history trimmed. -/
structure JobsFrame (s s' : Service) : Prop where
  attempts : s'.attempts = s.attempts
  ids : s'.ids = s.ids
  inflight : s'.inflight = s.inflight
  told : s'.told = s.told
  clock : s'.clock = s.clock
  history : s'.answers = s.answers ∧ s'.created = s.created ∧ s'.counted = s.counted
  db : s'.db = s.db ∨ (∃ w ∈ s.writes, s'.db = { s.db with jobs := putJob s.db.jobs w.id w.row }) ∨
    ∃ dropped expired, s'.db = s.db.pruneJobs s.clock dropped expired

theorem JobsFrame.requests (h : JobsFrame s s') : s'.db.requests = s.db.requests := by
  rcases h.db with hdb | ⟨w, -, hdb⟩ | ⟨dropped, expired, hdb⟩
  · rw [hdb]
  · rw [hdb]
  · rw [hdb]
    exact Db.requests_pruneJobs _ _ _ _

theorem jobsFrame_shown (s : Service) (principal id : String) (settles : Bool) (row : JobRow) :
    JobsFrame s (s.shown principal id settles row) := by
  unfold shown
  split_ifs <;> exact ⟨rfl, rfl, rfl, rfl, rfl, ⟨rfl, rfl, rfl⟩, .inl rfl⟩

/-- What is done to jobs leaves attempts and requests alone. -/
theorem jobsFrame_of_step {e : JobEvent} (h : s.stepJob e = some s') : JobsFrame s s' := by
  cases e <;> simp only [stepJob] at h
  case change id c | cancelQueued id mode =>
    split at h
    · split_ifs at h
      cases h
      exact ⟨rfl, rfl, rfl, rfl, rfl, ⟨rfl, rfl, rfl⟩, .inl rfl⟩
    · nomatch h
  case output id len | finish id failure message | snapshot id =>
    obtain ⟨row, -, rfl⟩ := Option.map_eq_some_iff.mp h
    exact ⟨rfl, rfl, rfl, rfl, rfl, ⟨rfl, rfl, rfl⟩, .inl rfl⟩
  case commit k =>
    split at h
    · rename_i w hw
      split_ifs at h
      cases h
      exact ⟨rfl, rfl, rfl, rfl, rfl, ⟨rfl, rfl, rfl⟩, .inr (.inl ⟨w, mem_of_getElem? hw, rfl⟩)⟩
    · nomatch h
  case abandon k =>
    cases h
    exact ⟨rfl, rfl, rfl, rfl, rfl, ⟨rfl, rfl, rfl⟩, .inl rfl⟩
  case note k =>
    split at h
    · split_ifs at h <;> cases h <;> exact ⟨rfl, rfl, rfl, rfl, rfl, ⟨rfl, rfl, rfl⟩, .inl rfl⟩
    · nomatch h
  case look principal id settles =>
    split_ifs at h
    cases h
    split
    · exact jobsFrame_shown s principal id settles _
    · exact ⟨rfl, rfl, rfl, rfl, rfl, ⟨rfl, rfl, rfl⟩, .inl rfl⟩
  case read k =>
    obtain ⟨v, -, rfl⟩ := Option.map_eq_some_iff.mp h
    cases s.db.jobs.lookup v.id with
    | none => exact ⟨rfl, rfl, rfl, rfl, rfl, ⟨rfl, rfl, rfl⟩, .inl rfl⟩
    | some row =>
      have hframe := jobsFrame_shown { s with views := s.views.eraseIdx k } v.principal v.id v.settles row
      exact ⟨hframe.attempts, hframe.ids, hframe.inflight, hframe.told, hframe.clock, hframe.history, hframe.db⟩
  case prune dropped expired =>
    cases h
    exact ⟨rfl, rfl, rfl, rfl, rfl, ⟨rfl, rfl, rfl⟩, .inr (.inr ⟨dropped, expired, rfl⟩)⟩

/-- Every step keeps to the order of attempts. -/
theorem Served.step (hs : s.Served) {e : ServiceEvent} (h : s.step normalize e = some s') : s'.Served := by
  cases e with
  | begin ask =>
    cases h
    exact hs.begin ask
  | attempt i event =>
    simp only [Service.step] at h
    split at h
    · rename_i a hi
      exact hs.attemptStep hi (attemptStep_of_step h)
    · nomatch h
  | job event =>
    have hframe := jobsFrame_of_step h
    exact hs.same hframe.attempts hframe.ids hframe.inflight hframe.told fun r row id hrow _ => hframe.requests ▸ hrow
  | decide gitlab id state path =>
    cases h
    refine hs.same rfl rfl rfl rfl fun r row id' hrow _ => ?_
    unfold Db.decideProject at hrow
    dsimp only at hrow
    split_ifs at hrow <;> exact hrow
  | reserve request digest =>
    cases h
    refine hs.same rfl rfl rfl rfl fun r row id hrow hjob => ?_
    rcases Db.of_lookup_recordRequest hrow with ⟨-, rfl⟩ | hrow
    · nomatch hjob
    · exact hrow
  | _ =>
    cases h
    exact hs.same rfl rfl rfl rfl fun _ _ _ h _ => h

theorem Recovered.served (h : s.Recovered) : s.Served := by
  obtain ⟨-, hinflight, hattempts, -, -⟩ := h.idle
  have hno : ∀ b, b ∉ s.attempts := by simp [hattempts]
  have hnone : ∀ {P : Attempt → Prop}, ∀ b ∈ s.attempts, P b := fun b hb => absurd hb (hno b)
  have hfree : ∀ id ∈ s.ids, s.Free id := fun id hid => ⟨hid, hnone, hnone⟩
  exact ⟨hnone, fun i j b c hb => absurd (mem_of_getElem? hb) (hno b),
    fun i j b c id row row' hb => absurd (mem_of_getElem? hb) (hno b), hnone,
    fun r row id hrow hjob => ⟨h.ids.2 r row id hrow hjob, hnone, hnone⟩,
    hnone, fun id hid => hfree id (h.told id hid), hnone⟩

end Steps

end Virtkit.Jobs.Service
