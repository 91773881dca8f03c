import Virtkit.Common.Lists
import Virtkit.Jobs.Attempts

/-!
# The attempts being served

No two attempts of a request are served at a time, and an ID is used by one attempt. So the job that a
request was answered with is not being recorded, nor about to be taken up, when another attempt of the
request finds it.
-/

namespace Virtkit.Jobs

open Virtkit.Common List

/-- The attempt records, or has recorded, a job under an ID. -/
def Attempt.Uses (a : Attempt) (id : String) (row : JobRow) : Prop :=
  a.stage = .recording id row ∨ ∃ submitted, a.stage = .recorded id row submitted

/-- The attempt goes for the job of an earlier one. -/
def Attempt.Finds (a : Attempt) (id : String) : Prop :=
  (∃ id' row, a.stage = .recorded id' row (.again id)) ∨ a.stage = .viewing id ∨ a.stage = .reading id

/-- The attempt is about to take up the job it recorded. -/
def Attempt.TakesUp (a : Attempt) (id : String) (row : JobRow) : Prop :=
  a.alive = true ∧ a.stage = .recorded id row .new

namespace Service

/-- An ID whose job is not being recorded, nor about to be taken up. -/
structure Free (s : Service) (id : String) : Prop where
  known : id ∈ s.ids
  unrecorded : ∀ a ∈ s.attempts, ∀ row, a.stage ≠ .recording id row
  untaken : ∀ a ∈ s.attempts, ∀ row, ¬ a.TakesUp id row

/-- What the attempts keep to. -/
structure Served (s : Service) : Prop where
  inflight : ∀ a ∈ s.attempts, a.alive = true → a.ask.key ∈ s.inflight
  alone : ∀ (i j : ℕ) (a b : Attempt), s.attempts[i]? = some a → s.attempts[j]? = some b →
    a.alive = true → b.alive = true → a.ask.key = b.ask.key → i = j
  used : ∀ (i j : ℕ) (a b : Attempt) (id : String) (row row' : JobRow), s.attempts[i]? = some a →
    s.attempts[j]? = some b → a.Uses id row → b.Uses id row' → i = j
  rows : ∀ a ∈ s.attempts, ∀ id row, a.Uses id row → id ∈ s.ids ∧
    (row.key, row.requestId) = a.ask.key ∧ row.ended = false ∧ row.revision = 1
  named : ∀ r row id, s.db.requests.lookup r = some row → row.answer = .job id → id ∈ s.ids ∧
    (∀ a ∈ s.attempts, ∀ row, a.stage ≠ .recording id row) ∧
    ∀ a ∈ s.attempts, ∀ row, a.TakesUp id row → a.ask.key = r
  finds : ∀ a ∈ s.attempts, ∀ id, a.Finds id → s.Free id
  told : ∀ id ∈ s.told, s.Free id
  looks : ∀ a ∈ s.attempts, ∀ id, a.stage = .viewing id ∨ a.stage = .reading id → id ∈ s.told

section Attempts

variable {s s' : Service} {i : ℕ} {a a' : Attempt}

variable {id : String} {row : JobRow}

theorem uses_of_takesUp (h : a.TakesUp id row) : a.Uses id row :=
  .inr ⟨.new, h.2⟩

theorem Free.set (hf : s.Free id) (hattempts : s'.attempts = s.attempts.set i a')
    (hids : id ∈ s'.ids) (hrecording : ∀ row, a'.stage ≠ .recording id row)
    (htakes : ∀ row, ¬ a'.TakesUp id row) : s'.Free id := by
  refine ⟨hids, fun b hb row => ?_, fun b hb row => ?_⟩ <;> rw [hattempts] at hb
  · rcases mem_or_eq_of_mem_set hb with hb | rfl
    · exact hf.unrecorded b hb row
    · exact hrecording row
  · rcases mem_or_eq_of_mem_set hb with hb | rfl
    · exact hf.untaken b hb row
    · exact htakes row

section

variable (hs : s.Served) (hi : s.attempts[i]? = some a)
include hs hi

section

variable (hattempts : s'.attempts = s.attempts.set i a')
include hattempts

/-- An attempt that changes keeps to the order of attempts. -/
theorem Served.set (hids : ∀ id ∈ s.ids, id ∈ s'.ids)
    (hask : a'.ask = a.ask) (halive : a'.alive = true → a.alive = true)
    (hinflight : ∀ r ∈ s.inflight, a.alive = false ∨ a'.alive = true ∨ r ≠ a.ask.key → r ∈ s'.inflight)
    (hrows : ∀ id row, a'.Uses id row → id ∈ s'.ids ∧
      (row.key, row.requestId) = a.ask.key ∧ row.ended = false ∧ row.revision = 1)
    (hused : ∀ id row, a'.Uses id row → a.Uses id row ∨ id ∉ s.ids)
    (hnamed : ∀ r row id, s'.db.requests.lookup r = some row → row.answer = .job id → id ∈ s'.ids ∧
      (∀ b ∈ s'.attempts, ∀ row, b.stage ≠ .recording id row) ∧
      ∀ b ∈ s'.attempts, ∀ row, b.TakesUp id row → b.ask.key = r)
    (hfinds : ∀ b ∈ s'.attempts, ∀ id, b.Finds id → s'.Free id) (htold : ∀ id ∈ s'.told, s'.Free id)
    (hkept : ∀ id ∈ s.told, id ∈ s'.told)
    (hlooks : ∀ id, a'.stage = .viewing id ∨ a'.stage = .reading id → id ∈ s'.told) : s'.Served := by
  have hmem := mem_of_getElem? hi
  -- An attempt after the step stands where one with its request did, served if it is.
  have hbefore : ∀ (j : ℕ) (b : Attempt), s'.attempts[j]? = some b → ∃ old, s.attempts[j]? = some old ∧
      old.ask = b.ask ∧ (b.alive = true → old.alive = true) ∧
      ∀ id row, b.Uses id row → old.Uses id row ∨ id ∉ s.ids ∧ i = j := by
    intro j b hb
    rw [hattempts] at hb
    rcases getElem?_set_eq_some hb with ⟨rfl, rfl⟩ | ⟨-, hb⟩
    · exact ⟨a, hi, hask.symm, halive, fun id row hu => (hused id row hu).imp_right fun h => ⟨h, rfl⟩⟩
    · exact ⟨b, hb, rfl, fun h => h, fun _ _ hu => .inl hu⟩
  refine ⟨fun b hb hserved => ?_, fun j k b c hb hc hblive hclive hkey => ?_,
    fun j k b c id row row' hb hc hbu hcu => ?_, fun b hb id row hu => ?_, hnamed, hfinds, htold,
    fun b hb id hlook => ?_⟩
  · rw [hattempts] at hb
    rcases exists_of_mem_set hb with rfl | ⟨j, hne, hb⟩
    · rw [hask]
      exact hinflight _ (hs.inflight a hmem (halive hserved)) (.inr (.inl hserved))
    · refine hinflight _ (hs.inflight b (mem_of_getElem? hb) hserved) ?_
      cases hold : a.alive with
      | false => exact .inl rfl
      | true => exact .inr (.inr fun hkey => hne (hs.alone i j a b hi hb hold hserved hkey.symm))
  · obtain ⟨b₀, hb₀, hbask, hbold, -⟩ := hbefore j b hb
    obtain ⟨c₀, hc₀, hcask, hcold, -⟩ := hbefore k c hc
    exact hs.alone j k b₀ c₀ hb₀ hc₀ (hbold hblive) (hcold hclive) (by rw [hbask, hcask, hkey])
  · obtain ⟨b₀, hb₀, -, -, hbuse⟩ := hbefore j b hb
    obtain ⟨c₀, hc₀, -, -, hcuse⟩ := hbefore k c hc
    rcases hbuse id row hbu with hbu | ⟨hnew, rfl⟩ <;> rcases hcuse id row' hcu with hcu | ⟨hnew', rfl⟩
    · exact hs.used j k b₀ c₀ id row row' hb₀ hc₀ hbu hcu
    · exact absurd (hs.rows b₀ (mem_of_getElem? hb₀) id row hbu).1 hnew'
    · exact absurd (hs.rows c₀ (mem_of_getElem? hc₀) id row' hcu).1 hnew
    · rfl
  · rw [hattempts] at hb
    rcases mem_or_eq_of_mem_set hb with hb | rfl
    · exact ⟨hids id (hs.rows b hb id row hu).1, (hs.rows b hb id row hu).2⟩
    · rw [hask]
      exact hrows id row hu
  · rw [hattempts] at hb
    rcases mem_or_eq_of_mem_set hb with hb | rfl
    · exact hkept id (hs.looks b hb id hlook)
    · exact hlooks id hlook

theorem Served.goesOn (hids : s'.ids = s.ids) (hask : a'.ask = a.ask) (halive : a'.alive = true → a.alive = true)
    (hinflight : ∀ r ∈ s.inflight, a.alive = false ∨ a'.alive = true ∨ r ≠ a.ask.key → r ∈ s'.inflight)
    (hstage : a'.stage = a.stage ∨ a'.stage.idle = true ∨
      ∃ id, s.Free id ∧ id ∈ s'.told ∧ (a'.stage = .viewing id ∨ a'.stage = .reading id))
    (hnamed : Named s.db s'.db) (htold : ∀ id ∈ s'.told, id ∈ s.told ∨ s'.Free id)
    (hkept : ∀ id ∈ s.told, id ∈ s'.told) : s'.Served := by
  have hmem := mem_of_getElem? hi
  have hrecording : ∀ id row, a'.stage = .recording id row → a.stage = .recording id row := by
    intro id row h
    rcases hstage with hsame | hidle | ⟨id', -, -, hview | hread⟩
    · exact hsame.symm.trans h
    · rw [h] at hidle
      nomatch hidle
    · nomatch hview.symm.trans h
    · nomatch hread.symm.trans h
  have hrecorded : ∀ id row submitted, a'.stage = .recorded id row submitted →
      a.stage = .recorded id row submitted := by
    intro id row submitted h
    rcases hstage with hsame | hidle | ⟨id', -, -, hview | hread⟩
    · exact hsame.symm.trans h
    · rw [h] at hidle
      nomatch hidle
    · nomatch hview.symm.trans h
    · nomatch hread.symm.trans h
  have huses : ∀ id row, a'.Uses id row → a.Uses id row := fun id row hu =>
    hu.imp (hrecording id row) fun ⟨submitted, h⟩ => ⟨submitted, hrecorded id row submitted h⟩
  have htakes : ∀ id row, a'.TakesUp id row → a.TakesUp id row := fun id row ht =>
    ⟨halive ht.1, hrecorded id row .new ht.2⟩
  have hfree : ∀ id, s.Free id → s'.Free id := fun id hf =>
    hf.set hattempts (hids ▸ hf.known) (fun row h => hf.unrecorded a hmem row (hrecording id row h))
      fun row h => hf.untaken a hmem row (htakes id row h)
  have hcases : ∀ b ∈ s'.attempts, b ∈ s.attempts ∨ b = a' := fun b hb => mem_or_eq_of_mem_set (hattempts ▸ hb)
  refine hs.set hi hattempts (fun id hid => hids ▸ hid) hask halive hinflight
    (fun id row hu => hids ▸ hs.rows a hmem id row (huses id row hu))
    (fun id row hu => .inl (huses id row hu)) (fun r row id hrow hjob => ?_) (fun b hb id hf => ?_)
    (fun id hid => (htold id hid).elim (fun h => hfree id (hs.told id h)) fun h => h) hkept
    fun id hlook => ?_
  · obtain ⟨hknown, hnot, htaken⟩ := hs.named r row id (hnamed r row id hrow hjob) hjob
    refine ⟨hids ▸ hknown, fun b hb row h => ?_, fun b hb row h => ?_⟩
    · rcases hcases b hb with hb | rfl
      · exact hnot b hb row h
      · exact hnot a hmem row (hrecording id row h)
    · rcases hcases b hb with hb | rfl
      · exact htaken b hb row h
      · exact hask ▸ htaken a hmem row (htakes id row h)
  · rcases hcases b hb with hb | rfl
    · exact hfree id (hs.finds b hb id hf)
    · refine hfree id ?_
      rcases hstage with hsame | hidle | ⟨id', hfree', -, hview⟩
      · exact hs.finds a hmem id (by unfold Attempt.Finds at hf ⊢; rwa [hsame] at hf)
      · rcases hf with ⟨id', row, h⟩ | h | h <;> rw [h] at hidle <;> nomatch hidle
      · rcases hf with ⟨id'', row, h⟩ | h | h
        · rcases hview with hview | hview <;> nomatch h.symm.trans hview
        · rcases hview with hview | hview
          · exact Stage.viewing.inj (h.symm.trans hview) ▸ hfree'
          · nomatch h.symm.trans hview
        · rcases hview with hview | hview
          · nomatch h.symm.trans hview
          · exact Stage.reading.inj (h.symm.trans hview) ▸ hfree'
  · rcases hstage with hsame | hidle | ⟨id', -, hid', hview⟩
    · exact hkept id (hs.looks a hmem id (hsame ▸ hlook))
    · rcases hlook with h | h <;> rw [h] at hidle <;> nomatch hidle
    · have hsame : id' = id := by
        rcases hview with hview | hview <;> rcases hlook with h | h
        · exact Stage.viewing.inj (hview.symm.trans h)
        · nomatch hview.symm.trans h
        · nomatch hview.symm.trans h
        · exact Stage.reading.inj (hview.symm.trans h)
      exact hsame ▸ hid'

/-- Once its attempt is done, no attempt uses a job. -/
theorem Served.free_of_uses (hids : s'.ids = s.ids)
    (huses : a.Uses id row) (hidle : a'.stage.idle = true) : s'.Free id := by
  have hnone : ∀ b ∈ s'.attempts, ∀ row', ¬ b.Uses id row' := by
    intro b hb row' hu
    rw [hattempts] at hb
    rcases exists_of_mem_set hb with rfl | ⟨j, hne, hb⟩
    · rcases hu with h | ⟨submitted, h⟩ <;> rw [h] at hidle <;> nomatch hidle
    · exact hne (hs.used i j a b id row row' hi hb huses hu)
  exact ⟨hids ▸ (hs.rows a (mem_of_getElem? hi) id row huses).1,
    fun b hb row' h => hnone b hb row' (.inl h), fun b hb row' h => hnone b hb row' (uses_of_takesUp h)⟩

end

theorem Served.start (hnew : id ∉ s.ids) (admission : Option String) :
    ({ s with ids := id :: s.ids }.move i a (.recording id (a.ask.row admission a.now))).Served := by
  have huses : ∀ id' row, ({ a with stage := .recording id (a.ask.row admission a.now) } : Attempt).Uses
      id' row → id' = id ∧ row = a.ask.row admission a.now := by
    rintro id' row (h | ⟨submitted, h⟩)
    · exact ⟨(Stage.recording.inj h).1.symm, (Stage.recording.inj h).2.symm⟩
    · nomatch h
  have hfree : ∀ id', s.Free id' → ({ s with ids := id :: s.ids }.move i a
      (.recording id (a.ask.row admission a.now))).Free id' := by
    intro id' hf
    refine hf.set rfl (mem_cons_of_mem _ hf.known) (fun row h => ?_) (fun row h => nomatch h.2)
    exact hnew ((huses id' row (.inl h)).1 ▸ hf.known)
  refine hs.set hi rfl (fun _ hid => mem_cons_of_mem _ hid) rfl (fun h => h) (fun _ hr _ => hr)
    (fun id' row hu => ?_) (fun id' row hu => .inr ((huses id' row hu).1 ▸ hnew))
    (fun r row id' hrow hjob => ?_) (fun b hb id' hf => ?_)
    (fun id' hid => hfree id' (hs.told id' hid)) (fun _ h => h) fun id' hlook => ?_
  · obtain ⟨rfl, rfl⟩ := huses id' row hu
    exact ⟨mem_cons_self, rfl, rfl, rfl⟩
  · obtain ⟨hknown, hnot, htaken⟩ := hs.named r row id' hrow hjob
    refine ⟨mem_cons_of_mem _ hknown, fun b hb row h => ?_, fun b hb row h => ?_⟩
    · rcases mem_or_eq_of_mem_set hb with hb | rfl
      · exact hnot b hb row h
      · exact hnew ((huses id' row (.inl h)).1 ▸ hknown)
    · rcases mem_or_eq_of_mem_set hb with hb | rfl
      · exact htaken b hb row h
      · nomatch h.2
  · rcases mem_or_eq_of_mem_set hb with hb | rfl
    · exact hfree id' (hs.finds b hb id' hf)
    · rcases hf with ⟨_, _, h⟩ | h | h <;> nomatch h
  · rcases hlook with h | h <;> nomatch h

theorem Served.free_of_named (halive : a.alive = true) (htakes : ∀ id row, ¬ a.TakesUp id row)
    {row : RequestRow} (hrow : s.db.requests.lookup a.ask.key = some row) (hjob : row.answer = .job id) :
    s.Free id := by
  obtain ⟨hknown, hnot, htaken⟩ := hs.named _ row id hrow hjob
  refine ⟨hknown, hnot, fun b hb row' h => ?_⟩
  obtain ⟨j, hj⟩ := mem_iff_getElem?.mp hb
  obtain rfl := hs.alone i j a b hi hj halive h.1 (htaken b hb row' h).symm
  obtain rfl := Option.some.inj (hi.symm.trans hj)
  exact htakes id row' h

end

theorem submitted_stage (a : Attempt) (id : String) (row : JobRow) (submitted : Submitted) :
    (if a.alive = true then Stage.recorded id row submitted else .over none) = .over none ∨
    a.alive = true ∧ (if a.alive = true then Stage.recorded id row submitted else .over none) =
      .recorded id row submitted := by
  split_ifs with halive
  · exact .inr ⟨halive, rfl⟩
  · exact .inl rfl

section

variable (hs : s.Served) (hi : s.attempts[i]? = some a) (hstage : a.stage = .recording id row)
include hs hi hstage

/-- An attempt whose record was handled: its request may be named by its job, and it may find the job of
an earlier attempt. -/
theorem Served.written {db : Db} {created : List (String × JobRow)} {stage : Stage} {submitted : Submitted}
    (hstage' : stage = .over none ∨ a.alive = true ∧ stage = .recorded id row submitted)
    (hnamed : ∀ r row' id', db.requests.lookup r = some row' → row'.answer = .job id' →
      s.db.requests.lookup r = some row' ∨ r = a.ask.key ∧ id' = id)
    (hagain : a.alive = true → ∀ job, submitted = .again job → s.Free job) :
    ({ s with db := db, created := created }.move i a stage).Served := by
  have hmem := mem_of_getElem? hi
  have huses : a.Uses id row := .inl hstage
  obtain ⟨hid, hkey, hended, hrev⟩ := hs.rows a hmem id row huses
  have hnot : ∀ id' row', stage ≠ .recording id' row' := by
    rintro id' row' rfl
    rcases hstage' with h | ⟨-, h⟩ <;> nomatch h
  have huse : ∀ id' row', ({ a with stage := stage } : Attempt).Uses id' row' → id' = id ∧ row' = row := by
    rintro id' row' (h | ⟨_, h⟩)
    · exact absurd h (hnot id' row')
    · rcases hstage' with h' | ⟨-, h'⟩
      · nomatch h'.symm.trans h
      · obtain ⟨rfl, rfl, -⟩ := Stage.recorded.inj (h'.symm.trans h)
        exact ⟨rfl, rfl⟩
  have hfree : ∀ id', s.Free id' → ({ s with
      db := db, created := created }.move i a stage).Free id' := by
    intro id' hf
    refine hf.set rfl hf.known (fun row' => hnot id' row') fun row' h => ?_
    obtain ⟨rfl, -⟩ := huse id' row' (uses_of_takesUp h)
    exact hf.unrecorded a hmem row hstage
  refine hs.set hi rfl (fun _ h => h) rfl (fun h => h) (fun _ hr _ => hr) (fun id' row' hu => ?_)
    (fun id' row' hu => .inl ?_) (fun r row' id' hrow hjob => ?_) (fun b hb id' hf => ?_)
    (fun id' hid' => hfree id' (hs.told id' hid')) (fun _ h => h) fun id' hlook => ?_
  · obtain ⟨rfl, rfl⟩ := huse id' row' hu
    exact ⟨hid, hkey, hended, hrev⟩
  · obtain ⟨rfl, rfl⟩ := huse id' row' hu
    exact huses
  · rcases hnamed r row' id' hrow hjob with hrow | ⟨rfl, rfl⟩
    · obtain ⟨hknown, hnone, htaken⟩ := hs.named r row' id' hrow hjob
      refine ⟨hknown, fun b hb row'' h => ?_, fun b hb row'' h => ?_⟩
      · rcases mem_or_eq_of_mem_set hb with hb | rfl
        · exact hnone b hb row'' h
        · exact hnot id' row'' h
      · rcases mem_or_eq_of_mem_set hb with hb | rfl
        · exact htaken b hb row'' h
        · obtain ⟨rfl, -⟩ := huse id' row'' (uses_of_takesUp h)
          exact absurd hstage (hnone a hmem row)
    · refine ⟨hid, fun b hb row'' h => ?_, fun b hb row'' h => ?_⟩
      · rcases exists_of_mem_set hb with rfl | ⟨j, hne, hb⟩
        · exact hnot id' row'' h
        · exact hne (hs.used i j a b id' row row'' hi hb huses (.inl h))
      · rcases exists_of_mem_set hb with rfl | ⟨j, hne, hb⟩
        · rfl
        · exact absurd (hs.used i j a b id' row row'' hi hb huses (uses_of_takesUp h)) hne
  · rcases mem_or_eq_of_mem_set hb with hb | rfl
    · exact hfree id' (hs.finds b hb id' hf)
    · rcases hstage' with rfl | ⟨halive, rfl⟩
      · rcases hf with ⟨_, _, h⟩ | h | h <;> nomatch h
      · rcases hf with ⟨_, _, h⟩ | h | h
        · exact hfree id' (hagain halive id' (Stage.recorded.inj h).2.2)
        · nomatch h
        · nomatch h
  · rcases hstage' with rfl | ⟨-, rfl⟩ <;> rcases hlook with h | h <;> nomatch h

/-- Recording a job keeps to the order of attempts. -/
theorem Served.record : (s.submitted i a id row (s.db.submitJob id row a.ask.digest a.now)).Served := by
  obtain ⟨-, hkey, -⟩ := hs.rows a (mem_of_getElem? hi) id row (.inl hstage)
  rw [Service.submitted, goOn_eq]
  refine hs.written hi hstage (submitted_stage a id row _) (fun r row' id' hrow hjob => ?_) fun halive job hsub => ?_
  · rcases s.db.submitJob_cases id row a.ask.digest a.now with ⟨-, hsame, -⟩ | ⟨-, -, -, hnew⟩
    · exact .inl (hsame ▸ hrow)
    · rw [hnew] at hrow
      rcases Db.of_lookup_recordRequest hrow with ⟨hr, rfl⟩ | hrow
      · exact .inr ⟨hr.trans hkey, (RequestAnswer.job.inj hjob).symm⟩
      · exact .inl hrow
  · rcases s.db.submitJob_cases id row a.ask.digest a.now with ⟨-, -, hprev⟩ | ⟨hnew, -⟩
    · obtain ⟨previous, hprevious, hjob, -⟩ := hprev job hsub
      refine hs.free_of_named hi halive (fun id' row' h => ?_) (hkey ▸ (Db.lookup_of_request hprevious).1) hjob
      nomatch hstage.symm.trans h.2
    · nomatch hnew.symm.trans hsub

end

end Attempts

end Service

end Virtkit.Jobs
