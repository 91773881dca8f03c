import Virtkit.Jobs.AnswersSteps

/-!
# One submission, one answer

In every run within the day a request is kept, with its attempts retried and given up in any way: at most
one job is recorded for it, it adds at most one to its project's refused count, and an attempt made after
one was answered with a job or a refusal for approval is answered the same, or that the job was dropped
from the history, that another attempt is being served, or that the hub failed. No two records kept name
one admission.
-/

namespace Virtkit.Jobs

open Virtkit.Common Option List

/-- A step of a run about one request: its attempts have the same body and begin from a time on, the
request's day is not over, and no reservation takes its ID. -/
structure WithinDay (ask : Ask) (t₀ : ℕ) (s : Service) (e : ServiceEvent) (s' : Service) : Prop where
  day : s'.clock < t₀ + requestKeep
  same : ∀ ask', e = .begin ask' → ask'.key = ask.key → ask' = ask ∧ t₀ ≤ s.clock
  own : ∀ digest, e ≠ .reserve ask.key digest

/-- A hub from a start on, and one request that was not made before. -/
def requestSystem (normalize : String → Option String) (ask : Ask) (t₀ : ℕ) : System Service ServiceEvent :=
  (System.ofFunction (fun s => s.Recovered ∧ s.clock < t₀ + requestKeep ∧
    s.db.requests.lookup ask.key = none) (Service.step normalize)).restrict (WithinDay ask t₀)

/-- Whether an answer is the same as an earlier one, as far as it can be: the job is gone from the
history, the request is being served, or the hub failed. -/
def Service.Agrees (s : Service) : Answer → Answer → Prop
  | .job id _, .job id' _ => id' = id
  | .job id _, .gone id' => id' = id ∧ s.db.jobs.lookup id = none
  | .refused refusal, .refused refusal' => refusal' = refusal
  | _, .unavailable | _, .failed => True
  | _, _ => False

namespace Service

section Steps

variable {normalize : String → Option String} {s s' : Service} {ask : Ask} {t₀ : ℕ}

section

variable (h : s.Once ask t₀)
include h

theorem Once.other (hs : s.Served)
    (hledger : s.Follows s') (hclock : s.clock ≤ s'.clock) (hday : s'.clock < t₀ + requestKeep)
    (hrequest : s'.db.requests.lookup ask.key = s.db.requests.lookup ask.key) (hattempts : s'.attempts = s.attempts)
    (hhistory : s'.answers = s.answers ∧ s'.created = s.created ∧ s'.counted = s.counted) : s'.Once ask t₀ := by
  obtain ⟨hanswers, hcreated, hcounted⟩ := hhistory
  exact h.next hs hledger hclock hday (.of_eq hrequest) (fun a ha => .inl (hattempts ▸ ha))
    (fun x hx _ => .inl (hanswers ▸ hx)) (.inl (by rw [createdFor, hcreated, createdFor]))
    (.inl (by rw [countedFor, hcounted, countedFor]))

theorem Once.heard {x : Answer} (hx : s.heard ask = some x) : ∃ answer, s.CameTo ask answer ∧ answer.decides x := by
  obtain ⟨⟨key, digest, y⟩, hfind, rfl⟩ := map_eq_some_iff.mp hx
  have hmem := mem_of_find?_eq_some hfind
  have htest := find?_some hfind
  simp only [Bool.and_eq_true, decide_eq_true_eq] at htest
  obtain ⟨⟨rfl, rfl⟩, hdecisive⟩ := htest
  exact h.answered y hmem hdecisive

/-- A request that is made again finds its answer. -/
theorem Once.begin (hs : s.Served) {ask' : Ask} (hsame : ask'.key = ask.key → ask' = ask ∧ t₀ ≤ s.clock)
    (hledger : s.Follows (s.begin ask')) : (s.begin ask').Once ask t₀ := by
  have hfits : ∀ stage alive, stage.idle = true → (∀ answer : RequestAnswer, stage.Late answer) →
      (⟨ask', s.clock, stage, alive, s.heard ask'⟩ : Attempt).Fits s.clock (s.CameTo ask) ask t₀ := by
    intro stage alive hidle hlate
    refine ⟨Nat.le_refl _, hsame, fun hkey x hx => ?_, fun _ id hid => not_finds_of_idle hidle hid⟩
    obtain rfl := (hsame hkey).1
    obtain ⟨answer, hcame, hdecides⟩ := h.heard hx
    exact ⟨answer, hcame, hdecides, hlate answer⟩
  unfold Service.begin at hledger ⊢
  split_ifs at hledger ⊢
  · refine h.next hs hledger (Nat.le_refl _) h.day (.of_eq rfl) (fun a ha => ?_)
      (fun x hx hdecisive => ?_) (.inl rfl) (.inl rfl)
    · rcases mem_append.mp ha with ha | ha
      · exact .inl ha
      · obtain rfl := mem_singleton.mp ha
        exact .inr ⟨hfits _ _ rfl fun _ => trivial, nofun⟩
    · rcases mem_cons.mp hx with heq | hx
      · obtain ⟨-, hrest⟩ := Prod.mk.inj heq
        obtain ⟨-, rfl⟩ := Prod.mk.inj hrest
        nomatch hdecisive
      · exact .inl hx
  · refine h.next hs hledger (Nat.le_refl _) h.day (.of_eq rfl) (fun a ha => ?_)
      (fun x hx _ => .inl hx) (.inl rfl) (.inl rfl)
    rcases mem_append.mp ha with ha | ha
    · exact .inl ha
    · obtain rfl := mem_singleton.mp ha
      exact .inr ⟨hfits _ _ rfl fun _ => trivial, nofun⟩

/-- Within a day, every step keeps the request's one answer. -/
theorem Once.step (hs : s.Served) (ho : s.Owned) {e : ServiceEvent}
    (hstep : s.step normalize e = some s') (hwithin : WithinDay ask t₀ s e s') : s'.Once ask t₀ := by
  have hledger := ledger_step hs hstep
  have hday := hwithin.day
  cases e with
  | begin ask' =>
    cases hstep
    exact h.begin hs (hwithin.same ask' rfl) hledger
  | attempt i event =>
    simp only [Service.step] at hstep
    split at hstep
    · rename_i a hi
      exact h.attempt hs hi ho hstep hledger
    · cases hstep
  | job event =>
    have hframe := jobsFrame_of_step hstep
    exact h.other hs hledger hframe.clock.ge hday (by rw [hframe.requests]) hframe.attempts hframe.history
  | decide gitlab id state path =>
    cases hstep
    refine h.other hs hledger (Nat.le_refl _) hday ?_ rfl ⟨rfl, rfl, rfl⟩
    unfold Db.decideProject
    dsimp only
    split_ifs <;> rfl
  | reserve request digest =>
    cases hstep
    refine h.other hs hledger (Nat.le_refl _) hday (h.recordRequest ?_ h.day) rfl ⟨rfl, rfl, rfl⟩
    rintro rfl
    exact hwithin.own digest rfl
  | wait secs =>
    cases hstep
    exact h.other hs hledger (Nat.le_add_right _ _) hday rfl rfl ⟨rfl, rfl, rfl⟩
  | _ =>
    cases hstep
    exact h.other hs hledger (Nat.le_refl _) hday rfl rfl ⟨rfl, rfl, rfl⟩

end

/-- What holds in every state of such a run. -/
structure OneAnswer (s : Service) (ask : Ask) (t₀ : ℕ) : Prop where
  served : s.Served
  owned : s.Owned
  once : s.Once ask t₀

theorem Recovered.once (h : s.Recovered) (hday : s.clock < t₀ + requestKeep)
    (hnone : s.db.requests.lookup ask.key = none) : s.Once ask t₀ := by
  obtain ⟨-, hcreated, hcounted, hanswers⟩ := h.history
  have hattempts := h.idle.2.2.1
  refine ⟨hday, fun row hrow => (nomatch hnone.symm.trans hrow), fun id hcame => absurd hcame (not_cameTo hnone _),
    ?_, ?_, ?_, ?_, ?_, ?_, ?_⟩
  · rw [hattempts]
    exact fun a ha => nomatch ha
  · rw [hattempts]
    exact fun a ha => nomatch ha
  · rw [hanswers]
    exact fun x hx => nomatch hx
  · rw [hcreated]
    exact fun id row hc => nomatch hc
  · rw [hcreated]
    exact Nat.zero_le 1
  · rw [hcounted]
    exact Nat.zero_le 1
  · rw [hcounted]
    exact fun hne => absurd rfl hne

theorem oneAnswer_of_reachable (h : (requestSystem normalize ask t₀).Reachable s) : s.OneAnswer ask t₀ := by
  refine @System.Reachable.invariant _ _ _ (fun s : Service => s.OneAnswer ask t₀) (fun s hinit => ?_)
    (fun s e s' hs hstep => ?_) s h
  · obtain ⟨hrecovered, hday, hnone⟩ := hinit
    exact ⟨hrecovered.served, hrecovered.owned, hrecovered.once hday hnone⟩
  · exact ⟨hs.served.step hstep.1, hs.owned.step hs.served hstep.1,
      hs.once.step hs.served hs.owned hstep.1 hstep.2⟩

/-- Answers to one request agree. -/
theorem agrees_of_admits {answer : RequestAnswer} {x y : Answer} (hx : answer.decides x)
    (hy : answer.admits y) (hgone : ∀ id, y = .gone id → s.db.jobs.lookup id = none) : s.Agrees x y := by
  cases answer with
  | job id =>
    cases x with
    | job id' row =>
      obtain rfl : id' = id := hx
      cases y with
      | job id'' row' => exact hy
      | gone id'' =>
        obtain rfl := RequestAnswer.job.inj hy
        exact ⟨rfl, hgone _ rfl⟩
      | unavailable | failed => trivial
      | refused refusal | conflict | admissionTaken | turnedAway code => exact hy
    | _ => exact hx.elim
  | refused refusal =>
    cases x with
    | refused refusal' =>
      obtain rfl : refusal' = refusal := hx
      cases y with
      | refused refusal'' => exact hy
      | unavailable | failed => trivial
      | gone id => nomatch hy
      | job id row | conflict | admissionTaken | turnedAway code => exact hy
    | _ => exact hx.elim
  | reservation =>
    cases x <;> exact hx.elim

/-- One submission, one answer. -/
theorem submission_has_one_answer (normalize : String → Option String) (ask : Ask) (t₀ : ℕ) {s : Service}
    (h : (requestSystem normalize ask t₀).Reachable s) :
    (s.created.filter fun x => (x.2.key, x.2.requestId) = ask.key).length ≤ 1 ∧
    (∀ id id' row row' admission, s.db.jobs.lookup id = some row → s.db.jobs.lookup id' = some row' →
      row.key = row'.key → row.admission = some admission → row'.admission = some admission → id = id') ∧
    ((s.counted.filter fun x => x.1 = ask.key).map Prod.snd).sum ≤ 1 ∧
    ∀ a ∈ s.attempts, a.ask.key = ask.key → ∀ x y, a.heard = some x → a.stage = .over (some y) →
      s.Agrees x y := by
  obtain ⟨-, howned, honce⟩ := oneAnswer_of_reachable h
  refine ⟨honce.createdOnce, ?_, honce.counted, ?_⟩
  · intro id id' row row' admission hrow hrow' hkey hadm hadm'
    have hhold := howned.admitted id row admission hrow hadm
    rw [hkey, howned.admitted id' row' admission hrow' hadm'] at hhold
    exact (some.inj hhold).symm
  · intro a ha hkey x y hx hy
    obtain ⟨answer, -, hdecides, hlate⟩ := (honce.attempts a ha).heard hkey x hx
    rw [hy] at hlate
    refine agrees_of_admits hdecides hlate fun id hid => ?_
    exact honce.gone a ha hkey (by rw [hx]; exact some_ne_none x) id (hid ▸ hy)

/-- Whether a step is within the request's day. -/
def withinDay (ask : Ask) (t₀ : ℕ) (s : Service) (e : ServiceEvent) (s' : Service) : Bool :=
  s'.clock < t₀ + requestKeep && match e with
  | .begin ask' => ask'.key ≠ ask.key || (ask' = ask && t₀ ≤ s.clock)
  | .reserve request _ => request ≠ ask.key
  | _ => true

theorem withinDay_of_test {e : ServiceEvent} (h : s.withinDay ask t₀ e s' = true) : WithinDay ask t₀ s e s' := by
  obtain ⟨hday, htest⟩ := (Bool.and_eq_true _ _).mp h
  refine ⟨of_decide_eq_true hday, ?_, ?_⟩
  · rintro ask' rfl hkey
    simpa [hkey] using htest
  · rintro digest rfl
    simp at htest

/-- Whether an attempt heard of the job and is over with it. -/
def foundAgain (a : Attempt) : Bool :=
  match a.heard, a.stage with
  | some (.job id _), .over (some (.job id' _)) => id = "job" && id' = "job"
  | _, _ => false

/-- An attempt given up while its job is recorded, and the two after it answered with its job. -/
theorem submission_has_one_answer_given_up : ∃ s, (requestSystem some firstAsk 0).Reachable s ∧
    s.created.map Prod.fst = ["job"] ∧
    ∃ a ∈ s.attempts, ∃ row row', a.heard = some (.job "job" row) ∧
      a.stage = .over (some (.job "job" row')) ∧ s.Agrees (.job "job" row) (.job "job" row') := by
  obtain ⟨s, hreach, hcreated, a, ha, hkey, hjob⟩ : ∃ s, (requestSystem some firstAsk 0).Reachable s ∧
      s.created.map Prod.fst = ["job"] ∧ ∃ a ∈ s.attempts, a.ask.key = firstAsk.key ∧
        foundAgain a = true :=
    System.exists_reachable_restrict withinDay_of_test firstHub ([.begin firstAsk] ++ submitting 0 "job" ++
      [.attempt 0 .giveUp, .attempt 0 .record,
        .begin firstAsk, .attempt 1 .lookup, .attempt 1 (.start none "other"), .attempt 1 .record,
        .attempt 1 .resume, .attempt 1 .view, .attempt 1 .read,
        .begin firstAsk, .attempt 2 .lookup, .attempt 2 (.start none "third"), .attempt 2 .record,
        .attempt 2 .resume, .attempt 2 .view, .attempt 2 .read])
      ⟨firstHub_recovered, by decide, rfl⟩ (by decide +kernel)
  unfold foundAgain at hjob
  split at hjob
  · rename_i id row id' row' hheard hstage
    obtain ⟨hid, hid'⟩ := (Bool.and_eq_true _ _).mp hjob
    obtain rfl : id = "job" := of_decide_eq_true hid
    obtain rfl : id' = "job" := of_decide_eq_true hid'
    exact ⟨s, hreach, hcreated, a, ha, row, row', hheard, hstage,
      (submission_has_one_answer some firstAsk 0 hreach).2.2.2 a ha hkey _ _ hheard hstage⟩
  · cases hjob

/-- The submission with an admission, and another request for the same one. -/
def admittedAsk (request : String) : Ask :=
  ⟨"relay", request, "digest", some "ticket", ⟨"url", 1, "group/project"⟩⟩

/-- Whether an attempt heard of the job and is turned away. -/
def turnedAway (a : Attempt) : Bool :=
  match a.heard, a.stage with
  | some (.job id _), .over (some .unavailable) => id = "job"
  | _, _ => false

/-- After a request was answered with its job, an attempt made while another is served is turned away;
and with the job settled and dropped from the history, a second request, past its checks by then, makes
a second record for the admission. -/
theorem served_twice_and_admission_reused : (∃ s, (requestSystem some firstAsk 0).Reachable s ∧
      ∃ a ∈ s.attempts, ∃ row, a.heard = some (.job "job" row) ∧ a.stage = .over (some .unavailable)) ∧
    ∃ s, (requestSystem some (admittedAsk "request") 0).Reachable s ∧
      s.created.map (fun x => (x.1, x.2.key, x.2.admission)) =
        [("other", "relay", some "ticket"), ("job", "relay", some "ticket")] := by
  constructor
  · obtain ⟨s, hreach, a, ha, hjob⟩ : ∃ s, (requestSystem some firstAsk 0).Reachable s ∧ ∃ a ∈ s.attempts,
        turnedAway a = true :=
      System.exists_reachable_restrict withinDay_of_test firstHub ([.begin firstAsk] ++ submitting 0 "job" ++
        [.attempt 0 .record, .attempt 0 .resume, .begin firstAsk, .begin firstAsk])
        ⟨firstHub_recovered, by decide, rfl⟩ (by decide +kernel)
    unfold turnedAway at hjob
    split at hjob
    · rename_i id row hheard hstage
      obtain rfl : id = "job" := of_decide_eq_true hjob
      exact ⟨s, hreach, a, ha, row, hheard, hstage⟩
    · cases hjob
  · exact System.exists_reachable_restrict withinDay_of_test firstHub
      ([.begin (admittedAsk "request")] ++ submitting 0 "job" ++ [.attempt 0 .record,
        .attempt 0 .resume, .begin (admittedAsk "other")] ++ submitting 1 "other" ++
        [.job (.finish "job" none none), .job (.commit 0), .job (.note 0),
        .job (.look "relay" "job" true), .job (.read 0), .job (.commit 0),
        .job (.prune ["job"] []), .attempt 1 .record]) ⟨firstHub_recovered, by decide, rfl⟩ (by decide +kernel)

end Steps

end Service

end Virtkit.Jobs
