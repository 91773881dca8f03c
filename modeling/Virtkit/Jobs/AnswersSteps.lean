import Virtkit.Jobs.Answers

/-!
# The steps of a request's attempts

Every step of an attempt keeps `Service.Once`: an attempt that finds the request answered is answered
with what it came to, and the two transactions that answer a request, the gate's write and the job's
record, do so only while it has no answer.
-/

namespace Virtkit.Jobs.Service

open Virtkit.Common List Option

section Attempts

variable {normalize : String → Option String} {s s' : Service} {ask : Ask} {t₀ i : ℕ} {a a' : Attempt}
  {id : String} {row : JobRow}

theorem not_finds_of_idle (hidle : a.stage.idle = true) {P : Prop}
    (h : a.Finds id ∨ ∃ row, a.stage = .recorded id row .new) : P := by
  rcases h with (⟨_, _, h⟩ | h | h) | ⟨_, h⟩ <;> rw [h] at hidle <;> nomatch hidle

section

variable (h : s.Once ask t₀)
include h

/-- Within a day an attempt finds the request as it is stored. -/
theorem Once.request (ha : a ∈ s.attempts) (hkey : a.ask.key = ask.key) :
    s.db.request a.ask.key a.now = s.db.requests.lookup ask.key := by
  have hfits := h.attempts a ha
  have hday := h.day
  have hnow := hfits.now
  rw [hkey, Db.request]
  cases hrow : s.db.requests.lookup ask.key with
  | none => rfl
  | some row =>
    have hat := (h.row row hrow).1
    have hpos : 0 < requestKeep := by decide
    have hkeep : a.now - row.at_ < requestKeep := by omega
    simp [hkeep]

theorem Once.found (hbody : a.ask = ask) (hcame : s.CameTo ask (.job id)) (hrow : (s.ledger id).Row row) :
    row.key = a.ask.relay := by
  have hkey := h.named id hcame row hrow
  rw [hbody]
  exact congrArg Prod.fst hkey

theorem Once.recordRequest {r : String × String} {row : RequestRow} (hr : r ≠ ask.key)
    (hat : row.at_ < t₀ + requestKeep) :
    (s.db.recordRequest r row).requests.lookup ask.key = s.db.requests.lookup ask.key := by
  rw [Db.lookup_recordRequest, if_neg (Ne.symm hr)]
  rcases s.db.lookup_sweepRequests row.at_ ask.key with hsame | ⟨-, old, hold, hpast⟩
  · exact hsame
  · have hfrom := (h.row old hold).1
    have hpos : 0 < requestKeep := by decide
    omega

/-- What the gate's write makes of the request: it stays as it was, with no refusal for approval but the
one it came to and nothing counted, or it had no answer and came to the refusal, counted at most once. -/
theorem Once.gate (ha : a ∈ s.attempts) (result : Gate × Db) (hresult : result =
      s.db.gateWrite normalize a.ask.relay a.ask.job a.ask.requestId a.ask.digest a.now) :
    result.2.requests.lookup ask.key = s.db.requests.lookup ask.key ∧
      (a.ask.key = ask.key → result.2.refusedTotal ≤ s.db.refusedTotal ∧
        ∀ refusal, result.1 = .refused refusal → refusal.approval = true → s.CameTo ask (.refused refusal)) ∨
    a.ask.key = ask.key ∧ s.db.requests.lookup ask.key = none ∧ result.2.refusedTotal ≤ s.db.refusedTotal + 1 ∧
      ∃ refusal, result.1 = .refused refusal ∧ result.2.requests.lookup ask.key =
        some ⟨a.now, a.ask.digest, .refused refusal⟩ := by
  have hfits := h.attempts a ha
  have hday : a.now < t₀ + requestKeep := hfits.now.trans_lt h.day
  by_cases hkey : a.ask.key = ask.key
  · have hrequest := h.request ha hkey
    cases hrow : s.db.requests.lookup ask.key with
    | some row =>
      rw [hrow] at hrequest
      have hdigest : row.digest = a.ask.digest := by rw [(h.row row hrow).2.1, (hfits.body hkey).1]
      obtain ⟨hdb, hanswer⟩ := Db.gateWrite_again normalize a.ask.job hrequest hdigest
      rw [← hresult] at hdb hanswer
      refine .inl ⟨by rw [hdb, hrow], fun _ => ⟨by rw [hdb], fun refusal hrefusal _ => ?_⟩⟩
      exact ⟨row, hrow, hanswer refusal hrefusal⟩
    | none =>
      rw [hrow] at hrequest
      rcases Db.gateWrite_new normalize a.ask.job a.ask.digest hrequest with
        ⟨refusal, hrefusal, hrequests, htotal⟩ | ⟨hrequests, hrefusal, htotal⟩ <;>
        rw [← hresult] at hrefusal hrequests htotal
      · refine .inr ⟨hkey, rfl, htotal, refusal, hrefusal, ?_⟩
        rw [hrequests, Db.lookup_recordRequest]
        exact if_pos hkey.symm
      · refine .inl ⟨by rw [hrequests, hrow], fun _ => ⟨htotal, fun refusal hrefused happroval => ?_⟩⟩
        nomatch (hrefusal refusal hrefused).symm.trans happroval
  · refine .inl ⟨?_, fun h => absurd h hkey⟩
    obtain ⟨-, -, hsame | ⟨refusal, -, -, hrequests⟩⟩ :=
      s.db.gateWrite_frame normalize a.ask.relay a.ask.job a.ask.requestId a.ask.digest a.now
    · rw [hresult, hsame]
    · rw [hresult, hrequests]
      exact h.recordRequest hkey hday

/-- What the record of a job makes of the request: it stays as it was, and its job is what it came to; or
it had no answer and came to its new job. -/
theorem Once.submit (hs : s.Served) (ha : a ∈ s.attempts) (hstage : a.stage = .recording id row)
    (result : Submitted × Db) (hresult : result = s.db.submitJob id row a.ask.digest a.now) :
    result.2.requests.lookup ask.key = s.db.requests.lookup ask.key ∧ (a.ask.key = ask.key → result.1 ≠ .new ∧
        (∀ job, result.1 = .again job → s.CameTo ask (.job job)) ∧
        ∀ job, s.CameTo ask (.job job) → result.1 = .again job) ∨
    a.ask.key = ask.key ∧ s.db.requests.lookup ask.key = none ∧ result.1 = .new ∧
      result.2.requests.lookup ask.key = some ⟨a.now, a.ask.digest, .job id⟩ := by
  have hfits := h.attempts a ha
  have hday : a.now < t₀ + requestKeep := hfits.now.trans_lt h.day
  have hrow := (hs.rows a ha id row (.inl hstage)).2.1
  rcases s.db.submitJob_cases id row a.ask.digest a.now with ⟨hold, hdb, hagain⟩ | ⟨hnew, hnone, -, hdb⟩
  · rw [← hresult] at hold hdb hagain
    refine .inl ⟨by rw [hdb], fun hkey => ⟨hold, fun job hjob => ?_, fun job hcame => ?_⟩⟩
    · obtain ⟨previous, hprevious, hanswer, -⟩ := hagain job hjob
      rw [hrow, h.request ha hkey] at hprevious
      exact ⟨previous, hprevious, hanswer⟩
    · obtain ⟨previous, hprevious, hanswer⟩ := hcame
      have hdigest : previous.digest = a.ask.digest := by
        rw [(h.row previous hprevious).2.1, (hfits.body hkey).1]
      rw [hresult, Db.submitJob, hrow, h.request ha hkey, hprevious]
      dsimp only
      rw [if_pos hdigest, hanswer]
  · rw [← hresult] at hnew hdb
    have hlookup : result.2.requests.lookup ask.key =
        (s.db.recordRequest a.ask.key ⟨a.now, a.ask.digest, .job id⟩).requests.lookup ask.key := by
      rw [hdb, hrow]
    by_cases hkey : a.ask.key = ask.key
    · refine .inr ⟨hkey, ?_, hnew, ?_⟩
      · rw [hrow, h.request ha hkey] at hnone
        exact hnone
      · rw [hlookup, Db.lookup_recordRequest]
        exact if_pos hkey.symm
    · exact .inl ⟨hlookup.trans (h.recordRequest hkey hday), fun h => absurd h hkey⟩

end

/-- Where the handler of the gate's write goes: on to its record, to an answer, or to its end. -/
theorem gateWritten_spec (s : Service) (i : ℕ) (a : Attempt) (result : Gate × Db) : let s' := s.gateWritten i a result
    ∃ stage alive, s'.attempts = s.attempts.set i { a with stage := stage, alive := alive } ∧
      stage.idle = true ∧ (∀ id, stage ≠ .over (some (.gone id))) ∧
      s'.clock = s.clock ∧ s'.db = result.2 ∧ s'.created = s.created ∧
      (∀ ask, s'.countedFor ask = if a.ask.key = ask.key then
        result.2.refusedTotal - s.db.refusedTotal + s.countedFor ask else s.countedFor ask) ∧
      (s'.answers = s.answers ∨ ∃ refusal, result.1 = .refused refusal ∧
        s'.answers = (a.ask.key, a.ask.digest, .refused refusal) :: s.answers) := by
  have hcount : ∀ ask n, ((((a.ask.key, n) :: s.counted).filter fun x => x.1 = ask.key).map Prod.snd).sum =
      if a.ask.key = ask.key then n + s.countedFor ask else s.countedFor ask := by
    intro ask n
    split_ifs with hkey <;> simp [hkey, countedFor]
  unfold Service.gateWritten
  cases hgate : result.1 with
  | refused refusal =>
    split_ifs
    · exact ⟨_, _, rfl, rfl, nofun, rfl, rfl, rfl, fun ask => hcount ask _, .inr ⟨refusal, rfl, rfl⟩⟩
    · exact ⟨_, _, rfl, rfl, nofun, rfl, rfl, rfl, fun ask => hcount ask _, .inl rfl⟩
  | _ =>
    dsimp only
    rw [goOn_eq]
    refine ⟨_, _, rfl, ?_, ?_, rfl, rfl, rfl, fun ask => hcount ask _, .inl rfl⟩ <;> split_ifs <;>
      first | rfl | exact nofun

section Steps

variable (h : s.Once ask t₀) (hs : s.Served) (hi : s.attempts[i]? = some a)
include h hs hi

/-- An attempt that goes on keeps the request's one answer. -/
theorem Once.goesOn (hledger : s.Follows s') (hattempts : s'.attempts = s.attempts.set i a')
    (hsame : a'.ask = a.ask ∧ a'.now = a.now ∧ a'.heard = a.heard) (hclock : s'.clock = s.clock)
    (hsettles : s.Settles s' ask t₀)
    (hlate : a.ask.key = ask.key → ∀ answer, s.CameTo ask answer → a.stage.Late answer → a'.stage.Late answer)
    (hfinds : a.ask.key = ask.key → ∀ id, a'.Finds id ∨ (∃ row, a'.stage = .recorded id row .new) →
      s'.CameTo ask (.job id))
    (hgone : a.ask.key = ask.key → ∀ id, a'.stage = .over (some (.gone id)) → s'.db.jobs.lookup id = none)
    (hanswers : s'.answers = s.answers ∨ ∃ x, s'.answers = (a.ask.key, a.ask.digest, x) :: s.answers ∧
      (a.ask.key = ask.key → x.decisive = true → ∃ answer, s'.CameTo ask answer ∧ answer.decides x))
    (hcreated : s'.createdFor ask = s.createdFor ask ∨
      ∃ id row, s'.createdFor ask = [(id, row)] ∧ s'.CameTo ask (.job id))
    (hcounted : s'.countedFor ask = s.countedFor ask ∨
      s'.countedFor ask ≤ 1 ∧ ∃ refusal, s'.CameTo ask (.refused refusal)) : s'.Once ask t₀ := by
  have hfits := h.attempts a (mem_of_getElem? hi)
  refine h.next hs hledger hclock.ge (hclock ▸ h.day) hsettles (fun b hb => ?_) (fun x hx hdecisive => ?_)
    hcreated hcounted
  · rw [hattempts] at hb
    rcases mem_or_eq_of_mem_set hb with hb | rfl
    · exact .inl hb
    · obtain ⟨hask, hnow, hheard⟩ := hsame
      refine .inr ⟨⟨?_, ?_, fun hkey x hx => ?_, fun hkey => hfinds (hask ▸ hkey)⟩, fun hkey _ => hgone (hask ▸ hkey)⟩
      · rw [hnow, hclock]
        exact hfits.now
      · rw [hask, hnow]
        exact hfits.body
      · rw [hask] at hkey
        obtain ⟨answer, hcame, hdecides, hold⟩ := hfits.heard hkey x (hheard ▸ hx)
        exact ⟨answer, hsettles.kept answer hcame, hdecides, hlate hkey answer hcame hold⟩
  · rcases hanswers with hsame | ⟨y, hcons, hnew⟩
    · exact .inl (hsame ▸ hx)
    · rw [hcons] at hx
      rcases mem_cons.mp hx with heq | hx
      · obtain ⟨hkey, hrest⟩ := Prod.mk.inj heq
        obtain ⟨-, rfl⟩ := Prod.mk.inj hrest
        exact .inr (hnew hkey.symm hdecisive)
      · exact .inl hx

theorem Once.answer {x : Answer} (hledger : s.Follows (s.answer i a x))
    (hlate : a.ask.key = ask.key → ∀ answer, s.CameTo ask answer → a.stage.Late answer → answer.admits x)
    (hgone : a.ask.key = ask.key → ∀ id, x = .gone id → s.db.jobs.lookup id = none)
    (hdecides : a.ask.key = ask.key → x.decisive = true →
      ∃ answer, s.CameTo ask answer ∧ answer.decides x) : (s.answer i a x).Once ask t₀ :=
  h.goesOn hs hi hledger rfl ⟨rfl, rfl, rfl⟩ rfl (.of_eq rfl) hlate
    (fun _ _ hid => not_finds_of_idle rfl hid) (fun hkey id hid => hgone hkey id (some.inj (Stage.over.inj hid))) (.inr ⟨x, rfl, hdecides⟩) (.inl rfl) (.inl rfl)

theorem Once.move {stage : Stage} (hledger : s.Follows (s.move i a stage))
    (hlate : a.ask.key = ask.key → ∀ answer, s.CameTo ask answer → a.stage.Late answer → stage.Late answer)
    (hfinds : a.ask.key = ask.key → ∀ id, ({ a with stage := stage } : Attempt).Finds id ∨
      (∃ row, stage = .recorded id row .new) → s.CameTo ask (.job id))
    (hgone : ∀ id, stage ≠ .over (some (.gone id))) : (s.move i a stage).Once ask t₀ :=
  h.goesOn hs hi hledger rfl ⟨rfl, rfl, rfl⟩ rfl (.of_eq rfl) hlate hfinds
    (fun _ id hid => absurd hid (hgone id)) (.inl rfl) (.inl rfl) (.inl rfl)

/-- A lookup gives the answer that the request came to. -/
theorem Once.lookup (hstep : s.stepAttempt normalize i a .lookup = some s')
    (hledger : s.Follows s') : s'.Once ask t₀ := by
  have hmem := mem_of_getElem? hi
  simp only [stepAttempt] at hstep
  split at hstep
  · rename_i hstage halive
    have heq := (some.inj hstep).symm
    -- What an attempt of the request finds is what it came to.
    have hfound : ∀ before, s.db.request a.ask.key a.now = some before → a.ask.key = ask.key →
        s.CameTo ask before.answer ∧ before.digest = a.ask.digest ∧ before.answer ≠ .reservation := by
      intro before hbefore hkey
      rw [h.request hmem hkey] at hbefore
      obtain ⟨-, hdigest, hanswer⟩ := h.row before hbefore
      refine ⟨⟨before, hbefore, rfl⟩, ?_, hanswer⟩
      rw [hdigest, ((h.attempts a hmem).body hkey).1]
    split at heq
    · rename_i hnone
      subst heq
      refine h.move hs hi hledger (fun hkey answer hcame _ => ?_)
        (fun _ id hid => not_finds_of_idle rfl hid) (by rintro - ⟨⟩)
      obtain ⟨row, hrow, -⟩ := hcame
      cases hnone.symm.trans ((h.request hmem hkey).trans hrow)
    · rename_i before hbefore
      split at heq
      · rename_i refusal hrefusal
        split_ifs at heq with hdigest
        · subst heq
          refine h.answer hs hi hledger (fun hkey => ?_) (by rintro - _ ⟨⟩) (by rintro - ⟨⟩)
          exact absurd (hfound before hbefore hkey).2.1 hdigest
        · subst heq
          refine h.answer hs hi hledger (fun hkey answer hcame _ => ?_) (by rintro - _ ⟨⟩)
            fun hkey _ => ⟨_, (hfound before hbefore hkey).1, ?_⟩
          · rw [← (hfound before hbefore hkey).1.unique hcame, hrefusal]
            rfl
          · rw [hrefusal]
            rfl
      · rename_i hnot
        subst heq
        refine h.move hs hi hledger (fun hkey answer hcame _ => ⟨rfl, ?_⟩)
          (fun _ id hid => not_finds_of_idle rfl hid) (by rintro - ⟨⟩)
        obtain ⟨hfound, -, hres⟩ := hfound before hbefore hkey
        rw [← hfound.unique hcame]
        cases hanswer : before.answer with
        | job id => exact ⟨id, rfl⟩
        | refused refusal => exact absurd hanswer (hnot refusal)
        | reservation => exact absurd hanswer hres
  · cases hstep

theorem Once.checks (hnot : ∀ answer, ¬ a.stage.Late answer) {stage : Stage} (hidle : stage.idle = true)
    (hgone : ∀ id, stage ≠ .over (some (.gone id))) (hledger : s.Follows (s.move i a stage)) :
    (s.move i a stage).Once ask t₀ :=
  h.move hs hi hledger (fun _ answer _ hlate => absurd hlate (hnot answer))
    (fun _ _ hid => not_finds_of_idle hidle hid) hgone

theorem Once.turnedAway (hnot : ∀ answer, ¬ a.stage.Late answer) {code : ErrorCode}
    (hledger : s.Follows (s.answer i a (.turnedAway code))) : (s.answer i a (.turnedAway code)).Once ask t₀ :=
  h.answer hs hi hledger (fun _ answer _ hlate => absurd hlate (hnot answer)) (nofun) nofun

theorem Once.giveUp (hledger : s.Follows (s.giveUp i a)) : (s.giveUp i a).Once ask t₀ := by
  refine h.goesOn hs hi hledger rfl ⟨rfl, rfl, rfl⟩ rfl (.of_eq rfl) (fun _ answer _ hlate => ?_)
    (fun hkey id hid => ?_) (fun _ id hid => ?_) (.inl rfl) (.inl rfl) (.inl rfl)
  · cases hstage : a.stage with
    | recording id row | gating | gatingWrite =>
      rw [hstage] at hlate
      exact hlate
    | _ => trivial
  · revert hid
    cases a.stage with
    | _ => rintro ((⟨_, _, hid⟩ | hid | hid) | ⟨_, hid⟩) <;> nomatch hid
  · revert hid
    cases a.stage with
    | _ => exact nofun

theorem Once.answerAgain {found : Option JobRow} (hfound : ∀ row, found = some row → (s.ledger id).Row row)
    (hnone : found = none → s.db.jobs.lookup id = none) (hcame : a.ask.key = ask.key → s.CameTo ask (.job id))
    (hledger : s.Follows (s.answerAgain i a id found)) : (s.answerAgain i a id found).Once ask t₀ := by
  have hmem := mem_of_getElem? hi
  have hfits := h.attempts a hmem
  unfold Service.answerAgain at hledger ⊢
  cases hrow : found.filter fun row => row.key = a.ask.relay with
  | some row =>
    rw [hrow] at hledger
    refine h.goesOn hs hi hledger rfl ⟨rfl, rfl, rfl⟩ rfl (.of_eq rfl) (fun hkey answer hc _ => ?_)
      (fun _ id' hid => ?_) (fun _ id' hid => ?_) (.inr ⟨_, rfl, fun hkey _ => ⟨_, hcame hkey, rfl⟩⟩) (.inl rfl) (.inl rfl)
    · rw [← (hcame hkey).unique hc]
      exact rfl
    · exact not_finds_of_idle rfl hid
    · nomatch hid
  | none =>
    rw [hrow] at hledger
    refine h.answer hs hi hledger (fun hkey answer hc _ => ((hcame hkey).unique hc).symm) (fun hkey id' hid => ?_) nofun
    obtain rfl := Answer.gone.inj hid
    cases hf : found with
    | none => exact hnone hf
    | some row =>
      have hkey' := h.found (hfits.body hkey).1 (hcame hkey) (hfound row hf)
      rw [hf] at hrow
      simp [hkey'] at hrow

/-- An attempt resumes with the answer that was recorded. -/
theorem Once.resume {submitted : Submitted} (hstage : a.stage = .recorded id row submitted)
    (hledger : s.Follows (s.resume i a id row submitted)) : (s.resume i a id row submitted).Once ask t₀ := by
  have hmem := mem_of_getElem? hi
  have hfits := h.attempts a hmem
  cases submitted with
  | new =>
    have hcame : a.ask.key = ask.key → s.CameTo ask (.job id) := fun hkey => hfits.finds hkey id (.inr ⟨row, hstage⟩)
    refine h.goesOn hs hi hledger rfl ⟨rfl, rfl, rfl⟩ rfl (.of_eq rfl) (fun hkey answer hc _ => ?_)
      (fun _ id' hid => ?_) (nofun)
      (.inr ⟨_, rfl, fun hkey _ => ⟨_, hcame hkey, rfl⟩⟩) (.inl rfl) (.inl rfl)
    · rw [← (hcame hkey).unique hc]
      exact rfl
    · exact not_finds_of_idle rfl hid
  | again job =>
    have hcame : a.ask.key = ask.key → s.CameTo ask (.job job) := fun hkey =>
      hfits.finds hkey job (.inl (.inl ⟨id, row, hstage⟩))
    refine h.goesOn hs hi hledger rfl ⟨rfl, rfl, rfl⟩ rfl (.of_eq rfl)
      (fun hkey answer hc _ => ((hcame hkey).unique hc).symm) (fun hkey id' hid => ?_)
      (nofun) (.inl rfl) (.inl rfl) (.inl rfl)
    rcases hid with (⟨_, _, hid⟩ | hid | hid) | ⟨_, hid⟩
    · nomatch hid
    · exact Stage.viewing.inj hid ▸ hcame hkey
    · nomatch hid
    · nomatch hid
  | conflict | admissionTaken =>
    refine h.answer hs hi hledger (fun _ answer _ hlate => ?_) (nofun) nofun
    rw [hstage] at hlate
    obtain ⟨_, -, hlate⟩ := hlate
    nomatch hlate

theorem Once.gateWritten (hstage : a.stage = .gatingWrite) (result : Gate × Db)
    (hresult : result = s.db.gateWrite normalize a.ask.relay a.ask.job a.ask.requestId a.ask.digest a.now)
    (hledger : s.Follows (s.gateWritten i a result)) : (s.gateWritten i a result).Once ask t₀ := by
  have hmem := mem_of_getElem? hi
  have hnot : ∀ answer, ¬ a.stage.Late answer := by
    rw [hstage]
    exact fun _ h => h
  obtain ⟨stage, alive, hattempts, hidle, hgone, hclock, hdb, hcreated, hcounted, hanswers⟩ :=
    gateWritten_spec s i a result
  rcases h.gate hmem result hresult with ⟨hsame, hrefusal⟩ | ⟨hkey, hnone, htotal, refusal, hrefused, hnew⟩
  · refine h.goesOn hs hi hledger hattempts ⟨rfl, rfl, rfl⟩ hclock (.of_eq (by rw [hdb, hsame]))
      (fun _ answer _ hlate => absurd hlate (hnot answer)) (fun _ _ hid => not_finds_of_idle hidle hid)
      (fun _ id hid => absurd hid (hgone id)) ?_ (.inl (by rw [createdFor, hcreated]; rfl)) (.inl ?_)
    · rcases hanswers with hanswers | ⟨refusal, hrefused, hanswers⟩
      · exact .inl hanswers
      · refine .inr ⟨_, hanswers, fun hkey hdecisive => ?_⟩
        obtain ⟨row, hrow, hanswer⟩ := (hrefusal hkey).2 refusal hrefused hdecisive
        exact ⟨_, ⟨row, by rw [hdb, hsame, hrow], hanswer⟩, rfl⟩
    · rw [hcounted]
      split_ifs with hkey
      · rw [Nat.sub_eq_zero_of_le (hrefusal hkey).1, Nat.zero_add]
      · rfl
  · have hbody := (h.attempts a hmem).body hkey
    have hcame : (s.gateWritten i a result).CameTo ask (.refused refusal) := ⟨_, by rw [hdb, hnew], rfl⟩
    refine h.goesOn hs hi hledger hattempts ⟨rfl, rfl, rfl⟩ hclock
      ⟨fun answer hc => absurd hc (not_cameTo hnone answer), fun row hrow => .inr ?_⟩
      (fun _ answer _ hlate => absurd hlate (hnot answer)) (fun _ _ hid => not_finds_of_idle hidle hid)
      (fun _ id hid => absurd hid (hgone id)) ?_ (.inl (by rw [createdFor, hcreated]; rfl))
      (.inr ⟨?_, refusal, hcame⟩)
    · rw [hdb, hnew] at hrow
      cases hrow
      exact ⟨hbody.2, by rw [hbody.1], nofun, nofun⟩
    · rcases hanswers with hanswers | ⟨refusal', hrefused', hanswers⟩
      · exact .inl hanswers
      · exact .inr ⟨_, hanswers, fun _ _ => ⟨_, hcame, Gate.refused.inj (hrefused'.symm.trans hrefused)⟩⟩
    · have hzero : s.countedFor ask = 0 := by
        by_contra hne
        obtain ⟨refusal', hc⟩ := h.countedOnce hne
        exact not_cameTo hnone _ hc
      rw [hcounted, if_pos hkey, hzero]
      omega

/-- A submission records the first answer, or finds one. -/
theorem Once.submitted (ho : s.Owned) (hstage : a.stage = .recording id row) (result : Submitted × Db)
    (hresult : result = s.db.submitJob id row a.ask.digest a.now)
    (hledger : s.Follows (s.submitted i a id row result)) : (s.submitted i a id row result).Once ask t₀ := by
  have hmem := mem_of_getElem? hi
  have hfits := h.attempts a hmem
  have hkeyrow := (hs.rows a hmem id row (.inl hstage)).2.1
  rw [Service.submitted, goOn_eq] at hledger ⊢
  have hcases := submitted_stage a id row result.1
  generalize (if a.alive = true then Stage.recorded id row result.1 else .over none) = stage at hledger hcases ⊢
  have hgone : ∀ id', stage ≠ .over (some (.gone id')) := by
    rintro id' rfl
    rcases hcases with hover | ⟨-, hrecorded⟩
    · cases hover
    · cases hrecorded
  have hfound : ∀ id', ({ a with stage := stage } : Attempt).Finds id' ∨
      (∃ row', stage = .recorded id' row' .new) → result.1 = .again id' ∨ result.1 = .new ∧ id' = id := by
    intro id' hid
    rcases hcases with rfl | ⟨-, rfl⟩
    · exact not_finds_of_idle rfl hid
    · rcases hid with (⟨_, _, hid⟩ | hid | hid) | ⟨_, hid⟩
      · exact .inl (Stage.recorded.inj hid).2.2
      · cases hid
      · cases hid
      · exact .inr ⟨(Stage.recorded.inj hid).2.2, (Stage.recorded.inj hid).1.symm⟩
  rcases h.submit hs hmem hstage result hresult with ⟨hsame, hown⟩ | ⟨hkey, hnone, hnew, hrow⟩
  · refine h.goesOn hs hi hledger rfl ⟨rfl, rfl, rfl⟩ rfl (.of_eq hsame) (fun hkey answer hcame hlate => ?_)
      (fun hkey id' hid => ?_) (fun _ id' hid => absurd hid (hgone id')) (.inl rfl) (.inl ?_) (.inl rfl)
    · rcases hcases with rfl | ⟨-, rfl⟩
      · trivial
      · rw [hstage] at hlate
        obtain ⟨job, rfl⟩ := hlate
        exact ⟨job, rfl, (hown hkey).2.2 job hcame⟩
    · rcases hfound id' hid with hagain | ⟨hnew, -⟩
      · obtain ⟨request, hrequest, hanswer⟩ := (hown hkey).2.1 id' hagain
        exact ⟨request, hsame.trans hrequest, hanswer⟩
      · exact absurd hnew (hown hkey).1
    · change (if result.1 = Submitted.new then (id, row) :: s.created else s.created).filter _ = _
      split_ifs with hnew
      · refine filter_cons_of_neg ?_
        rw [decide_eq_true_eq, hkeyrow]
        exact fun hkey => (hown hkey).1 hnew
      · rfl
  · have hbody := hfits.body hkey
    have hcame : ∃ request, result.2.requests.lookup ask.key = some request ∧ request.answer = .job id := ⟨_, hrow, rfl⟩
    have hold : (s.ledger id).Row row := .inl ⟨a, hmem, hstage⟩
    refine h.goesOn hs hi hledger rfl ⟨rfl, rfl, rfl⟩ rfl
      ⟨fun answer hc => absurd hc (not_cameTo hnone answer), fun request hrequest => .inr ?_⟩
      (fun _ answer hc => absurd hc (not_cameTo hnone answer)) (fun _ id' hid => ?_)
      (fun _ id' hid => absurd hid (hgone id')) (.inl rfl) (.inr ⟨id, row, ?_, hcame⟩) (.inl rfl)
    · obtain rfl := some.inj (hrow.symm.trans hrequest)
      refine ⟨hbody.2, by rw [hbody.1], by rintro ⟨⟩, fun id' hid row' hrow' => ?_⟩
      obtain rfl := RequestAnswer.job.inj hid
      obtain ⟨old, hrold, horigin⟩ := (hledger id).origin (hs.rows a hmem id row (.inl hstage)).1 hrow'
      have hsame := horigin.trans ((ho.alike id).same old row hrold hold)
      simp only [JobRow.origin, Prod.mk.injEq] at hsame
      rw [hsame.1, hsame.2.1, hkeyrow, hkey]
    · rcases hfound id' hid with hagain | ⟨-, rfl⟩
      · cases hnew.symm.trans hagain
      · exact hcame
    · have hempty : s.createdFor ask = [] := by
        refine filter_eq_nil_iff.mpr fun x hx hkey' => ?_
        exact not_cameTo hnone _ (h.created x.1 x.2 hx (of_decide_eq_true hkey'))
      change (if result.1 = Submitted.new then (id, row) :: s.created else s.created).filter _ = _
      rw [if_pos hnew, filter_cons_of_pos (by rw [decide_eq_true_eq, hkeyrow, hkey])]
      exact congrArg _ hempty

/-- Whatever an attempt does, the request is answered once. -/
theorem Once.attempt (ho : s.Owned) {event : AttemptEvent} (hstep : s.stepAttempt normalize i a event = some s')
    (hledger : s.Follows s') : s'.Once ask t₀ := by
  have hmem := mem_of_getElem? hi
  have hfits := h.attempts a hmem
  cases event <;> simp only [stepAttempt] at hstep
  case lookup => exact @Once.lookup normalize _ _ _ _ _ _ h hs hi hstep hledger
  case gateStart =>
    split at hstep
    · rename_i hstage halive
      obtain rfl := some.inj hstep
      exact h.checks hs hi (by rw [hstage]; exact fun _ h => h) rfl (fun _ h => by cases h) hledger
    · cases hstep
  case turnAway code =>
    split at hstep
    · rename_i hstage halive
      obtain rfl := some.inj hstep
      exact h.turnedAway hs hi (by rw [hstage]; exact fun _ h => h) hledger
    · rename_i hstage halive
      obtain rfl := some.inj hstep
      exact h.turnedAway hs hi (by rw [hstage]; exact fun _ h => by cases h.1) hledger
    · cases hstep
  case gateRead =>
    split at hstep
    · rename_i hstage
      have heq := (some.inj hstep).symm
      have hnot : ∀ answer, ¬ a.stage.Late answer := by
        rw [hstage]
        exact fun _ h => h
      split at heq
      · rw [goOn_eq] at heq
        subst heq
        refine h.checks hs hi hnot ?_ ?_ hledger <;> split_ifs
        · rfl
        · rfl
        · exact fun _ h => by cases h
        · exact fun _ h => by cases h
      · subst heq
        exact h.checks hs hi hnot rfl (fun _ h => by cases h) hledger
    · cases hstep
  case gateWrite =>
    split at hstep
    · rename_i hstage
      obtain rfl := some.inj hstep
      exact h.gateWritten hs hi hstage _ rfl hledger
    · cases hstep
  case start unqueued id =>
    split at hstep
    · rename_i seen hstage halive
      split_ifs at hstep
      obtain rfl := some.inj hstep
      refine h.goesOn hs hi hledger rfl ⟨rfl, rfl, rfl⟩ rfl (.of_eq rfl) (fun _ answer _ hlate => ?_)
        (fun _ id' hid => ?_) (fun _ id' hid => by cases hid) (.inl rfl) (.inl rfl) (.inl rfl)
      · rw [hstage] at hlate
        exact hlate.2
      · rcases hid with (⟨_, _, hid⟩ | hid | hid) | ⟨_, hid⟩ <;> cases hid
    · cases hstep
  case record =>
    split at hstep
    · rename_i id row hstage
      obtain rfl := some.inj hstep
      exact h.submitted hs hi ho hstage _ rfl hledger
    · cases hstep
  case resume =>
    split at hstep
    · rename_i id row submitted hstage halive
      obtain rfl := some.inj hstep
      exact h.resume hs hi hstage hledger
    · cases hstep
  case view =>
    split at hstep
    · rename_i id hstage halive
      have heq := (some.inj hstep).symm
      have hcame : a.ask.key = ask.key → s.CameTo ask (.job id) := fun hkey =>
        hfits.finds hkey id (.inl (.inr (.inl hstage)))
      split at heq
      · rename_i row hrow
        subst heq
        refine h.answerAgain hs hi (fun row' hrow' => ?_) (fun h => by cases h) hcame hledger
        obtain rfl := some.inj hrow'
        exact (inMemory_eq_some hrow).elim (fun h => .live h) fun h => .finished h
      · subst heq
        refine h.move hs hi hledger (fun hkey answer hc _ => ((hcame hkey).unique hc).symm)
          (fun hkey id' hid => ?_) fun _ h => by cases h
        rcases hid with (⟨_, _, hid⟩ | hid | hid) | ⟨_, hid⟩
        · cases hid
        · cases hid
        · exact Stage.reading.inj hid ▸ hcame hkey
        · cases hid
    · cases hstep
  case read =>
    split at hstep
    · rename_i id hstage halive
      obtain rfl := some.inj hstep
      exact h.answerAgain hs hi (fun row hrow => .stored hrow) (fun h => h)
        (fun hkey => hfits.finds hkey id (.inl (.inr (.inr hstage)))) hledger
    · cases hstep
  case fail =>
    have hfail : ∀ {s'}, some (s.answer i a .failed) = some s' → (s.Follows s') → s'.Once ask t₀ := by
      intro s' heq hledger
      obtain rfl := some.inj heq
      exact h.answer hs hi hledger (fun _ _ _ _ => trivial) (fun _ _ h => by cases h) fun _ h => by cases h
    split at hstep
    case h_7 => cases hstep
    all_goals exact hfail hstep hledger
  case giveUp =>
    split_ifs at hstep
    obtain rfl := some.inj hstep
    exact h.giveUp hs hi hledger

end Steps

end Attempts

end Virtkit.Jobs.Service
