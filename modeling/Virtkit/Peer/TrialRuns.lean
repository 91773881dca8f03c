import Virtkit.Peer.TrialSteps

/-!
# Trials over a peer's life

Over every run of starts, hand-overs, sessions with the hub, crashes at any point and restarts, with
the installed binary replaced by others at any time, a self-update installs only a release whose trial
passed. The binary it replaces is the one the trial began with, by device and inode, as the peer last
looked at it; and the peer hands over to a release that has not passed a bounded number of times.
-/

namespace Virtkit.Peer

open Virtkit.Common Virtkit.Fleet Option List

section Runs

variable {hash : List UInt8 → String} {s s' : Host}

theorem Host.Recorded.use (h : s.Recorded) (command : String) (releases : Table String File) :
    ({ s with releases := releases, commands := command :: s.commands } : Host).Recorded :=
  ⟨fun t ht => mem_cons_of_mem _ (h.known t ht),
    fun c hc => mem_cons_of_mem _ (h.used c hc), h.passed, h.counted, h.bounded, h.live⟩

variable {file : File} {command version sha256 : String} {deadline : ℕ}

theorem Host.Recorded.begun (h : s.Recorded) {exe release : File} {p : Ledger} {own : String}
    {progress : Option UpdateProgress} {releases : Table String File} (hnone : p.trial = none)
    (hnew : command ∉ s.commands) (hdeadline : deadline < u64Max) (r : Saved) :
    let trial : Trial := ⟨command, version, sha256, exe.id, sha256, own, 1, deadline, false⟩
    let p' : Ledger := { p with trial := some trial, progress := progress }
    ((({ s with releases := releases, commands := command :: s.commands } : Host).save p' r).goTo
      file (if r.ok then .executing release (some trial) (some p')
        else .failing trial p "recording the trial")).Sound hash := by
  intro trial p'
  obtain ⟨hpassed, hback, hcount⟩ := h.unused hnew
  have hnp : trial.passed = false := by
    simp only [trial, Trial.passed, Bool.false_or, decide_eq_false_iff_not]
    omega
  have hzero : s.handed.count trial.command = 0 := hcount
  obtain ⟨hrec, -⟩ := (h.use command releases).save_trial (p := p') (t := trial) rfl hnp
    mem_cons_self hpassed (fun _ => ⟨hzero.trans_le (Nat.zero_le _), Nat.le_of_ble_eq_true rfl⟩)
    (fun _ => hback) r
  refine .goTo hrec ?_
  split_ifs with hok
  · rintro t ht
    cases ht
    refine ⟨fun _ => ⟨trial, ?_, rfl, hnp, ?_⟩, mem_cons_self, ?_⟩
    · have hreach := Saved.reaches_of_ok hok
      simp only [Host.save, hreach, if_true]
      rfl
    · exact hzero.trans_lt Nat.one_pos
    · rintro p₁ hp₁
      cases hp₁
      exact ⟨trial, rfl, rfl, hnp⟩
  · refine ⟨mem_cons_self, fun t' ht' => ?_⟩
    rw [hnone] at ht'
    cases ht'

variable {stage : Stage} {r : Saved}

/-- What beginning an update needs and does. -/
theorem Host.begin_cases {download : File} {kept : ℕ × ℕ}
    (hstep : s.begin hash file command version sha256 download kept deadline r stage = some s') :
    ∃ (p : Ledger) (exe release : File) (releases : Table String File),
      stage = .serving (some p) ∧ p.trial = none ∧ command ∉ s.commands ∧ deadline < u64Max ∧ let trial : Trial :=
        ⟨command, version, sha256, exe.id, sha256, hash file.content, 1, deadline, false⟩
      let p' : Ledger := { p with
        trial := some trial
        progress := some ⟨command, version, sha256, .validating, none⟩ }
      s' = (({ s with releases := releases, commands := command :: s.commands } : Host).save p'
        r).goTo file (if r.ok then .executing release (some trial) (some p')
          else .failing trial p "recording the trial") := by
  cases stage with
  | serving p =>
    cases p with
    | none => nomatch hstep
    | some p =>
      simp only [Host.begin, bind_eq_bind, bind_eq_some_iff] at hstep
      obtain ⟨exe, -, release, -, hstep⟩ := hstep
      by_cases hrefused : p.trial.isSome ∨ command ∈ s.commands ∨ hash file.content = sha256 ∨
          hash release.content ≠ sha256 ∨ u64Max ≤ deadline
      · rw [if_pos hrefused] at hstep
        nomatch hstep
      · rw [if_neg hrefused] at hstep
        simp only [not_or, Bool.not_eq_true, isSome_eq_false_iff, isNone_iff_eq_none, not_le] at hrefused
        obtain ⟨hnone, hnew, -, -, hdeadline⟩ := hrefused
        exact ⟨p, exe, release, _, rfl, hnone, hnew, hdeadline, (some.inj hstep).symm⟩
  | _ => nomatch hstep

theorem Host.Sound.begin (h : s.Recorded) {download : File} {kept : ℕ × ℕ}
    (hstep : s.begin hash file command version sha256 download kept deadline r stage = some s') : s'.Sound hash := by
  obtain ⟨p, exe, release, releases, -, hnone, hnew, hdeadline, rfl⟩ := Host.begin_cases hstep
  exact h.begun hnone hnew hdeadline r

theorem Host.answer_cases (hstep : s.answer hash file command sha256 r stage = some s') :
    ∃ p, stage = .serving (some p) ∧ p.trial = none ∧ hash file.content = sha256 ∧
      let p' : Ledger := { p with outcomes := p.outcomes.insert command .done }
      s' = ({ ({ s with commands := command :: s.commands } : Host).save p' r with
        done := if r.reaches then command :: s.done else s.done } : Host).goTo file
          (.serving (some (if r.ok then p' else p))) := by
  cases stage with
  | serving p =>
    cases p with
    | none => nomatch hstep
    | some p =>
      unfold Host.answer at hstep
      dsimp only at hstep
      by_cases hrefused : p.trial.isSome ∨ command ∈ s.commands ∨ hash file.content ≠ sha256
      · rw [if_pos hrefused] at hstep
        nomatch hstep
      · rw [if_neg hrefused] at hstep
        simp only [not_or, Bool.not_eq_true, isSome_eq_false_iff, isNone_iff_eq_none, not_not] at hrefused
        exact ⟨p, rfl, hrefused.1, hrefused.2.2, (some.inj hstep).symm⟩
  | _ => nomatch hstep

theorem Host.Sound.answer (h : s.Recorded)
    (hstep : s.answer hash file command sha256 r stage = some s') : s'.Sound hash := by
  obtain ⟨p, -, hnone, -, rfl⟩ := Host.answer_cases hstep
  obtain ⟨hrec, -⟩ := (h.use command s.releases).save_none
    (p := { p with outcomes := p.outcomes.insert command .done }) hnone r
  refine .goTo ⟨hrec.known, hrec.used, hrec.passed, hrec.counted, hrec.bounded, hrec.live⟩ ?_
  rintro p' hp'
  cases hp'
  refine Host.held_of_none ?_
  split_ifs <;> exact hnone

theorem Host.Sound.saveNext (h : s.Recorded) (hat : s.At hash stage) (r : Saved)
    (hstep : s.saveNext hash file r stage = some s') : s'.Sound hash := by
  cases stage with
  | handingOver t release p => exact .saveNext_handingOver h hat r hstep
  | rollingBack t p why => exact .saveNext_rollingBack h hat r hstep
  | confirming t p => exact .saveNext_confirming h hat r hstep
  | ending t p atStart why => exact .saveNext_ending h hat r hstep
  | failing t p why => exact .saveNext_failing h hat r hstep
  | _ => nomatch hstep

theorem Host.Sound.replace (h : s.Sound hash) (exe : Option File) :
    ({ s with exe := exe, touched := true } : Host).Sound hash := by
  have hr := h.recorded
  refine ⟨⟨hr.known, hr.used, hr.passed, hr.counted, hr.bounded, hr.live⟩, ?_⟩
  intro file stage hprocess
  have hat := h.stage file stage hprocess
  cases stage with
  | copying t p atStart seen => exact ⟨hat.1, hat.2.1, hat.2.2.1, nofun⟩
  | ending t p atStart why => exact ⟨hat.1, hat.2.1, nofun⟩
  | _ => exact hat

theorem Host.Sound.start (h : s.Sound hash) {release : Option String}
    (hstep : s.start release = some s') : s'.Sound hash := by
  unfold Host.start at hstep
  split at hstep
  · obtain ⟨file, -, rfl⟩ := map_eq_some_iff.mp hstep
    exact .goTo h.recorded trivial
  · obtain ⟨file, -, rfl⟩ := map_eq_some_iff.mp hstep
    have hr := h.recorded
    refine ⟨⟨hr.known, hr.used, hr.passed, hr.counted, hr.bounded, hr.live⟩, ?_⟩
    intro file' stage hprocess
    obtain ⟨rfl, rfl⟩ := Process.mk.inj (some.inj hprocess)
    trivial
  · nomatch hstep

theorem Host.Sound.crash (h : s.Sound hash) : ({ s with process := none } : Host).Sound hash :=
  have hr := h.recorded
  ⟨⟨hr.known, hr.used, hr.passed, hr.counted, hr.bounded, hr.live⟩,
    fun _ _ hprocess => absurd hprocess (some_ne_none _).symm⟩

variable {action : Action}

/-- Every action keeps a host sound. -/
theorem Host.Sound.act (h : s.Sound hash) (hat : s.At hash stage)
    (hstep : s.act hash file stage action = some s') : s'.Sound hash := by
  cases action with
  | start release | replace exe => nomatch hstep
  | crash =>
    cases hstep
    exact h.crash
  | load now readable opens => exact .loadNext h.recorded hstep
  | save r => exact .saveNext h.recorded hat r hstep
  | exec ok => exact .exec h.recorded hat ok hstep
  | check readable hashable => exact .check h.recorded hat readable hashable hstep
  | rename ok id => exact .rename h.recorded hat ok id hstep
  | prune removed => exact .prune h.recorded hat removed hstep
  | confirm => exact h.confirm hat hstep
  | begin command version sha256 download kept deadline r => exact .begin h.recorded hstep
  | answer command sha256 r => exact .answer h.recorded hstep

theorem Host.step_cases (hstep : s.step hash action = some s') :
    (∃ exe, action = .replace exe ∧ s' = { s with exe := exe, touched := true }) ∨
      (∃ release, s.start release = some s') ∨
      ∃ file stage, s.process = some ⟨file, stage⟩ ∧ s.act hash file stage action = some s' := by
  unfold Host.step at hstep
  split at hstep
  · next exe => exact .inl ⟨exe, rfl, (some.inj hstep).symm⟩
  · next release => exact .inr (.inl ⟨release, hstep⟩)
  · obtain ⟨⟨file, stage⟩, hprocess, hact⟩ := bind_eq_some_iff.mp hstep
    exact .inr (.inr ⟨file, stage, hprocess, hact⟩)

/-- Every step keeps a host sound. -/
theorem Host.Sound.step (h : s.Sound hash) (hstep : s.step hash action = some s') : s'.Sound hash := by
  rcases Host.step_cases hstep with ⟨exe, -, rfl⟩ | ⟨release, hstart⟩ | ⟨file, stage, hp, hact⟩
  · exact h.replace exe
  · exact h.start hstart
  · exact h.act (h.stage file stage hp) hact

theorem sound_of_reachable (h : (trialSystem hash).Reachable s) : s.Sound hash := by
  refine h.invariant ?_ ?_
  · rintro s ⟨hprocess, htrial, -, -, hpassed, hback, -, hhanded, -, -⟩
    have hnone : ∀ t, s.disk.trial ≠ some t := by
      intro t ht
      rw [htrial] at ht
      nomatch ht
    refine ⟨⟨fun t ht => absurd ht (hnone t), ?_, fun t ht => absurd ht (hnone t),
      fun _ t ht => absurd ht (hnone t), ?_, fun _ t ht => absurd ht (hnone t)⟩, ?_⟩
    · rw [hpassed, hback, hhanded]
      rintro c (hc | hc | hc) <;> exact absurd hc not_mem_nil
    · intro _ c
      rw [hhanded]
      exact Nat.zero_le _
    · intro file stage hp
      rw [hprocess] at hp
      nomatch hp
  · exact fun s action s' hs hstep => hs.step hstep

end Runs

end Virtkit.Peer
