import Virtkit.Peer.TrialRuns

/-!
# Updates recorded as done

An update has the outcome done, on the disk or in the state a process holds, only if a save of a
process recorded it so: at the end of a trial whose release was installed, or for a release that the
process ran already when it was asked for it. A save that is lost records nothing, and the process
goes on with the state it had.
-/

namespace Virtkit.Peer

open Virtkit.Common Virtkit.Fleet Option Host

section Done

variable {hash : List UInt8 → String} {s s' : Host}

/-- Every update a state has as done is among those given. -/
def Ledger.Within (p : Ledger) (done : List String) : Prop :=
  ∀ c, p.outcomes.lookup c = some .done → c ∈ done

/-- The state a process holds, or goes back to. -/
def Stage.held : Stage → Option Ledger
  | .starting => none
  | .executing _ _ undo => undo
  | .handingOver _ _ p | .rollingBack _ p _ | .confirming _ p | .checking _ p _
  | .copying _ p _ _ | .ending _ p _ _ | .failing _ p _ => some p
  | .pruning _ _ p | .serving p => p

/-- Every update recorded as done, on the disk or in the process, was recorded so at some point. -/
structure Host.Noted (s : Host) : Prop where
  disk : s.disk.Within s.done
  held : ∀ file stage p, s.process = some ⟨file, stage⟩ → stage.held = some p → p.Within s.done

variable {p : Ledger} {done : List String}

theorem Ledger.Within.mono {done' : List String} (h : p.Within done)
    (hsub : ∀ c, c ∈ done → c ∈ done') : p.Within done' :=
  fun c hc => hsub c (h c hc)

theorem Ledger.Within.insert {p' : Ledger} (h : p.Within done) (command : String)
    (outcome : Outcome) (hp : p'.outcomes = p.outcomes.insert command outcome)
    (hdone : outcome = .done → command ∈ done) : p'.Within done := by
  intro c hc
  rw [hp, Table.lookup_insert_ite] at hc
  split_ifs at hc with heq
  · rw [heq]
    exact hdone (some.inj hc)
  · exact h c hc

variable {file : File} {stage : Stage}

theorem Host.Noted.goTo (h : s.disk.Within s.done)
    (hstage : ∀ p, stage.held = some p → p.Within s.done) : (s.goTo file stage).Noted := by
  refine ⟨h, fun file' stage' p hprocess hp => ?_⟩
  obtain ⟨rfl, rfl⟩ := Process.mk.inj (some.inj hprocess)
  exact hstage p hp

theorem Host.held_runInstalled {trial : Trial} (hp : (runInstalled hash s file trial).held = some p) : p = s.disk := by
  unfold runInstalled at hp
  split_ifs at hp
  · exact (some.inj hp).symm
  · split at hp
    · split_ifs at hp
      · nomatch hp
      · exact (some.inj hp).symm
    · exact (some.inj hp).symm

theorem Host.Noted.load (h : s.Noted) {now : ℕ} {readable opens : Bool} :
    (s.load hash file now readable opens).Noted := by
  have hdisk : ∀ p, some s.disk = some p → p.Within s.done := by
    intro p hp
    rw [← some.inj hp]
    exact h.disk
  unfold Host.load
  split_ifs
  · exact .goTo h.disk nofun
  · cases onStart hash s file now opens with
    | run | install t | handOver t release | rollBack t why => exact .goTo h.disk hdisk

variable {r : Saved}

theorem Host.disk_save (h : s.disk.Within done) (hp : r.reaches = true → p.Within done) :
    (s.save p r).disk.Within done := by
  unfold Host.save
  dsimp only
  split_ifs with hr
  · exact hp hr
  · exact h

theorem Ledger.Within.endInstall {t : Trial} {why : Option String} (h : p.Within done)
    (hwhy : why = none → t.command ∈ done) : (p.endInstall t why).Within done := by
  cases why with
  | none => exact h.insert t.command .done rfl fun _ => hwhy rfl
  | some message => exact h.insert t.command (.failed message) rfl nofun

/-- Saving notes only what is done. -/
theorem Host.Noted.saveNext (h : s.Noted) (hheld : ∀ p, stage.held = some p → p.Within s.done)
    (hstep : s.saveNext hash file r stage = some s') : s'.Noted := by
  cases stage with
  | handingOver t release p =>
    cases hstep
    exact .goTo (disk_save h.disk fun _ => hheld p rfl) nofun
  | rollingBack t p why =>
    cases hstep
    refine .goTo (disk_save h.disk fun _ => ?_) nofun
    exact (hheld p rfl).insert t.command _ rfl nofun
  | confirming t p =>
    cases hstep
    refine .goTo (disk_save h.disk fun _ => hheld p rfl) ?_
    intro p' hp'
    split_ifs at hp'
    all_goals
      cases hp'
      exact hheld p rfl
  | ending t p atStart why =>
    cases hstep
    generalize hdone : (if r.reaches && why.isNone then t.command :: s.done else s.done) = done
    have hsub : ∀ c, c ∈ s.done → c ∈ done := by
      intro c hc
      rw [← hdone]
      split_ifs
      · exact List.mem_cons_of_mem _ hc
      · exact hc
    have hp : p.Within done := (hheld p rfl).mono hsub
    have hend : r.reaches = true → (p.endInstall t why).Within done := by
      refine fun hr => hp.endInstall fun hwhy => ?_
      rw [← hdone, hr, hwhy]
      exact List.mem_cons_self
    have hdisk : (s.save (p.endInstall t why) r).disk.Within done := disk_save (h.disk.mono hsub) hend
    have hkept : (if r.ok then p.endInstall t why else p).Within done := by
      split_ifs with hok
      · exact hend (Saved.reaches_of_ok hok)
      · exact hp
    generalize (if r.ok then p.endInstall t why else p) = kept at hkept ⊢
    refine .goTo hdisk ?_
    intro p' hp'
    split_ifs at hp'
    · nomatch hp'
    · cases hp'
      exact hkept
    · rw [held_runInstalled hp']
      exact hdisk
    · cases hp'
      exact hdisk
    · cases hp'
      exact hkept
  | failing t p why =>
    cases hstep
    have hfailed : (p.failed t why).Within s.done := (hheld p rfl).insert t.command (.failed why) rfl nofun
    refine .goTo (disk_save h.disk fun _ => hfailed) ?_
    intro p' hp'
    split_ifs at hp'
    · cases hp'
      exact hheld p rfl
    · cases hp'
      exact hfailed
    · cases hp'
      exact hfailed
  | _ => nomatch hstep

theorem Host.Noted.exec (h : s.Noted) {ok : Bool}
    (hheld : ∀ p, stage.held = some p → p.Within s.done) (hstep : s.exec file ok stage = some s') : s'.Noted := by
  have hdisk : ∀ p, some s.disk = some p → p.Within s.done := by
    intro p hp
    rw [← some.inj hp]
    exact h.disk
  cases stage with
  | executing next trial undo =>
    unfold Host.exec at hstep
    cases ok with
    | true =>
      cases hstep
      refine ⟨h.disk, fun file' stage' p hprocess hp => ?_⟩
      obtain ⟨rfl, rfl⟩ := Process.mk.inj (some.inj hprocess)
      nomatch hp
    | false =>
      cases trial with
      | none =>
        cases hstep
        exact .goTo h.disk hdisk
      | some t =>
        cases undo with
        | none =>
          cases hstep
          exact .goTo h.disk hdisk
        | some p =>
          cases hstep
          exact .goTo h.disk hheld
  | _ => nomatch hstep

variable {action : Action}

theorem Host.Noted.install (h : s.Noted) (haction : (∃ readable hashable, action = .check readable hashable) ∨
      (∃ ok id, action = .rename ok id) ∨ ∃ removed, action = .prune removed)
    (hheld : ∀ p, stage.held = some p → p.Within s.done)
    (hstep : s.act hash file stage action = some s') : s'.Noted := by
  rcases haction with ⟨readable, hashable, rfl⟩ | ⟨ok, id, rfl⟩ | ⟨removed, rfl⟩
  · cases stage with
    | checking t p atStart =>
      simp only [Host.act, Host.check] at hstep
      split at hstep
      all_goals
        cases hstep
        exact .goTo h.disk hheld
    | _ => nomatch hstep
  · cases stage with
    | copying t p atStart seen =>
      simp only [Host.act, Host.rename] at hstep
      split at hstep
      · split_ifs at hstep
        all_goals
          cases hstep
          exact .goTo h.disk hheld
      · cases hstep
        exact .goTo h.disk hheld
    | _ => nomatch hstep
  · cases stage with
    | pruning keep run p =>
      cases hstep
      refine .goTo h.disk fun p' hp' => ?_
      cases run with
      | some t =>
        rw [held_runInstalled hp']
        exact h.disk
      | none =>
        cases hp'
        cases p with
        | none => exact h.disk
        | some p => exact hheld p rfl
    | _ => nomatch hstep

section

variable (h : s.Noted) (hheld : ∀ p, stage.held = some p → p.Within s.done)
include h hheld

theorem Host.Noted.confirm (hstep : s.confirm hash file stage = some s') : s'.Noted := by
  cases stage with
  | serving p =>
    cases p with
    | none =>
      cases hstep
      exact h
    | some p =>
      simp only [Host.confirm] at hstep
      split at hstep
      · split_ifs at hstep
        · cases hstep
          exact .goTo h.disk hheld
        · cases hstep
          exact .goTo h.disk hheld
        · cases hstep
          exact h
      · cases hstep
        exact h
  | _ => nomatch hstep

theorem Host.Noted.begin {command version sha256 : String} {download : File} {kept : ℕ × ℕ} {deadline : ℕ}
    (hstep : s.begin hash file command version sha256 download kept deadline r stage = some s') : s'.Noted := by
  obtain ⟨p, exe, release, releases, rfl, -, -, -, rfl⟩ := begin_cases hstep
  refine .goTo (disk_save h.disk fun _ => hheld p rfl) fun p' hp' => ?_
  split_ifs at hp'
  all_goals
    cases hp'
    exact hheld p rfl

theorem Host.Noted.answer {command sha256 : String}
    (hstep : s.answer hash file command sha256 r stage = some s') : s'.Noted := by
  obtain ⟨p, rfl, -, -, rfl⟩ := answer_cases hstep
  generalize hdone : (if r.reaches then command :: s.done else s.done) = done
  have hsub : ∀ c, c ∈ s.done → c ∈ done := by
    intro c hc
    rw [← hdone]
    split_ifs
    · exact List.mem_cons_of_mem _ hc
    · exact hc
  have hp : p.Within done := (hheld p rfl).mono hsub
  have hp' : r.reaches = true → ({ p with outcomes := p.outcomes.insert command .done } : Ledger).Within done := by
    intro hr
    refine hp.insert command .done rfl fun _ => ?_
    rw [← hdone, if_pos hr]
    exact List.mem_cons_self
  refine .goTo (disk_save (h.disk.mono hsub) hp') fun p₁ hp₁ => ?_
  cases hp₁
  split_ifs with hok
  · exact hp' (Saved.reaches_of_ok hok)
  · exact hp

theorem Host.Noted.act (hstep : s.act hash file stage action = some s') : s'.Noted := by
  cases action with
  | start release | replace exe => nomatch hstep
  | crash =>
    cases hstep
    exact ⟨h.disk, fun _ _ _ hprocess => absurd hprocess (some_ne_none _).symm⟩
  | load now readable opens =>
    cases stage with
    | starting =>
      cases hstep
      exact h.load
    | _ => nomatch hstep
  | save r => exact h.saveNext hheld hstep
  | exec ok => exact h.exec hheld hstep
  | check readable hashable => exact h.install (.inl ⟨readable, hashable, rfl⟩) hheld hstep
  | rename ok id => exact h.install (.inr (.inl ⟨ok, id, rfl⟩)) hheld hstep
  | prune removed => exact h.install (.inr (.inr ⟨removed, rfl⟩)) hheld hstep
  | confirm => exact h.confirm hheld hstep
  | begin command version sha256 download kept deadline r => exact h.begin hheld hstep
  | answer command sha256 r => exact h.answer hheld hstep

end

/-- Every step notes only what is done. -/
theorem Host.Noted.step (h : s.Noted) (hstep : s.step hash action = some s') : s'.Noted := by
  rcases step_cases hstep with ⟨exe, -, rfl⟩ | ⟨release, hstart⟩ | ⟨file, stage, hp, hact⟩
  · exact ⟨h.disk, h.held⟩
  · unfold Host.start at hstart
    split at hstart
    · obtain ⟨file, -, rfl⟩ := map_eq_some_iff.mp hstart
      exact .goTo h.disk nofun
    · obtain ⟨file, -, rfl⟩ := map_eq_some_iff.mp hstart
      refine ⟨h.disk, fun file' stage' p hprocess hp => ?_⟩
      obtain ⟨rfl, rfl⟩ := Process.mk.inj (some.inj hprocess)
      nomatch hp
    · nomatch hstart
  · exact h.act (fun p => h.held file stage p hp) hact

theorem noted_of_reachable (h : (trialSystem hash).Reachable s) : s.Noted := by
  refine h.invariant ?_ ?_
  · intro s hinit
    obtain ⟨hprocess, -, houtcomes, -⟩ := hinit
    refine ⟨fun c hc => ?_, fun file stage p hp => ?_⟩
    · rw [houtcomes] at hc
      nomatch hc
    · rw [hprocess] at hp
      nomatch hp
  · exact fun s action s' hs hstep => hs.step hstep

end Done

end Virtkit.Peer
