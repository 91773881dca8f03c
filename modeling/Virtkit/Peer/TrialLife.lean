import Virtkit.Peer.TrialDone

/-!
# What a self-update comes to

The installed binary changes, but for others who replace it, only to the bytes of a release whose
trial was recorded as passed, and over the binary of the trial's device and inode that the peer saw
right before. An update is recorded as done with the release installed, or by a peer that was asked
for the release it runs. Hand-overs to a release on trial are bounded, and a trial that passed is not
rolled back.
-/

namespace Virtkit.Peer

open Virtkit.Common Virtkit.Fleet Option Host

section Life

variable {hash : List UInt8 → String} {s s' : Host}

/-- What an action of a process at a point changes of the installed binary and the records. -/
structure Host.Moves (hash : List UInt8 → String) (s : Host) (file : File) (stage : Stage)
    (action : Action) (s' : Host) : Prop where
  exe : s'.exe = s.exe ∨ ∃ t p atStart seen f, stage = .copying t p atStart seen ∧
    s'.exe = some f ∧ hash f.content = t.sha256
  done : s'.done = s.done ∨ (∃ t p atStart, stage = .ending t p atStart none ∧ s'.done = t.command :: s.done) ∨
    ∃ c sha256 r, action = .answer c sha256 r ∧ hash file.content = sha256 ∧ s'.done = c :: s.done
  handed : s'.handed = s.handed ∨ ∃ next t undo, stage = .executing next (some t) undo ∧
    s'.handed = t.command :: s.handed ∧ s'.saved = s.saved
  rolledBack : s'.rolledBack = s.rolledBack ∨ ∃ t p why, stage = .rollingBack t p why ∧
    s'.rolledBack = t.command :: s.rolledBack

variable {file : File} {stage : Stage} {action : Action}

theorem Host.Moves.same (hexe : s'.exe = s.exe) (hdone : s'.done = s.done)
    (hhanded : s'.handed = s.handed) (hback : s'.rolledBack = s.rolledBack) : s.Moves hash file stage action s' :=
  ⟨.inl hexe, .inl hdone, .inl hhanded, .inl hback⟩

theorem Host.moves_saveNext {r : Saved} (hstep : s.saveNext hash file r stage = some s') :
    s.Moves hash file stage (.save r) s' := by
  cases stage with
  | rollingBack t p why =>
    cases hstep
    refine ⟨.inl rfl, .inl rfl, .inl rfl, ?_⟩
    by_cases hr : r.reaches = true
    · exact .inr ⟨t, p, why, rfl, if_pos hr⟩
    · exact .inl (if_neg hr)
  | ending t p atStart why =>
    cases hstep
    refine ⟨.inl rfl, ?_, .inl rfl, .inl rfl⟩
    by_cases hdone : (r.reaches && why.isNone) = true
    · have hwhy : why = none := isNone_iff_eq_none.mp ((Bool.and_eq_true _ _).mp hdone).2
      subst hwhy
      exact .inr (.inl ⟨t, p, atStart, rfl, if_pos hdone⟩)
    · exact .inl (if_neg hdone)
  | handingOver t release p | confirming t p | failing t p why =>
    cases hstep
    exact .same rfl rfl rfl rfl
  | _ => nomatch hstep

theorem Host.moves_exec {ok : Bool} (hstep : s.exec file ok stage = some s') :
    s.Moves hash file stage (.exec ok) s' := by
  cases stage with
  | executing next trial undo =>
    cases ok with
    | true =>
      cases hstep
      cases trial with
      | none => exact .same rfl rfl rfl rfl
      | some t => exact ⟨.inl rfl, .inl rfl, .inr ⟨next, t, undo, rfl, rfl, rfl⟩, .inl rfl⟩
    | false =>
      simp only [Host.exec, Bool.false_eq_true, if_false] at hstep
      split at hstep
      all_goals
        cases hstep
        exact .same rfl rfl rfl rfl
  | _ => nomatch hstep

theorem Host.moves_rename {ok : Bool} {id : ℕ × ℕ} (hstep : s.rename hash file ok id stage = some s') :
    s.Moves hash file stage (.rename ok id) s' := by
  cases stage with
  | copying t p atStart seen =>
    simp only [Host.rename] at hstep
    split at hstep
    · split_ifs at hstep with hcopy
      · cases hstep
        rw [Bool.and_eq_true, decide_eq_true_eq] at hcopy
        exact ⟨.inr ⟨t, p, atStart, seen, _, rfl, rfl, hcopy.2⟩, .inl rfl, .inl rfl, .inl rfl⟩
      · cases hstep
        exact .same rfl rfl rfl rfl
    · cases hstep
      exact .same rfl rfl rfl rfl
  | _ => cases hstep

/-- What an action can change. -/
theorem Host.moves_act (hstep : s.act hash file stage action = some s') : s.Moves hash file stage action s' := by
  cases action with
  | start release | replace exe => cases hstep
  | crash =>
    cases hstep
    exact .same rfl rfl rfl rfl
  | load now readable opens =>
    cases stage with
    | starting =>
      cases hstep
      unfold Host.load
      split_ifs
      · exact .same rfl rfl rfl rfl
      · cases onStart hash s file now opens with
        | _ => exact .same rfl rfl rfl rfl
    | _ => cases hstep
  | save r => exact moves_saveNext hstep
  | exec ok => exact moves_exec hstep
  | check readable hashable =>
    cases stage with
    | checking t p atStart =>
      simp only [Host.act, Host.check] at hstep
      split at hstep
      all_goals
        cases hstep
        exact .same rfl rfl rfl rfl
    | _ => cases hstep
  | rename ok id => exact moves_rename hstep
  | prune removed =>
    cases stage with
    | pruning keep run p =>
      cases hstep
      exact .same rfl rfl rfl rfl
    | _ => cases hstep
  | confirm =>
    cases stage with
    | serving p =>
      simp only [Host.act] at hstep
      unfold Host.confirm at hstep
      cases p with
      | none =>
        cases hstep
        exact .same rfl rfl rfl rfl
      | some p =>
        dsimp only at hstep
        split at hstep
        · split_ifs at hstep
          all_goals
            cases hstep
            exact .same rfl rfl rfl rfl
        · cases hstep
          exact .same rfl rfl rfl rfl
    | _ => cases hstep
  | begin command version sha256 download kept deadline r =>
    obtain ⟨p, exe, release, releases, -, -, -, -, rfl⟩ := begin_cases hstep
    exact .same rfl rfl rfl rfl
  | answer command sha256 r =>
    obtain ⟨p, rfl, -, hown, rfl⟩ := answer_cases hstep
    refine ⟨.inl rfl, ?_, .inl rfl, .inl rfl⟩
    by_cases hr : r.reaches = true
    · exact .inr (.inr ⟨command, sha256, r, rfl, hown, if_pos hr⟩)
    · exact .inl (if_neg hr)

theorem Host.moves_step (hstep : s.step hash action = some s') :
    (∃ exe, action = .replace exe) ∧ s' = { s with exe := s'.exe, touched := true } ∨
      (s'.exe = s.exe ∧ s'.done = s.done ∧ s'.handed = s.handed ∧ s'.rolledBack = s.rolledBack) ∨
      ∃ file stage, s.process = some ⟨file, stage⟩ ∧ s.Moves hash file stage action s' := by
  rcases step_cases hstep with ⟨exe, heq, rfl⟩ | ⟨release, hstart⟩ | ⟨file, stage, hp, hact⟩
  · exact .inl ⟨⟨exe, heq⟩, rfl⟩
  · unfold Host.start at hstart
    split at hstart
    · obtain ⟨file, -, rfl⟩ := map_eq_some_iff.mp hstart
      exact .inr (.inl ⟨rfl, rfl, rfl, rfl⟩)
    · obtain ⟨file, -, rfl⟩ := map_eq_some_iff.mp hstart
      exact .inr (.inl ⟨rfl, rfl, rfl, rfl⟩)
    · nomatch hstart
  · exact .inr (.inr ⟨file, stage, hp, moves_act hact⟩)

section

variable (h : s.Sound hash) (hstep : s.step hash action = some s')
include h hstep

/-- The binary is replaced by hand, or by a release that passed its trial. -/
theorem Host.Sound.exe_step (hexe : s'.exe ≠ s.exe) : (∃ exe, action = .replace exe) ∨ ∃ file t p atStart seen f,
      s.process = some ⟨file, .copying t p atStart seen⟩ ∧ s'.exe = some f ∧
      hash f.content = t.sha256 ∧ t.command ∈ s.passed ∧ seen.id = t.exeId ∧
      (s.touched = false → s.exe = some seen) := by
  rcases moves_step hstep with ⟨hreplace, -⟩ | ⟨hsame, -⟩ | ⟨file, stage, hp, hmoves⟩
  · exact .inl hreplace
  · exact absurd hsame hexe
  · rcases hmoves.exe with hsame | ⟨t, p, atStart, seen, f, rfl, hf, hhash⟩
    · exact absurd hsame hexe
    · obtain ⟨hpassed, -, hid, hseen⟩ := h.stage file _ hp
      exact .inr ⟨file, t, p, atStart, seen, f, hp, hf, hhash, hpassed, hid, hseen⟩

/-- An update is done once its release is installed. -/
theorem Host.Sound.done_step (hdone : s'.done ≠ s.done) :
    (∃ file t p atStart, s.process = some ⟨file, .ending t p atStart none⟩ ∧ s'.done = t.command :: s.done ∧
      (s.touched = false → ∃ f, s.exe = some f ∧ hash f.content = t.sha256)) ∨
    ∃ file stage c sha256 r, s.process = some ⟨file, stage⟩ ∧ action = .answer c sha256 r ∧
      hash file.content = sha256 ∧ s'.done = c :: s.done := by
  rcases moves_step hstep with ⟨-, heq⟩ | ⟨-, hsame, -⟩ | ⟨file, stage, hp, hmoves⟩
  · rw [heq] at hdone
    exact absurd rfl hdone
  · exact absurd hsame hdone
  · rcases hmoves.done with hsame | ⟨t, p, atStart, rfl, hadd⟩ | ⟨c, sha256, r, ha, hown, hadd⟩
    · exact absurd hsame hdone
    · obtain ⟨-, -, hinstalled⟩ := h.stage file _ hp
      exact .inl ⟨file, t, p, atStart, hp, hadd, hinstalled rfl⟩
    · exact .inr ⟨file, stage, c, sha256, r, hp, ha, hown, hadd⟩

/-- A release that was rolled back is not started again. -/
theorem Host.Sound.handed_step (hsaved : s'.saved = true) {c : String} (hc : c ∈ s.rolledBack) :
    s'.handed.count c = s.handed.count c := by
  rcases moves_step hstep with ⟨-, heq⟩ | ⟨-, -, hsame, -⟩ | ⟨file, stage, hp, hmoves⟩
  · rw [heq]
  · rw [hsame]
  · rcases hmoves.handed with hsame | ⟨next, t, undo, rfl, hadd, hs⟩
    · rw [hsame]
    · rw [hs] at hsaved
      obtain ⟨hlive, -⟩ := h.stage file _ hp t rfl
      obtain ⟨t', ht', hcommand, -⟩ := hlive hsaved
      have hne : t.command ≠ c := by
        intro heq
        refine h.recorded.live hsaved t' ht' ?_
        rw [hcommand, heq]
        exact hc
      rw [hadd, List.count_cons_of_ne hne]

theorem Host.Sound.rolledBack_step {c : String} (hc : c ∈ s'.rolledBack) (hnew : c ∉ s.rolledBack) : c ∉ s.passed := by
  rcases moves_step hstep with ⟨-, heq⟩ | ⟨-, -, -, hsame⟩ | ⟨file, stage, hp, hmoves⟩
  · rw [heq] at hc
    exact absurd hc hnew
  · rw [hsame] at hc
    exact absurd hc hnew
  · rcases hmoves.rolledBack with hsame | ⟨t, p, why, rfl, hadd⟩
    · rw [hsame] at hc
      exact absurd hc hnew
    · rw [hadd] at hc
      rcases List.mem_cons.mp hc with rfl | hc
      · obtain ⟨-, ht, hnp⟩ := h.stage file _ hp
        exact h.recorded.notMem ht hnp
      · exact absurd hc hnew

end

end Life

section Examples

/-- The hash of the two files below. -/
def twoFiles (content : List UInt8) : String := if content = [2] then "next" else "previous"

/-- A host before its first update. -/
def freshHost : Host :=
  ⟨some ⟨(1, 1), [1]⟩, ∅, ⟨none, none, ∅⟩, none, [], [], [], [], [], [], true, false⟩

/-- A peer is started and begins an update, whose release it executes. -/
def onTrial : List Action :=
  [.start none, .load 0 true true, .begin "update" "2.0.0" "next" ⟨(1, 2), [2]⟩ (1, 3) 120 .done, .exec true]

end Examples

end Virtkit.Peer
