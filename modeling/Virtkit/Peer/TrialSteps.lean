import Virtkit.Peer.TrialInvariant

/-!
# The steps of a trial

Each step of a process keeps the records as they should be and leads to a point where what the
process is about to do rests on them. Decisions at a start, saves, hand-overs, the install's check and
rename, and the confirmation each have their lemma.
-/

namespace Virtkit.Peer

open Virtkit.Common Virtkit.Fleet Option Bool List

section Steps

variable {hash : List UInt8 → String} {s : Host} {file : File}

variable {p : Ledger}

theorem Host.held_of_none (hp : p.trial = none) : s.Held p := by
  intro t ht
  rw [hp] at ht
  nomatch ht

theorem Host.Held.save {p' : Ledger} {r : Saved} (h : s.Held p)
    (hpassed : ∀ c, c ∈ s.passed → c ∈ (s.save p' r).passed) : (s.save p' r).Held p := by
  intro t ht
  obtain ⟨hknown, hp, hlive⟩ := h t ht
  refine ⟨hknown, fun htp => hpassed _ (hp htp), fun hs => hlive ?_⟩
  exact ((and_eq_true _ _).mp hs).1

theorem Host.at_runInstalled (h : s.Recorded) (trial : Trial) : s.At hash (runInstalled hash s file trial) := by
  have hserve : s.At hash (.serving (some s.disk)) := by
    rintro p hp
    cases hp
    exact h.held
  unfold runInstalled
  split_ifs
  · exact hserve
  · split
    · split_ifs
      · exact nofun
      · exact hserve
    · exact hserve

/-- A host that starts is at a stage that its ledger allows. -/
theorem Host.Sound.load (h : s.Recorded) (now : ℕ) (readable opens : Bool) :
    (s.load hash file now readable opens).Sound hash := by
  have hserve : s.At hash (.serving (some s.disk)) := by
    rintro p hp
    cases hp
    exact h.held
  unfold Host.load
  split_ifs with hread
  · exact .goTo h nofun
  · unfold onStart
    cases ht : s.disk.trial with
    | none => exact .goTo h hserve
    | some t =>
      dsimp only
      cases hp : t.passed with
      | true => exact .goTo h ⟨(h.passed t ht).mp hp, h.held⟩
      | false =>
        simp only [false_eq_true, if_false]
        split_ifs with hrunning hattempts hlate
        · exact .goTo h hserve
        · exact .goTo h ⟨rfl, ht, hp⟩
        · exact .goTo h ⟨rfl, ht, hp⟩
        · cases openRelease hash s.releases t opens with
          | ok release => exact .goTo h ⟨rfl, ht, hp, by omega⟩
          | error why => exact .goTo h ⟨rfl, ht, hp⟩

variable {stage : Stage} {readable : Bool} {s' : Host}

theorem Host.Sound.loadNext (h : s.Recorded) {now : ℕ} {opens : Bool}
    (hstep : s.loadNext hash file now readable opens stage = some s') : s'.Sound hash := by
  cases stage with
  | starting =>
    cases hstep
    exact .load h now readable opens
  | _ => nomatch hstep

variable {t : Trial}

section

variable (h : s.Recorded)
include h

/-- A release is started only once its attempt is counted. -/
theorem Host.Sound.saveNext_handingOver {release : File} (hat : s.At hash (.handingOver t release p))
    (r : Saved) (hstep : s.saveNext hash file r (.handingOver t release p) = some s') : s'.Sound hash := by
  cases hstep
  obtain ⟨rfl, ht, hnp, hlt⟩ := hat
  have hp : ({ s.disk with trial := s.disk.trial.map fun t => { t with attempts := t.attempts + 1 } } : Ledger).trial =
        some { t with attempts := t.attempts + 1 } := by rw [ht]; rfl
  have hknown := h.known t ht
  have hnot := h.notMem ht hnp
  obtain ⟨hrec, hpassed⟩ := h.save_trial hp hnp hknown hnot
    (fun hs => ⟨(h.counted hs t ht hnp).1.trans (Nat.le_succ _), hlt⟩)
    (fun hs => h.live hs t ht) r
  refine .goTo hrec ?_
  rintro t' heq
  cases heq
  refine ⟨fun hs => ?_, hknown, nofun⟩
  -- Every save succeeded, this one too, so that the attempt is on the disk.
  obtain ⟨hsaved, hok⟩ := (and_eq_true _ _).mp hs
  have hreach := Saved.reaches_of_ok hok
  refine ⟨{ t with attempts := t.attempts + 1 }, ?_, rfl, hnp, ?_⟩
  · simp only [Host.save, hreach, if_true]
    exact hp
  · exact Nat.lt_succ_of_le (h.counted hsaved t ht hnp).1

/-- A rollback is saved before the old binary is started. -/
theorem Host.Sound.saveNext_rollingBack {why : String} (hat : s.At hash (.rollingBack t p why))
    (r : Saved) (hstep : s.saveNext hash file r (.rollingBack t p why) = some s') : s'.Sound hash := by
  cases hstep
  obtain ⟨rfl, ht, hnp⟩ := hat
  obtain ⟨hrec, hpassed⟩ := h.save_none (p := s.disk.endTrial t .rolledBack
    (.failed ("rolled back: " ++ why)) (some why)) rfl r
  refine .goTo ⟨hrec.known, ?_, hrec.passed, hrec.counted, hrec.bounded, ?_⟩ (by rintro _ ⟨⟩)
  · rintro c (hc | hc | hc)
    · exact hrec.used c (.inl hc)
    · dsimp only at hc
      split_ifs at hc with hr
      · rcases mem_cons.mp hc with rfl | hc
        · exact h.known t ht
        · exact h.used c (.inr (.inl hc))
      · exact h.used c (.inr (.inl hc))
    · exact hrec.used c (.inr (.inr hc))
  · intro hs t' ht'
    dsimp only at ht' ⊢
    split_ifs with hr
    · simp only [Host.save, hr, if_true] at ht'
      cases ht'
    · exact hrec.live hs t' ht'

theorem Host.Sound.saveNext_confirming (hat : s.At hash (.confirming t p)) (r : Saved)
    (hstep : s.saveNext hash file r (.confirming t p) = some s') : s'.Sound hash := by
  cases hstep
  obtain ⟨ht, hheld⟩ := hat
  have hp : ({ p with trial := p.trial.map Trial.markPassed } : Ledger).trial = some t.markPassed := by rw [ht]; rfl
  obtain ⟨hknown, -, hlive⟩ := hheld t ht
  obtain ⟨hrec, hpassed⟩ := h.save_passed hp rfl hknown hlive r
  refine .goTo hrec ?_
  split_ifs with hok
  · have hreach := Saved.reaches_of_ok hok
    have hmem : t.command ∈ (s.save { p with trial := p.trial.map Trial.markPassed } r).passed := by
      have hmark : t.markPassed.passed = true := rfl
      unfold Host.save
      simp only [ht, map_some, hreach, hmark, Bool.and_self, if_true]
      exact mem_cons_self
    refine ⟨hmem, fun t' ht' => ?_⟩
    obtain rfl := some.inj (hp.symm.trans ht')
    exact ⟨hknown, fun _ => hmem, fun hs => hlive ((Bool.and_eq_true _ _).mp hs).1⟩
  · rintro p' hp'
    cases hp'
    exact hheld.save hpassed

theorem Host.Sound.saveNext_ending {atStart : Bool} {why : Option String}
    (hat : s.At hash (.ending t p atStart why)) (r : Saved)
    (hstep : s.saveNext hash file r (.ending t p atStart why) = some s') : s'.Sound hash := by
  cases hstep
  obtain ⟨-, hheld, -⟩ := hat
  have hnone : (p.endInstall t why).trial = none := by cases why <;> rfl
  obtain ⟨hrec, hpassed⟩ := h.save_none hnone r
  have hheld' : (s.save (p.endInstall t why) r).Held (if r.ok then p.endInstall t why else p) := by
    split_ifs with hok
    · exact Host.held_of_none hnone
    · exact hheld.save fun c hc => by rw [hpassed]; exact hc
  generalize hs : ({ s.save (p.endInstall t why) r with
    done := if r.reaches && why.isNone then t.command :: s.done else s.done } : Host) = s₁
  have hrec₁ : s₁.Recorded := by
    rw [← hs]
    exact ⟨hrec.known, hrec.used, hrec.passed, hrec.counted, hrec.bounded, hrec.live⟩
  have hheld₁ : s₁.Held (if r.ok then p.endInstall t why else p) := by
    rw [← hs]
    exact hheld'
  refine .goTo hrec₁ ?_
  by_cases hdone : (why.isNone && r.ok) = true
  · rw [if_pos hdone]
    rintro p' hp'
    cases atStart with
    | true => nomatch hp'
    | false =>
      cases hp'
      exact hheld₁
  · rw [if_neg hdone]
    cases atStart with
    | true =>
      simp only [if_true]
      split_ifs with hwhy
      · exact Host.at_runInstalled hrec₁ t
      · rintro p' hp'
        cases hp'
        exact hrec₁.held
    | false =>
      rintro p' hp'
      cases hp'
      exact hheld₁

theorem Host.Sound.saveNext_failing {why : String} (hat : s.At hash (.failing t p why)) (r : Saved)
    (hstep : s.saveNext hash file r (.failing t p why) = some s') : s'.Sound hash := by
  cases hstep
  obtain ⟨hknown, hown⟩ := hat
  have hnone : (p.failed t why).trial = none := by
    simp only [Ledger.failed, filter_eq_none_iff]
    intro t' ht'
    simp [(hown t' ht').1]
  obtain ⟨hrec, hpassed⟩ := h.save_none hnone r
  refine .goTo hrec ?_
  split_ifs with hok hundo
  · rintro p' hp' t' ht'
    cases hp'
    obtain ⟨hcommand, hnp⟩ := hown t' ht'
    refine ⟨by rw [hcommand]; exact hknown, fun hp => ?_, fun hs => ?_⟩
    · rw [hnp] at hp
      nomatch hp
    · rw [((and_eq_true _ _).mp hs).2] at hok
      nomatch hok
  · rintro p' hp'
    cases hp'
    exact Host.held_of_none hnone
  · rintro p' hp'
    cases hp'
    exact Host.held_of_none hnone

/-- Starting another binary keeps a host sound. -/
theorem Host.Sound.exec (hat : s.At hash stage) (ok : Bool) (hstep : s.exec file ok stage = some s') :
    s'.Sound hash := by
  cases stage with
  | executing next trial undo =>
    unfold Host.exec at hstep
    cases ok with
    | true =>
      cases hstep
      refine ⟨?_, ?_⟩
      · cases trial with
        | none => exact ⟨h.known, h.used, h.passed, h.counted, h.bounded, h.live⟩
        | some t =>
          obtain ⟨hcount, hknown, -⟩ := hat t rfl
          refine ⟨h.known, ?_, h.passed, ?_, ?_, h.live⟩
          · rintro c (hc | hc | hc)
            · exact h.used c (.inl hc)
            · exact h.used c (.inr (.inl hc))
            · rcases mem_cons.mp hc with rfl | hc
              · exact hknown
              · exact h.used c (.inr (.inr hc))
          · intro hs t₁ ht₁ hnp₁
            obtain ⟨t', ht', hcommand, hnp, hlt⟩ := hcount hs
            obtain rfl := some.inj (ht'.symm.trans ht₁)
            refine ⟨?_, (h.counted hs t' ht' hnp).2⟩
            change (t.command :: s.handed).count t'.command ≤ t'.attempts
            rw [hcommand, count_cons_self]
            exact hlt
          · intro hs c
            obtain ⟨t', ht', hcommand, hnp, hlt⟩ := hcount hs
            have hmax := (h.counted hs t' ht' hnp).2
            have hc := h.bounded hs c
            change (t.command :: s.handed).count c ≤ maxAttempts
            by_cases heq : c = t.command
            · subst heq
              rw [count_cons_self]
              omega
            · rw [count_cons_of_ne (Ne.symm heq)]
              exact hc
      · intro file' stage' hprocess
        obtain ⟨rfl, rfl⟩ := Process.mk.inj (some.inj hprocess)
        trivial
    | false =>
      have hserve : s.At hash (.serving (some s.disk)) := by
        rintro p hp
        cases hp
        exact h.held
      cases trial with
      | none =>
        cases hstep
        exact .goTo h hserve
      | some t =>
        obtain ⟨-, hknown, hundo⟩ := hat t rfl
        cases undo with
        | none =>
          cases hstep
          exact .goTo h hserve
        | some p =>
          cases hstep
          refine .goTo h ⟨hknown, fun t' ht' => ?_⟩
          obtain ⟨t₁, ht₁, hcommand, hnp⟩ := hundo p rfl
          obtain rfl := some.inj (ht₁.symm.trans ht')
          exact ⟨hcommand, hnp⟩
  | _ => nomatch hstep

end

theorem checkInstall_ok {exe : Option File} {hashable : Bool} {seen : File}
    (h : checkInstall hash exe t readable hashable = .ok seen) : exe = some seen ∧ seen.id = t.exeId := by
  unfold checkInstall at h
  cases exe with
  | none => nomatch h
  | some f =>
    dsimp only at h
    split_ifs at h with hread hhash hid
    obtain rfl := Except.ok.inj h
    exact ⟨rfl, (not_not.mp hid).symm⟩

/-- The binary is the release already. -/
theorem checkInstall_none {exe : Option File} {hashable : Bool}
    (h : checkInstall hash exe t readable hashable = .error none) : ∃ f, exe = some f ∧ hash f.content = t.sha256 := by
  unfold checkInstall at h
  cases exe with
  | none => nomatch h
  | some f =>
    by_cases hhash : (hashable && hash f.content = t.sha256) = true
    · rw [and_eq_true, decide_eq_true_eq] at hhash
      exact ⟨f, rfl, hhash.2⟩
    · dsimp only at h
      rw [if_neg hhash] at h
      split_ifs at h <;> nomatch h

section

variable (h : s.Recorded) (hat : s.At hash stage)
include h hat

theorem Host.Sound.check (readable hashable : Bool)
    (hstep : s.check hash file readable hashable stage = some s') : s'.Sound hash := by
  cases stage with
  | checking t p atStart =>
    obtain ⟨hpassed, hheld⟩ := hat
    have h' : ({ s with touched := false } : Host).Recorded := ⟨h.known, h.used, h.passed, h.counted, h.bounded, h.live⟩
    unfold Host.check at hstep
    dsimp only at hstep
    cases hc : checkInstall hash s.exe t readable hashable with
    | ok seen =>
      rw [hc] at hstep
      cases hstep
      obtain ⟨hexe, hid⟩ := checkInstall_ok hc
      exact .goTo h' ⟨hpassed, hheld, hid, fun _ => hexe⟩
    | error why =>
      rw [hc] at hstep
      cases hstep
      refine .goTo h' ⟨hpassed, hheld, ?_⟩
      rintro rfl -
      exact checkInstall_none hc
  | _ => nomatch hstep

theorem Host.Sound.rename (ok : Bool) (id : ℕ × ℕ) (hstep : s.rename hash file ok id stage = some s') :
    s'.Sound hash := by
  cases stage with
  | copying t p atStart seen =>
    obtain ⟨hpassed, hheld, -⟩ := hat
    unfold Host.rename at hstep
    cases hnext : s.releases.lookup t.next with
    | none =>
      simp only [hnext] at hstep
      cases hstep
      exact .goTo h ⟨hpassed, hheld, nofun⟩
    | some release =>
      simp only [hnext] at hstep
      split_ifs at hstep with hcopy
      · cases hstep
        rw [and_eq_true, decide_eq_true_eq] at hcopy
        have h' : ({ s with exe := some ⟨id, release.content⟩ } : Host).Recorded :=
          ⟨h.known, h.used, h.passed, h.counted, h.bounded, h.live⟩
        exact .goTo h' ⟨hpassed, hheld, fun _ _ => ⟨_, rfl, hcopy.2⟩⟩
      · cases hstep
        exact .goTo h ⟨hpassed, hheld, nofun⟩
  | _ => nomatch hstep

theorem Host.Sound.prune (removed : String → Bool) (hstep : s.prune hash file removed stage = some s') :
    s'.Sound hash := by
  cases stage with
  | pruning keep run p =>
    cases hstep
    have h' : ({ s with releases := s.releases.retain fun name _ => name ∈ keep || !removed name } : Host).Recorded :=
      ⟨h.known, h.used, h.passed, h.counted, h.bounded, h.live⟩
    cases run with
    | some t => exact .goTo h' (Host.at_runInstalled h' t)
    | none =>
      refine .goTo h' ?_
      rintro p' hp'
      cases hp'
      cases p with
      | none => exact h'.held
      | some p => exact hat p rfl
  | _ => nomatch hstep

end

theorem Host.Sound.confirm (h : s.Sound hash) (hat : s.At hash stage)
    (hstep : s.confirm hash file stage = some s') : s'.Sound hash := by
  cases stage with
  | serving p =>
    cases p with
    | none =>
      cases hstep
      exact h
    | some p =>
      have hheld : s.Held p := hat p rfl
      unfold Host.confirm at hstep
      cases ht : p.trial with
      | none =>
        simp only [ht] at hstep
        cases hstep
        exact h
      | some t =>
        simp only [ht] at hstep
        split_ifs at hstep with hruns hpassed
        · cases hstep
          exact .goTo h.recorded ⟨(hheld t ht).2.1 hpassed, hheld⟩
        · cases hstep
          exact .goTo h.recorded ⟨ht, hheld⟩
        · cases hstep
          exact h
  | _ => nomatch hstep

end Steps

end Virtkit.Peer
