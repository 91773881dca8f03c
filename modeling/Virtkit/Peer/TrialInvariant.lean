import Virtkit.Peer.Trial

/-!
# What holds at every point of a trial

Whatever the peer is at, the state on the disk says of its trial that it passed exactly when that was
recorded, and counts its hand-overs while saves succeed. What a process is about to do rests on what
was recorded before: it installs only a trial that passed, takes the peer back only from one that did
not, and records an update as done only with the release installed.
-/

namespace Virtkit.Peer

open Virtkit.Common Virtkit.Fleet Option

structure Host.Recorded (s : Host) : Prop where
  known : ∀ t, s.disk.trial = some t → t.command ∈ s.commands
  used : ∀ c, c ∈ s.passed ∨ c ∈ s.rolledBack ∨ c ∈ s.handed → c ∈ s.commands
  passed : ∀ t, s.disk.trial = some t → (t.passed = true ↔ t.command ∈ s.passed)
  counted : s.saved = true → ∀ t, s.disk.trial = some t → t.passed = false →
    s.handed.count t.command ≤ t.attempts ∧ t.attempts ≤ maxAttempts
  bounded : s.saved = true → ∀ c, s.handed.count c ≤ maxAttempts
  live : s.saved = true → ∀ t, s.disk.trial = some t → t.command ∉ s.rolledBack

/-- What the state a process holds keeps to. -/
def Host.Held (s : Host) (p : Ledger) : Prop :=
  ∀ t, p.trial = some t → t.command ∈ s.commands ∧ (t.passed = true → t.command ∈ s.passed) ∧
    (s.saved = true → t.command ∉ s.rolledBack)

/-- What holds of a process at each point. -/
def Host.At (hash : List UInt8 → String) (s : Host) : Stage → Prop
  | .starting => True
  | .handingOver t _ p => p = s.disk ∧ s.disk.trial = some t ∧ t.passed = false ∧ t.attempts < maxAttempts
  | .executing _ trial undo => ∀ t, trial = some t →
      (s.saved = true → ∃ t', s.disk.trial = some t' ∧ t'.command = t.command ∧
        t'.passed = false ∧ s.handed.count t.command < t'.attempts) ∧
      t.command ∈ s.commands ∧
      ∀ p, undo = some p → ∃ t', p.trial = some t' ∧ t'.command = t.command ∧ t'.passed = false
  | .rollingBack t p _ => p = s.disk ∧ s.disk.trial = some t ∧ t.passed = false
  | .confirming t p => p.trial = some t ∧ s.Held p
  | .checking t p _ => t.command ∈ s.passed ∧ s.Held p
  | .copying t p _ seen => t.command ∈ s.passed ∧ s.Held p ∧ seen.id = t.exeId ∧
      (s.touched = false → s.exe = some seen)
  | .ending t p _ why => t.command ∈ s.passed ∧ s.Held p ∧
      (why = none → s.touched = false → ∃ f, s.exe = some f ∧ hash f.content = t.sha256)
  | .pruning _ _ p => ∀ p', p = some p' → s.Held p'
  | .failing t p _ => t.command ∈ s.commands ∧
      ∀ t', p.trial = some t' → t'.command = t.command ∧ t'.passed = false
  | .serving p => ∀ p', p = some p' → s.Held p'

/-- A host whose records and process are as they should be. -/
structure Host.Sound (hash : List UInt8 → String) (s : Host) : Prop where
  recorded : s.Recorded
  stage : ∀ file stage, s.process = some ⟨file, stage⟩ → s.At hash stage

section Records

variable {hash : List UInt8 → String} {s : Host}

theorem Saved.reaches_of_ok {r : Saved} (h : r.ok = true) : r.reaches = true := by
  cases r with
  | done => rfl
  | _ => nomatch h

theorem Host.Recorded.held (h : s.Recorded) : s.Held s.disk :=
  fun t ht => ⟨h.known t ht, (h.passed t ht).mp, fun hs => h.live hs t ht⟩

theorem Host.Sound.goTo {file : File} {stage : Stage} (h : s.Recorded) (hs : s.At hash stage) :
    (s.goTo file stage).Sound hash := by
  refine ⟨⟨h.known, h.used, h.passed, h.counted, h.bounded, h.live⟩, ?_⟩
  intro file' stage' hprocess
  obtain ⟨rfl, rfl⟩ := Process.mk.inj (some.inj hprocess)
  cases stage with
  | executing next trial undo | _ => exact hs

section

variable (h : s.Recorded)
include h

theorem Host.Recorded.notMem {t : Trial} (ht : s.disk.trial = some t) (hp : t.passed = false) :
    t.command ∉ s.passed := by
  intro hmem
  rw [(h.passed t ht).mpr hmem] at hp
  nomatch hp

theorem Host.Recorded.unused {c : String} (hc : c ∉ s.commands) :
    c ∉ s.passed ∧ c ∉ s.rolledBack ∧ s.handed.count c = 0 := by
  refine ⟨fun hm => hc (h.used c (.inl hm)), fun hm => hc (h.used c (.inr (.inl hm))), ?_⟩
  exact List.count_eq_zero.mpr fun hm => hc (h.used c (.inr (.inr hm)))

theorem Host.Recorded.save_none {p : Ledger} (hp : p.trial = none) (r : Saved) :
    (s.save p r).Recorded ∧ (s.save p r).passed = s.passed := by
  have hpassed : (s.save p r).passed = s.passed := by simp only [Host.save, hp]
  refine ⟨?_, hpassed⟩
  have hdisk : ∀ t, (s.save p r).disk.trial = some t → s.disk.trial = some t := by
    intro t ht
    simp only [Host.save] at ht
    split_ifs at ht with hr
    · rw [hp] at ht
      nomatch ht
    · exact ht
  have hsaved : (s.save p r).saved = true → s.saved = true := fun hs => ((Bool.and_eq_true _ _).mp hs).1
  refine ⟨fun t ht => h.known t (hdisk t ht), ?_, ?_, ?_, fun hs => h.bounded (hsaved hs), ?_⟩
  · rw [hpassed]
    exact h.used
  · intro t ht
    rw [hpassed]
    exact h.passed t (hdisk t ht)
  · exact fun hs t ht hnp => h.counted (hsaved hs) t (hdisk t ht) hnp
  · exact fun hs t ht => h.live (hsaved hs) t (hdisk t ht)

/-- A trial that is saved is counted. -/
theorem Host.Recorded.save_trial {p : Ledger} {t : Trial} (hp : p.trial = some t)
    (hnp : t.passed = false) (hknown : t.command ∈ s.commands) (hnew : t.command ∉ s.passed)
    (hcount : s.saved = true → s.handed.count t.command ≤ t.attempts ∧ t.attempts ≤ maxAttempts)
    (hlive : s.saved = true → t.command ∉ s.rolledBack) (r : Saved) :
    (s.save p r).Recorded ∧ (s.save p r).passed = s.passed := by
  have hpassed : (s.save p r).passed = s.passed := by
    simp only [Host.save, hp, hnp, Bool.and_false, Bool.false_eq_true, if_false]
  refine ⟨?_, hpassed⟩
  have hdisk : ∀ t', (s.save p r).disk.trial = some t' → t' = t ∨ s.disk.trial = some t' := by
    intro t' ht'
    simp only [Host.save] at ht'
    split_ifs at ht' with hr
    · rw [hp, some.injEq] at ht'
      exact .inl ht'.symm
    · exact .inr ht'
  have hsaved : (s.save p r).saved = true → s.saved = true := fun hs => ((Bool.and_eq_true _ _).mp hs).1
  constructor
  case known =>
    intro t' ht'
    rcases hdisk t' ht' with rfl | ht'
    · exact hknown
    · exact h.known t' ht'
  case used =>
    rw [hpassed]
    exact h.used
  case passed =>
    intro t' ht'
    rw [hpassed]
    rcases hdisk t' ht' with rfl | ht'
    · simp [hnp, hnew]
    · exact h.passed t' ht'
  case counted =>
    intro hs t' ht' hnp'
    rcases hdisk t' ht' with rfl | ht'
    · exact hcount (hsaved hs)
    · exact h.counted (hsaved hs) t' ht' hnp'
  case bounded => exact fun hs => h.bounded (hsaved hs)
  case live =>
    intro hs t' ht'
    rcases hdisk t' ht' with rfl | ht'
    · exact hlive (hsaved hs)
    · exact h.live (hsaved hs) t' ht'

/-- A trial that passed is saved as such. -/
theorem Host.Recorded.save_passed {p : Ledger} {t : Trial} (hp : p.trial = some t)
    (ht : t.passed = true) (hknown : t.command ∈ s.commands)
    (hlive : s.saved = true → t.command ∉ s.rolledBack) (r : Saved) :
    (s.save p r).Recorded ∧ ∀ c, c ∈ s.passed → c ∈ (s.save p r).passed := by
  cases hr : r.reaches with
  | false =>
    have heq : s.save p r = { s with saved := s.saved && r.ok } := by
      simp only [Host.save, hp, hr, Bool.false_and, Bool.false_eq_true, if_false]
    rw [heq]
    have hsaved : (s.saved && r.ok) = true → s.saved = true := fun hs => ((Bool.and_eq_true _ _).mp hs).1
    exact ⟨⟨h.known, h.used, h.passed, fun hs => h.counted (hsaved hs),
      fun hs => h.bounded (hsaved hs), fun hs => h.live (hsaved hs)⟩, fun _ hc => hc⟩
  | true =>
    have heq : s.save p r = { s with
        disk := p, passed := t.command :: s.passed, saved := s.saved && r.ok } := by
      simp only [Host.save, hp, hr, ht, Bool.and_self, if_true]
    rw [heq]
    have hsaved : (s.saved && r.ok) = true → s.saved = true := fun hs => ((Bool.and_eq_true _ _).mp hs).1
    refine ⟨?_, fun _ hc => List.mem_cons_of_mem _ hc⟩
    constructor
    case known =>
      intro t' ht'
      obtain rfl := some.inj (hp.symm.trans ht')
      exact hknown
    case used =>
      rintro c (hc | hc)
      · rcases List.mem_cons.mp hc with rfl | hc
        · exact hknown
        · exact h.used c (.inl hc)
      · exact h.used c (.inr hc)
    case passed =>
      intro t' ht'
      obtain rfl := some.inj (hp.symm.trans ht')
      simp [ht]
    case counted =>
      intro _ t' ht' hnp
      obtain rfl := some.inj (hp.symm.trans ht')
      rw [ht] at hnp
      nomatch hnp
    case bounded => exact fun hs => h.bounded (hsaved hs)
    case live =>
      intro hs t' ht'
      obtain rfl := some.inj (hp.symm.trans ht')
      exact hlive (hsaved hs)

end

end Records

end Virtkit.Peer
