import Virtkit.Nv.CommandSteps

/-!
# Power cycles

What the permanent state holds bounds every level the TPM had when it was stored: a start takes an
orderly counter that may have counted on to the end of its block, and any other one as it is. After
TPM2_Startup the levels are just these bounds.
-/

namespace Virtkit.Nv

open Virtkit.Common Option Cell

section

/-- The level a handle will have after a start from what is kept. -/
def Permanent.floor (p : Permanent) (i : ℕ) : ℕ :=
  match p.nv.lookup i with
  | some e =>
    if e.pub.attributes.kind = some .counter && e.pub.attributes.written then
      if e.pub.attributes.orderly && !p.shutdown.isOrderly then dataU64 e.data / 256 * 256 + 255
      else dataU64 e.data
    else p.nvMaxCounter
  | none => p.nvMaxCounter

/-- Every counter kept has its eight bytes. -/
def Permanent.Sized (p : Permanent) : Prop :=
  ∀ i e, p.nv.lookup i = some e → e.pub.attributes.kind = some .counter → e.data.length = 8

namespace Tpm

variable {t t' : Tpm} {i : ℕ}

theorem Sound.sized (h : t.Sound) : t.permanent.value.Sized := by
  intro i e he
  have hsound := h i
  have he : t.nvEntry i = some e := he
  unfold cell at hsound
  rw [he] at hsound
  exact hsound.1

/-- After a loss of power a counter starts no lower than it was. -/
theorem Sound.level_le_floor (h : t.Sound) (i : ℕ) : t.level i ≤ t.permanent.value.floor i := by
  have hsound := h i
  unfold Tpm.level Permanent.floor Cell.level Cell.live
  unfold cell nvEntry orderly at *
  cases he : t.permanent.value.nv.lookup i with
  | none => exact le_refl _
  | some e =>
    rw [he] at hsound
    have hram := hsound.2
    dsimp only [bind_some]
    split_ifs at hram with horderly
    · obtain ⟨r, hr, hok⟩ := hram
      rw [if_pos horderly, horderly, hr, map_some, levelOf, hok.kind]
      by_cases hkind : e.pub.attributes.kind = some .counter
      · rw [hok.written hkind, hkind]
        cases hwritten : e.pub.attributes.written with
        | false => simp
        | true =>
          obtain ⟨-, hend, hsame⟩ := hok.value hkind hwritten
          cases hshutdown : t.permanent.value.shutdown.isOrderly with
          | true => simpa using (hsame hshutdown).le
          | false => simpa using hend
      · simp [hkind]
    · rw [if_neg horderly, levelOf]
      simp [horderly]

theorem startupAttributes_frame (kind : Startup) (a : Attributes) :
    (startupAttributes kind a).kind = a.kind ∧ (startupAttributes kind a).orderly = a.orderly ∧
      (a.kind = some .counter → (startupAttributes kind a).written = a.written) := by
  refine ⟨?_, ?_, fun hcounter => ?_⟩
  · unfold startupAttributes
    dsimp only
    split_ifs <;> rfl
  · unfold startupAttributes
    dsimp only
    split_ifs <;> rfl
  · unfold startupAttributes
    simp only [hcounter]
    split_ifs <;> simp_all

/-- An index of the permanent state as a start leaves it. -/
def startupEntry (kind : Startup) (e : NvIndex) : NvIndex :=
  if kind = .resume || e.pub.attributes.orderly then e
  else { e with pub := { e.pub with attributes := startupAttributes kind e.pub.attributes } }

/-- An orderly index's copy as a start leaves it. -/
def startedRam (kind : Startup) (orderly : Bool) (e : NvIndex) : OrderlyRam :=
  if kind = .resume then ⟨e.pub.attributes, e.data⟩
  else startupRam kind orderly ⟨e.pub.attributes, e.data⟩

def startupCell (kind : Startup) (orderly : Bool) (e : NvIndex) : Cell :=
  ⟨some (startupEntry kind e), if e.pub.attributes.orderly then some (startedRam kind orderly e) else none⟩

theorem nvStartup_cell (t : Tpm) (kind : Startup) (orderly : Bool) (i : ℕ) : (t.nvStartup kind orderly).cell i =
      (t.nvEntry i).elim ⟨none, none⟩ (startupCell kind orderly) := by
  have himages := lookup_orderlyImages t.permanent.value.nv i
  unfold nvStartup cell nvEntry
  by_cases hresume : kind = .resume
  · rw [if_pos hresume]
    rw [himages]
    cases t.permanent.value.nv.lookup i with
    | none => rfl
    | some e =>
      cases horderly : e.pub.attributes.orderly <;>
        simp [startupCell, startupEntry, startedRam, hresume, horderly, Option.filter]
  · have hentry := Table.lookup_mapValues (fun _ e => if e.pub.attributes.orderly then e
        else { e with pub := { e.pub with attributes := startupAttributes kind e.pub.attributes } })
      t.permanent.value.nv i
    have hram := Table.lookup_mapValues (fun _ r => startupRam kind orderly r) (orderlyImages t.permanent.value.nv) i
    rw [if_neg hresume]
    simp only [Tracked.modify]
    rw [hentry, hram, himages]
    cases t.permanent.value.nv.lookup i with
    | none => rfl
    | some e =>
      cases horderly : e.pub.attributes.orderly <;>
        simp [startupCell, startupEntry, startedRam, hresume, horderly, Option.filter]

structure StartedAs (t t' : Tpm) (kind : Startup) : Prop where
  resume : kind = .resume → t.orderly = true
  orderly : t'.orderly = false
  started : t'.volatile.started = true
  changed : t'.permanent.changed = true
  nvMaxCounter : t'.permanent.value.nvMaxCounter = t.permanent.value.nvMaxCounter
  cell : ∀ i, t'.cell i = (t.nvEntry i).elim ⟨none, none⟩ (startupCell kind t.orderly)

variable {kind : Startup} {orderly : Bool}

theorem startedAs (horderly : t.orderly = orderly) (hresume : kind = .resume → orderly = true) (clear : ClearState) :
    StartedAs t (let t₁ : Tpm := { t with volatile := { t.volatile with clear := clear, pcrReconfig := false } }
        let t₂ := t₁.nvStartup kind orderly
        ⟨t₂.permanent.modify fun p => { p with shutdown := .none },
          { t₂.volatile with daUsed := false, started := true }⟩) kind := by
  subst horderly
  refine ⟨hresume, rfl, rfl, rfl, ?_, fun i => ?_⟩
  · unfold nvStartup
    split_ifs <;> rfl
  · exact nvStartup_cell { t with volatile := { t.volatile with clear := clear, pcrReconfig := false } }
      kind t.orderly i

/-- What a startup makes of the state. -/
theorem startup_eq {state : Bool} (hok : t.startup state = .ok t') : ∃ kind, StartedAs t t' kind := by
  have horderly : t.orderly = t.permanent.value.shutdown.isOrderly := rfl
  unfold startup at hok
  cases hprevious : t.permanent.value.shutdown with
  | state saved =>
    rw [hprevious] at horderly
    cases state with
    | true =>
      simp only [hprevious] at hok
      exact ⟨.resume, Except.ok.inj hok ▸ startedAs horderly (fun _ => rfl) saved⟩
    | false =>
      simp only [hprevious] at hok
      exact ⟨.restart, Except.ok.inj hok ▸ startedAs horderly (by nofun) ⟨true, true⟩⟩
  | none | daUsed | clear =>
    rw [hprevious] at horderly
    cases state with
    | true =>
      simp only [hprevious] at hok
      nomatch hok
    | false =>
      simp only [hprevious] at hok
      exact ⟨.reset, Except.ok.inj hok ▸ startedAs horderly (by nofun) ⟨true, true⟩⟩

section

variable (hresume : kind = .resume → orderly = true)
include hresume

theorem startedRam_frame {e : NvIndex} (hsize : e.pub.attributes.kind = some .counter → e.data.length = 8) :
    (startedRam kind orderly e).attributes.kind = e.pub.attributes.kind ∧
    (startedRam kind orderly e).attributes.orderly = e.pub.attributes.orderly ∧ (e.pub.attributes.kind = some .counter →
      (startedRam kind orderly e).attributes.written = e.pub.attributes.written ∧
      (startedRam kind orderly e).data.length = 8 ∧ dataU64 (startedRam kind orderly e).data =
        if orderly then dataU64 e.data else dataU64 e.data / 256 * 256 + 255) := by
  obtain ⟨hkind, hattr, hwritten⟩ := startupAttributes_frame kind e.pub.attributes
  unfold startedRam startupRam
  by_cases hkept : kind = .resume
  · rw [if_pos hkept, hresume hkept]
    exact ⟨rfl, rfl, fun hcounter => ⟨rfl, hsize hcounter, rfl⟩⟩
  · rw [if_neg hkept]
    dsimp only
    rw [hkind]
    by_cases hskips : (e.pub.attributes.kind = some .counter && !orderly && 8 ≤ e.data.length) = true
    · rw [if_pos hskips]
      simp only [Bool.and_eq_true, decide_eq_true_eq, Bool.not_eq_true'] at hskips
      obtain ⟨⟨hcounter, rfl⟩, -⟩ := hskips
      have hall : e.data.drop 8 = [] := List.drop_of_length_le (hsize hcounter).le
      have hend : dataU64 e.data / 256 * 256 + 255 ≤ u64Max := by
        have hle := dataU64_le e.data
        unfold u64Max at hle ⊢
        omega
      rw [hall, List.append_nil, or_maxOrderlyCount]
      refine ⟨hkind, hattr, fun hcounter => ⟨hwritten hcounter, length_beBytes 8 _, ?_⟩⟩
      exact dataU64_beBytes hend
    · rw [if_neg hskips]
      refine ⟨hkind, hattr, fun hcounter => ⟨hwritten hcounter, hsize hcounter, ?_⟩⟩
      rw [hcounter, hsize hcounter] at hskips
      cases orderly with
      | true => rfl
      | false => exact absurd rfl hskips

theorem startupCell_sound {e : NvIndex} (hsize : e.pub.attributes.kind = some .counter → e.data.length = 8) :
    (startupCell kind orderly e).Sound false := by
  unfold startupCell startupEntry
  cases horderly : e.pub.attributes.orderly with
  | false =>
    obtain ⟨hkind, hattr, -⟩ := startupAttributes_frame kind e.pub.attributes
    rw [Bool.or_false, if_neg Bool.false_ne_true]
    split_ifs
    · exact sound_plain horderly hsize
    · exact sound_plain (hattr.trans horderly) fun hc => hsize (hkind.symm.trans hc)
  | true =>
    obtain ⟨hkind, hattr, hcounter⟩ := startedRam_frame hresume hsize
    rw [Bool.or_true, if_pos rfl, if_pos rfl]
    refine ⟨hsize, ?_⟩
    rw [if_pos horderly]
    refine ⟨_, rfl, hattr.trans horderly, hkind, fun hc => (hcounter hc).2.1, fun hc => (hcounter hc).1,
      fun hc hw => ?_⟩
    rw [(hcounter hc).2.2]
    refine ⟨?_, ?_, nofun⟩
    · split_ifs <;> omega
    · split_ifs <;> omega

theorem startupCell_level {e : NvIndex} (hsize : e.pub.attributes.kind = some .counter → e.data.length = 8) (max : ℕ) :
    (startupCell kind orderly e).level max = if e.pub.attributes.kind = some .counter && e.pub.attributes.written then
        if e.pub.attributes.orderly && !orderly then dataU64 e.data / 256 * 256 + 255 else dataU64 e.data else max := by
  unfold startupCell startupEntry Cell.level Cell.live
  cases horderly : e.pub.attributes.orderly with
  | false =>
    obtain ⟨hkind, hattr, hwritten⟩ := startupAttributes_frame kind e.pub.attributes
    have hmarked : (startupAttributes kind e.pub.attributes).orderly = false := hattr.trans horderly
    by_cases hkept : kind = .resume
    · simp [hkept, horderly, levelOf]
    · by_cases hc : e.pub.attributes.kind = some .counter
      · simp [hkept, hmarked, levelOf, hkind, hc, hwritten hc]
      · simp [hkept, hmarked, levelOf, hkind, hc]
  | true =>
    obtain ⟨hkind, hattr, hcounter⟩ := startedRam_frame hresume hsize
    simp only [Bool.or_true, if_true, bind_some, map_some, horderly, levelOf, hkind]
    by_cases hc : e.pub.attributes.kind = some .counter
    · rw [(hcounter hc).1, (hcounter hc).2.2]
      cases orderly <;> simp
    · simp [hc]

end

/-- After a startup each counter is at its floor. -/
theorem StartedAs.sound (h : StartedAs t t' kind) (hsized : t.permanent.value.Sized) :
    t'.Sound ∧ ∀ i, t'.level i = t.permanent.value.floor i := by
  refine ⟨fun i => ?_, fun i => ?_⟩
  · rw [h.cell, h.orderly]
    cases he : t.nvEntry i with
    | none => rfl
    | some e => exact startupCell_sound h.resume (hsized i e he)
  · unfold Tpm.level Permanent.floor
    rw [h.cell, h.nvMaxCounter]
    cases he : t.permanent.value.nv.lookup i with
    | none =>
      have he : t.nvEntry i = none := he
      rw [he]
      rfl
    | some e =>
      have he : t.nvEntry i = some e := he
      rw [he]
      exact startupCell_level h.resume (hsized i e he) _

end Tpm

end

/-!
## Counters never go back

In a run every value of a counter seen at a handle is at most the handle's level while the TPM is
started, and at most what a start would find of it while it is not. So a value read is no less than those
before it, and one that an increment makes is greater, whatever was deleted, defined, cleared or lost
with power in between.
-/

namespace Machine

variable {digest : Hash → Bytes → Bytes} {m m' : Machine}

/-- No value seen at a handle is above a level. -/
def SeenBelow (history : List (ℕ × Seen)) (level : ℕ → ℕ) : Prop :=
  ∀ h ∈ history, h.2.value ≤ level h.1

/-- Values seen at a handle never go back, and an increment's is greater than those before it. -/
def NeverBack (history : List (ℕ × Seen)) : Prop :=
  history.Pairwise fun later earlier => earlier.1 = later.1 →
    earlier.2.value ≤ later.2.value ∧ ∀ v, later.2 = .incremented v → earlier.2.value < v

/-- A machine in a run: its TPM was started, or waits to be. -/
structure Sound (m : Machine) : Prop where
  neverBack : NeverBack m.history
  sized : m.kept.Sized
  started : m.tpm.volatile.started = true → m.tpm.Sound ∧ m.kept = m.tpm.permanent.value ∧
    m.tpm.permanent.changed = false ∧ SeenBelow m.history m.tpm.level
  waiting : m.tpm.volatile.started = false → m.tpm = .powerOn m.kept ∧ SeenBelow m.history m.kept.floor

/-- What a command shows is no lower than the level before, higher for an increment, and no higher than
the level after. -/
theorem seen_spec {t t' : Tpm} (h : t.Sound) (hstarted : t.volatile.started = true) {command : Command}
    (hroom : t.CountsBelow command) (hok : t.process digest command = .ok t') :
    seen t t' command = [] ∨ ∃ i s, seen t t' command = [(i, s)] ∧
      t.level i ≤ s.value ∧ (∀ v, s = .incremented v → t.level i < v) ∧ s.value ≤ t'.level i := by
  cases command with
  | increment auth i =>
    have hok : t.increment auth i = .ok t' := by simpa [Tpm.process, hstarted] using hok
    obtain ⟨⟨a, hcounted⟩, hvalue⟩ := h.increment hroom hok
    refine .inr ⟨i, _, rfl, ?_⟩
    rw [Seen.value, hvalue, hcounted.level]
    refine ⟨Nat.le_succ _, fun v hv => ?_, le_refl _⟩
    obtain rfl := Seen.incremented.inj hv
    exact Nat.lt_succ_self _
  | read auth i size offset =>
    have hok : (t.read auth i size offset).map (fun _ => t) = .ok t' := by
      simpa [Tpm.process, hstarted] using hok
    obtain rfl := map_const_eq_ok hok
    rw [seen]
    split
    · rename_i bytes p hread hp
      split_ifs with hwhole
      · simp only [Bool.and_eq_true, decide_eq_true_eq] at hwhole
        obtain ⟨hkind, rfl⟩ := hwhole
        have hvalue := h.read_counter hread hp hkind
        refine .inr ⟨i, _, rfl, ?_⟩
        rw [Seen.value, hvalue]
        exact ⟨le_refl _, nofun, le_refl _⟩
      · exact .inl rfl
    · exact .inl rfl
  | _ => exact .inl rfl

/-- What is seen next is no lower than what was seen. -/
theorem NeverBack.append {history new : List (ℕ × Seen)} {level level' : ℕ → ℕ} (h : NeverBack history)
    (hbelow : SeenBelow history level) (hle : ∀ i, level i ≤ level' i)
    (hnew : new = [] ∨ ∃ i s, new = [(i, s)] ∧ level i ≤ s.value ∧
      (∀ v, s = .incremented v → level i < v) ∧ s.value ≤ level' i) :
    NeverBack (new ++ history) ∧ SeenBelow (new ++ history) level' := by
  have hkept : SeenBelow history level' := fun x hx => (hbelow x hx).trans (hle x.1)
  obtain rfl | ⟨i, s, rfl, hlow, hcount, hhigh⟩ := hnew
  · exact ⟨h, hkept⟩
  · refine ⟨List.pairwise_cons.mpr ⟨fun x hx hsame => ?_, h⟩, fun x hx => ?_⟩
    · have hx := hbelow x hx
      rw [hsame] at hx
      exact ⟨hx.trans hlow, fun v hv => hx.trans_lt (hcount v hv)⟩
    · obtain rfl | hx := List.mem_cons.mp hx
      · exact hhigh
      · exact hkept x hx

theorem PoweredOn.sound (h : m.PoweredOn) : m.Sound where
  neverBack := by
    rw [h.history]
    exact .nil
  sized i e he hkind := by
    obtain ⟨hlen, hfits⟩ := h.sized i e he
    rw [hlen]
    simpa [NvPublic.sizeFits, hkind] using hfits
  started hstarted := by
    rw [h.tpm] at hstarted
    cases hstarted
  waiting _ := ⟨h.tpm, by rw [h.history]; rintro _ ⟨⟩⟩

theorem sound_store {t : Tpm} {kept : Permanent} {history : List (ℕ × Seen)}
    (hstarted : t.volatile.started = true) (ht : t.Sound) (hback : NeverBack history)
    (hbelow : SeenBelow history t.level) (hkept : t.permanent.changed = false → kept = t.permanent.value) :
    (Machine.store ⟨t, kept, history⟩).Sound := by
  unfold store
  split_ifs with hchanged
  · refine ⟨hback, ht.sized, fun _ => ⟨ht, rfl, rfl, hbelow⟩, fun hwaits => ?_⟩
    exact absurd (hstarted.symm.trans hwaits) Bool.noConfusion
  · have hunchanged : t.permanent.changed = false := by simpa using hchanged
    have hkept := hkept hunchanged
    refine ⟨hback, hkept ▸ ht.sized, fun _ => ⟨ht, hkept, hunchanged, hbelow⟩, fun hwaits => ?_⟩
    exact absurd (hstarted.symm.trans hwaits) Bool.noConfusion

theorem Sound.command (h : m.Sound) {command : Command} {t : Tpm} (hroom : m.tpm.CountsBelow command)
    (hok : m.tpm.process digest command = .ok t) :
    (Machine.store ⟨t, m.kept, seen m.tpm t command ++ m.history⟩).Sound := by
  cases hstarted : m.tpm.volatile.started with
  | true =>
    obtain ⟨ht, hkept, hunchanged, hbelow⟩ := h.started hstarted
    have hrises := ht.process hstarted hroom hok
    obtain ⟨hback, hbelow⟩ := h.neverBack.append hbelow hrises.level (seen_spec ht hstarted hroom hok)
    refine sound_store (hrises.tracks.started.trans hstarted) hrises.sound hback hbelow fun hsame => ?_
    rw [hkept, hrises.tracks.unchanged hsame]
  | false =>
    obtain ⟨hwaits, hbelow⟩ := h.waiting hstarted
    cases command with
    | startup state =>
      have hok : m.tpm.startup state = .ok t := by simpa [Tpm.process, hstarted] using hok
      obtain ⟨kind, has⟩ := Tpm.startup_eq hok
      have hvalue : m.tpm.permanent.value = m.kept := by rw [hwaits, Tpm.powerOn]
      obtain ⟨ht, hlevel⟩ := has.sound (hvalue ▸ h.sized)
      refine sound_store has.started ht h.neverBack (fun x hx => ?_) fun hsame => ?_
      · rw [hlevel, hvalue]
        exact hbelow x hx
      · exact absurd (has.changed.symm.trans hsame) Bool.noConfusion
    | _ => exact absurd hok (by simp [Tpm.process, hstarted])

/-- Every event keeps a machine sound. -/
theorem Sound.step (h : m.Sound) {event : Event}
    (hroom : ∀ command, event = .command command → m.tpm.CountsBelow command)
    (hstep : m.step digest event = some m') : m'.Sound := by
  cases event with
  | command command =>
    unfold Machine.step at hstep
    cases hok : m.tpm.process digest command with
    | error e =>
      simp only [hok] at hstep
      exact some.inj hstep ▸ h
    | ok t =>
      simp only [hok] at hstep
      exact some.inj hstep ▸ h.command (hroom command rfl) hok
  | powerCycle =>
    cases hstep
    refine ⟨h.neverBack, h.sized, nofun, fun _ => ⟨rfl, ?_⟩⟩
    cases hstarted : m.tpm.volatile.started with
    | true =>
      obtain ⟨ht, hkept, -, hbelow⟩ := h.started hstarted
      intro x hx
      rw [hkept]
      exact (hbelow x hx).trans (ht.level_le_floor x.1)
    | false => exact (h.waiting hstarted).2

end Machine

/-- The runs of a TPM in which every count stays below 2^64. -/
def countingSystem (digest : Hash → Bytes → Bytes) : System Machine Event :=
  (tpmSystem digest).restrict fun m event _ => ∀ command, event = .command command → m.tpm.CountsBelow command

/-- In every run, with power lost at any time, the values of a counter seen at a handle never decrease,
and each increment makes a value greater than all seen there before. -/
theorem counters_never_back {digest : Hash → Bytes → Bytes} {m : Machine}
    (h : (countingSystem digest).Reachable m) :
    m.history.Pairwise fun later earlier => earlier.1 = later.1 →
      earlier.2.value ≤ later.2.value ∧ ∀ v, later.2 = .incremented v → earlier.2.value < v := by
  have hsound : m.Sound := h.invariant (fun _ => Machine.PoweredOn.sound)
    fun _ _ _ hs hstep => hs.step hstep.2 hstep.1
  exact hsound.neverBack

def orderlyCounter : NvPublic where
  nameAlg := .sha256
  attributes :=
    { ppwrite := false, ownerwrite := true, authwrite := false, policywrite := false
      kind := some .counter, policyDelete := false, writelocked := false, writeall := false
      writedefine := false, writeStclear := false, globallock := false, ppread := false
      ownerread := true, authread := false, policyread := false, noDa := false, orderly := true
      clearStclear := false, readlocked := false, written := false, platformcreate := false
      readStclear := false }
  authPolicy := []
  dataSize := 8

/-- A TPM without indices, powered on. -/
def newMachine : Machine := ⟨.powerOn ⟨.none, ∅, 0, false⟩, ⟨.none, ∅, 0, false⟩, []⟩

theorem newMachine_poweredOn : newMachine.PoweredOn := ⟨rfl, fun _ _ h => (nomatch h), rfl⟩

/-- Whether an event's count stays below 2^64. -/
def Machine.countsBelow (m : Machine) : Event → Bool
  | .command (.increment _ i) => (m.tpm.nvPublic i).all fun p => m.tpm.counted i p < u64Max
  | _ => true

theorem Machine.countsBelow_spec {m : Machine} {event : Event} (h : m.countsBelow event = true)
    (command : Command) (hevent : event = .command command) : m.tpm.CountsBelow command := by
  subst hevent
  cases command with
  | increment auth i =>
    intro p hp
    have h : ((m.tpm.nvPublic i).all fun p => m.tpm.counted i p < u64Max) = true := h
    rw [hp] at h
    exact of_decide_eq_true h
  | _ => trivial

/-- An orderly counter counts, loses power, starts past its block, is deleted and defined once more. -/
theorem counters_never_back_redefined : ∃ m, (countingSystem fun _ => id).Reachable m ∧
    m.history.map (fun h => (h.1, h.2.value)) = [(1, 257), (1, 256), (1, 255), (1, 1), (1, 1)] ∧
    m.history.Pairwise fun later earlier => earlier.1 = later.1 →
      earlier.2.value ≤ later.2.value ∧ ∀ v, later.2 = .incremented v → earlier.2.value < v := by
  obtain ⟨m, hreach, hhistory⟩ : ∃ m, (countingSystem fun _ => id).Reachable m ∧
      m.history.map (fun h => (h.1, h.2.value)) = [(1, 257), (1, 256), (1, 255), (1, 1), (1, 1)] :=
    System.exists_reachable_restrict Machine.countsBelow_spec newMachine
      [.command (.startup false), .command (.defineSpace .owner [] 1 orderlyCounter),
        .command (.increment .owner 1), .command (.read .owner 1 8 0), .powerCycle,
        .command (.startup false), .command (.read .owner 1 8 0), .command (.increment .owner 1),
        .command (.undefineSpace .owner 1), .command (.defineSpace .owner [] 1 orderlyCounter),
        .command (.increment .owner 1)] newMachine_poweredOn (by decide +kernel)
  exact ⟨m, hreach, hhistory, counters_never_back hreach⟩

end Virtkit.Nv
