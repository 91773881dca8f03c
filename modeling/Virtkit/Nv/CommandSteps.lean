import Virtkit.Nv.Counting
import Virtkit.Common.Loops

/-!
# Deleting and defining indices

Deleting an index leaves its handle at no lower a level, as a written counter's value is remembered, and
a new index is not written, so it starts from there. What a command does to every index, it does to one
after the other.
-/

namespace Virtkit.Nv

open Virtkit.Common Table

section

theorem Cell.Sound.setAuth {c : Cell} {orderly : Bool} (h : c.Sound orderly)
    (auth : Bytes) : (⟨c.entry.map fun e => { e with auth := auth }, c.ram⟩ : Cell).Sound orderly := by
  obtain ⟨entry, ram⟩ := c
  cases entry with
  | none => exact h
  | some e =>
    refine ⟨h.1, ?_⟩
    have hram := h.2
    split_ifs at hram with horderly
    · obtain ⟨r, hr, hok⟩ := hram
      exact (if_pos horderly).symm ▸ ⟨r, hr, hok.isOrderly, hok.kind, hok.size, hok.written, hok.value⟩
    · exact (if_neg horderly).symm ▸ hram

namespace Tpm

variable {t t' : Tpm} {i : ℕ} {p : NvPublic}

theorem Sound.rises_of_cell_eq (h : t.Sound) (htracks : Tracks t t') (hcell : t'.cell = t.cell)
    (hmax : t'.permanent.value.nvMaxCounter = t.permanent.value.nvMaxCounter)
    (horderly : t'.orderly = t.orderly) : Rises t t' := by
  refine ⟨htracks, fun i => ?_, fun i => ?_⟩
  · rw [hcell, horderly]
    exact h i
  · rw [Tpm.level, Tpm.level, hcell, hmax]

theorem Sound.forgotten (h : t.Sound) {max : ℕ} (hmax : t.permanent.value.nvMaxCounter ≤ max)
    (hlevel : t.level i ≤ max) :
    Rises t ⟨t.permanent.modify fun p => { p with nv := p.nv.erase i, nvMaxCounter := max },
      { t.volatile with nvOrderly := t.volatile.nvOrderly.erase i }⟩ := by
  refine @Sound.rises_of_cell t _ h i ⟨none, none⟩ ⟨rfl, nofun⟩ rfl hmax (fun j => ?_) rfl hlevel
  have hentry := lookup_erase_ite t.permanent.value.nv i j
  have hram := lookup_erase_ite t.volatile.nvOrderly i j
  split_ifs at hentry hram ⊢ <;> exact congrArg₂ Cell.mk hentry hram

/-- A counter that is deleted is kept below the largest count. -/
theorem Sound.nvDelete (h : t.Sound) (i : ℕ) : Rises t (t.nvDelete i) := by
  unfold Tpm.nvDelete
  cases hp : t.nvPublic i with
  | none => exact h.rises
  | some p =>
    obtain ⟨e, data, -, hlive, hdata, -⟩ := h.live_of_public hp
    have hlevel : t.level i = if p.attributes.kind = some .counter && p.attributes.written then t.nvU64 i
        else t.permanent.value.nvMaxCounter := by
      rw [live_eq] at hlive
      rw [Tpm.level, Cell.level, hlive, Cell.levelOf, nvU64, hdata]
      rfl
    have hforgotten := @Sound.forgotten t i h (if p.attributes.kind = some .counter && p.attributes.written then
        Nat.max t.permanent.value.nvMaxCounter (t.nvU64 i) else t.permanent.value.nvMaxCounter)
      (by split_ifs; exacts [Nat.le_max_left _ _, le_refl _])
      (by rw [hlevel]; split_ifs; exacts [Nat.le_max_right _ _, le_refl _])
    dsimp only
    split_ifs at hforgotten ⊢
    · exact hforgotten.trans hforgotten.sound.nvStoreOrderly
    · exact hforgotten.trans hforgotten.sound.nvStoreOrderly
    · exact hforgotten
    · exact hforgotten

theorem Sound.foldl {f : Tpm → ℕ → Tpm} (hf : ∀ t i, t.Sound → Rises t (f t i)) (is : List ℕ)
    (h : t.Sound) : Rises t (is.foldl f t) := by
  induction is generalizing t with
  | nil => exact h.rises
  | cons i is ih =>
    have hone := hf t i h
    exact hone.trans (ih hone.sound)

theorem Sound.nvFlushOwner (h : t.Sound) : Rises t t.nvFlushOwner :=
  Sound.foldl (fun _ i h => h.nvDelete i) _ h

theorem Sound.lockGlobally (h : t.Sound) (i : ℕ) : Rises t (t.lockGlobally i) := by
  unfold Tpm.lockGlobally
  cases hp : t.nvPublic i with
  | none => exact h.rises
  | some p =>
    dsimp only
    split_ifs
    · exact h.nvSetAttributes hp rfl rfl rfl
    · exact h.rises

/-- A new index has no count yet. -/
theorem Sound.addEntry (h : t.Sound) {e : NvIndex} (hfree : t.nvEntry i = none)
    (hunwritten : e.pub.attributes.written = false)
    (hsize : e.pub.attributes.kind = some .counter → e.data.length = 8 ∧ e.pub.dataSize = 8) :
    Rises t (t.addEntry i e) := by
  have hram : t.volatile.nvOrderly.lookup i = none := by
    have hsound := h i
    unfold cell at hsound
    rwa [hfree] at hsound
  have hlevel : t.level i = t.permanent.value.nvMaxCounter := by
    rw [Tpm.level, cell, hfree]
    rfl
  have hentry := lookup_insert_ite t.permanent.value.nv i
  unfold Tpm.addEntry
  split_ifs with horderly
  · let r : OrderlyRam := ⟨e.pub.attributes, List.replicate e.pub.dataSize 0⟩
    have hok : RamOk t.orderly e r := by
      refine ⟨horderly, rfl, fun hkind => ?_, fun _ => rfl, fun _ hwritten => ?_⟩
      · exact List.length_replicate.trans (hsize hkind).2
      · exact absurd (hunwritten.symm.trans hwritten) Bool.false_ne_true
    -- The copy is in RAM before it is stored.
    have hadded : Rises t ⟨t.permanent.modify fun p => { p with nv := p.nv.insert i e },
        { t.volatile with nvOrderly := (t.volatile.nvOrderly.insert i r) }⟩ := by
      refine @Sound.rises_of_cell t _ h i ⟨some e, some r⟩ ⟨rfl, by rintro ⟨⟩⟩ rfl (le_refl _) (fun j => ?_) ?_ ?_
      · have hentry := hentry j e
        have hram := lookup_insert_ite t.volatile.nvOrderly i j r
        split_ifs at hentry hram ⊢ <;> exact congrArg₂ Cell.mk hentry hram
      · exact ⟨fun hkind => (hsize hkind).1, (if_pos horderly).symm ▸ ⟨r, rfl, hok⟩⟩
      · have hnew : r.attributes.written = false := hunwritten
        simp [hlevel, Cell.level, Cell.live, horderly, Cell.levelOf, hnew, Tracked.modify]
    exact hadded.trans hadded.sound.nvStoreOrderly
  · have hplain : e.pub.attributes.orderly = false := by simpa using horderly
    refine @Sound.rises_of_cell t _ h i ⟨some e, none⟩ ⟨rfl, by rintro ⟨⟩⟩ rfl (le_refl _) (fun j => ?_) ?_ ?_
    · have hentry := hentry j e
      split_ifs at hentry ⊢ with hj
      · exact congrArg₂ Cell.mk hentry (hj ▸ hram)
      · exact congrArg (Cell.mk · _) hentry
    · exact Cell.sound_plain hplain fun hkind => (hsize hkind).1
    · simp [hlevel, Cell.level, Cell.live, hplain, Cell.levelOf, hunwritten, Tracked.modify]

theorem Sound.setAuth (h : t.Sound) (i : ℕ) (auth : Bytes) :
    Rises t { t with permanent := t.permanent.modify fun q =>
      { q with nv := q.nv.modify i fun e => { e with auth := auth } } } := by
  refine @Sound.rises_of_cell t _ h i _ ⟨rfl, nofun⟩ rfl (le_refl _) (fun j => ?_) ((h i).setAuth auth) ?_
  · have hentry := lookup_modify t.permanent.value.nv i j fun e => { e with auth := auth }
    split_ifs at hentry ⊢ with hj
    · subst hj
      exact congrArg (Cell.mk · _) hentry
    · exact congrArg (Cell.mk · _) hentry
  · unfold Tpm.level Cell.level Cell.live
    cases (t.cell i).entry <;> exact le_refl _

/-- A shutdown stores what it must. -/
theorem Sound.recordShutdown (h : t.Sound) (shutdown : Shutdown) :
    Rises t { t.nvStoreOrderly with permanent := t.nvStoreOrderly.permanent.modify fun p =>
      { p with shutdown := shutdown } } := by
  obtain ⟨hcell, hmax, -, htracks⟩ := t.nvStoreOrderly_frame
  refine ⟨⟨htracks.started, nofun⟩, fun i => ?_, fun i => ?_⟩
  · change (t.nvStoreOrderly.cell i).Sound _
    rw [hcell]
    exact ((h i).store _).1
  · exact (h.nvStoreOrderly).level i

end Tpm

end

/-!
## What a command leaves

Every command of a started TPM that succeeds leaves the cells sound and no level lower. An increment
moreover makes its counter's value the level and one, and a read of a whole counter shows the level.
-/

namespace Tpm

variable {t t' : Tpm} {auth : AuthHandle} {i : ℕ} {p : NvPublic}

theorem indexPublic_eq (h : t.indexPublic i = .ok p) : t.nvPublic i = some p := by
  unfold indexPublic at h
  split_ifs at h
  exact elim_eq_ok.mp h

theorem written_eq {offset : ℕ} {bytes : Bytes} (h : t.written i offset bytes = .ok t') :
    t.nvWrite i offset bytes = some t' := elim_eq_ok.mp h

section

variable (h : t.Sound)
include h

theorem Sound.shutdown {state : Bool} (hok : t.shutdown state = .ok t') : Rises t t' := by
  obtain ⟨-, hok⟩ := check_eq_ok.mp hok
  obtain rfl := Except.ok.inj hok
  have hforgets : Rises t { t with volatile := { t.volatile with daUsed := false } } :=
    h.rises_of_cell_eq ⟨rfl, fun _ => rfl⟩ rfl rfl rfl
  exact hforgets.trans (hforgets.sound.recordShutdown _)

theorem Sound.clear (hok : t.clear = .ok t') : Rises t t' := by
  obtain ⟨-, hok⟩ := check_eq_ok.mp hok
  obtain rfl := Except.ok.inj hok
  have henables : Rises t
      { t with volatile := { t.volatile with clear := { t.volatile.clear with shEnable := true } } } :=
    h.rises_of_cell_eq ⟨rfl, fun _ => rfl⟩ rfl rfl rfl
  have hflushed := henables.trans henables.sound.nvFlushOwner
  exact hflushed.trans hflushed.sound.clearOrderly

theorem Sound.hierarchyControl {enable : Enable} {state : Bool}
    (hok : t.hierarchyControl auth enable state = .ok t') : Rises t t' := by
  obtain ⟨-, hok⟩ := check_eq_ok.mp hok
  have hset : ∀ next, Rises t { t with volatile := { t.volatile with clear := next } } := fun _ =>
    h.rises_of_cell_eq ⟨rfl, fun _ => rfl⟩ rfl rfl rfl
  split_ifs at hok
  · exact Except.ok.inj hok ▸ h.rises
  · exact Except.ok.inj hok ▸ (hset _).trans (hset _).sound.clearOrderly

theorem Sound.defineSpace {authValue : Bytes} (hok : t.defineSpace auth authValue i p = .ok t') : Rises t t' := by
  obtain ⟨-, hok⟩ := check_eq_ok.mp hok
  obtain ⟨-, hok⟩ := check_eq_ok.mp hok
  obtain ⟨-, hok⟩ := check_eq_ok.mp hok
  split at hok
  · nomatch hok
  · rename_i kind hkind
    simp only [check_eq_ok] at hok
    obtain ⟨hfits, hattributes, -, -, -, hfree, -, -, hok⟩ := hok
    obtain rfl := Except.ok.inj hok
    refine h.addEntry (by simpa using hfree) ?_ fun hcounter => ?_
    · have hattributes : attributesOk p.attributes kind = true := by simpa using hattributes
      simp only [attributesOk, Bool.and_eq_true, Bool.not_eq_true'] at hattributes
      exact hattributes.1.1.1.1.1.2
    · have hcounter : p.attributes.kind = some .counter := hcounter
      have hsize : p.dataSize = 8 := by simpa [NvPublic.sizeFits, hcounter] using hfits
      exact ⟨List.length_replicate.trans hsize, hsize⟩

theorem Sound.undefineSpace (hok : t.undefineSpace auth i = .ok t') : Rises t t' := by
  obtain ⟨p, -, hok⟩ := bind_eq_ok.mp hok
  obtain ⟨-, hok⟩ := check_eq_ok.mp hok
  obtain ⟨-, hok⟩ := check_eq_ok.mp hok
  exact Except.ok.inj hok ▸ h.nvDelete i

theorem Sound.undefineSpaceSpecial (hok : t.undefineSpaceSpecial i = .ok t') : Rises t t' := by
  obtain ⟨p, -, hok⟩ := bind_eq_ok.mp hok
  obtain ⟨-, hok⟩ := check_eq_ok.mp hok
  exact Except.ok.inj hok ▸ h.nvDelete i

theorem Sound.write {data : Bytes} {offset : ℕ} (hok : t.write auth i data offset = .ok t') : Rises t t' := by
  obtain ⟨p, hp, hok⟩ := bind_eq_ok.mp hok
  obtain ⟨-, -, hok⟩ := bind_eq_ok.mp hok
  simp only [check_eq_ok] at hok
  obtain ⟨hkind, -, -, -, hok⟩ := hok
  refine h.nvWrite (indexPublic_eq hp) (fun hc => hkind ?_) (written_eq hok)
  rw [hc]
  rfl

theorem Sound.extend {digest : Hash → Bytes → Bytes} {data : Bytes}
    (hok : t.extend digest auth i data = .ok t') : Rises t t' := by
  obtain ⟨p, hp, hok⟩ := bind_eq_ok.mp hok
  obtain ⟨-, -, hok⟩ := bind_eq_ok.mp hok
  obtain ⟨hkind, hok⟩ := check_eq_ok.mp hok
  refine h.nvWrite (indexPublic_eq hp) (fun hc => hkind ?_) (written_eq hok)
  rw [hc]
  decide

theorem Sound.setBits {bits : ℕ} (hok : t.setBits auth i bits = .ok t') : Rises t t' := by
  obtain ⟨p, hp, hok⟩ := bind_eq_ok.mp hok
  obtain ⟨-, -, hok⟩ := bind_eq_ok.mp hok
  obtain ⟨hkind, hok⟩ := check_eq_ok.mp hok
  refine h.nvWrite (indexPublic_eq hp) (fun hc => hkind ?_) (written_eq hok)
  rw [hc]
  decide

theorem Sound.writeLock (hok : t.writeLock auth i = .ok t') : Rises t t' := by
  obtain ⟨p, hp, hok⟩ := bind_eq_ok.mp hok
  split at hok
  · nomatch hok
  · exact Except.ok.inj hok ▸ h.rises
  · obtain ⟨-, hok⟩ := check_eq_ok.mp hok
    exact Except.ok.inj hok ▸ h.nvSetAttributes (indexPublic_eq hp) rfl rfl rfl

theorem Sound.readLock (hok : t.readLock auth i = .ok t') : Rises t t' := by
  obtain ⟨p, hp, hok⟩ := bind_eq_ok.mp hok
  split at hok
  · nomatch hok
  · exact Except.ok.inj hok ▸ h.rises
  · obtain ⟨-, hok⟩ := check_eq_ok.mp hok
    exact Except.ok.inj hok ▸ h.nvSetAttributes (indexPublic_eq hp) rfl rfl rfl

theorem Sound.changeAuth {newAuth : Bytes} (hok : t.changeAuth i newAuth = .ok t') : Rises t t' := by
  obtain ⟨p, -, hok⟩ := bind_eq_ok.mp hok
  obtain ⟨-, hok⟩ := check_eq_ok.mp hok
  exact Except.ok.inj hok ▸ h.setAuth i _

theorem Sound.pinAuthorized {success : Bool} (hok : t.pinAuthorized i success = .ok t') : Rises t t' := by
  unfold Tpm.pinAuthorized at hok
  cases hp : t.nvPublic i with
  | none =>
    rw [hp] at hok
    exact Except.ok.inj hok ▸ h.rises
  | some p =>
    rw [hp] at hok
    dsimp only at hok
    split_ifs at hok
    · exact Except.ok.inj hok ▸ h.rises
    · split at hok
      case h_4 => exact Except.ok.inj hok ▸ h.rises
      all_goals
        rename_i hkind
        exact h.nvWrite hp (by rw [hkind]; decide) (written_eq hok)

end

/-- Whether what a command increments stays below 2^64. -/
def CountsBelow (t : Tpm) : Command → Prop
  | .increment _ i => ∀ p, t.nvPublic i = some p → t.counted i p < u64Max
  | _ => True

/-- An increment counts up by one. -/
theorem Sound.increment (h : t.Sound) (hroom : t.CountsBelow (.increment auth i)) (hok : t.increment auth i = .ok t') :
    (∃ a, CountedTo t t' i a (t.level i + 1)) ∧ t'.nvU64 i = t.level i + 1 := by
  obtain ⟨p, hp, hok⟩ := bind_eq_ok.mp hok
  obtain ⟨-, -, hok⟩ := bind_eq_ok.mp hok
  obtain ⟨hkind, hok⟩ := check_eq_ok.mp hok
  obtain ⟨t₁, hwrite, hok⟩ := bind_eq_ok.mp hok
  have hcounter : p.attributes.kind = some .counter := by simpa using hkind
  have hp := indexPublic_eq hp
  have hroom := hroom p hp
  rw [h.counted hp hcounter] at hroom hwrite hok
  have hvalue : (t.level i + 1) % 2 ^ 64 = t.level i + 1 := Nat.mod_eq_of_lt (by unfold u64Max at hroom; omega)
  rw [hvalue] at hwrite hok
  have hcounted := h.count hp hcounter hroom (written_eq hwrite)
  have hresult : t₁.counting p (t.level i + 1) = t' := by
    unfold counting
    split_ifs at hok ⊢ <;> exact Except.ok.inj hok
  rw [hresult] at hcounted
  exact ⟨⟨_, hcounted⟩, hcounted.nvU64_eq hroom⟩

/-- A counter is read as its level. -/
theorem Sound.read_counter (h : t.Sound) {offset : ℕ} {bytes : Bytes}
    (hok : t.read auth i 8 offset = .ok bytes) (hp : t.nvPublic i = some p)
    (hkind : p.attributes.kind = some .counter) : ofBe bytes = t.level i := by
  obtain ⟨p', hp', hok⟩ := bind_eq_ok.mp hok
  obtain rfl := Option.some.inj ((indexPublic_eq hp').symm.trans hp)
  obtain ⟨_, haccess, hok⟩ := bind_eq_ok.mp hok
  simp only [check_eq_ok] at hok
  obtain ⟨-, -, -, hlen, hok⟩ := hok
  obtain ⟨-, haccess⟩ := check_eq_ok.mp haccess
  obtain ⟨-, haccess⟩ := check_eq_ok.mp haccess
  obtain ⟨hwritten, -⟩ := check_eq_ok.mp haccess
  obtain ⟨e, data, -, hlive, hdata, -, -, hsize⟩ := h.live_of_public hp
  rw [hdata, Option.getD_some] at hlen hok
  have hsize := hsize hkind
  have hstart : offset = 0 := by omega
  rw [← h.counted hp hkind, Tpm.counted, if_pos (by simpa using hwritten), nvU64, hdata,
    Option.elim_some, dataU64, if_pos hsize.ge, ← Except.ok.inj hok, hstart, List.drop_zero]

/-- No command takes a counter back. -/
theorem Sound.process (h : t.Sound) (hstarted : t.volatile.started = true)
    {digest : Hash → Bytes → Bytes} {command : Command} (hroom : t.CountsBelow command)
    (hok : t.process digest command = .ok t') : Rises t t' := by
  unfold Tpm.process at hok
  rw [hstarted] at hok
  cases command with
  | startup state => exact nomatch hok
  | shutdown state => exact h.shutdown hok
  | clear => exact h.clear hok
  | clearControl disable => exact Except.ok.inj hok ▸ h.rises_of_cell_eq ⟨rfl, nofun⟩ rfl rfl rfl
  | hierarchyControl auth enable state => exact h.hierarchyControl hok
  | defineSpace auth authValue i p => exact h.defineSpace hok
  | undefineSpace auth i => exact h.undefineSpace hok
  | undefineSpaceSpecial i => exact h.undefineSpaceSpecial hok
  | write auth i data offset => exact h.write hok
  | increment auth i =>
    obtain ⟨⟨_, hcounted⟩, -⟩ := h.increment hroom hok
    exact hcounted.rises
  | extend auth i data => exact h.extend hok
  | setBits auth i bits => exact h.setBits hok
  | writeLock auth i => exact h.writeLock hok
  | readLock auth i => exact h.readLock hok
  | globalWriteLock => exact Except.ok.inj hok ▸ Sound.foldl (fun _ i h => h.lockGlobally i) _ h
  | read auth i size offset => exact map_const_eq_ok hok ▸ h.rises
  | changeAuth i newAuth => exact h.changeAuth hok
  | pinAuthorized i success => exact h.pinAuthorized hok
  | daUsed =>
    obtain rfl := Except.ok.inj hok
    split_ifs
    · exact h.rises
    · exact ⟨⟨rfl, nofun⟩, fun i => (h i).voided, fun _ => le_refl _⟩
  | voids => exact Except.ok.inj hok ▸ h.clearOrderly
  | reconfigures pending => exact Except.ok.inj hok ▸ h.rises_of_cell_eq ⟨rfl, fun _ => rfl⟩ rfl rfl rfl

end Tpm

end Virtkit.Nv
