import Virtkit.Nv.Memory

/-!
# What the TPM holds of an index

A handle's cell is its index in the permanent state and its copy in RAM. In a sound cell an orderly
counter's copy is written as its index is, holds no less than what was stored and no more than the end
of the block of 256 that is in, and holds just that after an orderly shutdown. The level of a handle is
what a counter there counts on from: its own value, or what deleted counters had.
-/

namespace Virtkit.Nv

open Virtkit.Common

section

theorem or_maxOrderlyCount (v : ℕ) : v ||| maxOrderlyCount = v / 256 * 256 + 255 := by
  have hlow : ∀ r < 256, r ||| 255 = 255 := by decide +kernel
  have hsplit : v = 2 ^ 8 * (v / 256) ||| v % 256 := by
    rw [← Nat.two_pow_add_eq_or_of_lt (Nat.mod_lt v (by decide))]
    omega
  have hend : 2 ^ 8 * (v / 256) ||| 255 = 2 ^ 8 * (v / 256) + 255 := (Nat.two_pow_add_eq_or_of_lt (by decide) _).symm
  calc v ||| maxOrderlyCount = (2 ^ 8 * (v / 256) ||| v % 256) ||| 255 := by
        rw [← hsplit]
        rfl
    _ = 2 ^ 8 * (v / 256) ||| 255 := by rw [Nat.or_assoc, hlow _ (Nat.mod_lt v (by decide))]
    _ = v / 256 * 256 + 255 := by omega

theorem and_maxOrderlyCount (v : ℕ) : v &&& maxOrderlyCount = v % 256 :=
  Nat.and_two_pow_sub_one_eq_mod v 8

/-- What the TPM holds of an index. -/
structure Cell where
  entry : Option NvIndex
  ram : Option OrderlyRam

/-- What the TPM holds of a handle's index. -/
def Tpm.cell (t : Tpm) (i : ℕ) : Cell := ⟨t.nvEntry i, t.volatile.nvOrderly.lookup i⟩

/-- Whether the last shutdown was orderly, and nothing since voids it. -/
def Tpm.orderly (t : Tpm) : Bool := t.permanent.value.shutdown.isOrderly

/-- An orderly counter's copy and what was stored of it. -/
structure RamOk (orderly : Bool) (e : NvIndex) (r : OrderlyRam) : Prop where
  isOrderly : r.attributes.orderly = true
  kind : r.attributes.kind = e.pub.attributes.kind
  size : e.pub.attributes.kind = some .counter → r.data.length = 8
  written : e.pub.attributes.kind = some .counter → r.attributes.written = e.pub.attributes.written
  value : e.pub.attributes.kind = some .counter → e.pub.attributes.written = true →
    dataU64 e.data ≤ dataU64 r.data ∧ dataU64 r.data ≤ dataU64 e.data / 256 * 256 + 255 ∧
      (orderly = true → dataU64 r.data = dataU64 e.data)

namespace Cell

/-- A cell that a run can come to. -/
def Sound (orderly : Bool) : Cell → Prop
  | ⟨none, r⟩ => r = none
  | ⟨some e, r⟩ =>
    (e.pub.attributes.kind = some .counter → e.data.length = 8) ∧
    if e.pub.attributes.orderly then ∃ r', r = some r' ∧ RamOk orderly e r' else r = none

/-- The attributes and data in use. -/
def live (c : Cell) : Option (Attributes × Bytes) :=
  c.entry.bind fun e =>
    if e.pub.attributes.orderly then c.ram.map fun r => (r.attributes, r.data)
    else some (e.pub.attributes, e.data)

/-- What a counter in use counts on from. -/
def levelOf (max : ℕ) : Option (Attributes × Bytes) → ℕ
  | some (a, data) => if a.kind = some .counter && a.written then dataU64 data else max
  | none => max

/-- What a counter in a cell counts on from, where deleted counters had a highest value. -/
def level (max : ℕ) (c : Cell) : ℕ := levelOf max c.live

/-- A cell with what its copy holds stored. -/
def store (c : Cell) : Cell := ⟨c.entry.map fun e => Tpm.storeRam e c.ram, c.ram⟩

def set (c : Cell) (a : Attributes) (data : Bytes) : Cell :=
  if c.entry.any fun e => e.pub.attributes.orderly then ⟨c.entry, some ⟨a, data⟩⟩
  else ⟨c.entry.map fun e => { e with pub := { e.pub with attributes := a }, data := data }, c.ram⟩

variable {orderly : Bool} {c : Cell}

theorem Sound.voided (h : c.Sound orderly) : c.Sound false := by
  obtain ⟨entry, ram⟩ := c
  cases entry with
  | none => exact h
  | some e =>
    refine ⟨h.1, ?_⟩
    have hram := h.2
    split_ifs at hram ⊢
    · obtain ⟨r, rfl, hr⟩ := hram
      refine ⟨r, rfl, hr.isOrderly, hr.kind, hr.size, hr.written, fun hkind hwritten => ?_⟩
      obtain ⟨hle, hend, -⟩ := hr.value hkind hwritten
      exact ⟨hle, hend, nofun⟩
    · exact hram

theorem sound_plain {e : NvIndex} (hplain : e.pub.attributes.orderly = false)
    (hsize : e.pub.attributes.kind = some .counter → e.data.length = 8) : (⟨some e, none⟩ : Cell).Sound orderly :=
  ⟨hsize, by rw [hplain, if_neg Bool.false_ne_true]⟩

theorem sound_stored {e : NvIndex} {r : OrderlyRam} (horderly : r.attributes.orderly = true)
    (hsize : r.attributes.kind = some .counter → r.data.length = 8) :
    (⟨some (Tpm.storeRam e (some r)), some r⟩ : Cell).Sound orderly := by
  have hstored : (Tpm.storeRam e (some r)).pub.attributes.orderly = true := horderly
  refine ⟨hsize, ?_⟩
  rw [hstored, if_pos rfl]
  refine ⟨r, rfl, horderly, rfl, hsize, fun _ => rfl, fun _ _ => ⟨le_refl _, ?_, fun _ => rfl⟩⟩
  change dataU64 r.data ≤ dataU64 r.data / 256 * 256 + 255
  omega

/-- Storing the RAM image loses nothing. -/
theorem Sound.store (h : c.Sound orderly) (orderly' : Bool) : c.store.Sound orderly' ∧ c.store.live = c.live := by
  obtain ⟨entry, ram⟩ := c
  cases entry with
  | none => exact ⟨h, rfl⟩
  | some e =>
    have hram := h.2
    split_ifs at hram with horderly
    · obtain ⟨r, rfl, hr⟩ := hram
      refine ⟨sound_stored hr.isOrderly fun hkind => hr.size (hr.kind ▸ hkind), ?_⟩
      have hstored : (Tpm.storeRam e (some r)).pub.attributes.orderly = true := hr.isOrderly
      simp [live, Cell.store, horderly, hstored]
    · subst hram
      have hplain : e.pub.attributes.orderly = false := by simpa using horderly
      exact ⟨sound_plain hplain h.1, rfl⟩

theorem Sound.live_eq (h : c.Sound orderly) {e : NvIndex} (he : c.entry = some e) :
    ∃ a data, c.live = some (a, data) ∧ a.kind = e.pub.attributes.kind ∧
      a.orderly = e.pub.attributes.orderly ∧ (a.kind = some .counter → data.length = 8) := by
  obtain ⟨entry, ram⟩ := c
  obtain rfl : entry = some e := he
  have hram := h.2
  split_ifs at hram with horderly
  · obtain ⟨r, rfl, hr⟩ := hram
    refine ⟨r.attributes, r.data, ?_, hr.kind, hr.isOrderly.trans horderly.symm, fun hkind => hr.size (hr.kind ▸ hkind)⟩
    simp [live, horderly]
  · refine ⟨e.pub.attributes, e.data, ?_, rfl, rfl, h.1⟩
    simp [live, horderly]

end Cell

end

/-!
## How the NV memory's operations change cells

What each operation makes of the cells, and that none lowers a handle's level: setting attributes and
writing other data leave it, a counter's write raises it by one, and deleting a counter remembers it.
An operation that leaves the permanent state unmarked has not changed it.
-/

namespace Cell

variable {orderly : Bool} {c : Cell} {a a' : Attributes} {data data' : Bytes}

theorem live_set {e : NvIndex} (he : c.entry = some e) (horderly : a.orderly = e.pub.attributes.orderly) :
    (c.set a data).live = some (a, data) := by
  unfold set live
  cases hplain : e.pub.attributes.orderly with
  | true => simp [he, hplain]
  | false => simp [he, hplain, horderly]

/-- A change that is not of a counter keeps its level. -/
theorem Sound.set (h : c.Sound orderly) (hlive : c.live = some (a, data)) (hkind : a'.kind = a.kind)
    (horderly : a'.orderly = a.orderly) (hcounter : a.kind = some .counter → a'.written = a.written ∧ data' = data) :
    (c.set a' data').Sound orderly ∧ ∀ max, (c.set a' data').level max = c.level max := by
  obtain ⟨e, he, -⟩ := Option.bind_eq_some_iff.mp hlive
  obtain ⟨a₁, data₁, hlive₁, hkind₁, horderly₁, hsize₁⟩ := h.live_eq he
  obtain ⟨rfl, rfl⟩ := Prod.mk.inj (Option.some.inj (hlive₁.symm.trans hlive))
  refine ⟨?_, fun max => ?_⟩
  · obtain ⟨entry, ram⟩ := c
    obtain rfl : entry = some e := he
    have hram := h.2
    unfold Cell.set
    split_ifs at hram with hattr
    · obtain ⟨r, rfl, hr⟩ := hram
      have hsame : (r.attributes, r.data) = (a₁, data₁) := by simpa [live, hattr] using hlive
      obtain ⟨rfl, rfl⟩ := Prod.mk.inj hsame
      rw [Option.any_some, if_pos hattr]
      refine ⟨h.1, ?_⟩
      rw [if_pos hattr]
      refine ⟨_, rfl, horderly.trans hr.isOrderly, hkind.trans hr.kind, fun hc => ?_, fun hc => ?_, fun hc hw => ?_⟩
      · rw [(hcounter (hr.kind.trans hc)).2]
        exact hr.size hc
      · exact (hcounter (hr.kind.trans hc)).1.trans (hr.written hc)
      · rw [(hcounter (hr.kind.trans hc)).2]
        exact hr.value hc hw
    · subst hram
      have hsame : (e.pub.attributes, e.data) = (a₁, data₁) := by simpa [live, hattr] using hlive
      obtain ⟨rfl, rfl⟩ := Prod.mk.inj hsame
      rw [Option.any_some, if_neg hattr]
      refine sound_plain (horderly.trans (by simpa using hattr)) fun hc => ?_
      change data'.length = 8
      rw [(hcounter (hkind ▸ hc)).2]
      exact h.1 (hkind ▸ hc)
  · rw [level, level, live_set he (horderly.trans horderly₁), hlive, levelOf, levelOf, hkind]
    by_cases hc : a₁.kind = some .counter
    · rw [(hcounter hc).1, (hcounter hc).2]
    · simp [hc]

theorem level_mono {max max' : ℕ} (h : max ≤ max') (c : Cell) : c.level max ≤ c.level max' := by
  unfold level levelOf
  split
  · split_ifs
    · exact le_refl _
    · exact h
  · exact h

end Cell

namespace Tpm

variable {t t' t'' : Tpm}

def level (t : Tpm) (i : ℕ) : ℕ := (t.cell i).level t.permanent.value.nvMaxCounter

def Sound (t : Tpm) : Prop := ∀ i, (t.cell i).Sound t.orderly

/-- What leaves the permanent state unmarked does not change it, nor whether the TPM was started. -/
structure Tracks (t t' : Tpm) : Prop where
  started : t'.volatile.started = t.volatile.started
  unchanged : t'.permanent.changed = false → t'.permanent = t.permanent

/-- A change that leaves the cells sound and no level lower. -/
structure Rises (t t' : Tpm) : Prop where
  tracks : Tracks t t'
  sound : t'.Sound
  level : ∀ i, t.level i ≤ t'.level i

theorem Tracks.refl (t : Tpm) : Tracks t t := ⟨rfl, fun _ => rfl⟩

theorem Tracks.trans (h : Tracks t t') (h' : Tracks t' t'') : Tracks t t'' := by
  refine ⟨h'.started.trans h.started, fun hunmarked => ?_⟩
  have hsame := h'.unchanged hunmarked
  exact hsame.trans (h.unchanged (hsame ▸ hunmarked))

theorem Sound.rises (h : t.Sound) : Rises t t := ⟨.refl t, h, fun _ => le_refl _⟩

theorem Rises.trans (h : Rises t t') (h' : Rises t' t'') : Rises t t'' :=
  ⟨h.tracks.trans h'.tracks, h'.sound, fun i => (h.level i).trans (h'.level i)⟩

theorem clearOrderly_frame (t : Tpm) : t.clearOrderly.cell = t.cell ∧
    t.clearOrderly.permanent.value.nvMaxCounter = t.permanent.value.nvMaxCounter ∧
    t.clearOrderly.orderly = false ∧ Tracks t t.clearOrderly := by
  unfold clearOrderly
  by_cases horderly : t.permanent.value.shutdown.isOrderly = true
  · rw [if_pos horderly]
    refine ⟨rfl, rfl, ?_, rfl, nofun⟩
    cases hda : t.volatile.daUsed <;> simp [orderly, Tracked.modify, Shutdown.isOrderly]
  · rw [if_neg horderly]
    exact ⟨rfl, rfl, by simpa [orderly] using horderly, .refl t⟩

theorem nvStoreOrderly_frame (t : Tpm) : (∀ i, t.nvStoreOrderly.cell i = (t.cell i).store) ∧
    t.nvStoreOrderly.permanent.value.nvMaxCounter = t.permanent.value.nvMaxCounter ∧
    t.nvStoreOrderly.orderly = t.orderly ∧ Tracks t t.nvStoreOrderly := by
  unfold nvStoreOrderly
  split_ifs with hany
  · refine ⟨fun i => ?_, rfl, rfl, rfl, nofun⟩
    have hlookup := Table.lookup_mapValues
      (fun i e => storeRam e (t.volatile.nvOrderly.lookup i)) t.permanent.value.nv i
    simp [cell, Cell.store, nvEntry, Tracked.modify, hlookup]
  · refine ⟨fun i => ?_, rfl, rfl, .refl t⟩
    unfold cell Cell.store
    cases he : t.nvEntry i with
    | none => rfl
    | some e =>
      cases hr : t.volatile.nvOrderly.lookup i with
      | none => rfl
      | some r =>
        refine absurd (List.any_eq_true.mpr ⟨⟨i, r⟩, AList.mem_lookup_iff.mp hr, ?_⟩) hany
        rw [he]
        rfl

theorem setLive_frame (t : Tpm) (i : ℕ) (a : Attributes) (data : Bytes) :
    (∀ j, (t.setLive i a data).cell j = if j = i then (t.cell i).set a data else t.cell j) ∧
    (t.setLive i a data).permanent.value.nvMaxCounter = t.permanent.value.nvMaxCounter ∧
    (t.setLive i a data).orderly = t.orderly ∧ Tracks t (t.setLive i a data) := by
  unfold setLive
  split_ifs with horderly
  · refine ⟨fun j => ?_, rfl, rfl, rfl, fun _ => rfl⟩
    have hlookup := Table.lookup_insert_ite t.volatile.nvOrderly i j ⟨a, data⟩
    split_ifs at hlookup ⊢ with hj
    · subst hj
      unfold cell Cell.set
      rw [if_pos horderly]
      exact congrArg (Cell.mk _) hlookup
    · exact congrArg (Cell.mk _) hlookup
  · refine ⟨fun j => ?_, rfl, rfl, rfl, nofun⟩
    have hlookup := Table.lookup_modify t.permanent.value.nv i j fun e =>
      { e with pub := { e.pub with attributes := a }, data := data }
    split_ifs at hlookup ⊢ with hj
    · subst hj
      unfold cell Cell.set
      rw [if_neg horderly]
      exact congrArg (Cell.mk · _) hlookup
    · exact congrArg (Cell.mk · _) hlookup

theorem Sound.clearOrderly (h : t.Sound) : Rises t t.clearOrderly := by
  obtain ⟨hcell, hmax, horderly, htracks⟩ := t.clearOrderly_frame
  refine ⟨htracks, fun i => ?_, fun i => ?_⟩
  · rw [hcell, horderly]
    exact (h i).voided
  · rw [Tpm.level, Tpm.level, hcell, hmax]

theorem Sound.nvStoreOrderly (h : t.Sound) : Rises t t.nvStoreOrderly := by
  obtain ⟨hcell, hmax, horderly, htracks⟩ := t.nvStoreOrderly_frame
  refine ⟨htracks, fun i => ?_, fun i => ?_⟩
  · rw [hcell, horderly]
    exact ((h i).store t.orderly).1
  · rw [Tpm.level, Tpm.level, Cell.level, Cell.level, hcell, hmax, ((h i).store t.orderly).2]

theorem live_eq (t : Tpm) (i : ℕ) : t.live i = (t.cell i).live := rfl

/-- A change of one cell that does not fall lets all counters rise. -/
theorem Sound.rises_of_cell (h : t.Sound) {i : ℕ} {c : Cell} (htracks : Tracks t t') (horderly : t'.orderly = t.orderly)
    (hmax : t.permanent.value.nvMaxCounter ≤ t'.permanent.value.nvMaxCounter)
    (hcell : ∀ j, t'.cell j = if j = i then c else t.cell j) (hsound : c.Sound t.orderly)
    (hlevel : t.level i ≤ c.level t'.permanent.value.nvMaxCounter) : Rises t t' := by
  refine ⟨htracks, fun j => ?_, fun j => ?_⟩
  · rw [hcell, horderly]
    split_ifs
    · exact hsound
    · exact h j
  · unfold Tpm.level at hlevel ⊢
    rw [hcell]
    split_ifs with hj
    · exact hj ▸ hlevel
    · exact Cell.level_mono hmax _

theorem Sound.setLive (h : t.Sound) {i : ℕ} {a a' : Attributes} {data data' : Bytes}
    (hlive : t.live i = some (a, data)) (hkind : a'.kind = a.kind) (horderly : a'.orderly = a.orderly)
    (hcounter : a.kind = some .counter → a'.written = a.written ∧ data' = data) : Rises t (t.setLive i a' data') := by
  obtain ⟨hcell, hmax, hsame, htracks⟩ := t.setLive_frame i a' data'
  have hset := (h i).set hlive hkind horderly hcounter
  refine h.rises_of_cell htracks hsame hmax.ge hcell hset.1 ?_
  rw [hmax, hset.2]
  exact le_refl _

end Tpm

end Virtkit.Nv
