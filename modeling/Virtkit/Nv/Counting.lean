import Virtkit.Nv.Cells
import Virtkit.Nv.Commands

/-!
# Counting, defining and deleting

The operations behind the commands, each from sound cells to sound cells without lowering a level: locks
and writes to other indices, a counter's increment, which makes its value the level and one, deleting an
index, and defining one.
-/

namespace Virtkit.Nv

open Virtkit.Common Option Cell

namespace Tpm

variable {t t' : Tpm} {i : ℕ} {p : NvPublic}

variable {a : Attributes}

theorem nvData_of_live {data : Bytes} (h : t.live i = some (a, data)) : t.nvData i = some data := by
  obtain ⟨e, he, hlive⟩ := bind_eq_some_iff.mp h
  unfold nvData
  rw [he, map_some]
  split_ifs at hlive ⊢
  · obtain ⟨r, hr, heq⟩ := map_eq_some_iff.mp hlive
    rw [hr, elim_some, (Prod.mk.inj heq).2]
  · rw [(Prod.mk.inj (some.inj hlive)).2]

section

variable (h : t.Sound) (hp : t.nvPublic i = some p)
include h hp

theorem Sound.live_of_public :
    ∃ e data, t.nvEntry i = some e ∧ t.live i = some (p.attributes, data) ∧ t.nvData i = some data ∧
      p.attributes.kind = e.pub.attributes.kind ∧ p.attributes.orderly = e.pub.attributes.orderly ∧
      (p.attributes.kind = some .counter → data.length = 8) := by
  obtain ⟨e, he, rfl⟩ := map_eq_some_iff.mp hp
  obtain ⟨a, data, hlive, hkind, horderly, hsize⟩ := (h i).live_eq he
  have hcell := hlive
  simp only [Cell.live, cell, he, bind_some] at hcell
  split_ifs at hcell with hattr
  · obtain ⟨r, hr, heq⟩ := map_eq_some_iff.mp hcell
    obtain ⟨rfl, rfl⟩ := Prod.mk.inj heq
    rw [if_pos hattr, hr]
    exact ⟨e, r.data, he, hlive, nvData_of_live hlive, hkind, horderly, hsize⟩
  · obtain ⟨rfl, rfl⟩ := Prod.mk.inj (some.inj hcell)
    rw [if_neg hattr]
    exact ⟨e, e.data, he, hlive, nvData_of_live hlive, hkind, horderly, hsize⟩

theorem Sound.counted (hkind : p.attributes.kind = some .counter) : t.counted i p = t.level i := by
  obtain ⟨e, data, -, hlive, hdata, -, -, -⟩ := h.live_of_public hp
  have hcell : (t.cell i).live = some (p.attributes, data) := hlive
  rw [Tpm.counted, nvU64, hdata, Tpm.level, Cell.level, hcell, levelOf, hkind]
  simp

theorem Sound.nvSetAttributes (hkind : a.kind = p.attributes.kind)
    (horderly : a.orderly = p.attributes.orderly) (hwritten : a.written = p.attributes.written) :
    Rises t (t.nvSetAttributes i a) := by
  obtain ⟨e, data, -, hlive, -⟩ := h.live_of_public hp
  have hset : Rises t (t.setLive i a data) := h.setLive hlive hkind horderly fun _ => ⟨hwritten, rfl⟩
  unfold Tpm.nvSetAttributes
  rw [hlive]
  dsimp only
  split_ifs
  · have hvoid := hset.trans hset.sound.clearOrderly
    exact hvoid.trans hvoid.sound.nvStoreOrderly
  · exact hset

theorem Sound.nvWrite_eq {offset : ℕ} {bytes : Bytes} (hwrite : t.nvWrite i offset bytes = some t') :
    ∃ data data', t.live i = some (p.attributes, data) ∧
      (p.attributes.kind = some .counter → overwrite data offset bytes = some data') ∧
      t' = if p.attributes.orderly then
          if p.attributes.written = false ∧ p.attributes.kind = some .counter then
            (t.setLive i p.attributes.setWritten data').clearOrderly.nvStoreOrderly
          else (t.setLive i p.attributes.setWritten data').clearOrderly
        else t.setLive i p.attributes.setWritten data' := by
  obtain ⟨e, data, -, hlive, -⟩ := h.live_of_public hp
  unfold Tpm.nvWrite at hwrite
  rw [hlive, bind_some] at hwrite
  obtain ⟨data', hdata', rfl⟩ := map_eq_some_iff.mp hwrite
  refine ⟨data, data', hlive, fun hkind => ?_, ?_⟩
  · simpa [hkind] using hdata'
  · by_cases horderly : p.attributes.orderly <;> simp [horderly]

/-- A write to an index that is no counter moves none. -/
theorem Sound.nvWrite (hkind : p.attributes.kind ≠ some .counter) {offset : ℕ} {bytes : Bytes}
    (hwrite : t.nvWrite i offset bytes = some t') : Rises t t' := by
  obtain ⟨data, data', hlive, -, rfl⟩ := h.nvWrite_eq hp hwrite
  have hset : Rises t (t.setLive i p.attributes.setWritten data') := h.setLive hlive rfl rfl fun hc => absurd hc hkind
  split_ifs with horderly hfirst
  · exact absurd hfirst.2 hkind
  · exact hset.trans hset.sound.clearOrderly
  · exact hset

end

/-- A counter counted to a value: no level is lower, and its own is the value. -/
structure CountedTo (t t' : Tpm) (i : ℕ) (a : Attributes) (value : ℕ) : Prop where
  rises : Rises t t'
  level : t'.level i = value
  live : t'.live i = some (a.setWritten, beBytes 8 value)

theorem countedTo_of_cells {value : ℕ} (htracks : Tracks t t')
    (hmax : t'.permanent.value.nvMaxCounter = t.permanent.value.nvMaxCounter)
    (hkind : a.kind = some .counter) (hvalue : value ≤ u64Max) (hhigher : t.level i ≤ value)
    (hsound : (t'.cell i).Sound t'.orderly) (hlive : (t'.cell i).live = some (a.setWritten, beBytes 8 value))
    (hothers : ∀ j, j ≠ i → (t'.cell j).Sound t'.orderly ∧ (t'.cell j).live = (t.cell j).live) :
    CountedTo t t' i a value := by
  have hlevel : t'.level i = value := by
    have hmarked : a.setWritten.kind = some .counter ∧ a.setWritten.written = true := ⟨hkind, rfl⟩
    rw [Tpm.level, Cell.level, hlive, levelOf, hmarked.1, hmarked.2]
    simpa using dataU64_beBytes hvalue
  refine ⟨⟨htracks, fun j => ?_, fun j => ?_⟩, hlevel, hlive⟩
  · by_cases hj : j = i
    · exact hj ▸ hsound
    · exact (hothers j hj).1
  · by_cases hj : j = i
    · rw [hj, hlevel]
      exact hhigher
    · rw [Tpm.level, Tpm.level, Cell.level, Cell.level, hmax, (hothers j hj).2]

theorem CountedTo.nvU64_eq {value : ℕ} (h : CountedTo t t' i a value)
    (hvalue : value ≤ u64Max) : t'.nvU64 i = value := by
  rw [nvU64, nvData_of_live h.live, elim_some, dataU64_beBytes hvalue]

theorem CountedTo.stored {value : ℕ} (h : CountedTo t t' i a value) : CountedTo t t'.nvStoreOrderly i a value := by
  obtain ⟨hcell, hmax, -, -⟩ := t'.nvStoreOrderly_frame
  have hsame := ((h.rises.sound i).store t'.orderly).2
  refine ⟨h.rises.trans h.rises.sound.nvStoreOrderly, ?_, ?_⟩
  · rw [Tpm.level, Cell.level, hcell, hmax, hsame]
    exact h.level
  · rw [live_eq, hcell, hsame]
    exact h.live

section Counter

variable {e : NvIndex} {a : Attributes} {data : Bytes} {value : ℕ}

theorem sound_store_set {c : Cell} (he : c.entry = some e) (hattr : e.pub.attributes.orderly = true)
    (horderly : a.orderly = true) (hsize : data.length = 8) (orderly : Bool) :
    (c.set a data).store.Sound orderly ∧ (c.set a data).store.live = some (a, data) := by
  have hset : c.set a data = ⟨some e, some ⟨a, data⟩⟩ := by rw [Cell.set, he, any_some, if_pos hattr]
  rw [hset]
  refine ⟨sound_stored horderly fun _ => hsize, ?_⟩
  have hstored : (storeRam e (some ⟨a, data⟩)).pub.attributes.orderly = true := horderly
  simp [Cell.live, Cell.store, hstored]

/-- A count past what the RAM may hold is stored. -/
theorem Sound.countStored (h : t.Sound) (he : t.nvEntry i = some e)
    (hattr : e.pub.attributes.orderly = true) (horderly : a.orderly = true)
    (hkind : a.kind = some .counter) (hvalue : value ≤ u64Max) (hhigher : t.level i ≤ value) :
    CountedTo t (t.setLive i a.setWritten (beBytes 8 value)).clearOrderly.nvStoreOrderly i a value := by
  obtain ⟨hcell, hmax, -, htracks⟩ := t.setLive_frame i a.setWritten (beBytes 8 value)
  obtain ⟨hcell₂, hmax₂, -, htracks₂⟩ := (t.setLive i a.setWritten (beBytes 8 value)).clearOrderly_frame
  obtain ⟨hcell₃, hmax₃, -, htracks₃⟩ := (t.setLive i a.setWritten (beBytes 8 value)).clearOrderly.nvStoreOrderly_frame
  have hheld : (t.cell i).entry = some e := he
  have hstored := sound_store_set hheld hattr (show a.setWritten.orderly = true from horderly) (length_beBytes 8 value)
  refine countedTo_of_cells ((htracks.trans htracks₂).trans htracks₃) (hmax₃.trans (hmax₂.trans hmax))
    hkind hvalue hhigher ?_ ?_ ?_
  · rw [hcell₃, hcell₂, hcell, if_pos rfl]
    exact (hstored _).1
  · rw [hcell₃, hcell₂, hcell, if_pos rfl]
    exact (hstored false).2
  · intro j hj
    rw [hcell₃, hcell₂, hcell, if_neg hj]
    exact (h j).store _

theorem sound_counted {c : Cell} {data' : Bytes} {orderly : Bool} (h : c.Sound orderly)
    (he : c.entry = some e) (hattr : e.pub.attributes.orderly = true) (hlive : c.live = some (a, data))
    (hwritten : a.written = true) (hsize : data'.length = 8) (hnext : dataU64 data' = dataU64 data + 1)
    (hwithin : dataU64 data' % 256 ≠ 0) : (c.set a.setWritten data').Sound false := by
  obtain ⟨entry, ram⟩ := c
  obtain rfl : entry = some e := he
  have hram := h.2
  rw [if_pos hattr] at hram
  obtain ⟨r, rfl, hr⟩ := hram
  have hsame : (r.attributes, r.data) = (a, data) := by simpa [Cell.live, hattr] using hlive
  obtain ⟨rfl, rfl⟩ := Prod.mk.inj hsame
  rw [Cell.set, any_some, if_pos hattr]
  refine ⟨h.1, ?_⟩
  rw [if_pos hattr]
  refine ⟨_, rfl, hr.isOrderly, hr.kind, fun _ => hsize, fun hc => ?_, fun hc hw => ?_⟩
  · exact hwritten.symm.trans (hr.written hc)
  · obtain ⟨hle, hend, -⟩ := hr.value hc hw
    refine ⟨?_, ?_, by rintro ⟨⟩⟩
    · change _ ≤ dataU64 data'
      omega
    · change dataU64 data' ≤ _
      omega

/-- A count within the RAM's range is only in the RAM. -/
theorem Sound.countWithin (h : t.Sound) (he : t.nvEntry i = some e)
    (hattr : e.pub.attributes.orderly = true) (horderly : a.orderly = true)
    (hlive : t.live i = some (a, data)) (hkind : a.kind = some .counter) (hwritten : a.written = true)
    (hroom : dataU64 data < u64Max) (hlevel : t.level i = dataU64 data) (hwithin : (dataU64 data + 1) % 256 ≠ 0) :
    CountedTo t (t.setLive i a.setWritten (beBytes 8 (dataU64 data + 1))).clearOrderly i a (dataU64 data + 1) := by
  obtain ⟨hcell, hmax, -, htracks⟩ := t.setLive_frame i a.setWritten (beBytes 8 (dataU64 data + 1))
  obtain ⟨hcell₂, hmax₂, hvoid, htracks₂⟩ :=
    (t.setLive i a.setWritten (beBytes 8 (dataU64 data + 1))).clearOrderly_frame
  have hheld : (t.cell i).entry = some e := he
  have hvalue : dataU64 (beBytes 8 (dataU64 data + 1)) = dataU64 data + 1 := dataU64_beBytes hroom
  refine countedTo_of_cells (htracks.trans htracks₂) (hmax₂.trans hmax) hkind hroom (by omega) ?_ ?_ ?_
  · have hinside : dataU64 (beBytes 8 (dataU64 data + 1)) % 256 ≠ 0 := by
      rw [hvalue]
      exact hwithin
    rw [hcell₂, hcell, if_pos rfl, hvoid]
    exact sound_counted (h i) hheld hattr hlive hwritten (length_beBytes 8 _) hvalue hinside
  · rw [hcell₂, hcell, if_pos rfl]
    exact live_set hheld (horderly.trans hattr.symm)
  · intro j hj
    rw [hcell₂, hcell, if_neg hj, hvoid]
    exact ⟨(h j).voided, rfl⟩

theorem Sound.countPlain (h : t.Sound) (he : t.nvEntry i = some e)
    (hattr : e.pub.attributes.orderly = false) (hplain : a.orderly = false)
    (hkind : a.kind = some .counter) (hvalue : value ≤ u64Max) (hhigher : t.level i ≤ value) :
    CountedTo t (t.setLive i a.setWritten (beBytes 8 value)) i a value := by
  obtain ⟨hcell, hmax, hsame, htracks⟩ := t.setLive_frame i a.setWritten (beBytes 8 value)
  have hheld : (t.cell i).entry = some e := he
  refine countedTo_of_cells htracks hmax hkind hvalue hhigher ?_ ?_ ?_
  · have hram : t.volatile.nvOrderly.lookup i = none := by
      have hsound := h i
      unfold cell at hsound
      rw [he] at hsound
      have hram := hsound.2
      rwa [hattr, if_neg Bool.false_ne_true] at hram
    rw [hcell, if_pos rfl]
    unfold Cell.set cell
    rw [he, hram, any_some, hattr, if_neg Bool.false_ne_true]
    exact sound_plain hplain fun _ => length_beBytes 8 value
  · rw [hcell, if_pos rfl]
    exact live_set hheld (hplain.trans hattr.symm)
  · intro j hj
    rw [hcell, if_neg hj, hsame]
    exact ⟨h j, rfl⟩

end Counter

/-- What an increment leaves: the copies stored where it crosses a boundary. -/
def counting (t : Tpm) (p : NvPublic) (value : ℕ) : Tpm :=
  if p.attributes.orderly && value &&& maxOrderlyCount = 0 then t.nvStoreOrderly else t

/-- Counting sets the counter to the next value, stored where it must be. -/
theorem Sound.count (h : t.Sound) (hp : t.nvPublic i = some p) (hkind : p.attributes.kind = some .counter)
    (hroom : t.level i < u64Max) (hwrite : t.nvWrite i 0 (beBytes 8 (t.level i + 1)) = some t') :
    CountedTo t (t'.counting p (t.level i + 1)) i p.attributes (t.level i + 1) := by
  obtain ⟨e, data, he, hlive, hdata, hkind', horderly', hsize⟩ := h.live_of_public hp
  obtain ⟨data₁, data', hlive₁, hover, rfl⟩ := h.nvWrite_eq hp hwrite
  obtain ⟨-, rfl⟩ := Prod.mk.inj (some.inj (hlive.symm.trans hlive₁))
  have hlen : data.length = (beBytes 8 (t.level i + 1)).length := by rw [hsize hkind, length_beBytes]
  obtain rfl := some.inj ((overwrite_all hlen).symm.trans (hover hkind))
  unfold counting
  rw [and_maxOrderlyCount]
  cases hattr : p.attributes.orderly with
  | false => simpa using h.countPlain he (horderly' ▸ hattr) hattr hkind hroom (Nat.le_succ _)
  | true =>
    have hentry : e.pub.attributes.orderly = true := horderly' ▸ hattr
    have hstored := h.countStored he hentry hattr hkind hroom (Nat.le_succ _)
    rw [if_pos rfl, Bool.true_and]
    split_ifs with hboundary hfirst hfirst
    · exact hstored.stored
    · exact hstored
    · exact hstored
    · have hwritten : p.attributes.written = true := by
        by_contra hw
        exact hfirst ⟨by simpa using hw, hkind⟩
      have hlevel : t.level i = dataU64 data := by
        rw [← h.counted hp hkind, Tpm.counted, if_pos hwritten, nvU64, hdata, elim_some]
      rw [hlevel] at hroom hboundary ⊢
      exact h.countWithin he hentry hattr hlive hkind hwritten hroom hlevel (by simpa using hboundary)

end Tpm

end Virtkit.Nv
