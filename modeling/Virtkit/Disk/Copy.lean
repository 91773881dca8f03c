import Virtkit.Disk.Extents
import Virtkit.Disk.WriterSteps

/-!
# Copying into an image

A region of a source is copied into a writer in whole blocks, those that are all zero left out. A raw
image is imported, and a chain flattened, by copying the regions that may hold data.
-/

namespace Virtkit.Disk

open Virtkit.Common List

/-- The most bytes read at a time. -/
def bufferSize : ℕ := 1048576

namespace Qcow2Writer

/-- Write the blocks of a buffer that are not all zero. -/
def writeBuffer (w : Qcow2Writer) (pos : ℕ) (buf : Bytes) : Except Error Qcow2Writer :=
  loopPieces (fun _ m => min cs m) (fun w p m =>
      let block := (buf.drop (p - pos)).take m
      if block.any (· ≠ 0) then w.writeAt p block else .ok w) buf.length w pos buf.length

/-- Copy a region of a source of some size, in whole blocks. -/
def copyRegion (read : ℕ → ℕ → Except Error Bytes) (size : ℕ) (w : Qcow2Writer) (e : Extent) :
    Except Error Qcow2Writer :=
  let start := e.1 - e.1 % cs
  let stop := min (divCeil (e.1 + e.2) cs * cs) size
  loopPieces (fun _ m => min m bufferSize) (fun w pos m => read pos m >>= fun buf => w.writeBuffer pos buf)
    (stop - start) w start (stop - start)

/-- Copy a raw image in, no larger than this one. -/
def importRaw (w : Qcow2Writer) (raw : SparseFile) : Except Error Qcow2Writer :=
  if w.virtualSize < raw.file.len then .error (.rawTooLarge raw.file.len w.virtualSize)
  else
    raw.rawDataExtents.foldlM (copyRegion (fun pos n => .ok (raw.file.readOrZero pos n)) w.virtualSize) w

end Qcow2Writer

namespace Qcow2

def flattenInto (q : Qcow2) (w : Qcow2Writer) : Except Error Qcow2Writer := do
  let regions ← q.chainDataExtents
  regions.foldlM (Qcow2Writer.copyRegion q.readAt q.layer.virtualSize) w

/-- Write a region of a chain into a raw file, buffers that are all zero left out. -/
def flattenRegion (q : Qcow2) (out : File) (e : Extent) : Except Error File :=
  let stop := min (e.1 + e.2) q.layer.virtualSize
  loopPieces (fun _ m => min m bufferSize) (fun out pos m => q.readAt pos m >>= fun buf =>
      .ok (if buf.any (· ≠ 0) then out.write pos buf else out)) (stop - e.1) out e.1 (stop - e.1)

def flattenToRaw (q : Qcow2) : Except Error File := do
  let regions ← q.chainDataExtents
  regions.foldlM q.flattenRegion (File.empty.setLen q.layer.virtualSize)

end Qcow2

namespace Qcow2Writer

variable {w : Qcow2Writer} {f : ℕ → UInt8} {size pos n i : ℕ}

/-- Whether a source's block has a byte that is not zero. -/
def BlockHolds (f : ℕ → UInt8) (size k : ℕ) : Prop := ∃ j, j / cs = k ∧ j < size ∧ f j ≠ 0

/-- A block is written if it holds a byte that is not zero. -/
theorem any_block_iff (hpos : pos % cs = 0) (hn : n = cs ∨ pos + n = size) (hle : n ≤ cs) (hsize : pos + n ≤ size) :
    ((List.range n).map fun i => f (pos + i)).any (· ≠ 0) = true ↔ BlockHolds f size (pos / cs) := by
  rw [any_map, any_eq_true]
  constructor
  · rintro ⟨i, hi, hne⟩
    have hi := mem_range.mp hi
    refine ⟨pos + i, (same_cluster (by omega)).1, by omega, by simpa using hne⟩
  · rintro ⟨j, hj, hjsize, hne⟩
    obtain ⟨hsplit, hlt⟩ := split_cs j
    have hpos' := (split_cs pos).1
    rw [hj] at hsplit
    refine ⟨j - pos, mem_range.mpr (by omega), ?_⟩
    have hback : pos + (j - pos) = j := by omega
    simpa [hback] using hne

/-- The blocks of a source in a range that are not all zero were copied, and nothing else changed. -/
def Copied (f : ℕ → UInt8) (size start stop : ℕ) (old new : ℕ → UInt8) : Prop :=
  ∀ i, (start ≤ i ∧ i < stop ∧ BlockHolds f size (i / cs) → new i = f i) ∧
    (¬(start ≤ i ∧ i < stop ∧ BlockHolds f size (i / cs)) → new i = old i)

theorem Copied.refl (f : ℕ → UInt8) (size start : ℕ) (old : ℕ → UInt8) :
    Copied f size start start old old := fun _ => ⟨fun h => by omega, fun _ => rfl⟩

theorem Copied.trans {start mid stop : ℕ} {old between new : ℕ → UInt8} (hmid : start ≤ mid)
    (hstop : mid ≤ stop) (h : Copied f size start mid old between)
    (h' : Copied f size mid stop between new) : Copied f size start stop old new := by
  intro i
  by_cases hi : mid ≤ i ∧ i < stop ∧ BlockHolds f size (i / cs)
  · exact ⟨fun _ => (h' i).1 hi, fun hnot => absurd ⟨hmid.trans hi.1, hi.2⟩ hnot⟩
  · rw [(h' i).2 hi]
    refine ⟨fun hin => (h i).1 ⟨hin.1, ?_, hin.2.2⟩, fun hnot => (h i).2 fun hin => hnot ?_⟩
    · by_contra hge
      exact hi ⟨by omega, hin.2⟩
    · exact ⟨hin.1, by omega, hin.2.2⟩

/-- A block is copied, or left if it is all zero. -/
theorem Sound.writeBlock (h : w.Sound) (hpos : pos % cs = 0) (hn : n = cs ∨ pos + n = size) (hle : n ≤ cs)
    (hsize : pos + n ≤ size) (hfits : size ≤ w.virtualSize) :
    ∃ w', (if ((List.range n).map fun i => f (pos + i)).any (· ≠ 0) then
        w.writeAt pos ((List.range n).map fun i => f (pos + i)) else .ok w) = .ok w' ∧ w'.Sound ∧
      w'.virtualSize = w.virtualSize ∧ Copied f size pos (pos + n) w.content w'.content := by
  have hlen : ((List.range n).map fun i => f (pos + i)).length = n := by rw [length_map, length_range]
  have hblock : ∀ i, pos ≤ i → i < pos + n → i / cs = pos / cs := by
    intro i hi hlt
    have hsame := @same_cluster pos (i - pos) (by omega)
    rw [Nat.add_sub_cancel' hi] at hsame
    exact hsame.1
  split_ifs with hany
  · obtain ⟨w', hw', hsound, hvirtual, hcontent⟩ :=
      @Sound.writeAt w h pos ((List.range n).map fun i => f (pos + i)) (by rw [hlen]; omega)
    refine ⟨w', hw', hsound, hvirtual, fun i => ⟨fun hin => ?_, fun hnot => ?_⟩⟩
    · rw [hcontent, hlen, if_pos ⟨hin.1, hin.2.1⟩, getD_eq_getElem?_getD, getElem?_map,
        getElem?_range (by omega), Option.map_some, Option.getD_some, Nat.add_sub_cancel' hin.1]
    · rw [hcontent, hlen, if_neg]
      rintro ⟨hle, hlt⟩
      refine hnot ⟨hle, hlt, ?_⟩
      rw [hblock i hle hlt]
      exact (any_block_iff hpos hn ‹n ≤ cs› hsize).mp hany
  · refine ⟨w, rfl, h, rfl, fun i => ⟨fun hin => ?_, fun _ => rfl⟩⟩
    have hholds := hin.2.2
    rw [hblock i hin.1 hin.2.1] at hholds
    exact absurd ((any_block_iff hpos hn hle hsize).mpr hholds) hany

theorem Sound.writeBuffer (h : w.Sound) (hpos : pos % cs = 0) (hn : (pos + n) % cs = 0 ∨ pos + n = size)
    (hsize : pos + n ≤ size) (hfits : size ≤ w.virtualSize) :
    ∃ w', w.writeBuffer pos ((List.range n).map fun i => f (pos + i)) = .ok w' ∧ w'.Sound ∧
      w'.virtualSize = w.virtualSize ∧ Copied f size pos (pos + n) w.content w'.content := by
  have hlen : ((List.range n).map fun i => f (pos + i)).length = n := by rw [length_map, length_range]
  unfold Qcow2Writer.writeBuffer
  rw [hlen]
  obtain ⟨w', hw', -, hsound, hvirtual, hcopied⟩ := @loopPieces_spec Error Qcow2Writer (fun _ m => min cs m)
    (fun w p m => let block := (((List.range n).map fun i => f (pos + i)).drop (p - pos)).take m
      if block.any (· ≠ 0) then w.writeAt p block else .ok w) (pos + n)
    (fun p w' => (pos ≤ p ∧ (p % cs = 0 ∨ p = pos + n)) ∧ w'.Sound ∧ w'.virtualSize = w.virtualSize ∧
      Copied f size pos p w.content w'.content)
    (fun p m hm _ => by have := cs_pos; omega)
    (by
      intro p m w₁ hm hstop ⟨⟨hle, hp⟩, hsound, hvirtual, hcopied⟩
      have hp : p % cs = 0 := by omega
      have hblock : (((List.range n).map fun i => f (pos + i)).drop (p - pos)).take (min cs m) =
          (List.range (min cs m)).map fun i => f (p + i) := by
        rw [take_drop_map_range (by omega)]
        refine map_congr_left fun i _ => ?_
        congr 1
        omega
      have hend : min cs m = cs ∨ p + min cs m = size := by
        by_cases hlast : m < cs
        · refine .inr ?_
          have hmod := (@same_cluster p m (by omega)).2
          rw [Nat.min_eq_right hlast.le, hstop]
          exact hn.resolve_left fun hzero => by rw [← hstop, hmod] at hzero; omega
        · exact .inl (Nat.min_eq_left (by omega))
      obtain ⟨w₂, hw₂, hsound₂, hvirtual₂, hcopied₂⟩ := @Sound.writeBlock w₁ f size p (min cs m) hsound hp
        hend (by omega) (by omega) (by omega)
      refine ⟨w₂, ?_, ⟨by omega, ?_⟩, hsound₂, hvirtual₂.trans hvirtual, hcopied.trans hle (by omega) hcopied₂⟩
      · dsimp only
        rw [hblock]
        exact hw₂
      · by_cases hlast : m < cs
        · right
          rw [Nat.min_eq_right hlast.le, hstop]
        · left
          rw [Nat.min_eq_left (by omega), Nat.add_mod_right, hp])
    n w pos n (le_refl n) rfl ⟨⟨le_refl pos, .inl hpos⟩, h, rfl, .refl f size pos w.content⟩
  exact ⟨w', hw', hsound, hvirtual, hcopied⟩

/-- The blocks that an extent touches are copied. -/
theorem Sound.copyRegion (h : w.Sound) {read : ℕ → ℕ → Except Error Bytes}
    (hread : ∀ pos n, pos + n ≤ size → read pos n = .ok ((List.range n).map fun i => f (pos + i)))
    (hfits : size ≤ w.virtualSize) (e : Extent) :
    ∃ w', w.copyRegion read size e = .ok w' ∧ w'.Sound ∧ w'.virtualSize = w.virtualSize ∧
      Copied f size (e.1 - e.1 % cs) (min (divCeil (e.1 + e.2) cs * cs) size) w.content w'.content := by
  have hstart : (e.1 - e.1 % cs) % cs = 0 := by
    rw [← Nat.div_mul_self_eq_mod_sub_self]
    exact Nat.mul_mod_left _ _
  have hstop : min (divCeil (e.1 + e.2) cs * cs) size % cs = 0 ∨ min (divCeil (e.1 + e.2) cs * cs) size = size := by
    rcases Nat.le_total (divCeil (e.1 + e.2) cs * cs) size with hle | hle
    · left
      rw [Nat.min_eq_left hle]
      exact Nat.mul_mod_left _ _
    · exact .inr (Nat.min_eq_right hle)
  have hbuffer : bufferSize = 16 * cs := by simp only [bufferSize, cs]
  have hsize : min (divCeil (e.1 + e.2) cs * cs) size ≤ size := Nat.min_le_right _ _
  unfold Qcow2Writer.copyRegion
  generalize e.1 - e.1 % cs = start at hstart ⊢
  generalize min (divCeil (e.1 + e.2) cs * cs) size = stop at hstop hsize ⊢
  rcases Nat.le_total stop start with hempty | hle
  · refine ⟨w, ?_, h, rfl, fun i => ⟨fun hin => by omega, fun _ => rfl⟩⟩
    dsimp only
    rw [Nat.sub_eq_zero_of_le hempty]
    rfl
  · obtain ⟨w', hw', -, hsound, hvirtual, hcopied⟩ := @loopPieces_spec Error Qcow2Writer
      (fun _ m => min m bufferSize)
      (fun w pos m => read pos m >>= fun buf => w.writeBuffer pos buf) stop
      (fun p w' => (start ≤ p ∧ (p % cs = 0 ∨ p = stop)) ∧ w'.Sound ∧ w'.virtualSize = w.virtualSize ∧
        Copied f size start p w.content w'.content)
      (fun p m hm _ => by have := cs_pos; omega)
      (by
        rintro p m w₁ hm hstop' ⟨⟨hfrom, hp⟩, hsound, hvirtual, hcopied⟩
        have hp : p % cs = 0 := by omega
        have hend : (p + min m bufferSize) % cs = 0 ∨ p + min m bufferSize = stop := by
          rcases Nat.le_total m bufferSize with hlast | hfull
          · exact .inr (by omega)
          · left
            rw [Nat.min_eq_right hfull, hbuffer, Nat.add_mul_mod_self_right, hp]
        have hend' : (p + min m bufferSize) % cs = 0 ∨ p + min m bufferSize = size := by
          rcases hend with hend | hend
          · exact .inl hend
          · rw [hend]
            exact hstop
        obtain ⟨w₂, hw₂, hsound₂, hvirtual₂, hcopied₂⟩ :=
          @Sound.writeBuffer w₁ f size p (min m bufferSize) hsound hp hend' (by omega) (by omega)
        exact ⟨w₂, bind_eq_ok.mpr ⟨_, hread p _ (by omega), hw₂⟩, ⟨by omega, hend⟩, hsound₂,
          hvirtual₂.trans hvirtual, hcopied.trans hfrom (by omega) hcopied₂⟩)
      (stop - start) w start (stop - start) (le_refl _) (by omega)
      ⟨⟨le_refl _, .inl hstart⟩, h, rfl, .refl f size start w.content⟩
    exact ⟨w', hw', hsound, hvirtual, hcopied⟩

theorem touched_bounds {e : Extent} {j : ℕ} (hle : e.1 ≤ j) (hlt : j < e.1 + e.2) (hblock : j / cs = i / cs)
    (hi : i < size) : e.1 - e.1 % cs ≤ i ∧ i < min (divCeil (e.1 + e.2) cs * cs) size := by
  obtain ⟨hsplit, hmod⟩ := split_cs i
  obtain ⟨hsplit', -⟩ := split_cs e.1
  have hfirst : e.1 / cs * cs ≤ i / cs * cs := Nat.mul_le_mul_right cs (hblock ▸ Nat.div_le_div_right hle)
  have hlast : (i / cs + 1) * cs ≤ divCeil (e.1 + e.2) cs * cs := by
    refine Nat.mul_le_mul_right cs ((Nat.le_div_iff_mul_le cs_pos).mpr ?_)
    have hj := Nat.div_mul_le_self j cs
    rw [hblock] at hj
    rw [Nat.add_mul, Nat.one_mul]
    omega
  rw [Nat.add_mul, Nat.one_mul] at hlast
  omega

/-- Regions are copied one after the other: a block that is not all zero was copied once a region
touches it, and what was not copied is as before. -/
theorem Sound.copyRegions (h : w.Sound) {read : ℕ → ℕ → Except Error Bytes}
    (hread : ∀ pos n, pos + n ≤ size → read pos n = .ok ((List.range n).map fun i => f (pos + i)))
    (hfits : size ≤ w.virtualSize) (regions : List Extent) :
    ∃ w', regions.foldlM (Qcow2Writer.copyRegion read size) w = .ok w' ∧ w'.Sound ∧
      w'.virtualSize = w.virtualSize ∧ ∀ i < size,
        (∀ j, Covers regions j → j / cs = i / cs → BlockHolds f size (i / cs) → w'.content i = f i) ∧
        (w'.content i = w.content i ∨ w'.content i = f i ∧ BlockHolds f size (i / cs)) := by
  obtain ⟨w', hw', hsound, hvirtual, hcontent⟩ := @foldlM_spec Error Qcow2Writer Extent
    (Qcow2Writer.copyRegion read size)
    (fun done w' => w'.Sound ∧ w'.virtualSize = w.virtualSize ∧ ∀ i < size,
      (∀ j, Covers done j → j / cs = i / cs → BlockHolds f size (i / cs) → w'.content i = f i) ∧
      (w'.content i = w.content i ∨ w'.content i = f i ∧ BlockHolds f size (i / cs)))
    (by
      intro done e w₁ ⟨hsound, hvirtual, hcontent⟩
      obtain ⟨w₂, hw₂, hsound₂, hvirtual₂, hcopied⟩ := hsound.copyRegion hread (by omega) e
      refine ⟨w₂, hw₂, hsound₂, hvirtual₂.trans hvirtual, fun i hi => ?_⟩
      obtain ⟨hdone, hor⟩ := hcontent i hi
      by_cases hin : e.1 - e.1 % cs ≤ i ∧ i < min (divCeil (e.1 + e.2) cs * cs) size ∧ BlockHolds f size (i / cs)
      · have hnew := (hcopied i).1 hin
        exact ⟨fun _ _ _ _ => hnew, .inr ⟨hnew, hin.2.2⟩⟩
      · rw [(hcopied i).2 hin]
        refine ⟨fun j hcovers hblock hholds => ?_, hor⟩
        obtain ⟨e', he', hle, hlt⟩ := hcovers
        rcases mem_append.mp he' with he' | he'
        · exact hdone j ⟨e', he', hle, hlt⟩ hblock hholds
        · obtain rfl := mem_singleton.mp he'
          obtain ⟨hfirst, hlast⟩ := touched_bounds hle hlt hblock hi
          exact absurd ⟨hfirst, hlast, hholds⟩ hin)
    [] regions w ⟨h, rfl, fun i _ => ⟨fun j hcovers => (by obtain ⟨e, he, -⟩ := hcovers; exact nomatch he), .inl rfl⟩⟩
  exact ⟨w', hw', hsound, hvirtual, hcontent⟩

/-- An import copies the blocks of the raw image that hold something. -/
theorem Sound.importRaw (h : w.Sound) {raw : SparseFile} (hfits : raw.file.len ≤ w.virtualSize) :
    ∃ w', w.importRaw raw = .ok w' ∧ w'.Sound ∧ w'.virtualSize = w.virtualSize ∧ ∀ i < w.virtualSize,
        (BlockHolds raw.file.byte w.virtualSize (i / cs) → w'.content i = raw.file.byte i) ∧
        (¬ BlockHolds raw.file.byte w.virtualSize (i / cs) → w'.content i = w.content i) := by
  obtain ⟨w', hw', hsound, hvirtual, hcontent⟩ := h.copyRegions
    (fun pos n _ => congrArg Except.ok (raw.file.readOrZero_eq pos n)) (le_refl _) raw.rawDataExtents
  refine ⟨w', ?_, hsound, hvirtual, fun i hi => ⟨fun hholds => ?_, fun hnot => ?_⟩⟩
  · rw [Qcow2Writer.importRaw, if_neg (Nat.not_lt.mpr hfits)]
    exact hw'
  · obtain ⟨j, hblock, hj, hne⟩ := hholds
    have hcovers : Covers raw.rawDataExtents j := by
      by_contra hnot
      exact hne (raw.byte_of_not_covers hnot)
    exact (hcontent i hi).1 j hcovers hblock ⟨j, hblock, hj, hne⟩
  · exact (hcontent i hi).2.resolve_right fun h => hnot h.2

end Qcow2Writer

end Virtkit.Disk
