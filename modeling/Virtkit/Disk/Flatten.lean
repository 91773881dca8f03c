import Virtkit.Disk.Chain

/-!
# Flattening a chain

A chain is flattened by copying what is in its extents. As all else is zero, what comes out reads as the
chain does. Past the end of the disk, where a layer's last cluster goes on, a read returns what is stored
there, though no extent holds it.
-/

namespace Virtkit.Disk

open Virtkit.Common List

variable {q : Qcow2} {f : ℕ → UInt8} {extents : List Extent} {i : ℕ}

namespace Qcow2

/-- The layers of a chain, and what is below them, are of one size. -/
def SameSize (q : Qcow2) : Prop := q.backing.SameSize q.layer.virtualSize

def byte (q : Qcow2) : ℕ → Except Error UInt8 := (Backing.qcow2 q.layer q.backing).byte

theorem readAt_eq (q : Qcow2) (off n : ℕ) : q.readAt off n = (List.range n).mapM fun i => q.byte (off + i) :=
  (Backing.qcow2 q.layer q.backing).readAt_eq off n

theorem SameSize.byte_of_not_covers (h : q.SameSize) (hextents : q.chainDataExtents = .ok extents)
    (hi : i < q.layer.virtualSize) (hnot : ¬ Covers extents i) : q.byte i = .ok 0 :=
  Backing.byte_of_not_covers (b := .qcow2 q.layer q.backing) ⟨rfl, h⟩ hextents hi hnot

theorem byte_of_readAt {off n : ℕ} {bytes : Bytes} (h : q.readAt off n = .ok bytes) (hi : i < n) :
    q.byte (off + i) = .ok (bytes.getD i 0) := by
  rw [readAt_eq] at h
  obtain ⟨b, hb, hbyte⟩ := getElem?_of_mapM h (getElem?_range hi)
  rw [getD_eq_getElem?_getD, hb]
  exact hbyte

/-- Whether every range of the disk can be read. -/
def Readable (q : Qcow2) : Prop := ∀ off n, off + n ≤ q.layer.virtualSize → (q.readAt off n).isOk = true

/-- A readable image reads as one disk. -/
theorem Readable.exists_disk (h : q.Readable) : ∃ f : ℕ → UInt8, (∀ i < q.layer.virtualSize, q.byte i = .ok (f i)) ∧
      ∀ off n, off + n ≤ q.layer.virtualSize → q.readAt off n = .ok ((List.range n).map fun i => f (off + i)) := by
  have hbyte : ∀ i < q.layer.virtualSize, q.byte i = .ok ((q.byte i).toOption.getD 0) := by
    intro i hi
    have hread := h i 1 hi
    cases hok : q.readAt i 1 with
    | error e =>
      rw [hok] at hread
      nomatch hread
    | ok bytes =>
      have hat := byte_of_readAt hok Nat.one_pos
      rw [Nat.add_zero] at hat
      rw [hat]
      rfl
  refine ⟨fun i => (q.byte i).toOption.getD 0, hbyte, fun off n hin => ?_⟩
  rw [readAt_eq, ← mapM_ok]
  refine mapM_congr fun i hi => hbyte _ ?_
  have := mem_range.mp hi
  omega

/-- A raw file that a disk was flattened into as far as some extents go. -/
structure Flattened (f : ℕ → UInt8) (size : ℕ) (done : List Extent) (out : File) : Prop where
  len : out.len = size
  either : ∀ i < size, out.byte i = 0 ∨ out.byte i = f i
  covered : ∀ i < size, Covers done i → out.byte i = f i

/-- A buffer is written, or left as a hole if it is all zero. -/
theorem Flattened.write {size pos n : ℕ} {done : List Extent} {start : ℕ} {out : File}
    (h : Flattened f size (done ++ [(start, pos - start)]) out) (hstart : start ≤ pos)
    (hin : pos + n ≤ size) (hn : 0 < n) : Flattened f size (done ++ [(start, pos + n - start)])
      (if ((List.range n).map fun i => f (pos + i)).any (· ≠ 0) then
        out.write pos ((List.range n).map fun i => f (pos + i)) else out) := by
  have hlen : ((List.range n).map fun i => f (pos + i)).length = n := by rw [length_map, length_range]
  have hcover : ∀ i, Covers (done ++ [(start, pos + n - start)]) i →
      Covers (done ++ [(start, pos - start)]) i ∨ (pos ≤ i ∧ i < pos + n) := by
    rintro i ⟨e, he, hle, hlt⟩
    rcases mem_append.mp he with he | he
    · exact .inl ⟨e, mem_append_left _ he, hle, hlt⟩
    · obtain rfl := mem_singleton.mp he
      dsimp only at hle hlt
      by_cases hbefore : i < pos
      · exact .inl (covers_last hle (by dsimp only; omega))
      · exact .inr ⟨by omega, by omega⟩
  split_ifs with hany
  · have hbyte : ∀ i, (out.write pos ((List.range n).map fun i => f (pos + i))).byte i =
        if pos ≤ i ∧ i < pos + n then f i else out.byte i := by
      intro i
      rw [File.write, File.byte_writeFn, hlen]
      split_ifs with hat
      · rw [getD_eq_getElem?_getD, getElem?_map, getElem?_range (by omega),
          Option.map_some, Option.getD_some, Nat.add_sub_cancel' hat.1]
      · rfl
    refine ⟨?_, fun i hi => ?_, fun i hi hcovers => ?_⟩
    · rw [File.write, hlen, File.len_writeFn hn, h.len]
      omega
    · rw [hbyte]
      split_ifs
      · exact .inr rfl
      · exact h.either i hi
    · rw [hbyte]
      split_ifs with hat
      · rfl
      · exact h.covered i hi ((hcover i hcovers).resolve_right hat)
  · refine ⟨h.len, h.either, fun i hi hcovers => ?_⟩
    rcases hcover i hcovers with hcovers | ⟨hle, hlt⟩
    · exact h.covered i hi hcovers
    · have hzero : f i = 0 := by
        by_contra hne
        refine hany (any_eq_true.mpr ⟨f i, mem_map.mpr ⟨i - pos, ?_, ?_⟩, decide_eq_true hne⟩)
        · exact mem_range.mpr (by omega)
        · rw [Nat.add_sub_cancel' hle]
      rcases h.either i hi with heq | heq
      · rw [heq, hzero]
      · exact heq

/-- An extent is copied whole. -/
theorem Flattened.region {done : List Extent} {out : File} (hread : ∀ off n, off + n ≤ q.layer.virtualSize →
      q.readAt off n = .ok ((List.range n).map fun i => f (off + i)))
    (h : Flattened f q.layer.virtualSize done out) (e : Extent) :
    ∃ out', q.flattenRegion out e = .ok out' ∧ Flattened f q.layer.virtualSize (done ++ [e]) out' := by
  have hcover : ∀ i < q.layer.virtualSize, Covers (done ++ [e]) i →
      Covers (done ++ [(e.1, min (e.1 + e.2) q.layer.virtualSize - e.1)]) i := by
    rintro i hi ⟨x, hx, hle, hlt⟩
    rcases mem_append.mp hx with hx | hx
    · exact ⟨x, mem_append_left _ hx, hle, hlt⟩
    · obtain rfl := mem_singleton.mp hx
      exact covers_last hle (by dsimp only; omega)
  have hnone : Flattened f q.layer.virtualSize (done ++ [(e.1, e.1 - e.1)]) out := by
    refine ⟨h.len, h.either, fun i hi ⟨x, hx, hle, hlt⟩ => ?_⟩
    rcases mem_append.mp hx with hx | hx
    · exact h.covered i hi ⟨x, hx, hle, hlt⟩
    · obtain rfl := mem_singleton.mp hx
      dsimp only at hle hlt
      omega
  unfold flattenRegion
  have hstop : min (e.1 + e.2) q.layer.virtualSize ≤ q.layer.virtualSize := Nat.min_le_right _ _
  generalize min (e.1 + e.2) q.layer.virtualSize = stop at hcover hstop ⊢
  dsimp only
  by_cases hempty : stop ≤ e.1
  · rw [Nat.sub_eq_zero_of_le hempty] at hcover ⊢
    rw [Nat.sub_self] at hnone
    exact ⟨out, rfl, hnone.len, hnone.either, fun i hi hcovers => hnone.covered i hi (hcover i hi hcovers)⟩
  · obtain ⟨out', hout', -, hflat⟩ := @loopPieces_spec Error File (fun _ m => min m bufferSize)
      (fun out pos m => q.readAt pos m >>= fun buf => .ok (if buf.any (· ≠ 0) then out.write pos buf else out)) stop
      (fun pos out => e.1 ≤ pos ∧ Flattened f q.layer.virtualSize (done ++ [(e.1, pos - e.1)]) out)
      (fun pos m hm _ => by
        have : 0 < bufferSize := by decide
        omega)
      (by
        intro pos m out hm hstop' ⟨hle, hflat⟩
        have hbuffer : 0 < bufferSize := by decide
        refine ⟨_, bind_eq_ok.mpr ⟨_, hread pos (min m bufferSize) (by omega), rfl⟩, by omega, ?_⟩
        exact hflat.write hle (by omega) (by omega))
      (stop - e.1) out e.1 (stop - e.1) (le_refl _) (by omega) ⟨le_refl _, hnone⟩
    exact ⟨out', hout', hflat.len, hflat.either, fun i hi hcovers => hflat.covered i hi (hcover i hi hcovers)⟩

section

variable (h : q.SameSize) (hextents : q.chainDataExtents = .ok extents)
  (hbyte : ∀ i < q.layer.virtualSize, q.byte i = .ok (f i))
  (hread : ∀ off n, off + n ≤ q.layer.virtualSize → q.readAt off n = .ok ((List.range n).map fun i => f (off + i)))
include h hextents hbyte hread

/-- A raw file is the disk that the image reads as. -/
theorem SameSize.flattenToRaw : ∃ out, q.flattenToRaw = .ok out ∧ out.len = q.layer.virtualSize ∧
      ∀ i < q.layer.virtualSize, out.byte i = f i := by
  have hnew : Flattened f q.layer.virtualSize [] (File.empty.setLen q.layer.virtualSize) := by
    refine ⟨rfl, fun i hi => .inl ?_, fun i _ ⟨e, he, _⟩ => (nomatch he)⟩
    rw [File.byte_setLen, if_pos hi]
    rfl
  obtain ⟨out, hout, hflat⟩ := @foldlM_spec Error File Extent q.flattenRegion
    (Flattened f q.layer.virtualSize) (fun done e out hflat => hflat.region hread e) [] extents _ hnew
  refine ⟨out, bind_eq_ok.mpr ⟨extents, hextents, hout⟩, hflat.len, fun i hi => ?_⟩
  by_cases hcovers : Covers extents i
  · exact hflat.covered i hi hcovers
  · have hzero := Except.ok.inj ((hbyte i hi).symm.trans (h.byte_of_not_covers hextents hi hcovers))
    rcases hflat.either i hi with heq | heq
    · rw [heq, hzero]
    · exact heq

/-- An image written from another one holds its disk. -/
theorem SameSize.flattenInto {size : ℕ} (hsize : q.layer.virtualSize ≤ size) :
    ∃ w, q.flattenInto (Qcow2Writer.create size) = .ok w ∧ w.Sound ∧ w.virtualSize = size ∧
      ∀ i < q.layer.virtualSize, w.content i = f i := by
  have hcreate : (Qcow2Writer.create size).virtualSize = size := by simp only [Qcow2Writer.create]
  obtain ⟨w, hw, hsound, hvirtual, hcontent⟩ := (Qcow2Writer.sound_create size).copyRegions hread
    (hsize.trans_eq hcreate.symm) extents
  refine ⟨w, bind_eq_ok.mpr ⟨extents, hextents, hw⟩, hsound, hvirtual.trans hcreate, fun i hi => ?_⟩
  obtain ⟨hcopied, heither⟩ := hcontent i hi
  by_cases hholds : Qcow2Writer.BlockHolds f q.layer.virtualSize (i / Qcow2Writer.cs)
  · obtain ⟨j, hblock, hj, hne⟩ := hholds
    refine hcopied j ?_ hblock ⟨j, hblock, hj, hne⟩
    by_contra hnot
    exact hne (Except.ok.inj ((hbyte j hj).symm.trans (h.byte_of_not_covers hextents hj hnot)))
  · have hzero : f i = 0 := by
      by_contra hne
      exact hholds ⟨i, rfl, hi, hne⟩
    rcases heither with heq | ⟨heq, -⟩
    · rw [heq, Qcow2Writer.content_create, hzero]
    · exact heq

end

/-- A chain of data, zero and unallocated clusters, whose tables and chunks can be read. -/
def Intact (q : Qcow2) : Prop := (Backing.qcow2 q.layer q.backing).Intact

theorem Intact.readable (h : q.Intact) (hsame : q.SameSize) : q.Readable := by
  intro off n hin
  have hbyte : ∀ i ∈ List.range n, q.byte (off + i) = .ok ((q.byte (off + i)).toOption.getD 0) := by
    intro i hi
    have hi := mem_range.mp hi
    have hlt : off + i < q.layer.virtualSize := by omega
    obtain ⟨x, hx⟩ := Backing.Intact.byte (b := .qcow2 q.layer q.backing) h ⟨rfl, hsame⟩ hlt
    rw [show q.byte (off + i) = .ok x from hx]
    rfl
  rw [readAt_eq, mapM_congr hbyte, mapM_ok]
  rfl

/-- Outside the extents of a chain reads return zeros only, unless a layer stores another byte past the end
of the disk. -/
theorem SameSize.reads_zero_iff (hsame : q.SameSize) (hextents : q.chainDataExtents = .ok extents) :
    (∀ off n bytes, q.readAt off n = .ok bytes → ∀ i < n, ¬ Covers extents (off + i) → bytes.getD i 0 = 0) ↔
      ∀ i, q.layer.virtualSize ≤ i → ¬ Covers extents i → ¬ (Backing.qcow2 q.layer q.backing).Stray i := by
  constructor
  · intro hzero i _ hnot hstray
    obtain ⟨x, hx, hbyte⟩ := hstray.byte
    have hread : q.readAt i 1 = .ok [x] := by
      rw [readAt_eq]
      exact bind_eq_ok.mpr ⟨x, hbyte, rfl⟩
    exact hx (hzero i 1 [x] hread 0 Nat.one_pos hnot)
  · intro hclean off n bytes hread i hi hnot
    have hbyte := byte_of_readAt hread hi
    rcases Nat.lt_or_ge (off + i) q.layer.virtualSize with hin | hpast
    · exact Except.ok.inj (hbyte.symm.trans (hsame.byte_of_not_covers hextents hin hnot))
    · by_contra hx
      exact hclean _ hpast hnot (Backing.stray_of_byte (b := .qcow2 q.layer q.backing) ⟨rfl, hsame⟩ hpast hx hbyte)

/-- Flattening a chain loses nothing. Bytes of the disk outside its extents are zero, and past its end they
are if and only if no layer stores another byte there. Where the disk can be read, flattening succeeds and
what comes out reads as the chain does; a chain of data, zero and unallocated clusters has extents and can be
read. -/
theorem flatten_loses_nothing {q : Qcow2} (hsame : q.SameSize) : (∀ extents, q.chainDataExtents = .ok extents →
      (∀ off n bytes, q.readAt off n = .ok bytes → ∀ i < n, off + i < q.layer.virtualSize →
        ¬ Covers extents (off + i) → bytes.getD i 0 = 0) ∧
      ((∀ off n bytes, q.readAt off n = .ok bytes → ∀ i < n, ¬ Covers extents (off + i) → bytes.getD i 0 = 0) ↔
        ∀ i, q.layer.virtualSize ≤ i → ¬ Covers extents i → ¬ (Backing.qcow2 q.layer q.backing).Stray i) ∧
      (q.Readable → (∃ out, q.flattenToRaw = .ok out ∧ out.len = q.layer.virtualSize ∧
          ∀ off n, off + n ≤ q.layer.virtualSize → q.readAt off n = .ok (out.slice off n)) ∧
        ∀ size, q.layer.virtualSize ≤ size → ∃ w, q.flattenInto (Qcow2Writer.create size) = .ok w ∧
          ∀ off n, off + n ≤ q.layer.virtualSize → q.readAt off n = w.readAt off n)) ∧
    (q.Intact → q.Readable ∧ ∃ extents, q.chainDataExtents = .ok extents) := by
  refine ⟨fun extents hextents => ⟨fun off n bytes hread i hi hin hnot => ?_, hsame.reads_zero_iff hextents,
    fun hreadable => ?_⟩, fun hintact => ⟨hintact.readable hsame, hintact.dataExtents⟩⟩
  · have hbyte := byte_of_readAt hread hi
    exact Except.ok.inj (hbyte.symm.trans (hsame.byte_of_not_covers hextents hin hnot))
  · obtain ⟨f, hbyte, hread⟩ := hreadable.exists_disk
    obtain ⟨out, hout, hlen, hsame₁⟩ := hsame.flattenToRaw hextents hbyte hread
    refine ⟨⟨out, hout, hlen, fun off n hin => ?_⟩, fun size hsize => ?_⟩
    · rw [hread off n hin]
      refine congrArg Except.ok (map_congr_left fun i hi => (hsame₁ _ ?_).symm)
      have := mem_range.mp hi
      omega
    · obtain ⟨w, hw, hsound, hvirtual, hsame₂⟩ := hsame.flattenInto hextents hbyte hread hsize
      refine ⟨w, hw, fun off n hin => ?_⟩
      rw [hread off n hin, hsound.readAt (by omega)]
      refine congrArg Except.ok (map_congr_left fun i hi => (hsame₂ _ ?_).symm)
      have := mem_range.mp hi
      omega

/-- The file of a layer with one cluster of data, two bytes of which are not zero. -/
def oneCluster : File :=
  ((File.empty.setLen 1536).write 512 (beBytes 8 1024)).write 1024 [5, 7]

def oneByte : Qcow2 :=
  ⟨⟨oneCluster, 9, 1, fun i => if i = 0 then some 512 else none, by decide⟩, .none⟩

/-- A layer of one byte over nothing is flattened. -/
theorem flatten_loses_nothing_byte : oneByte.SameSize ∧
    ∃ out, oneByte.flattenToRaw = .ok out ∧ oneByte.readAt 0 1 = .ok (out.slice 0 1) ∧
      oneByte.readAt 0 1 = .ok [5] := by
  have hsame : oneByte.SameSize := trivial
  have hlocate : ∀ c < oneByte.layer.clusters, ∃ k, oneByte.layer.locate c = .ok k := by
    intro c hc
    obtain rfl : c = 0 := Nat.lt_one_iff.mp hc
    exact ⟨.data 1024, by decide +kernel⟩
  obtain ⟨hflatten, hintact⟩ := flatten_loses_nothing hsame
  obtain ⟨hreadable, extents, hextents⟩ := hintact ⟨hlocate, trivial⟩
  obtain ⟨⟨out, hout, -, hread⟩, -⟩ := (hflatten extents hextents).2.2 hreadable
  exact ⟨hsame, out, hout, hread 0 1 (le_refl 1), by decide +kernel⟩

/-- A read past the end of the disk returns what the last cluster stores there, outside all extents. -/
theorem read_past_end : oneByte.SameSize ∧ oneByte.layer.virtualSize = 1 ∧
    oneByte.chainDataExtents = .ok [(0, 1)] ∧ ¬ Covers [(0, 1)] 1 ∧ oneByte.readAt 1 1 = .ok [7] := by
  refine ⟨trivial, rfl, by decide +kernel, ?_, by decide +kernel⟩
  rintro ⟨e, he, hle, hlt⟩
  obtain rfl := mem_singleton.mp he
  omega

end Qcow2

end Virtkit.Disk
