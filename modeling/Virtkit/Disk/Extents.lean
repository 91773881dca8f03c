import Virtkit.Common.Least
import Virtkit.Disk.Image

/-!
# The extents of an image

The byte ranges of a chain that may hold data: a layer's own data clusters, the allocated ranges of a raw
backing, the chunks of a lazy view, merged down the chain.
-/

namespace Virtkit.Disk

open Virtkit.Common List Option

/-- A range: its offset and length. -/
abbrev Extent := ℕ × ℕ

/-- Whether a range holds an offset. -/
def Covers (extents : List Extent) (i : ℕ) : Prop := ∃ e ∈ extents, e.1 ≤ i ∧ i < e.1 + e.2

/-- The first position that passes a test, from one on over a length. -/
def firstFrom (p : ℕ → Bool) : ℕ → ℕ → Option ℕ
  | _, 0 => none
  | pos, n + 1 => if p pos then some pos else firstFrom p (pos + 1) n

namespace SparseFile

/-- The next data from a position on. -/
def seekData (f : SparseFile) (pos : ℕ) : Option ℕ := firstFrom f.allocated pos (f.file.len - pos)

/-- The next hole from a position on: at the file's end there is one. -/
def seekHole (f : SparseFile) (pos : ℕ) : ℕ :=
  (firstFrom (fun i => !f.allocated i) pos (f.file.len - pos)).getD f.file.len

def dataExtentsFrom (f : SparseFile) : ℕ → ℕ → List Extent
  | 0, _ => []
  | fuel + 1, pos =>
    if pos < f.file.len then
      match f.seekData pos with
      | none => []
      | some data => (data, f.seekHole data - data) :: dataExtentsFrom f fuel (f.seekHole data)
    else []

def rawDataExtents (f : SparseFile) : List Extent := f.dataExtentsFrom f.file.len 0

end SparseFile

/-- Join an extent to the last where it starts within it or at its end. -/
def mergeStep (out : List Extent) (e : Extent) : List Extent :=
  match out.getLast? with
  | some last =>
    if e.1 ≤ last.1 + last.2 then
      out.dropLast ++ [(last.1, max (last.1 + last.2) (e.1 + e.2) - last.1)]
    else out ++ [e]
  | none => out ++ [e]

/-- The order of extents: by offset, then by length. -/
def extentLe (a b : Extent) : Prop := a.1 < b.1 ∨ (a.1 = b.1 ∧ a.2 ≤ b.2)

instance : DecidableRel extentLe := fun _ _ => inferInstanceAs (Decidable (_ ∨ _))

/-- Sort and join extents. -/
def mergeExtents (extents : List Extent) : List Extent :=
  (extents.insertionSort extentLe).foldl mergeStep []

/-- Add the next extent of a layer's, joined to the last where they meet. -/
def pushExtent (out : List Extent) (start length : ℕ) : List Extent :=
  match out.getLast? with
  | some last =>
    if last.1 + last.2 = start then out.dropLast ++ [(last.1, last.2 + length)]
    else out ++ [(start, length)]
  | none => out ++ [(start, length)]

namespace Layer

def clusters (l : Layer) : ℕ := divCeil l.virtualSize l.clusterSize

/-- Add a cluster to the extents: those stored, and those marked as zeros. -/
def ownExtent (l : Layer) (out : List Extent × List Extent) (c : ℕ) :
    Except Error (List Extent × List Extent) := do
  let start := c * l.clusterSize
  let length := min l.clusterSize (l.virtualSize - start)
  match ← l.locate c with
  | .data _ => .ok (pushExtent out.1 start length, out.2)
  | .zero => .ok (out.1, pushExtent out.2 start length)
  | .unallocated => .ok out

/-- A layer's own extents: those it stores, and those it marks as zeros. -/
def ownExtents (l : Layer) : Except Error (List Extent × List Extent) :=
  (List.range l.clusters).foldlM l.ownExtent ([], [])

end Layer

/-- A lazy view's extents: its chunks. -/
def VkRoImg.chunkExtents (v : VkRoImg) : List Extent := v.chunks.map fun c => (c.offset, c.length)

/-- The data extents of a backing, down its chain. -/
def Backing.dataExtents : Backing → Except Error (List Extent)
  | .none => .ok []
  | .raw f => .ok f.rawDataExtents
  | .lazy v => .ok v.chunkExtents
  | .qcow2 layer backing => do
    let own ← layer.ownExtents
    let below ← backing.dataExtents
    .ok (mergeExtents (own.1 ++ below))

/-- The data extents of an image, down its chain. -/
def Qcow2.chainDataExtents (q : Qcow2) : Except Error (List Extent) :=
  (Backing.qcow2 q.layer q.backing).dataExtents

section Covering

variable {p : ℕ → Bool} {pos n d i : ℕ}

/-- The first place that holds, with none before it. -/
theorem firstFrom_some (h : firstFrom p pos n = some d) :
    pos ≤ d ∧ d < pos + n ∧ p d = true ∧ ∀ j, pos ≤ j → j < d → p j = false := by
  induction n generalizing pos with
  | zero => exact nomatch h
  | succ n ih =>
    rw [firstFrom] at h
    split_ifs at h with hpos
    · cases h
      exact ⟨le_refl _, by omega, hpos, fun j hj hlt => by omega⟩
    · obtain ⟨hle, hlt, hd, hnone⟩ := ih h
      refine ⟨by omega, by omega, hd, fun j hj hjd => ?_⟩
      rcases Nat.eq_or_lt_of_le hj with rfl | hj
      · simpa using hpos
      · exact hnone j hj hjd

theorem firstFrom_none (h : firstFrom p pos n = none) (hle : pos ≤ i) (hlt : i < pos + n) : p i = false := by
  induction n generalizing pos with
  | zero => omega
  | succ n ih =>
    rw [firstFrom] at h
    split_ifs at h with hpos
    rcases Nat.eq_or_lt_of_le hle with rfl | hle
    · simpa using hpos
    · exact ih h hle (by omega)

theorem SparseFile.seekHole_spec (f : SparseFile) (hd : d < f.file.len) (halloc : f.allocated d = true) :
    d < f.seekHole d ∧ f.seekHole d ≤ f.file.len := by
  unfold seekHole
  cases hhole : firstFrom (fun i => !f.allocated i) d (f.file.len - d) with
  | none => exact ⟨hd, le_refl _⟩
  | some e =>
    obtain ⟨hle, hlt, he, -⟩ := firstFrom_some hhole
    rw [getD_some]
    refine ⟨?_, by omega⟩
    rcases Nat.eq_or_lt_of_le hle with rfl | hlt
    · rw [halloc] at he
      nomatch he
    · exact hlt

/-- Extents cover all that is allocated. -/
theorem SparseFile.covers_dataExtentsFrom (f : SparseFile) {fuel : ℕ} (hfuel : f.file.len - pos ≤ fuel)
    (hle : pos ≤ i) (hlt : i < f.file.len) (halloc : f.allocated i = true) : Covers (f.dataExtentsFrom fuel pos) i := by
  induction fuel generalizing pos with
  | zero => omega
  | succ fuel ih =>
    rw [dataExtentsFrom, if_pos (by omega)]
    cases hdata : f.seekData pos with
    | none =>
      have hfree := firstFrom_none hdata hle (by omega)
      nomatch halloc.symm.trans hfree
    | some d =>
      obtain ⟨hpd, hdlt, hd, hfree⟩ := firstFrom_some hdata
      obtain ⟨hhole, hend⟩ := f.seekHole_spec (by omega) hd
      have hdi : d ≤ i := by
        by_contra hnot
        nomatch halloc.symm.trans (hfree i hle (by omega))
      by_cases hin : i < f.seekHole d
      · exact ⟨_, mem_cons_self, hdi, by dsimp only; omega⟩
      · have hrest : Covers (f.dataExtentsFrom fuel (f.seekHole d)) i := ih (by omega) (by omega)
        obtain ⟨e, he, hcovers⟩ := hrest
        exact ⟨e, mem_cons_of_mem _ he, hcovers⟩

/-- What no extent covers is zero. -/
theorem SparseFile.byte_of_not_covers (f : SparseFile) (h : ¬ Covers f.rawDataExtents i) : f.file.byte i = 0 := by
  by_cases hlt : i < f.file.len
  · refine f.hole i ?_
    by_contra halloc
    exact h (f.covers_dataExtentsFrom (by omega) (Nat.zero_le i) hlt (by simpa using halloc))
  · exact f.file.zero_past i (by omega)

variable {out : List Extent}

theorem covers_replaceLast {last new : Extent} (hlast : out.getLast? = some last)
    (hnew : last.1 ≤ i → i < last.1 + last.2 → new.1 ≤ i ∧ i < new.1 + new.2) (h : Covers out i) :
    Covers (out.dropLast ++ [new]) i := by
  obtain ⟨init, rfl⟩ := getLast?_eq_some_iff.mp hlast
  rw [dropLast_concat]
  obtain ⟨e, he, hle, hlt⟩ := h
  rcases mem_append.mp he with he | he
  · exact ⟨e, mem_append_left _ he, hle, hlt⟩
  · obtain rfl := mem_singleton.mp he
    exact ⟨new, mem_append_right _ (mem_singleton_self _), hnew hle hlt⟩

theorem covers_last {e : Extent} (hle : e.1 ≤ i) (hlt : i < e.1 + e.2) :
    Covers (out ++ [e]) i := ⟨e, mem_append_right _ (mem_singleton_self _), hle, hlt⟩

/-- An extent that is pushed is covered with those before it. -/
theorem covers_pushExtent {start length : ℕ}
    (h : Covers out i ∨ (start ≤ i ∧ i < start + length)) : Covers (pushExtent out start length) i := by
  have hpush : Covers (out ++ [(start, length)]) i := by
    rcases h with ⟨e, he, hcovers⟩ | ⟨hle, hlt⟩
    · exact ⟨e, mem_append_left _ he, hcovers⟩
    · exact covers_last hle hlt
  unfold pushExtent
  cases hlast : out.getLast? with
  | none => exact hpush
  | some last =>
    dsimp only
    split_ifs with hmeet
    · rcases h with h | ⟨hle, hlt⟩
      · exact covers_replaceLast hlast (fun hle hlt => ⟨hle, by dsimp only; omega⟩) h
      · exact covers_last (by dsimp only; omega) (by dsimp only; omega)
    · exact hpush

/-- Joining an extent to the last one loses nothing. -/
theorem covers_mergeStep {e : Extent} (hlast : ∀ last, out.getLast? = some last → last.1 ≤ e.1)
    (h : Covers out i ∨ (e.1 ≤ i ∧ i < e.1 + e.2)) : Covers (mergeStep out e) i := by
  have hpush : Covers (out ++ [e]) i := by
    rcases h with ⟨e', he, hcovers⟩ | ⟨hle, hlt⟩
    · exact ⟨e', mem_append_left _ he, hcovers⟩
    · exact covers_last hle hlt
  unfold mergeStep
  cases hout : out.getLast? with
  | none => exact hpush
  | some last =>
    have hfirst := hlast last hout
    dsimp only
    split_ifs with hmeet
    · rcases h with h | ⟨hle, hlt⟩
      · exact covers_replaceLast hout (fun hle hlt => ⟨hle, by dsimp only; omega⟩) h
      · exact covers_last (by dsimp only; omega) (by dsimp only; omega)
    · exact hpush

theorem getLast_mergeStep {e last : Extent} (h : (mergeStep out e).getLast? = some last) :
    last.1 = e.1 ∨ ∃ last', out.getLast? = some last' ∧ last.1 = last'.1 := by
  unfold mergeStep at h
  cases hout : out.getLast? with
  | none =>
    rw [hout] at h
    simp only [getLast?_append, getLast?_singleton, some_or, some.injEq] at h
    exact .inl (by rw [← h])
  | some last' =>
    rw [hout] at h
    dsimp only at h
    split_ifs at h
    · simp only [getLast?_append, getLast?_singleton, some_or, some.injEq] at h
      exact .inr ⟨last', rfl, by rw [← h]⟩
    · simp only [getLast?_append, getLast?_singleton, some_or, some.injEq] at h
      exact .inl (by rw [← h])

theorem covers_foldl_mergeStep {extents : List Extent} (hsorted : extents.Pairwise fun a b => a.1 ≤ b.1)
    (hlast : ∀ last, out.getLast? = some last → ∀ e ∈ extents, last.1 ≤ e.1)
    (h : Covers out i ∨ Covers extents i) : Covers (extents.foldl mergeStep out) i := by
  induction extents generalizing out with
  | nil =>
    rcases h with h | ⟨e, he, -⟩
    · exact h
    · nomatch he
  | cons e extents ih =>
    obtain ⟨hfirst, hrest⟩ := pairwise_cons.mp hsorted
    have hbefore := fun last hout => hlast last hout e mem_cons_self
    refine ih hrest (fun last hout e' he' => ?_) ?_
    · rcases getLast_mergeStep hout with heq | ⟨last', hlast', heq⟩
      · rw [heq]
        exact hfirst e' he'
      · rw [heq]
        exact hlast last' hlast' e' (mem_cons_of_mem _ he')
    · rcases h with h | ⟨e', he', hcovers⟩
      · exact .inl (covers_mergeStep hbefore (.inl h))
      · rcases mem_cons.mp he' with rfl | he'
        · exact .inl (covers_mergeStep hbefore (.inr hcovers))
        · exact .inr ⟨e', he', hcovers⟩

/-- Sorting and joining loses nothing. -/
theorem covers_mergeExtents {extents : List Extent} (h : Covers extents i) : Covers (mergeExtents extents) i := by
  refine covers_foldl_mergeStep ?_ (nofun) (.inr ?_)
  · refine pairwise_key_insertionSort (fun a b h => ?_) (fun a b h => ?_) extents
    · unfold extentLe at h
      omega
    · unfold extentLe at h
      omega
  · obtain ⟨e, he, hcovers⟩ := h
    exact ⟨e, (mem_insertionSort extentLe).mpr he, hcovers⟩

end Covering

end Virtkit.Disk
