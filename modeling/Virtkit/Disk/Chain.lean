import Mathlib.Data.List.TakeWhile
import Virtkit.Disk.Copy

/-!
# The bytes of a chain

A byte of a chain comes from the first layer that holds its cluster, or from what is below them all; it
cannot be read where a table or a chunk cannot. Reads are the bytes they are made of. What is outside the
extents of a chain whose layers are of one size is zero.
-/

namespace Virtkit.Disk

open Virtkit.Common List VkRoImg Nat

def Layer.byte (l : Layer) (below : ℕ → Except Error UInt8) (i : ℕ) : Except Error UInt8 := do
  match ← l.locate (i / l.clusterSize) with
  | .data host => .ok (l.file.byte (host + i % l.clusterSize))
  | .zero => .ok 0
  | .unallocated => below i

/-- A byte of a lazy view. -/
def VkRoImg.byte (v : VkRoImg) (i : ℕ) : Except Error UInt8 :=
  if v.totalSize ≤ i then .ok 0
  else
    match v.chunksAt i with
    | [] => .ok 0
    | c :: _ =>
      if i < c.offset then .ok 0
      else do
        let data ← loadChunk c
        .ok (data.getD (i - c.offset) 0)

def Backing.byte : Backing → ℕ → Except Error UInt8
  | .none => fun _ => .ok 0
  | .raw f => fun i => .ok (f.file.byte i)
  | .qcow2 layer backing => layer.byte backing.byte
  | .lazy v => v.byte

section Reading

variable {l : Layer} {v : VkRoImg} {pos n i : ℕ}

theorem Layer.clusterSize_pos (l : Layer) : 0 < l.clusterSize := Nat.two_pow_pos _

theorem mapM_ok (f : ℕ → UInt8) (n : ℕ) :
    (List.range n).mapM (fun i => (.ok (f i) : Except Error UInt8)) = .ok ((List.range n).map f) :=
  mapM_pure

theorem mapM_bind {A : Type} {x : Except Error A} {f : A → ℕ → Except Error UInt8} (hn : 0 < n) :
    (List.range n).mapM (fun i => x >>= fun a => f a i) = x >>= fun a => (List.range n).mapM (f a) := by
  cases x with
  | ok a => rfl
  | error e =>
    obtain ⟨n, rfl⟩ := exists_eq_succ_of_ne_zero hn.ne'
    rw [range_succ_eq_map, mapM_cons]
    rfl

/-- A piece of a layer is read byte by byte. -/
theorem Layer.readPiece_eq {below : ℕ → ℕ → Except Error Bytes} {byteBelow : ℕ → Except Error UInt8}
    (hbelow : ∀ off n, below off n = (List.range n).mapM fun i => byteBelow (off + i)) (hn : 0 < n)
    (hin : n ≤ l.clusterSize - pos % l.clusterSize) :
    l.readPiece below pos n = (List.range n).mapM fun i => l.byte byteBelow (pos + i) := by
  have hsame : ∀ i < n, (pos + i) / l.clusterSize = pos / l.clusterSize ∧
      (pos + i) % l.clusterSize = pos % l.clusterSize + i := by
    intro i hi
    have hmod := Nat.mod_lt pos l.clusterSize_pos
    have hsplit := Nat.mod_add_div pos l.clusterSize
    exact (Nat.div_mod_unique l.clusterSize_pos).mpr ⟨by omega, by omega⟩
  have hbyte : (List.range n).mapM (fun i => l.byte byteBelow (pos + i)) =
      (List.range n).mapM fun i => l.locate (pos / l.clusterSize) >>= fun c =>
        match c with
        | .data host => .ok (l.file.byte (host + pos % l.clusterSize + i))
        | .zero => .ok 0
        | .unallocated => byteBelow (pos + i) := by
    refine mapM_congr fun i hi => ?_
    obtain ⟨hdiv, hmod⟩ := hsame i (mem_range.mp hi)
    rw [Layer.byte, hdiv, hmod]
    simp only [Nat.add_assoc]
  rw [hbyte, mapM_bind hn, Layer.readPiece]
  refine bind_congr fun c => ?_
  cases c with
  | data host =>
    dsimp only
    rw [mapM_ok, File.readOrZero_eq]
    rfl
  | zero =>
    dsimp only
    rw [mapM_ok, map_range_eq_replicate fun _ _ => rfl]
  | unallocated => exact hbelow pos n

theorem dropWhile_of_imp {A : Type} {p q : A → Bool} {a : A} {l rest : List A}
    (hpq : ∀ b, p b = true → q b = true) (hq : q a = false) (h : l.dropWhile p = a :: rest) :
    l.dropWhile q = a :: rest := by
  induction l with
  | nil => exact nomatch h
  | cons b l ih =>
    rw [dropWhile_cons] at h ⊢
    split_ifs at h with hp
    · rw [if_pos (hpq b hp)]
      exact ih h
    · obtain ⟨rfl, rfl⟩ := List.cons.inj h
      rw [if_neg (by simp [hq])]

theorem VkRoImg.chunksAt_of_lt {c : VkRoChunk} {rest : List VkRoChunk} (hat : v.chunksAt pos = c :: rest)
    (hle : pos ≤ i) (hlt : i < c.offset + c.length) : v.chunksAt i = c :: rest :=
  dropWhile_of_imp (fun _ hb => decide_eq_true ((of_decide_eq_true hb).trans hle))
    (decide_eq_false (not_le.mpr hlt)) hat

theorem VkRoImg.chunksAt_of_nil (hat : v.chunksAt pos = []) (hle : pos ≤ i) : v.chunksAt i = [] := by
  unfold chunksAt at hat ⊢
  rw [dropWhile_eq_nil_iff] at hat ⊢
  exact fun b hb => decide_eq_true ((of_decide_eq_true (hat b hb)).trans hle)

theorem VkRoImg.chunksAt_end {c : VkRoChunk} {rest : List VkRoChunk} (hat : v.chunksAt pos = c :: rest) :
    c ∈ v.chunks ∧ pos < c.offset + c.length := by
  have hfirst := head?_dropWhile_not (fun c : VkRoChunk => decide (c.offset + c.length ≤ pos)) v.chunks
  have hsuffix := dropWhile_suffix (fun c : VkRoChunk => decide (c.offset + c.length ≤ pos)) (l := v.chunks)
  unfold chunksAt at hat
  rw [hat] at hfirst hsuffix
  refine ⟨hsuffix.subset mem_cons_self, ?_⟩
  simpa using hfirst

theorem VkRoImg.length_of_loadChunk {c : VkRoChunk} {data : Bytes} (h : loadChunk c = .ok data) :
    data.length = c.length := by
  unfold loadChunk at h
  cases hstored : c.stored with
  | none =>
    rw [hstored] at h
    nomatch h
  | some stored =>
    rw [hstored] at h
    obtain ⟨hlen, hdata⟩ := check_eq_ok.mp h
    rw [← Except.ok.inj hdata]
    exact not_not.mp hlen

/-- A piece of a read-only image is read byte by byte. -/
theorem VkRoImg.readPiece_eq (hn : 0 < n) : v.readPiece pos (v.pieceSize pos n) =
      (List.range (v.pieceSize pos n)).mapM fun i => v.byte (pos + i) := by
  have hzeros : ∀ m, (∀ i < m, v.byte (pos + i) = .ok 0) →
      .ok (List.replicate m 0) = (List.range m).mapM fun i => v.byte (pos + i) := by
    intro m hzero
    rw [mapM_congr fun i hi => hzero i (mem_range.mp hi), mapM_ok, map_range_eq_replicate fun _ _ => rfl]
  unfold readPiece pieceSize
  by_cases hpast : v.totalSize ≤ pos
  · rw [if_pos hpast, if_pos hpast]
    exact hzeros n fun i _ => if_pos (by omega)
  rw [if_neg hpast, if_neg hpast]
  cases hat : v.chunksAt pos with
  | nil =>
    dsimp only
    refine hzeros _ fun i hi => ?_
    rw [VkRoImg.byte, if_neg (by omega), chunksAt_of_nil hat (le_add_right pos i)]
  | cons c rest =>
    obtain ⟨hmem, hend⟩ := chunksAt_end hat
    have hfits := v.fits c hmem
    dsimp only
    by_cases hgap : pos < c.offset
    · rw [if_pos hgap, if_pos hgap]
      refine hzeros _ fun i hi => ?_
      rw [VkRoImg.byte, if_neg (by omega), chunksAt_of_lt hat (le_add_right pos i) (by omega)]
      exact if_pos (by omega)
    · rw [if_neg hgap, if_neg hgap]
      have hbyte : ∀ i ∈ List.range (min (c.offset + c.length - pos) n), v.byte (pos + i) =
          loadChunk c >>= fun data => .ok (data.getD (pos - c.offset + i) 0) := by
        intro i hi
        have hi := mem_range.mp hi
        have hoff : pos + i - c.offset = pos - c.offset + i := by omega
        rw [VkRoImg.byte, if_neg (by omega), chunksAt_of_lt hat (le_add_right pos i) (by omega)]
        dsimp only
        rw [if_neg (by omega), hoff]
      rw [mapM_congr hbyte, mapM_bind (by omega)]
      cases hdata : loadChunk c with
      | error e => rfl
      | ok data =>
        have hlen := length_of_loadChunk hdata
        rw [ok_bind, ok_bind, mapM_ok, take_drop_eq_map_range (by omega) 0]

theorem VkRoImg.pieceSize_spec (v : VkRoImg) (pos : ℕ) (hn : 0 < n) :
    0 < v.pieceSize pos n ∧ v.pieceSize pos n ≤ n := by
  unfold pieceSize
  split_ifs with hpast
  · exact ⟨hn, le_refl n⟩
  · cases hat : v.chunksAt pos with
    | nil =>
      dsimp only
      omega
    | cons c rest =>
      have hend := (chunksAt_end hat).2
      dsimp only
      split_ifs <;> omega

theorem VkRoImg.readAt_eq (v : VkRoImg) (off n : ℕ) :
    v.readAt off n = (List.range n).mapM fun i => v.byte (off + i) := by
  refine (loopPieces_mapM (fun pos m hm _ => v.pieceSize_spec pos hm)
    (fun pos m _ hm _ => readPiece_eq hm) (le_refl n) (le_refl off) rfl).trans ?_
  simp only [nil_append]
  exact bind_pure _

/-- A layer is read byte by byte if what is below is. -/
theorem Layer.readAt_eq (l : Layer) {below : ℕ → ℕ → Except Error Bytes} {byteBelow : ℕ → Except Error UInt8}
    (hbelow : ∀ off n, below off n = (List.range n).mapM fun i => byteBelow (off + i)) (off n : ℕ) :
    l.readAt below off n = (List.range n).mapM fun i => l.byte byteBelow (off + i) := by
  have hsize : ∀ pos m, 0 < m → 0 < min (l.clusterSize - pos % l.clusterSize) m := by
    intro pos m hm
    have hmod := mod_lt pos l.clusterSize_pos
    omega
  refine (loopPieces_mapM (fun pos m hm _ => ⟨hsize pos m hm, min_le_right _ _⟩)
    (fun pos m _ hm _ => Layer.readPiece_eq hbelow (hsize pos m hm) (min_le_left _ _)) (le_refl n)
    (le_refl off) rfl).trans ?_
  simp only [nil_append]
  exact bind_pure _

/-- A chain of images is read byte by byte. -/
theorem Backing.readAt_eq (b : Backing) (off n : ℕ) :
    b.readAt off n = (List.range n).mapM fun i => b.byte (off + i) := by
  induction b generalizing off n with
  | none =>
    refine Eq.trans ?_ (mapM_ok (fun _ => 0) n).symm
    rw [map_range_eq_replicate fun _ _ => rfl]
    rfl
  | raw f =>
    refine Eq.trans ?_ (mapM_ok (fun i => f.file.byte (off + i)) n).symm
    exact congrArg Except.ok (f.file.readOrZero_eq off n)
  | qcow2 layer backing ih => exact layer.readAt_eq ih off n
  | lazy v => exact v.readAt_eq off n

end Reading

section Outside

variable {l : Layer} {own : List Extent × List Extent} {i : ℕ}

/-- A layer's own extents cover its data clusters. -/
theorem Layer.ownExtents_spec (hown : l.ownExtents = .ok own) {c : ℕ} (hc : c < l.clusters) : ∃ k, l.locate c = .ok k ∧
      ∀ host, k = .data host → ∀ i < l.virtualSize, i / l.clusterSize = c → Covers own.1 i := by
  have hspec := @foldlM_of_ok Error (List Extent × List Extent) ℕ l.ownExtent
    (fun done out => ∀ c ∈ done, ∃ k, l.locate c = .ok k ∧
      ∀ host, k = .data host → ∀ i < l.virtualSize, i / l.clusterSize = c → Covers out.1 i)
    (by
      intro done c out out' hdone hok c' hc'
      obtain ⟨k, hk, hok⟩ := bind_eq_ok.mp hok
      have hkept : ∀ i, Covers out.1 i → Covers out'.1 i := by
        intro i hcovers
        cases k with
        | data host =>
          rw [← Except.ok.inj hok]
          exact covers_pushExtent (.inl hcovers)
        | zero | unallocated =>
          rw [← Except.ok.inj hok]
          exact hcovers
      rcases mem_append.mp hc' with hc' | hc'
      · obtain ⟨k', hk', hcovers⟩ := hdone c' hc'
        exact ⟨k', hk', fun host hhost i hi hic => hkept i (hcovers host hhost i hi hic)⟩
      · obtain rfl := mem_singleton.mp hc'
        refine ⟨k, hk, fun host hhost i hi hic => ?_⟩
        subst hhost
        rw [← Except.ok.inj hok]
        have hsplit := div_add_mod' i l.clusterSize
        have hmod := mod_lt i l.clusterSize_pos
        rw [hic] at hsplit
        exact covers_pushExtent (.inr ⟨by omega, by omega⟩))
    [] (List.range l.clusters) ([], []) own (nofun) hown
  exact hspec c (mem_append_right _ (mem_range.mpr hc))

theorem Layer.div_lt_clusters (hi : i < l.virtualSize) : i / l.clusterSize < l.clusters := by
  have hpos := l.clusterSize_pos
  unfold Layer.clusters divCeil
  rw [div_lt_iff_lt_mul hpos]
  have hsplit := div_add_mod' (l.virtualSize + l.clusterSize - 1) l.clusterSize
  have hmod := mod_lt (l.virtualSize + l.clusterSize - 1) hpos
  omega

/-- The layers of a chain are of one size, and what is below them, if anything, too. -/
def Backing.SameSize (size : ℕ) : Backing → Prop
  | .none => True
  | .raw f => f.file.len = size
  | .qcow2 layer backing => layer.virtualSize = size ∧ backing.SameSize size
  | .lazy v => v.totalSize = size

theorem VkRoImg.byte_of_not_covers {v : VkRoImg} (h : ¬ Covers v.chunkExtents i) : v.byte i = .ok 0 := by
  unfold VkRoImg.byte
  split_ifs with hpast
  · rfl
  · cases hat : v.chunksAt i with
    | nil => rfl
    | cons c rest =>
      obtain ⟨hmem, hend⟩ := chunksAt_end hat
      dsimp only
      refine if_pos ?_
      by_contra hgap
      exact h ⟨(c.offset, c.length), mem_map.mpr ⟨c, hmem, rfl⟩, not_lt.mp hgap, hend⟩

/-- What no extent covers reads as zero through the chain. -/
theorem Backing.byte_of_not_covers {b : Backing} {size : ℕ} {extents : List Extent} (hsame : b.SameSize size)
    (hextents : b.dataExtents = .ok extents) (hi : i < size) (hnot : ¬ Covers extents i) : b.byte i = .ok 0 := by
  induction b generalizing extents with
  | none => rfl
  | raw f =>
    obtain rfl := Except.ok.inj hextents
    exact congrArg Except.ok (f.byte_of_not_covers hnot)
  | lazy v =>
    obtain rfl := Except.ok.inj hextents
    exact VkRoImg.byte_of_not_covers hnot
  | qcow2 layer backing ih =>
    obtain ⟨rfl, hsame⟩ := hsame
    obtain ⟨own, hown, hextents⟩ := bind_eq_ok.mp hextents
    obtain ⟨below, hbelow, hextents⟩ := bind_eq_ok.mp hextents
    obtain rfl := Except.ok.inj hextents
    have hmerged : ∀ {e}, Covers e i → (∀ x ∈ e, x ∈ own.1 ++ below) → False := by
      rintro e ⟨x, hx, hcovers⟩ hsub
      exact hnot (covers_mergeExtents ⟨x, hsub x hx, hcovers⟩)
    obtain ⟨k, hk, hdata⟩ := Layer.ownExtents_spec hown (Layer.div_lt_clusters hi)
    change layer.byte backing.byte i = .ok 0
    rw [Layer.byte, hk, ok_bind]
    cases k with
    | data host => exact (hmerged (hdata host rfl i hi rfl) fun x hx => mem_append_left _ hx).elim
    | zero => rfl
    | unallocated => exact ih hsame hbelow fun hcovers => hmerged hcovers fun x hx => mem_append_right _ hx

/-- A byte other than zero is stored at `i` by a layer, above which no layer holds its cluster. -/
inductive Backing.Stray (i : ℕ) : Backing → Prop
  | here {layer : Layer} {backing : Backing} {host : ℕ} :
      layer.locate (i / layer.clusterSize) = .ok (.data host) →
      layer.file.byte (host + i % layer.clusterSize) ≠ 0 → Stray i (.qcow2 layer backing)
  | under {layer : Layer} {backing : Backing} :
      layer.locate (i / layer.clusterSize) = .ok .unallocated → Stray i backing → Stray i (.qcow2 layer backing)

theorem Backing.Stray.byte {b : Backing} (h : b.Stray i) : ∃ x ≠ 0, b.byte i = .ok x := by
  induction h with
  | here hlocate hbyte =>
    refine ⟨_, hbyte, ?_⟩
    rw [Backing.byte, Layer.byte, hlocate, ok_bind]
  | under hlocate _ ih =>
    obtain ⟨x, hx, hbyte⟩ := ih
    refine ⟨x, hx, ?_⟩
    rw [Backing.byte, Layer.byte, hlocate, ok_bind]
    exact hbyte

/-- Past the end of the disk a byte that is not zero is stored by a layer: a raw file and a lazy view end
there, and the table of a layer does not. -/
theorem Backing.stray_of_byte {b : Backing} {size : ℕ} (hsame : b.SameSize size) (hi : size ≤ i) {x : UInt8}
    (hx : x ≠ 0) (hbyte : b.byte i = .ok x) : b.Stray i := by
  induction b with
  | none => exact absurd (Except.ok.inj hbyte).symm hx
  | raw f =>
    obtain rfl := Except.ok.inj hbyte
    exact absurd (f.file.zero_past i (hsame.trans_le hi)) hx
  | lazy v =>
    rw [Backing.byte, VkRoImg.byte, if_pos (hsame.trans_le hi)] at hbyte
    exact absurd (Except.ok.inj hbyte).symm hx
  | qcow2 layer backing ih =>
    obtain ⟨k, hlocate, hbyte⟩ := bind_eq_ok.mp hbyte
    cases k with
    | data host =>
      obtain rfl := Except.ok.inj hbyte
      exact .here hlocate hx
    | zero => exact absurd (Except.ok.inj hbyte).symm hx
    | unallocated => exact .under hlocate (ih hsame.2 hbyte)

/-- A chain of data, zero and unallocated clusters, whose tables and chunks can be read. -/
def Backing.Intact : Backing → Prop
  | .none => True
  | .raw _ => True
  | .qcow2 layer backing => (∀ c < layer.clusters, ∃ k, layer.locate c = .ok k) ∧ backing.Intact
  | .lazy v => ∀ c ∈ v.chunks, ∃ data, loadChunk c = .ok data

/-- The extents of an intact chain are found. -/
theorem Backing.Intact.dataExtents {b : Backing} (h : b.Intact) : ∃ extents, b.dataExtents = .ok extents := by
  induction b with
  | none | raw f | lazy v => exact ⟨_, rfl⟩
  | qcow2 layer backing ih =>
    obtain ⟨hlocate, hbacking⟩ := h
    obtain ⟨below, hbelow⟩ := ih hbacking
    obtain ⟨own, hown⟩ : ∃ own, layer.ownExtents = .ok own := by
      refine foldlM_isOk (fun c hc out => ?_) ([], [])
      obtain ⟨k, hk⟩ := hlocate c (mem_range.mp hc)
      unfold Layer.ownExtent
      rw [hk, ok_bind]
      cases k <;> exact ⟨_, rfl⟩
    exact ⟨_, bind_eq_ok.mpr ⟨own, hown, bind_eq_ok.mpr ⟨below, hbelow, rfl⟩⟩⟩

/-- Every byte of an intact chain is read. -/
theorem Backing.Intact.byte {b : Backing} (h : b.Intact) {size : ℕ} (hsame : b.SameSize size) (hi : i < size) :
    ∃ x, b.byte i = .ok x := by
  induction b with
  | none | raw f => exact ⟨_, rfl⟩
  | lazy v =>
    change ∃ x, v.byte i = .ok x
    unfold VkRoImg.byte
    split_ifs with hpast
    · exact ⟨_, rfl⟩
    · cases hat : v.chunksAt i with
      | nil => exact ⟨_, rfl⟩
      | cons c rest =>
        obtain ⟨data, hdata⟩ := h c (chunksAt_end hat).1
        dsimp only
        split_ifs with hgap
        · exact ⟨_, rfl⟩
        · exact ⟨_, bind_eq_ok.mpr ⟨data, hdata, rfl⟩⟩
  | qcow2 layer backing ih =>
    obtain ⟨rfl, hsame⟩ := hsame
    obtain ⟨k, hk⟩ := h.1 _ (Layer.div_lt_clusters hi)
    change ∃ x, layer.byte backing.byte i = .ok x
    rw [Layer.byte, hk, ok_bind]
    cases k with
    | data host | zero => exact ⟨_, rfl⟩
    | unallocated => exact ih h.2 hsame

end Outside

end Virtkit.Disk
