import Virtkit.Common.Lists
import Virtkit.Disk.Writer

/-!
# What a writer holds

A writer's clusters are all of its file from the L1 table's end on, each the place of one guest cluster.
Reading gives the bytes of a content; writing changes it where it writes, and nowhere else.
-/

namespace Virtkit.Disk.Qcow2Writer

open Virtkit.Common Nat

variable {w w' : Qcow2Writer} {c c' pos n i : ℕ}

/-- The first cluster after the L1 table. -/
def firstData (w : Qcow2Writer) : ℕ := 2 + l1Clusters w.l1Size

/-- A writer that calls can come to. -/
structure Sound (w : Qcow2Writer) : Prop where
  l1Size : w.l1Size = max (divCeil w.virtualSize (cs * l2Entries)) 1
  len : w.file.len = w.next
  next : ∃ k, w.next = (w.firstData + k) * cs
  host : ∀ c h, w.hostOffset c = some h →
    c * cs < w.virtualSize ∧ ∃ k, h = k * cs ∧ w.firstData ≤ k ∧ (k + 1) * cs ≤ w.next
  inj : ∀ c c' h, w.hostOffset c = some h → w.hostOffset c' = some h → c = c'
  onto : ∀ k, w.firstData ≤ k → (k + 1) * cs ≤ w.next → ∃ c, w.hostOffset c = some (k * cs)
  tables : ∀ idx t, w.l2.lookup idx = some t → idx < w.l1Size

/-- The byte of the disk at an offset. -/
def content (w : Qcow2Writer) (i : ℕ) : UInt8 :=
  match w.hostOffset (i / cs) with
  | some host => w.file.byte (host + i % cs)
  | none => 0

theorem cs_pos : 0 < cs := by
  unfold cs
  exact succ_pos _

theorem split_cs (i : ℕ) : i = i / cs * cs + i % cs ∧ i % cs < cs :=
  ⟨(div_add_mod' i cs).symm, mod_lt i cs_pos⟩

/-- Within a piece the cluster stays the same. -/
theorem same_cluster (h : pos % cs + i < cs) : (pos + i) / cs = pos / cs ∧ (pos + i) % cs = pos % cs + i := by
  refine (Nat.div_mod_unique cs_pos).mpr ⟨?_, h⟩
  have hsplit := Nat.mod_add_div pos cs
  omega

theorem apart {k k' : ℕ} (h : k ≠ k') : k * cs + cs ≤ k' * cs ∨ k' * cs + cs ≤ k * cs := by
  rcases Nat.lt_or_gt_of_ne h with hlt | hlt
  · left
    calc k * cs + cs = (k + 1) * cs := by rw [Nat.add_mul, Nat.one_mul]
      _ ≤ k' * cs := Nat.mul_le_mul_right cs hlt
  · right
    calc k' * cs + cs = (k' + 1) * cs := by rw [Nat.add_mul, Nat.one_mul]
      _ ≤ k * cs := Nat.mul_le_mul_right cs hlt

/-- A new image is sound. -/
theorem sound_create (virtualSize : ℕ) : (create virtualSize).Sound := by
  have hnext : (create virtualSize).next = (create virtualSize).firstData * cs := by
    simp only [create, firstData]
  refine ⟨?_, ?_, ⟨0, ?_⟩, nofun, nofun, fun k hk hend => ?_, nofun⟩
  · simp only [create]
  · simp only [create, File.setLen]
  · rw [hnext, Nat.add_zero]
  · rw [hnext] at hend
    have hle := Nat.le_of_mul_le_mul_right hend cs_pos
    omega

theorem content_create (virtualSize i : ℕ) : (create virtualSize).content i = 0 := rfl

/-- An allocation places its own cluster at the end, and moves no other. -/
theorem hostOffset_allocate (hnext : w.next ≠ 0) (c c' : ℕ) :
    (w.allocate c).2.hostOffset c' = if c' = c then some w.next else w.hostOffset c' := by
  have hlookup := Table.lookup_insert_ite w.l2 (c / l2Entries) (c' / l2Entries)
    (Function.update ((w.l2.lookup (c / l2Entries)).getD fun _ => 0) (c % l2Entries) w.next)
  unfold hostOffset allocate
  dsimp only
  rw [hlookup]
  by_cases hsame : c' = c
  · subst hsame
    simp [hnext]
  · rw [if_neg hsame]
    split_ifs with hidx
    · have hslot : c' % l2Entries ≠ c % l2Entries := by
        unfold l2Entries at hidx ⊢
        omega
      rw [Option.bind_some, Function.update_of_ne hslot, hidx]
      cases w.l2.lookup (c / l2Entries) with
      | none => simp
      | some table => rfl
    · rfl

theorem Sound.host_lt (h : w.Sound) {host : ℕ} (hhost : w.hostOffset c = some host) : host + cs ≤ w.next := by
  obtain ⟨-, k, rfl, -, hend⟩ := h.host c host hhost
  rwa [Nat.add_mul, Nat.one_mul] at hend

theorem Sound.next_ne_zero (h : w.Sound) : w.next ≠ 0 := by
  obtain ⟨m, hm⟩ := h.next
  rw [hm, firstData]
  exact (Nat.mul_pos (by omega) cs_pos).ne'

/-- A cluster of the image has an L1 entry. -/
theorem index_lt {size : ℕ} (h : c * cs < size) : c / l2Entries < max (divCeil size (cs * l2Entries)) 1 := by
  have hspan : cs * l2Entries = 536870912 := by simp only [cs, l2Entries]
  rw [hspan]
  unfold cs at h
  unfold divCeil l2Entries
  omega

/-- An allocation changes nothing that is read. -/
theorem Sound.allocate (h : w.Sound) (hc : w.hostOffset c = none) (hin : c * cs < w.virtualSize) :
    (w.allocate c).2.Sound ∧ ∀ i, (w.allocate c).2.content i = w.content i := by
  obtain ⟨m, hm⟩ := h.next
  have hoff := fun c' => @hostOffset_allocate w h.next_ne_zero c c'
  have hnext : (w.allocate c).2.next = w.next + cs := by simp only [Qcow2Writer.allocate]
  have hfirst : (w.allocate c).2.firstData = w.firstData := by simp only [Qcow2Writer.allocate, firstData]
  have hsize : (w.allocate c).2.virtualSize = w.virtualSize := by simp only [Qcow2Writer.allocate]
  refine ⟨⟨?_, ?_, ⟨m + 1, ?_⟩, fun c' host hhost => ?_, fun c₁ c₂ host h₁ h₂ => ?_, fun k hk hend => ?_,
    fun idx table htable => ?_⟩, fun i => ?_⟩
  · exact h.l1Size
  · simp only [Qcow2Writer.allocate, File.setLen]
  · rw [hnext, hfirst, hm, ← Nat.add_assoc, Nat.add_mul _ 1, Nat.one_mul]
  · rw [hoff] at hhost
    rw [hsize, hfirst, hnext]
    split_ifs at hhost with hsame
    · cases hhost
      subst hsame
      exact ⟨hin, w.firstData + m, hm, by omega, by rw [Nat.add_mul, Nat.one_mul, hm]⟩
    · obtain ⟨hc', k, hk, hle, hend⟩ := h.host c' host hhost
      exact ⟨hc', k, hk, hle, by omega⟩
  · rw [hoff] at h₁ h₂
    split_ifs at h₁ h₂ with hsame₁ hsame₂ hsame₂
    · rw [hsame₁, hsame₂]
    · have hlt := h.host_lt h₂
      have hat := Option.some.inj h₁
      have := cs_pos
      omega
    · have hlt := h.host_lt h₁
      have hat := Option.some.inj h₂
      have := cs_pos
      omega
    · exact h.inj c₁ c₂ host h₁ h₂
  · rw [hfirst] at hk
    rw [hnext] at hend
    by_cases hold : (k + 1) * cs ≤ w.next
    · obtain ⟨c', hc'⟩ := h.onto k hk hold
      refine ⟨c', ?_⟩
      rw [hoff, if_neg, hc']
      rintro rfl
      nomatch hc.symm.trans hc'
    · have hlast : k = w.firstData + m := by
        rw [hm] at hold hend
        rw [← Nat.succ_mul] at hend
        have hle := Nat.le_of_mul_le_mul_right hend cs_pos
        have hge : ¬ k + 1 ≤ w.firstData + m := fun hle => hold (Nat.mul_le_mul_right cs hle)
        omega
      exact ⟨c, by rw [hoff, if_pos rfl, hm, hlast]⟩
  · have hlookup := Table.lookup_insert_ite w.l2 (c / l2Entries) idx
      (Function.update ((w.l2.lookup (c / l2Entries)).getD fun _ => 0) (c % l2Entries) w.next)
    have htable := hlookup.symm.trans htable
    change idx < w.l1Size
    split_ifs at htable with hidx
    · rw [hidx, h.l1Size]
      exact index_lt hin
    · exact h.tables idx table htable
  · have hbyte : ∀ j, (w.allocate c).2.file.byte j = w.file.byte j :=
      File.byte_setLen_of_le (by rw [h.len]; exact Nat.le_add_right _ _)
    unfold content
    rw [hoff]
    split_ifs with hsame
    · rw [hsame, hc]
      dsimp only
      rw [hbyte]
      exact w.file.zero_past _ (by rw [h.len]; exact Nat.le_add_right _ _)
    · cases w.hostOffset (i / cs) with
      | none => rfl
      | some host => exact hbyte _

/-- Bytes written to an allocated cluster are the only ones that change. -/
theorem Sound.overwrite (h : w.Sound) {host : ℕ} {src : Bytes} (hhost : w.hostOffset (pos / cs) = some host)
    (hlen : pos % cs + src.length ≤ cs) : Sound { w with file := w.file.write (host + pos % cs) src } ∧
      ∀ i, content { w with file := w.file.write (host + pos % cs) src } i =
        if pos ≤ i ∧ i < pos + src.length then src.getD (i - pos) 0 else w.content i := by
  have hlt := h.host_lt hhost
  have hfile : (w.file.write (host + pos % cs) src).len = w.next := by
    have hlen' : (w.file.write (host + pos % cs) src).len =
        if src.length = 0 then w.file.len else max w.file.len (host + pos % cs + src.length) := rfl
    rw [hlen', h.len]
    split_ifs <;> omega
  refine ⟨⟨h.l1Size, hfile, h.next, h.host, h.inj, h.onto, h.tables⟩, fun i => ?_⟩
  have hsame : ∀ c, hostOffset { w with file := w.file.write (host + pos % cs) src } c = w.hostOffset c := fun _ => rfl
  have hbyte : ∀ j, (w.file.write (host + pos % cs) src).byte j =
      if host + pos % cs ≤ j ∧ j < host + pos % cs + src.length then
        src.getD (j - (host + pos % cs)) 0 else w.file.byte j := fun _ => rfl
  obtain ⟨hpos, hposlt⟩ := split_cs pos
  obtain ⟨hi, hilt⟩ := split_cs i
  unfold content
  rw [hsame]
  by_cases hcluster : i / cs = pos / cs
  · -- The write is within this cluster.
    rw [hcluster, hhost]
    dsimp only
    rw [hbyte]
    rw [hcluster] at hi
    split_ifs with hwritten hin hin
    · congr 1
      omega
    · omega
    · omega
    · rfl
  · -- Another cluster's place is apart from the one written.
    rw [if_neg]
    · cases hother : w.hostOffset (i / cs) with
      | none => rfl
      | some host' =>
        dsimp only
        rw [hbyte, if_neg]
        have hne : host' ≠ host := fun heq => hcluster (h.inj _ _ host (heq ▸ hother) hhost)
        obtain ⟨-, k, rfl, -⟩ := h.host _ _ hhost
        obtain ⟨-, k', rfl, -⟩ := h.host _ _ hother
        have hapart := apart fun heq : k' = k => hne (by rw [heq])
        omega
    · have hapart := apart hcluster
      omega

/-- A piece is written within one cluster. -/
theorem Sound.writePiece (h : w.Sound) {src : Bytes} (hlen : pos % cs + src.length ≤ cs)
    (hin : pos < w.virtualSize) : (w.writePiece pos src).Sound ∧ (w.writePiece pos src).virtualSize = w.virtualSize ∧
      ∀ i, (w.writePiece pos src).content i =
        if pos ≤ i ∧ i < pos + src.length then src.getD (i - pos) 0 else w.content i := by
  cases hhost : w.hostOffset (pos / cs) with
  | some host =>
    have hpiece : w.writePiece pos src = { w with file := w.file.write (host + pos % cs) src } := by
      simp only [Qcow2Writer.writePiece, hhost]
    obtain ⟨hsound, hcontent⟩ := h.overwrite hhost hlen
    rw [hpiece]
    exact ⟨hsound, rfl, hcontent⟩
  | none =>
    have hpiece : w.writePiece pos src = { (w.allocate (pos / cs)).2 with
        file := (w.allocate (pos / cs)).2.file.write ((w.allocate (pos / cs)).1 + pos % cs) src } := by
      simp only [Qcow2Writer.writePiece, hhost]
    have hin : pos / cs * cs < w.virtualSize := (div_mul_le_self pos cs).trans_lt hin
    obtain ⟨hallocated, hsame⟩ := h.allocate hhost hin
    have hhost : (w.allocate (pos / cs)).2.hostOffset (pos / cs) = some (w.allocate (pos / cs)).1 := by
      rw [hostOffset_allocate h.next_ne_zero, if_pos rfl]
      rfl
    obtain ⟨hsound, hcontent⟩ := hallocated.overwrite hhost hlen
    rw [hpiece]
    refine ⟨hsound, rfl, fun i => ?_⟩
    rw [← hsame]
    exact hcontent i

theorem pieceSize_spec (pos : ℕ) {m : ℕ} (hm : 0 < m) : 0 < min (cs - pos % cs) m ∧ min (cs - pos % cs) m ≤ m := by
  have := mod_lt pos cs_pos
  omega

/-- A write that fits puts its bytes, and only these. -/
theorem Sound.writeAt (h : w.Sound) {off : ℕ} {data : Bytes} (hfits : off + data.length ≤ w.virtualSize) :
    ∃ w', w.writeAt off data = .ok w' ∧ w'.Sound ∧ w'.virtualSize = w.virtualSize ∧ ∀ i, w'.content i =
        if off ≤ i ∧ i < off + data.length then data.getD (i - off) 0 else w.content i := by
  unfold Qcow2Writer.writeAt
  rw [if_neg (not_lt.mpr hfits)]
  obtain ⟨w', hw', -, hsound, hsize, hcontent⟩ := @loopPieces_spec Error Qcow2Writer
    (fun pos m => min (cs - pos % cs) m)
    (fun w pos m => .ok (w.writePiece pos ((data.drop (pos - off)).take m))) (off + data.length)
    (fun pos w' => off ≤ pos ∧ w'.Sound ∧ w'.virtualSize = w.virtualSize ∧ ∀ i, w'.content i =
      if off ≤ i ∧ i < pos then data.getD (i - off) 0 else w.content i)
    (fun pos m hm _ => pieceSize_spec pos hm)
    (by
      intro pos m w₁ hm hstop ⟨hoff, hsound, hsize, hcontent⟩
      have hmod := mod_lt pos cs_pos
      have hlen : ((data.drop (pos - off)).take (min (cs - pos % cs) m)).length = min (cs - pos % cs) m := by
        rw [List.length_take, List.length_drop]
        omega
      obtain ⟨hsound₂, hsize₂, hcontent₂⟩ := @Sound.writePiece w₁ pos hsound
        ((data.drop (pos - off)).take (min (cs - pos % cs) m)) (by omega) (by omega)
      refine ⟨_, rfl, by omega, hsound₂, hsize₂.trans hsize, fun i => ?_⟩
      rw [hcontent₂, hlen, hcontent]
      generalize hk : min (cs - pos % cs) m = k
      split_ifs with hpiece hall hbefore hall hall
      · rw [getD_take_drop (by omega)]
        congr 1
        omega
      all_goals first
        | rfl
        | omega)
    data.length w off data.length (le_refl _) rfl ⟨le_refl _, h, rfl, by simp⟩
  exact ⟨w', hw', hsound, hsize, hcontent⟩

/-- The writer reads what it holds. -/
theorem Sound.readAt (h : w.Sound) {off : ℕ} (hfits : off + n ≤ w.virtualSize) :
    w.readAt off n = .ok ((List.range n).map fun i => w.content (off + i)) := by
  unfold Qcow2Writer.readAt
  refine loopPieces_read (fun pos m hm _ => pieceSize_spec pos hm) fun pos m hoff hm hstop => ?_
  have hmod := mod_lt pos cs_pos
  have hpos : pos < w.virtualSize := by omega
  have hsame : ∀ i < min (cs - pos % cs) m, (pos + i) / cs = pos / cs ∧ (pos + i) % cs = pos % cs + i :=
    fun i hi => same_cluster (by omega)
  unfold Qcow2Writer.readPiece
  rw [if_pos hpos]
  cases hhost : w.hostOffset (pos / cs) with
  | none =>
    refine congrArg Except.ok (map_range_eq_replicate fun i hi => ?_).symm
    rw [content, (hsame i hi).1, hhost]
  | some host =>
    have hlt := h.host_lt hhost
    have hin : host + pos % cs + min (cs - pos % cs) m ≤ w.file.len := by
      rw [h.len]
      omega
    dsimp only
    rw [File.readExact, if_pos (.inr hin), Option.elim_some]
    congr 1
    refine List.map_congr_left fun i hi => ?_
    obtain ⟨hdiv, hmod⟩ := hsame i (List.mem_range.mp hi)
    rw [content, hdiv, hmod, hhost, add_assoc]

end Virtkit.Disk.Qcow2Writer
