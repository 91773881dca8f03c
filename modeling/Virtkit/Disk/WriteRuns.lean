import Virtkit.Disk.Finished

/-!
# The references of a finished image

An image refers to the clusters of its file: from its header to the refcount table and the L1 table, from
the L1 table to L2 tables, from these to data, and from the refcount table to refcount blocks. In a
finished image each cluster of the file is referred to once, and counted so.
-/

namespace Virtkit.Disk

open Virtkit.Common Option Nat

section

/-- What refers to a cluster: the header's own place, the parts of the two tables it names, and the
entries of the tables. -/
inductive Reference where
  | header
  | refcountTable (k : ℕ)
  | l1 (k : ℕ)
  | l2 (i : ℕ)
  | data (i j : ℕ)
  | refcountBlock (b : ℕ)

/-- The offset in an entry, none if it is empty. -/
def entryOffset (entry : ℕ) : Option ℕ :=
  if entry &&& offsetMask = 0 then none else some (entry &&& offsetMask)

def Reference.offset (file : File) : Reference → Option ℕ
  | .header => some 0
  | .refcountTable k => if k < file.be 56 4 then some (file.be 48 8 + k * 2 ^ file.be 20 4) else none
  | .l1 k =>
    if k < divCeil (file.be 36 4 * 8) (2 ^ file.be 20 4) then
      some (file.be 40 8 + k * 2 ^ file.be 20 4)
    else none
  | .l2 i => if i < file.be 36 4 then entryOffset (file.be (file.be 40 8 + 8 * i) 8) else none
  | .data i j =>
    if i < file.be 36 4 ∧ j < 2 ^ file.be 20 4 / 8 then
      (entryOffset (file.be (file.be 40 8 + 8 * i) 8)).bind fun table => entryOffset (file.be (table + 8 * j) 8)
    else none
  | .refcountBlock b =>
    if b < file.be 56 4 * (2 ^ file.be 20 4 / 8) then entryOffset (file.be (file.be 48 8 + 8 * b) 8)
    else none

/-- The count of a cluster, in the refcount block that the refcount table names for it. -/
def refcount (file : File) (c : ℕ) : ℕ :=
  let width := 2 ^ file.be 96 4 / 8
  let perBlock := 2 ^ file.be 20 4 / width
  let block := file.be (file.be 48 8 + 8 * (c / perBlock)) 8
  file.be (block + width * (c % perBlock)) width

namespace Qcow2Writer

variable {w : Qcow2Writer} {file : File} {l1 : ℕ → ℕ} {clusters blocks c : ℕ} {r r' : Reference}

/-- Where each reference of a finished image leads. -/
def Placed (w : Qcow2Writer) (clusters blocks c : ℕ) : Reference → Prop
  | .header => c = 0
  | .refcountTable k => k = 0 ∧ c = 1
  | .l1 k => k < l1Clusters w.l1Size ∧ c = 2 + k
  | .l2 i => ∃ k table, w.l2.sorted[k]? = some (i, table) ∧ c = w.next / cs + k
  | .data i j => j < l2Entries ∧ w.hostOffset (i * l2Entries + j) = some (c * cs)
  | .refcountBlock b => b < blocks ∧ c = clusters + b

theorem entryOffset_entry {k : ℕ} (hpos : 0 < k) (hk : k * cs < 2 ^ 56) :
    entryOffset (k * cs ||| oflagCopied) = some (k * cs) := by
  rw [entryOffset, entry_offset hk, if_neg (Nat.mul_pos hpos cs_pos).ne']

theorem entryOffset_plain {k : ℕ} (hpos : 0 < k) (hk : k * cs < 2 ^ 56) : entryOffset (k * cs) = some (k * cs) := by
  rw [entryOffset, plain_offset hk, if_neg (Nat.mul_pos hpos cs_pos).ne']

section

variable (h : Finished w file l1 clusters blocks)
include h

section

variable (hw : w.Sound) (hr : w.Placed clusters blocks c r)
include hw hr

/-- Where in the file each kind of reference leads. -/
theorem Finished.placed_region : match r with
    | .header => c = 0
    | .refcountTable _ => c = 1
    | .l1 _ => 2 ≤ c ∧ c < w.firstData
    | .data _ _ => w.firstData ≤ c ∧ c < w.next / cs
    | .l2 _ => w.next / cs ≤ c ∧ c < clusters
    | .refcountBlock _ => clusters ≤ c ∧ c < clusters + blocks := by
  obtain ⟨hnext, -, hclusters⟩ := h.regions hw
  cases r with
  | header => exact hr
  | refcountTable k => exact hr.2
  | l1 k =>
    obtain ⟨hk, rfl⟩ := hr
    unfold firstData
    omega
  | data i j =>
    obtain ⟨-, k, hk, hfirst, hend⟩ := hw.host _ _ hr.2
    rw [hnext] at hend
    have hck := Nat.eq_of_mul_eq_mul_right cs_pos hk
    have hlt := Nat.le_of_mul_le_mul_right hend cs_pos
    omega
  | l2 i =>
    obtain ⟨k, table, hk, rfl⟩ := hr
    have hlt := (List.getElem?_eq_some_iff.mp hk).1
    omega
  | refcountBlock b =>
    obtain ⟨hb, rfl⟩ := hr
    omega

theorem Finished.placed_lt : c < clusters + blocks := by
  obtain ⟨-, hfirst, hclusters⟩ := h.regions hw
  have hregion := h.placed_region hw hr
  have hmin : 2 ≤ w.firstData := le_add_right _ _
  cases r <;> dsimp only at hregion <;> omega

/-- References lead into the file. -/
theorem Finished.placed_lt_len : c * cs < file.len := by
  rw [h.len]
  exact Nat.mul_lt_mul_of_pos_right (h.placed_lt hw hr) cs_pos

/-- A cluster is referred to only once. -/
theorem Finished.placed_inj (hr' : w.Placed clusters blocks c r') : r = r' := by
  obtain ⟨-, hfirst, hclusters⟩ := h.regions hw
  have hregion := h.placed_region hw hr
  have hregion' := h.placed_region hw hr'
  have hmin : 2 ≤ w.firstData := Nat.le_add_right _ _
  cases r <;> cases r' <;> dsimp only at hregion hregion' <;> first | omega | skip
  case header.header => rfl
  case refcountTable.refcountTable k k' => rw [hr.1, hr'.1]
  case l1.l1 k k' =>
    have heq := hr.2.symm.trans hr'.2
    rw [Nat.add_left_cancel heq]
  case l2.l2 i i' =>
    obtain ⟨k, table, hk, hc⟩ := hr
    obtain ⟨k', table', hk', hc'⟩ := hr'
    have hkk := Nat.add_left_cancel (hc.symm.trans hc')
    rw [hkk] at hk
    have heq := some.inj (hk.symm.trans hk')
    rw [(Prod.mk.inj heq).1]
  case data.data i j i' j' =>
    have heq := hw.inj _ _ _ hr.2 hr'.2
    have hpos : 0 < l2Entries := Nat.zero_lt_of_lt hr.1
    have hdiv := (Nat.div_mod_unique hpos).mpr ⟨(by rw [Nat.mul_comm, Nat.add_comm] : j + l2Entries * i = i * l2Entries + j), hr.1⟩
    have hdiv' := (Nat.div_mod_unique hpos).mpr ⟨(by rw [Nat.mul_comm, Nat.add_comm] : j' + l2Entries * i' = i' * l2Entries + j'), hr'.1⟩
    rw [heq] at hdiv
    rw [← hdiv.1, ← hdiv.2, hdiv'.1, hdiv'.2]
  case refcountBlock.refcountBlock b b' =>
    have heq := hr.2.symm.trans hr'.2
    rw [Nat.add_left_cancel heq]

end

/-- Every cluster is referred to. -/
theorem Finished.exists_placed (hw : w.Sound) (hc : c < clusters + blocks) : ∃ r, w.Placed clusters blocks c r := by
  obtain ⟨hnext, hfirst, hclusters⟩ := h.regions hw
  by_cases hblock : clusters ≤ c
  · exact ⟨.refcountBlock (c - clusters), by omega, by omega⟩
  by_cases htable : w.next / cs ≤ c
  · have hlt : c - w.next / cs < w.l2.sorted.length := by omega
    exact ⟨.l2 w.l2.sorted[c - w.next / cs].1, c - w.next / cs, w.l2.sorted[c - w.next / cs].2,
      List.getElem?_eq_getElem hlt, by omega⟩
  by_cases hdata : w.firstData ≤ c
  · have hend : (c + 1) * cs ≤ w.next := by
      rw [hnext]
      exact mul_le_mul_right cs (by omega)
    obtain ⟨g, hg⟩ := hw.onto c hdata hend
    exact ⟨.data (g / l2Entries) (g % l2Entries), mod_lt g (by decide), by rwa [div_add_mod']⟩
  have hl1 : c < 2 + l1Clusters w.l1Size := not_le.mp hdata
  match c with
  | 0 => exact ⟨.header, rfl⟩
  | 1 => exact ⟨.refcountTable 0, rfl, rfl⟩
  | c + 2 => exact ⟨.l1 c, by omega, by omega⟩

/-- The header's fields; of the number of L1 entries it has the low half. -/
theorem Finished.fields : 2 ^ file.be 20 4 = cs ∧ file.be 36 4 = w.l1Size % 2 ^ 32 ∧ file.be 40 8 = 2 * cs ∧
    file.be 48 8 = cs ∧ file.be 56 4 = 1 ∧ file.be 96 4 = 4 := by
  have hcs : cs = 65536 := by simp only [cs]
  have hbe : ∀ {off n}, off + n ≤ 104 → file.be off n = w.header.be off n := fun hin => h.be_header (by omega)
  obtain ⟨-, -, -, -, hbits, -, -, hl1Size, hl1Off, htable, hclusters, -, horder⟩ := w.header_be
  rw [hbe (by omega), hbe (by omega), hbe (by omega), hbe (by omega), hbe (by omega), hbe (by omega), hbits]
  exact ⟨hcs.symm, hl1Size, hl1Off, htable, hclusters, horder⟩

/-- The refcount table as it is read off the file. -/
theorem Finished.be_refcounts {b : ℕ} (hb : b < l2Entries) :
    file.be (cs + 8 * b) 8 = if b < blocks then (clusters + b) * cs else 0 := by
  have hcs : cs = 8 * l2Entries := by simp [cs, l2Entries]
  have hsmall := h.lt
  refine @be_of_table file cs 8 b (fun b => if b < blocks then (clusters + b) * cs else 0) (fun n hn => ?_) ?_
  · rw [Nat.add_assoc]
    exact h.refcounts _ (by omega)
  · split_ifs with hlt
    · have hle : (clusters + b) * cs ≤ (clusters + blocks) * cs := Nat.mul_le_mul_right cs (by omega)
      exact (hle.trans_lt hsmall).trans (by decide)
    · exact Nat.pow_pos (Nat.succ_pos 255)

theorem Finished.entryOffset_l1 (hw : w.Sound) {i : ℕ} (hi : i < w.l1Size) {off : ℕ} :
    entryOffset (file.be (2 * cs + 8 * i) 8) = some off ↔
      ∃ k table, w.l2.sorted[k]? = some (i, table) ∧ off = w.tableOffset k := by
  rw [h.be_l1 hw hi]
  have hat : ∀ k table, w.l2.sorted[k]? = some (i, table) → entryOffset (l1 i) = some (w.tableOffset k) := by
    intro k table hk
    obtain ⟨m, hm, hlt, hpos, -⟩ := h.tableOffset_eq hw (List.getElem?_eq_some_iff.mp hk).1
    have hsmall : m * cs < 2 ^ 56 := lt_of_le_of_lt (mul_le_mul_right cs (by omega)) h.lt
    rw [(h.tables k i table hk).1, hm, entryOffset_entry hpos hsmall]
  constructor
  · intro hoff
    cases htable : w.l2.lookup i with
    | none =>
      rw [h.absent i htable] at hoff
      nomatch hoff
    | some table =>
      obtain ⟨k, hk⟩ := List.mem_iff_getElem?.mp (Table.mem_sorted.mpr htable)
      exact ⟨k, table, hk, (some.inj ((hat k table hk).symm.trans hoff)).symm⟩
  · rintro ⟨k, table, hk, rfl⟩
    exact hat k table hk

theorem Finished.entryOffset_l2 (hw : w.Sound) {k i j : ℕ} {table : ℕ → ℕ}
    (hk : w.l2.sorted[k]? = some (i, table)) (hj : j < l2Entries) :
    entryOffset (file.be (w.tableOffset k + 8 * j) 8) = w.hostOffset (i * l2Entries + j) := by
  rw [h.be_l2 hw hk hj]
  cases hhost : w.hostOffset (i * l2Entries + j) with
  | none => rw [elim_none, entryOffset, Nat.zero_and, if_pos rfl]
  | some host =>
    obtain ⟨-, n, rfl, hfirst, -⟩ := hw.host _ _ hhost
    obtain ⟨n', hn, -, hsmall⟩ := h.host_lt hw hhost
    rw [← hn] at hsmall
    have hpos : 0 < n := lt_of_lt_of_le (Nat.lt_of_lt_of_le Nat.two_pos (Nat.le_add_right _ _)) hfirst
    rw [elim_some, entryOffset_entry hpos hsmall]

theorem Finished.tableOffset_next (hw : w.Sound) (k : ℕ) : w.tableOffset k = (w.next / cs + k) * cs := by
  rw [tableOffset, Nat.add_mul, ← (h.regions hw).1]

theorem Finished.blockOffset (hw : w.Sound) {b : ℕ} (hb : b < blocks) :
    entryOffset (file.be (cs + 8 * b) 8) = some ((clusters + b) * cs) := by
  obtain ⟨-, hfirst, hclusters⟩ := h.regions hw
  have hle := h.blocks_le
  have hmin : 2 ≤ w.firstData := Nat.le_add_right _ _
  rw [h.be_refcounts (by omega), if_pos hb]
  exact entryOffset_plain (by omega) (lt_of_le_of_lt (Nat.mul_le_mul_right cs (by omega)) h.lt)

/-- A reference leads where it is placed, also if the header has not the number of all L1 entries. -/
theorem Finished.placed_of_offset (hw : w.Sound) {off : ℕ} (hr : r.offset file = some off) :
    ∃ c, w.Placed clusters blocks c r ∧ off = c * cs := by
  obtain ⟨hsize, hl1Size, hl1Off, htableOff, hone, -⟩ := h.fields
  have hentries : cs / 8 = l2Entries := by simp [cs, l2Entries]
  have hle : file.be 36 4 ≤ w.l1Size := hl1Size.trans_le (Nat.mod_le _ _)
  cases r with
  | header =>
    rw [Reference.offset, some_inj] at hr
    exact ⟨0, rfl, hr.symm.trans (Nat.zero_mul cs).symm⟩
  | refcountTable k =>
    rw [Reference.offset, hone, htableOff, hsize, ite_none_right_eq_some, some_inj, Nat.lt_one_iff] at hr
    obtain ⟨rfl, rfl⟩ := hr
    exact ⟨1, ⟨rfl, rfl⟩, by rw [Nat.zero_mul, Nat.one_mul, Nat.add_zero]⟩
  | l1 k =>
    rw [Reference.offset, hl1Off, hsize, ite_none_right_eq_some, some_inj, ← Nat.add_mul] at hr
    obtain ⟨hk, rfl⟩ := hr
    have hclusters : divCeil (file.be 36 4 * 8) cs ≤ l1Clusters w.l1Size := Nat.div_le_div_right (by omega)
    exact ⟨2 + k, ⟨hk.trans_le hclusters, rfl⟩, rfl⟩
  | l2 i =>
    rw [Reference.offset, hl1Off, ite_none_right_eq_some] at hr
    obtain ⟨k, table, hk, rfl⟩ := (h.entryOffset_l1 hw (hr.1.trans_le hle)).mp hr.2
    exact ⟨_, ⟨k, table, hk, rfl⟩, h.tableOffset_next hw k⟩
  | data i j =>
    rw [Reference.offset, hl1Off, hsize, hentries, ite_none_right_eq_some, bind_eq_some_iff] at hr
    obtain ⟨⟨hi, hj⟩, t, ht, hoff⟩ := hr
    obtain ⟨k, table, hk, rfl⟩ := (h.entryOffset_l1 hw (hi.trans_le hle)).mp ht
    rw [h.entryOffset_l2 hw hk hj] at hoff
    obtain ⟨n, rfl, -⟩ := h.host_lt hw hoff
    exact ⟨n, ⟨hj, hoff⟩, rfl⟩
  | refcountBlock b =>
    rw [Reference.offset, hone, htableOff, hsize, hentries, Nat.one_mul, ite_none_right_eq_some] at hr
    obtain ⟨hb, hoff⟩ := hr
    by_cases hlt : b < blocks
    · exact ⟨_, ⟨hlt, rfl⟩, (some.inj ((h.blockOffset hw hlt).symm.trans hoff)).symm⟩
    · rw [h.be_refcounts hb, if_neg hlt] at hoff
      cases hoff

/-- Each place is referred to, if the header has the number of all L1 entries. -/
theorem Finished.offset_of_placed (hw : w.Sound) (hl1 : w.l1Size < 2 ^ 32) (hr : w.Placed clusters blocks c r) :
    r.offset file = some (c * cs) := by
  obtain ⟨hsize, hl1Size, hl1Off, htableOff, hone, -⟩ := h.fields
  rw [Nat.mod_eq_of_lt hl1] at hl1Size
  have hentries : cs / 8 = l2Entries := by simp [cs, l2Entries]
  have hsorted : ∀ {i k table}, w.l2.sorted[k]? = some (i, table) → i < w.l1Size := fun hk =>
    hw.tables _ _ (Table.mem_sorted.mp (List.mem_of_getElem? hk))
  cases r with
  | header => rw [Reference.offset, hr, Nat.zero_mul]
  | refcountTable k =>
    obtain ⟨rfl, rfl⟩ := hr
    rw [Reference.offset, hone, htableOff, if_pos Nat.one_pos, Nat.zero_mul, Nat.one_mul, Nat.add_zero]
  | l1 k =>
    obtain ⟨hk, rfl⟩ := hr
    rw [Reference.offset, hl1Size, hl1Off, hsize, ← Nat.add_mul]
    exact if_pos hk
  | l2 i =>
    obtain ⟨k, table, hk, rfl⟩ := hr
    rw [Reference.offset, hl1Size, hl1Off, if_pos (hsorted hk)]
    exact (h.entryOffset_l1 hw (hsorted hk)).mpr ⟨k, table, hk, (h.tableOffset_next hw k).symm⟩
  | data i j =>
    obtain ⟨hj, hhost⟩ := hr
    have hdiv : (i * l2Entries + j) / l2Entries = i :=
      ((Nat.div_mod_unique (Nat.zero_lt_of_lt hj)).mpr ⟨by rw [Nat.mul_comm, Nat.add_comm], hj⟩).1
    obtain ⟨table, htable, -⟩ := bind_eq_some_iff.mp hhost
    rw [hdiv] at htable
    obtain ⟨k, hk⟩ := List.mem_iff_getElem?.mp (Table.mem_sorted.mpr htable)
    have hi := hsorted hk
    rw [Reference.offset, hl1Size, hl1Off, hsize, hentries, if_pos ⟨hi, hj⟩, bind_eq_some_iff]
    exact ⟨_, (h.entryOffset_l1 hw hi).mpr ⟨k, table, hk, rfl⟩, (h.entryOffset_l2 hw hk hj).trans hhost⟩
  | refcountBlock b =>
    obtain ⟨hb, rfl⟩ := hr
    have hle := h.blocks_le
    rw [Reference.offset, hone, htableOff, hsize, hentries, Nat.one_mul, if_pos (by omega)]
    exact h.blockOffset hw hb

/-- Where the number of L1 entries does not fit the header, the part of the L1 table that follows what the
header has of it is not referred to. -/
theorem Finished.exists_unreferenced (hw : w.Sound) (hl1 : 2 ^ 32 ≤ w.l1Size) :
    ∃ c, c * cs < file.len ∧ ∀ r, Reference.offset file r ≠ some (c * cs) := by
  obtain ⟨hsize, hl1Size, -⟩ := h.fields
  have hk : divCeil (file.be 36 4 * 8) (2 ^ file.be 20 4) < l1Clusters w.l1Size := by
    rw [hsize, hl1Size]
    unfold l1Clusters divCeil cs
    omega
  have hplace : w.Placed clusters blocks (2 + divCeil (file.be 36 4 * 8) (2 ^ file.be 20 4)) (.l1 _) := ⟨hk, rfl⟩
  refine ⟨_, h.placed_lt_len hw hplace, fun r hr => ?_⟩
  obtain ⟨c, hplaced, heq⟩ := h.placed_of_offset hw hr
  rw [← Nat.eq_of_mul_eq_mul_right cs_pos heq] at hplaced
  rw [h.placed_inj hw hplaced hplace, Reference.offset, if_neg (Nat.lt_irrefl _)] at hr
  cases hr

/-- Each cluster of the file is counted once. -/
theorem Finished.refcount (hc : c < clusters + blocks) : refcount file c = 1 := by
  obtain ⟨hsize, -, -, htableOff, -, horder⟩ := h.fields
  have hpos : 0 < rcPerBlock := by decide
  have henough := h.enough
  have hle := h.blocks_le
  have hcs : cs = 2 * rcPerBlock := by simp [cs, rcPerBlock]
  have hper : cs / 2 = rcPerBlock := by rw [hcs, Nat.mul_div_cancel_left _ Nat.two_pos]
  have hb : c / rcPerBlock < blocks := (Nat.div_lt_iff_lt_mul hpos).mpr (by omega)
  have hsplit := Nat.div_add_mod' c rcPerBlock
  have hmod := Nat.mod_lt c hpos
  have hlast : c < (c / rcPerBlock + 1) * rcPerBlock := by
    rw [Nat.add_mul, Nat.one_mul]
    omega
  have hcount : file.be ((clusters + c / rcPerBlock) * cs + 2 * (c % rcPerBlock)) 2 =
      if c / rcPerBlock * rcPerBlock + c % rcPerBlock <
        min ((c / rcPerBlock + 1) * rcPerBlock) (clusters + blocks) then 1 else 0 := by
    refine @be_of_table file ((clusters + c / rcPerBlock) * cs) 2 (c % rcPerBlock) (fun i =>
      if c / rcPerBlock * rcPerBlock + i < min ((c / rcPerBlock + 1) * rcPerBlock) (clusters + blocks) then 1
      else 0) (fun n hn => ?_) ?_
    · rw [Nat.add_assoc]
      exact h.counts _ hb _ (by omega)
    · split_ifs <;> decide
  unfold Disk.refcount
  rw [horder, hsize, htableOff]
  change file.be (file.be (cs + 8 * (c / (cs / 2))) 8 + 2 * (c % (cs / 2))) 2 = 1
  rw [hper, h.be_refcounts (by omega), if_pos hb, hcount, hsplit, if_pos (lt_min hlast hc)]

end

end Qcow2Writer

end

/-!
## Images are read back as they were written

Any writes and imports into a new image, then its finishing: the file is opened, and what is read from it
is what was last written, as it was read from the writer. Each cluster of the file is referred to once and
counted so. This is so just if the number of L1 entries fits the header's field, of which the writer
keeps the low half: an image of 2^61 bytes has 2^32 entries, and is opened as one with none.
-/

namespace Qcow2Writer

inductive Call where
  | writeAt (off : ℕ) (data : Bytes)
  | importRaw (raw : SparseFile)

/-- Make a call; one that fails is refused before it changes anything. -/
def call (w : Qcow2Writer) : Call → Qcow2Writer
  | .writeAt off data => (w.writeAt off data).toOption.getD w
  | .importRaw raw => (w.importRaw raw).toOption.getD w

/-- Make calls on a new image. -/
def run (size : ℕ) (calls : List Call) : Qcow2Writer := calls.foldl call (create size)

instance (f : ℕ → UInt8) (size k : ℕ) : Decidable (BlockHolds f size k) :=
  decidable_of_iff (∃ j, j < size ∧ j / cs = k ∧ f j ≠ 0)
    ⟨fun ⟨j, hj, hk, hne⟩ => ⟨j, hk, hj, hne⟩, fun ⟨j, hk, hj, hne⟩ => ⟨j, hj, hk, hne⟩⟩

/-- The disk after a call: a write puts its bytes, an import the blocks of the raw image that are not all
zero, and neither does anything that does not fit. -/
def Call.apply (size : ℕ) (disk : ℕ → UInt8) : Call → ℕ → UInt8
  | .writeAt off data, i =>
    if off + data.length ≤ size ∧ off ≤ i ∧ i < off + data.length then data.getD (i - off) 0 else disk i
  | .importRaw raw, i =>
    if raw.file.len ≤ size ∧ BlockHolds raw.file.byte size (i / cs) then raw.file.byte i else disk i

/-- The disk that calls leave, at first all zero. -/
def written (size : ℕ) (calls : List Call) : ℕ → UInt8 := calls.foldl (Call.apply size) fun _ => 0

variable {w : Qcow2Writer} {disk : ℕ → UInt8} {size : ℕ}

structure Holds (w : Qcow2Writer) (size : ℕ) (disk : ℕ → UInt8) : Prop where
  sound : w.Sound
  virtualSize : w.virtualSize = size
  content : ∀ i < size, w.content i = disk i

/-- After a call the writer holds what the call makes of the disk. -/
theorem Holds.call (h : w.Holds size disk) (c : Call) : (w.call c).Holds size (c.apply size disk) := by
  obtain ⟨hsound, rfl, hcontent⟩ := h
  cases c with
  | writeAt off data =>
    by_cases hfits : off + data.length ≤ w.virtualSize
    · obtain ⟨w', hw', hsound', hsize', hcontent'⟩ := hsound.writeAt hfits
      have hcall : w.call (.writeAt off data) = w' := by rw [Qcow2Writer.call, hw']; rfl
      rw [hcall]
      refine ⟨hsound', hsize', fun i hi => ?_⟩
      rw [hcontent', Call.apply, hcontent i hi]
      exact if_congr (and_iff_right hfits).symm rfl rfl
    · have hcall : w.call (.writeAt off data) = w := by
        rw [Qcow2Writer.call, Qcow2Writer.writeAt, if_pos (not_le.mp hfits)]
        rfl
      rw [hcall]
      refine ⟨hsound, rfl, fun i hi => ?_⟩
      rw [Call.apply, if_neg fun hin => hfits hin.1, hcontent i hi]
  | importRaw raw =>
    by_cases hfits : raw.file.len ≤ w.virtualSize
    · obtain ⟨w', hw', hsound', hsize', hcontent'⟩ := hsound.importRaw hfits
      have hcall : w.call (.importRaw raw) = w' := by rw [Qcow2Writer.call, hw']; rfl
      rw [hcall]
      refine ⟨hsound', hsize', fun i hi => ?_⟩
      obtain ⟨hcopied, hkept⟩ := hcontent' i hi
      rw [Call.apply]
      split_ifs with hin
      · exact hcopied hin.2
      · rw [hkept fun hholds => hin ⟨hfits, hholds⟩, hcontent i hi]
    · have hcall : w.call (.importRaw raw) = w := by
        rw [Qcow2Writer.call, Qcow2Writer.importRaw, if_pos (not_le.mp hfits)]
        rfl
      rw [hcall]
      refine ⟨hsound, rfl, fun i hi => ?_⟩
      rw [Call.apply, if_neg fun hin => hfits hin.1, hcontent i hi]

theorem Holds.calls (h : w.Holds size disk) (calls : List Call) :
    (calls.foldl Qcow2Writer.call w).Holds size (calls.foldl (Call.apply size) disk) := by
  induction calls generalizing w disk with
  | nil => exact h
  | cons c calls ih => exact ih (h.call c)

theorem holds_run (size : ℕ) (calls : List Call) : (run size calls).Holds size (written size calls) :=
  Holds.calls ⟨sound_create size, by simp only [create], fun i _ => content_create size i⟩ calls

theorem Holds.l1Size_lt_iff (h : w.Holds size disk) : w.l1Size < 2 ^ 32 ↔ size ≤ (2 ^ 32 - 1) * 2 ^ 29 := by
  have hspan : cs * l2Entries = 536870912 := by simp only [cs, l2Entries]
  rw [h.sound.l1Size, h.virtualSize, hspan]
  unfold divCeil
  omega

/-- A finished image is opened and read as it was written, and each cluster of its file is referred to
once and counted so, just if the number of its L1 entries fits the header. -/
theorem finished_reads_back {size : ℕ} (calls : List Call) {file : File}
    (hfinish : (run size calls).finish = .ok file) :
    ((∀ openBacking, ∃ q, Qcow2.openFile openBacking file = .ok q ∧ q.layer.virtualSize = size ∧
        ∀ off n, off + n ≤ size →
          q.readAt off n = .ok ((List.range n).map fun i => written size calls (off + i)) ∧
          (run size calls).readAt off n = q.readAt off n) ∧
      cs ∣ file.len ∧
      (∀ r off, Reference.offset file r = some off → cs ∣ off ∧ off < file.len) ∧
      ∀ c, c * cs < file.len → (∃! r, Reference.offset file r = some (c * cs)) ∧ refcount file c = 1) ↔
    size ≤ (2 ^ 32 - 1) * 2 ^ 29 := by
  have hrun := holds_run size calls
  obtain ⟨l1, clusters, blocks, h⟩ := hrun.sound.finish hfinish
  rw [← hrun.l1Size_lt_iff]
  constructor
  · rintro ⟨-, -, -, honce⟩
    by_contra hlarge
    obtain ⟨c, hc, hnone⟩ := h.exists_unreferenced hrun.sound (Nat.not_lt.mp hlarge)
    obtain ⟨r, hr, -⟩ := (honce c hc).1
    exact hnone r hr
  intro hl1
  refine ⟨fun openBacking => ⟨_, h.openFile hrun.sound hl1 openBacking, hrun.virtualSize, fun off n hin => ?_⟩, ?_,
    fun r off hoff => ?_, fun c hc => ?_⟩
  · have hfits : off + n ≤ (run size calls).virtualSize := hin.trans_eq hrun.virtualSize.symm
    have hdisk : ((List.range n).map fun i => (run size calls).content (off + i)) =
        (List.range n).map fun i => written size calls (off + i) := by
      refine List.map_congr_left fun i hi => hrun.content _ ?_
      have := List.mem_range.mp hi
      omega
    rw [h.readAt hrun.sound hfits, hrun.sound.readAt hfits, hdisk]
    exact ⟨rfl, rfl⟩
  · rw [h.len]
    exact Nat.dvd_mul_left _ _
  · obtain ⟨c, hplaced, rfl⟩ := h.placed_of_offset hrun.sound hoff
    exact ⟨Nat.dvd_mul_left _ _, h.placed_lt_len hrun.sound hplaced⟩
  · rw [h.len] at hc
    have hlt := Nat.lt_of_mul_lt_mul_right hc
    obtain ⟨r, hr⟩ := h.exists_placed hrun.sound hlt
    refine ⟨⟨r, h.offset_of_placed hrun.sound hl1 hr, fun r' hr' => ?_⟩, h.refcount hlt⟩
    obtain ⟨c', hplaced, heq⟩ := h.placed_of_offset hrun.sound hr'
    rw [← Nat.eq_of_mul_eq_mul_right cs_pos heq] at hplaced
    exact h.placed_inj hrun.sound hplaced hr

/-- One byte is written at the start of an image of two clusters. -/
theorem finished_reads_back_byte : ∃ file, (run 131072 [.writeAt 0 [7]]).finish = .ok file ∧
    ∃ q, Qcow2.openFile (fun _ => .error .backing) file = .ok q ∧ q.readAt 0 1 = .ok [7] := by
  obtain ⟨file, hfinish, -⟩ := @exists_ok_of_any _ _ (run 131072 [.writeAt 0 [7]]).finish
    (fun _ => true) (by decide +kernel)
  obtain ⟨hopen, -⟩ := (finished_reads_back _ hfinish).mpr (by omega)
  obtain ⟨q, hq, -, hread⟩ := hopen fun _ => .error .backing
  refine ⟨file, hfinish, q, hq, ?_⟩
  rw [(hread 0 1 (by omega)).1]
  decide +kernel

/-- The number of L1 entries of an image of 2^61 bytes does not fit its header: the byte written at its
start is lost. -/
theorem finished_reads_zero : ∃ file, (run (2 ^ 61) [.writeAt 0 [7]]).finish = .ok file ∧
    (run (2 ^ 61) [.writeAt 0 [7]]).readAt 0 1 = .ok [7] ∧
    ∃ q, Qcow2.openFile (fun _ => .error .backing) file = .ok q ∧ q.readAt 0 1 = .ok [0] := by
  obtain ⟨file, hfinish, hopen⟩ := @exists_ok_of_any _ _ (run (2 ^ 61) [.writeAt 0 [7]]).finish
    (fun file => (Qcow2.openFile (fun _ => .error .backing) file).toOption.any fun q =>
      q.readAt 0 1 = .ok [0]) (by decide +kernel)
  obtain ⟨q, hq, hread⟩ := exists_ok_of_any hopen
  exact ⟨file, hfinish, by decide +kernel, q, hq, of_decide_eq_true hread⟩

end Qcow2Writer

end Virtkit.Disk
