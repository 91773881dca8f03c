import Virtkit.Disk.Copy

/-!
# The file of a finished image

Where each part of a finished image is: the header, the refcount table and the L1 table, the data as it
was, the L2 tables in the order of their indices, and the refcount blocks, as many as count themselves
too.
-/

namespace Virtkit.Disk.Qcow2Writer

open Virtkit.Common List Option Nat

variable (w : Qcow2Writer)

section

variable {w : Qcow2Writer} {file : File} {next total : ℕ} {l1 : ℕ → ℕ} {tables : List (ℕ × (ℕ → ℕ))}

/-- Writing the L2 tables adds a cluster for each, fills the L1 entries, and leaves the rest. -/
theorem writeTables_spec (hlen : file.len = next) (hkeys : (tables.map (·.1)).Nodup) :
    let written := writeTables file next l1 tables
    written.2.1 = next + tables.length * cs ∧ written.1.len = next + tables.length * cs ∧
    (∀ i, i < next → written.1.byte i = file.byte i) ∧
    (∀ k idx table, tables[k]? = some (idx, table) → written.2.2 idx = (next + k * cs) ||| oflagCopied ∧
      ∀ j < cs, written.1.byte (next + k * cs + j) = tableBytes table j) ∧
    ∀ idx, idx ∉ tables.map (·.1) → written.2.2 idx = l1 idx := by
  induction tables generalizing file next l1 with
  | nil => exact ⟨by simp [writeTables], by simp [writeTables, hlen], fun _ _ => rfl, nofun, fun _ _ => rfl⟩
  | cons first tables ih =>
    obtain ⟨idx, table⟩ := first
    obtain ⟨hnot, hkeys⟩ := nodup_cons.mp hkeys
    have hlen₁ : (file.writeFn next cs (tableBytes table)).len = next + cs := by
      rw [File.len_writeFn cs_pos, hlen]
      omega
    obtain ⟨hnext, hend, hbefore, htables, hothers⟩ := @ih (file.writeFn next cs (tableBytes table)) (next + cs)
        (Function.update l1 idx (next ||| oflagCopied)) hlen₁ hkeys
    have hsum : next + cs + tables.length * cs = next + (tables.length + 1) * cs := by
      rw [Nat.add_mul, Nat.one_mul]
      omega
    rw [length_cons, ← hsum]
    refine ⟨hnext, hend, fun i hi => ?_, fun k idx' table' hk => ?_, fun idx' hnot' => ?_⟩
    · refine (hbefore i (by omega)).trans ?_
      rw [File.byte_writeFn, if_neg (by omega)]
    · cases k with
      | zero =>
        obtain ⟨rfl, rfl⟩ := Prod.mk.inj (some.inj hk)
        rw [Nat.zero_mul, Nat.add_zero]
        refine ⟨(hothers idx hnot).trans (Function.update_self ..), fun j hj => ?_⟩
        refine (hbefore _ (by omega)).trans ?_
        rw [File.byte_writeFn, if_pos (by omega), Nat.add_sub_cancel_left]
      | succ k =>
        have hsum : next + cs + k * cs = next + (k + 1) * cs := by
          rw [Nat.add_mul, Nat.one_mul]
          omega
        rw [← hsum]
        exact htables k idx' table' hk
    · rw [map_cons, mem_cons, not_or] at hnot'
      exact (hothers idx' hnot'.2).trans (Function.update_of_ne hnot'.1 ..)

/-- The counts of a refcount block: one for each cluster there is. -/
def blockBytes (total b : ℕ) : ℕ → UInt8 :=
  beTable 2 fun i => if b * rcPerBlock + i < min ((b + 1) * rcPerBlock) total then 1 else 0

/-- Writing refcount blocks adds them after the file's end. -/
theorem writeBlocks_spec {b n : ℕ} (hlen : file.len = next + b * cs) :
    (writeBlocks file next total b n).len = next + (b + n) * cs ∧
    (∀ i, i < next + b * cs → (writeBlocks file next total b n).byte i = file.byte i) ∧
    ∀ k, b ≤ k → k < b + n → ∀ j < cs,
      (writeBlocks file next total b n).byte (next + k * cs + j) = blockBytes total k j := by
  induction n generalizing file b with
  | zero => exact ⟨hlen, fun _ _ => rfl, fun k hb hn => by omega⟩
  | succ n ih =>
    have hsum : next + (b + 1) * cs = next + b * cs + cs := by rw [Nat.add_mul, Nat.one_mul, Nat.add_assoc]
    have hlen₁ : (file.writeFn (next + b * cs) cs (blockBytes total b)).len = next + (b + 1) * cs := by
      rw [File.len_writeFn cs_pos, hlen]
      omega
    obtain ⟨hend, hbefore, hblocks⟩ := ih hlen₁
    have hcount : b + 1 + n = b + (n + 1) := by omega
    rw [hcount] at hend hblocks
    refine ⟨hend, fun i hi => ?_, fun k hb hn j hj => ?_⟩
    · refine (hbefore i (by omega)).trans ?_
      rw [File.byte_writeFn, if_neg (by omega)]
    · rcases Nat.eq_or_lt_of_le hb with rfl | hlt
      · refine (hbefore _ (by omega)).trans ?_
        rw [File.byte_writeFn, if_pos (by omega), Nat.add_sub_cancel_left]
      · exact hblocks k hlt hn j hj

/-- The blocks found count all clusters, and themselves. -/
theorem refcountBlocks_spec {clusters fuel blocks : ℕ} (hfuel : clusters < blocks + fuel) (hpos : 0 < blocks) :
    clusters + refcountBlocks clusters fuel blocks ≤ refcountBlocks clusters fuel blocks * rcPerBlock ∧
    0 < refcountBlocks clusters fuel blocks := by
  have henough : ∀ b, divCeil (clusters + b) rcPerBlock ≤ b → clusters + b ≤ b * rcPerBlock := by
    intro b hb
    unfold divCeil rcPerBlock at *
    omega
  induction fuel generalizing blocks with
  | zero =>
    refine ⟨henough blocks ?_, hpos⟩
    unfold divCeil rcPerBlock
    omega
  | succ fuel ih =>
    rw [refcountBlocks]
    split_ifs with hneed
    · exact ⟨henough blocks hneed, hpos⟩
    · exact ih (by omega) (by omega)

/-- The offset of an L2 table, and where the refcount blocks start. -/
def tableOffset (k : ℕ) : ℕ := w.next + k * cs

/-- A finished file: its L1 table, the clusters before the refcount blocks, and the blocks. -/
structure Finished (w : Qcow2Writer) (file : File) (l1 : ℕ → ℕ) (clusters blocks : ℕ) : Prop where
  clusters_mul : clusters * cs = w.tableOffset w.l2.sorted.length
  enough : clusters + blocks ≤ blocks * rcPerBlock
  blocks_pos : 0 < blocks
  blocks_le : blocks ≤ l2Entries
  len : file.len = (clusters + blocks) * cs
  header : ∀ i < cs, file.byte i = w.header.byte i
  refcounts : ∀ i < cs,
    file.byte (cs + i) = beTable 8 (fun b => if b < blocks then (clusters + b) * cs else 0) i
  l1Bytes : ∀ i < w.l1Size * 8, file.byte (2 * cs + i) = beTable 8 l1 i
  data : ∀ i, w.firstData * cs ≤ i → i < w.next → file.byte i = w.file.byte i
  tables : ∀ k idx table, w.l2.sorted[k]? = some (idx, table) → l1 idx = w.tableOffset k ||| oflagCopied ∧
    ∀ j < cs, file.byte (w.tableOffset k + j) = tableBytes table j
  absent : ∀ idx, w.l2.lookup idx = none → l1 idx = 0
  counts : ∀ b < blocks, ∀ j < cs, file.byte ((clusters + b) * cs + j) = blockBytes (clusters + blocks) b j

/-- The L1 table ends where data starts. -/
theorem l1_fits : 2 * cs + w.l1Size * 8 ≤ w.firstData * cs := by
  unfold firstData l1Clusters divCeil cs
  omega

theorem nodup_keys_sorted : (w.l2.sorted.map (·.1)).Nodup := by
  have hperm : (w.l2.sorted.map (·.1)).Perm w.l2.keys := by
    have hsorted := perm_insertionSort (fun a b : ℕ × (ℕ → ℕ) => a.1 ≤ b.1) (w.l2.entries.map fun e => (e.1, e.2))
    have hkeys : (w.l2.entries.map fun e => (e.1, e.2)).map (·.1) = w.l2.keys := by
      rw [List.map_map]
      rfl
    rw [← hkeys]
    exact hsorted.map _
  exact hperm.nodup_iff.mpr w.l2.keys_nodup

/-- What a finished file has, byte by byte. -/
theorem Sound.finish (h : w.Sound) {file : File} (hok : w.finish = .ok file) :
    ∃ l1 clusters blocks, Finished w file l1 clusters blocks := by
  obtain ⟨m, hm⟩ := h.next
  obtain ⟨hnext, hlen, hbefore, htables, hothers⟩ :=
    @writeTables_spec w.file w.next (fun _ => 0) w.l2.sorted h.len w.nodup_keys_sorted
  have hmul : w.next + w.l2.sorted.length * cs = (w.firstData + m + w.l2.sorted.length) * cs := by
    rw [hm, ← Nat.add_mul]
  unfold Qcow2Writer.finish at hok
  generalize hwritten : writeTables w.file w.next (fun _ => 0) w.l2.sorted = written at *
  obtain ⟨tabled, next', l1⟩ := written
  dsimp only at hok hnext hlen hbefore htables hothers
  have hclusters : next' / cs = w.firstData + m + w.l2.sorted.length := by
    rw [hnext, hmul]
    exact Nat.mul_div_cancel _ cs_pos
  rw [hclusters] at hok
  generalize hC : w.firstData + m + w.l2.sorted.length = clusters at *
  obtain ⟨henough, hpos⟩ := @refcountBlocks_spec clusters (clusters + 1) 1 (by omega) (by omega)
  generalize refcountBlocks clusters (clusters + 1) 1 = blocks at *
  obtain ⟨hle, hok⟩ := check_eq_ok.mp hok
  have hfile := (Except.ok.inj hok).symm
  have hat : ∀ b, (clusters + b) * cs = next' + b * cs := by
    intro b
    rw [hnext, hmul, ← hC, Nat.add_mul]
  obtain ⟨hend, hkept, hblocks⟩ :=
    @writeBlocks_spec tabled next' (clusters + blocks) 0 blocks (by rw [hlen, hnext, Nat.zero_mul]; rfl)
  rw [Nat.zero_mul, Nat.add_zero] at hkept
  rw [Nat.zero_add] at hend
  generalize writeBlocks tabled next' (clusters + blocks) 0 blocks = blocked at *
  have hl1 := w.l1_fits
  have hl1pos : 0 < w.l1Size := by
    rw [h.l1Size]
    exact lt_of_lt_of_le Nat.one_pos (Nat.le_max_right _ _)
  have hfirst : w.firstData * cs ≤ w.next := by
    rw [hm]
    exact Nat.mul_le_mul_right cs (Nat.le_add_right _ _)
  have hcs := cs_pos
  have hbyte : ∀ i, file.byte i = if 0 ≤ i ∧ i < 0 + cs then w.header.byte (i - 0)
      else if 2 * cs ≤ i ∧ i < 2 * cs + w.l1Size * 8 then beTable 8 l1 (i - 2 * cs)
      else if cs ≤ i ∧ i < cs + cs then
        beTable 8 (fun b => if b < blocks then next' + b * cs else 0) (i - cs)
      else blocked.byte i := fun i => by
    rw [hfile]
    rfl
  have hrest : ∀ i, w.firstData * cs ≤ i → file.byte i = blocked.byte i := by
    intro i hi
    rw [hbyte, if_neg (by omega), if_neg (by omega), if_neg (by omega)]
  refine ⟨l1, clusters, blocks, ?_, henough, hpos, Nat.not_lt.mp hle, ?_, fun i hi => ?_, fun i hi => ?_,
    fun i hi => ?_, fun i hi hlt => ?_, fun k idx table hk => ?_, fun idx hidx => ?_, fun b hb j hj => ?_⟩
  · rw [tableOffset, hmul]
  · rw [hfile, File.len_writeFn hcs, File.len_writeFn (by omega), File.len_writeFn hcs, hend, hat]
    omega
  · rw [hbyte, if_pos (by omega)]
    rfl
  · have hentries : (fun b => if b < blocks then (clusters + b) * cs else 0) =
        fun b => if b < blocks then next' + b * cs else 0 := by
      funext b
      rw [hat]
    rw [hbyte, if_neg (by omega), if_neg (by omega), if_pos (by omega), Nat.add_sub_cancel_left, hentries]
  · rw [hbyte, if_neg (by omega), if_pos (by omega), Nat.add_sub_cancel_left]
  · rw [hrest i hi, hkept i (by omega), hbefore i hlt]
  · obtain ⟨hentry, hbytes⟩ := htables k idx table hk
    refine ⟨hentry, fun j hj => ?_⟩
    have hlt : k < w.l2.sorted.length := (List.getElem?_eq_some_iff.mp hk).1
    have hmul : (k + 1) * cs ≤ w.l2.sorted.length * cs := Nat.mul_le_mul_right cs hlt
    rw [Nat.add_mul, Nat.one_mul] at hmul
    rw [tableOffset, hrest _ (by omega), hkept _ (by omega), hbytes j hj]
  · refine hothers idx fun hmem => ?_
    obtain ⟨⟨idx', table⟩, hentry, rfl⟩ := List.mem_map.mp hmem
    nomatch hidx.symm.trans (Table.mem_sorted.mp hentry)
  · rw [hat, hrest _ (by omega)]
    exact hblocks b (Nat.zero_le b) (by omega) j hj

end

/-!
## A finished image is read back

The header of a finished image is that of one its reader takes, and each entry of its tables leads to
where the writer had the cluster. So what the reader reads is what the writer held.
-/

variable {w : Qcow2Writer} {file : File} {l1 : ℕ → ℕ} {clusters blocks : ℕ}

theorem testBit_offsetMask (i : ℕ) : offsetMask.testBit i = (decide (9 ≤ i) && decide (i < 56)) := by
  have hmask : offsetMask = 2 ^ 9 * (2 ^ 47 - 1) := rfl
  rw [hmask, testBit_two_pow_mul, testBit_two_pow_sub_one]
  by_cases hi : 9 ≤ i
  · simp [hi]
    omega
  · simp [hi]

theorem testBit_offset {k : ℕ} (hk : k * cs < 2 ^ 56) {i : ℕ} (hi : i < 16 ∨ 56 ≤ i) : (k * cs).testBit i = false := by
  have hcs : cs = 2 ^ 16 := by simp [cs]
  rcases hi with hi | hi
  · rw [hcs, Nat.mul_comm, Nat.testBit_two_pow_mul, decide_eq_false (by omega), Bool.false_and]
  · exact Nat.testBit_lt_two_pow (hk.trans_le (Nat.pow_le_pow_right (by decide) hi))

theorem testBit_entry (k i : ℕ) : (k * cs ||| oflagCopied).testBit i = ((k * cs).testBit i || decide (63 = i)) := by
  rw [testBit_or, oflagCopied, testBit_two_pow]

/-- The mask keeps the offset of a cluster. -/
theorem plain_offset {k : ℕ} (hk : k * cs < 2 ^ 56) : k * cs &&& offsetMask = k * cs := by
  refine eq_of_testBit_eq fun i => ?_
  rw [testBit_and, testBit_offsetMask]
  by_cases hlow : i < 16 ∨ 56 ≤ i
  · rw [testBit_offset hk hlow, Bool.false_and]
  · have hfirst : 9 ≤ i := by omega
    have hlast : i < 56 := by omega
    simp [hfirst, hlast]

/-- The mask takes the offset out of an entry. -/
theorem entry_offset {k : ℕ} (hk : k * cs < 2 ^ 56) : (k * cs ||| oflagCopied) &&& offsetMask = k * cs := by
  have hflag : oflagCopied &&& offsetMask = 0 := by decide
  rw [Nat.and_or_distrib_right, plain_offset hk, hflag, Nat.or_zero]

/-- An entry has no flag but that it is copied. -/
theorem entry_flag {k b : ℕ} (hk : k * cs < 2 ^ 56) (hb : b < 16 ∨ (56 ≤ b ∧ b ≠ 63)) :
    (k * cs ||| oflagCopied) &&& 2 ^ b = 0 := by
  refine eq_of_testBit_eq fun i => ?_
  rw [testBit_and, testBit_entry, testBit_two_pow, zero_testBit]
  by_cases hi : b = i
  · subst hi
    rw [testBit_offset hk (by omega)]
    simp
    omega
  · simp [hi]

theorem entry_ne_zero (k : ℕ) : k * cs ||| oflagCopied ≠ 0 := by
  intro hzero
  have hbit := testBit_entry k 63
  rw [hzero, zero_testBit, decide_eq_true rfl, Bool.or_true] at hbit
  nomatch hbit

theorem entry_lt {k : ℕ} (hk : k * cs < 2 ^ 56) : k * cs ||| oflagCopied < 256 ^ 8 :=
  or_lt_two_pow (hk.trans (by decide : 2 ^ 56 < 2 ^ 64)) (by decide : oflagCopied < 2 ^ 64)

/-- The header's fields, at their offsets. -/
theorem header_be : w.header.be 0 4 = magic ∧ w.header.be 4 4 = 3 ∧ w.header.be 8 8 = 0 ∧ w.header.be 16 4 = 0 ∧
    w.header.be 20 4 = 16 ∧ w.header.be 24 8 = w.virtualSize % 256 ^ 8 ∧ w.header.be 32 4 = 0 ∧
    w.header.be 36 4 = w.l1Size % 256 ^ 4 ∧ w.header.be 40 8 = 2 * cs ∧ w.header.be 48 8 = cs ∧
    w.header.be 56 4 = 1 ∧ w.header.be 72 8 = 0 ∧ w.header.be 96 4 = 4 := by
  have hempty : ∀ off n, (File.empty.setLen cs).be off n = 0 := by
    intro off n
    refine File.be_eq_zero fun i _ => ?_
    rw [File.byte_setLen]
    split_ifs <;> rfl
  unfold header
  simp (disch := simp) only [File.be_write_self, File.be_write_of_apart, hempty]
  simp [magic, cs]

section

variable (h : Finished w file l1 clusters blocks)
include h

/-- Offsets in the file fit their bits of an entry. -/
theorem Finished.lt : (clusters + blocks) * cs < 2 ^ 56 := by
  have henough := h.enough
  have hle := h.blocks_le
  have hcs : cs = 65536 := by simp only [cs]
  have hrc : blocks * rcPerBlock ≤ 8192 * 32768 := Nat.mul_le_mul hle (by simp [rcPerBlock])
  rw [hcs]
  omega

theorem Finished.be_header {off n : ℕ} (hin : off + n ≤ cs) : file.be off n = w.header.be off n :=
  File.be_congr fun i hi => h.header _ (by omega)

/-- The file has the tables of the header, then data, then L2 tables. -/
theorem Finished.regions (hw : w.Sound) :
    w.next = w.next / cs * cs ∧ w.firstData ≤ w.next / cs ∧ clusters = w.next / cs + w.l2.sorted.length := by
  obtain ⟨m, hm⟩ := hw.next
  have hnext : w.next / cs = w.firstData + m := by
    rw [hm]
    exact Nat.mul_div_cancel _ cs_pos
  have hmul := h.clusters_mul
  rw [tableOffset, hm, ← Nat.add_mul] at hmul
  have hclusters := Nat.eq_of_mul_eq_mul_right cs_pos hmul
  rw [hnext]
  exact ⟨hm, Nat.le_add_right _ _, hclusters⟩

theorem Finished.tableOffset_eq (hw : w.Sound) {k : ℕ} (hk : k < w.l2.sorted.length) :
    ∃ c, w.tableOffset k = c * cs ∧ c + 1 ≤ clusters ∧ 0 < c ∧ c = w.next / cs + k := by
  obtain ⟨hnext, hfirst, hclusters⟩ := h.regions hw
  unfold firstData at hfirst
  exact ⟨_, by rw [tableOffset, Nat.add_mul, ← hnext], by omega, by omega, rfl⟩

/-- The L1 table as it is read off the file. -/
theorem Finished.be_l1 (hw : w.Sound) {idx : ℕ} (hidx : idx < w.l1Size) : file.be (2 * cs + 8 * idx) 8 = l1 idx := by
  refine be_of_table (fun k hk => ?_) ?_
  · rw [Nat.add_assoc]
    exact h.l1Bytes _ (by omega)
  · cases htable : w.l2.lookup idx with
    | none =>
      rw [h.absent idx htable]
      exact Nat.pow_pos (Nat.succ_pos 255)
    | some table =>
      obtain ⟨k, hk⟩ := List.mem_iff_getElem?.mp (Table.mem_sorted.mpr htable)
      obtain ⟨c, hc, hlt, -⟩ := h.tableOffset_eq hw (List.getElem?_eq_some_iff.mp hk).1
      have hsmall := h.lt
      rw [(h.tables k idx table hk).1, hc]
      refine entry_lt (lt_of_le_of_lt (Nat.mul_le_mul_right cs ?_) hsmall)
      omega

end

theorem hostOffset_of_lookup {idx j : ℕ} {table : ℕ → ℕ} (htable : w.l2.lookup idx = some table) (hj : j < l2Entries) :
    w.hostOffset (idx * l2Entries + j) = if table j ≠ 0 then some (table j) else none := by
  have hpos : 0 < l2Entries := Nat.zero_lt_of_lt hj
  obtain ⟨hdiv, hmod⟩ : (idx * l2Entries + j) / l2Entries = idx ∧ (idx * l2Entries + j) % l2Entries = j :=
    (Nat.div_mod_unique hpos).mpr ⟨by rw [Nat.mul_comm, Nat.add_comm], hj⟩
  rw [hostOffset, hdiv, hmod, htable, bind_some]

/-- Data lies before the L2 tables. -/
theorem Finished.host_lt (h : Finished w file l1 clusters blocks) (hw : w.Sound) {c host : ℕ}
    (hhost : w.hostOffset c = some host) : ∃ k, host = k * cs ∧ k < clusters ∧ k * cs < 2 ^ 56 := by
  obtain ⟨-, k, rfl, -, hend⟩ := hw.host c host hhost
  have hsmall := h.lt
  have hbefore : (k + 1) * cs ≤ clusters * cs := by
    rw [h.clusters_mul, tableOffset]
    exact hend.trans (Nat.le_add_right _ _)
  have hlt : k < clusters := Nat.le_of_mul_le_mul_right hbefore cs_pos
  exact ⟨k, rfl, hlt, lt_of_le_of_lt (Nat.mul_le_mul_right cs (by omega)) hsmall⟩

/-- An L2 table as it is read off the file. -/
theorem Finished.be_l2 (h : Finished w file l1 clusters blocks) (hw : w.Sound) {k idx j : ℕ}
    {table : ℕ → ℕ} (hk : w.l2.sorted[k]? = some (idx, table)) (hj : j < l2Entries) :
    file.be (w.tableOffset k + 8 * j) 8 = (w.hostOffset (idx * l2Entries + j)).elim 0 (· ||| oflagCopied) := by
  have hcs : cs = 8 * l2Entries := by simp [cs, l2Entries]
  have hhost := hostOffset_of_lookup (Table.mem_sorted.mp (mem_of_getElem? hk)) hj
  have hentry : (w.hostOffset (idx * l2Entries + j)).elim 0 (· ||| oflagCopied) =
      if table j ≠ 0 then table j ||| oflagCopied else 0 := by
    rw [hhost]
    split_ifs <;> rfl
  rw [hentry]
  refine @be_of_table file (w.tableOffset k) 8 j
    (fun i => if table i ≠ 0 then table i ||| oflagCopied else 0) (fun n hn => ?_) ?_
  · rw [Nat.add_assoc]
    exact (h.tables k idx table hk).2 _ (by omega)
  · split_ifs with hzero
    · rw [if_pos hzero] at hhost
      obtain ⟨m, hm, -, hsmall⟩ := h.host_lt hw hhost
      rw [hm]
      exact entry_lt hsmall
    · exact Nat.pow_pos (Nat.succ_pos 255)

theorem Sound.virtualSize_lt (hw : w.Sound) (hl1 : w.l1Size < 2 ^ 32) : w.virtualSize < 256 ^ 8 := by
  have hsize := hw.l1Size
  have hspan : cs * l2Entries = 536870912 := by simp only [cs, l2Entries]
  rw [hspan] at hsize
  unfold divCeil at hsize
  omega

/-- The image that a finished file is opened as. -/
def reopened (file : File) : Qcow2 :=
  ⟨⟨file, 16, w.virtualSize, fun i => if i < w.l1Size then some (file.be (2 * cs + 8 * i) 8) else none,
    by decide⟩, .none⟩

section

variable (h : Finished w file l1 clusters blocks) (hw : w.Sound)
include h hw

/-- The file is opened, as an image of what was written. -/
theorem Finished.openFile (hl1 : w.l1Size < 2 ^ 32) (openBacking : Bytes → Except Error Backing) :
    Qcow2.openFile openBacking file = .ok (w.reopened file) := by
  have hcs : cs = 65536 := by simp only [cs]
  have hbe : ∀ {off n}, off + n ≤ 104 → file.be off n = w.header.be off n := fun hin => h.be_header (by omega)
  obtain ⟨hmagic, hversion, hname, hnameLen, hbits, hsize, hcrypt, hl1Size, hl1Off, -, -, hfeatures, -⟩ := w.header_be
  rw [Nat.mod_eq_of_lt (hw.virtualSize_lt hl1)] at hsize
  rw [Nat.mod_eq_of_lt (hl1.trans_eq (by decide))] at hl1Size
  have hlen : 2 * cs + w.l1Size * 8 ≤ file.len := by
    obtain ⟨m, hm⟩ := hw.next
    have hfirst : w.firstData * cs ≤ w.next := by
      rw [hm]
      exact Nat.mul_le_mul_right cs (Nat.le_add_right _ _)
    have hmul := h.clusters_mul
    have hfits := w.l1_fits
    rw [h.len, Nat.add_mul, hmul, tableOffset]
    omega
  have hmax : ¬ max (divCeil w.virtualSize (2 ^ 16 * (2 ^ 16 / 8))) 1 * 2 < w.l1Size := by
    have hspan : 2 ^ 16 * (2 ^ 16 / 8) = cs * l2Entries := by simp [cs, l2Entries]
    rw [hspan, ← hw.l1Size, Nat.not_lt]
    exact Nat.le_mul_of_pos_right _ Nat.two_pos
  have hfile : ¬ file.len < 104 := by omega
  have hname : Qcow2.readBackingName file = .ok none := by
    unfold Qcow2.readBackingName
    rw [hbe (by omega), hbe (by omega), hname, hnameLen, if_neg (by omega), if_pos (.inl rfl)]
  have hl1Fits : ¬ (w.l1Size ≠ 0 ∧ file.len < 2 * cs + w.l1Size * 8) := fun hpast => Nat.not_lt.mpr hlen hpast.2
  unfold Qcow2.openFile
  simp only [hbe (show 4 + 4 ≤ 104 by omega), hbe (show 20 + 4 ≤ 104 by omega),
    hbe (show 24 + 8 ≤ 104 by omega), hbe (show 36 + 4 ≤ 104 by omega), hbe (show 40 + 8 ≤ 104 by omega),
    hbe (show 0 + 4 ≤ 104 by omega), hbe (show 32 + 4 ≤ 104 by omega), hbe (show 72 + 8 ≤ 104 by omega),
    hmagic, hversion, hbits, hsize, hcrypt, hl1Size, hl1Off, hfeatures]
  rw [if_neg hfile, if_neg (fun hne => hne rfl), if_neg (by omega), if_neg (fun hne => hne rfl),
    if_neg (by simp), dif_neg (by omega), if_neg hmax, if_neg hl1Fits, hname]
  rfl

/-- The image has each cluster where the writer has it. -/
theorem Finished.locate {c : ℕ} (hc : c * cs < w.virtualSize) :
    (w.reopened file).layer.locate c = .ok ((w.hostOffset c).elim .unallocated .data) := by
  have hentries : (w.reopened file).layer.l2Entries = l2Entries := by
    change 2 ^ 16 / 8 = l2Entries
    decide
  have hidx : c / l2Entries < w.l1Size := by
    rw [hw.l1Size]
    exact index_lt hc
  have hl1 : (w.reopened file).layer.l1 (c / l2Entries) = some (l1 (c / l2Entries)) := by
    rw [← h.be_l1 hw hidx]
    exact if_pos hidx
  unfold Layer.locate
  rw [hentries, hl1]
  dsimp only
  cases htable : w.l2.lookup (c / l2Entries) with
  | none => rw [h.absent _ htable, hostOffset, htable, Nat.zero_and, if_pos rfl, bind_none, elim_none]
  | some table =>
    obtain ⟨k, hk⟩ := List.mem_iff_getElem?.mp (Table.mem_sorted.mpr htable)
    obtain ⟨m, hm, hlt, hpos, -⟩ := h.tableOffset_eq hw (List.getElem?_eq_some_iff.mp hk).1
    have hsmall : m * cs < 2 ^ 56 := lt_of_le_of_lt (Nat.mul_le_mul_right cs (by omega)) h.lt
    have hoffset : l1 (c / l2Entries) &&& offsetMask = m * cs := by
      rw [(h.tables k _ table hk).1, hm, entry_offset hsmall]
    have hin : (w.reopened file).layer.l2Entry (m * cs) (c % l2Entries) =
        .ok ((w.hostOffset c).elim 0 (· ||| oflagCopied)) := by
      have hentry := h.be_l2 hw hk (Nat.mod_lt c (by simp [l2Entries]))
      rw [Nat.div_add_mod', hm] at hentry
      rw [← hentry]
      refine if_pos (le_of_le_of_eq ?_ h.len.symm)
      have hsize : (w.reopened file).layer.clusterSize = cs := by simp [reopened, Layer.clusterSize, cs]
      rw [hsize, ← Nat.succ_mul]
      exact Nat.mul_le_mul_right cs (by omega)
    rw [hoffset, if_neg (Nat.mul_pos hpos cs_pos).ne', hin, ok_bind]
    cases hhost : w.hostOffset c with
    | none => rw [elim_none, elim_none, if_pos rfl]
    | some host =>
      obtain ⟨n, rfl, -, hsmall⟩ := h.host_lt hw hhost
      have hzero : (n * cs ||| oflagCopied) &&& l2Zero = 0 := entry_flag (b := 0) hsmall (by omega)
      have hcompressed : (n * cs ||| oflagCopied) &&& l2Compressed = 0 := entry_flag hsmall (by omega)
      rw [elim_some, elim_some, if_neg (entry_ne_zero n), if_neg (not_not.mpr hzero),
        if_neg (not_not.mpr hcompressed), entry_offset hsmall]

/-- The image reads what the writer holds. -/
theorem Finished.readAt {off n : ℕ} (hin : off + n ≤ w.virtualSize) :
    (w.reopened file).readAt off n = .ok ((List.range n).map fun i => w.content (off + i)) := by
  have hsize : (w.reopened file).layer.clusterSize = cs := by simp [reopened, Layer.clusterSize, cs]
  unfold Qcow2.readAt Layer.readAt
  rw [hsize]
  refine loopPieces_read (fun pos m hm _ => pieceSize_spec pos hm) fun pos m hoff hm hstop => ?_
  have hsame : ∀ i < min (cs - pos % cs) m, (pos + i) / cs = pos / cs ∧ (pos + i) % cs = pos % cs + i :=
    fun i hi => same_cluster (by omega)
  unfold Layer.readPiece
  rw [hsize, h.locate hw (lt_of_le_of_lt (div_mul_le_self pos cs) (by omega))]
  cases hhost : w.hostOffset (pos / cs) with
  | none =>
    refine congrArg Except.ok (map_range_eq_replicate fun i hi => ?_).symm
    rw [content, (hsame i hi).1, hhost]
  | some host =>
    change Except.ok (file.readOrZero (host + pos % cs) _) = _
    rw [File.readOrZero_eq]
    refine congrArg Except.ok (map_congr_left fun i hi => ?_)
    obtain ⟨hdiv, hmod⟩ := hsame i (mem_range.mp hi)
    obtain ⟨-, k, rfl, hfirst, -⟩ := hw.host _ _ hhost
    have hend := hw.host_lt hhost
    have hle : w.firstData * cs ≤ k * cs := mul_le_mul_right cs hfirst
    have hi := mem_range.mp hi
    rw [content, hdiv, hmod, hhost, h.data _ (by omega) (by omega), add_assoc]

end

end Virtkit.Disk.Qcow2Writer
