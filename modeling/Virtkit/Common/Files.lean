import Virtkit.Common.Bytes

/-!
# Files

A file is its length and its bytes, which are zero past its end. A write puts bytes at an offset and
extends the file where it ends past it; setting the length cuts the file or extends it with zeros.
Numbers are read from files most significant byte first, as tables of numbers are written.
-/

namespace Virtkit.Common

open List

structure File where
  len : ℕ
  byte : ℕ → UInt8
  zero_past : ∀ i, len ≤ i → byte i = 0

namespace File

variable {f : File} {off n i : ℕ}

def empty : File := ⟨0, fun _ => 0, fun _ _ => rfl⟩

def setLen (f : File) (n : ℕ) : File where
  len := n
  byte i := if i < n then f.byte i else 0
  zero_past _ h := if_neg (Nat.not_lt.mpr h)

/-- Write some bytes, given as a function, at an offset. -/
def writeFn (f : File) (off n : ℕ) (g : ℕ → UInt8) : File where
  len := if n = 0 then f.len else max f.len (off + n)
  byte i := if off ≤ i ∧ i < off + n then g (i - off) else f.byte i
  zero_past i h := by
    split_ifs at h
    · rw [if_neg (by omega)]
      exact f.zero_past i h
    · rw [if_neg (by omega)]
      exact f.zero_past i (by omega)

def write (f : File) (off : ℕ) (data : Bytes) : File :=
  f.writeFn off data.length fun i => data.getD i 0

def slice (f : File) (off n : ℕ) : Bytes := (List.range n).map fun i => f.byte (off + i)

/-- The number in the bytes from an offset on, the most significant first. -/
def be (f : File) (off n : ℕ) : ℕ := ofBe (f.slice off n)

def readExact (f : File) (off n : ℕ) : Option Bytes :=
  if n = 0 ∨ off + n ≤ f.len then some (f.slice off n) else none

/-- Read bytes, zeros past the file's end. -/
def readOrZero (f : File) (off n : ℕ) : Bytes :=
  if f.len ≤ off then List.replicate n 0
  else f.slice off (min (f.len - off) n) ++ List.replicate (n - min (f.len - off) n) 0

@[simp] theorem length_slice (f : File) (off n : ℕ) : (f.slice off n).length = n := by
  rw [slice, length_map, length_range]

theorem getElem?_slice (h : i < n) : (f.slice off n)[i]? = some (f.byte (off + i)) := by
  rw [slice, getElem?_map, getElem?_range h, Option.map_some]

theorem byte_setLen (f : File) (n i : ℕ) : (f.setLen n).byte i = if i < n then f.byte i else 0 := rfl

theorem byte_setLen_of_le (h : f.len ≤ n) (i : ℕ) : (f.setLen n).byte i = f.byte i := by
  rw [byte_setLen]
  split_ifs with hi
  · rfl
  · exact (f.zero_past i (by omega)).symm

theorem byte_writeFn (f : File) (off n : ℕ) (g : ℕ → UInt8) (i : ℕ) :
    (f.writeFn off n g).byte i = if off ≤ i ∧ i < off + n then g (i - off) else f.byte i := rfl

theorem len_writeFn (hn : 0 < n) (g : ℕ → UInt8) : (f.writeFn off n g).len = max f.len (off + n) :=
  if_neg (Nat.ne_of_gt hn)

theorem readOrZero_eq (f : File) (off n : ℕ) : f.readOrZero off n = f.slice off n := by
  have hsplit : ∀ k ≤ n, (∀ i, k ≤ i → i < n → f.byte (off + i) = 0) →
      f.slice off k ++ List.replicate (n - k) 0 = f.slice off n := by
    intro k hk hzero
    apply ext_getElem?
    intro i
    by_cases hi : i < k
    · rw [getElem?_append_left (by simpa using hi), getElem?_slice hi, getElem?_slice (by omega)]
    · rw [getElem?_append_right (by simpa using hi), length_slice, getElem?_replicate]
      split_ifs with hin
      · have hin : i < n := by omega
        rw [getElem?_slice hin, hzero i (by omega) hin]
      · rw [getElem?_eq_none (by rw [length_slice]; omega)]
  unfold readOrZero
  split_ifs with hpast
  · have hall := hsplit 0 (Nat.zero_le n) fun i _ _ => f.zero_past _ (by omega)
    simpa [slice] using hall
  · exact hsplit _ (Nat.min_le_right _ _) fun i hi hin => f.zero_past _ (by omega)

end File

/-- The bytes of a table of numbers, each of some width, the most significant byte first. -/
def beTable (width : ℕ) (entries : ℕ → ℕ) (k : ℕ) : UInt8 :=
  (beBytes width (entries (k / width))).getD (k % width) 0

theorem beTable_of_zero {width k : ℕ} {entries : ℕ → ℕ} (h : entries (k / width) = 0) :
    beTable width entries k = 0 := by
  have hzero : ∀ n, ∀ b ∈ leBytes n 0, b = 0 := by
    intro n
    induction n with
    | zero => exact nofun
    | succ n ih =>
      intro b hb
      rw [leBytes, Nat.zero_div] at hb
      rcases mem_cons.mp hb with rfl | hb
      · rfl
      · exact ih b hb
  rw [beTable, h, getD_eq_getElem?_getD]
  cases hk : (beBytes width 0)[k % width]? with
  | none => rfl
  | some b => exact hzero width b (mem_reverse.mp (mem_of_getElem? hk))

/-- A number of a table, read off the file's bytes. -/
theorem be_of_table {f : File} {off width i : ℕ} {entries : ℕ → ℕ}
    (hbyte : ∀ k < width, f.byte (off + width * i + k) = beTable width entries (width * i + k))
    (hfits : entries i < 256 ^ width) : f.be (off + width * i) width = entries i := by
  have hslice : f.slice (off + width * i) width = beBytes width (entries i) := by
    apply ext_getElem?
    intro k
    by_cases hk : k < width
    · have hdiv : (width * i + k) / width = i := by
        rw [Nat.mul_add_div (by omega), Nat.div_eq_of_lt hk, Nat.add_zero]
      have hmod : (width * i + k) % width = k := by rw [Nat.mul_add_mod, Nat.mod_eq_of_lt hk]
      have hlen : k < (beBytes width (entries i)).length := by simpa using hk
      rw [File.getElem?_slice hk, hbyte k hk, beTable, hdiv, hmod, getD_eq_getElem?_getD,
        getElem?_eq_getElem hlen, Option.getD_some]
    · rw [getElem?_eq_none (by simpa using Nat.not_lt.mp hk),
        getElem?_eq_none (by simpa using Nat.not_lt.mp hk)]
  rw [File.be, hslice, ofBe_beBytes hfits]

namespace File

variable {f g : File} {off off' n : ℕ}

theorem be_congr (h : ∀ i < n, f.byte (off + i) = g.byte (off' + i)) : f.be off n = g.be off' n := by
  unfold be slice
  rw [map_congr_left fun i hi => h i (mem_range.mp hi)]

theorem be_eq_zero (h : ∀ i < n, f.byte (off + i) = 0) : f.be off n = 0 := by
  have hzero := @be_of_table f off n 0 (fun _ => 0)
    (fun k hk => by rw [beTable_of_zero rfl, Nat.mul_zero, Nat.add_zero, h k hk])
    (Nat.pow_pos (Nat.succ_pos 255))
  simpa using hzero

/-- A number written is read back, up to its width. -/
theorem be_write_self (f : File) (off n v : ℕ) : (f.write off (beBytes n v)).be off n = v % 256 ^ n := by
  have hslice : (f.write off (beBytes n v)).slice off n = beBytes n v := by
    apply ext_getElem?
    intro k
    by_cases hk : k < n
    · have hlen : k < (beBytes n v).length := by simpa using hk
      rw [getElem?_slice hk, write, byte_writeFn, if_pos (by rw [length_beBytes]; omega),
        Nat.add_sub_cancel_left, getD_eq_getElem?_getD, getElem?_eq_getElem hlen,
        Option.getD_some]
    · rw [getElem?_eq_none (by simpa using Nat.not_lt.mp hk),
        getElem?_eq_none (by simpa using Nat.not_lt.mp hk)]
  rw [be, hslice, ofBe, beBytes, reverse_reverse, ofLe_leBytes_mod]

/-- A write elsewhere leaves a number as it is. -/
theorem be_write_of_apart (f : File) {data : Bytes} (h : off + n ≤ off' ∨ off' + data.length ≤ off) :
    (f.write off' data).be off n = f.be off n := by
  refine be_congr fun i hi => ?_
  rw [write, byte_writeFn, if_neg (by omega)]

end File

end Virtkit.Common
