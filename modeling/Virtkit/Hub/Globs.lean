import Mathlib.Order.Nat
import Virtkit.Common.Bytes
import Virtkit.Common.Lists

/-!
# Subject globs

The glob matcher the hub applies to names that a submitter claims. A glob is matched token by token, keeping for each place of the text whether the tokens so far match
what is before it. The rows of that table decide whether the text splits into pieces the tokens take.
-/

namespace Virtkit.Hub

open Virtkit.Common List

def star : UInt8 := 42

/-- What a single star stops at. -/
def slash : UInt8 := 47

inductive Tok where
  | any
  | seg
  | byte (b : UInt8)

/-- A glob's tokens: two stars together are one. -/
def toks : Bytes → List Tok
  | [] => []
  | [b] => [if b = star then .seg else .byte b]
  | b :: c :: g =>
    if b = star ∧ c = star then .any :: toks g else (if b = star then .seg else .byte b) :: toks (c :: g)

/-- The row after a double star: whether a place at or before this one was reached. -/
def anyRow (row : ℕ → Bool) : ℕ → Bool
  | 0 => row 0
  | j + 1 => anyRow row j || row (j + 1)

/-- The row after a single star: a slash passed starts over. -/
def segRow (t : Bytes) (row : ℕ → Bool) : ℕ → Bool
  | 0 => row 0
  | j + 1 => segRow t row j && t[j]? ≠ some slash || row (j + 1)

def byteRow (t : Bytes) (b : UInt8) (row : ℕ → Bool) : ℕ → Bool
  | 0 => false
  | j + 1 => row j && t[j]? = some b

/-- The row after a token: for each place, whether the tokens so far match what is before it. -/
def nextRow (t : Bytes) (row : ℕ → Bool) : Tok → ℕ → Bool
  | .any => anyRow row
  | .seg => segRow t row
  | .byte b => byteRow t b row

def globMatch (glob text : Bytes) : Bool := (toks glob).foldl (nextRow text) (· = 0) text.length

/-- The pieces a token takes. -/
def Tok.Takes : Tok → Bytes → Prop
  | .any, _ => True
  | .seg, p => slash ∉ p
  | .byte b, p => p = [b]

def Splits (ts : List Tok) (text : Bytes) : Prop := ∃ pieces, Forall₂ Tok.Takes ts pieces ∧ pieces.flatten = text

theorem splits_cons {tok : Tok} {ts : List Tok} {s : Bytes} :
    Splits (tok :: ts) s ↔ ∃ p q, tok.Takes p ∧ Splits ts q ∧ p ++ q = s := by
  simp only [Splits, forall₂_cons_left_iff]
  constructor
  · rintro ⟨-, ⟨p, ps, hp, hps, rfl⟩, rfl⟩
    exact ⟨p, ps.flatten, hp, ⟨ps, hps, rfl⟩, rfl⟩
  · rintro ⟨p, -, hp, ⟨ps, hps, rfl⟩, rfl⟩
    exact ⟨p :: ps, ⟨p, ps, hp, hps, rfl⟩, rfl⟩

section

variable {t : Bytes} {row : ℕ → Bool} {i j k : ℕ}

theorem between_succ (hi : i ≤ j) (hj : j < t.length) : between t i (j + 1) = between t i j ++ [t[j]] := by
  have hbyte : between t j (j + 1) = [t[j]] := by
    rw [between, drop_take, Nat.add_sub_cancel_left, drop_eq_getElem_cons hj]
    rfl
  rw [← between_append hi j.le_succ, hbyte]

/-- A cell of the next row, by where the token may start. -/
theorem nextRow_eq_true (tok : Tok) (hj : j ≤ t.length) :
    nextRow t row tok j = true ↔ ∃ i ≤ j, row i = true ∧ tok.Takes (between t i j) := by
  have hself : ∀ j, between t j j = [] := fun j => by simp [between]
  cases tok with
  | any =>
    simp only [nextRow, Tok.Takes, and_true]
    induction j with
    | zero => simp [anyRow]
    | succ j ih => simp [anyRow, ih (by omega), Nat.le_succ_iff, or_and_right, exists_or]
  | seg =>
    simp only [nextRow, Tok.Takes]
    induction j with
    | zero => simp [segRow, between]
    | succ j ih =>
      have hlast : (segRow t row j && t[j]? ≠ some slash) = true ↔
          ∃ i ≤ j, row i = true ∧ slash ∉ between t i (j + 1) := by
        simp only [Bool.and_eq_true, ih (by omega), decide_eq_true_eq, getElem?_eq_getElem (Nat.lt_of_succ_le hj)]
        constructor
        · rintro ⟨⟨i, hi, hrow, hseg⟩, hne⟩
          refine ⟨i, hi, hrow, ?_⟩
          rw [between_succ hi hj]
          simp [hseg, Ne.symm (fun h => hne (congrArg some h))]
        · rintro ⟨i, hi, hrow, hseg⟩
          rw [between_succ hi hj] at hseg
          simp only [mem_append, mem_singleton, not_or] at hseg
          exact ⟨⟨i, hi, hrow, hseg.1⟩, fun h => hseg.2 (Option.some.inj h).symm⟩
      rw [segRow, Bool.or_eq_true, hlast]
      simp only [Nat.le_succ_iff, or_and_right, exists_or, exists_eq_left, hself, not_mem_nil, not_false_eq_true,
        and_true]
  | byte b =>
    cases j with
    | zero => simp [nextRow, byteRow, Tok.Takes, between]
    | succ j =>
      have hstep : between t j (j + 1) = [t[j]] := by rw [between_succ le_rfl hj, hself, nil_append]
      simp only [nextRow, byteRow, Tok.Takes, Bool.and_eq_true, decide_eq_true_eq,
        getElem?_eq_getElem (Nat.lt_of_succ_le hj), Option.some_inj]
      constructor
      · rintro ⟨hrow, rfl⟩
        exact ⟨j, j.le_succ, hrow, hstep⟩
      · rintro ⟨i, hi, hrow, hb⟩
        have hlen := congrArg length hb
        rw [length_between hj, length_singleton] at hlen
        obtain rfl : i = j := by omega
        rw [hstep] at hb
        exact ⟨hrow, singleton_inj.mp hb⟩

/-- A cell after all tokens, by how they split the text. -/
theorem foldl_nextRow_eq_true (ts : List Tok) (hj : j ≤ t.length) :
    ts.foldl (nextRow t) row j = true ↔ ∃ i ≤ j, row i = true ∧ Splits ts (between t i j) := by
  induction ts generalizing row with
  | nil =>
    simp only [foldl_nil, Splits, forall₂_nil_left_iff, exists_eq_left, flatten_nil, eq_comm (a := [])]
    constructor
    · exact fun hrow => ⟨j, le_rfl, hrow, by simp [between]⟩
    · rintro ⟨i, hi, hrow, hnil⟩
      have hlen := length_between (i := i) hj
      rw [hnil, length_nil] at hlen
      rwa [show j = i by omega]
  | cons tok ts ih =>
    rw [foldl_cons, ih]
    constructor
    · rintro ⟨k, hk, hrow, hts⟩
      obtain ⟨i, hi, hrow, htok⟩ := (nextRow_eq_true tok (hk.trans hj)).mp hrow
      exact ⟨i, hi.trans hk, hrow, splits_cons.mpr ⟨_, _, htok, hts, between_append hi hk⟩⟩
    · rintro ⟨i, hi, hrow, hts⟩
      obtain ⟨p, q, hp, hq, hpq⟩ := splits_cons.mp hts
      have hlen := congrArg length hpq
      rw [length_append, length_between hj] at hlen
      have hk : i + p.length ≤ j := by omega
      rw [← between_append (Nat.le_add_right i p.length) hk] at hpq
      obtain ⟨hp', hq'⟩ := append_inj hpq (by rw [length_between (hk.trans hj), Nat.add_sub_cancel_left])
      rw [hp'] at hp
      rw [hq'] at hq
      exact ⟨_, hk, (nextRow_eq_true tok (hk.trans hj)).mpr ⟨i, Nat.le_add_right _ _, hrow, hp⟩, hq⟩

end

/-- A text matches a glob exactly where it splits into pieces, one for each of the glob's tokens. -/
theorem globMatch_iff_splits (glob text : Bytes) : globMatch glob text = true ↔ Splits (toks glob) text := by
  rw [globMatch, foldl_nextRow_eq_true _ le_rfl]
  simp [between]

end Virtkit.Hub
