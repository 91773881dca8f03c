import Virtkit.Common.Borders
import Virtkit.Common.Bytes

/-!
# Masking a phrase

A filter of a job's output that replaces a phrase wherever it appears, with the bytes that may be the start of the
phrase held back from one write to the next. What a filter passes on is a list of writes to the next filter.
-/

namespace Virtkit.Mask

open Virtkit.Common List

/-- What a masked secret is replaced with. -/
def mask : Bytes := ascii "[MASKED]"

/-- A write to the next filter, if there is something to write. -/
def emit (p : Bytes) : List Bytes := if p.isEmpty then [] else [p]

@[simp] theorem flatten_emit (p : Bytes) : (emit p).flatten = p := by
  cases p <;> simp [emit]

/-- How many bytes are matched with a byte more, none if the pattern does not go on with it. -/
def matched (pat : Bytes) (c : UInt8) (m : ℕ) : ℕ := if pat[m]? = some c then m + 1 else 0

/-- Match a byte after the first ones of a pattern, which are held back: where the pattern goes on otherwise, pass on
those that no shorter match can use. How many bytes of the pattern are matched then, none if the byte is not held. -/
def advance (pat : Bytes) (borders : List ℕ) (c : UInt8) : ℕ → ℕ → List Bytes × ℕ
  | 0, m => ([], matched pat c m)
  | fuel + 1, m =>
    if 0 < m ∧ pat[m]? ≠ some c then
      let keep := borders.getD (m - 1) 0
      let rest := advance pat borders c fuel keep
      (emit (pat.take (m - keep)) ++ rest.1, rest.2)
    else ([], matched pat c m)

/-- One masked phrase, and how many of its bytes the last writes ended on. -/
structure Phrase where
  phrase : Bytes
  borders : List ℕ
  matching : ℕ

namespace Phrase

def new (phrase : Bytes) : Phrase := ⟨phrase, Common.borders phrase, 0⟩

/-- The loop of a write: how many bytes are matched, and the bytes not passed on yet, of which there are none while
a match is held. -/
def scan (f : Phrase) : ℕ → Bytes → Bytes → List Bytes × ℕ
  | m, pending, [] => (emit pending, m)
  | m, pending, c :: rest =>
    if m = 0 ∧ f.phrase[0]? ≠ some c then f.scan 0 (pending ++ [c]) rest
    else
      let held := advance f.phrase f.borders c m m
      let after :=
        if held.2 = 0 then f.scan 0 [c] rest
        else if held.2 = f.phrase.length then
          let after := f.scan 0 [] rest
          (mask :: after.1, after.2)
        else f.scan held.2 [] rest
      (emit pending ++ held.1 ++ after.1, after.2)

/-- Pass a write on, but for what is masked or held back. An upper filter's mask is passed on whole. -/
def write (f : Phrase) (p : Bytes) : List Bytes × Phrase :=
  if p.isEmpty then ([], f)
  else if p = mask then ([p], f)
  else
    let r := f.scan f.matching [] p
    (r.1, { f with matching := r.2 })

/-- Pass on what is held back. -/
def close (f : Phrase) : List Bytes × Phrase :=
  (if f.matching = f.phrase.length then [mask] else emit (f.phrase.take f.matching), { f with matching := 0 })

/-- Writes, and the close after them. -/
def run (f : Phrase) : List Bytes → List Bytes
  | [] => f.close.1
  | p :: rest =>
    let r := f.write p
    r.1 ++ r.2.run rest

variable {pat : Bytes} {table : List ℕ} {c : UInt8} {m : ℕ}

/-- What is passed on with a byte, and what is held after it, are what there was to replace. -/
def Held (pat : Bytes) (c : UInt8) (m : ℕ) (rest : Bytes) (r : List Bytes × ℕ) : Prop :=
  r.2 ≤ pat.length ∧ replaceAll pat mask (pat.take m ++ c :: rest) =
    r.1.flatten ++ if r.2 = 0 then c :: replaceAll pat mask rest else replaceAll pat mask (pat.take r.2 ++ rest)

theorem held_matched (hm : m < pat.length) (hgoes : m = 0 ∨ pat[m]? = some c) (rest : Bytes) :
    Held pat c m rest ([], matched pat c m) := by
  unfold Held matched
  by_cases hnext : pat[m]? = some c
  · rw [if_pos hnext]
    refine ⟨hm, ?_⟩
    rw [if_neg (Nat.succ_ne_zero m), take_add_one, hnext, Option.toList_some, append_assoc]
    rfl
  · obtain rfl := hgoes.resolve_right hnext
    rw [if_neg hnext]
    refine ⟨Nat.zero_le _, ?_⟩
    rw [take_zero, nil_append, replaceAll_skip (n := 1) (by simp) fun j hj hpre => ?_]
    · rfl
    · obtain rfl := Nat.lt_one_iff.mp hj
      obtain ⟨more, hmore⟩ := hpre
      have hhead := congrArg (fun l => l[0]?) hmore
      rw [getElem?_append_left hm] at hhead
      exact hnext hhead

/-- After a mismatch the longest start that still matches is held. -/
theorem held_advance (ht : BorderTable pat table) (hlen : table.length = pat.length) {fuel : ℕ} (hfuel : m ≤ fuel)
    (hm : m < pat.length) (rest : Bytes) : Held pat c m rest (advance pat table c fuel m) := by
  induction fuel generalizing m with
  | zero => exact held_matched hm (.inl (Nat.le_zero.mp hfuel)) rest
  | succ fuel ih =>
    rw [advance]
    split_ifs with hmore
    · obtain ⟨hpos, hother⟩ := hmore
      have hborder := ht (m - 1) (by omega)
      rw [Nat.sub_add_cancel hpos] at hborder
      have hlt := hborder.lt
      obtain ⟨hle, hrest⟩ := ih (m := table.getD (m - 1) 0) (by omega) (by omega)
      refine ⟨hle, ?_⟩
      rw [replaceAll_of_mismatch hm hborder hother, hrest, flatten_append, flatten_emit, append_assoc]
    · refine held_matched hm ?_ rest
      by_cases hzero : m = 0
      · exact .inl hzero
      · exact .inr (not_not.mp fun hother => hmore ⟨Nat.pos_of_ne_zero hzero, hother⟩)

/-- The loop of a write passes on what is replaced of what it holds and reads, but for what it holds then. -/
theorem scan_spec {f : Phrase} (ht : BorderTable f.phrase f.borders) (hlen : f.borders.length = f.phrase.length)
    (p rest : Bytes) (m : ℕ) (pending : Bytes) (hm : m < f.phrase.length) : (f.scan m pending p).2 < f.phrase.length ∧
      pending ++ replaceAll f.phrase mask (f.phrase.take m ++ (p ++ rest)) =
        (f.scan m pending p).1.flatten ++ replaceAll f.phrase mask (f.phrase.take (f.scan m pending p).2 ++ rest) := by
  induction p generalizing m pending with
  | nil => exact ⟨hm, by rw [scan, flatten_emit]; rfl⟩
  | cons c p ih =>
    have hpos : 0 < f.phrase.length := by omega
    obtain ⟨hle, hheld⟩ := held_advance (c := c) ht hlen (Nat.le_refl m) hm (p ++ rest)
    rw [cons_append, hheld, scan]
    by_cases hsearch : m = 0 ∧ f.phrase[0]? ≠ some c
    · -- The byte does not start the phrase, and is passed on with what comes before it.
      obtain ⟨rfl, hother⟩ := hsearch
      obtain ⟨hlt, hscan⟩ := ih 0 (pending ++ [c]) hpos
      have hstay : advance f.phrase f.borders c 0 0 = ([], 0) := by rw [advance, matched, if_neg hother]
      rw [if_pos ⟨rfl, hother⟩]
      refine ⟨hlt, ?_⟩
      rw [← hscan, hstay]
      simp
    · rw [if_neg hsearch]
      dsimp only
      rw [flatten_append, flatten_append, flatten_emit, append_assoc, append_assoc,
        append_cancel_left_eq, append_cancel_left_eq]
      split_ifs with hzero hfull
      · exact ih 0 [c] hpos
      · rw [hfull, take_length, replaceAll_append (length_pos_iff.mp hpos), flatten_cons,
          append_assoc, append_cancel_left_eq]
        exact ih 0 [] hpos
      · exact ih (advance f.phrase f.borders c m m).2 [] (by omega)

/-- Whatever the writes, the phrase is replaced as in the whole text. -/
theorem run_spec {f : Phrase} (ht : BorderTable f.phrase f.borders) (hlen : f.borders.length = f.phrase.length)
    (hm : f.matching < f.phrase.length) {writes : List Bytes} (hwrites : ∀ p ∈ writes, p ≠ mask) :
    (f.run writes).flatten = replaceAll f.phrase mask (f.phrase.take f.matching ++ writes.flatten) := by
  induction writes generalizing f with
  | nil =>
    rw [run, close, if_neg hm.ne, flatten_emit, flatten_nil, append_nil,
      replaceAll_of_length_lt (by rw [length_take]; omega)]
  | cons p writes ih =>
    have hrest : ∀ q ∈ writes, q ≠ mask := fun q hq => hwrites q (mem_cons_of_mem p hq)
    rw [run, write]
    split_ifs with hempty hmask
    · obtain rfl := isEmpty_iff.mp hempty
      simpa using ih ht hlen hm hrest
    · exact absurd hmask (hwrites p mem_cons_self)
    · obtain ⟨hlt, hscan⟩ := scan_spec ht hlen p writes.flatten f.matching [] hm
      have hafter := ih (f := { f with matching := (f.scan f.matching [] p).2 }) ht hlen hlt hrest
      rw [flatten_append, hafter, flatten_cons]
      exact hscan.symm

/-- Whatever the writes are, as long as none is a mask by itself, what the filter of a phrase passes on, its close
included, is what is written with every occurrence of the phrase from left to right replaced by the mask. -/
theorem phrase_masked (phrase : Bytes) (hphrase : phrase ≠ []) (writes : List Bytes)
    (hwrites : ∀ p ∈ writes, p ≠ mask) :
    ((new phrase).run writes).flatten = replaceAll phrase mask writes.flatten := by
  obtain ⟨ht, hlen⟩ := borderTable_borders phrase
  exact run_spec (f := new phrase) ht hlen (length_pos_iff.mpr hphrase) hwrites

/-- A phrase that overlaps itself, cut in two. -/
theorem phrase_masked_overlap :
    ((new [97, 97, 98]).run [[97, 97], [97, 98]]).flatten = replaceAll [97, 97, 98] mask [97, 97, 97, 98] :=
  phrase_masked [97, 97, 98] (by decide) [[97, 97], [97, 98]] (by decide)

end Phrase

end Virtkit.Mask
