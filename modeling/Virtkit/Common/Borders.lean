import Mathlib.Data.List.GetD
import Mathlib.Data.List.Infix

/-!
# Borders of a pattern

A border of a list is a proper start of it that is also its end. The table of the longest borders of a pattern's
starts says how far a search of the pattern may skip where the pattern goes on otherwise than the text: no occurrence
starts in between. A search from left to right that replaces what it finds may so pass on what it skips.
-/

namespace Virtkit.Common

open List Nat

variable {α : Type*}

/-- The longest border of a pattern's first elements. -/
structure LongestBorder (pat : List α) (i k : ℕ) : Prop where
  lt : k < i
  suffix : pat.take k <:+ pat.take i
  longest : ∀ j < i, pat.take j <:+ pat.take i → j ≤ k

/-- A table of the longest borders of a pattern's starts. -/
def BorderTable (pat : List α) (table : List ℕ) : Prop :=
  ∀ i < table.length, LongestBorder pat (i + 1) (table.getD i 0)

theorem take_succ_suffix_iff {pat : List α} {c : α} {i j : ℕ} (hj : j < i) (hi : pat[i]? = some c) :
    pat.take (j + 1) <:+ pat.take (i + 1) ↔ pat.take j <:+ pat.take i ∧ pat[j]? = some c := by
  have hlen : i < pat.length := (List.getElem?_eq_some_iff.mp hi).1
  obtain ⟨d, hd⟩ : ∃ d, pat[j]? = some d := ⟨_, List.getElem?_eq_getElem (hj.trans hlen)⟩
  rw [List.take_add_one, List.take_add_one, hi, hd, Option.toList_some, Option.toList_some, ← List.reverse_prefix,
    List.reverse_append, List.reverse_append, List.reverse_singleton, List.reverse_singleton, List.singleton_append,
    List.singleton_append, List.cons_prefix_cons, List.reverse_prefix, Option.some.injEq]
  exact and_comm

variable [DecidableEq α]

/-- From one border to the next shorter one, until the pattern goes on with an element after it. -/
def fallBack (pat : List α) (table : List ℕ) (c : α) : ℕ → ℕ → ℕ
  | 0, k => k
  | fuel + 1, k => if 0 < k ∧ pat[k]? ≠ some c then fallBack pat table c fuel (table.getD (k - 1) 0) else k

/-- The longest border of one element more. -/
def extendBorder (pat : List α) (table : List ℕ) (c : α) (k : ℕ) : ℕ :=
  let k := fallBack pat table c k k
  if pat[k]? = some c then k + 1 else k

/-- The rest of the table. -/
def bordersFrom (pat : List α) : List α → List ℕ → ℕ → List ℕ
  | [], table, _ => table
  | c :: rest, table, k =>
    let k := extendBorder pat table c k
    bordersFrom pat rest (table ++ [k]) k

/-- The longest borders of a pattern's starts. -/
def borders (pat : List α) : List ℕ := if pat = [] then [] else bordersFrom pat pat.tail [0] 0

/-- Replace every occurrence of a pattern, from left to right, that does not overlap one before. -/
def replaceAll (pat mask : List α) : List α → List α
  | [] => []
  | c :: rest =>
    if pat ≠ [] ∧ pat.isPrefixOf (c :: rest) then mask ++ replaceAll pat mask ((c :: rest).drop pat.length)
    else c :: replaceAll pat mask rest
termination_by s => s.length
decreasing_by
  · rename_i h
    have hpos := length_pos_iff.mpr h.1
    simp only [length_drop, length_cons]
    omega
  · simp

section Table

variable {pat : List α} {table : List ℕ} {c : α} {i k : ℕ}

/-- Falling back ends at the longest border, no longer than the one it starts from, that goes on with the element,
or at none. -/
theorem fallBack_spec (ht : BorderTable pat table) {fuel : ℕ} (hfuel : k ≤ fuel) (hk : k ≤ table.length)
    (hborder : pat.take k <:+ pat.take i) (hki : k < i) (hi : i ≤ pat.length)
    (hlongest : ∀ j < i, pat.take j <:+ pat.take i → pat[j]? = some c → j ≤ k) :
    fallBack pat table c fuel k < i ∧ pat.take (fallBack pat table c fuel k) <:+ pat.take i ∧
      (∀ j < i, pat.take j <:+ pat.take i → pat[j]? = some c → j ≤ fallBack pat table c fuel k) ∧
      (fallBack pat table c fuel k = 0 ∨ pat[fallBack pat table c fuel k]? = some c) := by
  induction fuel generalizing k with
  | zero => exact ⟨hki, hborder, hlongest, .inl (Nat.le_zero.mp hfuel)⟩
  | succ fuel ih =>
    rw [fallBack]
    split_ifs with hmore
    · obtain ⟨hpos, hother⟩ := hmore
      have hnext := ht (k - 1) (by omega)
      rw [Nat.sub_add_cancel hpos] at hnext
      have hlt := hnext.lt
      refine ih (by omega) (by omega) (hnext.suffix.trans hborder) (by omega) fun j hj hsuffix hgoes => ?_
      have hle := hlongest j hj hsuffix hgoes
      have hne : j ≠ k := fun heq => hother (heq ▸ hgoes)
      refine hnext.longest j (by omega) (suffix_of_suffix_length_le hsuffix hborder ?_)
      rw [length_take, length_take]
      omega
    · refine ⟨hki, hborder, hlongest, ?_⟩
      by_cases hzero : k = 0
      · exact .inl hzero
      · exact .inr (not_not.mp fun hother => hmore ⟨Nat.pos_of_ne_zero hzero, hother⟩)

/-- The longest border of one character more. -/
theorem LongestBorder.extend (ht : BorderTable pat table) (hlen : table.length = i) (h : LongestBorder pat i k)
    (hi : pat[i]? = some c) : LongestBorder pat (i + 1) (extendBorder pat table c k) := by
  have hin : i < pat.length := (List.getElem?_eq_some_iff.mp hi).1
  have hlt := h.lt
  obtain ⟨hless, hborder, hlongest, hgoes⟩ := fallBack_spec ht (le_refl k) (by omega) h.suffix h.lt hin.le
    fun j hj hsuffix _ => h.longest j hj hsuffix
  rw [extendBorder]
  split_ifs with hnext
  · refine ⟨by omega, (take_succ_suffix_iff hless hi).mpr ⟨hborder, hnext⟩, fun j hj hsuffix => ?_⟩
    cases j with
    | zero => exact zero_le _
    | succ j =>
      obtain ⟨hshorter, hon⟩ := (take_succ_suffix_iff (by omega) hi).mp hsuffix
      exact succ_le_succ (hlongest j (by omega) hshorter hon)
  · have hnone := hgoes.resolve_right hnext
    rw [hnone] at hlongest hnext ⊢
    refine ⟨succ_pos i, by simp, fun j hj hsuffix => ?_⟩
    cases j with
    | zero => exact le_refl 0
    | succ j =>
      obtain ⟨hshorter, hon⟩ := (take_succ_suffix_iff (by omega) hi).mp hsuffix
      rw [le_zero.mp (hlongest j (by omega) hshorter hon)] at hon
      exact absurd hon hnext

theorem borderTable_bordersFrom {rest : List α} (ht : BorderTable pat table) (h : LongestBorder pat table.length k)
    (hrest : rest = pat.drop table.length) (hle : table.length ≤ pat.length) :
    BorderTable pat (bordersFrom pat rest table k) ∧ (bordersFrom pat rest table k).length = pat.length := by
  induction rest generalizing table k with
  | nil => exact ⟨ht, Nat.le_antisymm hle (drop_eq_nil_iff.mp hrest.symm)⟩
  | cons c rest ih =>
    have hlt : table.length < pat.length := by
      by_contra hpast
      rw [drop_eq_nil_of_le (Nat.not_lt.mp hpast)] at hrest
      nomatch hrest
    rw [drop_eq_getElem_cons hlt] at hrest
    obtain ⟨rfl, htail⟩ := List.cons.inj hrest
    have hnext := h.extend ht rfl (getElem?_eq_getElem hlt)
    rw [bordersFrom]
    have hlen : ∀ x, (table ++ [x]).length = table.length + 1 := fun x => by simp
    refine ih (fun i hi => ?_) (by rwa [hlen]) (by rwa [hlen]) (by rw [hlen]; exact hlt)
    rw [hlen] at hi
    rcases Nat.lt_succ_iff_lt_or_eq.mp hi with hi | rfl
    · rw [getD_append _ _ _ _ hi]
      exact ht i hi
    · rw [getD_append_right _ _ _ _ (Nat.le_refl _), Nat.sub_self]
      exact hnext

/-- The table has the longest border of each start of the pattern. -/
theorem borderTable_borders (pat : List α) : BorderTable pat (borders pat) ∧ (borders pat).length = pat.length := by
  unfold borders
  split_ifs with hnil
  · subst hnil
    exact ⟨fun i hi => absurd hi (Nat.not_lt_zero i), rfl⟩
  · have hpos := length_pos_iff.mpr hnil
    have hone : LongestBorder pat 1 0 := ⟨Nat.one_pos, by simp, fun j hj _ => Nat.le_of_lt_succ hj⟩
    refine borderTable_bordersFrom (fun i hi => ?_) hone (by simp) hpos
    obtain rfl := Nat.lt_one_iff.mp (show i < 1 from hi)
    exact hone

end Table

section Replace

variable {pat mask s : List α}

theorem replaceAll_append (hpat : pat ≠ []) (rest : List α) :
    replaceAll pat mask (pat ++ rest) = mask ++ replaceAll pat mask rest := by
  obtain ⟨p, ps, rfl⟩ := exists_cons_of_ne_nil hpat
  rw [cons_append, replaceAll, if_pos ⟨hpat, by simp⟩, ← cons_append, drop_left]

/-- Where the pattern starts nowhere, nothing is replaced. -/
theorem replaceAll_skip {n : ℕ} (hn : n ≤ s.length) (hno : ∀ j < n, ¬ pat <+: s.drop j) :
    replaceAll pat mask s = s.take n ++ replaceAll pat mask (s.drop n) := by
  induction n generalizing s with
  | zero => simp
  | succ n ih =>
    cases s with
    | nil => simp at hn
    | cons c rest =>
      have hhead := hno 0 (succ_pos n)
      rw [replaceAll, if_neg fun h => hhead ( isPrefixOf_iff_prefix.mp h.2),
        ih (le_of_succ_le_succ hn) fun j hj => hno (j + 1) (succ_lt_succ hj)]
      rfl

theorem replaceAll_of_length_lt (h : s.length < pat.length) : replaceAll pat mask s = s := by
  rw [replaceAll_skip (le_refl s.length) fun j _ hpre => ?_]
  · simp [replaceAll]
  · have hle := hpre.length_le
    rw [length_drop] at hle
    omega

/-- After a mismatch a search goes on at the longest border. -/
theorem replaceAll_of_mismatch {m k : ℕ} {c : α} (hm : m < pat.length) (h : LongestBorder pat m k)
    (hother : pat[m]? ≠ some c) (rest : List α) : replaceAll pat mask (pat.take m ++ c :: rest) =
      pat.take (m - k) ++ replaceAll pat mask (pat.take k ++ c :: rest) := by
  have hlt := h.lt
  have hlen : (pat.take m).length = m := by simp [hm.le]
  have hdrop : ∀ j ≤ m, (pat.take m ++ c :: rest).drop j = (pat.take m).drop j ++ c :: rest := fun j hj =>
    drop_append_of_le_length (hlen.symm ▸ hj)
  have hkeep : (pat.take m).drop (m - k) = pat.take k := by
    have heq := suffix_iff_eq_drop.mp h.suffix
    rw [hlen, length_take, Nat.min_eq_left (by omega)] at heq
    exact heq.symm
  rw [replaceAll_skip (n := m - k) (by rw [length_append, hlen]; omega) fun j hj hpre => ?_]
  · rw [hdrop _ (by omega), hkeep, take_append_of_le_length (by omega), take_take, Nat.min_eq_left (by omega)]
  · -- an occurrence there would make its start a border longer than the longest
    rw [hdrop j (by omega)] at hpre
    have hpart : ((pat.take m).drop j).length = m - j := by rw [length_drop, hlen]
    have hborder : pat.take (m - j) <:+ pat.take m := by
      have heq := prefix_iff_eq_take.mp hpre
      rw [heq, take_take, Nat.min_eq_left (by omega), take_append_of_le_length hpart.ge,
        take_of_length_le hpart.le, ← heq]
      exact drop_suffix j _
    have hgoes : pat[m - j]? = some c := by
      obtain ⟨more, hmore⟩ := hpre
      have hat := congrArg (fun l => l[m - j]?) hmore
      rw [getElem?_append_left (by omega), getElem?_append_right hpart.le, hpart, Nat.sub_self] at hat
      exact hat
    rcases Nat.eq_zero_or_pos j with rfl | hpos
    · exact hother hgoes
    · have hle := h.longest (m - j) (by omega) hborder
      omega

end Replace

end Virtkit.Common
