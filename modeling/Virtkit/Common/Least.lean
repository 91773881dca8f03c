import Mathlib.Data.List.Sort

/-!
# Least elements

Choosing by a comparison that need not be an order: the first least element of a list, and sorting
by a comparison that refines a key. Sorting by such a comparison sorts by the key, whatever the
comparison does among elements of one key.
-/

namespace Virtkit.Common

open List

def firstMin {α : Type*} (cmp : α → α → Ordering) : List α → Option α
  | [] => none
  | a :: rest =>
    match firstMin cmp rest with
    | some b => if (cmp b a).isLT then some b else some a
    | none => some a

theorem firstMin_cons {α : Type*} (cmp : α → α → Ordering) (a : α) (rest : List α) : firstMin cmp (a :: rest) = some a ∨
      ∃ b, firstMin cmp rest = some b ∧ firstMin cmp (a :: rest) = some b := by
  cases hrest : firstMin cmp rest with
  | none => simp [firstMin, hrest]
  | some b =>
    by_cases hlt : (cmp b a).isLT <;> simp [firstMin, hrest, hlt]

theorem mem_of_firstMin {α : Type*} {cmp : α → α → Ordering} {l : List α} {a : α}
    (h : firstMin cmp l = some a) : a ∈ l := by
  induction l generalizing a with
  | nil => simp [firstMin] at h
  | cons b rest ih =>
    rcases firstMin_cons cmp b rest with hb | ⟨c, hc, hb⟩
    · rw [hb, Option.some.injEq] at h
      simp [h]
    · rw [hb, Option.some.injEq] at h
      exact mem_cons_of_mem _ (ih (h ▸ hc))

theorem firstMin_eq_none {α : Type*} {cmp : α → α → Ordering} {l : List α} (h : firstMin cmp l = none) : l = [] := by
  cases l with
  | nil => rfl
  | cons a rest =>
    rcases firstMin_cons cmp a rest with ha | ⟨b, -, ha⟩
    · simp [ha] at h
    · simp [ha] at h

section SortByKey

variable {α : Type*} {r : α → α → Prop} [DecidableRel r] {key : α → ℕ}

section

variable (hle : ∀ a b, r a b → key a ≤ key b) (hge : ∀ a b, ¬ r a b → key b ≤ key a)
include hle hge

theorem pairwise_key_orderedInsert (a : α) {l : List α} (hl : l.Pairwise fun x y => key x ≤ key y) :
    (l.orderedInsert r a).Pairwise fun x y => key x ≤ key y := by
  induction l with
  | nil => simp
  | cons b rest ih =>
    obtain ⟨hb, hrest⟩ := pairwise_cons.mp hl
    by_cases hab : r a b
    · rw [orderedInsert_cons_of_le r rest hab, pairwise_cons]
      refine ⟨?_, hl⟩
      intro x hx
      rcases mem_cons.mp hx with rfl | hx
      · exact hle a x hab
      · exact (hle a b hab).trans (hb x hx)
    · rw [orderedInsert_cons, if_neg hab, pairwise_cons]
      refine ⟨?_, ih hrest⟩
      intro x hx
      rcases mem_orderedInsert r |>.mp hx with rfl | hx
      · exact hge x b hab
      · exact hb x hx

/-- A list sorted by an order that respects a key is sorted by the key. -/
theorem pairwise_key_insertionSort (l : List α) : (l.insertionSort r).Pairwise fun x y => key x ≤ key y := by
  induction l with
  | nil => simp
  | cons a rest ih =>
    rw [insertionSort_cons]
    exact pairwise_key_orderedInsert hle hge a ih

theorem key_head_insertionSort_le {l rest : List α} {first a : α}
    (h : l.insertionSort r = first :: rest) (ha : a ∈ l) : key first ≤ key a := by
  have hsorted := pairwise_key_insertionSort hle hge l
  rw [h, pairwise_cons] at hsorted
  have hmem : a ∈ l.insertionSort r := (mem_insertionSort r).mpr ha
  rw [h] at hmem
  rcases mem_cons.mp hmem with rfl | hmem
  · exact le_refl _
  · exact hsorted.1 a hmem

end

end SortByKey

end Virtkit.Common
