import Mathlib.Data.List.Forall2

/-!
# Lists by position and by key

What stands at a position of a list after one is replaced or added, and what holds of pairs of a list
whose entries belong to keys, from what holds for each key.
-/

namespace Virtkit.Common

open List Option

section Positions

variable {α : Type*} {l : List α} {i j : ℕ} {a b : α}

theorem getElem?_set_eq_some (h : (l.set i a)[j]? = some b) : (i = j ∧ b = a) ∨ (i ≠ j ∧ l[j]? = some b) := by
  rw [getElem?_set] at h
  split_ifs at h with hij
  · exact .inl ⟨hij, (some.inj h).symm⟩
  · exact .inr ⟨hij, h⟩

theorem getElem?_concat_eq_some (h : (l ++ [a])[j]? = some b) : l[j]? = some b ∨ (j = l.length ∧ b = a) := by
  rw [List.getElem?_append] at h
  split at h
  · exact .inl h
  · rename_i hlt
    obtain ⟨hj, hb⟩ := List.getElem?_eq_some_iff.mp h
    simp only [List.length_singleton] at hj
    simp only [List.getElem_singleton] at hb
    exact .inr ⟨by omega, hb.symm⟩

theorem exists_of_mem_set (h : b ∈ l.set i a) : b = a ∨ ∃ j, i ≠ j ∧ l[j]? = some b := by
  obtain ⟨j, hj⟩ := mem_iff_getElem?.mp h
  rcases getElem?_set_eq_some hj with ⟨-, heq⟩ | hold
  · exact .inl heq
  · exact .inr ⟨j, hold⟩

theorem exists_of_forall₂ {β : Type*} {R : β → α → Prop} {m : List β} (h : Forall₂ R m l) (ha : a ∈ l) :
    ∃ b ∈ m, R b a := by
  induction h with
  | nil => nomatch ha
  | cons hd _ ih =>
    rcases mem_cons.mp ha with rfl | ha
    · exact ⟨_, mem_cons_self, hd⟩
    · obtain ⟨b, hb, hr⟩ := ih ha
      exact ⟨b, mem_cons_of_mem _ hb, hr⟩

/-- The elements between two places. -/
def between (l : List α) (i j : ℕ) : List α := (l.take j).drop i

theorem length_between (hj : j ≤ l.length) : (between l i j).length = j - i := by
  rw [between, length_drop, length_take_of_le hj]

theorem between_append {k : ℕ} (hi : i ≤ k) (hk : k ≤ j) : between l i k ++ between l k j = between l i j := by
  simp only [between, drop_take]
  rw [show j - i = k - i + (j - k) by omega, take_add, drop_drop, Nat.add_sub_cancel' hi]

theorem getD_take_drop {k : ℕ} (h : j < k) (d : α) : ((l.drop i).take k).getD j d = l.getD (i + j) d := by
  rw [getD_eq_getElem?_getD, getD_eq_getElem?_getD, getElem?_take_of_lt h, getElem?_drop]

theorem map_range_eq_replicate {n : ℕ} {f : ℕ → α} (h : ∀ i < n, f i = a) :
    (List.range n).map f = List.replicate n a := by
  refine eq_replicate_iff.mpr ⟨by rw [length_map, length_range], fun b hb => ?_⟩
  obtain ⟨i, hi, rfl⟩ := mem_map.mp hb
  exact h i (mem_range.mp hi)

theorem take_drop_eq_map_range {k : ℕ} (h : i + k ≤ l.length) (d : α) :
    (l.drop i).take k = (List.range k).map fun m => l.getD (i + m) d := by
  apply ext_getElem?
  intro m
  by_cases hm : m < k
  · have hin : i + m < l.length := by omega
    rw [getElem?_take_of_lt hm, getElem?_drop, getElem?_map, getElem?_range hm,
      map_some, getD_eq_getElem?_getD, getElem?_eq_getElem hin, getD_some]
  · have hout : k ≤ m := Nat.not_lt.mp hm
    rw [getElem?_eq_none (by rw [length_take]; omega), getElem?_eq_none (by rw [length_map, length_range]; omega)]

theorem take_drop_map_range {n k : ℕ} {f : ℕ → α} (h : i + k ≤ n) :
    (((List.range n).map f).drop i).take k = (List.range k).map fun m => f (i + m) := by
  rw [take_drop_eq_map_range (by rwa [length_map, length_range]) (f 0)]
  refine map_congr_left fun m hm => ?_
  have hin : i + m < n := by have := mem_range.mp hm; omega
  rw [getD_eq_getElem?_getD, getElem?_map, getElem?_range hin, map_some, getD_some]

end Positions

/-- A relation of neighbours by key holds if it does for each key. -/
theorem pairwise_of_keys {κ ν : Type*} [DecidableEq κ] {R : ν → ν → Prop} {l : List (κ × ν)}
    (h : ∀ k, ((l.filter fun x => x.1 = k).map Prod.snd).Pairwise R) : l.Pairwise fun x y => x.1 = y.1 → R x.2 y.2 := by
  induction l with
  | nil => exact List.Pairwise.nil
  | cons x l ih =>
    refine pairwise_cons.mpr ⟨fun y hy hkey => ?_, ih fun k => ?_⟩
    · have hx := h x.1
      rw [filter_cons_of_pos (by simp), map_cons] at hx
      refine (pairwise_cons.mp hx).1 y.2 (mem_map.mpr ⟨y, ?_, rfl⟩)
      exact mem_filter.mpr ⟨hy, decide_eq_true hkey.symm⟩
    · refine (h k).sublist (List.Sublist.map _ ?_)
      exact List.Sublist.filter _ (sublist_cons_self x l)

theorem ne_of_mem_eraseIdx {α β : Type*} {f : α → β} {l : List α} {k : ℕ} {p q : α}
    (hl : (l.map f).Nodup) (hp : l[k]? = some p) (hq : q ∈ l.eraseIdx k) : f q ≠ f p := by
  obtain ⟨i, hi, hq⟩ := List.mem_eraseIdx_iff_getElem?.mp hq
  intro heq
  have hlt : i < (l.map f).length := by
    rw [List.length_map]
    exact (List.getElem?_eq_some_iff.mp hq).1
  refine hi ((List.getElem?_inj hlt hl).mp ?_)
  rw [List.getElem?_map, List.getElem?_map, hp, hq, map_some, map_some, heq]

end Virtkit.Common
