import Mathlib.Algebra.GroupWithZero.Nat
import Mathlib.Algebra.Order.BigOperators.Group.Finset
import Mathlib.Data.List.AList
import Virtkit.Common.Least

/-!
# Finite tables

A table is a finite map, held as Mathlib's association list: each key occurs once, and the
proof of that travels with the value. This module adds the operations a program uses on such
maps besides `insert`, `erase` and `lookup` (retaining the entries a test accepts, rewriting
the value under one key, counting and summing entries), each with its `lookup`.
-/

namespace Virtkit.Common

open List Option AList

/-- A finite map from `K` to `V`. -/
abbrev Table (K V : Type*) := AList (fun _ : K => V)

variable {K V : Type*} [DecidableEq K]

namespace Table

/-- Tables are compared by their entries. -/
instance [DecidableEq V] : DecidableEq (Table K V) := fun _ _ => decidable_of_iff _ AList.ext_iff.symm

theorem lookup_insert_ite (t : Table K V) (k k' : K) (v : V) :
    (t.insert k v).lookup k' = if k' = k then some v else t.lookup k' := by
  by_cases h : k' = k
  · subst h
    rw [lookup_insert, if_pos rfl]
  · rw [lookup_insert_ne h, if_neg h]

theorem lookup_erase_ite (t : Table K V) (k k' : K) : (t.erase k).lookup k' = if k' = k then none else t.lookup k' := by
  by_cases h : k' = k
  · subst h
    rw [lookup_erase, if_pos rfl]
  · rw [lookup_erase_ne h, if_neg h]

variable {k : K}

theorem erase_insert (t : Table K V) (hk : t.lookup k = none) (v : V) : (t.insert k v).erase k = t := by
  have hmem : k ∉ t.entries.keys := lookup_eq_none.mp hk
  apply AList.ext
  change List.kerase k (List.kinsert k v t.entries) = t.entries
  rw [kinsert_def, kerase_of_notMem_keys hmem]
  exact kerase_cons_eq rfl

variable (p : K → V → Bool) (t : Table K V)

/-- Keep the entries that the test accepts. -/
def retain : Table K V where
  entries := t.entries.filter fun e => p e.1 e.2
  nodupKeys := t.nodupKeys.sublist filter_sublist

theorem lookup_retain (k : K) : (t.retain p).lookup k = (t.lookup k).filter (p k) := by
  apply Option.ext
  intro v
  rw [filter_eq_some_iff, ← mem_def, ← mem_def, mem_lookup_iff, mem_lookup_iff, retain, mem_filter]

/-- Rewrite every value. -/
def mapValues (f : K → V → V) (t : Table K V) : Table K V where
  entries := t.entries.map fun e => ⟨e.1, f e.1 e.2⟩
  nodupKeys := by
    have hkeys : (t.entries.map fun e => (⟨e.1, f e.1 e.2⟩ : Sigma fun _ : K => V)).keys = t.entries.keys := by
      simp [List.keys, Function.comp_def]
    rw [List.NodupKeys, hkeys]
    exact t.nodupKeys

theorem lookup_mapValues (f : K → V → V) (t : Table K V) (k : K) :
    (t.mapValues f).lookup k = (t.lookup k).map (f k) := by
  apply Option.ext
  intro v
  rw [← Option.mem_def, mem_lookup_iff, mapValues, List.mem_map, Option.map_eq_some_iff]
  constructor
  · rintro ⟨e, he, heq⟩
    cases heq
    exact ⟨e.2, mem_lookup_iff.mpr he, rfl⟩
  · rintro ⟨w, hw, rfl⟩
    exact ⟨⟨k, w⟩, mem_lookup_iff.mp hw, rfl⟩

/-- Rewrite or drop each entry. -/
def filterMap (f : K → V → Option V) (t : Table K V) : Table K V :=
  (t.retain fun k v => (f k v).isSome).mapValues fun k v => (f k v).getD v

theorem lookup_filterMap (f : K → V → Option V) (t : Table K V) (k : K) :
    (t.filterMap f).lookup k = (t.lookup k).bind (f k) := by
  rw [filterMap, lookup_mapValues, lookup_retain]
  cases hv : t.lookup k with
  | none => rfl
  | some v =>
    cases hf : f k v with
    | none | some w => simp [hf]

/-- Rewrite the value under one key, if the key is there. -/
def modify (t : Table K V) (k : K) (f : V → V) : Table K V :=
  t.mapValues fun k' v => if k' = k then f v else v

theorem lookup_modify (t : Table K V) (k k' : K) (f : V → V) :
    (t.modify k f).lookup k' = if k' = k then (t.lookup k).map f else t.lookup k' := by
  rw [modify, lookup_mapValues]
  by_cases h : k' = k
  · subst h
    simp
  · simp [h]

/-- What a loop over keys makes of each value. -/
theorem lookup_foldl_of_step {T : Type*} (get : T → Table K V) (step : T → K → T)
    (update : Option V → Option V) (htwice : ∀ o, update (update o) = update o)
    (hone : ∀ t a k, (get (step t a)).lookup k = if k = a then update ((get t).lookup k) else (get t).lookup k)
    (ks : List K) (t : T) (k : K) :
    (get (ks.foldl step t)).lookup k = if k ∈ ks then update ((get t).lookup k) else (get t).lookup k := by
  induction ks generalizing t with
  | nil => simp
  | cons a ks ih =>
    rw [foldl_cons, ih, hone]
    by_cases ha : k = a
    · simp [ha, htwice]
    · simp [ha]

theorem lookup_foldl_insert (ks : List K) (v : V) (t : Table K V) (k : K) :
    (ks.foldl (fun t k => t.insert k v) t).lookup k = if k ∈ ks then some v else t.lookup k :=
  lookup_foldl_of_step id (fun t k => t.insert k v) (fun _ => some v) (fun _ => rfl)
    (fun t a k => lookup_insert_ite t a k v) ks t k

/-- The number of entries that the test accepts. -/
def count : ℕ := t.entries.countP fun e => p e.1 e.2

/-- The keys whose entries the test accepts. -/
def select (p : K → V → Bool) (t : Table K V) : Finset K :=
  (t.retain p).keys.toFinset

variable {p : K → V → Bool} {t : Table K V}

theorem mem_select : k ∈ t.select p ↔ ∃ v, t.lookup k = some v ∧ p k v = true := by
  rw [select, List.mem_toFinset, ← AList.mem_keys, ← AList.lookup_isSome, lookup_retain, Option.isSome_iff_exists]
  simp only [Option.filter_eq_some_iff]

theorem card_select : (t.select p).card = t.count p := by
  rw [select, toFinset_card_of_nodup (t.retain p).keys_nodup, count, countP_eq_length_filter,
    AList.keys, List.keys, length_map]
  rfl

variable {u : Table K V}

/-- A table whose entries all have a counterpart has no more of them. -/
theorem count_le_of_lookup {q : K → V → Bool}
    (h : ∀ k v, t.lookup k = some v → p k v = true → ∃ w, u.lookup k = some w ∧ q k w = true) :
    t.count p ≤ u.count q := by
  rw [← card_select, ← card_select]
  apply Finset.card_le_card
  intro k hk
  obtain ⟨v, hv, hp⟩ := mem_select.mp hk
  exact mem_select.mpr (h k v hv hp)

theorem count_le_add_length {q : K → V → Bool} (ks : List K)
    (h : ∀ k v, k ∉ ks → t.lookup k = some v → p k v = true → ∃ w, u.lookup k = some w ∧ q k w = true) :
    t.count p ≤ u.count q + ks.length := by
  rw [← card_select, ← card_select]
  calc (t.select p).card ≤ (u.select q ∪ ks.toFinset).card := by
        apply Finset.card_le_card
        intro k hk
        obtain ⟨v, hv, hp⟩ := mem_select.mp hk
        by_cases hks : k ∈ ks
        · exact Finset.mem_union_right _ (List.mem_toFinset.mpr hks)
        · exact Finset.mem_union_left _ (mem_select.mpr (h k v hks hv hp))
    _ ≤ (u.select q).card + ks.toFinset.card := Finset.card_union_le _ _
    _ ≤ (u.select q).card + ks.length := by
        have := ks.toFinset_card_le
        omega

section

variable (f : K → V → ℕ) (t : Table K V)

/-- The sum of a figure over the entries. -/
def sum : ℕ := (t.entries.map fun e => f e.1 e.2).sum

/-- The figure of the entry under a key, zero where there is none. -/
def valueAt (f : K → V → ℕ) (t : Table K V) (k : K) : ℕ := (t.lookup k).elim 0 (f k)

theorem sum_eq_sum_keys : t.sum f = ∑ k ∈ t.keys.toFinset, t.valueAt f k := by
  rw [sum_toFinset _ t.keys_nodup, sum, AList.keys, List.keys, List.map_map]
  congr 1
  apply map_congr_left
  intro e he
  have hlook : t.lookup e.1 = some e.2 := mem_lookup_iff.mpr he
  simp [valueAt, hlook]

theorem valueAt_eq_zero (hk : k ∉ t.keys.toFinset) : t.valueAt f k = 0 := by
  rw [List.mem_toFinset, ← AList.mem_keys] at hk
  rw [valueAt, AList.lookup_eq_none.mpr hk, Option.elim_none]

end

variable {f g : K → V → ℕ}

theorem sum_congr (h : ∀ k, t.valueAt f k = u.valueAt g k) : t.sum f = u.sum g := by
  rw [sum_eq_sum_keys, sum_eq_sum_keys]
  calc ∑ k ∈ t.keys.toFinset, t.valueAt f k = ∑ k ∈ t.keys.toFinset ∪ u.keys.toFinset, t.valueAt f k :=
        Finset.sum_subset Finset.subset_union_left fun _ _ hk => valueAt_eq_zero f t hk
    _ = ∑ k ∈ t.keys.toFinset ∪ u.keys.toFinset, u.valueAt g k :=
        Finset.sum_congr rfl fun k _ => h k
    _ = ∑ k ∈ u.keys.toFinset, u.valueAt g k :=
        (Finset.sum_subset Finset.subset_union_right fun _ _ hk => valueAt_eq_zero g u hk).symm

theorem sum_le_of_lookup (h : ∀ k v, t.lookup k = some v → ∃ w, u.lookup k = some w ∧ f k v ≤ g k w) :
    t.sum f ≤ u.sum g := by
  rw [sum_eq_sum_keys, sum_eq_sum_keys]
  have hsub : t.keys.toFinset ⊆ u.keys.toFinset := by
    intro k hk
    rw [List.mem_toFinset, ← AList.mem_keys, ← AList.lookup_isSome] at hk ⊢
    obtain ⟨v, hv⟩ := Option.isSome_iff_exists.mp hk
    obtain ⟨w, hw, -⟩ := h k v hv
    simp [hw]
  refine le_trans (Finset.sum_le_sum fun k _ => ?_) (Finset.sum_le_sum_of_subset hsub)
  cases hv : t.lookup k with
  | none => simp [valueAt, hv]
  | some v =>
    obtain ⟨w, hw, hle⟩ := h k v hv
    simpa [valueAt, hv, hw] using hle

/-- A sum is what is left without a key, and the key's part. -/
theorem sum_erase_add_valueAt (f : K → V → ℕ) (t : Table K V) (k : K) :
    sum f (t.erase k) + t.valueAt f k = t.sum f := by
  have hrest : ∀ a ∈ (t.erase k).keys.toFinset, valueAt f (t.erase k) a = t.valueAt f a := by
    intro a ha
    rw [List.mem_toFinset, ← AList.mem_keys, AList.mem_erase] at ha
    simp [valueAt, AList.lookup_erase_ne ha.1]
  have hout : k ∉ (t.erase k).keys.toFinset := by
    rw [List.mem_toFinset, ← AList.mem_keys, AList.mem_erase]
    tauto
  rw [sum_eq_sum_keys, sum_eq_sum_keys, Finset.sum_congr rfl hrest, Nat.add_comm, ← Finset.sum_insert hout]
  by_cases hk : k ∈ t
  · congr 1
    ext a
    rw [Finset.mem_insert, List.mem_toFinset, List.mem_toFinset, ← AList.mem_keys, ← AList.mem_keys, AList.mem_erase]
    by_cases ha : a = k
    · simp [ha, hk]
    · simp [ha]
  · have hkeys : (t.erase k).keys.toFinset = t.keys.toFinset := by
      ext a
      rw [List.mem_toFinset, List.mem_toFinset, ← AList.mem_keys, ← AList.mem_keys, AList.mem_erase]
      constructor
      · exact fun h => h.2
      · exact fun h => ⟨fun heq => hk (heq ▸ h), h⟩
    rw [Finset.sum_insert hout, hkeys, valueAt, AList.lookup_eq_none.mpr hk, Option.elim_none, Nat.zero_add]

/-- Tables that agree but at one key have sums that differ as there. -/
theorem sum_add_valueAt (own : K) (h : ∀ k, k ≠ own → t.valueAt f k = u.valueAt g k) :
    t.sum f + u.valueAt g own = u.sum g + t.valueAt f own := by
  have hrest : sum f (t.erase own) = sum g (u.erase own) := by
    apply sum_congr
    intro k
    by_cases hk : k = own
    · subst hk
      rw [valueAt, valueAt, lookup_erase, lookup_erase, elim_none, elim_none]
    · rw [valueAt, valueAt, lookup_erase_ne hk, lookup_erase_ne hk]
      exact h k hk
  have ht := sum_erase_add_valueAt f t own
  have hu := sum_erase_add_valueAt g u own
  omega

theorem sum_insert (f : K → V → ℕ) (hk : t.lookup k = none) (v : V) : sum f (t.insert k v) = t.sum f + f k v := by
  have hmove : sum f (t.insert k v) + t.valueAt f k = t.sum f + valueAt f (t.insert k v) k := by
    apply sum_add_valueAt k
    intro a ha
    rw [valueAt, valueAt, lookup_insert_ne ha]
  rw [valueAt, valueAt, hk, lookup_insert, elim_none, elim_some] at hmove
  omega

theorem sum_le_add_valueAt (own : K)
    (h : ∀ k v, k ≠ own → t.lookup k = some v → ∃ w, u.lookup k = some w ∧ f k v ≤ g k w) :
    t.sum f ≤ u.sum g + t.valueAt f own := by
  have hrest : sum f (t.erase own) ≤ u.sum g := by
    apply sum_le_of_lookup
    intro k v hk
    rw [lookup_erase_ite] at hk
    split at hk
    · simp at hk
    · rename_i hne
      exact h k v hne hk
  have hsplit := sum_erase_add_valueAt f t own
  omega

section

variable (f : K → V → ℕ) (t : Table K V)

/-- The keys with a positive figure, and the figures. -/
def positive : List (K × ℕ) :=
  t.entries.filterMap fun e => if 0 < f e.1 e.2 then some (e.1, f e.1 e.2) else none

omit [DecidableEq K] in
theorem sum_positive : ((t.positive f).map Prod.snd).sum = t.sum f := by
  unfold positive sum
  induction t.entries with
  | nil => rfl
  | cons e l ih =>
    rw [map_cons, sum_cons, ← ih]
    by_cases hpos : 0 < f e.1 e.2
    · simp only [filterMap_cons, if_pos hpos, map_cons, sum_cons]
    · simp only [filterMap_cons, if_neg hpos]
      omega

end

theorem mem_positive {n : ℕ} (h : (k, n) ∈ t.positive f) : ∃ v, t.lookup k = some v ∧ f k v = n ∧ 0 < n := by
  obtain ⟨e, he, hsome⟩ := mem_filterMap.mp h
  split at hsome
  · rename_i hpos
    rw [some_inj, Prod.mk.injEq] at hsome
    obtain ⟨rfl, rfl⟩ := hsome
    exact ⟨e.2, mem_lookup_iff.mpr he, rfl, hpos⟩
  · simp at hsome

theorem find_positive (f : K → V → ℕ) (t : Table K V) (k : K) :
    (((t.positive f).find? fun e => e.1 == k).map Prod.snd).getD 0 = t.valueAt f k := by
  cases hfind : (t.positive f).find? fun e => e.1 == k with
  | some e =>
    have hk : e.1 = k := by simpa using find?_some hfind
    obtain ⟨v, hv, hf, -⟩ := mem_positive (mem_of_find?_eq_some hfind)
    rw [hk] at hv hf
    rw [map_some, getD_some, valueAt, hv, elim_some, hf]
  | none =>
    rw [map_none, getD_none]
    cases hv : t.lookup k with
    | none => rw [valueAt, hv, elim_none]
    | some v =>
      by_contra hne
      rw [valueAt, hv, elim_some] at hne
      have hpos : 0 < f k v := Nat.pos_of_ne_zero (Ne.symm hne)
      have hmem : (k, f k v) ∈ t.positive f := mem_filterMap.mpr ⟨⟨k, v⟩, mem_lookup_iff.mp hv, if_pos hpos⟩
      have hnot := find?_eq_none.mp hfind (k, f k v) hmem
      simp at hnot

/-!
## The order of the keys

A table as a sorted store iterates over it: its entries in the order of their keys, and the last.
-/

section

variable {K V : Type*} [LinearOrder K]

/-- The entries in the order of their keys. -/
def sorted (t : Table K V) : List (K × V) :=
  (t.entries.map fun e => (e.1, e.2)).insertionSort fun a b => a.1 ≤ b.1

theorem mem_sorted {t : Table K V} {k : K} {v : V} : (k, v) ∈ t.sorted ↔ t.lookup k = some v := by
  rw [sorted, mem_insertionSort, ← Option.mem_def, AList.mem_lookup_iff, List.mem_map]
  constructor
  · rintro ⟨e, he, heq⟩
    cases heq
    exact he
  · exact fun h => ⟨_, h, rfl⟩

/-- The entry of the greatest key. -/
def last (t : Table ℕ V) : Option (ℕ × V) := t.sorted.getLast?

variable {t : Table ℕ V} {k n : ℕ} {v : V}

theorem lookup_of_last (h : t.last = some (n, v)) : t.lookup n = some v :=
  mem_sorted.mp (mem_of_getLast? h)

theorem le_of_last (h : t.last = some (n, v)) {w : V} (hk : t.lookup k = some w) : k ≤ n := by
  have hsorted : t.sorted.Pairwise fun x y => x.1 ≤ y.1 :=
    pairwise_key_insertionSort (fun _ _ h => h) (fun _ _ h => (Nat.lt_of_not_le h).le) _
  obtain ⟨init, hinit⟩ := getLast?_eq_some_iff.mp h
  have hmem : (k, w) ∈ t.sorted := mem_sorted.mpr hk
  rw [hinit] at hsorted hmem
  rcases mem_append.mp hmem with hmem | hmem
  · exact (pairwise_append.mp hsorted).2.2 _ hmem _ (mem_singleton_self _)
  · obtain ⟨rfl, -⟩ := Prod.mk.inj (mem_singleton.mp hmem)
    exact le_refl _

theorem lookup_of_last_none (h : t.last = none) (k : ℕ) : t.lookup k = none := by
  cases hk : t.lookup k with
  | none => rfl
  | some w =>
    have hmem : (k, w) ∈ t.sorted := mem_sorted.mpr hk
    rw [getLast?_eq_none_iff.mp h] at hmem
    nomatch hmem

theorem exists_last (h : t.lookup k = some v) : ∃ n w, t.last = some (n, w) ∧ k ≤ n := by
  cases hlast : t.last with
  | none => nomatch (lookup_of_last_none hlast k).symm.trans h
  | some e => exact ⟨e.1, e.2, rfl, le_of_last hlast h⟩

end

end Table

end Virtkit.Common
