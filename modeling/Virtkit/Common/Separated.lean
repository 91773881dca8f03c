import Mathlib.Data.List.Basic

/-!
# Texts read back from their parts

Parts put one after the other with a separator between them are read back when no part contains it: from
the front, from the back, or all of them. A marker of two letters is found from the back when nothing
after it contains it, and a label that a letter of its own begins from the front when nothing before it does.
-/

namespace Virtkit.Common

open List

variable {α : Type*}

variable {a b : List α} {l m : List (List α)}

/-- What stands before a separator is known if the separator is not in it. -/
theorem append_cons_inj_left {x : α} {c d : List α} (ha : x ∉ a) (hc : x ∉ c)
    (h : a ++ x :: b = c ++ x :: d) : a = c ∧ b = d := by
  induction a generalizing c with
  | nil =>
    cases c with
    | nil => exact ⟨rfl, tail_eq_of_cons_eq h⟩
    | cons y c => exact absurd (head_eq_of_cons_eq h ▸ mem_cons_self) hc
  | cons z a ih =>
    cases c with
    | nil => exact absurd (head_eq_of_cons_eq h ▸ mem_cons_self) ha
    | cons y c =>
      obtain ⟨hz, hrest⟩ := List.cons.inj h
      obtain ⟨hac, hbd⟩ := ih (fun hm => ha (mem_cons_of_mem z hm)) (fun hm => hc (mem_cons_of_mem y hm)) hrest
      exact ⟨by rw [hz, hac], hbd⟩

theorem append_cons_inj_right {x : α} {c d : List α} (hb : x ∉ b) (hd : x ∉ d)
    (h : a ++ x :: b = c ++ x :: d) : a = c ∧ b = d := by
  have hrev : b.reverse ++ x :: a.reverse = d.reverse ++ x :: c.reverse := by
    simpa using congrArg List.reverse h
  obtain ⟨hbd, hac⟩ := append_cons_inj_left (by simpa using hb) (by simpa using hd) hrev
  exact ⟨reverse_injective hac, reverse_injective hbd⟩

theorem append_marker_inj {p q : α} (hpq : p ≠ q) {c d : List α} (hb : ¬ [p, q] <:+: b) (hd : ¬ [p, q] <:+: d)
    (h : a ++ p :: q :: b = c ++ p :: q :: d) : a = c ∧ b = d := by
  -- what one of the two has more before its marker is empty: else the other has a marker after its own
  have key : ∀ {b d e : List α}, ¬ [p, q] <:+: b → p :: q :: b = e ++ p :: q :: d → e = [] := by
    intro b d e hb he
    match e with
    | [] => rfl
    | [y] => exact absurd (List.cons.inj (List.cons.inj he).2).1.symm hpq
    | y :: z :: e =>
      refine absurd ⟨e, d, ?_⟩ hb
      rw [(List.cons.inj (List.cons.inj he).2).2]
      simp
  rcases append_eq_append_iff.mp h with ⟨e, hc, he⟩ | ⟨e, ha, he⟩
  · obtain rfl := key hb he
    exact ⟨by rw [hc, append_nil], (List.cons.inj (List.cons.inj he).2).2⟩
  · obtain rfl := key hd he
    exact ⟨by rw [ha, append_nil], (List.cons.inj (List.cons.inj he).2).2.symm⟩

/-- What stands before a label is known if the label is not in it. -/
theorem append_label_inj {x : α} {w c d : List α} (hw : x ∉ w) (ha : ¬ x :: w <:+: a) (hc : ¬ x :: w <:+: c)
    (h : a ++ (x :: w ++ b) = c ++ (x :: w ++ d)) : a = c ∧ b = d := by
  -- what one of the two has more before its label is empty: else it begins with the label of the other
  have key : ∀ {a b c d e : List α}, ¬ x :: w <:+: c → c = a ++ e → x :: w ++ b = e ++ (x :: w ++ d) → e = [] := by
    intro a b c d e hc hce he
    cases e with
    | nil => rfl
    | cons y e =>
      obtain ⟨rfl, htail⟩ := List.cons.inj he
      rcases append_eq_append_iff.mp htail with ⟨f, hf, -⟩ | ⟨f, hf, hg⟩
      · exact absurd ⟨a, f, by rw [hce, hf]; simp⟩ hc
      · cases f with
        | nil => exact absurd ⟨a, [], by rw [hce, hf]; simp⟩ hc
        | cons z f =>
          obtain ⟨rfl, -⟩ := List.cons.inj hg
          exact absurd (hf ▸ mem_append_right e mem_cons_self) hw
  rcases append_eq_append_iff.mp h with ⟨e, hce, he⟩ | ⟨e, hae, he⟩
  · obtain rfl := key hc hce he
    exact ⟨by rw [hce, append_nil], append_cancel_left he⟩
  · obtain rfl := key ha hae he
    exact ⟨by rw [hae, append_nil], (append_cancel_left he).symm⟩

/-- Parts are known from their joined text if the separator is in none. -/
theorem intercalate_inj [DecidableEq α] {x : α} (hl : ∀ p ∈ l, x ∉ p) (hm : ∀ p ∈ m, x ∉ p)
    (hl₀ : l ≠ []) (hm₀ : m ≠ []) (h : [x].intercalate l = [x].intercalate m) : l = m := by
  rw [← splitOn_intercalate x hl hl₀, h, splitOn_intercalate x hm hm₀]

theorem head_nil_of_intercalate {s p : List α} (h : s.intercalate (p :: l) = []) : p = [] := by
  cases l with
  | nil => simpa using h
  | cons q l =>
    rw [intercalate_cons_cons] at h
    exact (append_eq_nil_iff.mp (append_eq_nil_iff.mp h).1).1

theorem intercalate_inj_of_ne_nil [DecidableEq α] {x : α} (hl : ∀ p ∈ l, x ∉ p)
    (hm : ∀ p ∈ m, x ∉ p) (hl₀ : ∀ p ∈ l, p ≠ []) (hm₀ : ∀ p ∈ m, p ≠ [])
    (h : [x].intercalate l = [x].intercalate m) : l = m := by
  cases l with
  | nil =>
    cases m with
    | nil => rfl
    | cons p m => exact absurd (head_nil_of_intercalate h.symm) (hm₀ p mem_cons_self)
  | cons q l =>
    cases m with
    | nil => exact absurd (head_nil_of_intercalate h) (hl₀ q mem_cons_self)
    | cons p m => exact intercalate_inj hl hm (cons_ne_nil q l) (cons_ne_nil p m) h

theorem intercalate_concat {s p q : List α} : s.intercalate (q :: l ++ [p]) = s.intercalate (q :: l) ++ s ++ p := by
  induction l generalizing q with
  | nil => simp
  | cons r l ih =>
    rw [cons_append, cons_append, intercalate_cons_cons, ← cons_append, ih, intercalate_cons_cons]
    simp only [append_assoc]

theorem intercalate_cons_inj {x : α} {p q : List α} (hp : x ∉ p) (hq : x ∉ q)
    (h : [x].intercalate (p :: a :: l) = [x].intercalate (q :: b :: m)) :
    p = q ∧ [x].intercalate (a :: l) = [x].intercalate (b :: m) := by
  rw [intercalate_cons_cons, intercalate_cons_cons, append_assoc, append_assoc] at h
  exact append_cons_inj_left hp hq h

theorem intercalate_concat_inj {x : α} {p q : List α} (hp : x ∉ p) (hq : x ∉ q)
    (h : [x].intercalate (a :: l ++ [p]) = [x].intercalate (b :: m ++ [q])) :
    [x].intercalate (a :: l) = [x].intercalate (b :: m) ∧ p = q := by
  rw [intercalate_concat, intercalate_concat, append_assoc, append_assoc] at h
  exact append_cons_inj_right hp hq h

theorem notMem_intercalate {c : α} {s : List α} (hs : c ∉ s) (hl : ∀ p ∈ l, c ∉ p) : c ∉ s.intercalate l := by
  induction l with
  | nil => simp
  | cons p l ih =>
    have hrest := ih fun q hq => hl q (mem_cons_of_mem p hq)
    cases l with
    | nil => simpa using hl p mem_cons_self
    | cons q l =>
      rw [intercalate_cons_cons, mem_append, mem_append]
      rintro ((h | h) | h)
      · exact hl p mem_cons_self h
      · exact hs h
      · exact hrest h

theorem map_eq_of_map_eq {β γ : Type*} {f : α → β} {g : α → γ} {P : α → Prop}
    (hfg : ∀ a b, P a → P b → f a = f b → g a = g b) {l m : List α} (hl : ∀ a ∈ l, P a) (hm : ∀ a ∈ m, P a)
    (h : l.map f = m.map f) : l.map g = m.map g := by
  induction l generalizing m with
  | nil => rw [map_eq_nil_iff.mp h.symm]
  | cons a l ih =>
    cases m with
    | nil => exact absurd h (cons_ne_nil _ _)
    | cons b m =>
      obtain ⟨hab, hlm⟩ := List.cons.inj h
      rw [map_cons, map_cons, hfg a b (hl a mem_cons_self) (hm b mem_cons_self) hab,
        ih (fun x hx => hl x (mem_cons_of_mem a hx)) (fun x hx => hm x (mem_cons_of_mem b hx)) hlm]

end Virtkit.Common
