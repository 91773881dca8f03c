import Mathlib.Data.Fintype.Card

/-!
# Depth-first order

A walk over the nodes of a finite graph with a stack of its own. A node is on the stack to be visited,
and once more, beneath what it needs, to be finished. The finished nodes are in an order in which each
follows those it needs; a node met again before it is finished is on a cycle.
-/

namespace Virtkit.Common

open List Relation

/-- How far a node is. -/
inductive Mark where
  | unvisited
  | visiting
  | done
  deriving DecidableEq

section

variable {α : Type*} (deps : α → List α)

/-- One node depends on another. -/
def Needs (n d : α) : Prop := d ∈ deps n

/-- What is beneath nodes on the stack: each node to be finished needs all those above it, and what it
needs is in the order or above it. -/
def Stacked (order : List α) : List α → List (α × Bool) → Prop
  | _, [] => True
  | above, (n, finish) :: stack =>
    (finish = true → (∀ e ∈ above, TransGen (Needs deps) n e) ∧ ∀ d ∈ deps n, d ∈ order ∨ d ∈ above) ∧
      Stacked order (n :: above) stack

/-- What holds throughout a walk from some nodes. -/
structure Walk (roots : List α) (stack : List (α × Bool)) (mark : α → Mark) (order : List α) : Prop where
  done : ∀ n, mark n = .done ↔ n ∈ order
  nodup : order.Nodup
  sorted : ∀ i n, order[i]? = some n → ∀ d ∈ deps n, d ∈ order.take i
  visiting : ∀ n, mark n = .visiting → (n, true) ∈ stack
  stacked : Stacked deps order [] stack
  reached : ∀ n, n ∈ order ∨ n ∈ stack.map Prod.fst → ∃ r ∈ roots, ReflTransGen (Needs deps) r n
  roots : ∀ r ∈ roots, r ∈ order ∨ r ∈ stack.map Prod.fst

variable {deps} {order order' above above' roots : List α} {stack : List (α × Bool)} {mark : α → Mark}
  {n d : α} {finish : Bool}

theorem Stacked.mono (h : Stacked deps order above stack) (horder : order ⊆ order')
    (hkept : ∀ a ∈ above, a ∈ order' ∨ a ∈ above')
    (hfrom : ∀ e ∈ above', ∃ a ∈ above, ReflTransGen (Needs deps) a e) : Stacked deps order' above' stack := by
  induction stack generalizing above above' with
  | nil => trivial
  | cons entry stack ih =>
    refine ⟨fun hfinish => ?_, ih h.2 (by grind) (by grind)⟩
    obtain ⟨habove, hdeps⟩ := h.1 hfinish
    refine ⟨fun e he => ?_, by grind⟩
    obtain ⟨a, ha, hae⟩ := hfrom e he
    exact (habove a ha).trans_left hae

theorem Stacked.needs (h : Stacked deps order above stack) (hn : (n, true) ∈ stack) (hd : d ∈ above) :
    TransGen (Needs deps) n d := by
  induction stack generalizing above with
  | nil => nomatch hn
  | cons entry stack ih =>
    rcases mem_cons.mp hn with rfl | hn
    · exact (h.1 rfl).1 d hd
    · exact ih h.2 hn (mem_cons_of_mem _ hd)

theorem Stacked.push {nodes : List α} (h : Stacked deps order (nodes.reverse ++ above) stack) :
    Stacked deps order above (nodes.map (·, false) ++ stack) := by
  induction nodes generalizing above with
  | nil => exact h
  | cons node nodes ih => exact ⟨nofun, ih (by simpa using h)⟩

theorem Walk.skip (h : Walk deps roots ((n, finish) :: stack) mark order) (hn : mark n = .done) :
    Walk deps roots stack mark order where
  done := h.done
  nodup := h.nodup
  sorted := h.sorted
  visiting := by grind [h.visiting]
  stacked := h.stacked.2.mono (Subset.refl order) (by simpa using (h.done n).mp hn) (by simp)
  reached := by grind [h.reached]
  roots := by grind [h.roots, h.done]

/-- Once the walk ended, each node stands after all it needs. -/
theorem Walk.before (h : Walk deps roots [] mark order) (hnd : TransGen (Needs deps) n d) {i : ℕ}
    (hn : order[i]? = some n) : ∃ j < i, order[j]? = some d := by
  have hstep : ∀ {m e : α} {k : ℕ}, order[k]? = some m → Needs deps m e → ∃ j < k, order[j]? = some e := by
    intro m e k hm he
    obtain ⟨j, hj⟩ := mem_iff_getElem?.mp (h.sorted k m hm e he)
    grind
  induction hnd with
  | single he => exact hstep hn he
  | tail _ he ih =>
    obtain ⟨j, hj, hm⟩ := ih
    obtain ⟨k, hk, he⟩ := hstep hm he
    exact ⟨k, hk.trans hj, he⟩

/-- A walk that ended has just what its roots need, and no circle. -/
theorem Walk.ended (h : Walk deps roots [] mark order) :
    (∀ n, n ∈ order ↔ ∃ r ∈ roots, ReflTransGen (Needs deps) r n) ∧ ∀ n ∈ order, ¬TransGen (Needs deps) n n := by
  refine ⟨fun n => ⟨fun hn => h.reached n (.inl hn), ?_⟩, fun n hn hcycle => ?_⟩
  · rintro ⟨r, hr, hrn⟩
    obtain ⟨i, hi⟩ := mem_iff_getElem?.mp (show r ∈ order by simpa using h.roots r hr)
    rcases reflTransGen_iff_eq_or_transGen.mp hrn with rfl | hrn
    · exact mem_of_getElem? hi
    · obtain ⟨j, -, hj⟩ := h.before hrn hi
      exact mem_of_getElem? hj
  · obtain ⟨i, hi⟩ := mem_iff_getElem?.mp hn
    obtain ⟨j, hj, hjn⟩ := h.before hcycle hi
    have hlt := (List.getElem?_eq_some_iff.mp hjn).1
    exact hj.ne ((getElem?_inj hlt h.nodup).mp (hjn.trans hi.symm))

variable [DecidableEq α]

/-- A node is done once all it needs is. -/
theorem Walk.finished (h : Walk deps roots ((n, true) :: stack) mark order) (hn : mark n ≠ .done) :
    Walk deps roots stack (Function.update mark n .done) (order ++ [n]) where
  done := by grind [h.done]
  nodup := by grind [h.nodup, h.done]
  sorted i k hk d hd := by
    have hdeps := (h.stacked.1 rfl).2
    grind [h.sorted]
  visiting := by grind [h.visiting]
  stacked := h.stacked.2.mono (by simp) (by simp) (by simp)
  reached := by grind [h.reached]
  roots := by grind [h.roots]

/-- A node that is visited puts what it needs before itself. -/
theorem Walk.visited (h : Walk deps roots ((n, false) :: stack) mark order) (hn : mark n = .unvisited) :
    Walk deps roots ((deps n).map (·, false) ++ (n, true) :: stack) (Function.update mark n .visiting) order where
  done := by grind [h.done]
  nodup := h.nodup
  sorted := h.sorted
  visiting := by grind [h.visiting]
  stacked := by
    refine .push ⟨fun _ => ⟨?_, by grind⟩, h.stacked.2.mono (Subset.refl order) (by simp) ?_⟩
    · exact fun e he => .single (show e ∈ deps n by simpa using he)
    · simpa using ⟨.refl, fun e he => .single he⟩
  reached k hk := by
    by_cases hdep : k ∈ deps n
    · obtain ⟨r, hr, hrn⟩ := h.reached n (.inr mem_cons_self)
      exact ⟨r, hr, hrn.tail hdep⟩
    · exact h.reached k (by simpa [hdep] using hk)
  roots := by grind [h.roots]

/-- How many nodes are not visited yet. -/
def unvisited [Fintype α] (mark : α → Mark) : ℕ := (Finset.univ.filter fun n => mark n = .unvisited).card

theorem unvisited_update [Fintype α] (mark : α → Mark) (n : α) (m : Mark) (hm : m ≠ .unvisited) :
    unvisited (Function.update mark n m) ≤ unvisited mark ∧
      (mark n = .unvisited → unvisited (Function.update mark n m) < unvisited mark) := by
  have herase : (Finset.univ.filter fun k => Function.update mark n m k = .unvisited) =
      (Finset.univ.filter fun k => mark k = .unvisited).erase n := by grind
  rw [unvisited, unvisited, herase]
  exact ⟨Finset.card_erase_le, fun h => Finset.card_erase_lt_of_mem (by simpa using h)⟩

/-- The walk from a stack, whose entries are to be visited, or to be finished: the marks and the order at
its end, or the node a cycle was met at. -/
def depthFirst [Fintype α] (deps : α → List α) (stack : List (α × Bool)) (mark : α → Mark) (order : List α) :
    Except α ((α → Mark) × List α) :=
  match stack with
  | [] => .ok (mark, order)
  | (n, true) :: stack =>
    if mark n ≠ .done then depthFirst deps stack (Function.update mark n .done) (order ++ [n])
    else depthFirst deps stack mark order
  | (n, false) :: stack =>
    match _h : mark n with
    | .done => depthFirst deps stack mark order
    | .visiting => .error n
    | .unvisited =>
      depthFirst deps ((deps n).map (·, false) ++ (n, true) :: stack) (Function.update mark n .visiting) order
termination_by (unvisited mark, stack.length)
decreasing_by
  · exact Prod.Lex.right' _ (unvisited_update mark n .done nofun).1 (Nat.lt_succ_self _)
  · exact Prod.Lex.right _ (Nat.lt_succ_self _)
  · exact Prod.Lex.right _ (Nat.lt_succ_self _)
  · exact Prod.Lex.left _ _ ((unvisited_update mark n .visiting nofun).2 _h)

variable [Fintype α]

theorem depthFirst_append (stack more : List (α × Bool)) : depthFirst deps (stack ++ more) mark order =
    (depthFirst deps stack mark order >>= fun s => depthFirst deps more s.1 s.2) := by
  fun_induction depthFirst deps stack mark order with
  | case1 => rfl
  | case2 mark order n stack hn ih => rw [cons_append, depthFirst, if_pos hn, ih]
  | case3 mark order n stack hn ih => rw [cons_append, depthFirst, if_neg hn, ih]
  | case4 mark order n stack hn ih | case6 mark order n stack hn ih =>
    rw [cons_append, depthFirst]; split <;> simp_all
  | case5 mark order n stack hn => rw [cons_append, depthFirst]; split <;> simp_all; rfl

theorem foldlM_depthFirst (targets : List α) (mark : α → Mark) (order : List α) :
    targets.foldlM (fun s t => depthFirst deps [(t, false)] s.1 s.2) (mark, order) =
      depthFirst deps (targets.map (·, false)) mark order := by
  induction targets generalizing mark order with
  | nil => rw [map_nil, depthFirst]; rfl
  | cons t targets ih =>
    rw [foldlM_cons, map_cons]
    simp only [ih]
    exact (depthFirst_append [(t, false)] _).symm

/-- What a walk comes to: an order, or a circle. -/
theorem Walk.walked (h : Walk deps roots stack mark order) : match depthFirst deps stack mark order with
    | .ok (mark, order) => Walk deps roots [] mark order
    | .error n => (∃ r ∈ roots, ReflTransGen (Needs deps) r n) ∧ TransGen (Needs deps) n n := by
  fun_induction depthFirst deps stack mark order with
  | case1 => exact h
  | case2 mark order n stack hn ih => exact ih (h.finished hn)
  | case3 mark order n stack hn ih => exact ih (h.skip (not_not.mp hn))
  | case4 mark order n stack hn ih => exact ih (h.skip hn)
  | case5 mark order n stack hn =>
    refine ⟨h.reached n (.inr mem_cons_self), h.stacked.2.needs ?_ mem_cons_self⟩
    simpa using h.visiting n hn
  | case6 mark order n stack hn ih => exact ih (h.visited hn)

end

end Virtkit.Common
