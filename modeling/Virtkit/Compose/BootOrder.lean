import Virtkit.Common.DepthFirst
import Mathlib.Data.List.FinRange
import Mathlib.Data.Fintype.BigOperators
import Mathlib.Order.Bounds.Basic

/-!
# What of a compose project starts, and in which order

Units name the units they depend on. The start order is found by a recursive visit that marks each unit
while its dependencies are visited; what starts at all, and what a single run needs, by a stack of units
still to be followed.
-/

namespace Virtkit.Compose

open Virtkit.Common List Relation

/-- What a service of a compose file says about starting it. -/
structure Unit where
  name : String
  dependsOn : List String
  profiles : List String

variable (units : List Unit)

abbrev Place := Fin units.length

/-- The place of the unit of a name; of several of one name the last. -/
def byName (name : String) : Option (Place units) :=
  (finRange units.length).reverse.find? fun i => (units.get i).name = name

/-- The places of the units a unit depends on, as far as they are known. -/
def deps (i : Place units) : List (Place units) := (units.get i).dependsOn.filterMap (byName units)

/-- Why there is no start order. -/
inductive OrderError where
  | cycle (service : String)
  | unknown (service dep : String)

structure Visits where
  state : Place units → Mark
  order : List (Place units)

/-- Visit a unit: all it depends on, and then itself. Each nested visit marks a unit more, so that none is
deeper than there are units. -/
def visit : ℕ → Visits units → Place units → Except OrderError (Visits units)
  | 0, _, i => .error (.cycle (units.get i).name)
  | depth + 1, s, i =>
    match s.state i with
    | .done => .ok s
    | .visiting => .error (.cycle (units.get i).name)
    | .unvisited => do
      let s ← (units.get i).dependsOn.foldlM (fun s dep =>
          match byName units dep with
          | none => .error (.unknown (units.get i).name dep)
          | some d => visit depth s d)
        { s with state := Function.update s.state i .visiting }
      .ok ⟨Function.update s.state i .done, s.order ++ [i]⟩

/-- The order in which the units start: dependencies first. -/
def bootOrder : Except OrderError (List (Place units)) := do
  let s ← (finRange units.length).foldlM (visit units (units.length + 1)) ⟨fun _ => .unvisited, []⟩
  .ok s.order

def Unit.starts (active : List String) (u : Unit) : Bool :=
  u.profiles.isEmpty || u.profiles.any fun p => active.contains p

/-- Follow what is on the stack and not on yet; its top is the head. -/
def enableFrom (on : Finset (Place units)) (stack : List (Place units)) : Finset (Place units) :=
  match stack with
  | [] => on
  | i :: stack =>
    if i ∈ on then enableFrom on stack else enableFrom (insert i on) ((deps units i).reverse ++ stack)
termination_by (onᶜ.card, stack.length)
decreasing_by
  · exact Prod.Lex.right _ (Nat.lt_succ_self _)
  · rename_i h
    refine Prod.Lex.left _ _ ?_
    rw [Finset.compl_insert]
    exact Finset.card_erase_lt_of_mem (Finset.mem_compl.mpr h)

/-- The units that start, given the active profiles. -/
def enabled (active : List String) : Finset (Place units) :=
  enableFrom units ∅ ((finRange units.length).filter fun i => (units.get i).starts active).reverse

section

variable {α : Type*} [DecidableEq α]

/-- A unit that is not on yet is put on, and on the stack. -/
def turnOn (s : Finset α × List α) (d : α) : Finset α × List α :=
  if d ∈ s.1 then s else (insert d s.1, d :: s.2)

theorem mem_foldl_turnOn (ds : List α) (s : Finset α × List α) (x : α) :
    (x ∈ (ds.foldl turnOn s).1 ↔ x ∈ s.1 ∨ x ∈ ds) ∧ (x ∈ (ds.foldl turnOn s).2 ↔ x ∈ s.2 ∨ x ∈ ds ∧ x ∉ s.1) := by
  induction ds generalizing s with
  | nil => simp
  | cons d ds ih =>
    rw [foldl_cons, (ih _).1, (ih _).2, turnOn]
    grind

theorem card_foldl_turnOn [Fintype α] (ds : List α) (s : Finset α × List α) :
    (ds.foldl turnOn s).1ᶜ.card + (ds.foldl turnOn s).2.length = s.1ᶜ.card + s.2.length := by
  induction ds generalizing s with
  | nil => rfl
  | cons d ds ih =>
    rw [foldl_cons, ih, turnOn]
    split
    · rfl
    · rename_i h
      have hd : d ∈ s.1ᶜ := Finset.mem_compl.mpr h
      rw [Finset.compl_insert, Finset.card_erase_of_mem hd, length_cons]
      have := Finset.card_pos.mpr ⟨d, hd⟩
      omega

end

/-- Follow what is on the stack, each unit of which was put on when it was pushed. -/
def closeFrom (on : Finset (Place units)) (stack : List (Place units)) : Finset (Place units) :=
  match stack with
  | [] => on
  | i :: stack =>
    let s := (deps units i).foldl turnOn (on, stack)
    closeFrom s.1 s.2
termination_by onᶜ.card + stack.length
decreasing_by
  rw [card_foldl_turnOn]
  exact Nat.lt_succ_self _

/-- The units a run of one unit starts besides it. -/
def dependencyClosure (root : Place units) : Finset (Place units) :=
  (closeFrom units ∅ [root]).erase root

def DependsOn (i d : Place units) : Prop := (units.get d).name ∈ (units.get i).dependsOn

/-- There is no start order: a unit depends on none there is, or on itself. -/
def Broken : Prop :=
  (∃ i : Place units, ∃ dep ∈ (units.get i).dependsOn, byName units dep = none) ∨
    ∃ i, TransGen (Needs (deps units)) i i

/-- The units done are in the order, each once and after all it depends on. -/
structure Kept (s : Visits units) : Prop where
  done : ∀ i, s.state i = .done ↔ i ∈ s.order
  nodup : s.order.Nodup
  sorted : ∀ k i, s.order[k]? = some i →
    ∀ dep ∈ (units.get i).dependsOn, ∃ d ∈ s.order.take k, byName units dep = some d

/-- What visits leave: they are in the middle of the same units, and have made no unit undone. -/
structure Grown (s s' : Visits units) : Prop where
  visiting : ∀ i, s'.state i = .visiting ↔ s.state i = .visiting
  order : ∀ i ∈ s.order, i ∈ s'.order
  unvisited : Common.unvisited s'.state ≤ Common.unvisited s.state

/-- What visits come to, where they put something in the order. -/
def Outcome (s : Visits units) (P : List (Place units) → Prop) :
    Except OrderError (Visits units) → Prop
  | .ok s' => Kept units s' ∧ Grown units s s' ∧ P s'.order
  | .error _ => Broken units

variable {units} {s t u : Visits units} {i : Place units} {P Q : List (Place units) → Prop}
  {r : Except OrderError (Visits units)}

theorem Grown.refl (s : Visits units) : Grown units s s := ⟨fun _ => .rfl, fun _ => id, le_rfl⟩

theorem Grown.trans (h : Grown units s t) (h' : Grown units t u) : Grown units s u where
  visiting i := (h'.visiting i).trans (h.visiting i)
  order i hi := h'.order i (h.order i hi)
  unvisited := h'.unvisited.trans h.unvisited

theorem Outcome.imp (h : Outcome units s P r) (hPQ : ∀ t : Visits units, Grown units s t → P t.order → Q t.order) :
    Outcome units s Q r := by
  cases r with
  | error e => exact h
  | ok t => exact ⟨h.1, h.2.1, hPQ t h.2.1 h.2.2⟩

/-- Outcomes are put together as the visits are. -/
theorem Outcome.bind {f : Visits units → Except OrderError (Visits units)} (h : Outcome units s P r)
    (hf : ∀ t, Kept units t → Grown units s t → P t.order → Outcome units t Q (f t)) : Outcome units s Q (r >>= f) := by
  cases r with
  | error e => exact h
  | ok t =>
    obtain ⟨ht, hst, hP⟩ := h
    have hft := hf t ht hst hP
    change Outcome units s Q (f t)
    generalize f t = r at hft ⊢
    cases r with
    | error e => exact hft
    | ok u => exact ⟨hft.1, hst.trans hft.2.1, hft.2.2⟩

theorem foldlM_outcome {α : Type*} {f : Visits units → α → Except OrderError (Visits units)}
    {R : α → Place units → Prop} {l : List α} (hs : Kept units s)
    (hf : ∀ x ∈ l, ∀ t, Kept units t → Grown units s t → Outcome units t (fun order => ∃ d ∈ order, R x d) (f t x)) :
    Outcome units s (fun order => ∀ x ∈ l, ∃ d ∈ order, R x d) (l.foldlM f s) := by
  induction l generalizing s with
  | nil => exact ⟨hs, .refl s, nofun⟩
  | cons x l ih =>
    rw [foldlM_cons]
    refine (hf x mem_cons_self s hs (.refl s)).bind fun t ht hst ⟨d, hd, hnamed⟩ => ?_
    refine (ih ht fun y hy u hu htu => hf y (mem_cons_of_mem _ hy) u hu (hst.trans htu)).imp fun u htu hall => ?_
    exact forall_mem_cons.mpr ⟨⟨d, htu.order d hd, hnamed⟩, hall⟩

/-- A visit ends with its unit in the order, or finds what is broken. -/
theorem visit_outcome (depth : ℕ) (hs : Kept units s) (hdepth : unvisited s.state < depth)
    (hpath : ∀ v, s.state v = .visiting → TransGen (Needs (deps units)) v i) :
    Outcome units s (i ∈ ·) (visit units depth s i) := by
  induction depth generalizing s i with
  | zero => nomatch hdepth
  | succ depth ih =>
    rw [visit]
    cases hi : s.state i with
    | done => exact ⟨hs, .refl s, (hs.done i).mp hi⟩
    | visiting => exact .inr ⟨i, hpath i hi⟩
    | unvisited =>
      have hless := (unvisited_update s.state i .visiting nofun).2 hi
      have hmarked : Kept units { s with state := Function.update s.state i .visiting } :=
        ⟨by grind [hs.done], hs.nodup, hs.sorted⟩
      -- while its dependencies are visited, each unit in the middle of its visit is `i` or leads to it
      have hdeps := foldlM_outcome (R := fun dep d => byName units dep = some d)
        (f := fun s dep => match byName units dep with
          | none => .error (.unknown (units.get i).name dep)
          | some d => visit units depth s d) (l := (units.get i).dependsOn) hmarked fun dep hdep t ht hgrown => by
        cases hd : byName units dep with
        | none => exact .inl ⟨i, dep, hdep, hd⟩
        | some d =>
          have hneed : Needs (deps units) i d := mem_filterMap.mpr ⟨dep, hdep, hd⟩
          refine (ih ht ?_ fun v hv => ?_).imp fun u _ hu => ⟨d, hu, rfl⟩
          · exact hgrown.unvisited.trans_lt (hless.trans_le (Nat.lt_succ_iff.mp hdepth))
          · have hv := (hgrown.visiting v).mp hv
            by_cases h : v = i
            · exact h ▸ .single hneed
            · exact (hpath v (by simpa [h] using hv)).tail hneed
      generalize (foldlM _ _ _ : Except OrderError (Visits units)) = r at hdeps ⊢
      cases r with
      | error e => exact hdeps
      | ok t =>
        obtain ⟨ht, hgrown, hall⟩ := hdeps
        have hti : t.state i = .visiting := (hgrown.visiting i).mpr (Function.update_self ..)
        have hfresh : i ∉ t.order := fun h => by grind [ht.done]
        refine ⟨⟨by grind [ht.done], by grind [ht.nodup], fun k j hj dep hdep => ?_⟩, ⟨fun j => ?_, ?_, ?_⟩, by simp⟩
        · have hsorted := ht.sorted
          grind
        · have := hgrown.visiting j
          grind
        · intro j hj
          exact mem_append_left _ (hgrown.order j hj)
        · exact (unvisited_update t.state i .done nofun).1.trans (hgrown.unvisited.trans hless.le)

/-- In the order a unit stands after what it depends on. -/
theorem Kept.before (hs : Kept units s) {k : ℕ} (hi : s.order[k]? = some i) {d : Place units}
    (hd : d ∈ deps units i) : d ∈ s.order.take k := by
  obtain ⟨dep, hdep, hname⟩ := mem_filterMap.mp hd
  obtain ⟨d', hd', hname'⟩ := hs.sorted k i hi dep hdep
  exact Option.some.inj (hname.symm.trans hname') ▸ hd'

theorem Kept.not_broken (hs : Kept units s) (hall : ∀ i, i ∈ s.order) : ¬Broken units := by
  have hwalk : Walk (deps units) (finRange units.length) [] s.state s.order :=
    ⟨hs.done, hs.nodup, fun _ _ hi _ => hs.before hi, fun i hi => (nomatch hi.symm.trans ((hs.done i).mpr (hall i))),
      trivial, fun i _ => ⟨i, mem_finRange i, .refl⟩, fun i _ => .inl (hall i)⟩
  rintro (⟨i, dep, hdep, hnone⟩ | ⟨i, hcycle⟩)
  · obtain ⟨k, hk⟩ := mem_iff_getElem?.mp (hall i)
    obtain ⟨d, -, hd⟩ := hs.sorted k i hk dep hdep
    exact nomatch hnone.symm.trans hd
  · exact hwalk.ended.2 i (hall i) hcycle

/-- The boot order has every unit, or the units are broken. -/
theorem bootOrder_outcome : match bootOrder units with
    | .ok order => ∃ s, Kept units s ∧ s.order = order ∧ ∀ i, i ∈ order
    | .error _ => Broken units := by
  have hall := foldlM_outcome (s := ⟨fun _ => .unvisited, []⟩) (l := finRange units.length)
    (f := visit units (units.length + 1)) (R := Eq) ⟨by simp, nodup_nil, nofun⟩ fun i _ t ht hgrown => by
      refine (visit_outcome _ ht ?_ fun v hv => ?_).imp fun u _ hu => ⟨i, hu, rfl⟩
      · exact Nat.lt_succ_of_le ((Finset.card_le_univ _).trans (Fintype.card_fin _).le)
      · exact nomatch (hgrown.visiting v).mp hv
  unfold bootOrder
  generalize (foldlM _ _ _ : Except OrderError (Visits units)) = r at hall ⊢
  cases r with
  | error e => exact hall
  | ok s => exact ⟨s, hall.1, rfl, fun i => by simpa using hall.2.2 i (mem_finRange i)⟩

/-- A set of units that has all that some of its units depend on. -/
def Closed (units : List Unit) (S : Finset (Place units)) : Prop := ∀ i ∈ S, ∀ d ∈ deps units i, d ∈ S

/-- What is enabled is the least closed set with what is asked for. -/
theorem enableFrom_least (on : Finset (Place units)) (stack : List (Place units))
    (hon : ∀ i ∈ on, ∀ d ∈ deps units i, d ∈ on ∨ d ∈ stack) :
    IsLeast {S | on ⊆ S ∧ (∀ i ∈ stack, i ∈ S) ∧ Closed units S} (enableFrom units on stack) := by
  fun_induction enableFrom units on stack with
  | case1 on => exact ⟨⟨Finset.Subset.refl on, nofun, by simpa [Closed] using hon⟩, fun S hS => hS.1⟩
  | case2 on i stack hi ih =>
    convert ih (by grind) using 3
    grind
  | case3 on i stack hi ih =>
    convert ih (by grind) using 3
    simp only [Closed]
    grind

theorem closeFrom_least (on : Finset (Place units)) (stack : List (Place units))
    (hon : ∀ i ∈ on, i ∈ stack ∨ ∀ d ∈ deps units i, d ∈ on) :
    IsLeast {S | on ⊆ S ∧ (∀ i ∈ stack, ∀ d ∈ deps units i, d ∈ S) ∧ Closed units S} (closeFrom units on stack) := by
  fun_induction closeFrom units on stack with
  | case1 on => exact ⟨⟨Finset.Subset.refl on, nofun, by simpa [Closed] using hon⟩, fun S hS => hS.1⟩
  | case2 on i stack s ih =>
    have hmem := mem_foldl_turnOn (deps units i) (on, stack)
    convert ih (by grind) using 3
    simp only [Closed]
    grind

theorem byName_eq_none {name : String} : byName units name = none ↔ ∀ u ∈ units, u.name ≠ name := by
  simp [byName, forall_mem_iff_get]

theorem broken_iff : Broken units ↔ (∃ u ∈ units, ∃ dep ∈ u.dependsOn, ∀ v ∈ units, v.name ≠ dep) ∨
    ∃ i, TransGen (Needs (deps units)) i i := by
  simp [Broken, byName_eq_none, exists_mem_iff_get]

/-- Units depend by name as they do by place. -/
theorem needs_deps (hdistinct : (units.map Unit.name).Nodup) : Needs (deps units) = DependsOn units := by
  have hfound : ∀ {name j}, byName units name = some j → (units.get j).name = name := fun h => by
    simpa using find?_some h
  funext i d
  refine propext ⟨fun h => ?_, fun h => mem_filterMap.mpr ⟨_, h, ?_⟩⟩
  · obtain ⟨dep, hdep, hd⟩ := mem_filterMap.mp h
    exact (congrArg (· ∈ _) (hfound hd)).mpr hdep
  · cases hname : byName units (units.get d).name with
    | none => exact absurd rfl (byName_eq_none.mp hname _ (get_mem units d))
    | some j =>
      have hunit := inj_on_of_nodup_map hdistinct (get_mem units j) (get_mem units d) (hfound hname)
      rw [nodup_iff_injective_get.mp (hdistinct.of_map _) hunit]

/-- Services start after what they depend on, and only what is needed. -/
theorem units_start_in_order (hdistinct : (units.map Unit.name).Nodup) (active : List String) :
    ((∃ e, bootOrder units = .error e) ↔
        (∃ u ∈ units, ∃ dep ∈ u.dependsOn, ∀ v ∈ units, v.name ≠ dep) ∨ ∃ i, TransGen (DependsOn units) i i) ∧
      (∀ order, bootOrder units = .ok order → order.Nodup ∧ (∀ i, i ∈ order) ∧
        ∀ k i, order[k]? = some i → ∀ d, DependsOn units i d → d ∈ order.take k) ∧
      IsLeast {S : Finset (Place units) |
        (∀ i, (units.get i).profiles = [] ∨ (∃ p ∈ (units.get i).profiles, p ∈ active) → i ∈ S) ∧
          ∀ i ∈ S, ∀ d, DependsOn units i d → d ∈ S} (enabled units active) ∧
      ∀ root i, i ∈ dependencyClosure units root ↔ TransGen (DependsOn units) root i ∧ i ≠ root := by
  rw [← needs_deps hdistinct, ← broken_iff]
  have houtcome := @bootOrder_outcome units
  refine ⟨?_, ?_, ?_, fun root i => ?_⟩
  · cases hr : bootOrder units with
    | error e =>
      rw [hr] at houtcome
      exact ⟨fun _ => houtcome, fun _ => ⟨e, rfl⟩⟩
    | ok order =>
      rw [hr] at houtcome
      obtain ⟨s, hkept, rfl, hall⟩ := houtcome
      exact ⟨nofun, fun h => absurd h (hkept.not_broken hall)⟩
  · intro order horder
    rw [horder] at houtcome
    obtain ⟨s, hkept, rfl, hall⟩ := houtcome
    exact ⟨hkept.nodup, hall, fun k i hi d => hkept.before hi⟩
  · rw [enabled]
    convert enableFrom_least (∅ : Finset (Place units)) _ (by simp) using 3
    simp [Closed, Unit.starts, Needs]
  · obtain ⟨⟨-, hroot, hclosed⟩, hleast⟩ := closeFrom_least (∅ : Finset (Place units)) [root] (by simp)
    rw [dependencyClosure, Finset.mem_erase, and_comm]
    refine and_congr_left' ⟨fun hi => ?_, fun hi => ?_⟩
    · classical
      have hreached := hleast (a := Finset.univ.filter (TransGen (Needs (deps units)) root)) ?_ hi
      · simpa using hreached
      · simp only [Closed, Set.mem_ofPred_eq, Finset.mem_filter_univ]
        exact ⟨by simp, forall_mem_singleton.mpr fun d h => .single h, fun j hj d => hj.tail⟩
    · induction hi with
      | single h => exact hroot root mem_cons_self _ h
      | tail _ h ih => exact hclosed _ ih _ h

/-- The second unit is started for the first, though its profile is not active. -/
theorem units_start_in_order_two : ([⟨"web", ["db"], []⟩, ⟨"db", [], ["data"]⟩].map Unit.name).Nodup ∧
    ∀ i, i ∈ dependencyClosure [⟨"web", ["db"], []⟩, ⟨"db", [], ["data"]⟩] 0 ↔
      TransGen (DependsOn [⟨"web", ["db"], []⟩, ⟨"db", [], ["data"]⟩]) 0 i ∧ i ≠ 0 :=
  ⟨by decide, (units_start_in_order (by decide) []).2.2.2 0⟩

end Virtkit.Compose
