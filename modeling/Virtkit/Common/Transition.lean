import Mathlib.Data.List.Basic

/-!
# Labelled transition systems

A system is a set of initial states and a step relation labelled by actions. Runs are finite
sequences of steps. The invariant rule reduces a statement about every reachable state to one
about initial states and one about single steps; `System.restrict` keeps the steps that meet a
condition, so that a property of the runs all of whose steps meet it is a property of the
restricted system's reachable states.
-/

namespace Virtkit.Common

/-- Initial states, and the steps an action may take. -/
structure System (S A : Type*) where
  init : S → Prop
  step : S → A → S → Prop

variable {S A : Type*}

namespace System

/-- A finite run: the actions taken between two states, in order. -/
inductive Run (sys : System S A) : S → List A → S → Prop
  | nil (s : S) : Run sys s [] s
  | cons {s s' s'' : S} {a : A} {as : List A} :
      sys.step s a s' → Run sys s' as s'' → Run sys s (a :: as) s''

/-- A state that some run from an initial state ends in. -/
def Reachable (sys : System S A) (s : S) : Prop :=
  ∃ s₀ as, sys.init s₀ ∧ sys.Run s₀ as s

/-- What every step keeps holds at the end of a run. -/
theorem Run.invariant {sys : System S A} {Inv : S → Prop}
    (hstep : ∀ s a s', Inv s → sys.step s a s' → Inv s') {s s' : S} {as : List A}
    (hrun : sys.Run s as s') (hs : Inv s) : Inv s' := by
  induction hrun with
  | nil s => exact hs
  | cons h _ ih => exact ih (hstep _ _ _ hs h)

/-- What holds at first and every step keeps is an invariant. -/
theorem Reachable.invariant {sys : System S A} {Inv : S → Prop}
    (hinit : ∀ s, sys.init s → Inv s) (hstep : ∀ s a s', Inv s → sys.step s a s' → Inv s')
    {s : S} (h : sys.Reachable s) : Inv s := by
  obtain ⟨s₀, as, h₀, hrun⟩ := h
  exact hrun.invariant hstep (hinit s₀ h₀)

/-- The steps of a system that meet a condition. -/
def restrict (sys : System S A) (cond : S → A → S → Prop) : System S A where
  init := sys.init
  step s a s' := sys.step s a s' ∧ cond s a s'

/-- The system of a partial step function: an action it rejects has no step. -/
def ofFunction (init : S → Prop) (f : S → A → Option S) : System S A where
  init := init
  step s a s' := f s a = some s'

/-- Carry out a list of actions with a partial step function. -/
def exec (f : S → A → Option S) : S → List A → Option S
  | s, [] => some s
  | s, a :: as => (f s a).bind fun s' => exec f s' as

variable {sys : System S A} {init : S → Prop} {f : S → A → Option S} {s s' : S} {as : List A}

theorem run_of_exec_of_step (hstep : ∀ t, ∀ a ∈ as, ∀ t', f t a = some t' → sys.step t a t')
    (h : exec f s as = some s') : sys.Run s as s' := by
  induction as generalizing s with
  | nil =>
    cases h
    exact .nil _
  | cons a as ih =>
    obtain ⟨t, ht, hrest⟩ := Option.bind_eq_some_iff.mp h
    exact .cons (hstep s a List.mem_cons_self t ht) (ih (fun t b hb => hstep t b (List.mem_cons_of_mem a hb)) hrest)

theorem run_of_exec (h : exec f s as = some s') : (ofFunction init f).Run s as s' :=
  run_of_exec_of_step (fun _ _ _ _ h => h) h

theorem reachable_of_exec (hs : init s) (h : exec f s as = some s') : (ofFunction init f).Reachable s' :=
  ⟨s, as, hs, run_of_exec h⟩

theorem exists_reachable {P : S → Prop} [DecidablePred P] (s : S) (as : List A) (hs : init s)
    (h : (exec f s as).any (fun s' => decide (P s')) = true) : ∃ s', (ofFunction init f).Reachable s' ∧ P s' := by
  obtain ⟨s', hexec, hP⟩ := (Option.any_eq_true _ _).mp h
  exact ⟨s', reachable_of_exec hs hexec, of_decide_eq_true hP⟩

variable {cond : S → A → S → Prop}

theorem reachable_restrict_of_exec (hs : init s) (hcond : ∀ a ∈ as, ∀ t t', cond t a t')
    (h : exec f s as = some s') : ((ofFunction init f).restrict cond).Reachable s' :=
  ⟨s, as, hs, run_of_exec_of_step (fun t a ha t' hstep => ⟨hstep, hcond a ha t t'⟩) h⟩

theorem run_restrict_of_exec {test : S → A → S → Bool} (htest : ∀ {t a t'}, test t a t' = true → cond t a t')
    (h : exec (fun t a => (f t a).filter (test t a)) s as = some s') :
    ((ofFunction init f).restrict cond).Run s as s' := by
  refine run_of_exec_of_step (fun t a _ t' hstep => ?_) h
  obtain ⟨hstep, hcond⟩ := Option.filter_eq_some_iff.mp hstep
  exact ⟨hstep, htest hcond⟩

theorem exists_reachable_restrict {P : S → Prop} [DecidablePred P] {test : S → A → S → Bool}
    (htest : ∀ {t a t'}, test t a t' = true → cond t a t') (s : S) (as : List A) (hs : init s)
    (h : (exec (fun t a => (f t a).filter (test t a)) s as).any (fun s' => decide (P s')) = true) :
    ∃ s', ((ofFunction init f).restrict cond).Reachable s' ∧ P s' := by
  obtain ⟨s', hexec, hP⟩ := (Option.any_eq_true _ _).mp h
  exact ⟨s', ⟨s, as, hs, run_restrict_of_exec htest hexec⟩, of_decide_eq_true hP⟩

/-- A state that is reached, and one that a run leads to from there. -/
theorem exists_run_restrict {P : S → S → Prop} [∀ t, DecidablePred (P t)] {test : S → A → S → Bool}
    (htest : ∀ {t a t'}, test t a t' = true → cond t a t') (s : S) (as bs : List A) (hs : init s)
    (h : (exec (fun t a => (f t a).filter (test t a)) s as).any (fun t =>
      (exec (fun t a => (f t a).filter (test t a)) t bs).any fun t' => decide (P t t')) = true) :
    ∃ t t', ((ofFunction init f).restrict cond).Reachable t ∧ ((ofFunction init f).restrict cond).Run t bs t' ∧
      P t t' := by
  obtain ⟨t, hexec, h⟩ := (Option.any_eq_true _ _).mp h
  obtain ⟨t', hexec', hP⟩ := (Option.any_eq_true _ _).mp h
  exact ⟨t, t', ⟨s, as, hs, run_restrict_of_exec htest hexec⟩, run_restrict_of_exec htest hexec',
    of_decide_eq_true hP⟩

end System

end Virtkit.Common
