import Mathlib.Algebra.BigOperators.Group.List.Basic
import Mathlib.Algebra.GroupWithZero.Nat
import Mathlib.Algebra.Order.Group.Nat

/-!
# Saturating sums

Addition that stops at a cap, as machine code adds figures it does not trust. A saturating sum is
the true sum cut at the cap, whatever the order, so a test against a bound below the cap decides
the true sum.
-/

namespace Virtkit.Common

/-- The largest unsigned 64-bit value. -/
def u64Max : ℕ := 18446744073709551615

/-- The largest unsigned 32-bit value. -/
def u32Max : ℕ := 4294967295

/-- A quotient, rounded up. -/
def divCeil (a b : ℕ) : ℕ := (a + b - 1) / b

/-- Addition that stops at the cap. -/
def satAdd (cap a b : ℕ) : ℕ := min (a + b) cap

/-- A saturating sum is the plain one, cut at the cap. -/
theorem foldl_satAdd {α : Type*} (cap : ℕ) (f : α → ℕ) (l : List α) (a : ℕ) (ha : a ≤ cap) :
    l.foldl (fun acc x => satAdd cap acc (f x)) a = min (a + (l.map f).sum) cap := by
  induction l generalizing a with
  | nil => simp [ha]
  | cons x l ih =>
    have hx : satAdd cap a (f x) ≤ cap := min_le_right _ _
    rw [List.foldl_cons, ih _ hx, List.map_cons, List.sum_cons, satAdd]
    omega

/-- A saturating sum under a bound below the cap never reached the cap. -/
theorem add_le_of_satAdd_le {cap a b bound : ℕ} (h : satAdd cap (min a cap) b ≤ bound)
    (hbound : bound < cap) : a + b ≤ bound := by
  unfold satAdd at h
  omega

end Virtkit.Common
