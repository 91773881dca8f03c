import Mathlib.Data.Rat.Cast.Order
import Virtkit.Hub.Passes

/-!
# The order of eligible work

The loads are compared per weight by cross-multiplying, in 128 bits, which a load of 64 bits and a
weight of 32 do not overflow. With positive weights this compares fractions, and the order of
placement is that of a key.
-/

namespace Virtkit.Hub

open Virtkit.Common List

/-- Shares are compared as quotients. -/
theorem share_eq_compare {a b : Candidate} (ha : 0 < a.weight) (hb : 0 < b.weight) :
    share a b = compareOn (fun c : Candidate => (c.load / c.weight : ℚ)) a b := by
  have hlt : ∀ c d : Candidate, 0 < c.weight → 0 < d.weight →
      ((c.load / c.weight : ℚ) < d.load / d.weight ↔ c.load * d.weight < d.load * c.weight) := by
    intro c d hc hd
    rw [div_lt_div_iff₀ (Nat.cast_pos.mpr hc) (Nat.cast_pos.mpr hd)]
    exact_mod_cast Iff.rfl
  unfold share compareOn
  rw [eq_comm, compare_iff]
  rcases lt_trichotomy (a.load * b.weight) (b.load * a.weight) with h | h | h
  · rw [compare_lt_iff_lt.mpr h]
    exact (hlt a b ha hb).mpr h
  · rw [compare_eq_iff_eq.mpr h]
    exact le_antisymm (not_lt.mp ((hlt b a hb ha).not.mpr h.le.not_gt))
      (not_lt.mp ((hlt a b ha hb).not.mpr h.ge.not_gt))
  · rw [compare_gt_iff_gt.mpr h]
    exact (hlt b a hb ha).mpr h

/-- The order of placement as a key's: by deadline, rank, load per weight and ID. -/
def byKey (owed : Bool) : Candidate → Candidate → Ordering :=
  compareLex (compareLex (compareLex (fun a b => compareOn Candidate.due b a)
    (compareOn (rank · owed))) (compareOn fun c => (c.load / c.weight : ℚ))) (compareOn Candidate.id)

instance (owed : Bool) : Std.TransCmp (byKey owed) :=
  have : Std.TransCmp fun a b => compareOn Candidate.due b a := .opposite
  inferInstanceAs (Std.TransCmp (compareLex _ _))

/-- Under a validated policy the order in which a scan's candidates are sorted is a total
preorder: every candidate is equal to itself, two compare one way as they do the other, and what is
no later than something no later than a third is no later than that. -/
theorem eligible_order_consistent (hub : HubEnv) (ctx : ScheduleCtx) (now : ℕ) (loads : Loads)
    (skipped : List String) (s : State) (found : Found) (owed : Bool)
    (hvalid : ctx.place.policy.validate = .ok ()) :
    let eligible := (scan hub ctx now loads skipped s found).eligible
    (∀ a ∈ eligible, candidateOrder owed a a = .eq) ∧
    (∀ a ∈ eligible, ∀ b ∈ eligible, candidateOrder owed b a = (candidateOrder owed a b).swap) ∧
    ∀ a ∈ eligible, ∀ b ∈ eligible, ∀ c ∈ eligible, (candidateOrder owed a b).isLE →
      (candidateOrder owed b c).isLE → (candidateOrder owed a c).isLE := by
  intro eligible
  have hkey : ∀ a ∈ eligible, ∀ b ∈ eligible, candidateOrder owed a b = byKey owed a b := by
    intro a ha b hb
    have hweight := fun c hc => (listed_scan hub ctx now loads skipped s found c hc).2 hvalid
    unfold candidateOrder
    rw [share_eq_compare (hweight a ha) (hweight b hb)]
    rfl
  refine ⟨fun a ha => ?_, fun a ha b hb => ?_, fun a ha b hb c hc => ?_⟩
  · rw [hkey a ha a ha]
    exact Std.ReflCmp.compare_self
  · rw [hkey a ha b hb, hkey b hb a ha]
    exact Std.OrientedCmp.eq_swap
  · rw [hkey a ha b hb, hkey b hb c hc, hkey a ha c hc]
    exact Std.TransCmp.isLE_trans

/-- The two tickets of the sample pass are ordered, the production probe first. -/
theorem eligible_order_consistent_two :
    let eligible := (scan sampleHub (sampleCtx [] 2) 5 (Loads.new samplePass.state sampleRelays) []
      samplePass.state []).eligible
    eligible.map Candidate.id = ["u", "t"] ∧
      ∀ a ∈ eligible, candidateOrder false a a = .eq :=
  ⟨by decide +kernel, (eligible_order_consistent sampleHub (sampleCtx [] 2) 5 _ [] samplePass.state []
    false (by decide +kernel)).1⟩

end Virtkit.Hub
