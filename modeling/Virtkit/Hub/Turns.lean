import Mathlib.Data.List.TakeWhile
import Virtkit.Common.Least
import Virtkit.Hub.State

/-!
# Turns

How arbitration picks one candidate: those at their deadline first, then by rank, then by the load
of their lanes per weight, then by arrival. The ranks put production probes ahead of normal work
except while normal work is owed a turn, which it is after a burst of them.
-/

namespace Virtkit.Hub

open Virtkit.Common List

/-- Work that may be placed now. -/
structure Candidate where
  id : String
  lane : LaneId
  node : String
  cls : Class
  probe : Bool
  load : ℕ
  weight : ℕ
  laneProbe : Option ℕ
  runnerProbe : Option ℕ
  arrived : ℕ
  job : Bool
  reserved : Bool
  due : Bool
  deriving DecidableEq

/-- Where a candidate ranks, lowest first: a job holding its reservation, then production work
other than probes, then production probes ahead of normal work, except while that is `owed`. -/
def rank (e : Candidate) (owed : Bool) : ℕ :=
  match e.reserved, e.cls, e.probe with
  | true, _, _ => 0
  | false, .production, false => 1
  | false, .normal, _ => if owed then 2 else 4
  | false, .production, true => 3

/-- Two candidates by their lanes' load per weight, the lower first. -/
def share (a b : Candidate) : Ordering := compare (a.load * b.weight) (b.load * a.weight)

def candidateOrder (owed : Bool) (a b : Candidate) : Ordering :=
  (((compare b.due a.due).then (compare (rank a owed) (rank b owed))).then (share a b)).then
    (compare a.id b.id)

def byArrival (a b : Candidate) : Ordering := (compare a.arrived b.arrived).then (compare a.id b.id)

/-- Instants that may be missing, the missing ones first. -/
def compareMissing : Option ℕ → Option ℕ → Ordering
  | none, none => .eq
  | none, some _ => .lt
  | some _, none => .gt
  | some a, some b => compare a b

/-- Two probes by when their lanes, then their runners, last probed, then by arrival. -/
def byLastProbe (a b : Candidate) : Ordering :=
  ((compareMissing a.laneProbe b.laneProbe).then (compareMissing a.runnerProbe b.runnerProbe)).then
    (byArrival a b)

/-- Whether a candidate has the deadline, rank and share of the first. -/
def tiesWith (owed : Bool) (first e : Candidate) : Bool :=
  e.due == first.due && rank e owed == rank first owed && (share e first).isEq

/-- Of candidates that tie, the probe whose lane waited longest against the first arrived of the
others, by arrival. -/
def chooseTied (tied : List Candidate) : Option Candidate :=
  match firstMin byLastProbe (tied.filter (·.probe)), firstMin byArrival (tied.filter (!·.probe)) with
  | some probe, some known => some (if (byArrival probe known).isLT then probe else known)
  | some probe, none => some probe
  | none, known => known

/-- The candidate placed next. -/
def choose (owed : Bool) (eligible : List Candidate) : Option Candidate :=
  match eligible.insertionSort fun a b => (candidateOrder owed a b).isLE with
  | [] => none
  | first :: rest => chooseTied ((first :: rest).takeWhile (tiesWith owed first))

/-- Whether a candidate is normal work without its own reservation. -/
def Candidate.isNormal (e : Candidate) : Bool := !e.reserved && e.cls == .normal

def Candidate.isProductionProbe (e : Candidate) : Bool := e.cls == .production && e.probe

/-- Whether eligible normal work without its own reservation is owed a turn. -/
def Turns.owed (t : Turns) (eligible : List Candidate) : Bool :=
  t.normalOwed && eligible.any Candidate.isNormal

/-- Record a grant; work on its reservation takes no turn. The source's counter saturates at the
width of the burst, past which it decides nothing. -/
def Turns.granted (t : Turns) (cls : Class) (probe reserved : Bool) (burst : ℕ) : Turns :=
  if reserved then t
  else
    match cls with
    | .normal => ⟨0, false⟩
    | .production =>
      if probe then
        ⟨t.productionProbes + 1, t.normalOwed || burst ≤ t.productionProbes + 1⟩
      else t

/-- The order of placement without the shares: deadline first, then rank. -/
def priority (owed : Bool) (e : Candidate) : ℕ := (if e.due then 0 else 5) + rank e owed

theorem rank_lt (e : Candidate) (owed : Bool) : rank e owed < 5 := by
  unfold rank
  split <;> first | omega | (split <;> omega)

variable {owed : Bool}

/-- The order is that of the priorities, where these differ. -/
theorem candidateOrder_eq_compare {a b : Candidate} (h : priority owed a ≠ priority owed b) :
    candidateOrder owed a b = compare (priority owed a) (priority owed b) := by
  have ha := rank_lt a owed
  have hb := rank_lt b owed
  unfold priority at *
  unfold candidateOrder
  cases hda : a.due <;> cases hdb : b.due <;> simp only [hda, hdb, if_true, Bool.false_eq_true, if_false] at h ⊢
  case false.true => exact (Nat.compare_eq_gt.mpr (by omega)).symm
  case true.false => exact (Nat.compare_eq_lt.mpr (by omega)).symm
  all_goals
    rcases Nat.lt_or_gt_of_ne h with h | h
    · rw [Nat.compare_eq_lt.mpr h, Nat.compare_eq_lt.mpr (Nat.add_lt_add_iff_left.mp h)]
      rfl
    · rw [Nat.compare_eq_gt.mpr h, Nat.compare_eq_gt.mpr (Nat.add_lt_add_iff_left.mp h)]
      rfl

theorem mem_of_chooseTied {tied : List Candidate} {c : Candidate} (h : chooseTied tied = some c) : c ∈ tied := by
  have hmin : ∀ (cmp : Candidate → Candidate → Ordering) (p : Candidate → Bool) (e : Candidate),
      firstMin cmp (tied.filter p) = some e → e ∈ tied :=
    fun _ _ _ he => mem_of_mem_filter (mem_of_firstMin he)
  unfold chooseTied at h
  split at h
  · rename_i probe known hprobe hknown
    cases h
    split
    · exact hmin _ _ _ hprobe
    · exact hmin _ _ _ hknown
  · rename_i probe hprobe _
    cases h
    exact hmin _ _ _ hprobe
  · exact hmin _ _ _ h

theorem chooseTied_ne_none {tied : List Candidate} (h : tied ≠ []) : chooseTied tied ≠ none := by
  intro hnone
  unfold chooseTied at hnone
  split at hnone
  · simp at hnone
  · simp at hnone
  · rename_i hprobe
    have hp := firstMin_eq_none hprobe
    have hk := firstMin_eq_none hnone
    rw [filter_eq_nil_iff] at hp hk
    cases tied with
    | nil => exact h rfl
    | cons e rest =>
      have hpe := hp e mem_cons_self
      have hke := hk e mem_cons_self
      simp at hpe hke
      simp [hpe] at hke

/-- What is chosen has the best priority. -/
theorem choose_spec {eligible : List Candidate} {c : Candidate} (h : choose owed eligible = some c) :
    c ∈ eligible ∧ ∀ e ∈ eligible, priority owed c ≤ priority owed e := by
  unfold choose at h
  split at h
  · simp at h
  · rename_i first rest hsort
    have hc := mem_of_chooseTied h
    have hmem : c ∈ first :: rest := (takeWhile_sublist _).mem hc
    have htie : tiesWith owed first c = true := mem_takeWhile_imp hc
    rw [← hsort, mem_insertionSort] at hmem
    simp only [tiesWith, Bool.and_eq_true, beq_iff_eq] at htie
    have heq : priority owed c = priority owed first := by simp [priority, htie.1.1, htie.1.2]
    refine ⟨hmem, fun e he => heq ▸ key_head_insertionSort_le ?_ ?_ hsort he⟩
    · intro a b hab
      by_contra hlt
      simp [candidateOrder_eq_compare (not_le.mp hlt).ne', Nat.compare_eq_gt.mpr (not_le.mp hlt)] at hab
    · intro a b hab
      by_contra hlt
      simp [candidateOrder_eq_compare (not_le.mp hlt).ne, Nat.compare_eq_lt.mpr (not_le.mp hlt)] at hab

theorem choose_ne_none (owed : Bool) {eligible : List Candidate} (h : eligible ≠ []) : choose owed eligible ≠ none := by
  unfold choose
  split
  · rename_i hsort
    have hlen := congrArg List.length hsort
    rw [length_insertionSort] at hlen
    exact absurd (eq_nil_of_length_eq_zero hlen) h
  · apply chooseTied_ne_none
    simp [tiesWith, share]

/-!
## Sequences of picks

Arbitration makes one pick after another, in one pass and over passes: from what is eligible it
chooses one candidate by the turns as they stand, and a grant moves the turns on. As long as normal
work is eligible at every pick, a stretch of picks without a normal grant grants no more production
probes than the policy's burst. The turns carry the bound: what may still be granted before normal
work is owed is the burst less the probes granted since.
-/

/-- One pick of arbitration: what was eligible, what was chosen and, if room was granted, whether
it was granted on the work's own reservation. -/
structure Pick where
  eligible : List Candidate
  chosen : Candidate
  granted : Option Bool
  deriving DecidableEq

def Turns.after (burst : ℕ) (t : Turns) (p : Pick) : Turns :=
  match p.granted with
  | some reserved => t.granted p.chosen.cls p.chosen.probe reserved burst
  | none => t

/-- A pick follows the turns: it is the choice from what is eligible, of which no probe is at a
deadline or holds a reservation. -/
structure Pick.Follows (t : Turns) (p : Pick) : Prop where
  chosen : choose (t.owed p.eligible) p.eligible = some p.chosen
  probe : ∀ e ∈ p.eligible, e.probe = true → e.due = false ∧ e.reserved = false

/-- Picks made one after another from the given turns. -/
inductive Picks (burst : ℕ) : Turns → List Pick → Turns → Prop
  | nil (t : Turns) : Picks burst t [] t
  | cons {t t' : Turns} {p : Pick} {ps : List Pick} (hp : p.Follows t)
      (hps : Picks burst (t.after burst p) ps t') : Picks burst t (p :: ps) t'

variable {burst : ℕ} {t t' : Turns} {ps : List Pick}

theorem Picks.append {t'' : Turns} {qs : List Pick} (hp : Picks burst t ps t')
    (hq : Picks burst t' qs t'') : Picks burst t (ps ++ qs) t'' := by
  induction hp with
  | nil => exact hq
  | cons h _ ih => exact .cons h (ih hq)

theorem Picks.split {t'' : Turns} {qs : List Pick} (h : Picks burst t (ps ++ qs) t'') :
    ∃ t', Picks burst t ps t' ∧ Picks burst t' qs t'' := by
  induction ps generalizing t with
  | nil => exact ⟨t, .nil t, h⟩
  | cons p ps ih =>
    cases h with
    | cons hp hps =>
      obtain ⟨t', h₁, h₂⟩ := ih hps
      exact ⟨t', .cons hp h₁, h₂⟩

def Pick.isNormalGrant (p : Pick) : Bool := p.chosen.cls == .normal && p.granted == some false

def Pick.isProbeGrant (p : Pick) : Bool := p.chosen.isProductionProbe && p.granted == some false

/-- Whether some eligible work is normal work without its own reservation. -/
def Pick.normalWaits (p : Pick) : Bool := p.eligible.any Candidate.isNormal

/-- The production probes that may be granted before normal work is owed a turn: none once it is,
and at least one before. -/
def Turns.allowance (burst : ℕ) (t : Turns) : ℕ :=
  if t.normalOwed then 0 else max 1 (burst - t.productionProbes)

theorem Pick.Follows.not_probeGrant {p : Pick} (h : p.Follows t) (howed : t.normalOwed = true)
    (hwaits : p.normalWaits = true) : p.isProbeGrant = false := by
  obtain ⟨hmem, hleast⟩ := choose_spec h.chosen
  obtain ⟨e, he, hnormal⟩ := any_eq_true.mp hwaits
  have hturn : t.owed p.eligible = true := by
    rw [Turns.owed, howed, Bool.true_and]
    exact hwaits
  rw [hturn] at hleast
  by_contra hprobe
  simp only [isProbeGrant, Candidate.isProductionProbe, Bool.not_eq_false, Bool.and_eq_true, beq_iff_eq] at hprobe
  simp only [Candidate.isNormal, Bool.and_eq_true, Bool.not_eq_true', beq_iff_eq] at hnormal
  obtain ⟨⟨hcls, hp⟩, -⟩ := hprobe
  obtain ⟨hdue, hreserved⟩ := h.probe p.chosen hmem hp
  have hchosen : priority true p.chosen = 8 := by simp [priority, rank, hdue, hreserved, hcls, hp]
  have hother : priority true e ≤ 7 := by
    simp only [priority, rank, hnormal.1, hnormal.2, if_true]
    split <;> omega
  have hle := hleast e he
  omega

/-- Each probe uses up the allowance while normal work waits. -/
theorem Pick.Follows.allowance (burst : ℕ) {p : Pick} (h : p.Follows t)
    (hwaits : p.normalWaits = true) (hnormal : p.isNormalGrant = false) :
    (if p.isProbeGrant then 1 else 0) + (t.after burst p).allowance burst ≤ t.allowance burst := by
  have howed := h.not_probeGrant
  cases hgranted : p.granted with
  | none => simp [isProbeGrant, Turns.after, hgranted]
  | some reserved =>
    cases reserved with
    | true => simp [isProbeGrant, Turns.after, Turns.granted, hgranted]
    | false =>
      cases hcls : p.chosen.cls with
      | normal => simp [isNormalGrant, hcls, hgranted] at hnormal
      | production =>
        cases hp : p.chosen.probe with
        | false =>
          simp [isProbeGrant, Candidate.isProductionProbe, Turns.after, Turns.granted, hgranted, hcls, hp]
        | true =>
          have hgrant : p.isProbeGrant = true := by
            simp [isProbeGrant, Candidate.isProductionProbe, hgranted, hcls, hp]
          have hnot : t.normalOwed = false := by
            by_contra hne
            simp [howed (by simpa using hne) hwaits] at hgrant
          simp only [hgrant, if_true, Turns.after, hgranted, Turns.granted, hcls, hp,
            Bool.false_eq_true, if_false, Turns.allowance, hnot, Bool.false_or, decide_eq_true_eq]
          split <;> omega

/-- Probes granted while normal work waits stay within the allowance. -/
theorem Picks.probeGrants_le_allowance (h : Picks burst t ps t')
    (hwaits : ∀ p ∈ ps, p.normalWaits = true) (hnormal : ∀ p ∈ ps, p.isNormalGrant = false) :
    ps.countP Pick.isProbeGrant ≤ t.allowance burst := by
  induction h with
  | nil => simp
  | cons hp _ ih =>
    have hstep := hp.allowance burst (hwaits _ mem_cons_self) (hnormal _ mem_cons_self)
    have hrest := ih (fun p hp => hwaits p (mem_cons_of_mem _ hp)) (fun p hp => hnormal p (mem_cons_of_mem _ hp))
    rw [countP_cons]
    omega

theorem Picks.probeGrants_le_burst (hburst : 0 < burst) {before stretch after : List Pick}
    (h : Picks burst t (before ++ stretch ++ after) t') (hwaits : ∀ p ∈ stretch, p.normalWaits = true)
    (hnormal : ∀ p ∈ stretch, p.isNormalGrant = false) : stretch.countP Pick.isProbeGrant ≤ burst := by
  obtain ⟨_, hfirst, -⟩ := h.split
  obtain ⟨t₁, -, hstretch⟩ := hfirst.split
  have hle := hstretch.probeGrants_le_allowance hwaits hnormal
  have hallow : t₁.allowance burst ≤ burst := by
    unfold Turns.allowance
    split <;> omega
  omega

end Virtkit.Hub
