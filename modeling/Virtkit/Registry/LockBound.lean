import Virtkit.Common.Transition
import Virtkit.Registry.Lock

/-!
# Handing the lock table to the next release

The processes of one registry on one host: each has a lock table, and at an update one of them
hands its table to the release that takes over. Any call may reach any process at any moment,
handed over or not. The table travels with the Unix time, in whole milliseconds, read before it
was frozen; the release takes off the leases what its own reading of the Unix clock says has passed. The
Unix clock may be set in between: what it shows at each reading is given with the step.

The logins under way, which travel with the table, are not modelled.
-/

namespace Virtkit.Registry

open Virtkit.Common Option Table Bool

section

/-- The Unix time in milliseconds, of a clock that shows some nanoseconds since the epoch or a time before
it. -/
def unixMs : Option ℕ → ℕ
  | some d => min (d / 1000000) u64Max
  | none => 0

/-- What one process hands the next. -/
structure Carried where
  atMs : ℕ
  locks : Snapshot
  deriving DecidableEq

def Carried.restore (c : Carried) (wall : Option ℕ) (now : ℕ) : LockManager :=
  LockManager.restore c.locks (fromMillis (unixMs wall - c.atMs)) now

/-- A request to a lock table. -/
inductive Call
  | acquireAll (names : List String) (ttl : ℕ) (holder : String) (deadline : ℕ)
      (notAfter : Option ℕ) (principal : Option String) (owner : String)
  | tryRenewAll (names : List String) (owner : String) (ttl : ℕ) (notAfter : Option ℕ)
  | tryReleaseAll (names : List String) (owner : String)
  | tryRecordFailure (name pipeline reason : String) (ttl : ℕ)

/-- The table after a request. -/
def Call.run (c : Call) (m : LockManager) (now : ℕ) : LockManager :=
  match c with
  | .acquireAll names ttl holder deadline notAfter principal owner =>
    (m.acquireAll now names ttl holder deadline notAfter principal owner).1
  | .tryRenewAll names owner ttl notAfter => (m.tryRenewAll now names owner ttl notAfter).1
  | .tryReleaseAll names owner => (m.tryReleaseAll names owner).1
  | .tryRecordFailure name pipeline reason ttl => (m.tryRecordFailure now name pipeline reason ttl).1

/-- A table that a process handed over, which had read the Unix clock at `began`. -/
structure Sent where
  proc : ℕ
  began : ℕ
  table : Carried
  deriving DecidableEq

/-- The processes of a registry, oldest first, the clock, and a table that one of the processes
handed over and no release has taken yet. -/
structure Site where
  now : ℕ
  procs : List LockManager
  carried : Option Sent
  deriving DecidableEq

/-- What can happen at a registry. A handover reads the Unix clock, which shows `wall`, at `began`, then the
monotonic clock at `read`, and freezes the table now. -/
inductive Action
  | wait (d : ℕ)
  | call (i : ℕ) (c : Call)
  | handOver (i : ℕ) (began read : ℕ) (wall : Option ℕ)
  | takeBack (i : ℕ)
  | restore (wall : Option ℕ)

/-- One step of a registry. A table is handed over only while it is the one in charge, and taken
back or restored only while no release has taken it. -/
def Site.step (s : Site) : Action → Option Site
  | .wait d => some { s with now := s.now + d }
  | .call i c => do
    let m ← s.procs[i]?
    return { s with procs := s.procs.set i (c.run m s.now) }
  | .handOver i began read wall => do
    let m ← s.procs[i]?
    if s.carried.isNone ∧ m.handedOver = false ∧ began ≤ read ∧ read ≤ s.now then
      let (m, locks) := m.handOver read
      return { s with
        procs := s.procs.set i m
        carried := some ⟨i, began, unixMs wall, locks⟩ }
    else none
  | .takeBack i => do
    let c ← s.carried
    let m ← s.procs[i]?
    if i = c.proc then return { s with procs := s.procs.set i m.takeBack, carried := none } else none
  | .restore wall => do
    let c ← s.carried
    return { s with procs := s.procs ++ [c.table.restore wall s.now], carried := none }

/-- A registry starts as one process with an empty table. -/
def Site.start (now : ℕ) : Site := ⟨now, [{}], none⟩

def sites : System Site Action :=
  System.ofFunction (fun s => s = Site.start s.now) Site.step

variable {s s' : Site}

theorem Site.step_wait {d : ℕ} (h : s.step (.wait d) = some s') : s' = { s with now := s.now + d } :=
  (some.inj h).symm

theorem Site.step_call {i : ℕ} {c : Call} (h : s.step (.call i c) = some s') :
    ∃ m, s.procs[i]? = some m ∧ s' = { s with procs := s.procs.set i (c.run m s.now) } := by
  obtain ⟨m, hm, hs⟩ := bind_eq_some_iff.mp h
  exact ⟨m, hm, (some.inj hs).symm⟩

theorem Site.step_handOver {i : ℕ} {began read : ℕ} {wall : Option ℕ}
    (h : s.step (.handOver i began read wall) = some s') :
    ∃ m, s.procs[i]? = some m ∧ s.carried = none ∧ m.handedOver = false ∧ began ≤ read ∧ read ≤ s.now ∧
      s' = { s with
        procs := s.procs.set i (m.handOver read).1
        carried := some ⟨i, began, unixMs wall, (m.handOver read).2⟩ } := by
  obtain ⟨m, hm, hs⟩ := bind_eq_some_iff.mp h
  split at hs
  · rename_i hguard
    obtain ⟨hnone, hover, hbegan, hread⟩ := hguard
    exact ⟨m, hm, isNone_iff_eq_none.mp hnone, hover, hbegan, hread, (some.inj hs).symm⟩
  · simp at hs

theorem Site.step_takeBack {i : ℕ} (h : s.step (.takeBack i) = some s') :
    ∃ c m, s.carried = some c ∧ c.proc = i ∧ s.procs[i]? = some m ∧
      s' = { s with procs := s.procs.set i m.takeBack, carried := none } := by
  obtain ⟨c, hc, h⟩ := bind_eq_some_iff.mp h
  obtain ⟨m, hm, hs⟩ := bind_eq_some_iff.mp h
  split at hs
  · rename_i hij
    exact ⟨c, m, hc, hij.symm, hm, (some.inj hs).symm⟩
  · simp at hs

theorem Site.step_restore {wall : Option ℕ} (h : s.step (.restore wall) = some s') : ∃ c, s.carried = some c ∧
      s' = { s with procs := s.procs ++ [c.table.restore wall s.now], carried := none } := by
  obtain ⟨c, hc, hs⟩ := bind_eq_some_iff.mp h
  exact ⟨c, hc, (some.inj hs).symm⟩

end

/-!
## The bound on a principal's locks

Every call keeps a table within the bound, lapsed entries counted too: only a grant adds entries,
and it counts its principal's others in a table it has just freed of lapsed ones. A frozen table
is changed by no call.
-/

namespace LockManager

variable {m m' : LockManager} {now : ℕ}

/-- The number of unexpired locks of a principal. -/
def heldBy (m : LockManager) (now : ℕ) (p : String) : ℕ :=
  m.held.count fun _ h => decide (h.principal = some p) && decide (now < h.expires)

/-- The number of a principal's entries in the table, lapsed or not. -/
def entriesOf (m : LockManager) (p : String) : ℕ :=
  m.held.count fun _ h => decide (h.principal = some p)

/-- No principal has more entries than it may hold locks. -/
def WithinBound (m : LockManager) : Prop := ∀ p, m.entriesOf p ≤ maxTokenLocks

theorem heldBy_le_entriesOf (p : String) : m.heldBy now p ≤ m.entriesOf p := by
  apply count_le_of_lookup
  intro n h hn hp
  exact ⟨h, hn, (and_eq_true_iff.mp hp).1⟩

theorem WithinBound.of_lookup (hm : m.WithinBound) (h : ∀ n e', m'.held.lookup n = some e' →
      ∃ e, m.held.lookup n = some e ∧ e.principal = e'.principal) : m'.WithinBound := by
  intro p
  refine le_trans (count_le_of_lookup ?_) (hm p)
  intro n e' he' hp
  obtain ⟨e, he, hprin⟩ := h n e' he'
  exact ⟨e, he, by rw [hprin]; exact hp⟩

theorem WithinBound.retain (hm : m.WithinBound) (p : String → Held → Bool) :
    { m with held := m.held.retain p }.WithinBound := by
  refine hm.of_lookup fun n e he => ⟨e, ?_, rfl⟩
  rw [lookup_retain, filter_eq_some_iff] at he
  exact he.1

/-- No principal takes more than its bound. -/
theorem WithinBound.tryTakeAll (hm : m.WithinBound) {names : List String} {ttl : ℕ}
    {holder owner : String} {notAfter : Option ℕ} {principal : Option String} {r : Except Refusal String}
    (h : m.tryTakeAll now names ttl holder notAfter principal owner = (m', r)) : m'.WithinBound := by
  cases r with
  | error e =>
    rcases tryTakeAll_error h with rfl | rfl
    · exact hm
    · exact hm.retain _
  | ok o =>
    obtain ⟨-, -, hmany, -, rfl⟩ := tryTakeAll_ok h
    intro p
    by_cases hp : principal = some p
    · subst hp
      simp only [tooMany, decide_eq_false_iff_not, not_lt] at hmany
      refine le_trans (count_le_add_length names ?_) hmany
      intro n e hn he hprin
      rw [lookup_foldl_insert, if_neg hn] at he
      exact ⟨e, he, by simpa [hn] using hprin⟩
    · refine le_trans (count_le_of_lookup ?_) (hm.retain (fun _ h => decide (now < h.expires)) p)
      intro n e he hprin
      rw [lookup_foldl_insert] at he
      split at he
      · cases he
        exact absurd (of_decide_eq_true hprin) hp
      · exact ⟨e, he, hprin⟩

theorem acquireAll_fst (names : List String) (ttl : ℕ) (holder : String) (deadline : ℕ)
    (notAfter : Option ℕ) (principal : Option String) (owner : String) :
    (m.acquireAll now names ttl holder deadline notAfter principal owner).1 =
      (m.tryTakeAll now names ttl holder notAfter principal owner).1 := by
  unfold acquireAll
  split <;> simp_all

theorem lookup_tryRenewAll (names : List String) (owner : String) (ttl : ℕ)
    (notAfter : Option ℕ) (hover : m.handedOver = false) (n : String) :
    (m.tryRenewAll now names owner ttl notAfter).1.held.lookup n =
      if n ∈ names then (m.held.lookup n).map (renewed now owner (leaseEnd now ttl notAfter)) else m.held.lookup n := by
  simp only [tryRenewAll, hover, false_eq_true, if_false]
  exact lookup_renewAll _ (m.held, 0) n

theorem lookup_tryReleaseAll (names : List String) (owner : String) (hover : m.handedOver = false) (n : String) :
    (m.tryReleaseAll names owner).1.held.lookup n =
      if n ∈ names then (m.held.lookup n).filter (fun h => decide (h.owner ≠ owner)) else m.held.lookup n := by
  simp only [tryReleaseAll, hover, false_eq_true, if_false]
  exact lookup_releaseAll (m.held, 0) n

theorem renewed_principal (owner : String) (stop : ℕ) (h : Held) :
    (renewed now owner stop h).principal = h.principal := by
  unfold renewed
  split <;> rfl

end LockManager

open LockManager

variable {m : LockManager} {now : ℕ}

/-- A table that was handed over answers no call. -/
theorem Call.run_of_handedOver (c : Call) (h : m.handedOver = true) : c.run m now = m := by
  cases c with
  | acquireAll names ttl holder deadline notAfter principal owner =>
    rw [Call.run, acquireAll_fst, tryTakeAll_handedOver h]
  | tryRenewAll names owner ttl notAfter => simp only [Call.run, LockManager.tryRenewAll, h, if_true]
  | tryReleaseAll names owner => simp only [Call.run, LockManager.tryReleaseAll, h, if_true]
  | tryRecordFailure name pipeline reason ttl => simp only [Call.run, LockManager.tryRecordFailure, h, if_true]

theorem Call.run_handedOver (c : Call) : (c.run m now).handedOver = m.handedOver := by
  cases hover : m.handedOver with
  | true => rw [c.run_of_handedOver hover, hover]
  | false =>
    cases c with
    | acquireAll names ttl holder deadline notAfter principal owner =>
      rw [Call.run, acquireAll_fst]
      cases htake : m.tryTakeAll now names ttl holder notAfter principal owner with
      | mk m' r =>
        cases r with
        | ok o =>
          obtain ⟨-, -, -, -, rfl⟩ := tryTakeAll_ok htake
          exact hover
        | error e =>
          rcases tryTakeAll_error htake with rfl | rfl <;> exact hover
    | tryRenewAll names owner ttl notAfter =>
      simp only [Call.run, LockManager.tryRenewAll, hover, false_eq_true, if_false]
    | tryReleaseAll names owner =>
      simp only [Call.run, LockManager.tryReleaseAll, hover, false_eq_true, if_false]
    | tryRecordFailure name pipeline reason ttl =>
      simp only [Call.run, LockManager.tryRecordFailure, hover, false_eq_true, if_false]

/-- Every call keeps each principal within its bound. -/
theorem Call.run_withinBound (c : Call) (hm : m.WithinBound) : (c.run m now).WithinBound := by
  cases hover : m.handedOver with
  | true => rwa [c.run_of_handedOver hover]
  | false =>
    cases c with
    | acquireAll names ttl holder deadline notAfter principal owner =>
      rw [Call.run, acquireAll_fst]
      exact hm.tryTakeAll rfl
    | tryRenewAll names owner ttl notAfter =>
      refine hm.of_lookup fun n e he => ?_
      rw [Call.run, lookup_tryRenewAll names owner ttl notAfter hover] at he
      split at he
      · obtain ⟨e₀, he₀, rfl⟩ := map_eq_some_iff.mp he
        exact ⟨e₀, he₀, (renewed_principal owner _ e₀).symm⟩
      · exact ⟨e, he, rfl⟩
    | tryReleaseAll names owner =>
      refine hm.of_lookup fun n e he => ⟨e, ?_, rfl⟩
      rw [Call.run, lookup_tryReleaseAll names owner hover] at he
      split at he
      · exact (filter_eq_some_iff.mp he).1
      · exact he
    | tryRecordFailure name pipeline reason ttl =>
      refine hm.of_lookup fun n e he => ⟨e, ?_, rfl⟩
      simpa only [Call.run, LockManager.tryRecordFailure, hover, false_eq_true, if_false] using he

end Virtkit.Registry
