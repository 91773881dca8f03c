import Mathlib.Data.List.Sort
import Virtkit.Common.Saturating
import Virtkit.Common.Table

/-!
# The leased build-once lock

The registry's `LockManager`: a table of leased locks by name, a table of build-failure memos,
and the flag set once both are handed to the next release. Every method runs under a mutex, so
each is one function from the table to the table. Instants and durations are nanoseconds on one
host's monotonic clock; the random owner token of a grant is an argument, as is the clock
reading of each call. The notifier that wakes parked acquisitions carries no state and is left out.
-/

namespace Virtkit.Registry

open Virtkit.Common Option Table

/-- A duration of whole milliseconds. -/
def fromMillis (ms : ℕ) : ℕ := ms * 1000000

/-- A duration of whole seconds. -/
def fromSecs (secs : ℕ) : ℕ := secs * 1000000000

/-- The whole milliseconds of a duration, cut at the largest 64-bit value. -/
def millis (d : ℕ) : ℕ := min (d / 1000000) u64Max

/-- The longest lease that is granted, whatever is asked. -/
def maxLeaseTtl : ℕ := fromSecs (24 * 3600)

/-- The longest a failure record lives. -/
def maxFailTtl : ℕ := fromSecs (24 * 3600)

/-- The most failure records kept. -/
def maxFailRecords : ℕ := 10000

/-- The most live locks one token principal may hold. -/
def maxTokenLocks : ℕ := 256

structure Held where
  owner : String
  holder : String
  expires : ℕ
  principal : Option String
  deriving DecidableEq, Repr

/-- A name of a batch that a live lease holds, and who holds it. -/
structure Blocker where
  name : String
  holder : String
  deriving DecidableEq, Repr

/-- Why an acquisition was not granted. -/
inductive Refusal
  | held (blockers : List Blocker)
  | tooMany
  | handedOver
  deriving DecidableEq, Repr

/-- A recorded build failure. -/
structure FailRecord where
  seq : ℕ
  reason : String
  recordedAt : ℕ
  ttl : ℕ
  deriving DecidableEq, Repr

/-- Failure memos by name and pipeline, and the order number of the next. -/
structure FailTable where
  records : Table (String × String) FailRecord := ∅
  nextSeq : ℕ := 0
  deriving DecidableEq

/-- The lock table of one process. -/
structure LockManager where
  held : Table String Held := ∅
  failed : FailTable := {}
  handedOver : Bool := false
  deriving DecidableEq

/-- What is left of a lease, as one process hands it to the next. -/
structure HeldEntry where
  name : String
  owner : String
  holder : String
  leftMs : ℕ
  principal : Option String
  deriving DecidableEq, Repr

/-- A failure record, as one process hands it to the next. -/
structure FailEntry where
  name : String
  pipeline : String
  reason : String
  ageMs : ℕ
  ttlMs : ℕ
  deriving DecidableEq, Repr

/-- The tables as one process hands them to the next. -/
structure Snapshot where
  held : List HeldEntry
  failed : List FailEntry
  deriving DecidableEq

/-- The lease a requested time to live gives. -/
def lease (ttl : ℕ) : ℕ := min ttl maxLeaseTtl

/-- The end of a lease granted or renewed now. -/
def leaseEnd (now : ℕ) (ttl : ℕ) (notAfter : Option ℕ) : ℕ :=
  let stop := now + lease ttl
  match notAfter with
  | none => stop
  | some n => min stop n

namespace LockManager

variable (m : LockManager) (now : ℕ)

def live (name : String) : Option Held :=
  (m.held.lookup name).filter fun h => decide (now < h.expires)

/-- Freeze the table and snapshot it, with the clock read before the table is locked. -/
def handOver : LockManager × Snapshot :=
  ({ m with handedOver := true },
    { held := (m.held.retain fun _ h => decide (now < h.expires)).entries.map fun e =>
        ⟨e.1, e.2.owner, e.2.holder, millis (e.2.expires - now), e.2.principal⟩
      failed := (m.failed.records.retain fun _ r => decide (now - r.recordedAt < r.ttl)).entries.map
        fun e => ⟨e.1.1, e.1.2, e.2.reason, millis (now - e.2.recordedAt), millis e.2.ttl⟩ })

/-- Change the table again: the release it was handed to did not take over. -/
def takeBack (m : LockManager) : LockManager := { m with handedOver := false }

/-- Put one handed lease back, unless nothing is left of it. -/
def restoreHeld (now : ℕ) (since : ℕ) (held : Table String Held) (h : HeldEntry) : Table String Held :=
  let left := fromMillis h.leftMs - since
  if left = 0 then held
  else held.insert h.name ⟨h.owner, h.holder, now + min left maxLeaseTtl, h.principal⟩

/-- Put one handed failure record back, unless it has lapsed. -/
def restoreFail (now : ℕ) (since : ℕ) (table : FailTable) (f : FailEntry) : FailTable :=
  let ttl := min (fromMillis f.ttlMs) maxFailTtl
  let age := fromMillis f.ageMs + since
  if age ≤ now ∧ age < ttl then
    { records := table.records.insert (f.name, f.pipeline) ⟨table.nextSeq, f.reason, now - age, ttl⟩
      nextSeq := table.nextSeq + 1 }
  else table

/-- The table that a previous process handed over `since` ago. -/
def restore (snapshot : Snapshot) (since : ℕ) (now : ℕ) : LockManager where
  held := snapshot.held.foldl (restoreHeld now since) ∅
  failed :=
    let youngest := (snapshot.failed.insertionSort fun a b => a.ageMs ≤ b.ageMs).take maxFailRecords
    youngest.reverse.foldl (restoreFail now since) {}
  handedOver := false

/-- Record a failed build; the answer says whether it was recorded. -/
def tryRecordFailure (name pipeline reason : String)
    (ttl : ℕ) : LockManager × Bool :=
  if m.handedOver then (m, false)
  else
    let records := m.failed.records.retain fun _ r => decide (now - r.recordedAt < r.ttl)
    let key := (name, pipeline)
    let full := maxFailRecords ≤ records.entries.length ∧ records.lookup key = none
    let records := match records.entries.argmin fun e => e.2.seq with
      | some oldest => if full then records.erase oldest.1 else records
      | none => records
    ({ m with failed :=
        { records := records.insert key ⟨m.failed.nextSeq, reason, now, ttl⟩
          nextSeq := m.failed.nextSeq + 1 } }, true)

/-- Whether a grant of the batch would put its principal above the bound. -/
def tooMany (held : Table String Held) (names : List String) : Option String → Bool
  | none => false
  | some p =>
    let others := held.count fun n h => decide (h.principal = some p) && !names.contains n
    decide (maxTokenLocks < others + names.length)

/-- The listed names that a live lease holds. -/
def blockers (held : Table String Held) (now : ℕ) (names : List String) : List Blocker :=
  names.filterMap fun n => ((held.lookup n).filter fun h => decide (now < h.expires)).map fun h => ⟨n, h.holder⟩

variable (names : List String)

/-- Take all the names for one owner, or none, dropping lapsed leases first. -/
def tryTakeAll (ttl : ℕ)
    (holder : String) (notAfter : Option ℕ) (principal : Option String) (owner : String) :
    LockManager × Except Refusal String :=
  if m.handedOver then (m, .error .handedOver)
  else
    let held := m.held.retain fun _ h => decide (now < h.expires)
    if tooMany held names principal then ({ m with held := held }, .error .tooMany)
    else
      match blockers held now names with
      | [] =>
        let taken : Held := ⟨owner, holder, leaseEnd now ttl notAfter, principal⟩
        ({ m with held := names.foldl (fun held n => held.insert n taken) held }, .ok owner)
      | bs => ({ m with held := held }, .error (.held bs))

/-- What one turn of a long-polling acquisition comes to: its answer, or another turn. -/
inductive Turn
  | answer (r : Except Refusal String)
  | again

/-- One turn of the loop of `acquire_all`: try, and give the refusal up once it is final. -/
def acquireAll (ttl : ℕ)
    (holder : String) (deadline : ℕ) (notAfter : Option ℕ) (principal : Option String)
    (owner : String) : LockManager × Turn :=
  match m.tryTakeAll now names ttl holder notAfter principal owner with
  | (m, .error (.held bs)) => (m, if deadline ≤ now then .answer (.error (.held bs)) else .again)
  | (m, r) => (m, .answer r)

/-- Renew one name if the owner still holds it, counting it. -/
def renewOne (now : ℕ) (owner : String) (stop : ℕ) (acc : Table String Held × ℕ)
    (name : String) : Table String Held × ℕ :=
  match acc.1.lookup name with
  | some h =>
    if h.owner = owner ∧ now < h.expires then (acc.1.insert name { h with expires := stop }, acc.2 + 1)
    else acc
  | none => acc

/-- Renew every listed name that the owner still holds; the answer counts them. -/
def tryRenewAll (owner : String)
    (ttl : ℕ) (notAfter : Option ℕ) : LockManager × Option ℕ :=
  if m.handedOver then (m, none)
  else
    let (held, n) := names.foldl (renewOne now owner (leaseEnd now ttl notAfter)) (m.held, 0)
    ({ m with held := held }, some n)

/-- Release one name if the owner holds it, counting it. -/
def releaseOne (owner : String) (acc : Table String Held × ℕ) (name : String) : Table String Held × ℕ :=
  match acc.1.lookup name with
  | some h => if h.owner = owner then (acc.1.erase name, acc.2 + 1) else acc
  | none => acc

/-- Release every listed name that the owner holds; the answer counts them. -/
def tryReleaseAll (m : LockManager) (names : List String) (owner : String) : LockManager × Option ℕ :=
  if m.handedOver then (m, none)
  else
    let (held, n) := names.foldl (releaseOne owner) (m.held, 0)
    ({ m with held := held }, some n)

end LockManager

/-!
## What a batch call changes

An acquisition takes every listed name or leaves every live lease as it was. A renewal or a
release acts on the listed names that the presented owner still holds, and on no other. No call
of one principal adds to another's locks, and a grant keeps its own principal within the bound.
-/

namespace LockManager

variable {m m' : LockManager} {now : ℕ} {names : List String} {ttl : ℕ}
variable {holder owner : String} {notAfter : Option ℕ} {principal : Option String}

theorem live_eq_some {name : String} {h : Held} :
    m.live now name = some h ↔ m.held.lookup name = some h ∧ now < h.expires := by
  rw [live, filter_eq_some_iff, decide_eq_true_eq]

theorem blockers_eq_nil {held : Table String Held} : blockers held now names = [] ↔
      ∀ n ∈ names, ∀ h, held.lookup n = some h → ¬ now < h.expires := by
  rw [blockers, List.filterMap_eq_nil_iff]
  refine forall₂_congr fun n _ => ?_
  rw [map_eq_none_iff, filter_eq_none_iff]
  simp only [decide_eq_true_eq]

theorem tryTakeAll_handedOver (h : m.handedOver = true) :
    m.tryTakeAll now names ttl holder notAfter principal owner = (m, .error .handedOver) := by
  simp only [tryTakeAll, h, if_true]

/-- A batch is taken only if none of its names is held. -/
theorem tryTakeAll_ok {o : String} (h : m.tryTakeAll now names ttl holder notAfter principal owner = (m', .ok o)) :
    o = owner ∧ m.handedOver = false ∧
      tooMany (m.held.retain fun _ h => decide (now < h.expires)) names principal = false ∧
      (∀ n ∈ names, m.live now n = none) ∧
      m' = { m with
        held := names.foldl (fun held n => held.insert n ⟨owner, holder, leaseEnd now ttl notAfter, principal⟩)
          (m.held.retain fun _ h => decide (now < h.expires)) } := by
  unfold tryTakeAll at h
  split at h
  · simp at h
  · rename_i hover
    simp only at h
    split at h
    · simp at h
    · rename_i hmany
      split at h
      · rename_i hblock
        obtain ⟨hm, ho⟩ := Prod.mk.inj h
        refine ⟨(Except.ok.inj ho).symm, by simpa using hover, by simpa using hmany, ?_, hm.symm⟩
        intro n hn
        rw [live, filter_eq_none_iff]
        intro e he hlive
        have hkept := blockers_eq_nil.mp hblock n hn e
        rw [lookup_retain, filter_eq_some_iff] at hkept
        exact hkept ⟨he, hlive⟩ (of_decide_eq_true hlive)
      · simp at h

/-- A refused batch changes nothing but lapsed leases. -/
theorem tryTakeAll_error {r : Refusal}
    (h : m.tryTakeAll now names ttl holder notAfter principal owner = (m', .error r)) :
    m' = m ∨ m' = { m with held := m.held.retain fun _ h => decide (now < h.expires) } := by
  unfold tryTakeAll at h
  split at h
  · exact .inl (Prod.mk.inj h).1.symm
  · simp only at h
    split at h
    · exact .inr (Prod.mk.inj h).1.symm
    · split at h
      · simp at h
      · exact .inr (Prod.mk.inj h).1.symm

theorem live_retain (name : String) :
    { m with held := m.held.retain fun _ h => decide (now < h.expires) }.live now name = m.live now name := by
  rw [live, live, lookup_retain, filter_filter]
  simp only [Bool.and_self]

/-- A batch is taken whole or not at all. -/
theorem tryTakeAll_allOrNothing {r : Except Refusal String}
    (h : m.tryTakeAll now names ttl holder notAfter principal owner = (m', r)) :
    (r = .ok owner ∧ (∀ n ∈ names, m.live now n = none ∧
        m'.held.lookup n = some ⟨owner, holder, leaseEnd now ttl notAfter, principal⟩) ∧
      ∀ n ∉ names, m'.live now n = m.live now n) ∨ ((∃ e, r = .error e) ∧ ∀ n, m'.live now n = m.live now n) := by
  cases r with
  | ok o =>
    obtain ⟨rfl, -, -, hfree, rfl⟩ := tryTakeAll_ok h
    refine .inl ⟨rfl, fun n hn => ⟨hfree n hn, ?_⟩, fun n hn => ?_⟩
    · rw [lookup_foldl_insert, if_pos hn]
    · rw [← live_retain (m := m), live, live, lookup_foldl_insert, if_neg hn]
  | error e =>
    refine .inr ⟨⟨e, rfl⟩, fun n => ?_⟩
    rcases tryTakeAll_error h with rfl | rfl
    · rfl
    · exact live_retain n

/-- A lease after the owner's renewal of it. -/
def renewed (now : ℕ) (owner : String) (stop : ℕ) (h : Held) : Held :=
  if h.owner = owner ∧ now < h.expires then { h with expires := stop } else h

theorem renewed_renewed (stop : ℕ) (h : Held) :
    renewed now owner stop (renewed now owner stop h) = renewed now owner stop h := by
  unfold renewed
  split_ifs <;> rfl

theorem lookup_renewOne (stop : ℕ) (acc : Table String Held × ℕ) (a n : String) :
    (renewOne now owner stop acc a).1.lookup n =
      if n = a then (acc.1.lookup n).map (renewed now owner stop) else acc.1.lookup n := by
  unfold renewOne
  by_cases hna : n = a
  · subst hna
    cases ha : acc.1.lookup n with
    | none => simp [ha]
    | some e =>
      by_cases hcond : e.owner = owner ∧ now < e.expires
      · simp [hcond, renewed]
      · simp [ha, hcond, renewed]
  · cases ha : acc.1.lookup a with
    | none => simp [hna]
    | some e =>
      by_cases hcond : e.owner = owner ∧ now < e.expires <;> simp [hcond, hna]

/-- Only the owner's live leases are renewed. -/
theorem lookup_renewAll (stop : ℕ) (acc : Table String Held × ℕ) (n : String) :
    (names.foldl (renewOne now owner stop) acc).1.lookup n =
      if n ∈ names then (acc.1.lookup n).map (renewed now owner stop) else acc.1.lookup n := by
  refine lookup_foldl_of_step Prod.fst (renewOne now owner stop)
    (Option.map (renewed now owner stop)) ?_ (lookup_renewOne stop) names acc n
  intro o
  rw [map_map]
  congr 1
  funext h
  exact renewed_renewed stop h

theorem lookup_releaseOne (acc : Table String Held × ℕ) (a n : String) : (releaseOne owner acc a).1.lookup n =
      if n = a then (acc.1.lookup n).filter (fun h => decide (h.owner ≠ owner)) else acc.1.lookup n := by
  unfold releaseOne
  by_cases hna : n = a
  · subst hna
    cases ha : acc.1.lookup n with
    | none => simp [ha]
    | some e =>
      by_cases hcond : e.owner = owner
      · simp [hcond, Option.filter]
      · simp [ha, hcond, Option.filter]
  · cases ha : acc.1.lookup a with
    | none => simp [hna]
    | some e =>
      by_cases hcond : e.owner = owner <;> simp [hcond, hna]

/-- Only the owner's leases are released. -/
theorem lookup_releaseAll (acc : Table String Held × ℕ) (n : String) : (names.foldl (releaseOne owner) acc).1.lookup n =
      if n ∈ names then (acc.1.lookup n).filter (fun h => decide (h.owner ≠ owner)) else acc.1.lookup n := by
  refine lookup_foldl_of_step Prod.fst (releaseOne owner)
    (Option.filter fun h => decide (h.owner ≠ owner)) ?_ lookup_releaseOne names acc n
  intro o
  rw [filter_filter]
  simp only [Bool.and_self]

end LockManager

end Virtkit.Registry
