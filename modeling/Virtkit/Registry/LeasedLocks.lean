import Virtkit.Registry.LockRuns

/-!
# What a registry promises of its leased locks

At every moment a name has one unexpired owner at most and a principal no more locks than it may
hold. An acquisition is all or nothing; a renewal or a release acts on exactly the listed names
that the presented owner still holds. A frozen table answers every call with a refusal and stays
as it is until its process takes it back, and a release that takes over gives no lease an end that
is a millisecond or more after the one it had, unless the Unix clock was set in between.
-/

namespace Virtkit.Registry

open Virtkit.Common LockManager

variable {s s' : Site}

/-- What the batch calls do to a table now. -/
structure LockManager.BatchExact (m : LockManager) (now : ℕ) : Prop where
  take : ∀ names ttl holder notAfter principal owner m' r,
    m.tryTakeAll now names ttl holder notAfter principal owner = (m', r) → (r = .ok owner ∧
        (∀ n ∈ names, m.live now n = none ∧
          m'.held.lookup n = some ⟨owner, holder, leaseEnd now ttl notAfter, principal⟩) ∧
        ∀ n ∉ names, m'.live now n = m.live now n) ∨
      ((∃ e, r = .error e) ∧ ∀ n, m'.live now n = m.live now n)
  renew : ∀ names owner ttl notAfter, m.handedOver = false → ∀ n,
    (m.tryRenewAll now names owner ttl notAfter).1.held.lookup n =
      if n ∈ names then (m.held.lookup n).map fun h =>
        if h.owner = owner ∧ now < h.expires then { h with expires := leaseEnd now ttl notAfter }
        else h
      else m.held.lookup n
  release : ∀ names owner, m.handedOver = false → ∀ n, (m.tryReleaseAll names owner).1.held.lookup n =
      if n ∈ names then (m.held.lookup n).filter fun h => decide (h.owner ≠ owner)
      else m.held.lookup n

theorem LockManager.batchExact (m : LockManager) (now : ℕ) : m.BatchExact now where
  take _ _ _ _ _ _ _ _ h := tryTakeAll_allOrNothing h
  renew names owner ttl notAfter hover n := lookup_tryRenewAll names owner ttl notAfter hover n
  release names owner hover n := lookup_tryReleaseAll names owner hover n

/-- The table grants nothing, renews nothing, releases nothing and records nothing. -/
structure LockManager.Refuses (m : LockManager) : Prop where
  take : ∀ now names ttl holder notAfter principal owner,
    (m.tryTakeAll now names ttl holder notAfter principal owner).2 = .error .handedOver
  renew : ∀ now names owner ttl notAfter, (m.tryRenewAll now names owner ttl notAfter).2 = none
  release : ∀ names owner, (m.tryReleaseAll names owner).2 = none
  record : ∀ now name pipeline reason ttl, (m.tryRecordFailure now name pipeline reason ttl).2 = false

theorem LockManager.refuses_of_handedOver {m : LockManager} (h : m.handedOver = true) : m.Refuses where
  take now names ttl holder notAfter principal owner := by rw [tryTakeAll_handedOver h]
  renew now names owner ttl notAfter := by simp only [tryRenewAll, h, if_true]
  release names owner := by simp only [tryReleaseAll, h, if_true]
  record now name pipeline reason ttl := by simp only [tryRecordFailure, h, if_true]

/-- Until it is taken back, a table that was handed over stays as it is. -/
theorem Site.step_frozen {a : Action} {i : ℕ} {m : LockManager}
    (h : s.step a = some s') (ha : a ≠ .takeBack i) (hm : s.procs[i]? = some m)
    (hover : m.handedOver = true) : s'.procs[i]? = some m := by
  cases a with
  | wait d =>
    obtain rfl := Site.step_wait h
    exact hm
  | call j c =>
    obtain ⟨mj, hj, rfl⟩ := Site.step_call h
    by_cases hij : j = i
    · subst hij
      obtain rfl := Option.some.inj (hj.symm.trans hm)
      simp only [c.run_of_handedOver hover]
      rw [List.getElem?_set, if_pos rfl, if_pos (List.getElem?_eq_some_iff.mp hm).1]
    · simp only [List.getElem?_set, if_neg hij]
      exact hm
  | handOver j began read wall =>
    obtain ⟨mj, hj, -, hthawed, -, -, rfl⟩ := Site.step_handOver h
    have hij : j ≠ i := by
      rintro rfl
      obtain rfl := Option.some.inj (hj.symm.trans hm)
      simp [hover] at hthawed
    simp only [List.getElem?_set, if_neg hij]
    exact hm
  | takeBack j =>
    obtain ⟨c, mj, -, -, hj, rfl⟩ := Site.step_takeBack h
    have hij : j ≠ i := fun hij => ha (by rw [hij])
    simp only [List.getElem?_set, if_neg hij]
    exact hm
  | restore wall =>
    obtain ⟨c, -, rfl⟩ := Site.step_restore h
    simp only [List.getElem?_append_left (List.getElem?_eq_some_iff.mp hm).1]
    exact hm

theorem Site.run_frozen {as : List Action} {i : ℕ} {m : LockManager}
    (hrun : sites.Run s as s') (has : Action.takeBack i ∉ as)
    (hm : s.procs[i]? = some m) (hover : m.handedOver = true) : s'.procs[i]? = some m := by
  induction hrun with
  | nil s => exact hm
  | cons hstep _ ih =>
    simp only [List.mem_cons, not_or] at has
    exact ih has.2 (Site.step_frozen hstep (Ne.symm has.1) hm hover)

/-- A restored lease ends later by the time since the handover less the time between the two readings of the
Unix clock, at most. -/
theorem Site.Inv.restored (hs : s.Inv) {wall : Option ℕ} (h : s.step (.restore wall) = some s') :
    ∃ c old new, s.carried = some c ∧ s.InCharge c.proc old ∧ s'.InCharge s.procs.length new ∧
      ∀ name h', new.held.lookup name = some h' →
        ∃ h, old.held.lookup name = some h ∧ h'.owner = h.owner ∧ h'.holder = h.holder ∧
          h'.principal = h.principal ∧
          h'.expires + fromMillis (unixMs wall - c.table.atMs) ≤ h.expires + (s.now - c.began) ∧
          ∀ asked ≤ s.now, c.ClockUnset wall asked → h'.expires < h.expires + (s.now - asked) + 1000000 := by
  obtain ⟨c, hc, rfl⟩ := Site.step_restore h
  obtain ⟨-, m, read, hm, hbegan, hread, hlocks⟩ := hs.frozen c hc
  refine ⟨c, m, _, hc, ⟨hm, .inr ⟨c, hc, rfl⟩⟩, ⟨List.getElem?_concat_length, .inl rfl⟩, ?_⟩
  intro name h' hlook
  rw [Carried.restore, hlocks] at hlook
  obtain ⟨e, he, howner, hholder, hprin, hends⟩ := lookup_restore_handOver hlook
  refine ⟨e, he, howner, hholder, hprin, by omega, fun asked hasked hunset => ?_⟩
  have hclock := hunset.lt
  omega

/-- A registry whose first process holds a lease for the given time, and had it handed over at the
start and taken on by a release at a given time, with the given end. -/
private def released (ttl now ends : ℕ) : Site :=
  ⟨now, [{ held := AList.singleton "a" ⟨"o", "builder", ttl, none⟩, handedOver := true },
    { held := AList.singleton "a" ⟨"o", "builder", ends, none⟩ }], none⟩

end Virtkit.Registry
