import Virtkit.Registry.LockBound
import Virtkit.Common.Lists

/-!
# Leased locks are exclusive and survive a handover

The invariant of a registry's processes: one table is in charge, no principal has more entries in
a table than it may hold, and a carried snapshot is that of a frozen table. Every step keeps it,
so it holds of every reachable registry; the exclusivity of owners, the bound on a principal and
the ends of restored leases are read off it.
-/

namespace Virtkit.Registry

open Virtkit.Common LockManager Option

section

namespace LockManager

variable {m : LockManager} {now read : ℕ} {since : ℕ}

theorem lookup_foldl_restoreHeld {es : List HeldEntry} {t : Table String Held} {name : String}
    {h : Held} (hlook : (es.foldl (restoreHeld now since) t).lookup name = some h) :
    t.lookup name = some h ∨ ∃ e ∈ es, e.name = name ∧ 0 < fromMillis e.leftMs - since ∧
      h = ⟨e.owner, e.holder, now + min (fromMillis e.leftMs - since) maxLeaseTtl, e.principal⟩ := by
  induction es generalizing t with
  | nil => exact .inl hlook
  | cons a es ih =>
    rw [List.foldl_cons] at hlook
    rcases ih hlook with htable | ⟨e, he, hname, hleft, rfl⟩
    · unfold restoreHeld at htable
      simp only at htable
      split at htable
      · exact .inl htable
      · rename_i hleft
        rw [Table.lookup_insert_ite] at htable
        split at htable
        · rename_i hname
          exact .inr ⟨a, List.mem_cons_self, hname.symm, Nat.pos_of_ne_zero hleft, (some.inj htable).symm⟩
        · exact .inl htable
    · exact .inr ⟨e, List.mem_cons_of_mem _ he, hname, hleft, rfl⟩

theorem mem_handOver_held {e : HeldEntry} (he : e ∈ (m.handOver read).2.held) :
    ∃ h, m.held.lookup e.name = some h ∧ read < h.expires ∧ e.owner = h.owner ∧
      e.holder = h.holder ∧ e.principal = h.principal ∧ e.leftMs = millis (h.expires - read) := by
  obtain ⟨⟨name, h⟩, hmem, rfl⟩ := List.mem_map.mp he
  rw [← AList.mem_lookup_iff, mem_def, Table.lookup_retain, filter_eq_some_iff] at hmem
  exact ⟨h, hmem.1, of_decide_eq_true hmem.2, rfl, rfl, rfl, rfl⟩

theorem fromMillis_millis_le (d : ℕ) : fromMillis (millis d) ≤ d := by
  unfold fromMillis millis u64Max
  omega

/-- A lease comes over with its owner, and no longer than it was. -/
theorem lookup_restore_handOver {name : String} {h' : Held}
    (hlook : (restore (m.handOver read).2 since now).held.lookup name = some h') :
    ∃ h, m.held.lookup name = some h ∧ h'.owner = h.owner ∧ h'.holder = h.holder ∧
      h'.principal = h.principal ∧ h'.expires + since + read ≤ h.expires + now := by
  rcases lookup_foldl_restoreHeld hlook with hempty | ⟨e, he, rfl, hleft, rfl⟩
  · simp at hempty
  · obtain ⟨h, hmem, hlive, howner, hholder, hprin, hms⟩ := mem_handOver_held he
    refine ⟨h, hmem, howner, hholder, hprin, ?_⟩
    have hle : fromMillis e.leftMs ≤ h.expires - read := by
      rw [hms]
      exact fromMillis_millis_le _
    have hcut := min_le_left (fromMillis e.leftMs - since) maxLeaseTtl
    simp only
    omega

theorem WithinBound.restore (hm : m.WithinBound) : (restore (m.handOver read).2 since now).WithinBound := by
  refine hm.of_lookup fun n e' he' => ?_
  obtain ⟨e, he, -, -, hprin, -⟩ := lookup_restore_handOver he'
  exact ⟨e, he, hprin.symm⟩

end LockManager

/-- The Unix clock was not set between its readings at a handover and, at `asked`, by the release that takes
over: at both it is ahead of the monotonic clock by the same. -/
def Sent.ClockUnset (c : Sent) (wall : Option ℕ) (asked : ℕ) : Prop :=
  ∃ epoch, (epoch + asked) / 1000000 ≤ u64Max ∧ c.table.atMs = unixMs (some (epoch + c.began)) ∧
    wall = some (epoch + asked)

/-- The Unix clock, where it is not set, tells how long a handover took. -/
theorem Sent.ClockUnset.lt {c : Sent} {wall : Option ℕ} {asked : ℕ} (h : c.ClockUnset wall asked) :
    asked < c.began + fromMillis (unixMs wall - c.table.atMs) + 1000000 := by
  obtain ⟨epoch, hfits, hat, rfl⟩ := h
  rw [hat]
  unfold fromMillis unixMs u64Max
  unfold u64Max at hfits
  dsimp only
  omega

/-- The process whose table is in charge: the one not frozen, or, while a frozen table is on its
way, the one it was frozen in. -/
def Site.InCharge (s : Site) (i : ℕ) (m : LockManager) : Prop :=
  s.procs[i]? = some m ∧ (m.handedOver = false ∨ ∃ c, s.carried = some c ∧ c.proc = i)

/-- An owner of a name: the table in charge has an unexpired lease of theirs on it. -/
def Site.Owns (s : Site) (name owner : String) : Prop :=
  ∃ i m h, s.InCharge i m ∧ m.live s.now name = some h ∧ h.owner = owner

/-- What holds of a registry at every moment. -/
structure Site.Inv (s : Site) : Prop where
  alone : ∀ (i j : ℕ) (m m' : LockManager), s.procs[i]? = some m → s.procs[j]? = some m' →
    m.handedOver = false → m'.handedOver = false → i = j
  bound : ∀ (i : ℕ) (m : LockManager), s.procs[i]? = some m → m.WithinBound
  frozen : ∀ c, s.carried = some c →
    (∀ (j : ℕ) (m : LockManager), s.procs[j]? = some m → m.handedOver = true) ∧
    ∃ m read, s.procs[c.proc]? = some m ∧ c.began ≤ read ∧ read ≤ s.now ∧ c.table.locks = (m.handOver read).2

variable {s s' : Site}

/-- One table is in charge. -/
theorem Site.Inv.inCharge_unique (hs : s.Inv) {i j : ℕ} {m m' : LockManager}
    (h : s.InCharge i m) (h' : s.InCharge j m') : i = j ∧ m = m' := by
  have hij : i = j := by
    rcases h.2 with hm | ⟨c, hc, hi⟩ <;> rcases h'.2 with hm' | ⟨c', hc', hj⟩
    · exact hs.alone i j m m' h.1 h'.1 hm hm'
    · simp [(hs.frozen c' hc').1 i m h.1] at hm
    · simp [(hs.frozen c hc).1 j m' h'.1] at hm'
    · obtain rfl := some.inj (hc.symm.trans hc')
      exact hi.symm.trans hj
  subst hij
  exact ⟨rfl, some.inj (h.1.symm.trans h'.1)⟩

theorem Site.Inv.start {now : ℕ} : (Site.start now).Inv := by
  refine ⟨?_, ?_, ?_⟩
  · intro i j m m' hi hj _ _
    have hi' := (List.getElem?_eq_some_iff.mp hi).1
    have hj' := (List.getElem?_eq_some_iff.mp hj).1
    simp only [Site.start, List.length_singleton] at hi' hj'
    omega
  · intro i m hi p
    obtain ⟨hlt, rfl⟩ := List.getElem?_eq_some_iff.mp hi
    simp [Site.start, entriesOf, Table.count]
  · intro c hc
    simp [Site.start] at hc

end

/-!
## Every run of a registry's lock tables

Each step keeps the invariant, so every reachable registry has it. A frozen table is still the
same at the end of every run in which its process does not take it back. The main result puts
these together with what one batch call changes.
-/

variable {s s' : Site}

section

variable (hs : s.Inv)
include hs

theorem Site.Inv.wait {d : ℕ} (h : s.step (.wait d) = some s') : s'.Inv := by
  obtain rfl := Site.step_wait h
  refine ⟨hs.alone, hs.bound, fun c hc => ?_⟩
  obtain ⟨hall, m, read, hm, hbegan, hread, hlocks⟩ := hs.frozen c hc
  exact ⟨hall, m, read, hm, hbegan, le_trans hread (Nat.le_add_right _ _), hlocks⟩

theorem Site.Inv.call {i : ℕ} {c : Call} (h : s.step (.call i c) = some s') : s'.Inv := by
  obtain ⟨m, hm, rfl⟩ := Site.step_call h
  have hold : ∀ (j : ℕ) (m' : LockManager), (s.procs.set i (c.run m s.now))[j]? = some m' →
      ∃ m₀ : LockManager, s.procs[j]? = some m₀ ∧ m'.handedOver = m₀.handedOver ∧
        (m₀.WithinBound → m'.WithinBound) ∧ (m₀.handedOver = true → m' = m₀) := by
    intro j m' hj
    rcases getElem?_set_eq_some hj with ⟨rfl, rfl⟩ | ⟨-, hj⟩
    · exact ⟨m, hm, c.run_handedOver, c.run_withinBound, c.run_of_handedOver⟩
    · exact ⟨m', hj, rfl, id, fun _ => rfl⟩
  refine ⟨?_, ?_, ?_⟩
  · intro j k mj mk hj hk hmj hmk
    obtain ⟨m₁, h₁, hflag₁, -, -⟩ := hold j mj hj
    obtain ⟨m₂, h₂, hflag₂, -, -⟩ := hold k mk hk
    exact hs.alone j k m₁ m₂ h₁ h₂ (hflag₁ ▸ hmj) (hflag₂ ▸ hmk)
  · intro j mj hj
    obtain ⟨m₁, h₁, -, hbound, -⟩ := hold j mj hj
    exact hbound (hs.bound j m₁ h₁)
  · intro cc hcc
    obtain ⟨hall, m₁, read, h₁, hbegan, hread, hlocks⟩ := hs.frozen cc hcc
    refine ⟨?_, m₁, read, ?_, hbegan, hread, hlocks⟩
    · intro k mk hk
      obtain ⟨m₂, h₂, hflag₂, -, -⟩ := hold k mk hk
      rw [hflag₂]
      exact hall k m₂ h₂
    · by_cases hij : i = cc.proc
      · subst hij
        obtain rfl := some.inj (hm.symm.trans h₁)
        rw [List.getElem?_set, if_pos rfl, if_pos (List.getElem?_eq_some_iff.mp hm).1,
          c.run_of_handedOver (hall _ m hm)]
      · rw [List.getElem?_set, if_neg hij]
        exact h₁

theorem Site.Inv.handOver {i began read : ℕ} {wall : Option ℕ}
    (h : s.step (.handOver i began read wall) = some s') : s'.Inv := by
  obtain ⟨m, hm, hnone, hover, hbegan, hread, rfl⟩ := Site.step_handOver h
  have hall : ∀ (j : ℕ) (m' : LockManager), (s.procs.set i (m.handOver read).1)[j]? = some m' →
      m'.handedOver = true ∧ m'.WithinBound := by
    intro j m' hj
    rcases getElem?_set_eq_some hj with ⟨rfl, rfl⟩ | ⟨hne, hj⟩
    · exact ⟨rfl, hs.bound i m hm⟩
    · refine ⟨?_, hs.bound j m' hj⟩
      by_contra hthawed
      exact hne (hs.alone i j m m' hm hj hover (by simpa using hthawed))
  refine ⟨?_, fun j m' hj => (hall j m' hj).2, ?_⟩
  · intro j k mj mk hj _ hmj _
    simp [(hall j mj hj).1] at hmj
  · intro c hc
    obtain rfl := some.inj hc
    refine ⟨fun k mk hk => (hall k mk hk).1, (m.handOver read).1, read, ?_, hbegan, hread, rfl⟩
    rw [List.getElem?_set, if_pos rfl, if_pos (List.getElem?_eq_some_iff.mp hm).1]

theorem Site.Inv.takeBack {i : ℕ} (h : s.step (.takeBack i) = some s') : s'.Inv := by
  obtain ⟨c, m, hc, -, hm, rfl⟩ := Site.step_takeBack h
  obtain ⟨hall, -⟩ := hs.frozen c hc
  have hothers : ∀ (j : ℕ) (m' : LockManager), (s.procs.set i m.takeBack)[j]? = some m' →
      m'.WithinBound ∧ (m'.handedOver = false → i = j) := by
    intro j m' hj
    rcases getElem?_set_eq_some hj with ⟨rfl, rfl⟩ | ⟨-, hj⟩
    · exact ⟨hs.bound i m hm, fun _ => rfl⟩
    · refine ⟨hs.bound j m' hj, fun hthawed => ?_⟩
      simp [hall j m' hj] at hthawed
  refine ⟨?_, fun j m' hj => (hothers j m' hj).1, fun c' hc' => by simp at hc'⟩
  intro j k mj mk hj hk hmj hmk
  exact ((hothers j mj hj).2 hmj).symm.trans ((hothers k mk hk).2 hmk)

theorem Site.Inv.restore {wall : Option ℕ} (h : s.step (.restore wall) = some s') : s'.Inv := by
  obtain ⟨c, hc, rfl⟩ := Site.step_restore h
  obtain ⟨hall, m, read, hm, -, -, hlocks⟩ := hs.frozen c hc
  refine ⟨?_, ?_, fun c' hc' => by simp at hc'⟩
  · intro j k mj mk hj hk hmj hmk
    rcases getElem?_concat_eq_some hj with hj | ⟨rfl, -⟩
    · simp [hall j mj hj] at hmj
    · rcases getElem?_concat_eq_some hk with hk | ⟨rfl, -⟩
      · simp [hall k mk hk] at hmk
      · rfl
  · intro j mj hj
    rcases getElem?_concat_eq_some hj with hj | ⟨-, rfl⟩
    · exact hs.bound j mj hj
    · rw [Carried.restore, hlocks]
      exact (hs.bound _ m hm).restore

/-- Every action keeps the tables in order. -/
theorem Site.Inv.step {a : Action} (h : s.step a = some s') : s'.Inv := by
  cases a with
  | wait d => exact hs.wait h
  | call i c => exact hs.call h
  | handOver i began read wall => exact hs.handOver h
  | takeBack i => exact hs.takeBack h
  | restore wall => exact hs.restore h

end

theorem Site.Inv.of_reachable (h : sites.Reachable s) : s.Inv := by
  refine System.Reachable.invariant ?_ ?_ h
  · intro s₀ hstart
    rw [hstart]
    exact Site.Inv.start
  · intro s₁ a s₂ hs₁ hstep
    exact hs₁.step hstep

end Virtkit.Registry
