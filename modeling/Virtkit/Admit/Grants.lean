import Virtkit.Admit.Ledger

/-!
# What a tally counts

A tally's totals are the true sums over the live granted entries but the caller's own, cut at the
64-bit cap, and its `ahead` counts the live entries that wait and asked earlier. A pass that nothing
blocks therefore leaves the claims of the others and its own within the budgets, and finds nobody
waiting who asked first.
-/

namespace Virtkit.Admit

open Virtkit.Common Option Table Entry List

section

/-- What an entry holds of a resource: nothing until it is granted. -/
def Entry.claim (size : Entry → ℕ) (e : Entry) : ℕ := if e.granted then size e else 0

/-- The vCPUs of an entry. -/
def Entry.vcpus (e : Entry) : ℕ := e.cpus.getD 0

namespace Ledger

variable {l : Ledger} {own : Name} {asked : ℕ} {size : Entry → ℕ}

/-- What the line of a file holds of a resource. -/
def weight (l : Ledger) (size : Entry → ℕ) (file : ℕ) : ℕ :=
  (l.files.lookup file).elim 0 (Entry.claim size)

/-- What the directory's granted entries hold of a resource, the dead ones' included. -/
def total (l : Ledger) (size : Entry → ℕ) : ℕ := l.dir.sum fun _ f => l.weight size f

/-- What the live entries under other names hold of a resource. -/
def otherTotal (l : Ledger) (own : Name) (size : Entry → ℕ) : ℕ :=
  (l.dir.retain fun n f => decide (n ≠ own) && l.locked f).sum fun _ f => l.weight size f

theorem foldl_tallyEntry (asked : ℕ) (es : List (Name × Entry)) (held : Held)
    (hmib : held.grantedMib ≤ u64Max) (hcpus : held.grantedCpus ≤ u64Max) :
    let held' := es.foldl (fun held e => tallyEntry asked held e.1 e.2) held
    held'.grantedMib = min (held.grantedMib + (es.map fun e => e.2.claim wantMib).sum) u64Max ∧
      held'.grantedCpus = min (held.grantedCpus + (es.map fun e => e.2.claim Entry.vcpus).sum) u64Max ∧
      held'.ahead = held.ahead + es.countP fun e => !e.2.granted && decide (e.2.asked < asked) := by
  induction es generalizing held with
  | nil => simp [hmib, hcpus]
  | cons e es ih =>
    have hone : (tallyEntry asked held e.1 e.2).grantedMib = min (held.grantedMib + e.2.claim wantMib) u64Max ∧
        (tallyEntry asked held e.1 e.2).grantedCpus = min (held.grantedCpus + e.2.claim Entry.vcpus) u64Max ∧
        (tallyEntry asked held e.1 e.2).ahead =
          held.ahead + if (!e.2.granted && decide (e.2.asked < asked)) = true then 1 else 0 := by
      unfold tallyEntry Entry.claim
      cases hgranted : e.2.granted with
      | true => simp [satAdd, Entry.vcpus]
      | false => by_cases hlt : e.2.asked < asked <;> simp [hlt, hmib, hcpus]
    obtain ⟨h₁, h₂, h₃⟩ := hone
    have hrest := ih (tallyEntry asked held e.1 e.2) (by rw [h₁]; exact min_le_right _ _)
      (by rw [h₂]; exact min_le_right _ _)
    rw [h₁, h₂, h₃] at hrest
    simp only [foldl_cons, map_cons, sum_cons, countP_cons]
    obtain ⟨r₁, r₂, r₃⟩ := hrest
    refine ⟨?_, ?_, ?_⟩
    · rw [r₁]
      omega
    · rw [r₂]
      omega
    · rw [r₃]
      omega

theorem mem_others {n : Name} {e : Entry} : (n, e) ∈ l.others (some own) ↔
      n ≠ own ∧ ∃ f, l.dir.lookup n = some f ∧ l.locked f = true ∧ l.files.lookup f = some e := by
  unfold others
  rw [mem_filterMap]
  constructor
  · rintro ⟨⟨m, f⟩, hmem, hsome⟩
    split at hsome
    · simp at hsome
    · rename_i hcond
      simp only [some.injEq, not_or, Bool.not_eq_false] at hcond
      obtain ⟨x, hx, hpair⟩ := map_eq_some_iff.mp hsome
      obtain ⟨rfl, rfl⟩ := Prod.mk.inj hpair
      exact ⟨hcond.1, f, AList.mem_lookup_iff.mpr hmem, hcond.2, hx⟩
  · rintro ⟨hne, f, hdir, hlocked, hfile⟩
    refine ⟨⟨n, f⟩, AList.mem_lookup_iff.mp hdir, ?_⟩
    simp [hne, hlocked, hfile]

/-- The claims of the others, as the tally reads them, come to their total. -/
theorem sum_others (l : Ledger) (own : Name) (size : Entry → ℕ) :
    ((l.others (some own)).map fun e => e.2.claim size).sum = l.otherTotal own size := by
  unfold others otherTotal Table.sum
  change _ = ((l.dir.entries.filter fun e => decide (e.1 ≠ own) && l.locked e.2).map _).sum
  induction l.dir.entries with
  | nil => rfl
  | cons e es ih =>
    by_cases hown : e.1 = own
    · simpa [hown] using ih
    · by_cases hlocked : l.locked e.2 = true
      · cases hfile : l.files.lookup e.2 with
        | none | some x => simpa [hown, hlocked, hfile, weight] using ih
      · simpa [hown, hlocked] using ih

/-- A tally has what is granted to the others, up to the largest number. -/
theorem tally_granted (l : Ledger) (own : Name) (asked : ℕ) :
    (l.tally (some own) asked).1.grantedMib = min (l.otherTotal own wantMib) u64Max ∧
      (l.tally (some own) asked).1.grantedCpus = min (l.otherTotal own Entry.vcpus) u64Max := by
  have h := foldl_tallyEntry asked (l.others (some own)) {} (Nat.zero_le _) (Nat.zero_le _)
  rw [sum_others, sum_others, Nat.zero_add, Nat.zero_add] at h
  exact ⟨h.1, h.2.1⟩

/-- If nothing is ahead, who waits asked no earlier. -/
theorem asked_le_of_tally_ahead (h : (l.tally (some own) asked).1.ahead = 0) {n : Name} {f : ℕ}
    {e : Entry} (hne : n ≠ own) (hdir : l.dir.lookup n = some f) (hlocked : l.locked f = true)
    (hfile : l.files.lookup f = some e) (hwaits : e.granted = false) : asked ≤ e.asked := by
  have hcount := (foldl_tallyEntry asked (l.others (some own)) {} (Nat.zero_le _) (Nat.zero_le _)).2.2
  rw [Nat.zero_add] at hcount
  have hnone := countP_eq_zero.mp (hcount.symm.trans h) (n, e) (mem_others.mpr ⟨hne, f, hdir, hlocked, hfile⟩)
  simpa [hwaits] using hnone

end Ledger

theorem Pass.of_blocker_eq_none {ask : Ask} {held : Held} {disk : Disk}
    (h : (Pass.ofHeld ask held disk).blocker = none) :
    (∀ m ∈ ask.mem, satAdd u64Max held.grantedMib m.wantMib ≤ m.budgetMib) ∧
      (∀ c ∈ ask.cpus, satAdd u64Max held.grantedCpus c.want ≤ c.budget) ∧ held.ahead = 0 := by
  have hfields : (Pass.ofHeld ask held disk).ask = ask ∧ (Pass.ofHeld ask held disk).usedMib = held.grantedMib ∧
      (Pass.ofHeld ask held disk).usedCpus = held.grantedCpus ∧
      (Pass.ofHeld ask held disk).ahead = held.ahead := by
    unfold Pass.ofHeld
    simp only
    split <;> exact ⟨rfl, rfl, rfl, rfl⟩
  obtain ⟨hask, hmib, hcpus, hahead⟩ := hfields
  unfold Pass.blocker at h
  split at h
  · simp at h
  · rename_i hmem
    split at h
    · simp at h
    · rename_i hcpu
      split at h
      · simp at h
      · split at h
        · simp at h
        · rename_i hqueue
          rw [Pass.memShort, hask, hmib] at hmem
          rw [Pass.cpuShort, hask, hcpus] at hcpu
          rw [hahead] at hqueue
          refine ⟨fun m hm => ?_, fun c hc => ?_, by omega⟩
          · rw [mem_def.mp hm] at hmem
            simpa using hmem
          · rw [mem_def.mp hc] at hcpu
            simpa using hcpu

end

/-!
## Granted claims stay within the budgets

The invariant of a host's ledger: what the directory's granted entries hold, those of dead
processes included, is within the budgets; a file stands under one name at most, and one that a
process waits on under that process's own. A grant replaces the claim under its own name after
counting every other, so it keeps the bound; every other step adds no claim.
-/

section

theorem Budgets.mib_lt (b : Budgets) : b.mib < u64Max := by
  have hle := b.mib_le
  obtain ⟨g, hg⟩ := b.mib_whole
  unfold u64Max at *
  omega

theorem Budgets.cpus_lt (b : Budgets) : b.cpus < u64Max := by
  have hle := b.cpus_le
  unfold u32Max at hle
  unfold u64Max
  omega

namespace Ledger

variable {b : Budgets} {l l' : Ledger} {own : Name} {size : Entry → ℕ}

/-- What holds of a host's ledger at every moment. -/
structure Inv (b : Budgets) (l : Ledger) : Prop where
  mib : l.total wantMib ≤ b.mib
  cpus : l.total Entry.vcpus ≤ b.cpus
  given : ∀ p w, l.waiting.lookup p = some w → w.ask.Given b
  own : ∀ p w, l.waiting.lookup p = some w → ∀ n, l.dir.lookup n = some w.file → n = .job w.job
  oneName : ∀ n n' f, l.dir.lookup n = some f → l.dir.lookup n' = some f → n = n'
  linked : ∀ n f, l.dir.lookup n = some f → f < l.nextFile
  waited : ∀ p w, l.waiting.lookup p = some w → w.file < l.nextFile
  lines : ∀ f e, l.files.lookup f = some e → f < l.nextFile

/-- A change that adds no name, no claim and no waiting process. -/
structure Shrinks (l l' : Ledger) : Prop where
  dir : ∀ n f, l'.dir.lookup n = some f → l.dir.lookup n = some f
  mib : ∀ f, l'.weight wantMib f ≤ l.weight wantMib f
  cpus : ∀ f, l'.weight Entry.vcpus f ≤ l.weight Entry.vcpus f
  waiting : ∀ p w, l'.waiting.lookup p = some w → l.waiting.lookup p = some w
  nextFile : l'.nextFile = l.nextFile
  lines : ∀ f e, l'.files.lookup f = some e → ∃ e', l.files.lookup f = some e'

theorem total_le_of_dir (hdir : ∀ n f, l'.dir.lookup n = some f →
    l.dir.lookup n = some f ∧ l'.weight size f ≤ l.weight size f) : l'.total size ≤ l.total size := by
  apply sum_le_of_lookup
  intro n f hf
  exact ⟨f, hdir n f hf⟩

/-- What shrinks a ledger keeps it within its budgets. -/
theorem Inv.shrink (hl : l.Inv b) (h : l.Shrinks l') : l'.Inv b where
  mib := le_trans (total_le_of_dir fun n f hf => ⟨h.dir n f hf, h.mib f⟩) hl.mib
  cpus := le_trans (total_le_of_dir fun n f hf => ⟨h.dir n f hf, h.cpus f⟩) hl.cpus
  given p w hw := hl.given p w (h.waiting p w hw)
  own p w hw n hn := hl.own p w (h.waiting p w hw) n (h.dir n _ hn)
  oneName n n' f hn hn' := hl.oneName n n' f (h.dir n f hn) (h.dir n' f hn')
  linked n f hf := by
    rw [h.nextFile]
    exact hl.linked n f (h.dir n f hf)
  waited p w hw := by
    rw [h.nextFile]
    exact hl.waited p w (h.waiting p w hw)
  lines f e he := by
    obtain ⟨e', he'⟩ := h.lines f e he
    rw [h.nextFile]
    exact hl.lines f e' he'

theorem Shrinks.of_dir (dir : Table Name ℕ) (locks : List (ℕ × ℕ)) (waiting : Table ℕ Waiting)
    (hdir : ∀ n f, dir.lookup n = some f → l.dir.lookup n = some f)
    (hwaiting : ∀ p w, waiting.lookup p = some w → l.waiting.lookup p = some w) :
    l.Shrinks { l with dir := dir, locks := locks, waiting := waiting } where
  dir := hdir
  mib _ := le_rfl
  cpus _ := le_rfl
  waiting := hwaiting
  nextFile := rfl
  lines _ e he := ⟨e, he⟩

theorem lookup_of_lookup_erase {K V : Type*} [DecidableEq K] {t : Table K V} {k k' : K} {v : V}
    (h : (t.erase k).lookup k' = some v) : t.lookup k' = some v := by
  rw [lookup_erase_ite] at h
  split at h
  · simp at h
  · exact h

theorem lookup_tally (asked : ℕ) {o : Option Name} {n : Name} {f : ℕ} (h : (l.tally o asked).2.dir.lookup n = some f) :
    l.dir.lookup n = some f ∧ (some n = o ∨ l.locked f = true) := by
  rw [tally, lookup_retain, filter_eq_some_iff] at h
  simpa using h

/-- A tally only drops entries that nobody holds. -/
theorem Shrinks.tally (l : Ledger) (o : Option Name) (asked : ℕ) : l.Shrinks (l.tally o asked).2 :=
  Shrinks.of_dir _ l.locks l.waiting (fun _ _ h => (lookup_tally asked h).1) fun _ _ h => h

theorem Shrinks.trans {l'' : Ledger} (h : l.Shrinks l') (h' : l'.Shrinks l'') : l.Shrinks l'' where
  dir n f hf := h.dir n f (h'.dir n f hf)
  mib f := le_trans (h'.mib f) (h.mib f)
  cpus f := le_trans (h'.cpus f) (h.cpus f)
  waiting p w hw := h.waiting p w (h'.waiting p w hw)
  nextFile := h'.nextFile.trans h.nextFile
  lines f e he := by
    obtain ⟨e', he'⟩ := h'.lines f e he
    exact h.lines f e' he'

theorem weight_write (f g : ℕ) (e : Entry) :
    (l.write f e).weight size g = if g = f then e.claim size else l.weight size g := by
  unfold weight write
  rw [lookup_insert_ite]
  split <;> rfl

/-- Placing drops entries, and grants nothing. -/
theorem Shrinks.place {p file : ℕ} {name : Name} {node : Place}
    (h : l.place p file name node = some l') : l.Shrinks l' := by
  unfold Ledger.place at h
  split at h
  · simp only at h
    split at h
    · rename_i e he
      cases h
      refine (Shrinks.tally l (some name) 0).trans ⟨fun _ _ hf => hf, ?_, ?_, fun _ _ hw => hw, rfl, ?_⟩
      · intro f
        rw [weight_write]
        split
        · rename_i hf
          rw [hf, weight, he]
          exact le_rfl
        · exact le_rfl
      · intro f
        rw [weight_write]
        split
        · rename_i hf
          rw [hf, weight, he]
          exact le_rfl
        · exact le_rfl
      · intro f e' he'
        rw [Ledger.write, lookup_insert_ite] at he'
        split at he'
        · rename_i hf
          rw [hf]
          exact ⟨e, he⟩
        · exact ⟨e', he'⟩
    · simp at h
  · simp at h

theorem total_le_otherTotal (h : ∀ n f, n ≠ own → l'.dir.lookup n = some f →
      l.dir.lookup n = some f ∧ l.locked f = true ∧ l'.weight size f ≤ l.weight size f) :
    l'.total size ≤ l.otherTotal own size + (l'.dir.lookup own).elim 0 (l'.weight size) := by
  apply sum_le_add_valueAt own
  intro n f hne hf
  obtain ⟨hdir, hlocked, hle⟩ := h n f hne hf
  refine ⟨f, ?_, hle⟩
  rw [lookup_retain, hdir]
  simp [hne, hlocked]

theorem otherTotal_le (l : Ledger) (own : Name) (size : Entry → ℕ) : l.otherTotal own size ≤ l.total size := by
  apply sum_le_of_lookup
  intro n f hf
  rw [lookup_retain, filter_eq_some_iff] at hf
  exact ⟨f, hf.1, le_rfl⟩

end Ledger

end

/-!
## Every run of a host stays within its budgets

Each step of a host keeps the ledger's invariant: the grants by what their pass counted, the start
of an acquisition and the renaming of a reservation because they add no claim. So no run admits
more memory or more vCPUs than the host's budgets.
-/

namespace Ledger

variable {b : Budgets} {l l' : Ledger} {own : Name} {size : Entry → ℕ}

/-- An ask that nothing blocks fits with what the others hold. -/
theorem fits_of_blocker_eq_none {ask : Ask} {asked : ℕ} {disk : Disk} (hl : l.Inv b) (hask : ask.Given b)
    (h : (Pass.ofHeld ask (l.tally (some own) asked).1 disk).blocker = none) :
    l.otherTotal own wantMib + (ask.entry asked true).wantMib ≤ b.mib ∧
      l.otherTotal own Entry.vcpus + (ask.entry asked true).vcpus ≤ b.cpus := by
  obtain ⟨hmem, hcpu, -⟩ := Pass.of_blocker_eq_none h
  obtain ⟨hmib, hcpus⟩ := l.tally_granted own asked
  constructor
  · have hothers := le_trans (l.otherTotal_le own wantMib) hl.mib
    cases hm : ask.mem with
    | none => simpa [Ask.entry, hm] using hothers
    | some m =>
      have hfit := hmem m (mem_def.mpr hm)
      rw [hmib, hask.1 m (mem_def.mpr hm)] at hfit
      simpa [Ask.entry, hm] using add_le_of_satAdd_le hfit b.mib_lt
  · have hothers := le_trans (l.otherTotal_le own Entry.vcpus) hl.cpus
    cases hc : ask.cpus with
    | none => simpa [Ask.entry, Entry.vcpus, hc] using hothers
    | some c =>
      have hfit := hcpu c (mem_def.mpr hc)
      rw [hcpus, hask.2 c (mem_def.mpr hc)] at hfit
      simpa [Ask.entry, Entry.vcpus, hc] using add_le_of_satAdd_le hfit b.cpus_lt

/-- Marking the caller's file granted, after a tally, holds no more than before or than the others
and the ask together. -/
theorem total_grant_le {f : ℕ} {e : Entry} {asked : ℕ} (hown : ∀ n, l.dir.lookup n = some f → n = own) :
    ((l.tally (some own) asked).2.write f e).total size ≤
      max (l.total size) (l.otherTotal own size + e.claim size) := by
  have hrest : ∀ n g, n ≠ own → ((l.tally (some own) asked).2.write f e).dir.lookup n = some g →
      l.dir.lookup n = some g ∧ l.locked g = true ∧
        ((l.tally (some own) asked).2.write f e).weight size g ≤ l.weight size g := by
    intro n g hne hg
    obtain ⟨hdir, hlive⟩ := lookup_tally asked hg
    have hgf : g ≠ f := by
      rintro rfl
      exact hne (hown n hdir)
    refine ⟨hdir, by simpa [hne] using hlive, ?_⟩
    rw [weight_write, if_neg hgf]
    exact le_rfl
  by_cases hlinked : l.dir.lookup own = some f
  · refine le_trans (total_le_otherTotal hrest) (le_trans ?_ (le_max_right _ _))
    have hkept : ((l.tally (some own) asked).2.write f e).dir.lookup own = some f := by
      change (l.dir.retain _).lookup own = _
      rw [lookup_retain, hlinked]
      simp
    rw [hkept, elim_some, weight_write, if_pos rfl]
  · refine le_trans (total_le_of_dir fun n g hg => ?_) (le_max_left _ _)
    obtain ⟨hdir, -⟩ := lookup_tally asked hg
    have hgf : g ≠ f := by
      rintro rfl
      obtain rfl := hown n hdir
      exact hlinked hdir
    refine ⟨hdir, ?_⟩
    rw [weight_write, if_neg hgf]
    exact le_rfl

theorem Inv.write {f : ℕ} {e : Entry} (hl : l.Inv b) (hf : f < l.nextFile) (hmib : (l.write f e).total wantMib ≤ b.mib)
    (hcpus : (l.write f e).total Entry.vcpus ≤ b.cpus) : (l.write f e).Inv b := by
  refine ⟨hmib, hcpus, hl.given, hl.own, hl.oneName, hl.linked, hl.waited, ?_⟩
  intro g x hx
  rw [Ledger.write, lookup_insert_ite] at hx
  split at hx
  · rename_i hg
    rw [hg]
    exact hf
  · exact hl.lines g x hx

/-- A pass that grants stays within the budgets. -/
theorem Inv.acquirePass {p : ℕ} {w : Waiting} (hl : l.Inv b) (hw : l.waiting.lookup p = some w)
    (disk : Disk) : (l.acquirePass p w disk).1.Inv b := by
  have htally : (l.tally (some (.job w.job)) w.asked).2.Inv b := hl.shrink (Shrinks.tally l _ _)
  unfold Ledger.acquirePass
  simp only
  split
  · rename_i hnone
    obtain ⟨hmib, hcpus⟩ := fits_of_blocker_eq_none hl (hl.given p w hw) hnone
    have hown := hl.own p w hw
    have hgrant := htally.write (f := w.file) (e := w.ask.entry w.asked true) (hl.waited p w hw)
      (le_trans (total_grant_le hown) (max_le hl.mib hmib))
      (le_trans (total_grant_le hown) (max_le hl.cpus hcpus))
    exact hgrant.shrink (Shrinks.of_dir _ _ _ (fun _ _ h => h) fun _ _ h => lookup_of_lookup_erase h)
  · exact htally

theorem openShared_spec {p f : ℕ} {name : Name} (h : l.openShared p name = (f, l')) :
    (∀ n, l'.dir.lookup n = if n = name then some f else l.dir.lookup n) ∧
      l'.files = l.files ∧ l'.waiting = l.waiting ∧ l.nextFile ≤ l'.nextFile ∧ (l.dir.lookup name = some f ∨
        (l.dir.lookup name = none ∧ f = l.nextFile ∧ l'.nextFile = l.nextFile + 1)) := by
  unfold openShared at h
  split at h
  · rename_i file hfile
    obtain ⟨rfl, rfl⟩ := Prod.mk.inj h
    refine ⟨fun n => ?_, rfl, rfl, le_rfl, .inl hfile⟩
    split
    · rename_i hn
      rw [hn]
      exact hfile
    · rfl
  · rename_i hnone
    obtain ⟨rfl, rfl⟩ := Prod.mk.inj h
    exact ⟨fun n => lookup_insert_ite _ _ _ _, rfl, rfl, Nat.le_succ _, .inr ⟨hnone, rfl, rfl⟩⟩

/-- Opening a name keeps the invariant: a new file has no line yet. The file stands under that name
and no other, and no process waits on it under another name. -/
theorem Inv.openShared {p f : ℕ} {name : Name} (hl : l.Inv b) (h : l.openShared p name = (f, l')) :
    l'.Inv b ∧ l'.dir.lookup name = some f ∧ f < l'.nextFile ∧ (∀ n, l'.dir.lookup n = some f → n = name) ∧
      ∀ q w, l'.waiting.lookup q = some w → w.file = f → .job w.job = name := by
  obtain ⟨hdir, hfiles, hwaiting, hnext, hcase⟩ := openShared_spec h
  have hlt : f < l'.nextFile := by
    rcases hcase with hold | ⟨-, rfl, hnew⟩
    · exact lt_of_lt_of_le (hl.linked name f hold) hnext
    · omega
  have hnone : ∀ n, n ≠ name → l.dir.lookup n ≠ some f := by
    intro n hne hn
    rcases hcase with hold | ⟨-, rfl, -⟩
    · exact hne (hl.oneName n name f hn hold)
    · exact absurd (hl.linked n _ hn) (lt_irrefl _)
  have hwaited : ∀ q w, l'.waiting.lookup q = some w → w.file = f → .job w.job = name := by
    intro q w hw hf
    rw [hwaiting] at hw
    rcases hcase with hold | ⟨-, rfl, -⟩
    · exact (hl.own q w hw name (hf ▸ hold)).symm
    · exact absurd (hl.waited q w hw) (by omega)
  have htotal : ∀ size, l'.total size ≤ l.total size := by
    intro size
    have hweight : ∀ g, l'.weight size g = l.weight size g := by
      intro g
      unfold weight
      rw [hfiles]
    rcases hcase with hold | ⟨hfree, rfl, -⟩
    · refine total_le_of_dir fun n g hg => ⟨?_, (hweight g).le⟩
      rw [hdir] at hg
      split at hg
      · rename_i hn
        rw [hn, hold]
        exact hg
      · exact hg
    · have hzero : l'.weight size l.nextFile = 0 := by
        rw [hweight, weight]
        cases he : l.files.lookup l.nextFile with
        | none => rfl
        | some e => exact absurd (hl.lines _ e he) (lt_irrefl _)
      have hsum : l'.total size ≤ l.total size + (l'.dir.lookup name).elim 0 (l'.weight size) := by
        apply sum_le_add_valueAt name
        intro n g hne hg
        rw [hdir, if_neg hne] at hg
        exact ⟨g, hg, (hweight g).le⟩
      rw [hdir, if_pos rfl, elim_some, hzero] at hsum
      exact hsum
  refine ⟨⟨le_trans (htotal _) hl.mib, le_trans (htotal _) hl.cpus, ?_, ?_, ?_, ?_, ?_, ?_⟩,
    by rw [hdir, if_pos rfl], hlt, ?_, hwaited⟩
  · intro q w hw
    exact hl.given q w (hwaiting ▸ hw)
  · intro q w hw n hn
    rw [hdir] at hn
    split at hn
    · rename_i hname
      rw [hname]
      exact (hwaited q w hw (some.inj hn).symm).symm
    · exact hl.own q w (hwaiting ▸ hw) n hn
  · intro n n' g hn hn'
    rw [hdir] at hn hn'
    split at hn <;> split at hn'
    · rename_i h₁ h₂
      rw [h₁, h₂]
    · rename_i h₁ h₂
      cases hn
      exact absurd hn' (hnone n' h₂)
    · rename_i h₁ h₂
      cases hn'
      exact absurd hn (hnone n h₁)
    · exact hl.oneName n n' g hn hn'
  · intro n g hg
    rw [hdir] at hg
    split at hg
    · cases hg
      exact hlt
    · exact lt_of_lt_of_le (hl.linked n g hg) hnext
  · intro q w hw
    exact lt_of_lt_of_le (hl.waited q w (hwaiting ▸ hw)) hnext
  · intro g e he
    exact lt_of_lt_of_le (hl.lines g e (hfiles ▸ he)) hnext
  · intro n hn
    rw [hdir] at hn
    split at hn
    · assumption
    · rename_i hne
      exact absurd hn (hnone n hne)

end Ledger

end Virtkit.Admit
