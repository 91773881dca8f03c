import Virtkit.Admit.Grants

/-!
# No run over-commits the host

The remaining steps keep the ledger's invariant, hence every reachable ledger has it: in every
interleaving of the processes on a host, what the live granted entries hold is within the memory
and vCPU budgets.
-/

namespace Virtkit.Admit

open Virtkit.Common Option Table AList

variable {asked : ℕ}

section

namespace Ledger

variable {b : Budgets} {l l' : Ledger}

theorem Inv.wait {p f : ℕ} {job : String} {ask : Ask} (hl : l.Inv b) (hask : ask.Given b)
    (hf : f < l.nextFile) (hown : ∀ n, l.dir.lookup n = some f → n = .job job) :
    { l with waiting := l.waiting.insert p ⟨job, f, ask, asked⟩ }.Inv b := by
  have hcase : ∀ q w, (l.waiting.insert p ⟨job, f, ask, asked⟩).lookup q = some w →
      w = ⟨job, f, ask, asked⟩ ∨ l.waiting.lookup q = some w := by
    intro q w hw
    rw [lookup_insert_ite] at hw
    split at hw
    · exact .inl (some.inj hw).symm
    · exact .inr hw
  refine ⟨hl.mib, hl.cpus, ?_, ?_, hl.oneName, hl.linked, ?_, hl.lines⟩
  · intro q w hw
    rcases hcase q w hw with rfl | hw
    · exact hask
    · exact hl.given q w hw
  · intro q w hw n hn
    rcases hcase q w hw with rfl | hw
    · exact hown n hn
    · exact hl.own q w hw n hn
  · intro q w hw
    rcases hcase q w hw with rfl | hw
    · exact hf
    · exact hl.waited q w hw

theorem total_write_waiting (f asked : ℕ) (ask : Ask) (size : Entry → ℕ) :
    (l.write f (ask.entry asked false)).total size ≤ l.total size := by
  refine total_le_of_dir fun n g hg => ⟨hg, ?_⟩
  rw [weight_write]
  split
  · exact Nat.zero_le _
  · exact le_rfl

/-- An ask, waiting or granted at once, stays within the budgets. -/
theorem Inv.acquire {p : ℕ} {job : String} {ask : Ask} {disk : Disk} (hl : l.Inv b)
    (hask : ask.Given b) (h : l.acquire p job ask asked disk = some l') : l'.Inv b := by
  unfold Ledger.acquire at h
  split at h
  · rcases hopen : l.openShared p (.job job) with ⟨f, l₁⟩
    obtain ⟨h₁, -, hf, hown, -⟩ := hl.openShared hopen
    simp only [hopen] at h
    split at h
    · cases h
      exact h₁.wait hask hf hown
    · cases h
      have hwrite := h₁.write hf (le_trans (total_write_waiting f asked ask _) h₁.mib)
        (le_trans (total_write_waiting f asked ask _) h₁.cpus)
      exact hwrite.wait hask hf hown
  · simp at h

theorem Inv.tryAcquire {ask : Ask} (hl : l.Inv b) (hask : ask.Given b) (p : ℕ) (name : Name)
    (asked : ℕ) (disk : Disk) : (l.tryAcquire p name ask asked disk).1.Inv b := by
  have htally : (l.tally (some name) asked).2.Inv b := hl.shrink (Shrinks.tally l _ _)
  unfold Ledger.tryAcquire
  split
  · exact hl
  · simp only
    split_ifs with hblocked hreserved
    · exact htally
    · exact htally
    · have hnone := isSome_eq_false_iff.mp (by simpa using hblocked)
      obtain ⟨hmib, hcpus⟩ := fits_of_blocker_eq_none hl hask (isNone_iff_eq_none.mp hnone)
      rcases hopen : (l.tally (some name) asked).2.openShared p name with ⟨f, l₁⟩
      obtain ⟨h₁, hname, hf, hown, -⟩ := htally.openShared hopen
      obtain ⟨hdir, hfiles, -⟩ := openShared_spec hopen
      have htotal : ∀ size, (l₁.write f (ask.entry asked true)).total size ≤
          l.otherTotal name size + size (ask.entry asked true) := by
        intro size
        have hle : (l₁.write f (ask.entry asked true)).total size ≤ l.otherTotal name size +
            (l₁.dir.lookup name).elim 0 ((l₁.write f (ask.entry asked true)).weight size) := by
          apply total_le_otherTotal
          intro n g hne hg
          have hgf : g ≠ f := by
            rintro rfl
            exact hne (hown n hg)
          change l₁.dir.lookup n = some g at hg
          rw [hdir, if_neg hne] at hg
          obtain ⟨hold, hlive⟩ := lookup_tally asked hg
          refine ⟨hold, by simpa [hne] using hlive, ?_⟩
          rw [weight_write, if_neg hgf, weight, hfiles]
          exact le_rfl
        rw [hname, elim_some, weight_write, if_pos rfl] at hle
        exact hle
      exact h₁.write hf (le_trans (htotal _) hmib) (le_trans (htotal _) hcpus)

theorem lookup_rename {id job : String} (h : l.rename id job = some l') :
    ∃ file, l.dir.lookup (.reservation id) = some file ∧ l' = { l with dir := l'.dir } ∧
      l'.dir.lookup (.job job) = some file ∧
      ∀ n f, n ≠ .job job → l'.dir.lookup n = some f → n ≠ .reservation id ∧ l.dir.lookup n = some f := by
  obtain ⟨dir, hdir, h⟩ := bind_eq_some_iff.mp h
  obtain ⟨file, hfile, h⟩ := bind_eq_some_iff.mp h
  cases h
  have hsub : ∀ n f, dir.lookup n = some f → l.dir.lookup n = some f := by
    intro n f hf
    unfold clearTarget at hdir
    split at hdir
    · split at hdir
      · simp at hdir
      · cases hdir
        exact lookup_of_lookup_erase hf
    · cases hdir
      exact hf
  refine ⟨file, hsub _ _ hfile, rfl, lookup_insert _, fun n f hne hf => ?_⟩
  rw [lookup_insert_ne hne, lookup_erase_ite] at hf
  split at hf
  · simp at hf
  · rename_i hid
    exact ⟨hid, hsub n f hf⟩

/-- A reservation that becomes a job's entry stays one claim. -/
theorem Inv.rename {id job : String} (hl : l.Inv b) (h : l.rename id job = some l') : l'.Inv b := by
  obtain ⟨file, hfile, hsame, hjob, hothers⟩ := lookup_rename h
  have hweight : ∀ size g, l'.weight size g = l.weight size g := by
    intro size g
    rw [hsame]
    rfl
  have htotal : ∀ size, l'.total size ≤ l.total size := by
    intro size
    have hsplit := sum_erase_add_valueAt (fun _ f => l.weight size f) l.dir (.reservation id)
    have hrest : l'.total size ≤ Table.sum (fun _ f => l.weight size f) (l.dir.erase (.reservation id)) +
          l'.dir.valueAt (fun _ f => l'.weight size f) (.job job) := by
      apply sum_le_add_valueAt (Name.job job)
      intro n f hne hf
      obtain ⟨hid, hdir⟩ := hothers n f hne hf
      exact ⟨f, by rw [lookup_erase_ne hid, hdir], (hweight size f).le⟩
    rw [valueAt, hjob, elim_some, hweight] at hrest
    rw [valueAt, hfile, elim_some] at hsplit
    exact le_trans hrest hsplit.le
  have hwaiting : l'.waiting = l.waiting := by rw [hsame]
  have hnext : l'.nextFile = l.nextFile := by rw [hsame]
  have hlines : l'.files = l.files := by rw [hsame]
  refine ⟨le_trans (htotal _) hl.mib, le_trans (htotal _) hl.cpus, ?_, ?_, ?_, ?_, ?_, ?_⟩
  · intro p w hw
    exact hl.given p w (hwaiting ▸ hw)
  · intro p w hw n hn
    rw [hwaiting] at hw
    by_cases hne : n = .job job
    · rw [hne, hjob] at hn
      have habsurd := hl.own p w hw (.reservation id) (hfile.trans hn)
      simp at habsurd
    · exact hl.own p w hw n (hothers n _ hne hn).2
  · intro n n' f hn hn'
    by_cases hne : n = .job job <;> by_cases hne' : n' = .job job
    · rw [hne, hne']
    · obtain ⟨hid, hdir⟩ := hothers n' f hne' hn'
      rw [hne, hjob] at hn
      exact absurd (hl.oneName n' _ f hdir (hfile.trans hn)) hid
    · obtain ⟨hid, hdir⟩ := hothers n f hne hn
      rw [hne', hjob] at hn'
      exact absurd (hl.oneName n _ f hdir (hfile.trans hn')) hid
    · exact hl.oneName n n' f (hothers n f hne hn).2 (hothers n' f hne' hn').2
  · intro n f hf
    rw [hnext]
    by_cases hne : n = .job job
    · rw [hne, hjob] at hf
      exact hl.linked _ f (hfile.trans hf)
    · exact hl.linked n f (hothers n f hne hf).2
  · intro p w hw
    rw [hnext]
    exact hl.waited p w (hwaiting ▸ hw)
  · intro f e he
    rw [hnext]
    exact hl.lines f e (hlines ▸ he)

end Ledger

end

/-!
## Host admission never over-commits

Every step keeps the ledger's invariant, so in every reachable ledger the live granted entries hold
at most the host's budgets of memory and vCPUs.
-/

section

namespace Ledger

variable {b : Budgets} {l l' : Ledger}

/-- What the live granted entries hold of a resource. -/
def liveTotal (l : Ledger) (size : Entry → ℕ) : ℕ :=
  l.dir.sum fun _ f => if l.locked f then l.weight size f else 0

theorem liveTotal_le_total (size : Entry → ℕ) : l.liveTotal size ≤ l.total size := by
  apply sum_le_of_lookup
  intro n f hf
  refine ⟨f, hf, ?_⟩
  split
  · exact le_rfl
  · exact Nat.zero_le _

/-- Every action keeps a ledger within its budgets. -/
theorem Inv.step {a : Action} (hl : l.Inv b) (h : l.step b a = some l') : l'.Inv b := by
  have hdrop : ∀ locks : List (ℕ × ℕ), { l with locks := locks }.Inv b := fun locks =>
    hl.shrink (Shrinks.of_dir l.dir locks l.waiting (fun _ _ h => h) fun _ _ h => h)
  cases a with
  | acquire p job ask asked disk =>
    simp only [Ledger.step] at h
    split at h
    · rename_i hguard
      exact hl.acquire hguard.1 h
    · simp at h
  | acquirePass p disk =>
    obtain ⟨w, hw, rfl⟩ := map_eq_some_iff.mp h
    exact hl.acquirePass hw disk
  | acquireTimeout p =>
    obtain ⟨w, hw, h⟩ := bind_eq_some_iff.mp h
    cases h
    exact hl.shrink (Shrinks.of_dir _ _ _ (fun _ _ h => lookup_of_lookup_erase h) fun _ _ h => lookup_of_lookup_erase h)
  | tryAcquire p name ask asked disk =>
    simp only [Ledger.step] at h
    split at h
    · rename_i hask
      cases h
      exact hl.tryAcquire hask p name asked disk
    · simp at h
  | hold p job =>
    obtain ⟨f, hf, h⟩ := bind_eq_some_iff.mp h
    cases h
    exact hdrop _
  | rename id job => exact hl.rename h
  | release name =>
    cases h
    exact hl.shrink (Shrinks.of_dir _ l.locks l.waiting (fun _ _ h => lookup_of_lookup_erase h) fun _ _ h => h)
  | place p file name node => exact hl.shrink (Shrinks.place h)
  | inherit p q file =>
    simp only [Ledger.step, Ledger.inherit] at h
    split at h
    · cases h
      exact hdrop _
    · simp at h
  | close p file =>
    simp only [Ledger.step, Ledger.close] at h
    split at h
    · split at h
      · simp at h
      · cases h
        exact hdrop _
    · cases h
      exact hdrop _
  | die p =>
    cases h
    exact hl.shrink (Shrinks.of_dir l.dir _ _ (fun _ _ h => h) fun _ _ h => lookup_of_lookup_erase h)
  | reap =>
    cases h
    exact hl.shrink (Shrinks.tally l none 0)

theorem Inv.of_reachable (h : (ledgers b).Reachable l) : l.Inv b := by
  refine System.Reachable.invariant ?_ ?_ h
  · rintro l₀ rfl
    have hzero : ∀ size, Ledger.total {} size = 0 := fun _ => rfl
    refine ⟨?_, ?_, ?_, ?_, ?_, ?_, ?_, ?_⟩ <;> simp [hzero]
  · intro l₁ a l₂ h₁ hstep
    exact h₁.step hstep

end Ledger

/-- In every reachable state of a host whose processes are all given the same budgets, what the live
granted entries hold is within the memory budget and within the vCPU budget. -/
theorem liveGrants_within_budgets {b : Budgets} {l : Ledger} (h : (ledgers b).Reachable l) :
    l.liveTotal Entry.wantMib ≤ b.mib ∧ l.liveTotal Entry.vcpus ≤ b.cpus := by
  have hinv := Ledger.Inv.of_reachable h
  exact ⟨le_trans (Ledger.liveTotal_le_total _) hinv.mib, le_trans (Ledger.liveTotal_le_total _) hinv.cpus⟩

/-- A host of two GiB and four vCPUs. -/
private def smallHost : Budgets := ⟨2048, 4, by decide, by decide, by decide⟩

/-- An ask for the given memory and vCPUs of that host. -/
private def smallAsk (mib cpus : ℕ) : Ask := ⟨some ⟨mib, 2048⟩, none, some ⟨cpus, 4⟩⟩

/-- The bound where a reservation was granted, renamed to a job that took it over for more, while
another job holds the rest. -/
theorem liveGrants_within_budgets_taken_over : ∃ l, System.exec (Ledger.step smallHost) {}
      [.tryAcquire 0 (.reservation "r") (smallAsk 512 1) 1 ⟨0, 0, fun _ => 0⟩,
        .tryAcquire 1 (.job "7") (smallAsk 1024 2) 2 ⟨0, 0, fun _ => 0⟩,
        .rename "r" "8", .acquire 2 "8" (smallAsk 1024 2) 3 ⟨0, 0, fun _ => 0⟩,
        .acquirePass 2 ⟨0, 0, fun _ => 0⟩] = some l ∧
    l.liveTotal Entry.wantMib = 2048 ∧ l.liveTotal Entry.vcpus = 4 ∧
    l.liveTotal Entry.wantMib ≤ smallHost.mib ∧ l.liveTotal Entry.vcpus ≤ smallHost.cpus := by
  let l : Ledger :=
    { dir := (AList.singleton (.job "7") 1).insert (.job "8") 0
      files := (AList.singleton 1 ((smallAsk 1024 2).entry 2 true)).insert 0 ((smallAsk 1024 2).entry 1 true)
      locks := [(2, 0), (1, 1), (0, 0)]
      nextFile := 2 }
  refine ⟨l, ?run, by decide +kernel, by decide +kernel, liveGrants_within_budgets (System.reachable_of_exec rfl ?run)⟩
  decide +kernel

end

/-!
## Host admission is oldest-first

An ask is granted only by a pass that counted nobody ahead. So at every grant of every run no other
live entry of the ledger waits with an earlier request time: a later small ask does not pass an
earlier large one. An acquisition that takes a granted reservation over stays recorded as granted,
with the reservation's request time, while it waits for what it needs beyond the reservation.
-/

variable {b : Budgets} {l l' : Ledger}

/-- The step turns an ask under the name, made at the given time, from pending to granted. -/
def Ledger.GrantsBy (l : Ledger) (name : Name) (asked : ℕ) : Action → Prop
  | .acquirePass p disk => ∃ w, l.waiting.lookup p = some w ∧ name = .job w.job ∧ asked = w.asked ∧
      (l.acquirePass p w disk).2 = none
  | .tryAcquire p n ask t disk => name = n ∧ asked = t ∧
      ∃ file, (l.tryAcquire p n ask t disk).2 = .reserved file
  | _ => False

/-- An entry of the ledger that a process holds and that is not granted. -/
def Ledger.Pending (l : Ledger) (name : Name) (e : Entry) : Prop :=
  ∃ f, l.dir.lookup name = some f ∧ l.locked f = true ∧ l.files.lookup f = some e ∧ e.granted = false

theorem Ledger.asked_le_of_blocker_eq_none {own n : Name} {ask : Ask} {disk : Disk}
    {e : Entry} (h : (Pass.ofHeld ask (l.tally (some own) asked).1 disk).blocker = none)
    (hne : n ≠ own) (hpending : l.Pending n e) : asked ≤ e.asked := by
  obtain ⟨-, -, hahead⟩ := Pass.of_blocker_eq_none h
  obtain ⟨f, hdir, hlocked, hfile, hwaits⟩ := hpending
  exact asked_le_of_tally_ahead hahead hne hdir hlocked hfile hwaits

theorem Ledger.GrantsBy.blocker_eq_none {name : Name} {a : Action} (h : l.GrantsBy name asked a) : ∃ ask disk,
      (Pass.ofHeld ask (l.tally (some name) asked).1 disk).blocker = none := by
  cases a with
  | acquirePass p disk =>
    obtain ⟨w, -, rfl, rfl, hnone⟩ := h
    refine ⟨w.ask, disk, ?_⟩
    unfold Ledger.acquirePass at hnone
    simp only at hnone
    split at hnone
    · assumption
    · simp at hnone
  | tryAcquire p n ask t disk =>
    obtain ⟨rfl, rfl, file, hreserved⟩ := h
    refine ⟨ask, disk, ?_⟩
    unfold Ledger.tryAcquire at hreserved
    split at hreserved
    · simp at hreserved
    · simp only at hreserved
      split_ifs at hreserved with hblocked hheld
      · simpa using hblocked
  | _ => exact h.elim

/-- At a grant under a name, a step leaves the entries under other names and their holders as the
tally left them. -/
theorem Ledger.GrantsBy.pending_before {name n : Name} {a : Action} {e : Entry}
    (hl : l.Inv b) (h : l.GrantsBy name asked a) (hstep : l.step b a = some l') (hne : n ≠ name)
    (hpending : l'.Pending n e) : l.Pending n e := by
  obtain ⟨f, hdir, hlocked, hfile, hwaits⟩ := hpending
  cases a with
  | acquirePass p disk =>
    obtain ⟨w, hw, rfl, rfl, hnone⟩ := h
    obtain ⟨w', hw', rfl⟩ := map_eq_some_iff.mp hstep
    obtain rfl := some.inj (hw.symm.trans hw')
    unfold Ledger.acquirePass at hnone hdir hlocked hfile
    simp only at hnone hdir hlocked hfile
    split at hnone
    · rename_i hblock
      simp only [hblock] at hdir hlocked hfile
      have hold := (lookup_tally w.asked hdir).1
      have hne' : f ≠ w.file := fun heq => hne (hl.own p w hw n (heq ▸ hold))
      refine ⟨f, hold, hlocked, ?_, hwaits⟩
      rwa [Ledger.write, lookup_insert_ne hne'] at hfile
    · simp at hnone
  | tryAcquire p nm ask t disk =>
    obtain ⟨rfl, rfl, file, hreserved⟩ := h
    simp only [Ledger.step] at hstep
    split at hstep
    · cases hstep
      unfold Ledger.tryAcquire at hreserved hdir hlocked hfile
      split at hreserved
      · simp at hreserved
      · rename_i hsize
        simp only [hsize] at hreserved hdir hlocked hfile
        split_ifs at hreserved hdir hlocked hfile with hblocked hheld
        have htally : (l.tally (some name) asked).2.Inv b := hl.shrink (Shrinks.tally l _ _)
        rcases hopen : (l.tally (some name) asked).2.openShared p name with ⟨g, l₁⟩
        obtain ⟨-, -, -, hown, -⟩ := htally.openShared hopen
        obtain ⟨hdirs, hfiles, -⟩ := openShared_spec hopen
        rw [hopen] at hdir hlocked hfile
        have hgf : f ≠ g := fun heq => hne (hown n (heq ▸ hdir))
        change l₁.dir.lookup n = some f at hdir
        rw [hdirs, if_neg hne] at hdir
        obtain ⟨hold, hlive⟩ := lookup_tally asked hdir
        refine ⟨f, hold, by simpa [hne] using hlive, ?_, hwaits⟩
        rwa [Ledger.write, lookup_insert_ne hgf, hfiles] at hfile
    · simp at hstep
  | _ => exact h.elim

/-- A filesystem that plays no part. -/
private def noDisk : Disk := ⟨0, 0, fun _ => 0⟩

private def memory (mib : ℕ) : Ask := ⟨some ⟨mib, 2048⟩, none, none⟩

/-- A ledger on which a large and a later small ask wait, and the job they waited for is gone. -/
private def contended : Ledger :=
  { dir := ((AList.singleton (.job "7") 0).insert (.job "8") 1).insert (.job "9") 2
    files := ((AList.singleton 0 ((memory 1536).entry 1 true)).insert 1
      ((memory 2048).entry 2 false)).insert 2 ((memory 256).entry 3 false)
    locks := [(2, 2), (1, 1)]
    waiting := (AList.singleton 1 ⟨"8", 1, memory 2048, 2⟩).insert 2 ⟨"9", 2, memory 256, 3⟩
    nextFile := 3 }

/-- A ledger on which job 8 took a granted reservation of 512 MiB over and waits for 1536. -/
private def takenOver : Ledger :=
  { dir := (AList.singleton (.job "7") 1).insert (.job "8") 0
    files := (AList.singleton 0 ((memory 512).entry 1 true)).insert 1 ((memory 1024).entry 2 true)
    locks := [(2, 0), (1, 1), (0, 0)]
    waiting := AList.singleton 2 ⟨"8", 0, memory 1536, 1⟩
    nextFile := 2 }

end Virtkit.Admit
