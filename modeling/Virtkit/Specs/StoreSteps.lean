import Virtkit.Specs.Store

/-!
# What the writes leave of the stored specs

A submission adds one spec, past every place there is while sequences are left. Trimming takes a place
away only with its job, and a job only with its spec. Packing specs again keeps what they unpack to, and
a dictionary that is dropped is one no spec the write looked at names.
-/

namespace Virtkit.Specs

open Virtkit.Common Virtkit.Jobs List Option Table

variable {value : Bytes}

namespace Store

variable {z : Zstd} {s s' : Store}

/-- A job's place in the history, and its record. -/
def Places (s : Store) (seq : ℕ) (id : String) : Prop :=
  s.order.lookup seq = some id ∧ s.db.jobs.lookup id ≠ none

/-- What is stored unpacks to the spec, with dictionaries that are there. -/
theorem specToStore_spec {spec packed : Bytes} {dicts : ℕ → Option Bytes}
    (h : s.specToStore z spec packed = some value) (hpacked : unpackStored z packed dicts = some spec) :
    unpackStored z value dicts = some spec ∧ ∀ id, dictOf value = some id → s.dicts.lookup id ≠ none := by
  unfold specToStore at h
  split at h
  · rename_i id hid
    split_ifs at h with hgone
    · refine ⟨unpackStored_pack h dicts, fun id' hid' => ?_⟩
      nomatch (dictOf_pack h).symm.trans hid'
    · cases h
      refine ⟨hpacked, fun id' hid' => ?_⟩
      obtain rfl := some.inj (hid.symm.trans hid')
      exact hgone
  · rename_i hid
    cases h
    exact ⟨hpacked, fun id' hid' => nomatch hid.symm.trans hid'⟩

variable {id : String}

theorem submitJob_spec {digest : String} {row : JobRow} {spec packed : Bytes} {now : ℕ}
    {result : Submitted × Store} (h : s.submitJob z id row digest spec packed now = some result) :
    result.1 ≠ .new ∧ result.2 = s ∨
    result.1 = .new ∧ ∃ value db, s.specToStore z spec packed = some value ∧ db.jobs = s.db.jobs.insert id row ∧
      result.2 = { s with
        db := db
        specs := s.specs.insert id value
        order := s.order.insert s.nextSeq id } := by
  obtain ⟨value, hvalue, rfl⟩ := map_eq_some_iff.mp h
  have hcases := s.db.submitJob_cases id row digest now
  rcases hsubmit : s.db.submitJob id row digest now with ⟨before, db⟩
  rw [hsubmit] at hcases
  cases before with
  | new =>
    obtain ⟨-, -, -, hdb⟩ := hcases.resolve_left fun h => h.1 rfl
    exact .inr ⟨rfl, value, db, hvalue, congrArg Db.jobs hdb, rfl⟩
  | _ => exact .inl ⟨nofun, rfl⟩

section Order

theorem lt_nextSeq {seq : ℕ} (hseq : s.order.lookup seq = some id) (hleft : seq < u64Max) : seq < s.nextSeq := by
  unfold nextSeq reached
  cases hlast : s.order.last with
  | none => nomatch (lookup_of_last_none hlast seq).symm.trans hseq
  | some e =>
    have hle : seq ≤ e.1 := le_of_last hlast hseq
    rw [elim_some, satAdd]
    omega

end Order

section Prune

variable {jobs : Table String JobRow} {now : ℕ}

theorem mem_trim {seq : ℕ} {entries : List (ℕ × String)} {excess budget : ℕ}
    (h : seq ∈ (trim jobs now entries excess budget).1) :
    ∃ id, (seq, id) ∈ entries ∧ (jobs.lookup id = none ∨ id ∈ (trim jobs now entries excess budget).2) := by
  induction entries generalizing excess budget with
  | nil => nomatch h
  | cons e rest ih =>
    obtain ⟨seq', id⟩ := e
    rw [trim] at h ⊢
    split_ifs at h ⊢ with hbounds
    · nomatch h
    · cases hrow : jobs.lookup id with
      | none =>
        rw [hrow] at h
        rcases mem_cons.mp h with rfl | h
        · exact ⟨id, mem_cons_self, .inl hrow⟩
        · obtain ⟨id', hmem, hid'⟩ := ih h
          exact ⟨id', mem_cons_of_mem _ hmem, hid'⟩
      | some row =>
        rw [hrow] at h
        dsimp only at h ⊢
        split_ifs at h ⊢ with hdrop
        · rcases mem_cons.mp h with rfl | h
          · exact ⟨id, mem_cons_self, .inr mem_cons_self⟩
          · obtain ⟨id', hmem, hid'⟩ := ih h
            exact ⟨id', mem_cons_of_mem _ hmem, hid'.imp_right (mem_cons_of_mem _)⟩
        · obtain ⟨id', hmem, hid'⟩ := ih h
          exact ⟨id', mem_cons_of_mem _ hmem, hid'⟩

theorem lookup_dropJobs_of_notMem (now : ℕ) (db : Db) {dropped : List String} (h : id ∉ dropped) :
    (dropped.foldl (Db.dropJob now) db).jobs.lookup id = db.jobs.lookup id := by
  induction dropped generalizing db with
  | nil => rfl
  | cons first rest ih =>
    rw [mem_cons, not_or] at h
    rw [foldl_cons, ih _ h.2]
    unfold Db.dropJob
    cases db.jobs.lookup first with
    | none => rfl
    | some row =>
      dsimp only
      split_ifs
      · exact AList.lookup_erase_ne h.1
      · rfl

/-- A pruned store keeps the place of each spec it keeps. -/
theorem pruneJobs_specs {keep : ℕ} (h : (s.pruneJobs now keep).specs.lookup id = some value) :
    s.specs.lookup id = some value ∧ ∀ seq, s.Places seq id → (s.pruneJobs now keep).Places seq id := by
  have hspecs := h
  unfold pruneJobs pruneJobsScanning at hspecs
  dsimp only at hspecs
  rw [lookup_retain, filter_eq_some_iff, Bool.and_eq_true, decide_eq_true_eq] at hspecs
  obtain ⟨hvalue, hdropped, -⟩ := hspecs
  refine ⟨hvalue, fun seq hseq => ⟨?_, ?_⟩⟩
  · unfold pruneJobs pruneJobsScanning
    dsimp only
    rw [lookup_retain, filter_eq_some_iff, decide_eq_true_eq]
    refine ⟨hseq.1, fun hmem => ?_⟩
    obtain ⟨id', hmem', hid'⟩ := mem_trim hmem
    obtain rfl := some.inj (hseq.1.symm.trans (mem_sorted.mp hmem'))
    exact hid'.elim hseq.2 hdropped
  · have hkept := lookup_dropJobs_of_notMem now s.db hdropped
    unfold pruneJobs pruneJobsScanning Db.pruneJobs
    dsimp only
    rcases Db.lookup_expireJobs now _ _ id with hexp | ⟨row, t, -, -, hexp⟩
    · rw [hexp, hkept]
      exact hseq.2
    · rw [hexp]
      exact some_ne_none _

theorem pruneJobs_order {keep seq : ℕ}
    (h : (s.pruneJobs now keep).order.lookup seq = some id) : s.order.lookup seq = some id := by
  unfold pruneJobs pruneJobsScanning at h
  dsimp only at h
  rw [lookup_retain, filter_eq_some_iff] at h
  exact h.1

end Prune

section Packing

variable {c : Current} {id : String} {value : Bytes}

theorem mem_packing {maxSpecs scan : ℕ} {entries acc packed : List (String × Bytes)}
    {last next : Option String} (h : packing z c maxSpecs entries scan acc last = some (packed, next))
    (hmem : (id, value) ∈ packed) : (id, value) ∈ acc ∨ ∃ stored spec, (id, stored) ∈ entries ∧
      unpackStored z stored (fun _ => none) = some spec ∧ packWith z spec c.id c.dict = some value := by
  induction entries generalizing scan acc last with
  | nil =>
    cases scan with
    | zero | succ scan =>
      obtain ⟨rfl, -⟩ := Prod.mk.inj (some.inj h)
      exact .inl hmem
  | cons e rest ih =>
    obtain ⟨id', stored⟩ := e
    have hrest : ∀ {scan acc last}, packing z c maxSpecs rest scan acc last = some (packed, next) →
        (id, value) ∈ acc ∨ ∃ stored' spec, (id, stored') ∈ (id', stored) :: rest ∧
          unpackStored z stored' (fun _ => none) = some spec ∧
          packWith z spec c.id c.dict = some value := by
      intro scan acc last h
      refine (ih h).imp_right ?_
      rintro ⟨stored', spec, hstored, hspec⟩
      exact ⟨stored', spec, mem_cons_of_mem _ hstored, hspec⟩
    cases scan with
    | zero =>
      obtain ⟨rfl, -⟩ := Prod.mk.inj (some.inj h)
      exact .inl hmem
    | succ scan =>
      rw [packing] at h
      split_ifs at h with hfull hdict
      · obtain ⟨rfl, -⟩ := Prod.mk.inj (some.inj h)
        exact .inl hmem
      · exact hrest h
      · split at h
        · exact hrest h
        · rename_i spec hspec
          split at h
          · nomatch h
          · rename_i value' hvalue
            rcases hrest h with hacc | hnew
            · refine (mem_append.mp hacc).imp_right fun heq => ?_
              obtain ⟨rfl, rfl⟩ := Prod.mk.inj (mem_singleton.mp heq)
              exact ⟨stored, spec, mem_cons_self, hspec, hvalue⟩
            · exact .inr hnew

theorem lookup_repack {packed : List (String × Bytes)} {specs : Table String Bytes}
    (h : (packed.foldl repack specs).lookup id = some value) :
    specs.lookup id = some value ∨ (id, value) ∈ packed ∧ specs.lookup id ≠ none := by
  induction packed generalizing specs with
  | nil => exact .inl h
  | cons e rest ih =>
    have hone : ∀ v, (repack specs e).lookup id = some v →
        specs.lookup id = some v ∨ (id, v) = e ∧ specs.lookup id ≠ none := by
      intro v hv
      unfold repack at hv
      split at hv
      · rename_i stored hstored
        split_ifs at hv
        · rw [lookup_insert_ite] at hv
          split_ifs at hv with hid
          · cases hv
            subst hid
            exact .inr ⟨rfl, hstored ▸ some_ne_none stored⟩
          · exact .inl hv
        · exact .inl hv
      · exact .inl hv
    rcases ih h with hrest | ⟨hrest, hthere⟩
    · refine (hone value hrest).imp_right fun hnew => ⟨?_, hnew.2⟩
      exact hnew.1 ▸ mem_cons_self
    · obtain ⟨v, hv⟩ := ne_none_iff_exists'.mp hthere
      refine .inr ⟨mem_cons_of_mem _ hrest, ?_⟩
      rcases hone v hv with hold | hnew
      · exact hold ▸ some_ne_none v
      · exact hnew.2

end Packing

section Dropping

variable {candidates : List ℕ} {last : Option (ℕ × String)}

variable {dict : ℕ}

theorem names_of_lookup (h : s.specs.lookup id = some value) (hdict : dictOf value = some dict) : s.names dict = true :=
  any_eq_true.mpr ⟨⟨id, value⟩, AList.mem_lookup_iff.mp h, decide_eq_true hdict⟩

theorem not_names_of_listed (h : dict ∈ s.unusedSpecDicts.1) : s.names dict = false := by
  unfold unusedSpecDicts at h
  split_ifs at h
  · nomatch h
  · split at h
    · nomatch h
    · have htest := (mem_filter.mp h).2
      simpa using ((Bool.and_eq_true _ _).mp htest).2

theorem lookup_of_listed {seq : ℕ} (h : s.unusedSpecDicts.2 = some (seq, id)) : s.order.lookup seq = some id := by
  unfold unusedSpecDicts at h
  split_ifs at h
  split at h
  · nomatch h
  · exact lookup_of_last h

/-- A dictionary stays if it is no candidate, or was named since. -/
theorem lookup_dropSpecDicts {e : ℕ × Bytes} (h : s.dicts.lookup dict = some e)
    (hkept : dict ∈ candidates → s.namedSince last dict = true) :
    (s.dropSpecDicts candidates last).2.dicts.lookup dict = some e := by
  unfold dropSpecDicts
  dsimp only
  rw [lookup_retain, filter_eq_some_iff, decide_eq_true_eq]
  refine ⟨h, fun hmem => ?_⟩
  obtain ⟨hcand, htest⟩ := mem_filter.mp hmem
  rw [hkept hcand] at htest
  nomatch htest

theorem namedSince_last {e : ℕ × Bytes} (h : s.dicts.last = some (dict, e)) : s.namedSince last dict = true := by
  unfold namedSince
  rw [h]
  simp

/-- A dictionary that a later spec names was named since. -/
theorem namedSince_of_place {seq : ℕ} (hseq : s.order.lookup seq = some id) (hspec : s.specs.lookup id = some value)
    (hdict : dictOf value = some dict)
    (hpast : ∀ seq' id', last = some (seq', id') → s.order.lookup seq' = some id' → seq' < seq) :
    s.namedSince last dict = true := by
  unfold namedSince
  rw [Bool.or_eq_true]
  right
  cases hsince : s.since last with
  | none => exact names_of_lookup hspec hdict
  | some since =>
    have hle : since ≤ seq := by
      unfold Store.since at hsince
      split at hsince
      · rename_i seq' id'
        split_ifs at hsince with hplace
        cases hsince
        have hlt := hpast seq' id' rfl hplace
        rw [satAdd]
        omega
      · cases hsince
        exact Nat.zero_le _
    refine any_eq_true.mpr ⟨(seq, id), mem_sorted.mpr hseq, ?_⟩
    rw [Bool.and_eq_true]
    exact ⟨decide_eq_true hle, decide_eq_true (by rw [hspec]; exact hdict)⟩

end Dropping

end Store

namespace SpecDicts

variable {z : Zstd} {t : Training} {s : Store} {m : SpecDicts}

theorem lookup_unpacked {dicts : Table ℕ (ℕ × Bytes)} {id : ℕ} {dict : Bytes}
    (h : (m.unpacked dicts value).decoders.lookup id = some dict) :
    m.decoders.lookup id = some dict ∨ ∃ n, dicts.lookup id = some (n, dict) := by
  unfold unpacked at h
  cases hid : dictOf value with
  | none => exact .inl (by rwa [hid] at h)
  | some id' =>
    rw [hid, elim_some] at h
    unfold specDecoder at h
    split at h
    · exact .inl h
    · split at h
      · exact .inl h
      · rename_i n dict' hdict
        unfold keep at h
        split_ifs at h
        · exact .inl h
        · rw [lookup_insert_ite] at h
          split_ifs at h with heq
          · cases h
            exact .inr ⟨n, heq ▸ hdict⟩
          · exact .inl h

theorem current_unpacked (m : SpecDicts) (dicts : Table ℕ (ℕ × Bytes)) (value : Bytes) :
    (m.unpacked dicts value).current = m.current := by
  unfold unpacked
  cases dictOf value with
  | none => rfl
  | some id =>
    rw [elim_some, specDecoder]
    split
    · rfl
    · split
      · rfl
      · rw [keep]
        split_ifs <;> rfl

theorem takeSamples_mem {P : SpecDicts → Prop} (hP : ∀ m value, P m → P (m.unpacked s.dicts value))
    (entries : List (ℕ × String)) (m : SpecDicts) (samples : List Bytes) (bytes : ℕ) (hm : P m) :
    P (takeSamples z t s entries m samples bytes).2 := by
  induction entries generalizing m samples bytes with
  | nil => exact hm
  | cons e rest ih =>
    rw [takeSamples]
    split_ifs
    · exact hm
    · split
      · exact ih _ _ _ hm
      · split
        · exact ih _ _ _ (hP _ _ hm)
        · dsimp only
          split_ifs
          · exact hP _ _ hm
          · exact ih _ _ _ (hP _ _ hm)

end SpecDicts

end Virtkit.Specs
