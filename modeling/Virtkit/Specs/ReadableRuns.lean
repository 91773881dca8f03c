import Virtkit.Specs.ReadableSteps

/-!
# Specs stay readable in every run

Every step of the maintenance task keeps the invariant, and with the other steps so does every run while
sequences are left for the history.
-/

namespace Virtkit.Specs.Archive

open Virtkit.Common Virtkit.Jobs Option Table

variable {z : Zstd} {t : Training} {s s' : Archive}

section Tasks

section

variable (h : s.Sound z)
include h

theorem Sound.sampled (entries : List (ℕ × String)) (next : ℕ) : Sound z { s with
      mem := (SpecDicts.takeSamples z t s.store entries s.mem [] 0).2
      task := .training next (SpecDicts.takeSamples z t s.store entries s.mem [] 0).1 } := by
  have hmem := SpecDicts.takeSamples_mem (z := z) (t := t) (s := s.store)
    (P := fun m => (∀ id dict, m.decoders.lookup id = some dict → s.trained.lookup id = some dict) ∧
      m.current = s.mem.current) (fun m value hm => ⟨fun id dict hdict => ?_, ?_⟩) entries s.mem [] 0
    ⟨h.decoders, rfl⟩
  · exact { h with decoders := hmem.1, current := fun c hc => h.current c (hmem.2 ▸ hc), task := trivial }
  · rcases SpecDicts.lookup_unpacked hdict with hold | ⟨n, hnew⟩
    · exact hm.1 id dict hold
    · exact h.dicts id n dict hnew
  · exact (SpecDicts.current_unpacked m s.store.dicts value).trans hm.2

theorem Sound.packing {c : Current} (hc : s.mem.current = some c) {after next : Option String}
    {maxSpecs maxScan : ℕ} {packed : List (String × Bytes)}
    (hpacked : s.store.packSpecsRead z c after maxSpecs maxScan = some (packed, next)) :
    Sound z { s with task := .packing c packed } := by
  have htrained := h.current c hc
  obtain ⟨last, e, -, hle, hbound⟩ := h.newest _ _ htrained
  refine { h with task := fun id value hmem => ?_ }
  rcases Store.mem_packing hpacked hmem with hnil | ⟨stored, spec, hstored, hspec, hvalue⟩
  · nomatch hnil
  · have hlookup := mem_sorted.mp (List.mem_of_mem_filter hstored)
    obtain ⟨spec', hsubmitted, hspec'⟩ := h.specs id stored hlookup
    have hsame : unpackStored z stored s.trained.lookup = some spec :=
      unpackStored_mono (fun _ _ _ hnone => absurd hnone (some_ne_none _).symm) hspec
    obtain rfl := some.inj (hsame.symm.trans hspec')
    exact ⟨⟨spec, hsubmitted, unpackStored_packWith hvalue (hle.trans hbound) htrained⟩,
      dictOf_packWith hvalue (hle.trans hbound)⟩

theorem Sound.listed : Sound z { s with task := .listed s.store.unusedSpecDicts.1 s.store.unusedSpecDicts.2 } := by
  refine { h with task := ⟨fun seq id hlast => ?_, fun id value dict hvalue hdict hmem => ?_⟩ }
  · exact h.placed.1 seq id (Store.lookup_of_listed hlast)
  · have hnamed := Store.names_of_lookup hvalue hdict
    rw [Store.not_names_of_listed hmem] at hnamed
    nomatch hnamed

theorem Sound.newest_of {dicts : Table ℕ (ℕ × Bytes)} (hbound : ∀ id e, dicts.lookup id = some e → id ≤ u32Max)
    (hlast : ∀ last e, s.store.dicts.last = some (last, e) → dicts.lookup last = some e) {id : ℕ}
    {dict : Bytes} (htrained : s.trained.lookup id = some dict) :
    ∃ last e, dicts.last = some (last, e) ∧ id ≤ last ∧ last ≤ u32Max := by
  obtain ⟨last, e, hfound, hle, -⟩ := h.newest id dict htrained
  obtain ⟨last', e', hfound', hle'⟩ := exists_last (hlast last e hfound)
  exact ⟨last', e', hfound', hle.trans hle', hbound last' e' (lookup_of_last hfound')⟩

theorem Sound.bounded {id : ℕ} {e : ℕ × Bytes} (hdict : s.store.dicts.lookup id = some e) : id ≤ u32Max := by
  obtain ⟨last, e', -, hle, hbound⟩ := h.newest id e.2 (h.dicts id e.1 e.2 hdict)
  exact hle.trans hbound

/-- A new dictionary has an ID that none had. -/
theorem Sound.nextDict {id : ℕ} (hid : s.store.nextDict = some id) :
    id ≤ u32Max ∧ ∀ id' dict, s.trained.lookup id' = some dict → id' < id := by
  unfold Store.nextDict at hid
  split at hid
  · rename_i last e hlast
    split_ifs at hid with hlt
    cases hid
    refine ⟨hlt, fun id' dict htrained => ?_⟩
    obtain ⟨last', e', hlast', hle, -⟩ := h.newest id' dict htrained
    obtain ⟨rfl, -⟩ := Prod.mk.inj (some.inj (hlast.symm.trans hlast'))
    omega
  · rename_i hnone
    cases hid
    refine ⟨by decide, fun id' dict htrained => ?_⟩
    obtain ⟨last', e', hlast', -⟩ := h.newest id' dict htrained
    nomatch hnone.symm.trans hlast'

theorem Sound.trainedNew {id next : ℕ} {dict : Bytes} (hid : s.store.nextDict = some id) : Sound z { s with
      store := { s.store with dicts := s.store.dicts.insert id (next, dict) }
      trained := s.trained.insert id dict
      task := .trained ⟨id, next, dict⟩ } := by
  obtain ⟨hroom, hnew⟩ := h.nextDict hid
  have hgrows : Grows s.trained (s.trained.insert id dict) := fun id' dict' hdict' =>
    (AList.lookup_insert_ne (hnew id' dict' hdict').ne).trans hdict'
  have hbound : ∀ id' e, (s.store.dicts.insert id (next, dict)).lookup id' = some e → id' ≤ u32Max := by
    intro id' e he
    rw [lookup_insert_ite] at he
    split_ifs at he with heq
    · exact heq ▸ hroom
    · exact h.bounded he
  refine { h with
    dicts := fun id' n dict' hdict' => ?_
    newest := fun id' dict' hdict' => ?_
    decoders := fun id' dict' hdict' => hgrows _ _ (h.decoders id' dict' hdict')
    current := fun c hc => hgrows _ _ (h.current c hc)
    packed := fun p hp => unpackStored_mono (fun _ _ _ hx => hgrows _ _ hx) (h.packed p hp)
    named := fun id' value dict' hvalue hdict' => ?_
    specs := fun id' value hvalue => (h.specs id' value hvalue).mono (fun _ _ h => h) hgrows
    readers := fun r hr => (h.readers r hr).mono (fun _ _ h => h) hgrows
    task := AList.lookup_insert _ }
  · rw [lookup_insert_ite] at hdict' ⊢
    split_ifs at hdict' ⊢ with heq
    · exact congrArg some (Prod.mk.inj (some.inj hdict')).2
    · exact h.dicts id' n dict' hdict'
  · rw [lookup_insert_ite] at hdict'
    split_ifs at hdict' with heq
    · subst heq
      obtain ⟨last, e, hlast, hle⟩ := exists_last (t := s.store.dicts.insert id' (next, dict)) (AList.lookup_insert _)
      exact ⟨last, e, hlast, hle, hbound last e (lookup_of_last hlast)⟩
    · refine h.newest_of hbound (fun last e hlast => ?_) hdict'
      have hold := lookup_of_last hlast
      exact (AList.lookup_insert_ne (hnew last e.2 (h.dicts last e.1 e.2 hold)).ne).trans hold
  · rw [lookup_insert_ite]
    split_ifs
    · exact some_ne_none _
    · exact h.named id' value dict' hvalue hdict'

/-- Specs that are packed again are read as before. -/
theorem Sound.repacked {c : Current} {packed : List (String × Bytes)} (htask : s.task = .packing c packed) :
    Sound z { s with store := s.store.packSpecsWrite c packed, task := .idle } := by
  have hpacked := h.task
  rw [htask] at hpacked
  unfold Store.packSpecsWrite
  split_ifs with hgone
  · exact { h with task := trivial }
  · refine { h with named := fun id value dict hvalue hdict => ?_, specs := fun id value hvalue => ?_, task := trivial }
    · rcases Store.lookup_repack hvalue with hold | ⟨hmem, -⟩
      · exact h.named id value dict hold hdict
      · obtain rfl := some.inj ((hpacked id value hmem).2.symm.trans hdict)
        exact hgone
    · rcases Store.lookup_repack hvalue with hold | ⟨hmem, -⟩
      · exact h.specs id value hold
      · exact (hpacked id value hmem).1

/-- No dictionary is dropped that a spec still names. -/
theorem Sound.droppedDicts {candidates : List ℕ} {last : Option (ℕ × String)}
    (htask : s.task = .listed candidates last) (dropped : List ℕ) :
    Sound z { s with
      store := (s.store.dropSpecDicts candidates last).2
      task := .dropping dropped } := by
  have hlisted := h.task
  rw [htask] at hlisted
  have hsub : ∀ id e, (s.store.dropSpecDicts candidates last).2.dicts.lookup id = some e →
      s.store.dicts.lookup id = some e := by
    intro id e he
    unfold Store.dropSpecDicts at he
    rw [lookup_retain, filter_eq_some_iff] at he
    exact he.1
  refine { h with
    dicts := fun id n dict hdict => h.dicts id n dict (hsub id _ hdict)
    newest := fun id dict hdict => h.newest_of (fun id e he => h.bounded (hsub id e he))
      (fun newest e hnewest => ?_) hdict
    named := fun id value dict hvalue hdict => ?_
    task := trivial }
  · exact Store.lookup_dropSpecDicts (lookup_of_last hnewest) fun _ => Store.namedSince_last hnewest
  · obtain ⟨e, he⟩ := ne_none_iff_exists'.mp (h.named id value dict hvalue hdict)
    rw [Store.lookup_dropSpecDicts he fun hmem => ?_]
    · exact some_ne_none e
    · obtain ⟨seq, hplace, hpast⟩ := hlisted.2 id value dict hvalue hdict hmem
      exact Store.namedSince_of_place hplace.1 hvalue hdict hpast

theorem Sound.advance (hstep : s.advance z t = some s') : s'.Sound z := by
  unfold Archive.advance at hstep
  split at hstep
  · nomatch hstep
  · split at hstep
    · cases hstep
      exact { h with task := trivial }
    · split at hstep
      · cases hstep
        exact { h with task := trivial }
      · rename_i id hid
        cases hstep
        exact h.trainedNew hid
  · rename_i c htask
    cases hstep
    have hc := h.task
    rw [htask] at hc
    refine { h with current := fun c' hc' => ?_, task := trivial }
    cases hc'
    exact hc
  · rename_i c packed htask
    cases hstep
    exact h.repacked htask
  · rename_i candidates last htask
    cases hstep
    exact h.droppedDicts htask _
  · cases hstep
    refine { h with decoders := fun id dict hdict => ?_, task := trivial }
    rw [lookup_retain, filter_eq_some_iff] at hdict
    exact h.decoders id dict hdict.1

theorem Sound.stepTask {e : TaskEvent} (hstep : s.stepTask z t e = some s') : s'.Sound z := by
  cases e <;> simp only [Archive.stepTask] at hstep
  case train =>
    split at hstep
    · split_ifs at hstep
      · cases hstep
        exact h.sampled _ _
      · exact some.inj hstep ▸ h
    · nomatch hstep
  case pack after =>
    split at hstep
    · rename_i c _ hc
      cases hstep
      split
      · rename_i packed next hpacked
        exact h.packing hc hpacked
      · exact h
    · nomatch hstep
  case list =>
    split at hstep
    · cases hstep
      exact h.listed
    · nomatch hstep
  case advance => exact h.advance hstep
  case fail =>
    split at hstep
    · cases hstep
      exact { h with task := trivial }
    · cases hstep
      exact { h with task := trivial }
    · cases hstep
      exact { h with task := trivial }
    · nomatch hstep

end

end Tasks

/-- Every step keeps all specs readable. -/
theorem Sound.step (h : s.Sound z) (hroom : s.Room) {e : Event} (hstep : s.step z t e = some s') : s'.Sound z := by
  cases e with
  | pack id row digest spec now =>
    simp only [Archive.step] at hstep
    split_ifs at hstep with hid
    obtain ⟨packed, hpacked, rfl⟩ := map_eq_some_iff.mp hstep
    exact h.submission hid hpacked
  | store k =>
    obtain ⟨p, hp, hstep⟩ := bind_eq_some_iff.mp hstep
    obtain ⟨result, hresult, rfl⟩ := map_eq_some_iff.mp hstep
    unfold storeSubmission
    rcases Store.submitJob_spec hresult with ⟨hbefore, hsame⟩ | ⟨hnew, value, db, hvalue, hjobs, hstore⟩
    · rw [hsame, if_neg hbefore]
      exact h.answered hp
    · rw [hstore, if_pos hnew]
      exact h.stored hroom hp hvalue hjobs
  | lose k => exact some.inj hstep ▸ h.lose k
  | put id row => exact some.inj hstep ▸ h.written fun id' hid' => lookup_putJob_ne_none row hid'
  | request key row =>
    refine some.inj hstep ▸ h.written fun id' hid' => ?_
    rw [(Db.recordRequest_frame s.store.db key row).1]
    exact hid'
  | prune now keep => exact some.inj hstep ▸ h.prune now keep
  | view id =>
    obtain ⟨value, hvalue, rfl⟩ := map_eq_some_iff.mp hstep
    exact h.view hvalue
  | fetch k =>
    simp only [Archive.step] at hstep
    split at hstep
    · rename_i r hr
      split_ifs at hstep
      exact some.inj hstep ▸ h.fetch (List.mem_of_getElem? hr)
    · nomatch hstep
  | keep k =>
    simp only [Archive.step] at hstep
    split at hstep
    · rename_i r hr
      obtain ⟨dict, hdict, rfl⟩ := map_eq_some_iff.mp hstep
      exact h.keepDict (List.mem_of_getElem? hr) hdict
    · nomatch hstep
  | task event => exact h.stepTask hstep

theorem Opened.sound (h : s.Opened z) : s.Sound z := by
  obtain ⟨hmem, ⟨hsubmissions, hreaders, htask, hanswers⟩, htrained, hdicts, hplaced, hspecs⟩ := h
  have hold : ∀ id n dict, s.store.dicts.lookup id = some (n, dict) → s.trained.lookup id = some dict := by
    intro id n dict hdict
    rw [htrained, hdict, map_some]
  refine ⟨hold, fun id dict hdict => ?_, fun id dict hdict => ?_, fun c hc => ?_, ?_, ?_, hplaced,
    fun id value dict hvalue => (hspecs id value hvalue).1 dict, fun id value hvalue => (hspecs id value hvalue).2,
    ?_, ?_, ?_⟩
  · obtain ⟨e, he, -⟩ := map_eq_some_iff.mp ((htrained id).symm.trans hdict)
    obtain ⟨last, e', hlast, hle⟩ := exists_last he
    exact ⟨last, e', hlast, hle, hdicts last e' (lookup_of_last hlast)⟩
  · rw [hmem] at hdict
    nomatch hdict
  · rw [hmem] at hc
    obtain ⟨e, he, rfl⟩ := map_eq_some_iff.mp hc
    exact hold e.1 e.2.1 e.2.2 (lookup_of_last he)
  · intro p hp
    rw [hsubmissions] at hp
    nomatch hp
  · rw [hsubmissions]
    exact ⟨List.nodup_nil, fun p hp => nomatch hp⟩
  · intro r hr
    rw [hreaders] at hr
    nomatch hr
  · intro id answer hmem'
    rw [hanswers] at hmem'
    nomatch hmem'
  · rw [htask]
    trivial

end Virtkit.Specs.Archive

namespace Virtkit.Specs

open Virtkit.Common Virtkit.Jobs

/-- The hub's specs while sequences are left for the history, of which there are as many as 64 bits
count. -/
def roomySystem (z : Zstd) (t : Training) : System Archive Event :=
  (specSystem z t).restrict fun s _ _ => s.Room

theorem sound_of_reachable {z : Zstd} {t : Training} {s : Archive} (h : (roomySystem z t).Reachable s) : s.Sound z :=
  h.invariant (fun _ => Archive.Opened.sound) fun _ _ _ hs hstep => hs.step hstep.2 hstep.1

/-- Every stored spec names no dictionary or one that is there and unpacks to what was submitted, from
whatever memory holds; and every reader was answered with what was submitted. -/
theorem stored_specs_readable (z : Zstd) (t : Training) {s : Archive} (h : (roomySystem z t).Reachable s) :
    (∀ id value, s.store.specs.lookup id = some value →
      (∀ dict, dictOf value = some dict → s.store.dicts.lookup dict ≠ none) ∧
      ∃ spec, s.submitted.lookup id = some spec ∧ s.mem.unpackSpec z s.store.dicts value = some spec) ∧
    ∀ id answer, (id, answer) ∈ s.answers → ∃ spec, answer = some spec ∧ s.submitted.lookup id = some spec := by
  have hs := sound_of_reachable h
  refine ⟨fun id value hvalue => ⟨fun dict => hs.named id value dict hvalue, ?_⟩, hs.answers⟩
  obtain ⟨spec, hspec, hunpacks⟩ := hs.specs id value hvalue
  refine ⟨spec, hspec, unpackStored_mono (fun dict x hdict hx => ?_) hunpacks⟩
  unfold SpecDicts.specDecoder
  cases hcached : s.mem.decoders.lookup dict with
  | some y => exact (hs.decoders dict y hcached).symm.trans hx
  | none =>
    obtain ⟨⟨n, y⟩, hy⟩ := Option.ne_none_iff_exists'.mp (hs.named id value dict hvalue hdict)
    rw [hy]
    exact (hs.dicts dict n y hy).symm.trans hx

/-- zstd that leaves data as it is, and makes the first sample the dictionary. -/
def storing : Zstd where
  compress := some
  decompress := some
  compressWith _ := some
  decompressWith _ := some
  fromSamples samples _ := samples.head?
  decompress_compress _ _ h := h.symm
  decompressWith_compressWith _ _ _ h := h.symm

/-- A hub without jobs. -/
def emptyArchive : Archive :=
  ⟨⟨⟨∅, 0, ∅, ∅, ∅, [], [], ∅⟩, ∅, ∅, 0, ∅⟩, ⟨none, ∅, [], 0⟩, [], [], .idle, [], [], ∅, ∅, []⟩

theorem emptyArchive_opened (z : Zstd) : emptyArchive.Opened z where
  mem := rfl
  idle := ⟨rfl, rfl, rfl, rfl⟩
  trained _ := rfl
  dicts _ _ h := nomatch h
  placed := ⟨nofun, nofun, nofun⟩
  specs _ _ h := nomatch h

/-- The record of a job submitted. -/
def queuedRow (request : String) : JobRow :=
  ⟨"relay", request, none, 0, .queued, 1, none, none, none, 0, none, none, none, none⟩

/-- Whether sequences are left. -/
def Archive.room (s : Archive) : Bool := s.store.order.entries.all fun e => e.1 < u64Max

theorem Archive.room_iff {s : Archive} (h : s.room = true) : s.Room := by
  intro seq id hseq
  exact of_decide_eq_true (List.all_eq_true.mp h ⟨seq, id⟩ (AList.mem_lookup_iff.mp hseq))

/-- A spec packed with the first dictionary and stored after the second was trained and the first
listed: the first is not dropped, and the spec is read. -/
theorem stored_specs_readable_listed : ∃ s, (roomySystem storing ⟨1, 0, 1, 100, 100⟩).Reachable s ∧
    (s.store.dicts.keys.length = 2 ∧ s.store.specs.lookup "b" = some [2, 0, 0, 0, 1, 9]) ∧
    (∀ dict, dictOf [2, 0, 0, 0, 1, 9] = some dict → s.store.dicts.lookup dict ≠ none) ∧
    ∃ spec, s.submitted.lookup "b" = some spec ∧
      s.mem.unpackSpec storing s.store.dicts [2, 0, 0, 0, 1, 9] = some spec := by
  obtain ⟨s, hreach, hfacts⟩ : ∃ s, (roomySystem storing ⟨1, 0, 1, 100, 100⟩).Reachable s ∧
      s.store.dicts.keys.length = 2 ∧ s.store.specs.lookup "b" = some [2, 0, 0, 0, 1, 9] :=
    System.exists_reachable_restrict Archive.room_iff emptyArchive
      [.pack "a" (queuedRow "a") "" [7] 0, .store 0, .task .train, .task .advance, .task .advance,
        .pack "b" (queuedRow "b") "" [9] 0, .task .train, .task .advance, .task .advance, .task .list,
        .store 0, .task .advance, .task .advance] (emptyArchive_opened storing) (by decide +kernel)
  exact ⟨s, hreach, hfacts, (stored_specs_readable storing ⟨1, 0, 1, 100, 100⟩ hreach).1 "b" _ hfacts.2⟩

end Virtkit.Specs
