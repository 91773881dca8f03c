import Virtkit.Common.Lists
import Virtkit.Specs.Readable

/-!
# The steps that keep specs readable

A submission's write adds a spec with a dictionary that is there, at a new place. Trims, other writes and
readers change nothing that is named. The task's writes each keep the invariant: a dictionary trained has
a new ID, a spec packed again unpacks to the same, and a dictionary dropped is named by no spec.
-/

namespace Virtkit.Specs.Archive

open Virtkit.Common Virtkit.Jobs List Option Table AList

variable {z : Zstd} {t : Training} {s s' : Archive}

/-- There are sequences left for the history. -/
def Room (s : Archive) : Prop := ∀ seq id, s.store.order.lookup seq = some id → seq < u64Max

section

variable (h : s.Sound z)
include h

theorem Sound.others {k : ℕ} {p : Submission} (hp : s.submissions[k]? = some p) :
    ((s.submissions.eraseIdx k).map Submission.id).Nodup ∧
      ∀ q ∈ s.submissions.eraseIdx k, q.id ∈ s.ids ∧ q.id ∉ p.id :: s.placed := by
  refine ⟨h.drawn.1.sublist ((eraseIdx_sublist _ _).map _), fun q hq => ?_⟩
  have hdrawn := h.drawn.2 q (mem_of_mem_eraseIdx hq)
  refine ⟨hdrawn.1, fun hmem => ?_⟩
  rcases mem_cons.mp hmem with heq | hmem
  · exact ne_of_mem_eraseIdx h.drawn.1 hp hq heq
  · exact hdrawn.2 hmem

theorem Sound.answered {k : ℕ} {p : Submission} (hp : s.submissions[k]? = some p) :
    Sound z { s with submissions := s.submissions.eraseIdx k, placed := p.id :: s.placed } := by
  have hids := (h.drawn.2 p (mem_of_getElem? hp)).1
  refine { h with
    packed := fun q hq => h.packed q (mem_of_mem_eraseIdx hq)
    drawn := h.others hp
    placed := ⟨fun seq id hseq => mem_cons_of_mem _ (h.placed.1 seq id hseq),
      fun id spec hspec => mem_cons_of_mem _ (h.placed.2.1 id spec hspec), fun id hid => ?_⟩
    task := ?_ }
  · rcases mem_cons.mp hid with rfl | hid
    · exact hids
    · exact h.placed.2.2 id hid
  · have htask := h.task
    generalize s.task = task at htask ⊢
    cases task with
    | listed candidates last => exact ⟨fun seq id hlast => mem_cons_of_mem _ (htask.1 seq id hlast), htask.2⟩
    | _ => exact htask

/-- A stored spec is readable. -/
theorem Sound.stored (hroom : s.Room) {k : ℕ} {p : Submission}
    (hp : s.submissions[k]? = some p) {value : Bytes} {db : Db}
    (hvalue : s.store.specToStore z p.spec p.packed = some value)
    (hjobs : db.jobs = s.store.db.jobs.insert p.id p.row) :
    Sound z { s with
      store := { s.store with
        db := db
        specs := s.store.specs.insert p.id value
        order := s.store.order.insert s.store.nextSeq p.id }
      submissions := s.submissions.eraseIdx k
      placed := p.id :: s.placed
      submitted := s.submitted.insert p.id p.spec } := by
  have hnew := (h.drawn.2 p (mem_of_getElem? hp)).2
  have hanswered := h.answered hp
  obtain ⟨hunpacks, hthere⟩ := Store.specToStore_spec hvalue (h.packed p (mem_of_getElem? hp))
  have hgrows : Grows s.submitted (s.submitted.insert p.id p.spec) := by
    intro id spec hspec
    have hne : id ≠ p.id := fun heq => hnew (heq ▸ h.placed.2.1 id spec hspec)
    exact (lookup_insert_ne hne).trans hspec
  have hspecs : ∀ id v, (s.store.specs.insert p.id value).lookup id = some v →
      id = p.id ∧ v = value ∨ id ≠ p.id ∧ s.store.specs.lookup id = some v := by
    intro id v hv
    rw [lookup_insert_ite] at hv
    split_ifs at hv with hid
    · exact .inl ⟨hid, (some.inj hv).symm⟩
    · exact .inr ⟨hid, hv⟩
  refine { hanswered with
    placed := ⟨fun seq id hseq => ?_, fun id spec hspec => ?_, hanswered.placed.2.2⟩
    named := fun id v dict hv hdict => ?_
    specs := fun id v hv => ?_
    readers := fun r hr => (h.readers r hr).mono hgrows fun _ _ h => h
    answers := fun id answer hmem => ?_
    task := ?_ }
  · rw [lookup_insert_ite] at hseq
    split_ifs at hseq
    · exact some.inj hseq ▸ mem_cons_self
    · exact mem_cons_of_mem _ (h.placed.1 seq id hseq)
  · rw [lookup_insert_ite] at hspec
    split_ifs at hspec with hid
    · exact hid ▸ mem_cons_self
    · exact mem_cons_of_mem _ (h.placed.2.1 id spec hspec)
  · rcases hspecs id v hv with ⟨-, rfl⟩ | ⟨-, hv⟩
    · exact hthere dict hdict
    · exact h.named id v dict hv hdict
  · rcases hspecs id v hv with ⟨rfl, rfl⟩ | ⟨-, hv⟩
    · exact ⟨p.spec, lookup_insert _, hunpacks⟩
    · exact (h.specs id v hv).mono hgrows fun _ _ h => h
  · obtain ⟨spec, hanswer, hspec⟩ := h.answers id answer hmem
    exact ⟨spec, hanswer, hgrows id spec hspec⟩
  · have htask := h.task
    generalize s.task = task at htask ⊢
    cases task with
    | listed candidates last =>
      obtain ⟨hlast, hmarked⟩ := htask
      -- The last place seen is another job's than the new one's.
      have hbefore : ∀ seq id, last = some (seq, id) →
          (s.store.order.insert s.store.nextSeq p.id).lookup seq = some id →
          s.store.order.lookup seq = some id := by
        intro seq id hseq hplace
        rw [lookup_insert_ite] at hplace
        split_ifs at hplace
        · exact absurd (some.inj hplace ▸ hlast seq id hseq) hnew
        · exact hplace
      refine ⟨fun seq id hseq => mem_cons_of_mem _ (hlast seq id hseq), fun id v dict hv hdict hmem => ?_⟩
      rcases hspecs id v hv with ⟨rfl, rfl⟩ | ⟨hid, hv⟩
      · refine ⟨s.store.nextSeq, ⟨lookup_insert _, ?_⟩, fun seq' id' hseq' hplace => ?_⟩
        · rw [hjobs, lookup_insert]
          exact some_ne_none _
        · have hplace := hbefore seq' id' hseq' hplace
          exact Store.lt_nextSeq hplace (hroom seq' id' hplace)
      · obtain ⟨seq, ⟨hseq, hrow⟩, hpast⟩ := hmarked id v dict hv hdict hmem
        have hlt := Store.lt_nextSeq hseq (hroom seq id hseq)
        refine ⟨seq, ⟨?_, ?_⟩, fun seq' id' hseq' hplace => hpast seq' id' hseq' (hbefore seq' id' hseq' hplace)⟩
        · rw [lookup_insert_ne hlt.ne]
          exact hseq
        · rw [hjobs, lookup_insert_ne hid]
          exact hrow
    | packing current packed =>
      exact fun id v hmem => ⟨(htask id v hmem).1.mono hgrows (fun _ _ h => h), (htask id v hmem).2⟩
    | _ => exact htask

/-- A store that drops entries keeps the others readable. -/
theorem Sound.rewritten {store : Store} (hdicts : store.dicts = s.store.dicts)
    (horder : ∀ seq id, store.order.lookup seq = some id → s.store.order.lookup seq = some id)
    (hspecs : ∀ id value, store.specs.lookup id = some value → s.store.specs.lookup id = some value ∧
      ∀ seq, s.store.Places seq id → store.Places seq id) : Sound z { s with store := store } := by
  refine { h with
    dicts := fun id n dict hdict => h.dicts id n dict (hdicts ▸ hdict)
    newest := fun id dict hdict => hdicts ▸ h.newest id dict hdict
    placed := ⟨fun seq id hseq => h.placed.1 seq id (horder seq id hseq), h.placed.2⟩
    named := fun id value dict hvalue hdict => hdicts ▸ h.named id value dict (hspecs id value hvalue).1 hdict
    specs := fun id value hvalue => h.specs id value (hspecs id value hvalue).1
    task := ?_ }
  have htask := h.task
  generalize s.task = task at htask ⊢
  cases task with
  | listed candidates last =>
    refine ⟨htask.1, fun id value dict hvalue hdict hmem => ?_⟩
    obtain ⟨hvalue, hkept⟩ := hspecs id value hvalue
    obtain ⟨seq, hseq, hpast⟩ := htask.2 id value dict hvalue hdict hmem
    exact ⟨seq, hkept seq hseq, fun seq' id' hlast hplace => hpast seq' id' hlast (horder seq' id' hplace)⟩
  | _ => exact htask

theorem Sound.written {db : Db} (hjobs : ∀ id, s.store.db.jobs.lookup id ≠ none → db.jobs.lookup id ≠ none) :
    Sound z { s with store := { s.store with db := db } } :=
  h.rewritten rfl (fun _ _ hseq => hseq) fun _ _ hvalue => ⟨hvalue, fun _ hplace => ⟨hplace.1, hjobs _ hplace.2⟩⟩

end

theorem lookup_putJob_ne_none {jobs : Table String JobRow} {id id' : String} (row : JobRow)
    (h : jobs.lookup id ≠ none) : (putJob jobs id' row).lookup id ≠ none := by
  unfold putJob
  split
  · exact h
  · split_ifs
    · rw [lookup_insert_ite]
      split_ifs
      · exact some_ne_none _
      · exact h
    · exact h

theorem Sound.prune (h : s.Sound z) (now keep : ℕ) : Sound z { s with store := s.store.pruneJobs now keep } :=
  h.rewritten rfl (fun _ _ hseq => Store.pruneJobs_order hseq) fun _ _ hvalue => Store.pruneJobs_specs hvalue

section Readers

variable {k : ℕ} {r : Reader}

theorem Sound.view (h : s.Sound z) {id : String} {value : Bytes} (hvalue : s.store.specs.lookup id = some value) :
    Sound z { s with readers := s.readers ++ [⟨id, value, s.store.dicts, none⟩] } := by
  refine { h with readers := fun r hr => ?_ }
  rcases mem_append.mp hr with hr | hr
  · exact h.readers r hr
  · obtain rfl := mem_singleton.mp hr
    refine ⟨h.specs id value hvalue, fun dict hdict => ?_, nofun⟩
    obtain ⟨⟨n, x⟩, hx⟩ := ne_none_iff_exists'.mp (h.named id value dict hvalue hdict)
    exact ⟨n, x, hx, h.dicts dict n x hx⟩

theorem Sound.answer (h : s.Sound z) {spec : Option Bytes}
    (hspec : ∃ x, spec = some x ∧ s.submitted.lookup r.id = some x) : Sound z (s.answer k r spec) := by
  refine { h with
    readers := fun r' hr' => h.readers r' (mem_of_mem_eraseIdx hr')
    answers := fun id answer hmem => ?_ }
  rcases mem_cons.mp hmem with heq | hmem
  · obtain ⟨rfl, rfl⟩ := Prod.mk.inj heq
    exact hspec
  · exact h.answers id answer hmem

/-- What a reader has, it can unpack. -/
theorem Reads.unpacks (h : Reads z s.submitted s.trained r) {dicts : ℕ → Option Bytes}
    (hdicts : ∀ id dict, dictOf r.value = some id → s.trained.lookup id = some dict → dicts id = some dict) :
    ∃ x, unpackStored z r.value dicts = some x ∧ s.submitted.lookup r.id = some x := by
  obtain ⟨spec, hspec, hvalue⟩ := h.value
  exact ⟨spec, unpackStored_mono hdicts hvalue, hspec⟩

theorem Sound.fetch (h : s.Sound z) (hr : r ∈ s.readers) : Sound z (s.fetch z k r) := by
  have hreads := h.readers r hr
  unfold Archive.fetch
  split
  · rename_i hnone
    exact h.answer (hreads.unpacks fun id dict hid => nomatch hnone.symm.trans hid)
  · rename_i id hid
    split
    · rename_i dict hdict
      refine h.answer (hreads.unpacks fun id' dict' hid' hdict' => ?_)
      obtain rfl := some.inj (hid.symm.trans hid')
      exact (h.decoders id dict hdict).symm.trans hdict'
    · split
      · rename_i hnone
        obtain ⟨n, dict, hfound, -⟩ := hreads.dicts id hid
        nomatch hnone.symm.trans hfound
      · rename_i n dict hdict
        refine { h with readers := fun r' hr' => ?_ }
        rcases mem_or_eq_of_mem_set hr' with hr' | rfl
        · exact h.readers r' hr'
        · refine ⟨hreads.value, hreads.dicts, fun dict' hdict' => ?_⟩
          cases hdict'
          obtain ⟨n', dict', hfound, htrained⟩ := hreads.dicts id hid
          obtain ⟨-, rfl⟩ := Prod.mk.inj (some.inj (hdict.symm.trans hfound))
          exact ⟨id, hid, htrained⟩

theorem Sound.keepDecoder (h : s.Sound z) {id : ℕ} {dict : Bytes}
    (hdict : s.trained.lookup id = some dict) : Sound z { s with mem := s.mem.keep id dict } := by
  unfold SpecDicts.keep
  split_ifs
  · exact h
  · refine { h with decoders := fun id' dict' hdict' => ?_ }
    rw [lookup_insert_ite] at hdict'
    split_ifs at hdict' with hid
    · cases hdict'
      exact hid ▸ hdict
    · exact h.decoders id' dict' hdict'

theorem Sound.keepDict (h : s.Sound z) (hr : r ∈ s.readers) {dict : Bytes} (hheld : r.held = some dict) :
    Sound z (s.keepDict z k r dict) := by
  have hreads := h.readers r hr
  obtain ⟨id, hid, htrained⟩ := hreads.held dict hheld
  unfold Archive.keepDict
  rw [hid, elim_some]
  refine (h.keepDecoder htrained).answer (hreads.unpacks fun id' dict' hid' hdict' => ?_)
  obtain rfl := some.inj (hid.symm.trans hid')
  exact htrained.symm.trans hdict'

end Readers

end Virtkit.Specs.Archive
