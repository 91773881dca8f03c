import Virtkit.Common.Transition
import Virtkit.Specs.StoreSteps

/-!
# Submissions, readers and the maintenance of specs

A submission packs its spec and then waits for its write. A reader takes the tables of one transaction,
looks for the dictionary in memory, and keeps one it had to prepare. One task maintains the specs, a
call at a time: it trains a dictionary, packs specs again, or looks for dictionaries to drop and drops
them, each a read, a write and then what it changes in memory, with everything else in between.

With the state goes its history: the jobs placed, the specs submitted, the dictionaries ever trained and
what readers were answered.
-/

namespace Virtkit.Specs

open Virtkit.Common Virtkit.Jobs List

section

/-- A submission whose spec is packed. -/
structure Submission where
  id : String
  row : JobRow
  digest : String
  spec : Bytes
  packed : Bytes
  now : ℕ

/-- A reader of a job's spec: the value and the dictionaries of its transaction, and the dictionary it
prepared. -/
structure Reader where
  id : String
  value : Bytes
  dicts : Table ℕ (ℕ × Bytes)
  held : Option Bytes

inductive Task where
  | idle
  /-- The samples were read. -/
  | training (next : ℕ) (samples : List Bytes)
  /-- The dictionary was stored. -/
  | trained (current : Current)
  /-- The specs were read and packed. -/
  | packing (current : Current) (packed : List (String × Bytes))
  /-- The dictionaries were listed. -/
  | listed (candidates : List ℕ) (last : Option (ℕ × String))
  /-- The dictionaries were dropped. -/
  | dropping (dropped : List ℕ)

structure Archive where
  store : Store
  mem : SpecDicts
  submissions : List Submission
  readers : List Reader
  task : Task
  ids : List String
  placed : List String
  submitted : Table String Bytes
  trained : Table ℕ Bytes
  answers : List (String × Option Bytes)

inductive TaskEvent where
  | train
  | pack (after : Option String)
  | list
  /-- The call goes on to its next part. -/
  | advance
  /-- The call fails. -/
  | fail

/-- What happens to the hub's specs. -/
inductive Event where
  | pack (id : String) (row : JobRow) (digest : String) (spec : Bytes) (now : ℕ)
  | store (k : ℕ)
  /-- A submission's write fails. -/
  | lose (k : ℕ)
  /-- A job's row is written. -/
  | put (id : String) (row : JobRow)
  /-- Another request is answered. -/
  | request (key : String × String) (row : RequestRow)
  | prune (now keep : ℕ)
  | view (id : String)
  /-- A reader looks for the dictionary. -/
  | fetch (k : ℕ)
  /-- A reader keeps the dictionary it prepared. -/
  | keep (k : ℕ)
  | task (event : TaskEvent)

namespace Archive

variable (z : Zstd) (t : Training)

section

variable (s : Archive)

/-- A submission's write: its job is new, or its request was answered before. -/
def storeSubmission (k : ℕ) (p : Submission) (result : Submitted × Store) : Archive :=
  { s with
    store := result.2
    submissions := s.submissions.eraseIdx k
    placed := p.id :: s.placed
    submitted := if result.1 = Submitted.new then s.submitted.insert p.id p.spec else s.submitted }

def answer (k : ℕ) (r : Reader) (spec : Option Bytes) : Archive :=
  { s with readers := s.readers.eraseIdx k, answers := (r.id, spec) :: s.answers }

/-- A reader looks for the dictionary its value names, in memory and then in its transaction. -/
def fetch (k : ℕ) (r : Reader) : Archive :=
  match dictOf r.value with
  | none => s.answer k r (unpackStored z r.value fun _ => none)
  | some id =>
    match s.mem.decoders.lookup id with
    | some dict => s.answer k r (unpackStored z r.value fun _ => some dict)
    | none =>
      match r.dicts.lookup id with
      | none => s.answer k r none
      | some (_, dict) => { s with readers := s.readers.set k { r with held := some dict } }

/-- A reader keeps the dictionary it prepared, unless it was dropped. -/
def keepDict (k : ℕ) (r : Reader) (dict : Bytes) : Archive :=
  { s with mem := (dictOf r.value).elim s.mem fun id => s.mem.keep id dict }.answer k r
    (unpackStored z r.value fun _ => some dict)

/-- The next part of the maintenance task's call. -/
def advance : Option Archive :=
  match s.task with
  | .idle => none
  | .training next samples =>
    match z.fromSamples samples t.dictSize with
    | none => some { s with
        mem := { s.mem with retryAt := satAdd u64Max next t.minSpecs }
        task := .idle }
    | some dict =>
      match s.store.nextDict with
      | none => some { s with task := .idle }
      | some id => some { s with
          store := { s.store with dicts := s.store.dicts.insert id (next, dict) }
          trained := s.trained.insert id dict
          task := .trained ⟨id, next, dict⟩ }
  | .trained current => some { s with mem := { s.mem with current := some current }, task := .idle }
  | .packing current packed => some { s with
      store := s.store.packSpecsWrite current packed
      task := .idle }
  | .listed candidates last => some { s with
      store := (s.store.dropSpecDicts candidates last).2
      task := .dropping (s.store.dropSpecDicts candidates last).1 }
  | .dropping dropped => some { s with
      mem := { s.mem with
        decoders := s.mem.decoders.retain fun id _ => id ∉ dropped
        dropped := dropped ++ s.mem.dropped }
      task := .idle }

def stepTask : TaskEvent → Option Archive
  | .train =>
    match s.task with
    | .idle =>
      if s.mem.due t s.store then
        let (samples, mem) := SpecDicts.takeSamples z t s.store s.store.order.sorted.reverse s.mem [] 0
        some { s with mem := mem, task := .training s.store.reached samples }
      else some s
    | _ => none
  | .pack after =>
    match s.task, s.mem.current with
    | .idle, some current =>
      some (match s.store.packSpecsRead z current after packSpecs packScan with
        | some (packed, _) => { s with task := .packing current packed }
        | none => s)
    | _, _ => none
  | .list =>
    match s.task with
    | .idle => some { s with task := .listed s.store.unusedSpecDicts.1 s.store.unusedSpecDicts.2 }
    | _ => none
  | .advance => s.advance z t
  | .fail =>
    match s.task with
    | .training .. | .packing .. | .listed .. => some { s with task := .idle }
    | _ => none

def step : Event → Option Archive
  | .pack id row digest spec now =>
    if id ∈ s.ids then none
    else (s.mem.packSpec z spec).map fun packed => { s with
      ids := id :: s.ids
      submissions := s.submissions ++ [⟨id, row, digest, spec, packed, now⟩] }
  | .store k =>
    (s.submissions[k]?).bind fun p =>
      (s.store.submitJob z p.id p.row p.digest p.spec p.packed p.now).map (s.storeSubmission k p)
  | .lose k => some { s with submissions := s.submissions.eraseIdx k }
  | .put id row =>
    some { s with store := { s.store with db := { s.store.db with jobs := putJob s.store.db.jobs id row } } }
  | .request key row => some { s with store := { s.store with db := s.store.db.recordRequest key row } }
  | .prune now keep => some { s with store := s.store.pruneJobs now keep }
  | .view id =>
    (s.store.specs.lookup id).map fun value =>
      { s with readers := s.readers ++ [⟨id, value, s.store.dicts, none⟩] }
  | .fetch k =>
    match s.readers[k]? with
    | some r => if r.held = none then some (s.fetch z k r) else none
    | none => none
  | .keep k =>
    match s.readers[k]? with
    | some r => r.held.map (s.keepDict z k r)
    | none => none
  | .task event => s.stepTask z t event

end

/-- What a start finds: every stored spec names no dictionary or one that is there, and unpacks to what
was submitted. -/
structure Opened (s : Archive) : Prop where
  mem : s.mem = SpecDicts.load s.store.dicts
  idle : s.submissions = [] ∧ s.readers = [] ∧ s.task = .idle ∧ s.answers = []
  trained : ∀ id, s.trained.lookup id = (s.store.dicts.lookup id).map Prod.snd
  dicts : ∀ id e, s.store.dicts.lookup id = some e → id ≤ u32Max
  placed : (∀ seq id, s.store.order.lookup seq = some id → id ∈ s.placed) ∧
    (∀ id spec, s.submitted.lookup id = some spec → id ∈ s.placed) ∧ ∀ id ∈ s.placed, id ∈ s.ids
  specs : ∀ id value, s.store.specs.lookup id = some value →
    (∀ dict, dictOf value = some dict → s.store.dicts.lookup dict ≠ none) ∧
    ∃ spec, s.submitted.lookup id = some spec ∧ unpackStored z value s.trained.lookup = some spec

end Archive

/-- The hub's specs from a start on. -/
def specSystem (z : Zstd) (t : Training) : System Archive Event :=
  .ofFunction (Archive.Opened z) (Archive.step z t)

end

/-!
## Stored specs can be read

The invariant: every spec stored, packed or being read unpacks to what was submitted with the
dictionaries ever trained, each of which has its own ID; a stored spec names none that is gone; and
while the task is to drop the dictionaries it listed, a spec that names one of them has a place past the
last the listing saw, unless that place is another job's by now. It is kept while sequences are left:
with the last one used, a submission takes the place of the one before.
-/

namespace Archive

variable (z : Zstd)

def Unpacks (submitted : Table String Bytes) (trained : Table ℕ Bytes) (id : String) (value : Bytes) : Prop :=
  ∃ spec, submitted.lookup id = some spec ∧ unpackStored z value trained.lookup = some spec

/-- What the maintenance task holds. -/
def Tended (s : Archive) : Task → Prop
  | .idle | .training .. | .dropping _ => True
  | .trained current => s.trained.lookup current.id = some current.dict
  | .packing current packed => ∀ id value, (id, value) ∈ packed →
      Unpacks z s.submitted s.trained id value ∧ dictOf value = some current.id
  | .listed candidates last =>
    (∀ seq id, last = some (seq, id) → id ∈ s.placed) ∧
    ∀ id value dict, s.store.specs.lookup id = some value → dictOf value = some dict →
      dict ∈ candidates → ∃ seq, s.store.Places seq id ∧
        ∀ seq' id', last = some (seq', id') → s.store.order.lookup seq' = some id' → seq' < seq

structure Reads (submitted : Table String Bytes) (trained : Table ℕ Bytes) (r : Reader) : Prop where
  value : Unpacks z submitted trained r.id r.value
  dicts : ∀ id, dictOf r.value = some id → ∃ n dict, r.dicts.lookup id = some (n, dict) ∧
    trained.lookup id = some dict
  held : ∀ dict, r.held = some dict → ∃ id, dictOf r.value = some id ∧ trained.lookup id = some dict

/-- The invariant of the hub's specs. -/
structure Sound (s : Archive) : Prop where
  dicts : ∀ id n dict, s.store.dicts.lookup id = some (n, dict) → s.trained.lookup id = some dict
  newest : ∀ id dict, s.trained.lookup id = some dict →
    ∃ last e, s.store.dicts.last = some (last, e) ∧ id ≤ last ∧ last ≤ u32Max
  decoders : ∀ id dict, s.mem.decoders.lookup id = some dict → s.trained.lookup id = some dict
  current : ∀ c, s.mem.current = some c → s.trained.lookup c.id = some c.dict
  packed : ∀ p ∈ s.submissions, unpackStored z p.packed s.trained.lookup = some p.spec
  drawn : (s.submissions.map Submission.id).Nodup ∧ ∀ p ∈ s.submissions, p.id ∈ s.ids ∧ p.id ∉ s.placed
  placed : (∀ seq id, s.store.order.lookup seq = some id → id ∈ s.placed) ∧
    (∀ id spec, s.submitted.lookup id = some spec → id ∈ s.placed) ∧ ∀ id ∈ s.placed, id ∈ s.ids
  named : ∀ id value dict, s.store.specs.lookup id = some value → dictOf value = some dict →
    s.store.dicts.lookup dict ≠ none
  specs : ∀ id value, s.store.specs.lookup id = some value → Unpacks z s.submitted s.trained id value
  readers : ∀ r ∈ s.readers, Reads z s.submitted s.trained r
  answers : ∀ id answer, (id, answer) ∈ s.answers →
    ∃ spec, answer = some spec ∧ s.submitted.lookup id = some spec
  task : s.Tended z s.task

variable {z} {t : Training} {s s' : Archive}

def Grows {K V : Type*} [DecidableEq K] (u u' : Table K V) : Prop :=
  ∀ k v, u.lookup k = some v → u'.lookup k = some v

section Grows

variable {submitted submitted' : Table String Bytes} {trained trained' : Table ℕ Bytes}

theorem Unpacks.mono {id : String} {value : Bytes} (h : Unpacks z submitted trained id value)
    (hsubmitted : Grows submitted submitted') (htrained : Grows trained trained') :
    Unpacks z submitted' trained' id value := by
  obtain ⟨spec, hspec, hvalue⟩ := h
  exact ⟨spec, hsubmitted id spec hspec, unpackStored_mono (fun dict x _ hx => htrained dict x hx) hvalue⟩

theorem Reads.mono {r : Reader} (h : Reads z submitted trained r) (hsubmitted : Grows submitted submitted')
    (htrained : Grows trained trained') : Reads z submitted' trained' r := by
  refine ⟨h.value.mono hsubmitted htrained, fun id hid => ?_, fun dict hdict => ?_⟩
  · obtain ⟨n, dict, hfound, hold⟩ := h.dicts id hid
    exact ⟨n, dict, hfound, htrained id dict hold⟩
  · obtain ⟨id, hid, hold⟩ := h.held dict hdict
    exact ⟨id, hid, htrained id dict hold⟩

end Grows

/-- What is packed can be unpacked with the dictionaries trained so far. -/
theorem Sound.packSpec (h : s.Sound z) {spec packed : Bytes} (hpack : s.mem.packSpec z spec = some packed) :
    unpackStored z packed s.trained.lookup = some spec := by
  unfold SpecDicts.packSpec at hpack
  split at hpack
  · rename_i c hc
    have htrained := h.current c hc
    obtain ⟨last, e, -, hle, hbound⟩ := h.newest _ _ htrained
    exact unpackStored_packWith hpack (hle.trans hbound) htrained
  · exact unpackStored_pack hpack _

/-- A submission holds its spec, packed. -/
theorem Sound.submission (h : s.Sound z) {p : Submission} (hid : p.id ∉ s.ids)
    (hpack : s.mem.packSpec z p.spec = some p.packed) :
    Sound z { s with ids := p.id :: s.ids, submissions := s.submissions ++ [p] } := by
  refine { h with packed := ?_, drawn := ⟨?_, ?_⟩, placed := ⟨h.placed.1, h.placed.2.1, ?_⟩ }
  · intro q hq
    rcases mem_append.mp hq with hq | hq
    · exact h.packed q hq
    · obtain rfl := mem_singleton.mp hq
      exact h.packSpec hpack
  · rw [map_append, nodup_append]
    refine ⟨h.drawn.1, nodup_singleton _, fun id hmem id' hmem' heq => ?_⟩
    obtain ⟨q, hq, rfl⟩ := mem_map.mp hmem
    obtain rfl := mem_singleton.mp hmem'
    exact hid (heq ▸ (h.drawn.2 q hq).1)
  · intro q hq
    rcases mem_append.mp hq with hq | hq
    · exact ⟨mem_cons_of_mem _ (h.drawn.2 q hq).1, (h.drawn.2 q hq).2⟩
    · obtain rfl := mem_singleton.mp hq
      exact ⟨mem_cons_self, fun hmem => hid (h.placed.2.2 _ hmem)⟩
  · exact fun id hmem => mem_cons_of_mem _ (h.placed.2.2 id hmem)

theorem Sound.lose (h : s.Sound z) (k : ℕ) : Sound z { s with submissions := s.submissions.eraseIdx k } := by
  refine { h with packed := ?_, drawn := ⟨?_, ?_⟩ }
  · exact fun p hp => h.packed p (mem_of_mem_eraseIdx hp)
  · exact h.drawn.1.sublist ((eraseIdx_sublist _ _).map _)
  · exact fun p hp => h.drawn.2 p (mem_of_mem_eraseIdx hp)

end Archive

end Virtkit.Specs
