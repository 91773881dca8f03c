import Mathlib.Data.String.Basic
import Virtkit.Common.Bytes
import Virtkit.Common.Table
import Virtkit.Jobs.Transactions

/-!
# Packed values

A packed value starts with its format: bytes as they are, a zstd frame, or a dictionary's ID and a frame
compressed with it. Specs from before packing are JSON, and no format byte is a brace. zstd itself is a
parameter: it may fail to compress, and what it compressed it decompresses, with the same dictionary.
-/

namespace Virtkit.Specs

open Virtkit.Common Virtkit.Jobs Option

section

/-- zstd at the level specs are packed at, without a dictionary and with one, and its training of
dictionaries of a size on samples. -/
structure Zstd where
  compress : Bytes → Option Bytes
  decompress : Bytes → Option Bytes
  compressWith : Bytes → Bytes → Option Bytes
  decompressWith : Bytes → Bytes → Option Bytes
  fromSamples : List Bytes → ℕ → Option Bytes
  decompress_compress : ∀ data frame, compress data = some frame → decompress frame = some data
  decompressWith_compressWith : ∀ dict data frame, compressWith dict data = some frame →
    decompressWith dict frame = some data

/-- The bytes follow as they are. -/
def formatRaw : UInt8 := 0

/-- A zstd frame follows. -/
def formatPlain : UInt8 := 1

/-- A dictionary's ID follows, then a zstd frame compressed with it. -/
def formatDict : UInt8 := 2

/-- What a spec from before packing starts with. -/
def brace : UInt8 := 123

variable (z : Zstd)

/-- Data packed, or kept as it is when that is not smaller. -/
def pack (data : Bytes) : Option Bytes :=
  (z.compress data).map fun frame =>
    if frame.length < data.length then formatPlain :: frame else formatRaw :: data

def packWith (data : Bytes) (id : ℕ) (dict : Bytes) : Option Bytes :=
  (z.compressWith dict data).map fun frame => formatDict :: (beBytes 4 id ++ frame)

/-- The dictionary a packed value names, if it names one. -/
def dictOf : Bytes → Option ℕ
  | format :: a :: b :: c :: d :: _ => if format = formatDict then some (ofBe [a, b, c, d]) else none
  | _ => none

/-- A packed value unpacked, with the dictionary it names. -/
def unpack (value : Bytes) (dict : ℕ → Option Bytes) : Option Bytes :=
  match value with
  | [] => none
  | format :: rest =>
    if format = formatRaw then some rest
    else if format = formatPlain then z.decompress rest
    else if format = formatDict then
      match rest with
      | a :: b :: c :: d :: frame => (dict (ofBe [a, b, c, d])).bind fun dict => z.decompressWith dict frame
      | _ => none
    else none

def unpackStored (value : Bytes) (dict : ℕ → Option Bytes) : Option Bytes :=
  if value.head? = some brace then some value else unpack z value dict

variable {z} {data value : Bytes} {id : ℕ} {dict : Bytes}

theorem dictOf_pack (h : pack z data = some value) : dictOf value = none := by
  obtain ⟨frame, -, rfl⟩ := map_eq_some_iff.mp h
  unfold dictOf
  split
  · rename_i format a b c d rest heq
    split_ifs at heq with hlt
    all_goals
      obtain rfl := (List.cons.inj heq).1
      exact if_neg (by decide)
  · rfl

theorem unpackStored_pack (h : pack z data = some value) (dicts : ℕ → Option Bytes) :
    unpackStored z value dicts = some data := by
  obtain ⟨frame, hframe, rfl⟩ := map_eq_some_iff.mp h
  split_ifs with hlt
  · exact z.decompress_compress data frame hframe
  · rfl

section

variable (h : packWith z data id dict = some value) (hid : id ≤ u32Max)
include h hid

theorem dictOf_packWith : dictOf value = some id := by
  obtain ⟨frame, -, rfl⟩ := map_eq_some_iff.mp h
  have hback : ofBe (beBytes 4 id) = id := ofBe_beBytes (by unfold u32Max at hid; omega)
  exact congrArg some hback

/-- A spec packed with a dictionary is unpacked with it. -/
theorem unpackStored_packWith {dicts : ℕ → Option Bytes} (hdict : dicts id = some dict) :
    unpackStored z value dicts = some data := by
  obtain ⟨frame, hframe, rfl⟩ := map_eq_some_iff.mp h
  have hback : ofBe (beBytes 4 id) = id := ofBe_beBytes (by unfold u32Max at hid; omega)
  change (dicts (ofBe (beBytes 4 id))).bind (fun dict => z.decompressWith dict frame) = some data
  rw [hback, hdict]
  exact z.decompressWith_compressWith dict data frame hframe

end

theorem unpackStored_mono {spec : Bytes} {dicts dicts' : ℕ → Option Bytes}
    (hmore : ∀ id dict, dictOf value = some id → dicts id = some dict → dicts' id = some dict)
    (h : unpackStored z value dicts = some spec) : unpackStored z value dicts' = some spec := by
  unfold unpackStored unpack at h ⊢
  split_ifs at h ⊢ with hbrace
  · exact h
  · match value with
    | [] => nomatch h
    | format :: rest =>
      dsimp only at h ⊢
      split_ifs at h ⊢ with hraw hplain hdict
      · exact h
      · exact h
      · match rest with
        | a :: b :: c :: d :: frame =>
          obtain ⟨dict, hfound, hframe⟩ := bind_eq_some_iff.mp h
          exact bind_eq_some_iff.mpr ⟨dict, hmore _ dict (if_pos hdict) hfound, hframe⟩
        | [] | [_] | [_, _] | [_, _, _] => nomatch h

end

/-!
## The history of jobs and their specs

Each job has a place in the history, a sequence past the newest, and its spec is stored packed. A spec
is packed before the transaction that stores it, and packed again without a dictionary if the one it
names is gone by then. Past a count the oldest jobs that were settled or expired go with their specs;
a finished job's spec goes as it expires, and its record stays.

Left out are the kept output, the briefs and counts of the history, and the egress reports, which share
these transactions.
-/

/-- The tables of the history. -/
structure Store where
  db : Db
  specs : Table String Bytes
  order : Table ℕ String
  /-- Every job placed below it has expired. -/
  expiredBelow : ℕ
  /-- By ID, the sequence the history had reached when it was trained, and the dictionary. -/
  dicts : Table ℕ (ℕ × Bytes)

def trimDrop : ℕ := 1000

/-- The most jobs one trim reads that cannot go yet. -/
def trimScan : ℕ := 10000

variable (s : Store)

namespace Store

/-- The sequence past the newest. -/
def reached : ℕ := s.order.last.elim 0 fun e => satAdd u64Max e.1 1

/-- The next sequence: past the newest, and not below what has expired. -/
def nextSeq (s : Store) : ℕ := max s.reached s.expiredBelow

/-- A packed spec, unless its dictionary was dropped: then the spec packed without one. -/
def specToStore (z : Zstd) (s : Store) (spec packed : Bytes) : Option Bytes :=
  match dictOf packed with
  | some id => if s.dicts.lookup id = none then pack z spec else some packed
  | none => some packed

/-- Record a job with its request and its spec, and place it in the history, or say what the request
came to before. -/
def submitJob (z : Zstd) (s : Store) (id : String) (row : JobRow) (digest : String) (spec packed : Bytes)
    (now : ℕ) : Option (Submitted × Store) :=
  (s.specToStore z spec packed).map fun value =>
    match s.db.submitJob id row digest now with
    | (.new, db) =>
      (.new, { s with
        db := db
        specs := s.specs.insert id value
        order := s.order.insert s.nextSeq id })
    | (before, _) => (before, s)

/-- The places that go as the history is trimmed, and the jobs dropped: at most so many, reading at most
so many. -/
def trim (jobs : Table String JobRow) (now : ℕ) : List (ℕ × String) → ℕ → ℕ → List ℕ × List String
  | [], _, _ => ([], [])
  | (seq, id) :: rest, excess, budget =>
    if excess = 0 || budget = 0 then ([], [])
    else
      match jobs.lookup id with
      | none =>
        let (unplaced, dropped) := trim jobs now rest (excess - 1) (budget - 1)
        (seq :: unplaced, dropped)
      | some row =>
        if row.droppable now then
          let (unplaced, dropped) := trim jobs now rest (excess - 1) (budget - 1)
          (seq :: unplaced, id :: dropped)
        else trim jobs now rest excess (budget - 1)

/-- How far the history has expired, from a place on, and the jobs that expire. -/
def expire (jobs : Table String JobRow) (now : ℕ) : List (ℕ × String) → ℕ → Bool → ℕ × List String
  | [], below, _ => (below, [])
  | (seq, id) :: rest, below, contiguous =>
    let next := if contiguous then satAdd u64Max seq 1 else below
    match jobs.lookup id with
    | none => expire jobs now rest next contiguous
    | some row =>
      if now - row.createdAt ≤ jobKeep then (below, [])
      else if row.expiredAt = none then
        if row.expires now then
          let (below, expired) := expire jobs now rest next contiguous
          (below, id :: expired)
        else expire jobs now rest below false
      else expire jobs now rest next contiguous

/-- Keep the history to its newest jobs, and expire jobs. -/
def pruneJobsScanning (now keep drop scan : ℕ) : Store :=
  let excess := min (s.order.entries.length - keep) drop
  let (unplaced, dropped) := trim s.db.jobs now s.order.sorted excess (satAdd u64Max excess scan)
  let order := s.order.retain fun seq _ => seq ∉ unplaced
  let jobs := (dropped.foldl (Db.dropJob now) s.db).jobs
  let (below, expired) := expire jobs now (order.sorted.filter fun e => s.expiredBelow ≤ e.1)
    s.expiredBelow true
  { s with
    db := s.db.pruneJobs now dropped expired
    specs := s.specs.retain fun id _ => id ∉ dropped && id ∉ expired
    order := order
    expiredBelow := below }

/-- Keep the history to its newest jobs, and expire jobs, within the bounds of one trim. -/
def pruneJobs (now keep : ℕ) : Store := s.pruneJobsScanning now keep trimDrop trimScan

end Store

/-!
## The dictionaries of job specs

Specs are packed with the newest dictionary. Its next is trained on the newest specs once enough jobs
were submitted, under an ID past the newest; specs stored without a dictionary are packed again with the
newest, a step at a time; and the dictionaries that no spec names are dropped, but the newest. They are
looked for in a read, and the write that drops them looks again at the specs submitted since, or at all
of them where the last place the read saw is no longer that job's.

In memory are the newest dictionary and those read so far, by ID; preparing one for zstd always works
here.
-/

/-- The newest dictionary, and the sequence it was trained at. -/
structure Current where
  id : ℕ
  trainedAt : ℕ
  dict : Bytes

/-- The dictionaries in memory: the newest, those read so far, the IDs of those dropped, and the sequence
before which no training is tried again. -/
structure SpecDicts where
  current : Option Current
  decoders : Table ℕ Bytes
  dropped : List ℕ
  retryAt : ℕ

structure Training where
  minSpecs : ℕ
  retrainAfter : ℕ
  samples : ℕ
  sampleBytes : ℕ
  dictSize : ℕ

/-- How many specs one step packs at most. -/
def packSpecs : ℕ := 256

/-- How many specs one step reads at most. -/
def packScan : ℕ := 4096

namespace SpecDicts

/-- The dictionaries in memory at a start. -/
def load (dicts : Table ℕ (ℕ × Bytes)) : SpecDicts :=
  ⟨dicts.last.map fun e => ⟨e.1, e.2.1, e.2.2⟩, ∅, [], 0⟩

/-- A spec packed with the newest dictionary, or without one before the first. -/
def packSpec (z : Zstd) (m : SpecDicts) (spec : Bytes) : Option Bytes :=
  match m.current with
  | some c => packWith z spec c.id c.dict
  | none => pack z spec

/-- Keep a dictionary that was read, unless it was dropped. -/
def keep (m : SpecDicts) (id : ℕ) (dict : Bytes) : SpecDicts :=
  if id ∈ m.dropped then m else { m with decoders := m.decoders.insert id dict }

/-- A dictionary by ID, from memory or of a transaction's, and the memory after. -/
def specDecoder (m : SpecDicts) (dicts : Table ℕ (ℕ × Bytes)) (id : ℕ) : Option Bytes × SpecDicts :=
  match m.decoders.lookup id with
  | some dict => (some dict, m)
  | none =>
    match dicts.lookup id with
    | none => (none, m)
    | some (_, dict) => (some dict, m.keep id dict)

/-- A stored spec unpacked, with the dictionaries of the same transaction. -/
def unpackSpec (z : Zstd) (m : SpecDicts) (dicts : Table ℕ (ℕ × Bytes)) (value : Bytes) : Option Bytes :=
  unpackStored z value fun id => (m.specDecoder dicts id).1

/-- The memory after a spec was unpacked. -/
def unpacked (m : SpecDicts) (dicts : Table ℕ (ℕ × Bytes)) (value : Bytes) : SpecDicts :=
  (dictOf value).elim m fun id => (m.specDecoder dicts id).2

/-- The specs that a dictionary is trained on, of jobs newest first, and the memory after. One that does
not unpack is left out. -/
def takeSamples (z : Zstd) (t : Training) (s : Store) :
    List (ℕ × String) → SpecDicts → List Bytes → ℕ → List Bytes × SpecDicts
  | [], m, samples, _ => (samples, m)
  | (_, id) :: rest, m, samples, bytes =>
    if t.samples ≤ samples.length then (samples, m)
    else
      match s.specs.lookup id with
      | none => takeSamples z t s rest m samples bytes
      | some value =>
        match m.unpackSpec z s.dicts value with
        | none => takeSamples z t s rest (m.unpacked s.dicts value) samples bytes
        | some spec =>
          let bytes := satAdd u64Max bytes spec.length
          if t.sampleBytes < bytes then (samples, m.unpacked s.dicts value)
          else takeSamples z t s rest (m.unpacked s.dicts value) (samples ++ [spec]) bytes

/-- Whether the next dictionary is to be trained. -/
def due (m : SpecDicts) (t : Training) (s : Store) : Bool :=
  t.minSpecs ≤ s.specs.entries.length && m.retryAt ≤ s.reached &&
    m.current.all fun c => t.retrainAfter ≤ s.reached - c.trainedAt

end SpecDicts

namespace Store

/-- The ID of the next dictionary, past the newest. -/
def nextDict : Option ℕ :=
  match s.dicts.last with
  | some (id, _) => if id < u32Max then some (id + 1) else none
  | none => some 1

def names (dict : ℕ) : Bool := s.specs.entries.any fun e => dictOf e.2 = some dict

/-- The dictionaries no spec names, but the newest, and the last place in the history. -/
def unusedSpecDicts (s : Store) : List ℕ × Option (ℕ × String) :=
  if s.dicts.entries.length ≤ 1 then ([], none)
  else
    match s.dicts.last with
    | none => ([], none)
    | some (newest, _) =>
      ((s.dicts.sorted.map Prod.fst).filter fun id => id ≠ newest && !s.names id, s.order.last)

/-- From which place on a write looks at the specs again: past the last one a read saw, if it is still
that job's; if not, at all specs. -/
def since : Option (ℕ × String) → Option ℕ
  | some (seq, id) => if s.order.lookup seq = some id then some (satAdd u64Max seq 1) else none
  | none => some 0

/-- Whether a dictionary is the newest, or named by a spec a write looks at. -/
def namedSince (last : Option (ℕ × String)) (dict : ℕ) : Bool :=
  s.dicts.last.any (fun e => e.1 = dict) || match s.since last with
    | some since => s.order.sorted.any fun e => since ≤ e.1 && (s.specs.lookup e.2).bind dictOf = some dict
    | none => s.names dict

/-- The candidates that are dropped, and the history after. -/
def dropSpecDicts (candidates : List ℕ) (last : Option (ℕ × String)) : List ℕ × Store :=
  let unused := candidates.filter fun id => !s.namedSince last id && (s.dicts.lookup id).isSome
  (unused, { s with dicts := s.dicts.retain fun id _ => id ∉ unused })

/-- The specs one step packs, with where the next goes on from, or nothing where zstd fails. -/
def packing (z : Zstd) (c : Current) (maxSpecs : ℕ) :
    List (String × Bytes) → ℕ → List (String × Bytes) → Option String →
      Option (List (String × Bytes) × Option String)
  | _, 0, packed, last => some (packed, last)
  | [], _ + 1, packed, last => some (packed, if maxSpecs ≤ packed.length then last else none)
  | (id, value) :: rest, scan + 1, packed, last =>
    if maxSpecs ≤ packed.length then some (packed, last)
    else if (dictOf value).isSome then packing z c maxSpecs rest scan packed (some id)
    else
      match unpackStored z value fun _ => none with
      | none => packing z c maxSpecs rest scan packed (some id)
      | some spec =>
        match packWith z spec c.id c.dict with
        | none => none
        | some value => packing z c maxSpecs rest scan (packed ++ [(id, value)]) (some id)

/-- The read of a step that packs specs keyed past one. -/
def packSpecsRead (z : Zstd) (s : Store) (c : Current) (after : Option String) (maxSpecs maxScan : ℕ) :
    Option (List (String × Bytes) × Option String) :=
  packing z c maxSpecs (s.specs.sorted.filter fun e => after.all (· < e.1)) maxScan [] none

/-- Store a spec packed again, unless it is gone or was packed with a dictionary since. -/
def repack (specs : Table String Bytes) (e : String × Bytes) : Table String Bytes :=
  match specs.lookup e.1 with
  | some stored => if dictOf stored = none then specs.insert e.1 e.2 else specs
  | none => specs

/-- The write of such a step: nothing once the dictionary was dropped. -/
def packSpecsWrite (c : Current) (packed : List (String × Bytes)) : Store :=
  if s.dicts.lookup c.id = none then s
  else { s with specs := packed.foldl repack s.specs }

end Store

end Virtkit.Specs
