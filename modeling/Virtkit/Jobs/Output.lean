import Mathlib.Data.List.Infix
import Virtkit.Common.Files
import Virtkit.Common.Lists
import Virtkit.Common.Saturating

/-!
# A job's output

A node sends a running job's output in chunks, each with its offset, and again from the last acked offset on
after it reconnects. The hub stores what it does not have yet, up to the job's cap. Past the cap it acks output
that it does not store, and no longer knows how much of it came.

The messages of one job are handled one at a time, as those of a session are.
-/

namespace Virtkit.Jobs

open Virtkit.Common List Nat

def maxOutputChunk : ℕ := 256 * 1024

/-- A chunk of output: its offset, and the bytes its base64 stands for, if it does for any. -/
structure OutputMsg where
  offset : ℕ
  data : Option Bytes

/-- What the hub has of a live job's output. -/
structure Output where
  file : File
  outputLen : ℕ
  outputCap : ℕ

/-- Why output is not acked. -/
inductive OutputError
  | notBase64
  | chunkTooLong (len : ℕ)
  | skips (received offset : ℕ)
  | noOutputDir
  | unwritten
  deriving DecidableEq

/-- The node broke the protocol. -/
def OutputError.isViolation : OutputError → Bool
  | .notBase64 | .chunkTooLong _ | .skips _ _ => true
  | .noOutputDir | .unwritten => false

/-- How a write of output goes: it may fail after some of the bytes. -/
inductive Writing
  | done
  | fails (written : ℕ)
  | noOutputDir

/-- A message as it comes to the hub: whether the job runs on the node then, and how a write goes. -/
structure Delivery where
  msg : OutputMsg
  mine : Bool
  writing : Writing

namespace Output

/-- A job with no output yet. -/
def new (cap : ℕ) : Output := ⟨.empty, 0, cap⟩

variable (o : Output)

/-- The bytes of a chunk that are stored: those not received yet, up to the cap. -/
def kept (offset : ℕ) (bytes : Bytes) : Bytes :=
  (bytes.drop (o.outputLen - offset)).take (o.outputCap - o.outputLen)

/-- Store bytes after those received. -/
def store (kept : Bytes) (ack : ℕ) : Writing → Except OutputError ℕ × Output
  | .noOutputDir => (.error .noOutputDir, o)
  | .fails n => (.error .unwritten, { o with file := o.file.write o.outputLen (kept.take n) })
  | .done => (.ok ack, { o with
        file := o.file.write o.outputLen kept
        outputLen := satAdd u64Max o.outputLen kept.length })

/-- A chunk that is well formed, of a job on the node. -/
def receive (offset : ℕ) (bytes : Bytes) (w : Writing) : Except OutputError ℕ × Output :=
  if o.outputLen < offset ∧ o.outputLen < o.outputCap then (.error (.skips o.outputLen offset), o)
  else
    let ack := max (satAdd u64Max offset bytes.length) o.outputLen
    if (o.kept offset bytes).isEmpty then (.ok ack, o) else o.store (o.kept offset bytes) ack w

/-- The hub is told of output, and acks it or does not. A job that does not run on the node is being cancelled:
what it still sends is acked and dropped. -/
def onOutput (d : Delivery) : Except OutputError ℕ × Output :=
  match d.msg.data with
  | none => (.error .notBase64, o)
  | some bytes =>
    if maxOutputChunk < bytes.length then (.error (.chunkTooLong bytes.length), o)
    else if d.mine then o.receive d.msg.offset bytes d.writing
    else (.ok (satAdd u64Max d.msg.offset bytes.length), o)

/-- The output after messages. -/
def run (ds : List Delivery) : Output := ds.foldl (fun o d => (o.onOutput d).2) o

def stored (o : Output) : Bytes := o.file.slice 0 o.outputLen

def Refuses (d : Delivery) : Prop := ∃ e, (o.onOutput d).1 = .error e ∧ e.isViolation = true

end Output

/-- A message's bytes are those of a stream at its offset. -/
def OutputMsg.IsSlice (stream : Bytes) (m : OutputMsg) : Prop :=
  ∃ bytes, m.data = some bytes ∧ m.offset + bytes.length ≤ stream.length ∧
    bytes = (stream.drop m.offset).take bytes.length

namespace Output

variable {stream : Bytes} {o : Output} {d : Delivery}

/-- What the hub has is the start of the stream, within the cap. -/
structure Holds (stream : Bytes) (o : Output) : Prop where
  within : o.outputLen ≤ o.outputCap
  length : o.outputLen ≤ stream.length
  byte : ∀ i < o.outputLen, o.file.byte i = stream.getD i 0

theorem Holds.stored (h : o.Holds stream) : o.stored = stream.take o.outputLen := by
  have htake := take_drop_eq_map_range (l := stream) (i := 0) (k := o.outputLen) (by have := h.length; omega) 0
  rw [drop_zero] at htake
  rw [htake, Output.stored, File.slice]
  refine map_congr_left fun i hi => ?_
  rw [zero_add, h.byte i (mem_range.mp hi)]

/-- What is kept of a message is the part of the stream that is next. -/
theorem Holds.kept (h : o.Holds stream) {offset : ℕ} {bytes : Bytes} (hgap : offset ≤ o.outputLen)
    (hbytes : bytes = (stream.drop offset).take bytes.length) :
    (o.kept offset bytes).length = min o.outputCap (max o.outputLen (offset + bytes.length)) - o.outputLen ∧
      ∀ i < (o.kept offset bytes).length, (o.kept offset bytes).getD i 0 = stream.getD (o.outputLen + i) 0 := by
  have hlen : (o.kept offset bytes).length =
      min o.outputCap (max o.outputLen (offset + bytes.length)) - o.outputLen := by
    have := h.within
    rw [Output.kept, length_take, length_drop]
    omega
  refine ⟨hlen, fun i hi => ?_⟩
  rw [Output.kept] at hi ⊢
  rw [length_take, length_drop] at hi
  rw [getD_take_drop (by omega), hbytes, getD_take_drop (by omega)]
  congr 1
  omega

theorem kept_eq_nil {offset : ℕ} {bytes : Bytes} (hcap : o.outputCap ≤ o.outputLen) : o.kept offset bytes = [] := by
  rw [Output.kept, Nat.sub_eq_zero_of_le hcap, take_zero]

/-- A write of the stream's next bytes holds more of the stream. -/
theorem Holds.write (h : o.Holds stream) {data : Bytes} {len : ℕ}
    (hlen : len ≤ o.outputLen + data.length) (hcap : len ≤ o.outputCap) (hin : len ≤ stream.length)
    (hdata : ∀ i < data.length, data.getD i 0 = stream.getD (o.outputLen + i) 0) :
    Holds stream { o with file := o.file.write o.outputLen data, outputLen := len } := by
  refine ⟨hcap, hin, fun i hi => ?_⟩
  rw [File.write, File.byte_writeFn]
  split_ifs with hnew
  · rw [hdata _ (by omega)]
    congr 1
    omega
  · exact h.byte i (by change i < len at hi; omega)

/-- One message: what is held stays the start of the stream, and does not shrink; and a chunk that is taken, and
written, counts up to the cap. -/
theorem Holds.onOutput (h : o.Holds stream) (hcap : o.outputCap ≤ u64Max) (hd : d.msg.IsSlice stream) :
    (o.onOutput d).2.Holds stream ∧ (o.onOutput d).2.outputCap = o.outputCap ∧
      o.outputLen ≤ (o.onOutput d).2.outputLen ∧
      ∀ bytes, d.msg.data = some bytes → bytes.length ≤ maxOutputChunk → d.mine = true → d.writing = .done →
        (d.msg.offset ≤ o.outputLen ∨ o.outputCap ≤ o.outputLen) →
        (o.onOutput d).2.outputLen = max o.outputLen (min o.outputCap (d.msg.offset + bytes.length)) := by
  obtain ⟨bytes, hsome, hin, hbytes⟩ := hd
  have hwithin := h.within
  rw [Output.onOutput, hsome]
  dsimp only
  split_ifs with hlong hmine
  · refine ⟨h, rfl, le_rfl, fun _ heq hshort => ?_⟩
    cases heq
    omega
  · rw [receive]
    split_ifs with hskips hempty
    · exact ⟨h, rfl, le_rfl, fun _ _ _ _ _ hno => by omega⟩
    · refine ⟨h, rfl, le_rfl, fun _ heq _ _ _ hno => ?_⟩
      cases heq
      rcases hno with hgap | hfull
      · have hlen := (h.kept hgap hbytes).1
        rw [isEmpty_iff.mp hempty, length_nil] at hlen
        dsimp only
        omega
      · dsimp only
        omega
    · have hgap : d.msg.offset ≤ o.outputLen := by
        by_contra hgap
        exact hempty (isEmpty_iff.mpr (kept_eq_nil (by omega)))
      obtain ⟨hlen, hdata⟩ := h.kept hgap hbytes
      have hend := h.length
      cases hw : d.writing with
      | noOutputDir => exact ⟨h, rfl, le_rfl, nofun⟩
      | fails n =>
        refine ⟨h.write (le_add_right _ _) hwithin hend fun i hi => ?_, rfl, le_rfl, nofun⟩
        rw [length_take] at hi
        rw [← drop_zero (l := o.kept _ _), getD_take_drop (by omega), zero_add]
        exact hdata i (by omega)
      | done =>
        have hsum : satAdd u64Max o.outputLen (o.kept d.msg.offset bytes).length =
            o.outputLen + (o.kept d.msg.offset bytes).length := by
          rw [satAdd]
          omega
        rw [store, hsum]
        refine ⟨h.write le_rfl (by omega) (by omega) hdata, rfl, le_add_right _ _, fun _ heq _ _ _ _ => ?_⟩
        cases heq
        dsimp only
        omega
  · exact ⟨h, rfl, le_rfl, fun _ _ _ hno => absurd hno hmine⟩

/-- Any deliveries leave a start of the stream. -/
theorem Holds.run (h : o.Holds stream) (hcap : o.outputCap ≤ u64Max) {ds : List Delivery}
    (hds : ∀ d ∈ ds, d.msg.IsSlice stream) : (o.run ds).Holds stream ∧ (o.run ds).outputCap = o.outputCap := by
  induction ds generalizing o with
  | nil => exact ⟨h, rfl⟩
  | cons d ds ih =>
    obtain ⟨hheld, hsame, -⟩ := h.onOutput hcap (hds d mem_cons_self)
    obtain ⟨hrun, hcap'⟩ := ih hheld (hsame.trans_le hcap) fun d' hd' => hds d' (mem_cons_of_mem d hd')
    exact ⟨hrun, hcap'.trans hsame⟩

theorem refuses_iff (hd : d.msg.IsSlice stream) :
    o.Refuses d ↔ (∃ bytes, d.msg.data = some bytes ∧ maxOutputChunk < bytes.length) ∨
      (∀ bytes, d.msg.data = some bytes → bytes.length ≤ maxOutputChunk) ∧
        d.mine = true ∧ o.outputLen < d.msg.offset ∧ o.outputLen < o.outputCap := by
  obtain ⟨bytes, hsome, -, -⟩ := hd
  simp only [Refuses, Output.onOutput, hsome, Option.some.injEq, exists_eq_left', forall_eq']
  by_cases hlong : maxOutputChunk < bytes.length
  · simp [hlong, OutputError.isViolation]
  · rw [if_neg hlong]
    by_cases hmine : d.mine = true
    · by_cases hskips : o.outputLen < d.msg.offset ∧ o.outputLen < o.outputCap
      · simp [hmine, hskips, receive, OutputError.isViolation, not_lt.mp hlong]
      · rw [if_pos hmine, receive, if_neg hskips]
        dsimp only
        split_ifs with hempty
        · simp [hlong, hskips]
        · cases d.writing <;> simp [store, hlong, hskips, OutputError.isViolation]
    · simp [hlong, hmine]

/-- The hub puts a job's output together: after any messages with slices of a stream, repeated, overlapping or past
the cap, what is stored is the start of the stream; the next message does not take any of it back, and is refused
exactly if it is too long or leaves a gap while the cap is not reached; and if it is taken and written, the output
reaches as far as it does, up to the cap. -/
theorem output_put_together (stream : Bytes) (cap : ℕ) (hcap : cap ≤ u64Max) (ds : List Delivery)
    (hds : ∀ d ∈ ds, d.msg.IsSlice stream) :
    ((new cap).run ds).stored = (stream.take ((new cap).run ds).outputLen).take cap ∧
    ∀ d, d.msg.IsSlice stream → ((new cap).run ds).outputLen ≤ (((new cap).run ds).onOutput d).2.outputLen ∧
      (((new cap).run ds).Refuses d ↔ (∃ bytes, d.msg.data = some bytes ∧ maxOutputChunk < bytes.length) ∨
        (∀ bytes, d.msg.data = some bytes → bytes.length ≤ maxOutputChunk) ∧
          d.mine = true ∧ ((new cap).run ds).outputLen < d.msg.offset ∧ ((new cap).run ds).outputLen < cap) ∧
      (¬ ((new cap).run ds).Refuses d → d.mine = true → d.writing = .done → ∀ bytes, d.msg.data = some bytes →
        (((new cap).run ds).onOutput d).2.outputLen =
          max ((new cap).run ds).outputLen (min cap (d.msg.offset + bytes.length))) := by
  have hnew : (new cap).Holds stream := ⟨zero_le _, zero_le _, fun i hi => absurd hi (not_lt_zero i)⟩
  obtain ⟨hheld, hsame⟩ := hnew.run hcap hds
  have hsame : ((new cap).run ds).outputCap = cap := hsame
  have hwithin := hheld.within
  rw [hsame] at hwithin
  refine ⟨?_, fun d hd => ?_⟩
  · rw [hheld.stored, take_take, min_eq_right hwithin]
  · obtain ⟨-, -, hle, hreach⟩ := hheld.onOutput (hsame.trans_le hcap) hd
    have hrefuses := refuses_iff (o := (new cap).run ds) hd
    rw [hsame] at hrefuses hreach
    refine ⟨hle, hrefuses, fun htaken hmine hdone bytes hbytes => ?_⟩
    rw [hrefuses, not_or, not_exists] at htaken
    have hshort : bytes.length ≤ maxOutputChunk := not_lt.mp fun hlong => htaken.1 bytes ⟨hbytes, hlong⟩
    have hshorts : ∀ b, d.msg.data = some b → b.length ≤ maxOutputChunk := by
      intro b hb
      rwa [Option.some.inj (hb.symm.trans hbytes)]
    have hnot : ¬ (((new cap).run ds).outputLen < d.msg.offset ∧ ((new cap).run ds).outputLen < cap) :=
      fun hgap => htaken.2 ⟨hshorts, hmine, hgap⟩
    exact hreach bytes hbytes hshort hmine hdone (by omega)

/-- A stream of four bytes: its second byte is sent again, and it is cut at a cap of three. -/
theorem output_put_together_resent :
    ((new 3).run [⟨⟨0, some [1, 2]⟩, true, .done⟩, ⟨⟨1, some [2, 3]⟩, true, .done⟩]).stored =
      (([1, 2, 3, 4] : Bytes).take
        ((new 3).run [⟨⟨0, some [1, 2]⟩, true, .done⟩, ⟨⟨1, some [2, 3]⟩, true, .done⟩]).outputLen).take 3 := by
  refine (output_put_together [1, 2, 3, 4] 3 (by decide) _ fun d hd => ?_).1
  rcases mem_cons.mp hd with rfl | hd
  · exact ⟨[1, 2], rfl, by decide, rfl⟩
  · obtain rfl := mem_singleton.mp hd
    exact ⟨[2, 3], rfl, by decide, rfl⟩

/-- Once the cap is reached, a gap is not seen: the second byte of the stream never came. -/
theorem gap_taken_past_cap : ((new 1).run [⟨⟨0, some [1]⟩, true, .done⟩]).outputLen = 1 ∧
      (((new 1).run [⟨⟨0, some [1]⟩, true, .done⟩]).onOutput ⟨⟨2, some [3]⟩, true, .done⟩).1 = .ok 3 :=
  ⟨rfl, rfl⟩

end Output

end Virtkit.Jobs
