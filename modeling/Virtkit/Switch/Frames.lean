import Mathlib.Order.Nat
import Virtkit.Common.Bytes
import Virtkit.Common.Lists

/-!
# Frames of a guest's stream

A guest's stream is read through a buffer, of which a window holds what is not handed out yet. A read may
bring several frames, or a part of one. The window moves back to the buffer's start when less than a
whole frame fits after it.
-/

namespace Virtkit.Switch

open Virtkit.Common List

def maxFrame : ℕ := 65535

/-- How much a read may bring. -/
def readBuf : ℕ := 256 * 1024

/-- What ends a stream too early. -/
inductive FrameError where
  | tooLong (len : ℕ)
  | truncated

/-- The bytes a socket still has, how many more than one each of its reads brings at most, and the room
there was for each read. -/
structure Socket where
  rest : Bytes
  sizes : ℕ → ℕ
  rooms : List ℕ

def Socket.read (s : Socket) (room : ℕ) : Bytes × Socket :=
  let n := min (s.sizes s.rooms.length + 1) room
  (s.rest.take n, { s with rest := s.rest.drop n, rooms := s.rooms ++ [room] })

theorem Socket.read_append (s : Socket) (room : ℕ) : (s.read room).1 ++ (s.read room).2.rest = s.rest :=
  take_append_drop _ _

/-- Every read had room. -/
def Socket.Roomy (s : Socket) : Prop := ∀ room ∈ s.rooms, 0 < room

theorem Socket.Roomy.read {s : Socket} (h : s.Roomy) {room : ℕ} (hroom : 0 < room) : (s.read room).2.Roomy :=
  forall_mem_append.mpr ⟨h, forall_mem_singleton.mpr hroom⟩

/-- The buffer, and where its window starts and ends. -/
structure FrameReader where
  buf : Bytes
  start : ℕ
  stop : ℕ

namespace FrameReader

/-- An empty buffer that holds at least a full frame. -/
def new : FrameReader := ⟨replicate (max readBuf (maxFrame + 4)) 0, 0, 0⟩

/-- Keep room for a whole frame after the window. -/
def compact (r : FrameReader) : FrameReader :=
  if r.buf.length - r.stop < maxFrame + 4 then
    ⟨between r.buf r.start r.stop ++ r.buf.drop (r.stop - r.start), 0, r.stop - r.start⟩
  else r

/-- A read behind the window. -/
def fill (r : FrameReader) (chunk : Bytes) : FrameReader :=
  { r with buf := r.buf.take r.stop ++ chunk ++ r.buf.drop (r.stop + chunk.length), stop := r.stop + chunk.length }

/-- The next frame as a range of the buffer, or none at the end of the stream. -/
def next (r : FrameReader) (s : Socket) : Except FrameError (Option (ℕ × ℕ)) × FrameReader × Socket :=
  let len := ofBe (between r.buf r.start (r.start + 4))
  if 4 ≤ r.stop - r.start ∧ maxFrame < len then (.error (.tooLong len), r, s)
  else if 4 ≤ r.stop - r.start ∧ 4 + len ≤ r.stop - r.start then
    (.ok (some (r.start + 4, r.start + 4 + len)), { r with start := r.start + 4 + len }, s)
  else
    let read := s.read (r.compact.buf.length - r.compact.stop)
    if _h : read.1 = [] then
      (if r.compact.stop = r.compact.start then .ok none else .error .truncated, r.compact, read.2)
    else next (r.compact.fill read.1) read.2
termination_by s.rest.length
decreasing_by
  have hlen : read.1.length + read.2.rest.length = s.rest.length := by
    rw [← length_append]
    exact congrArg length (s.read_append _)
  have hpos := length_pos_of_ne_nil _h
  change read.2.rest.length < s.rest.length
  omega

/-- The outcomes of so many calls, up to the end of the stream or an error. -/
def calls : ℕ → FrameReader → Socket → List (Except FrameError (Option Bytes)) × Socket
  | 0, _, s => ([], s)
  | k + 1, r, s =>
    match r.next s with
    | (.ok (some (lo, hi)), r, s) =>
      let (rest, s) := calls k r s
      (.ok (some (between r.buf lo hi)) :: rest, s)
    | (.ok none, _, s) => ([.ok none], s)
    | (.error e, _, s) => ([.error e], s)

def readAll (stream : Bytes) (sizes : ℕ → ℕ) : List (Except FrameError (Option Bytes)) × Socket :=
  calls (stream.length + 1) new ⟨stream, sizes, []⟩

/-- The bytes not handed out yet. -/
def window (r : FrameReader) : Bytes := between r.buf r.start r.stop

/-- A window within a buffer that holds a full frame. -/
structure Sound (r : FrameReader) : Prop where
  start : r.start ≤ r.stop
  stop : r.stop ≤ r.buf.length
  room : maxFrame + 4 ≤ r.buf.length

variable {r : FrameReader} {s : Socket}

theorem Sound.length (h : r.Sound) : r.window.length = r.stop - r.start := length_between h.stop

/-- Compacting moves the window to the start, and makes room. -/
theorem Sound.compact (h : r.Sound) : r.compact.Sound ∧ r.compact.window = r.window ∧
    (r.stop - r.start < maxFrame + 4 → r.compact.stop < r.compact.buf.length) := by
  obtain ⟨hstart, hstop, hroom⟩ := h
  unfold FrameReader.compact
  split_ifs with hfull
  · refine ⟨⟨?_, ?_, ?_⟩, ?_, ?_⟩ <;> grind [window, between]
  · exact ⟨⟨hstart, hstop, hroom⟩, rfl, fun _ => by omega⟩

theorem Sound.fill (h : r.Sound) (chunk : Bytes) :
    (r.fill chunk).Sound ∧ (r.fill chunk).window = r.window ++ chunk := by
  obtain ⟨hstart, hstop, hroom⟩ := h
  refine ⟨⟨?_, ?_, ?_⟩, ?_⟩ <;> grind [FrameReader.fill, window, between]

/-- A stream starts with a frame after its length. -/
structure Starts (stream frame rest : Bytes) : Prop where
  split : ∃ header, stream = header ++ frame ++ rest ∧ header.length = 4 ∧ ofBe header = frame.length
  fits : frame.length ≤ maxFrame

/-- The outcomes of a stream: its frames, up to its end or to what is no frame. -/
inductive Framed : Bytes → List (Except FrameError (Option Bytes)) → Prop
  | done : Framed [] [.ok none]
  | tooLong {stream : Bytes} (h : 4 ≤ stream.length) (hlen : maxFrame < ofBe (stream.take 4)) :
      Framed stream [.error (.tooLong (ofBe (stream.take 4)))]
  | truncated {stream : Bytes} (hne : stream ≠ [])
      (h : stream.length < 4 ∨ ofBe (stream.take 4) ≤ maxFrame ∧ stream.length < 4 + ofBe (stream.take 4)) :
      Framed stream [.error .truncated]
  | frame {stream frame rest : Bytes} {outcomes : List (Except FrameError (Option Bytes))}
      (h : Starts stream frame rest) (hrest : Framed rest outcomes) : Framed stream (.ok (some frame) :: outcomes)

/-- What a call comes to with a stream still to be handed out. -/
def Yields (stream : Bytes) : Except FrameError (Option (ℕ × ℕ)) × FrameReader × Socket → Prop
  | (.ok (some (lo, hi)), r, s) => r.Sound ∧ Starts stream (between r.buf lo hi) (r.window ++ s.rest)
  | (.ok none, _, _) => stream = []
  | (.error e, _, _) => Framed stream [.error e]

/-- One call gives the next frame, or says what ends the stream. -/
theorem Sound.next (h : r.Sound) (hs : s.Roomy) : Yields (r.window ++ s.rest) (r.next s) ∧ (r.next s).2.2.Roomy := by
  have hheader : ∀ {r : FrameReader} (rest : Bytes), r.Sound → 4 ≤ r.stop - r.start →
      between r.buf r.start (r.start + 4) = (r.window ++ rest).take 4 := by
    rintro r rest ⟨hstart, hstop, hroom⟩ h4
    rw [take_append_of_le_length (by grind [window, between]), window, between, between, drop_take, drop_take, take_take]
    congr 1
    omega
  fun_induction FrameReader.next r s with
  | case1 r s len hlong =>
    have hlen := h.length
    have hhead : len = ofBe ((r.window ++ s.rest).take 4) := congrArg ofBe (hheader _ h hlong.1)
    exact ⟨hhead ▸ .tooLong (by grind) (hhead ▸ hlong.2), hs⟩
  | case2 r s len hlong hwhole =>
    obtain ⟨hstart, hstop, hroom⟩ := h
    have hframe : (between r.buf (r.start + 4) (r.start + 4 + len)).length = len := by grind [between]
    refine ⟨⟨⟨?_, hstop, hroom⟩, ⟨between r.buf r.start (r.start + 4), ?_, ?_, hframe.symm⟩, ?_⟩, hs⟩
    · grind
    · rw [← append_assoc, between_append (Nat.le_add_right _ 4) (Nat.le_add_right _ len)]
      exact congrArg (· ++ s.rest) (between_append (by omega) (show r.start + 4 + len ≤ r.stop by omega)).symm
    · grind [between]
    · grind
  | case3 r s len hlong hshort read hnil =>
    obtain ⟨hsound, hwindow, hroom⟩ := h.compact
    have hroom := hroom (by omega)
    have hrest : s.rest = [] := (take_eq_nil_iff.mp hnil).resolve_left (by omega)
    have hlen := h.length
    have hsame := hwindow ▸ hsound.length
    have hstart := hsound.start
    refine ⟨?_, hs.read (by omega)⟩
    rw [hrest, append_nil]
    split_ifs with hdone
    · exact length_eq_zero_iff.mp (by omega)
    · refine Framed.truncated (by grind) ?_
      by_cases h4 : 4 ≤ r.stop - r.start
      · have hhead : ofBe (r.window.take 4) = len := by rw [← append_nil r.window, ← hheader _ h h4]
        omega
      · omega
  | case4 r s len hlong hshort read hnil ih =>
    obtain ⟨hsound, hwindow, hroom⟩ := h.compact
    obtain ⟨hfill, hfilled⟩ := hsound.fill read.1
    rw [hfilled, hwindow, append_assoc, Socket.read_append] at ih
    exact ih hfill (hs.read (by omega))

theorem Sound.calls (h : r.Sound) (hs : s.Roomy) {k : ℕ} (hk : (r.window ++ s.rest).length < k) :
    Framed (r.window ++ s.rest) (r.calls k s).1 ∧ (r.calls k s).2.Roomy := by
  induction k generalizing r s with
  | zero => omega
  | succ k ih =>
    obtain ⟨hyields, hs'⟩ := h.next hs
    unfold FrameReader.calls
    rcases hnext : r.next s with ⟨_ | _ | ⟨lo, hi⟩, r', s'⟩ <;> rw [hnext] at hyields hs'
    · exact ⟨hyields, hs'⟩
    · rw [show r.window ++ s.rest = [] from hyields]
      exact ⟨.done, hs'⟩
    · obtain ⟨hsound, hstarts⟩ := hyields
      obtain ⟨header, hsplit, hheader, -⟩ := hstarts.split
      have hshort : (r'.window ++ s'.rest).length < k := by
        rw [hsplit, length_append, length_append, hheader] at hk
        omega
      obtain ⟨hframed, hrest⟩ := ih hsound hs' hshort
      exact ⟨.frame hstarts hframed, hrest⟩

/-- However the socket splits a stream, the outcomes are those of the stream, and every read has room. -/
theorem readAll_framed (stream : Bytes) (sizes : ℕ → ℕ) :
    Framed stream (readAll stream sizes).1 ∧ ∀ room ∈ (readAll stream sizes).2.rooms, 0 < room := by
  have hroom : maxFrame + 4 ≤ new.buf.length := by
    rw [new, length_replicate]
    exact Nat.le_max_right _ _
  have hnew : new.Sound := ⟨Nat.zero_le _, Nat.zero_le _, hroom⟩
  exact @hnew.calls _ ⟨stream, sizes, []⟩ (fun _ h => absurd h not_mem_nil) _ (Nat.lt_succ_self _)

end FrameReader

end Virtkit.Switch
