import Virtkit.Mask.Phrase

/-!
# The trace file

Where a job's masked output goes: a file cut at the trace limit, with a notice. A driver started again on the file takes
its length for what was written, and the file for cut where that is not below the limit.
-/

namespace Virtkit.Mask

open Virtkit.Common List

/-- The loop of `utf8Cut`, on the bytes up to its cap. -/
def cutLoop : ℕ → Bytes → Bytes
  | 0, head => head
  | n + 1, head => if endsInside head ∧ head ≠ [] then cutLoop n head.dropLast else head

/-- Bytes cut to a cap without splitting a UTF-8 sequence. -/
def utf8Cut (b : Bytes) (cap : ℕ) : Bytes := cutLoop 4 (b.take cap)

theorem cutLoop_spec (n : ℕ) (head : Bytes) : cutLoop n head <+: head ∧ head.length ≤ (cutLoop n head).length + n := by
  induction n generalizing head with
  | zero => exact ⟨prefix_rfl, le_rfl⟩
  | succ n ih =>
    unfold cutLoop
    split_ifs
    · obtain ⟨hsub, hlen⟩ := ih head.dropLast
      rw [length_dropLast] at hlen
      exact ⟨hsub.trans ( dropLast_prefix head), by omega⟩
    · exact ⟨prefix_rfl, by omega⟩

/-- Cutting back to a whole character leaves a text. -/
theorem isUtf8_cutLoop {n : ℕ} {head : Bytes} {due : List (UInt8 × UInt8)} (h : utf8Due head = some due)
    (hn : due = [] ∨ 4 ≤ n + due.length) : isUtf8 (cutLoop n head) = true := by
  induction head using List.reverseRecOn generalizing n due with
  | nil => cases n <;> simp [cutLoop] <;> rfl
  | append_singleton head b ih =>
    cases due with
    | nil => cases n <;> simp [cutLoop, endsInside, h, isUtf8]
    | cons r due =>
      have hle := length_le_of_utf8Due h
      simp only [length_cons, reduceCtorEq, false_or] at hn hle
      obtain ⟨n, rfl⟩ := Nat.exists_eq_succ_of_ne_zero (n := n) (by omega)
      rw [cutLoop, if_pos (by simp [endsInside, h]), dropLast_concat]
      rw [utf8Due_append, Option.bind_eq_some_iff] at h
      obtain ⟨due', hdue', h⟩ := h
      refine ih hdue' ?_
      cases due' with
      | nil => exact .inl rfl
      | cons r' due' =>
        simp [utf8Step] at h
        simp [h.2]
        omega

theorem isUtf8_utf8Cut {b : Bytes} (h : isUtf8 b = true) (cap : ℕ) : isUtf8 (utf8Cut b cap) = true := by
  have hdue := of_decide_eq_true h
  rw [← take_append_drop cap b] at hdue
  obtain ⟨due, hdue⟩ := utf8Due_of_append hdue
  exact isUtf8_cutLoop hdue (.inr (Nat.le_add_right _ _))

/-- The trace file, and what its driver holds of it. -/
structure Sink where
  file : Bytes
  written : ℕ
  cut : Bool

namespace Sink

/-- Append to a file that is there already. -/
def openFile (limit : ℕ) (file : Bytes) : Sink := ⟨file, file.length, limit ≤ file.length⟩

def append (s : Sink) (b : Bytes) : Sink := { s with file := s.file ++ b, written := s.written + b.length }

/-- What the file ends with once it is cut. -/
def notice (limit : ℕ) : Bytes :=
  ascii "\n\x1b[33;1mJob's log exceeded limit of " ++ ascii (toString limit) ++
    ascii " bytes.\nJob execution will continue but no more output will be collected.\x1b[0;m\n"

/-- Output: past the limit it is cut on a UTF-8 boundary, that is said once, and the rest is dropped. -/
def put (limit : ℕ) (s : Sink) (b : Bytes) : Sink :=
  if s.cut || b.isEmpty then s
  else
    let room := limit - s.written
    if b.length < room then s.append b
    else { s.append (utf8Cut b room) with cut := true }.append (notice limit)

/-- Output, or another driver on the file. -/
inductive Event
  | put (b : Bytes)
  | reopen

def Event.bytes : Event → Bytes
  | .put b => b
  | .reopen => []

def step (limit : ℕ) (s : Sink) : Event → Sink
  | .put b => s.put limit b
  | .reopen => .openFile limit s.file

def output (es : List Event) : Bytes := es.flatMap Event.bytes

/-- What is kept of the output when it is cut: as much of its start as the limit allows, valid where the output is. -/
structure Kept (limit : ℕ) (es : List Event) (kept : Bytes) : Prop where
  sub : kept <+: output es
  le : kept.length ≤ limit
  ge : limit ≤ kept.length + 4
  utf8 : (∀ e ∈ es, isUtf8 e.bytes = true) → isUtf8 kept = true

/-- The file holds all the output, or it was cut. -/
inductive Holds (limit : ℕ) (es : List Event) : Sink → Prop
  | whole (h : (output es).length < limit) : Holds limit es ⟨output es, (output es).length, false⟩
  | cut (kept : Bytes) (h : Kept limit es kept) (hfull : limit ≤ (output es).length) :
    Holds limit es ⟨kept ++ notice limit, (kept ++ notice limit).length, true⟩

variable {limit : ℕ} {es : List Event} {s : Sink}

theorem output_concat (es : List Event) (e : Event) : output (es ++ [e]) = output es ++ e.bytes := by
  simp [output]

theorem Kept.concat {kept : Bytes} (h : Kept limit es kept) (e : Event) : Kept limit (es ++ [e]) kept where
  sub := h.sub.trans (output_concat es e ▸ prefix_append _ _)
  le := h.le
  ge := h.ge
  utf8 hall := h.utf8 fun e he => hall e (mem_append_left _ he)

/-- The write that passes the limit is cut at a character. -/
theorem kept_utf8Cut (hlt : (output es).length < limit) {b : Bytes} (hb : limit ≤ (output es).length + b.length) :
    Kept limit (es ++ [.put b]) (output es ++ utf8Cut b (limit - (output es).length)) := by
  obtain ⟨hsub, hlen⟩ := cutLoop_spec 4 (b.take (limit - (output es).length))
  have hle := hsub.length_le
  rw [length_take, min_eq_left (by omega)] at hlen hle
  refine ⟨?_, ?_, ?_, fun hall => ?_⟩
  · rw [output_concat]
    exact (prefix_append_right_inj _).mpr (hsub.trans ( take_prefix _ _))
  · rw [length_append, utf8Cut]
    omega
  · rw [length_append, utf8Cut]
    omega
  · have hes : isUtf8 (output es) = true := isUtf8_flatten fun a ha => by
      obtain ⟨e, he, rfl⟩ := mem_map.mp ha
      exact hall e (mem_append_left _ he)
    rw [isUtf8, utf8Due_append_of_isUtf8 hes]
    exact isUtf8_utf8Cut (hall (.put b) (mem_append_right _ (mem_singleton_self _))) _

theorem append_mk (file b : Bytes) (cut : Bool) :
    (⟨file, file.length, cut⟩ : Sink).append b = ⟨file ++ b, (file ++ b).length, cut⟩ := by
  rw [append, length_append]

/-- Every event keeps the file a start of the output. -/
theorem Holds.step (h : Holds limit es s) (e : Event) : Holds limit (es ++ [e]) (s.step limit e) := by
  have hlen : (output (es ++ [e])).length = (output es).length + e.bytes.length := by
    rw [output_concat, length_append]
  cases h with
  | whole h =>
    have hwhole : (output es).length + e.bytes.length < limit →
        Holds limit (es ++ [e]) ⟨output es ++ e.bytes, (output es ++ e.bytes).length, false⟩ := fun hroom =>
      output_concat es e ▸ .whole (hlen ▸ hroom)
    cases e with
    | put b =>
      simp only [Sink.step, put, append_mk, Bool.false_or]
      split_ifs with hempty hroom
      · obtain rfl := isEmpty_iff.mp hempty
        simpa only [Event.bytes, append_nil] using hwhole h
      · exact hwhole (by simp only [Event.bytes]; omega)
      · have hb : limit ≤ (output es).length + b.length := by omega
        exact .cut _ (kept_utf8Cut h hb) (hlen ▸ hb)
    | reopen =>
      rw [Sink.step, Sink.openFile, decide_eq_false (Nat.not_le.mpr h)]
      simpa only [Event.bytes, append_nil] using hwhole h
  | cut kept h hfull =>
    have hkept : Holds limit (es ++ [e]) _ := .cut kept (h.concat e) (by omega)
    cases e with
    | put b => exact hkept
    | reopen =>
      have hge := h.ge
      have hfile : limit ≤ (kept ++ notice limit).length := by
        simp [notice, ascii]
        omega
      rw [Sink.step, Sink.openFile, decide_eq_true hfile]
      exact hkept

/-- After any output and any number of drivers, the file is all the output, or what is kept of it and the notice. -/
theorem trace_is_bounded (hlimit : 0 < limit) (es : List Event) :
    let file := (es.foldl (step limit) (.openFile limit [])).file
    ((output es).length < limit → file = output es) ∧
      (limit ≤ (output es).length → ∃ kept, Kept limit es kept ∧ file = kept ++ notice limit) := by
  have h : Holds limit es (es.foldl (Sink.step limit) (.openFile limit [])) := by
    induction es using List.reverseRecOn with
    | nil =>
      have hopen : Sink.openFile limit [] = ⟨[], 0, false⟩ := by simp [Sink.openFile, hlimit.ne']
      exact hopen ▸ .whole hlimit
    | append_singleton es e ih =>
      rw [foldl_append]
      exact ih.step e
  generalize es.foldl (Sink.step limit) (.openFile limit []) = s at h
  cases h with
  | whole h => exact ⟨fun _ => rfl, fun hfull => absurd hfull (by omega)⟩
  | cut kept h hfull => exact ⟨fun hlt => absurd hlt (by omega), fun _ => ⟨kept, h, rfl⟩⟩

/-- An output cut inside a sequence, between two restarts. -/
theorem trace_is_bounded_three : let es := [.put [0x61, 0x62], .reopen, .put [0xC3, 0xA9], .reopen, .put [0x63]]
    ∃ kept, Kept 3 es kept ∧ (es.foldl (step 3) (.openFile 3 [])).file = kept ++ notice 3 :=
  (trace_is_bounded (by decide) _).2 (by decide)

end Sink

end Virtkit.Mask
