import Mathlib.Algebra.Group.Nat.Defs
import Mathlib.Data.List.Infix
import Virtkit.Common.Separated
import Virtkit.Common.Text

/-!
# A job's history

A line for each run of a job: when it was, and what it used. A line is read by its fields, and one that does not
parse is dropped. A figure nobody could take is `-`, which is not a figure of zero. Lines of before the footprint was
recorded are one field shorter.

A carriage return before a newline is white, and so is in no field; what follows the last newline is a line too,
with no field if nothing does.
-/

namespace Virtkit.Admit

open Virtkit.Common List

abbrev Text := List Char

/-- What a run used. -/
structure Sample where
  atSecs : U64
  peak : U64
  ceiling : U64
  disk : Option (U64 × U64)
  network : Option (U64 × U64)
  overlay : Option (U64 × U64)
  footprint : Option U64
  deriving DecidableEq

/-- The characters that separate fields: those with Unicode's White_Space property. -/
def isWhite (c : Char) : Bool :=
  let n := c.toNat
  (9 ≤ n && n ≤ 13) || n == 0x20 || n == 0x85 || n == 0xA0 || n == 0x1680 || (0x2000 ≤ n && n ≤ 0x200A) ||
    n == 0x2028 || n == 0x2029 || n == 0x202F || n == 0x205F || n == 0x3000

def splitWhitespace (line : Text) : List Text := (line.splitOnP isWhite).filter (!·.isEmpty)

/-- A figure, or the mark that there is none. -/
def unmeasurableOr (f : Text) : Option (Option U64) := if f = ['-'] then some none else (parseU64 f).map some

/-- Both halves of a pair or neither. -/
def parsePair (one other : Text) : Option (Option (U64 × U64)) := do
  let one ← unmeasurableOr one
  let other ← unmeasurableOr other
  pure (match one, other with
    | some one, some other => some (one, other)
    | _, _ => none)

/-- The footprint, which older lines do not have. -/
def parseFootprint : List Text → Option (Option U64)
  | f :: _ => unmeasurableOr f
  | [] => some none

/-- A run from the fields of its line. -/
def parseFields : List Text → Option Sample
  | atSecs :: peak :: ceiling :: read :: written :: sent :: received :: mark :: capacity :: rest => do
    let atSecs ← parseU64 atSecs
    let peak ← parseU64 peak
    let ceiling ← parseU64 ceiling
    let disk ← parsePair read written
    let network ← parsePair sent received
    let overlay ← parsePair mark capacity
    let footprint ← parseFootprint rest
    pure ⟨atSecs, peak, ceiling, disk, network, overlay, footprint⟩
  | _ => none

/-- Read a history, oldest first. -/
def parse (text : Text) : List Sample := (text.splitOn '\n').filterMap fun line => parseFields (splitWhitespace line)

def decimal (n : U64) : Text := Nat.toDigits 10 n

/-- A figure, or the mark that there is none. -/
def figure (f : Option U64) : Text := f.elim ['-'] decimal

def pairFields : Option (U64 × U64) → List Text
  | some (one, other) => [decimal one, decimal other]
  | none => [['-'], ['-']]

variable (s : Sample)

namespace Sample

/-- The fields of a run's line. -/
def fields : List Text :=
  [decimal s.atSecs, decimal s.peak, decimal s.ceiling] ++ pairFields s.disk ++ pairFields s.network ++
    pairFields s.overlay ++ [figure s.footprint]

/-- A run's line but for its newline. -/
def body : Text := [' '].intercalate s.fields

def sampleLine (s : Sample) : Text := s.body ++ ['\n']

/-- A run that was read agrees with one that was written, on every figure that it has. -/
def Agrees (read written : Sample) : Prop :=
  read.atSecs = written.atSecs ∧ read.peak = written.peak ∧ read.ceiling = written.ceiling ∧
    (∀ x, read.disk = some x → written.disk = some x) ∧ (∀ x, read.network = some x → written.network = some x) ∧
    (∀ x, read.overlay = some x → written.overlay = some x) ∧
    ∀ x, read.footprint = some x → written.footprint = some x

end Sample

/-- A line's write was cut short inside a field, after some fields. -/
def CutsField (fs : List Text) (torn : Text) (before : List Text) : Prop :=
  ∃ part more after, fs = before ++ (part ++ more) :: after ∧ part ≠ [] ∧ more ≠ [] ∧
    torn = [' '].intercalate (before ++ [part])

/-- A field of a line: a number or the mark that there is none. -/
def IsField (f : Text) : Prop := f = ['-'] ∨ f ≠ [] ∧ ∀ c ∈ f, c.isDigit = true

theorem of_isDigit {c : Char} (h : c.isDigit = true) : isWhite c = false ∧ c ≠ '\n' ∧ c ≠ '+' ∧ c ≠ '-' := by
  have hle : 48 ≤ c.toNat ∧ c.toNat ≤ 57 := Char.isDigit_iff_toNat.mp h
  refine ⟨?_, ?_, ?_, ?_⟩
  · simp only [isWhite, Bool.or_eq_false_iff, Bool.and_eq_false_iff, decide_eq_false_iff_not, beq_eq_false_iff_ne]
    omega
  all_goals
    rintro rfl
    exact absurd h (by decide)

theorem isDigit_decimal {n : U64} {c : Char} (h : c ∈ decimal n) : c.isDigit = true :=
  Nat.isDigit_of_mem_toDigits (by decide) (by decide) h

/-- The first digits of a number are those of a smaller one. -/
theorem decimal_prefix {n : U64} {part more : Text} (h : decimal n = part ++ more) (hpart : part ≠ [])
    (hmore : more ≠ []) : ∃ m : U64, m < n ∧ decimal m = part := by
  suffices hsmaller : ∀ k : ℕ, Nat.toDigits 10 k = part ++ more → ∃ m < k, Nat.toDigits 10 m = part by
    obtain ⟨m, hm, hpart⟩ := hsmaller n h
    exact ⟨⟨m, hm.trans n.2⟩, hm, hpart⟩
  clear h
  intro k hk
  induction more using reverseRecOn generalizing k with
  | nil => exact absurd rfl hmore
  | append_singleton more c ih =>
    have hlen := congrArg length hk
    have hpos := length_pos_iff.mpr hpart
    simp only [length_append, length_singleton] at hlen
    have hten : 10 ≤ k := by
      by_contra hlt
      rw [Nat.toDigits_of_lt_base (not_le.mp hlt), length_singleton] at hlen
      omega
    rw [Nat.toDigits_of_base_le (by decide) hten, ← append_assoc] at hk
    have hdiv : k / 10 < k := by omega
    have hk := (append_inj' hk rfl).1
    by_cases hnil : more = []
    · exact ⟨k / 10, hdiv, by rw [hk, hnil, append_nil]⟩
    · obtain ⟨m, hm, heq⟩ := ih hnil (k / 10) hk
      exact ⟨m, hm.trans hdiv, heq⟩

theorem isField_decimal (n : U64) : IsField (decimal n) := .inr ⟨Nat.toDigits_ne_nil, fun _ h => isDigit_decimal h⟩

theorem Sample.isField {s : Sample} {f : Text} (h : f ∈ s.fields) : IsField f := by
  have hpair : ∀ {p f}, f ∈ pairFields p → IsField f := by
    intro p f hf
    cases p with
    | none => exact .inl (by simpa [pairFields] using hf)
    | some p =>
      rcases mem_cons.mp hf with rfl | hf
      · exact isField_decimal _
      · rw [mem_singleton.mp hf]
        exact isField_decimal _
  simp only [Sample.fields, mem_append, mem_cons, not_mem_nil, or_false] at h
  rcases h with ((((rfl | rfl | rfl) | h) | h) | h) | rfl
  · exact isField_decimal _
  · exact isField_decimal _
  · exact isField_decimal _
  · exact hpair h
  · exact hpair h
  · exact hpair h
  · cases s.footprint with
    | none => exact .inl rfl
    | some n => exact isField_decimal n

/-- A number written is read back. -/
theorem parseU64_decimal (n : U64) : parseU64 (decimal n) = some n := by
  have hsign : (decimal n).head? ≠ some '+' := fun h => (of_isDigit (isDigit_decimal (mem_of_mem_head? h))).2.2.1 rfl
  have hall : (decimal n).all Char.isDigit = true := all_eq_true.mpr fun _ h => isDigit_decimal h
  have hvalue : Nat.ofDigitChars 10 (decimal n) 0 = n := Nat.ofDigitChars_ten_toDigits
  rw [parseU64]
  simp only [if_neg hsign, hall, hvalue]
  rw [if_pos ⟨Nat.toDigits_ne_nil, trivial⟩, dif_pos n.isLt]

theorem unmeasurableOr_figure (f : Option U64) : unmeasurableOr (figure f) = some f := by
  cases f with
  | none => rfl
  | some n =>
    have hmark : decimal n ≠ ['-'] := fun h =>
      (of_isDigit (isDigit_decimal (h ▸ mem_singleton_self '-' : '-' ∈ decimal n))).2.2.2 rfl
    rw [figure, Option.elim_some, unmeasurableOr, if_neg hmark, parseU64_decimal, Option.map_some]

/-- Nine fields are read back, whatever follows as the footprint. -/
theorem Sample.parseFields_eq (rest : List Text) :
    parseFields (s.fields.take 9 ++ rest) = (parseFootprint rest).map fun f => { s with footprint := f } := by
  have hpair : ∀ p, ∃ one other, pairFields p = [one, other] ∧ parsePair one other = some p := by
    intro p
    cases p with
    | none => exact ⟨_, _, rfl, rfl⟩
    | some p =>
      refine ⟨_, _, rfl, ?_⟩
      have hone := unmeasurableOr_figure (some p.1)
      have hother := unmeasurableOr_figure (some p.2)
      rw [figure, Option.elim_some] at hone hother
      rw [parsePair, hone, hother]
      rfl
  obtain ⟨read, written, hdisk, hread⟩ := hpair s.disk
  obtain ⟨sent, received, hnetwork, hsent⟩ := hpair s.network
  obtain ⟨mark, capacity, hoverlay, hmark⟩ := hpair s.overlay
  rw [Sample.fields, hdisk, hnetwork, hoverlay]
  simp only [cons_append, nil_append, take_succ_cons, take_zero, parseFields, parseU64_decimal, hread, hsent, hmark]
  cases parseFootprint rest <;> rfl

theorem length_of_parseFields {fs : List Text} {s : Sample} (h : parseFields fs = some s) : 9 ≤ fs.length := by
  unfold parseFields at h
  split at h
  · simp only [length_cons]
    omega
  · nomatch h

section Fields

variable {f : Text}

theorem IsField.plain (hf : IsField f) : f ≠ [] ∧ ∀ c ∈ f, isWhite c = false ∧ c ≠ '\n' := by
  rcases hf with rfl | ⟨hne, hdigits⟩
  · exact ⟨cons_ne_nil _ _, forall_mem_singleton.mpr (by decide)⟩
  · exact ⟨hne, fun c hc => ⟨(of_isDigit (hdigits c hc)).1, (of_isDigit (hdigits c hc)).2.1⟩⟩

theorem IsField.part {part more : Text} (hf : IsField (part ++ more)) (hpart : part ≠ []) (hmore : more ≠ []) :
    IsField part := by
  rcases hf with hmark | ⟨-, hdigits⟩
  · rcases append_eq_singleton_iff.mp hmark with ⟨hnil, -⟩ | ⟨-, hnil⟩
    · exact absurd hnil hpart
    · exact absurd hnil hmore
  · exact .inr ⟨hpart, fun c hc => hdigits c (mem_append_left more hc)⟩

theorem splitWhitespace_cons (hf : IsField f) (rest : Text) :
    splitWhitespace (f ++ ' ' :: rest) = f :: splitWhitespace rest := by
  rw [splitWhitespace, splitOnP_append_cons_of_forall_mem (fun c hc => (hf.plain.2 c hc).1) ' ' rfl,
    filter_cons_of_pos (by simpa using hf.plain.1), splitWhitespace]

theorem splitWhitespace_field (hf : IsField f) : splitWhitespace f = [f] := by
  rw [splitWhitespace, splitOnP_eq_singleton fun c hc => (hf.plain.2 c hc).1,
    filter_cons_of_pos (by simpa using hf.plain.1), filter_nil]

/-- Fields put together with spaces are split again. -/
theorem splitWhitespace_intercalate {fs : List Text} (hfs : ∀ f ∈ fs, IsField f) :
    splitWhitespace ([' '].intercalate fs) = fs := by
  induction fs with
  | nil => rfl
  | cons f fs ih =>
    have hf := hfs f mem_cons_self
    cases fs with
    | nil => rw [intercalate_singleton, splitWhitespace_field hf]
    | cons g fs =>
      rw [intercalate_cons_cons, append_assoc, singleton_append, splitWhitespace_cons hf,
        ih fun x hx => hfs x (mem_cons_of_mem f hx)]

/-- The fields of a line whose write was cut short are the first of those written, unless one was cut. -/
theorem splitWhitespace_torn {fs : List Text} (hfs : ∀ f ∈ fs, IsField f) {torn : Text}
    (htorn : torn <+: [' '].intercalate fs) : splitWhitespace torn <+: fs ∨ ∃ before, CutsField fs torn before := by
  -- The line is a field, and the rest after a blank: the write was cut in either.
  induction fs generalizing torn with
  | nil =>
    have hnil : torn = [] := prefix_nil.mp (by simpa using htorn)
    subst hnil
    exact .inl nil_prefix
  | cons f fs ih =>
    have hf := hfs f mem_cons_self
    have hwhole : torn <+: f → splitWhitespace torn <+: f :: fs ∨ ∃ before, CutsField (f :: fs) torn before := by
      rintro ⟨more, rfl⟩
      by_cases htorn : torn = []
      · exact .inl (by rw [htorn]; exact nil_prefix)
      by_cases hmore : more = []
      · rw [hmore, append_nil] at hf ⊢
        exact .inl (by rw [splitWhitespace_field hf]; exact prefix_append [_] fs)
      · exact .inr ⟨[], torn, more, fs, rfl, htorn, hmore, intercalate_singleton.symm⟩
    cases fs with
    | nil => exact hwhole (by rwa [intercalate_singleton] at htorn)
    | cons g fs =>
      rw [intercalate_cons_cons, append_assoc, singleton_append] at htorn
      rcases prefix_or_prefix_of_prefix htorn (prefix_append f _) with hpre | ⟨more, rfl⟩
      · exact hwhole hpre
      · rcases prefix_cons_iff.mp ((prefix_append_right_inj f).mp htorn) with rfl | ⟨torn, rfl, hrest⟩
        · exact hwhole (by simp)
        · rw [splitWhitespace_cons hf]
          rcases ih (fun x hx => hfs x (mem_cons_of_mem f hx)) hrest with hpre | ⟨before, hcut⟩
          · exact .inl (cons_prefix_cons.mpr ⟨rfl, hpre⟩)
          · obtain ⟨part, more, after, heq, hpart, hmore, rfl⟩ := hcut
            refine .inr ⟨f :: before, part, more, after, by rw [heq, cons_append], hpart, hmore, ?_⟩
            rw [cons_append, intercalate_cons_of_ne_nil (by simp), append_assoc, singleton_append]

end Fields

namespace Sample

/-- A line is parsed by its fields. -/
theorem parse_line {line : Text} (h : '\n' ∉ line) :
    parse (line ++ ['\n']) = (parseFields (splitWhitespace line)).toList := by
  have hsplit : (line ++ ['\n']).splitOn '\n' = [line, []] := by
    rw [splitOn_eq_splitOnP, splitOnP_append_cons_of_forall_mem _ '\n' (by simp), splitOnP_nil]
    intro c hc
    exact beq_eq_false_iff_ne.mpr fun heq => h (heq ▸ hc)
  have hnil : parseFields (splitWhitespace []) = none := rfl
  rw [parse, hsplit, filterMap_cons, filterMap_cons, hnil]
  cases parseFields (splitWhitespace line) <;> rfl

theorem newline_notMem_body : '\n' ∉ s.body :=
  Common.notMem_intercalate (by decide) fun _ hf hmem => ((isField hf).plain.2 _ hmem).2 rfl

@[simp] theorem length_pairFields (p : Option (U64 × U64)) : (pairFields p).length = 2 := by
  cases p <;> rfl

theorem length_fields : s.fields.length = 10 := by
  simp [fields]

/-- How many fields are left decides what is read. -/
theorem parseFields_take (k : ℕ) : parseFields (s.fields.take k) =
      if k < 9 then none else if k = 9 then some { s with footprint := none } else some s := by
  split_ifs with hshort hnine
  · refine Option.eq_none_iff_forall_ne_some.mpr fun read hread => ?_
    have hlen := length_of_parseFields hread
    rw [length_take] at hlen
    omega
  · subst hnine
    simpa [parseFootprint] using s.parseFields_eq []
  · have hall : s.fields.take 9 ++ [figure s.footprint] = s.fields := by rw [fields, take_left' (by simp)]
    rw [take_of_length_le (by rw [length_fields]; omega), ← hall, parseFields_eq, parseFootprint, unmeasurableOr_figure]
    rfl

/-- A figure that was cut is that of another run, with a smaller one in its place. -/
theorem figure_prefix {f : Option U64} {part more : Text} (h : figure f = part ++ more) (hpart : part ≠ [])
    (hmore : more ≠ []) : ∃ m n, f = some n ∧ m < n ∧ decimal m = part := by
  cases f with
  | none =>
    have hlen := congrArg length h
    have hp := length_pos_iff.mpr hpart
    have hm := length_pos_iff.mpr hmore
    simp only [figure, Option.elim_none, length_singleton, length_append] at hlen
    omega
  | some n =>
    obtain ⟨m, hm, hpart⟩ := decimal_prefix h hpart hmore
    exact ⟨m, n, rfl, hm, hpart⟩

theorem pairFields_eq (p : Option (U64 × U64)) :
    pairFields p = [figure (p.map Prod.fst), figure (p.map Prod.snd)] := by
  cases p <;> rfl

/-- A line cut inside the ninth or tenth figure is read as a run with another figure. -/
theorem parseFields_cut {before : List Text} {part more : Text} {after : List Text}
    (hfields : s.fields = before ++ (part ++ more) :: after) (hpart : part ≠ []) (hmore : more ≠ [])
    (hlate : 8 ≤ before.length) : ∃ read, parseFields (before ++ [part]) = some read ∧ ¬ read.Agrees s := by
  have hlen := congrArg length hfields
  simp only [length_fields, length_append, length_cons] at hlen
  have hbefore : s.fields.take before.length = before := by rw [hfields, take_left]
  have hat : s.fields[before.length]? = some (part ++ more) := by simp [hfields]
  obtain hnine | hten : before.length = 8 ∨ before.length = 9 := by omega
  · rw [hnine, fields, pairFields_eq s.disk, pairFields_eq s.network, pairFields_eq s.overlay] at hat
    obtain ⟨m, n, hsome, hlt, rfl⟩ := figure_prefix (Option.some.inj hat) hpart hmore
    obtain ⟨⟨mark, capacity⟩, hoverlay, rfl⟩ := Option.map_eq_some_iff.mp hsome
    let read : Sample := { s with overlay := some (mark, m) }
    have htake : read.fields.take 9 = before ++ [decimal m] := by
      rw [← hbefore, hnine, fields, fields, pairFields_eq s.disk, pairFields_eq s.network, hoverlay]
      rfl
    refine ⟨{ read with footprint := none }, by rw [← htake, parseFields_take]; rfl, fun hagrees => ?_⟩
    have heq := hagrees.2.2.2.2.2.1 (mark, m) rfl
    rw [hoverlay, Option.some.injEq, Prod.mk.injEq] at heq
    exact Fin.ne_of_lt hlt heq.2.symm
  · rw [hten, fields, pairFields_eq s.disk, pairFields_eq s.network, pairFields_eq s.overlay] at hat
    obtain ⟨m, n, hsome, hlt, rfl⟩ := figure_prefix (Option.some.inj hat) hpart hmore
    let read : Sample := { s with footprint := some m }
    have htake : read.fields.take 10 = before ++ [decimal m] := by
      rw [← hbefore, hten, fields, fields, pairFields_eq s.disk, pairFields_eq s.network, pairFields_eq s.overlay]
      rfl
    refine ⟨read, by rw [← htake, parseFields_take]; rfl, fun hagrees => ?_⟩
    have heq := hagrees.2.2.2.2.2.2 m rfl
    rw [hsome, Option.some.injEq] at heq
    exact Fin.ne_of_lt hlt heq.symm

/-- A complete line is read as the run. Of a torn one nothing is read, or a run that agrees with the one written,
exactly if the write was not cut inside the ninth or tenth figure. -/
theorem torn_line_agrees (s : Sample) : parse s.sampleLine = [s] ∧
    ∀ torn, torn <+: s.sampleLine → torn ≠ s.sampleLine →
      ((parse (torn ++ ['\n']) = [] ∨ ∃ read, parse (torn ++ ['\n']) = [read] ∧ read.Agrees s) ↔
        ¬ ∃ before, 8 ≤ before.length ∧ CutsField s.fields torn before) := by
  have hfields : ∀ f ∈ s.fields, IsField f := fun f hf => isField hf
  refine ⟨?_, fun torn htorn hproper => ?_⟩
  · have hall := s.parseFields_take 10
    rw [← s.length_fields, take_length] at hall
    rw [sampleLine, parse_line s.newline_notMem_body, body, splitWhitespace_intercalate hfields, hall]
    simp [length_fields]
  have hbody : torn <+: s.body := by
    rcases prefix_concat_iff.mp htorn with heq | hpre
    · exact absurd heq hproper
    · exact hpre
  have hline : '\n' ∉ torn := fun hmem => s.newline_notMem_body (hbody.subset hmem)
  have hcut : ∀ before, CutsField s.fields torn before → ∃ part more after,
      s.fields = before ++ (part ++ more) :: after ∧ part ≠ [] ∧ more ≠ [] ∧
        splitWhitespace torn = before ++ [part] := by
    rintro before ⟨part, more, after, heq, hpart, hmore, rfl⟩
    refine ⟨part, more, after, heq, hpart, hmore, splitWhitespace_intercalate fun f hf => ?_⟩
    rcases mem_append.mp hf with hf | hf
    · exact hfields f (heq ▸ mem_append_left _ hf)
    · rw [mem_singleton.mp hf]
      exact (hfields (part ++ more) (heq ▸ mem_append_right _ mem_cons_self)).part hpart hmore
  rw [parse_line hline]
  constructor
  · rintro hread ⟨before, hlate, hfield⟩
    obtain ⟨part, more, after, heq, hpart, hmore, hsplit⟩ := hcut before hfield
    obtain ⟨read, hparse, hdiffers⟩ := s.parseFields_cut heq hpart hmore hlate
    rw [hsplit, hparse, Option.toList_some] at hread
    obtain hnil | ⟨read', hsame, hagrees⟩ := hread
    · cases hnil
    · cases hsame
      exact hdiffers hagrees
  · intro hno
    rcases splitWhitespace_torn hfields hbody with hpre | ⟨before, hfield⟩
    · rw [prefix_iff_eq_take.mp hpre, parseFields_take]
      split_ifs
      · exact .inl rfl
      · exact .inr ⟨_, rfl, rfl, rfl, rfl, fun _ h => h, fun _ h => h, fun _ h => h, by rintro _ ⟨⟩⟩
      · exact .inr ⟨_, rfl, rfl, rfl, rfl, fun _ h => h, fun _ h => h, fun _ h => h, fun _ h => h⟩
    · refine .inl ?_
      obtain ⟨part, more, after, -, -, -, hsplit⟩ := hcut before hfield
      cases hread : parseFields (splitWhitespace torn) with
      | none => rfl
      | some read =>
        have hlen := length_of_parseFields hread
        rw [hsplit, length_append, length_singleton] at hlen
        exact absurd ⟨before, by omega, hfield⟩ hno

/-- A run with a footprint of ten bytes. -/
def tenBytes : Sample := ⟨0, 0, 0, none, none, none, some 10⟩

/-- Cut before the footprint, its line is read as a run with none, so it is not cut inside a figure. -/
theorem torn_line_agrees_ninth : parse ("0 0 0 - - - - - -".toList ++ ['\n']) = [{ tenBytes with footprint := none }] ∧
    ¬ ∃ before, 8 ≤ before.length ∧ CutsField tenBytes.fields "0 0 0 - - - - - -".toList before := by
  have hparse : parse ("0 0 0 - - - - - -".toList ++ ['\n']) = [{ tenBytes with footprint := none }] := by
    decide +kernel
  refine ⟨hparse, ((torn_line_agrees tenBytes).2 _ (by decide) (by decide)).mp (.inr ⟨_, hparse, rfl, rfl, rfl, ?_⟩)⟩
  exact ⟨by rintro _ ⟨⟩, by rintro _ ⟨⟩, by rintro _ ⟨⟩, by rintro _ ⟨⟩⟩

/-- Cut before the footprint's last digit, its line is read as a run with a footprint of one byte. -/
theorem torn_footprint_read :
    ("0 0 0 - - - - - - 1".toList <+: tenBytes.sampleLine ∧ "0 0 0 - - - - - - 1".toList ≠ tenBytes.sampleLine) ∧
      parse ("0 0 0 - - - - - - 1".toList ++ ['\n']) = [{ tenBytes with footprint := some 1 }] ∧
      ¬ ({ tenBytes with footprint := some 1 } : Sample).Agrees tenBytes := by
  refine ⟨by decide, by decide +kernel, fun h => ?_⟩
  exact absurd (h.2.2.2.2.2.2 1 rfl) (by decide)

end Sample

end Virtkit.Admit
