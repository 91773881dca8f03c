import Mathlib.Data.List.DropRight
import Mathlib.Data.List.GetD
import Virtkit.Common.Bytes

/-!
# DNS questions

A query's one question: a name in labels, each after its length, then its type and class. The name is
checked against allowlists as text, lowercased, so it must spell the labels exactly: encoded again it is
the name on the wire, without case.
-/

namespace Virtkit.Switch

open Virtkit.Common List Option

abbrev Name := Bytes

/-- What separates labels. -/
def dot : UInt8 := 46

/-- The longest name on the wire. -/
def maxDnsName : ℕ := 255

/-- The number in two bytes. -/
def be16 (hi lo : UInt8) : ℕ := hi.toNat * 256 + lo.toNat

/-- Whether a byte may be in a label: letters, digits, `-` and `_`. -/
def labelByte (b : UInt8) : Bool :=
  (48 ≤ b && b ≤ 57) || (65 ≤ b && b ≤ 90) || (97 ≤ b && b ≤ 122) || b = 45 || b = 95

def getRange (msg : Bytes) (start stop : ℕ) : Option Bytes :=
  if start ≤ stop ∧ stop ≤ msg.length then some ((msg.drop start).take (stop - start)) else none

def pushLabel (name : Name) (label : Bytes) : Name :=
  (if name.isEmpty then name else name ++ [dot]) ++ label.map asciiLower

/-- Read the labels from an offset on: the name, and the offset past it. Each turn passes a byte at
least, so the message's length is fuel enough. -/
def readLabels (msg : Bytes) : ℕ → ℕ → Name → Option (Name × ℕ)
  | 0, _, _ => none
  | fuel + 1, i, name => do
    let len ← msg[i]?
    if len = 0 then some (name, i + 1)
    -- A compression pointer.
    else if len &&& 0xc0 ≠ 0 then none
    else do
      let label ← getRange msg (i + 1) (i + 1 + len.toNat)
      if !label.all labelByte then none
      else readLabels msg fuel (i + 1 + len.toNat) (pushLabel name label)

/-- A query's question: its name, its type, and the offset past it. -/
def parseQuestion (msg : Bytes) : Option (Name × ℕ × ℕ) :=
  if msg.length < 12 ∨ be16 (msg.getD 4 0) (msg.getD 5 0) ≠ 1 then none
  else do
    let (name, i) ← readLabels msg msg.length 12 []
    if maxDnsName < i - 12 then none
    else do
      let qtype ← getRange msg i (i + 4)
      some (name, be16 (qtype.getD 0 0) (qtype.getD 1 0), i + 4)

def encodeLabel (wire label : Bytes) : Option Bytes :=
  if 1 ≤ label.length ∧ label.length ≤ 63 then some (wire ++ UInt8.ofNat label.length :: label) else none

def encodeName (name : Name) : Option Bytes := do
  let wire ← ((name.rdropWhile (· = dot)).splitOn dot).foldlM encodeLabel []
  if (wire ++ [0]).length ≤ maxDnsName then some (wire ++ [0]) else none

/-- A label that can be read. -/
structure IsLabel (label : Bytes) : Prop where
  pos : 0 < label.length
  le : label.length ≤ 63
  bytes : label.all labelByte = true

/-- Labels on the wire, before the end of the name. -/
def wireLabels (labels : List Bytes) : Bytes := labels.flatMap fun l => UInt8.ofNat l.length :: l

def spelled (name : Name) (labels : List Bytes) : Name := labels.foldl pushLabel name

variable {msg : Bytes} {fuel i j : ℕ} {name name' : Name} {labels : List Bytes}

theorem toNat_length {label : Bytes} (h : IsLabel label) : (UInt8.ofNat label.length).toNat = label.length := by
  have hle := h.le
  rw [UInt8.toNat_ofNat']
  omega

theorem and_c0_eq_zero {b : UInt8} : b &&& 0xc0 = 0 ↔ b.toNat ≤ 63 := by
  have hall : ∀ n < 256, n &&& 192 = 0 ↔ n ≤ 63 := by decide +kernel
  rw [← hall b.toNat b.toNat_lt, ← UInt8.toNat_inj, UInt8.toNat_and]
  rfl

theorem getRange_add_eq_some {start n : ℕ} {bytes : Bytes} (h : getRange msg start (start + n) = some bytes) :
    bytes.length = n ∧ msg.drop start = bytes ++ msg.drop (start + n) := by
  unfold getRange at h
  split_ifs at h with hin
  cases h
  rw [Nat.add_sub_cancel_left]
  refine ⟨?_, ?_⟩
  · rw [length_take, length_drop]
    omega
  · rw [← drop_drop, take_append_drop]

theorem getRange_of_drop {start : ℕ} {bytes rest : Bytes} (h : msg.drop start = bytes ++ rest)
    (hpos : 0 < bytes.length) : getRange msg start (start + bytes.length) = some bytes := by
  have hlen := congrArg List.length h
  rw [length_drop, length_append] at hlen
  rw [getRange, if_pos ⟨Nat.le_add_right _ _, by omega⟩, Nat.add_sub_cancel_left, h, take_left]

/-- Labels that are read stand in the message as they are encoded. -/
theorem readLabels_eq_some (h : readLabels msg fuel i name = some (name', j)) :
    ∃ labels rest, (∀ l ∈ labels, IsLabel l) ∧ msg.drop i = wireLabels labels ++ 0 :: rest ∧
      name' = spelled name labels ∧ j = i + (wireLabels labels).length + 1 := by
  induction fuel generalizing i name with
  | zero => exact nomatch h
  | succ fuel ih =>
    rw [readLabels] at h
    obtain ⟨len, hlen, h⟩ := bind_eq_some_iff.mp h
    have hdrop : msg.drop i = len :: msg.drop (i + 1) := by
      obtain ⟨hi, hat⟩ := List.getElem?_eq_some_iff.mp hlen
      rw [← hat]
      exact List.drop_eq_getElem_cons hi
    split_ifs at h with hzero hpointer
    · obtain ⟨rfl, rfl⟩ := Prod.mk.inj (some.inj h)
      exact ⟨[], msg.drop (i + 1), nofun, by rw [hdrop, hzero]; rfl, rfl, rfl⟩
    · obtain ⟨label, hlabel, h⟩ := bind_eq_some_iff.mp h
      obtain ⟨hlength, hrange⟩ := getRange_add_eq_some hlabel
      split_ifs at h with hbytes
      obtain ⟨labels, rest, hlabels, hrest, hname, hj⟩ := ih h
      have hsmall := and_c0_eq_zero.mp (not_not.mp hpointer)
      have hpos : len.toNat ≠ 0 := fun heq => hzero (UInt8.toNat_inj.mp heq)
      have hbyte : len = UInt8.ofNat label.length := by rw [hlength, UInt8.ofNat_toNat]
      have hisLabel : IsLabel label := ⟨by omega, by omega, by simpa using hbytes⟩
      refine ⟨label :: labels, rest, fun l hl => ?_, ?_, hname, ?_⟩
      · rcases List.mem_cons.mp hl with rfl | hl
        · exact hisLabel
        · exact hlabels l hl
      · rw [hdrop, hrange, hrest, hbyte, wireLabels, wireLabels, List.flatMap_cons]
        simp only [List.cons_append, List.append_assoc]
      · rw [hj, wireLabels, wireLabels, List.flatMap_cons, List.length_append, List.length_cons, hlength]
        omega

/-- Labels that stand in the message are read. -/
theorem readLabels_of_drop {rest : Bytes} (hlabels : ∀ l ∈ labels, IsLabel l)
    (hdrop : msg.drop i = wireLabels labels ++ 0 :: rest) (hfuel : labels.length < fuel) :
    readLabels msg fuel i name = some (spelled name labels, i + (wireLabels labels).length + 1) := by
  induction labels generalizing fuel i name with
  | nil =>
    obtain ⟨fuel, rfl⟩ := Nat.exists_eq_succ_of_ne_zero (Nat.ne_of_gt hfuel)
    have hat : msg[i]? = some 0 := by
      have := congrArg (·[0]?) hdrop
      rwa [getElem?_drop, Nat.add_zero] at this
    rw [readLabels, hat]
    rfl
  | cons label labels ih =>
    obtain ⟨fuel, rfl⟩ := Nat.exists_eq_succ_of_ne_zero (Nat.ne_of_gt (Nat.zero_lt_of_lt hfuel))
    have hlabel := hlabels label mem_cons_self
    rw [wireLabels, flatMap_cons, cons_append, cons_append, append_assoc] at hdrop
    have hat : msg[i]? = some (UInt8.ofNat label.length) := by
      have := congrArg (·[0]?) hdrop
      rwa [getElem?_drop, Nat.add_zero] at this
    have hrest : msg.drop (i + 1) = label ++ (wireLabels labels ++ 0 :: rest) := by
      rw [← drop_drop, hdrop]
      rfl
    have hrest' : msg.drop (i + 1 + label.length) = wireLabels labels ++ 0 :: rest := by
      rw [← drop_drop, hrest, drop_left]
    have hpos : UInt8.ofNat label.length ≠ 0 := by
      intro hzero
      have hlength := toNat_length hlabel
      rw [hzero] at hlength
      exact (Nat.ne_of_gt hlabel.pos) hlength.symm
    have hpointer : UInt8.ofNat label.length &&& 0xc0 = 0 :=
      and_c0_eq_zero.mpr ((toNat_length hlabel).trans_le hlabel.le)
    rw [readLabels, hat, bind_eq_bind, bind_some, if_neg hpos, if_neg (not_not.mpr hpointer),
      toNat_length hlabel, getRange_of_drop hrest hlabel.pos, bind_eq_bind, bind_some,
      hlabel.bytes, if_neg (by decide),
      ih (fun l hl => hlabels l (mem_cons_of_mem label hl)) hrest' (Nat.lt_of_succ_lt_succ hfuel)]
    have hlength : (wireLabels (label :: labels)).length = label.length + 1 + (wireLabels labels).length := by
      rw [wireLabels, flatMap_cons, length_append, length_cons]
      rfl
    rw [hlength]
    congr 2
    omega

theorem dot_notMem {label : Bytes} (h : IsLabel label) : dot ∉ label.map asciiLower := by
  intro hmem
  obtain ⟨b, hb, hdot⟩ := mem_map.mp hmem
  have hall : ∀ n < 256, labelByte (UInt8.ofNat n) = true → asciiLower (UInt8.ofNat n) ≠ dot := by decide +kernel
  have hbyte := all_eq_true.mp h.bytes b hb
  have hne := hall b.toNat b.toNat_lt
  rw [UInt8.ofNat_toNat] at hne
  exact hne hbyte hdot

theorem spelled_eq_intercalate (hname : name ≠ []) (hlabels : ∀ l ∈ labels, IsLabel l) :
    spelled name labels = [dot].intercalate (name :: labels.map (List.map asciiLower)) := by
  induction labels generalizing name with
  | nil => simp [spelled, List.intercalate]
  | cons label labels ih =>
    have hpush : pushLabel name label = name ++ [dot] ++ label.map asciiLower := by
      rw [pushLabel, if_neg (by simpa using hname)]
    have hne : pushLabel name label ≠ [] := by
      rw [hpush]
      simp
    have hrest := ih hne fun l hl => hlabels l (mem_cons_of_mem label hl)
    rw [map_cons, intercalate_cons_cons]
    refine hrest.trans ?_
    rw [hpush]
    cases labels with
    | nil => simp [List.intercalate]
    | cons l labels =>
      rw [map_cons, intercalate_cons_cons, intercalate_cons_cons]
      simp only [append_assoc]

theorem spelled_nil_eq (hlabels : ∀ l ∈ labels, IsLabel l) :
    spelled [] labels = [dot].intercalate (labels.map (List.map asciiLower)) := by
  cases labels with
  | nil => rfl
  | cons label labels =>
    have hlabel := hlabels label mem_cons_self
    have hne : label.map asciiLower ≠ [] := by
      intro hnil
      exact (Nat.ne_of_gt hlabel.pos) (by rw [map_eq_nil_iff.mp hnil]; rfl)
    exact spelled_eq_intercalate hne fun l hl => hlabels l (mem_cons_of_mem label hl)

theorem foldlM_encodeLabel {wire : Bytes} (hlabels : ∀ l ∈ labels, 1 ≤ l.length ∧ l.length ≤ 63) :
    labels.foldlM encodeLabel wire = some (wire ++ wireLabels labels) := by
  induction labels generalizing wire with
  | nil => rw [wireLabels, flatMap_nil, append_nil]; rfl
  | cons label labels ih =>
    rw [foldlM_cons, encodeLabel, if_pos (hlabels label mem_cons_self), bind_eq_bind,
      bind_some, ih fun l hl => hlabels l (mem_cons_of_mem label hl), wireLabels, wireLabels,
      flatMap_cons, append_assoc]

theorem asciiLower_length {label : Bytes} (h : IsLabel label) :
    asciiLower (UInt8.ofNat label.length) = UInt8.ofNat label.length := by
  refine if_neg fun hletter => ?_
  have hle := h.le
  have hlow := UInt8.le_iff_toNat_le.mp (of_decide_eq_true (Bool.and_eq_true_iff.mp hletter).1)
  rw [toNat_length h] at hlow
  change 65 ≤ label.length at hlow
  omega

section

variable (hlabels : ∀ l ∈ labels, IsLabel l)
include hlabels

theorem map_asciiLower_wireLabels : (wireLabels labels).map asciiLower = wireLabels (labels.map (List.map asciiLower)) := by
  induction labels with
  | nil => rfl
  | cons label labels ih =>
    rw [wireLabels, flatMap_cons, map_append, map_cons,
      asciiLower_length (hlabels label mem_cons_self), map_cons, wireLabels, flatMap_cons,
      length_map]
    exact congrArg _ (ih fun l hl => hlabels l (mem_cons_of_mem label hl))

theorem rdropWhile_spelled : (spelled [] labels).rdropWhile (· = dot) = spelled [] labels := by
  rcases eq_nil_or_concat' labels with rfl | ⟨init, last, rfl⟩
  · rfl
  · have hlast := hlabels last (mem_append_right _ (mem_singleton_self last))
    have hspelled : spelled [] (init ++ [last]) =
        (if (spelled [] init).isEmpty then spelled [] init else spelled [] init ++ [dot]) ++ last.map asciiLower := by
      rw [spelled, foldl_append]
      rfl
    rcases eq_nil_or_concat' (last.map asciiLower) with hnil | ⟨front, b, hb⟩
    · exact absurd (by rw [map_eq_nil_iff.mp hnil]; rfl) (Nat.ne_of_gt hlast.pos)
    · have hdot : b ≠ dot := by
        rintro rfl
        refine dot_notMem hlast ?_
        rw [hb]
        exact mem_append_right _ (mem_singleton_self _)
      rw [hspelled, hb, ← append_assoc]
      exact rdropWhile_concat_neg _ _ _ (by simpa using hdot)

/-- The name that was spelled encodes to the labels in lower case. -/
theorem encodeName_spelled (hne : labels ≠ []) (hlen : (wireLabels labels).length + 1 ≤ maxDnsName) :
    encodeName (spelled [] labels) = some ((wireLabels labels ++ [0]).map asciiLower) := by
  have hdots : ∀ l ∈ labels.map (List.map asciiLower), dot ∉ l := by
    intro l hl
    obtain ⟨label, hlabel, rfl⟩ := mem_map.mp hl
    exact dot_notMem (hlabels label hlabel)
  have hsizes : ∀ l ∈ labels.map (List.map asciiLower), 1 ≤ l.length ∧ l.length ≤ 63 := by
    intro l hl
    obtain ⟨label, hlabel, rfl⟩ := mem_map.mp hl
    rw [length_map]
    exact ⟨(hlabels label hlabel).pos, (hlabels label hlabel).le⟩
  have hsplit : (spelled [] labels).splitOn dot = labels.map (List.map asciiLower) := by
    rw [spelled_nil_eq hlabels]
    exact splitOn_intercalate dot hdots (by simpa using hne)
  have hwire : (wireLabels labels ++ [0]).map asciiLower = wireLabels (labels.map (List.map asciiLower)) ++ [0] := by
    rw [map_append, map_asciiLower_wireLabels hlabels]
    rfl
  have hlength : (wireLabels (labels.map (List.map asciiLower)) ++ [0]).length ≤ maxDnsName := by
    rw [← hwire, length_map, length_append]
    exact hlen
  rw [encodeName, rdropWhile_spelled hlabels, hsplit, foldlM_encodeLabel hsizes, bind_eq_bind,
    bind_some, nil_append, if_pos hlength, hwire]

end

theorem getD_take {n k : ℕ} (h : k < n) : (msg.take n).getD k 0 = msg.getD k 0 := by
  rw [getD_eq_getElem?_getD, getD_eq_getElem?_getD, getElem?_take_of_lt h]

variable {qtype qend : ℕ}

/-- Where a question is parsed from. -/
theorem parseQuestion_eq_some (h : parseQuestion msg = some (name, qtype, qend)) :
    ∃ labels rest, (∀ l ∈ labels, IsLabel l) ∧ msg.drop 12 = wireLabels labels ++ 0 :: rest ∧
      name = spelled [] labels ∧ qend = 12 + (wireLabels labels).length + 5 ∧
      (wireLabels labels).length + 1 ≤ maxDnsName ∧ 4 ≤ rest.length ∧
      qtype = be16 (rest.getD 0 0) (rest.getD 1 0) ∧ be16 (msg.getD 4 0) (msg.getD 5 0) = 1 := by
  unfold parseQuestion at h
  split_ifs at h with hshort
  obtain ⟨⟨name', i⟩, hread, h⟩ := bind_eq_some_iff.mp h
  dsimp only at h
  split_ifs at h with hlong
  obtain ⟨bytes, hbytes, h⟩ := bind_eq_some_iff.mp h
  obtain ⟨rfl, hend⟩ := Prod.mk.inj (some.inj h)
  obtain ⟨rfl, rfl⟩ := Prod.mk.inj hend
  obtain ⟨labels, rest, hlabels, hdrop, hname, hi⟩ := readLabels_eq_some hread
  obtain ⟨hlen, hrange⟩ := getRange_add_eq_some hbytes
  have hrest : msg.drop i = rest := by
    have hsplit : i = 12 + ((wireLabels labels).length + 1) := by omega
    rw [hsplit, ← drop_drop, hdrop, ← drop_drop, drop_left]
    rfl
  rw [hrest] at hrange
  refine ⟨labels, rest, hlabels, hdrop, hname, by omega, by omega, ?_, ?_, ?_⟩
  · rw [hrange, length_append]
    omega
  · rw [hrange, getD_append _ _ _ _ (by omega), getD_append _ _ _ _ (by omega)]
  · omega

theorem length_le_wireLabels (labels : List Bytes) : labels.length ≤ (wireLabels labels).length := by
  induction labels with
  | nil => exact le_refl 0
  | cons label labels ih =>
    rw [wireLabels, flatMap_cons, length_append, length_cons, length_cons]
    change _ ≤ _ + (wireLabels labels).length
    omega

theorem parseQuestion_of_drop {rest : Bytes} (hlabels : ∀ l ∈ labels, IsLabel l)
    (hdrop : msg.drop 12 = wireLabels labels ++ 0 :: rest) (hlen : (wireLabels labels).length + 1 ≤ maxDnsName)
    (hrest : 4 ≤ rest.length) (hcount : be16 (msg.getD 4 0) (msg.getD 5 0) = 1) :
    parseQuestion msg = some (spelled [] labels, be16 (rest.getD 0 0) (rest.getD 1 0),
      12 + (wireLabels labels).length + 5) := by
  have hlength := congrArg List.length hdrop
  rw [length_drop, length_append, length_cons] at hlength
  have hfuel := length_le_wireLabels labels
  have hsplit : 12 + (wireLabels labels).length + 1 = 12 + ((wireLabels labels).length + 1) := by omega
  have hafter : msg.drop (12 + (wireLabels labels).length + 1) = rest.take 4 ++ rest.drop 4 := by
    rw [hsplit, ← drop_drop, hdrop, ← drop_drop, drop_left, take_append_drop]
    rfl
  have hfour : (rest.take 4).length = 4 := by
    rw [length_take]
    omega
  have hrange := getRange_of_drop hafter (by omega)
  rw [hfour] at hrange
  rw [parseQuestion, if_neg (by omega), readLabels_of_drop hlabels hdrop (by omega), bind_eq_bind, bind_some]
  dsimp only
  rw [if_neg (by omega), hrange, bind_eq_bind, bind_some, getD_take (by omega), getD_take (by omega)]

theorem encodeName_of_parseQuestion (h : parseQuestion msg = some (name, qtype, qend))
    (hname : name ≠ []) : encodeName name = some (((msg.drop 12).take (qend - 4 - 12)).map asciiLower) := by
  obtain ⟨labels, rest, hlabels, hdrop, rfl, rfl, hlen, -⟩ := parseQuestion_eq_some h
  have hne : labels ≠ [] := by
    rintro rfl
    exact hname rfl
  have hwire : (msg.drop 12).take (12 + (wireLabels labels).length + 5 - 4 - 12) = wireLabels labels ++ [0] := by
    have hlength : 12 + (wireLabels labels).length + 5 - 4 - 12 = (wireLabels labels ++ [0]).length := by
      rw [length_append, length_singleton]
      omega
    rw [hlength, hdrop, append_cons (wireLabels labels) 0 rest, take_left]
  rw [hwire, encodeName_spelled hlabels hne hlen]

/-- A question is parsed from its own bytes. -/
theorem parseQuestion_congr {msg' : Bytes} (h : parseQuestion msg = some (name, qtype, qend))
    (hquestion : (msg'.drop 12).take (qend - 12) = (msg.drop 12).take (qend - 12))
    (hcount : be16 (msg'.getD 4 0) (msg'.getD 5 0) = 1) : parseQuestion msg' = some (name, qtype, qend) := by
  obtain ⟨labels, rest, hlabels, hdrop, rfl, rfl, hlen, hrest, rfl, -⟩ := parseQuestion_eq_some h
  have hfour : (rest.take 4).length = 4 := by
    rw [length_take]
    omega
  have htake : (msg.drop 12).take (12 + (wireLabels labels).length + 5 - 12) =
      wireLabels labels ++ 0 :: rest.take 4 := by
    have hlength : 12 + (wireLabels labels).length + 5 - 12 = (wireLabels labels).length + 5 := by omega
    rw [hdrop, hlength, take_length_add_append]
    rfl
  have hdrop' : msg'.drop 12 = wireLabels labels ++
      0 :: (rest.take 4 ++ (msg'.drop 12).drop (12 + (wireLabels labels).length + 5 - 12)) := by
    rw [← cons_append, ← append_assoc, ← htake, ← hquestion, take_append_drop]
  have hparsed := parseQuestion_of_drop hlabels hdrop' hlen (by rw [length_append]; omega) hcount
  rw [getD_append _ _ _ _ (by omega), getD_append _ _ _ _ (by omega), getD_take (by omega),
    getD_take (by omega)] at hparsed
  exact hparsed

theorem length_question (h : parseQuestion msg = some (name, qtype, qend)) :
    ((msg.drop 12).take (qend - 12)).length = qend - 12 ∧ 12 ≤ qend := by
  obtain ⟨labels, rest, -, hdrop, -, rfl, -, hrest, -⟩ := parseQuestion_eq_some h
  rw [length_take, hdrop, length_append, length_cons]
  omega

theorem parseQuestion_unique {msg' : Bytes} {qtype' qend' : ℕ}
    (h : parseQuestion msg = some (name, qtype, qend)) (h' : parseQuestion msg' = some (name', qtype', qend'))
    (hquestion : (msg'.drop 12).take (qend' - 12) = (msg.drop 12).take (qend - 12)) :
    name = name' ∧ qtype = qtype' ∧ qend = qend' := by
  obtain ⟨hlen, hle⟩ := length_question h
  obtain ⟨hlen', hle'⟩ := length_question h'
  rw [hquestion] at hlen'
  obtain rfl : qend = qend' := by omega
  obtain ⟨-, -, -, -, -, -, -, -, -, hcount⟩ := parseQuestion_eq_some h'
  have hsame := (parseQuestion_congr h hquestion hcount).symm.trans h'
  obtain ⟨hname, hend⟩ := Prod.mk.inj (some.inj hsame)
  exact ⟨hname, (Prod.mk.inj hend).1, rfl⟩

end Virtkit.Switch
