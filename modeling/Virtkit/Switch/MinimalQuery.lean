import Virtkit.Switch.Question

/-!
# The query that leaves

Under an allowlist a guest's query is rebuilt from what was checked: its id, three bits of its header, the
question, and of an EDNS record the size, capped, and one bit. A query of another shape is not rebuilt. The
rebuilt query has the same question, is rebuilt to itself, and depends on nothing else of the guest's.
-/

namespace Virtkit.Switch

open Virtkit.Common List Option

/-- The largest UDP size a rebuilt query offers. -/
def ednsUdpMax : ℕ := 1232

/-- The type of an EDNS record. -/
def typeOpt : UInt8 := 41

/-- Rebuild a query whose question ends at an offset. -/
def minimalQuery (query : Bytes) (qend : ℕ) : Option Bytes :=
  let hdr := fun k => query.getD k 0
  let arcount := be16 (hdr 10) (hdr 11)
  if query.length < 12 then none
  -- A response, an opcode other than a query's, or sections a query has no use for.
  else if hdr 2 &&& 0xf8 ≠ 0 ∨ be16 (hdr 6) (hdr 7) ≠ 0 ∨ be16 (hdr 8) (hdr 9) ≠ 0 ∨ 1 < arcount then none
  else do
    let question ← getRange query 12 qend
    let out := [hdr 0, hdr 1, hdr 2 &&& 0x01, hdr 3 &&& 0x30, 0, 1, 0, 0, 0, 0, 0, UInt8.ofNat arcount] ++
      question
    let rest ← getRange query qend query.length
    if arcount = 0 then if rest.isEmpty then some out else none
    else if rest.length < 11 then none
    else
      let opt := fun k => rest.getD k 0
      if opt 0 ≠ 0 ∨ opt 1 ≠ 0 ∨ opt 2 ≠ typeOpt then none
      else if rest.length - 11 ≠ be16 (opt 9) (opt 10) then none
      else
        let size := min (be16 (opt 3) (opt 4)) ednsUdpMax
        some (out ++ [0, 0, typeOpt] ++ beBytes 2 size ++ [0, 0, opt 7 &&& 0x80, 0, 0, 0])

/-- What a query's EDNS record, if it has one after its question, offers: the size, capped, and a bit. -/
def optOf (query : Bytes) (qend : ℕ) : Option (ℕ × UInt8) :=
  if be16 (query.getD 10 0) (query.getD 11 0) = 0 then none
  else some (min (be16 (query.getD (qend + 3) 0) (query.getD (qend + 4) 0)) ednsUdpMax,
    query.getD (qend + 7) 0 &&& 0x80)

/-- What is checked of a query, in which two may agree. -/
structure Essence where
  id : UInt8 × UInt8
  rd : UInt8
  adCd : UInt8
  question : Bytes
  opt : Option (ℕ × UInt8)
  deriving DecidableEq

def essence (query : Bytes) (qend : ℕ) : Essence where
  id := (query.getD 0 0, query.getD 1 0)
  rd := query.getD 2 0 &&& 0x01
  adCd := query.getD 3 0 &&& 0x30
  question := (query.drop 12).take (qend - 12)
  opt := optOf query qend

/-- The bytes of an EDNS record. -/
def optBytes : Option (ℕ × UInt8) → Bytes
  | none => []
  | some (size, flag) => [0, 0, typeOpt] ++ beBytes 2 size ++ [0, 0, flag, 0, 0, 0]

def Essence.message (e : Essence) : Bytes :=
  [e.id.1, e.id.2, e.rd, e.adCd, 0, 1, 0, 0, 0, 0, 0, if e.opt.isSome then 1 else 0] ++ e.question ++
    optBytes e.opt

/-- The shape of a query that is rebuilt. -/
structure Standard (query : Bytes) (qend : ℕ) : Prop where
  header : 12 ≤ qend
  question : qend ≤ query.length
  flags : query.getD 2 0 &&& 0xf8 = 0
  answers : be16 (query.getD 6 0) (query.getD 7 0) = 0
  authority : be16 (query.getD 8 0) (query.getD 9 0) = 0
  additional : (be16 (query.getD 10 0) (query.getD 11 0) = 0 ∧ query.length = qend) ∨
    (be16 (query.getD 10 0) (query.getD 11 0) = 1 ∧ qend + 11 ≤ query.length ∧ query.getD qend 0 = 0 ∧
      query.getD (qend + 1) 0 = 0 ∧ query.getD (qend + 2) 0 = typeOpt ∧
      query.length - qend - 11 = be16 (query.getD (qend + 9) 0) (query.getD (qend + 10) 0))

variable {query query' m : Bytes} {qend qend' : ℕ}

theorem getD_drop (msg : Bytes) (n k : ℕ) : (msg.drop n).getD k 0 = msg.getD (n + k) 0 := by
  rw [getD_eq_getElem?_getD, getD_eq_getElem?_getD, getElem?_drop]

/-- A standard query is rebuilt from its essence. -/
theorem Standard.minimalQuery (h : Standard query qend) :
    minimalQuery query qend = some (essence query qend).message := by
  obtain ⟨hheader, hquestion, hflags, hanswers, hauthority, hadditional⟩ := h
  have hrange : getRange query 12 qend = some ((query.drop 12).take (qend - 12)) := if_pos ⟨hheader, hquestion⟩
  have hrest : getRange query qend query.length = some (query.drop qend) := by
    rw [getRange, if_pos ⟨hquestion, le_refl _⟩, List.take_of_length_le (by rw [List.length_drop])]
  have hshape : ¬(query.getD 2 0 &&& 0xf8 ≠ 0 ∨ be16 (query.getD 6 0) (query.getD 7 0) ≠ 0 ∨
      be16 (query.getD 8 0) (query.getD 9 0) ≠ 0 ∨ 1 < be16 (query.getD 10 0) (query.getD 11 0)) := by
    rintro (hne | hne | hne | hlt)
    · exact hne hflags
    · exact hne hanswers
    · exact hne hauthority
    · omega
  unfold Switch.minimalQuery
  dsimp only
  rw [if_neg (by omega), if_neg hshape, hrange, hrest, bind_eq_bind, bind_some, bind_some]
  rcases hadditional with ⟨hcount, hlen⟩ | ⟨hcount, hlen, hroot, hhigh, htype, hoptions⟩
  · have hempty : (query.drop qend).isEmpty = true := by
      rw [List.isEmpty_iff, List.drop_eq_nil_iff]
      omega
    have hopt : optOf query qend = none := if_pos hcount
    rw [if_pos hcount, if_pos hempty, hcount]
    simp only [Essence.message, essence, hopt, optBytes, List.append_nil]
    rfl
  · have hlength : (query.drop qend).length = query.length - qend := List.length_drop
    have hopt : optOf query qend = some (min (be16 (query.getD (qend + 3) 0) (query.getD (qend + 4) 0))
        ednsUdpMax, query.getD (qend + 7) 0 &&& 0x80) := if_neg (by omega)
    have hrecord : ¬(query.getD qend 0 ≠ 0 ∨ query.getD (qend + 1) 0 ≠ 0 ∨ query.getD (qend + 2) 0 ≠ typeOpt) := by
      rintro (hne | hne | hne)
      · exact hne hroot
      · exact hne hhigh
      · exact hne htype
    simp only [getD_drop, Nat.add_zero, hlength]
    rw [if_neg (by omega), if_neg (by omega), if_neg hrecord, if_neg (not_not.mpr hoptions), hcount]
    simp only [Essence.message, essence, hopt, optBytes, List.append_assoc]
    rfl

/-- Only a standard query is rebuilt. -/
theorem standard_of_minimalQuery (h : minimalQuery query qend = some m) : Standard query qend := by
  unfold minimalQuery at h
  dsimp only at h
  obtain ⟨hshort, h⟩ := ite_none_left_eq_some.mp h
  obtain ⟨hshape, h⟩ := ite_none_left_eq_some.mp h
  obtain ⟨question, hquestion, h⟩ := bind_eq_some_iff.mp h
  obtain ⟨rest, hrest, h⟩ := bind_eq_some_iff.mp h
  obtain ⟨hstart, -⟩ := ite_none_right_eq_some.mp hquestion
  obtain ⟨hend, hrest⟩ := ite_none_right_eq_some.mp hrest
  rw [List.take_of_length_le (by rw [List.length_drop])] at hrest
  cases hrest
  have hlength : (query.drop qend).length = query.length - qend := List.length_drop
  rw [not_or, not_or, not_or, not_not, not_not, not_not] at hshape
  obtain ⟨hflags, hanswers, hauthority, hcount⟩ := hshape
  refine ⟨hstart.1, hend.1, hflags, hanswers, hauthority, ?_⟩
  simp only [getD_drop, Nat.add_zero, hlength] at h
  by_cases hzero : be16 (query.getD 10 0) (query.getD 11 0) = 0
  · rw [if_pos hzero] at h
    obtain ⟨hempty, -⟩ := ite_none_right_eq_some.mp h
    rw [List.isEmpty_iff, List.drop_eq_nil_iff] at hempty
    exact .inl ⟨hzero, by omega⟩
  · rw [if_neg hzero] at h
    obtain ⟨hlong, h⟩ := ite_none_left_eq_some.mp h
    obtain ⟨hrecord, h⟩ := ite_none_left_eq_some.mp h
    obtain ⟨hoptions, -⟩ := ite_none_left_eq_some.mp h
    rw [not_or, not_or, not_not, not_not, not_not] at hrecord
    exact .inr ⟨by omega, by omega, hrecord.1, hrecord.2.1, hrecord.2.2, not_not.mp hoptions⟩

theorem minimalQuery_eq_some (h : minimalQuery query qend = some m) : m = (essence query qend).message :=
  some.inj (h.symm.trans (standard_of_minimalQuery h).minimalQuery)

theorem beBytes_two {n : ℕ} (hn : n < 65536) : ∃ hi lo, beBytes 2 n = [hi, lo] ∧ be16 hi lo = n := by
  refine ⟨UInt8.ofNat (n / 256), UInt8.ofNat n, rfl, ?_⟩
  rw [be16, UInt8.toNat_ofNat', UInt8.toNat_ofNat']
  omega

theorem optOf_eq_none_iff : optOf query qend = none ↔ be16 (query.getD 10 0) (query.getD 11 0) = 0 := by
  unfold optOf
  split_ifs with hzero
  · exact ⟨fun _ => hzero, fun _ => rfl⟩
  · exact ⟨nofun, fun h => absurd h hzero⟩

theorem optOf_capped {size : ℕ} {flag : UInt8} (h : optOf query qend = some (size, flag)) :
    size ≤ ednsUdpMax ∧ flag &&& 0x80 = flag := by
  obtain ⟨-, h⟩ := ite_none_left_eq_some.mp h
  obtain ⟨rfl, rfl⟩ := Prod.mk.inj (some.inj h)
  refine ⟨Nat.min_le_right _ _, ?_⟩
  rw [UInt8.and_assoc]
  rfl

theorem Standard.message_parts (h : Standard query qend) :
    (essence query qend).message.drop 12 = (query.drop 12).take (qend - 12) ++ optBytes (optOf query qend) ∧
    (essence query qend).message.length = qend + (optBytes (optOf query qend)).length ∧
    ∀ k, (essence query qend).message.getD (qend + k) 0 = (optBytes (optOf query qend)).getD k 0 := by
  have hlen : ((query.drop 12).take (qend - 12)).length = qend - 12 := by
    have := h.question
    rw [length_take, length_drop]
    omega
  have hheader := h.header
  have hdrop : (essence query qend).message.drop 12 =
      (query.drop 12).take (qend - 12) ++ optBytes (optOf query qend) := rfl
  refine ⟨hdrop, ?_, fun k => ?_⟩
  · have hlength := congrArg List.length hdrop
    have htwelve : 12 ≤ (essence query qend).message.length := by simp [Essence.message]
    rw [length_drop, length_append, hlen] at hlength
    omega
  · have hsplit : qend + k = 12 + (qend - 12 + k) := by omega
    rw [hsplit, ← getD_drop, hdrop, getD_append_right _ _ _ _ (by omega), hlen, Nat.add_sub_cancel_left]

/-- A rebuilt query is standard, and of the same essence. -/
theorem Standard.message (h : Standard query qend) : Standard (essence query qend).message qend ∧
      essence (essence query qend).message qend = essence query qend := by
  obtain ⟨hdrop, hlength, hget⟩ := h.message_parts
  have hflags : (essence query qend).message.getD 2 0 &&& 0xf8 = 0 := by
    change (query.getD 2 0 &&& 0x01) &&& 0xf8 = 0
    rw [UInt8.and_assoc]
    exact UInt8.and_zero
  have hquestion : ((essence query qend).message.drop 12).take (qend - 12) = (query.drop 12).take (qend - 12) := by
    have hlen : ((query.drop 12).take (qend - 12)).length = qend - 12 := by
      have := h.question
      rw [length_take, length_drop]
      omega
    rw [hdrop, take_append_of_le_length hlen.ge, take_take, Nat.min_self]
  have hrd : (query.getD 2 0 &&& 0x01) &&& 0x01 = query.getD 2 0 &&& 0x01 := by rw [UInt8.and_assoc]; rfl
  have hadCd : (query.getD 3 0 &&& 0x30) &&& 0x30 = query.getD 3 0 &&& 0x30 := by rw [UInt8.and_assoc]; rfl
  have hanswers : be16 ((essence query qend).message.getD 6 0) ((essence query qend).message.getD 7 0) = 0 := by
    change be16 0 0 = 0
    rfl
  have hauthority : be16 ((essence query qend).message.getD 8 0) ((essence query qend).message.getD 9 0) = 0 := by
    change be16 0 0 = 0
    rfl
  have hessence : optOf (essence query qend).message qend = optOf query qend →
      essence (essence query qend).message qend = essence query qend := by
    intro hopt
    change Essence.mk _ ((query.getD 2 0 &&& 0x01) &&& 0x01) ((query.getD 3 0 &&& 0x30) &&& 0x30)
      (((essence query qend).message.drop 12).take (qend - 12)) (optOf (essence query qend).message qend) = _
    rw [hrd, hadCd, hquestion, hopt]
    rfl
  cases hopt : optOf query qend with
  | none =>
    rw [hopt] at hlength
    have hcount : be16 ((essence query qend).message.getD 10 0) ((essence query qend).message.getD 11 0) = 0 := by
      change be16 0 (if (optOf query qend).isSome then 1 else 0) = 0
      rw [hopt]
      rfl
    refine ⟨⟨h.header, by omega, hflags, hanswers, hauthority, .inl ⟨hcount, hlength⟩⟩, hessence ?_⟩
    rw [hopt]
    exact optOf_eq_none_iff.mpr hcount
  | some opt =>
    obtain ⟨size, flag⟩ := opt
    obtain ⟨hsmall, hflag⟩ := optOf_capped hopt
    obtain ⟨hi, lo, hbytes, hsize⟩ := beBytes_two (lt_of_le_of_lt hsmall (by decide))
    have hrecord : optBytes (some (size, flag)) = [0, 0, typeOpt, hi, lo, 0, 0, flag, 0, 0, 0] := by
      rw [optBytes, hbytes]
      rfl
    rw [hopt, hrecord] at hlength hget
    have hcount : be16 ((essence query qend).message.getD 10 0) ((essence query qend).message.getD 11 0) = 1 := by
      change be16 0 (if (optOf query qend).isSome then 1 else 0) = 1
      rw [hopt]
      rfl
    have hat := hget 0
    rw [Nat.add_zero] at hat
    refine ⟨⟨h.header, by omega, hflags, hanswers, hauthority,
      .inr ⟨hcount, hlength.ge, hat, hget 1, hget 2, ?_⟩⟩, hessence ?_⟩
    · rw [hget 9, hget 10, hlength, Nat.add_sub_cancel_left]
      simp [be16]
    · rw [hopt, optOf, if_neg (by omega), hget 3, hget 4, hget 7]
      simp only [getD_cons_succ, getD_cons_zero]
      rw [hsize, Nat.min_eq_left hsmall, hflag]

end Virtkit.Switch
