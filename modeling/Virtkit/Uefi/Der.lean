import Virtkit.Common.Bytes

/-!
# DER elements

Signatures and certificates are read an element at a time: a tag, a length and the contents. A length is definite,
in one byte or in up to four more, or indefinite: then the contents are elements up to two zero bytes, the
end-of-contents octets. Elements may nest to a bound.
-/

namespace Virtkit.Uefi.Der

open Virtkit.Common List

/-- One element: its contents, without end-of-contents octets, and the whole of it as encoded. -/
structure Tlv where
  tag : UInt8
  value : Bytes
  raw : Bytes
  deriving DecidableEq

/-- Nesting deeper than this is refused. -/
def maxDepth : ℕ := 32

/-- The first bytes of some, if there are as many. -/
def upTo (n : ℕ) (bytes : Bytes) : Option Bytes := if n ≤ bytes.length then some (bytes.take n) else none

/-- What follows the first bytes of some, if there are as many. -/
def after (n : ℕ) (bytes : Bytes) : Option Bytes := if n ≤ bytes.length then some (bytes.drop n) else none

/-- Read elements up to the end-of-contents octets: how long they are, and what is left from the octets on. The
fuel bounds the turns, each of which takes at least two bytes. -/
def contents (read : Bytes → Option (Tlv × Bytes)) : ℕ → Bytes → ℕ → Option (ℕ × Bytes)
  | 0, _, _ => none
  | fuel + 1, rest, len =>
    if rest.take 2 = [0, 0] then some (len, rest)
    else do
      let (child, rest) ← read rest
      contents read fuel rest (len + child.raw.length)

/-- The number that the octets of a length stand for. -/
def ofOctets (octets : Bytes) : ℕ := octets.foldl (fun acc b => acc * 256 + b.toNat) 0

/-- A definite length: the bytes of it after the first, the length and what follows. -/
def definite (first : UInt8) (rest : Bytes) : Option (ℕ × ℕ × Bytes) :=
  if first < 0x80 then some (0, first.toNat, rest)
  else do
    let n := (first &&& 0x7f).toNat
    if n = 0 ∨ 4 < n then none
    else
      let bytes ← upTo n rest
      some (n, ofOctets bytes, ← after n rest)

/-- The element at the start of the input and what follows it, with so many levels left to nest in. -/
def readAt : ℕ → Bytes → Option (Tlv × Bytes)
  | levels + 1, tag :: first :: rest => do
    let input := tag :: first :: rest
    if tag &&& 0x1f = 0x1f then none
    else if first = 0x80 then
      if tag &&& 0x20 = 0 then none
      else
        let (len, left) ← contents (readAt levels) (rest.length + 1) rest 0
        let value ← upTo len rest
        let raw ← upTo (2 + len + 2) input
        some (⟨tag, value, raw⟩, ← after 2 left)
    else
      let (n, len, left) ← definite first rest
      let value ← upTo len left
      let raw ← upTo (2 + n + len) input
      some (⟨tag, value, raw⟩, ← after len left)
  | _, _ => none

/-- The element at the start of the input, and what follows it. -/
def read (input : Bytes) : Option (Tlv × Bytes) := readAt (maxDepth + 1) input

/-- The element at the start of the input, which must have the tag. -/
def expect (input : Bytes) (tag : UInt8) : Option (Tlv × Bytes) := (read input).filter fun p => p.1.tag = tag

/-- Read elements to the end. The fuel bounds the turns, each of which takes at least two bytes. -/
def childrenFrom : ℕ → Bytes → Option (List Tlv)
  | _, [] => some []
  | 0, _ :: _ => none
  | fuel + 1, b :: rest => do
    let (tlv, left) ← read (b :: rest)
    let tlvs ← childrenFrom fuel left
    some (tlv :: tlvs)

/-- The elements of a constructed value, in order. -/
def children (value : Bytes) : Option (List Tlv) := childrenFrom value.length value

/-- The bytes of an element: its tag, the length of its contents in one byte or in up to four more, and the contents;
or, where the length is indefinite, the contents and the end-of-contents octets. -/
inductive Tlv.Encoded (t : Tlv) : Prop
  | short (hlength : t.value.length < 0x80) (hraw : t.raw = t.tag :: UInt8.ofNat t.value.length :: t.value)
  | long {octets : Bytes} (hcount : 0 < octets.length ∧ octets.length ≤ 4) (hlength : ofOctets octets = t.value.length)
      (hraw : t.raw = t.tag :: UInt8.ofNat (0x80 + octets.length) :: octets ++ t.value)
  | indefinite (hraw : t.raw = t.tag :: 0x80 :: t.value ++ [0, 0])

/-- An element that was read, and what follows it, are the input. -/
structure Splits (input : Bytes) (t : Tlv) (rest : Bytes) : Prop where
  whole : t.raw ++ rest = input
  encoded : t.Encoded

theorem upTo_eq_some {n : ℕ} {a b : Bytes} : upTo n a = some b ↔ n ≤ a.length ∧ a.take n = b := by simp [upTo]

theorem after_eq_some {n : ℕ} {a b : Bytes} : after n a = some b ↔ n ≤ a.length ∧ a.drop n = b := by simp [after]

theorem Tlv.Encoded.two_le {t : Tlv} (h : t.Encoded) : 2 ≤ t.raw.length := by
  cases h with
  | short _ hraw | long _ _ hraw | indefinite hraw => simp [hraw]

section

variable {reader : Bytes → Option (Tlv × Bytes)}
  (hread : ∀ {input t rest}, reader input = some (t, rest) → Splits input t rest)
include hread

/-- Contents of indefinite length end at the first end-of-contents octets. -/
theorem contents_spec {fuel : ℕ} {rest left start : Bytes} {len n : ℕ} (hlen : len ≤ start.length)
    (hrest : start.drop len = rest) (h : contents reader fuel rest len = some (n, left)) :
    n ≤ start.length ∧ start.drop n = left ∧ left.take 2 = [0, 0] := by
  induction fuel generalizing rest len with
  | zero => nomatch h
  | succ fuel ih =>
    rw [contents] at h
    split at h
    · cases h
      exact ⟨hlen, hrest, ‹_›⟩
    · simp only [Option.bind_eq_bind, Option.bind_eq_some_iff, Prod.exists] at h
      obtain ⟨child, more, hchild, h⟩ := h
      have hwhole := (hread hchild).whole
      refine ih ?_ ?_ h
      · have := congrArg length (hrest.trans hwhole.symm)
        simp only [length_drop, length_append] at this
        omega
      · rw [← drop_drop, hrest, ← hwhole, drop_left]

theorem contents_fuel {fuel more : ℕ} {rest : Bytes} (len : ℕ) (hfuel : rest.length < fuel) :
    contents reader (fuel + more) rest len = contents reader fuel rest len := by
  induction fuel generalizing rest len with
  | zero => omega
  | succ fuel ih =>
    rw [Nat.add_right_comm, contents, contents]
    split
    · rfl
    · cases hchild : reader rest with
      | none => rfl
      | some p =>
        have hsplits := hread (show reader rest = some (p.1, p.2) from hchild)
        have hlen := congrArg length hsplits.whole
        have htwo := hsplits.encoded.two_le
        rw [length_append] at hlen
        exact ih _ (by omega)

end

theorem eq_of_long {first : UInt8} (h : ¬ first < 0x80) : first = UInt8.ofNat (0x80 + (first &&& 0x7f).toNat) := by
  have hall : ∀ n < 256, ¬ UInt8.ofNat n < 0x80 →
      UInt8.ofNat n = UInt8.ofNat (0x80 + (UInt8.ofNat n &&& 0x7f).toNat) := by decide +kernel
  have hfirst := hall first.toNat first.toNat_lt
  rw [UInt8.ofNat_toNat] at hfirst
  exact hfirst h

/-- What a definite length is read from: one byte, or a byte that counts the octets and these. -/
theorem of_definite {first : UInt8} {rest left : Bytes} {n len : ℕ}
    (h : definite first rest = some (n, len, left)) : n ≤ rest.length ∧ rest.drop n = left ∧
      (n = 0 ∧ len < 0x80 ∧ first = UInt8.ofNat len ∨
        (0 < n ∧ n ≤ 4) ∧ first = UInt8.ofNat (0x80 + n) ∧ ofOctets (rest.take n) = len) := by
  unfold definite at h
  split at h
  · rename_i hshort
    cases h
    exact ⟨Nat.zero_le _, rfl, .inl ⟨rfl, UInt8.lt_iff_toNat_lt.mp hshort, UInt8.ofNat_toNat.symm⟩⟩
  · rename_i hlong
    dsimp only at h
    split at h
    · nomatch h
    · rename_i hcount
      simp only [Option.bind_eq_bind, Option.bind_eq_some_iff, Option.some.injEq, Prod.mk.injEq, upTo_eq_some,
        after_eq_some] at h
      obtain ⟨octets, ⟨-, rfl⟩, more, ⟨hle, rfl⟩, rfl, rfl, rfl⟩ := h
      exact ⟨hle, rfl, .inr ⟨by omega, eq_of_long hlong, rfl⟩⟩

/-- An element that is read starts the input, as it is encoded. -/
theorem readAt_splits {levels : ℕ} {input rest : Bytes} {t : Tlv} (h : readAt levels input = some (t, rest)) :
    Splits input t rest := by
  induction levels generalizing input rest t with
  | zero => simp [readAt] at h
  | succ levels ih =>
    unfold readAt at h
    split at h
    case h_2 => nomatch h
    rename_i tag first body heq
    cases heq
    dsimp only at h
    split at h
    case isTrue => nomatch h
    split at h
    · rename_i hfirst
      split at h
      case isTrue => nomatch h
      simp only [Option.bind_eq_bind, Option.bind_eq_some_iff, Option.some.injEq, Prod.mk.injEq, Prod.exists,
        upTo_eq_some, after_eq_some] at h
      obtain ⟨len, left, hcontents, value, ⟨hlen, rfl⟩, raw, ⟨-, rfl⟩, more, ⟨-, rfl⟩, rfl, rfl⟩ := h
      obtain ⟨-, rfl, hend⟩ := contents_spec ih (Nat.zero_le body.length) rfl hcontents
      have hraw : (tag :: first :: body).take (2 + len + 2) = tag :: 0x80 :: body.take len ++ [0, 0] := by
        rw [show 2 + len + 2 = len + 2 + 1 + 1 by omega, hfirst, take_succ_cons, take_succ_cons, take_add, hend]
        rfl
      refine ⟨?_, .indefinite hraw⟩
      rw [drop_drop, show 2 + len + 2 = len + 2 + 1 + 1 by omega]
      exact take_append_drop (len + 2 + 1 + 1) (tag :: first :: body)
    · rename_i hfirst
      simp only [Option.bind_eq_bind, Option.bind_eq_some_iff, Option.some.injEq, Prod.mk.injEq, Prod.exists,
        upTo_eq_some, after_eq_some] at h
      obtain ⟨n, len, left, hdefinite, value, ⟨hlen, rfl⟩, raw, ⟨-, rfl⟩, more, ⟨-, rfl⟩, rfl, rfl⟩ := h
      obtain ⟨hn, rfl, hheader⟩ := of_definite hdefinite
      have hraw : (tag :: first :: body).take (2 + n + len) = tag :: first :: body.take n ++ (body.drop n).take len := by
        rw [show 2 + n + len = n + len + 1 + 1 by omega, take_succ_cons, take_succ_cons, take_add]
        rfl
      have hvalue : ((body.drop n).take len).length = len := length_take_of_le hlen
      refine ⟨?_, ?_⟩
      · rw [drop_drop, show 2 + n + len = n + len + 1 + 1 by omega]
        exact take_append_drop (n + len + 1 + 1) (tag :: first :: body)
      · obtain ⟨rfl, hshort, rfl⟩ | ⟨hcount, rfl, hoctets⟩ := hheader
        · exact .short (hvalue.trans_lt hshort) (by rw [hvalue]; exact hraw)
        · have htake : (body.take n).length = n := length_take_of_le hn
          exact .long (by rwa [htake]) (hoctets.trans hvalue.symm) (by rw [htake]; exact hraw)

theorem childrenFrom_fuel {fuel more : ℕ} {rest : Bytes} (hfuel : rest.length ≤ fuel) :
    childrenFrom (fuel + more) rest = childrenFrom fuel rest := by
  induction fuel generalizing rest with
  | zero =>
    obtain rfl := eq_nil_of_length_eq_zero (Nat.le_zero.mp hfuel)
    cases more <;> rfl
  | succ fuel ih =>
    cases rest with
    | nil =>
      rw [Nat.add_right_comm]
      rfl
    | cons b rest =>
      rw [Nat.add_right_comm, childrenFrom, childrenFrom]
      cases hread : read (b :: rest) with
      | none => rfl
      | some p =>
        have hsplits := readAt_splits (show read (b :: rest) = some (p.1, p.2) from hread)
        have hlen := congrArg length hsplits.whole
        have htwo := hsplits.encoded.two_le
        rw [length_append] at hlen
        have hmore := ih (show p.2.length ≤ fuel by omega)
        simp only [Option.bind_eq_bind, Option.bind_some, hmore]

/-- Children fill the contents. -/
theorem flatten_childrenFrom {fuel : ℕ} {value : Bytes} {tlvs : List Tlv}
    (h : childrenFrom fuel value = some tlvs) : (tlvs.map Tlv.raw).flatten = value := by
  induction fuel generalizing value tlvs with
  | zero =>
    cases value with
    | nil =>
      cases h
      rfl
    | cons => nomatch h
  | succ fuel ih =>
    cases value with
    | nil =>
      cases h
      rfl
    | cons b value =>
      simp only [childrenFrom, Option.bind_eq_bind, Option.bind_eq_some_iff, Option.some.injEq, Prod.exists] at h
      obtain ⟨t, rest, hread, tlvs, hmore, rfl⟩ := h
      rw [map_cons, flatten_cons, ih hmore, (readAt_splits hread).whole]

/-- An element that is read and what follows it are the input, and the contents are in it after a header that says
how long they are; the elements of a value are the value. No reading ends for want of turns. -/
theorem elements_partition :
    (∀ {input rest : Bytes} {t : Tlv}, read input = some (t, rest) → t.raw ++ rest = input ∧ t.Encoded) ∧
    (∀ {value : Bytes} {tlvs : List Tlv}, children value = some tlvs → (tlvs.map Tlv.raw).flatten = value) ∧
    (∀ levels more len (rest : Bytes), contents (readAt levels) (rest.length + 1 + more) rest len =
      contents (readAt levels) (rest.length + 1) rest len) ∧
    ∀ more (value : Bytes), childrenFrom (value.length + more) value = children value :=
  ⟨fun h => ⟨(readAt_splits h).whole, (readAt_splits h).encoded⟩, flatten_childrenFrom,
    fun _ _ len _ => contents_fuel readAt_splits len (Nat.lt_succ_self _), fun _ _ => childrenFrom_fuel le_rfl⟩

end Virtkit.Uefi.Der
