import Mathlib.Data.List.Basic
import Mathlib.Data.List.Induction
import Mathlib.Data.Nat.Bitwise
import Mathlib.Order.Compare

/-!
# Numbers and texts as bytes

The little-endian and big-endian bytes of a number, at a fixed width, and the number that bytes stand
for. A number that fits the width is read back, and numbers of one width compare by their first bytes.

UTF-8 is checked a byte at a time. What is due of a sequence that has begun is the ranges its next bytes must be
in: a text is valid where nothing is due at its end, and is cut inside a sequence where something is.
-/

namespace Virtkit.Common

open List

abbrev Bytes := List UInt8

/-- The bytes of a text of ASCII characters. -/
def ascii (s : String) : Bytes := s.toList.map fun c => UInt8.ofNat c.toNat

/-- A byte, in lower case if it is an ASCII letter. -/
def asciiLower (b : UInt8) : UInt8 := if 65 ≤ b && b ≤ 90 then b + 32 else b

/-- The lowest bytes of a number, the lowest first. -/
def leBytes : ℕ → ℕ → Bytes
  | 0, _ => []
  | n + 1, x => UInt8.ofNat x :: leBytes n (x / 256)

/-- The number whose bytes these are, the lowest first. -/
def ofLe : Bytes → ℕ
  | [] => 0
  | b :: bs => b.toNat + 256 * ofLe bs

/-- The lowest bytes of a number, the highest first. -/
def beBytes (n x : ℕ) : Bytes := (leBytes n x).reverse

variable (bs : Bytes)

/-- The number whose bytes these are, the highest first. -/
def ofBe : ℕ := ofLe bs.reverse

@[simp] theorem length_leBytes (n x : ℕ) : (leBytes n x).length = n := by
  induction n generalizing x with
  | zero => rfl
  | succ n ih => rw [leBytes, length_cons, ih]

@[simp] theorem length_beBytes (n x : ℕ) : (beBytes n x).length = n := by
  rw [beBytes, length_reverse, length_leBytes]

theorem ofLe_leBytes_mod (n x : ℕ) : ofLe (leBytes n x) = x % 256 ^ n := by
  induction n generalizing x with
  | zero => simp [leBytes, ofLe, Nat.mod_one]
  | succ n ih =>
    have hbyte : (UInt8.ofNat x).toNat = x % 256 := UInt8.toNat_ofNat'
    rw [leBytes, ofLe, ih, hbyte, Nat.pow_succ', Nat.mod_mul]

theorem ofLe_leBytes {n x : ℕ} (h : x < 256 ^ n) : ofLe (leBytes n x) = x := by
  rw [ofLe_leBytes_mod, Nat.mod_eq_of_lt h]

theorem ofBe_beBytes {n x : ℕ} (h : x < 256 ^ n) : ofBe (beBytes n x) = x := by
  rw [ofBe, beBytes, reverse_reverse, ofLe_leBytes h]

theorem ofLe_lt : ofLe bs < 256 ^ bs.length := by
  induction bs with
  | nil => exact Nat.one_pos
  | cons b bs ih =>
    have hb : b.toNat < 256 := b.toNat_lt
    rw [ofLe, length_cons, Nat.pow_succ]
    omega

theorem ofBe_lt : ofBe bs < 256 ^ bs.length := by
  have h := ofLe_lt bs.reverse
  rwa [length_reverse] at h

theorem ofLe_append (a b : Bytes) : ofLe (a ++ b) = ofLe a + 256 ^ a.length * ofLe b := by
  induction a with
  | nil => simp [ofLe]
  | cons x a ih =>
    rw [cons_append, ofLe, ih, ofLe, length_cons, Nat.pow_succ', Nat.mul_add, Nat.add_assoc, Nat.mul_assoc]

theorem ofBe_cons (x : UInt8) (bs : Bytes) : ofBe (x :: bs) = 256 ^ bs.length * x.toNat + ofBe bs := by
  rw [ofBe, reverse_cons, ofLe_append, length_reverse, ofLe, ofLe, ofBe, Nat.mul_zero, Nat.add_zero, Nat.add_comm]

theorem compare_mul_add {w x y a b : ℕ} (ha : a < w) (hb : b < w) :
    compare (w * x + a) (w * y + b) = (compare x y).then (compare a b) := by
  rcases lt_trichotomy x y with h | rfl | h
  · have hmul : w * x + w ≤ w * y := Nat.mul_le_mul_left w h
    simp [Nat.compare_eq_lt.mpr h, Nat.compare_eq_lt.mpr (show w * x + a < w * y + b by omega)]
  · simp [Nat.compare_eq_ite_lt]
  · have hmul : w * y + w ≤ w * x := Nat.mul_le_mul_left w h
    simp [Nat.compare_eq_gt.mpr h, Nat.compare_eq_gt.mpr (show w * y + b < w * x + a by omega)]

/-- The two's complement number whose bytes these are, the highest first. -/
def ofBeSigned (bs : Bytes) : ℤ :=
  if 256 ^ bs.length ≤ 2 * ofBe bs then ofBe bs - (256 ^ bs.length : ℕ) else ofBe bs

/-- A relation of bits holds of numbers if it does of their bytes. -/
theorem forall_testBit_ofBe {P : Bool → Bool → Prop} (hzero : P false false) {a b : Bytes} (h : a.length = b.length) :
    (∀ i, P ((ofBe a).testBit i) ((ofBe b).testBit i)) ↔
      ∀ p ∈ a.zip b, ∀ i, P (p.1.toNat.testBit i) (p.2.toNat.testBit i) := by
  have hbit : ∀ (x : UInt8) (bs : Bytes) (i : ℕ), (ofBe (x :: bs)).testBit i =
      if i < 8 * bs.length then (ofBe bs).testBit i else x.toNat.testBit (i - 8 * bs.length) := by
    intro x bs i
    have hlt := ofBe_lt bs
    rw [show 256 = 2 ^ 8 from rfl, ← Nat.pow_mul] at hlt
    rw [ofBe_cons, show 256 = 2 ^ 8 from rfl, ← Nat.pow_mul, Nat.testBit_two_pow_mul_add _ hlt]
  have hhigh : ∀ (bs : Bytes) (i : ℕ), 8 * bs.length ≤ i → (ofBe bs).testBit i = false := by
    intro bs i hi
    have hlt := ofBe_lt bs
    rw [show 256 = 2 ^ 8 from rfl, ← Nat.pow_mul] at hlt
    exact Nat.testBit_lt_two_pow (hlt.trans_le (Nat.pow_le_pow_right Nat.two_pos hi))
  induction a generalizing b with
  | nil =>
    cases b with
    | nil => simpa [ofBe, ofLe] using hzero
    | cons => simp at h
  | cons x a ih =>
    cases b with
    | nil => simp at h
    | cons y b =>
      rw [length_cons, length_cons, Nat.add_right_cancel_iff] at h
      rw [zip_cons_cons, forall_mem_cons]
      simp only [hbit, h]
      constructor
      · refine fun hall => ⟨fun i => ?_, (ih h).mp fun i => ?_⟩
        · simpa [Nat.not_lt.mpr (Nat.le_add_right (8 * b.length) i)] using hall (8 * b.length + i)
        · by_cases hi : i < 8 * b.length
          · simpa [hi] using hall i
          · rw [hhigh a i (by omega), hhigh b i (by omega)]
            exact hzero
      · rintro ⟨hhead, htail⟩ i
        split
        · exact (ih h).mpr htail i
        · exact hhead _

/-- A number's top bit is that of its first byte. -/
theorem le_ofBe_cons_iff (x : UInt8) (bs : Bytes) :
    256 ^ (x :: bs).length ≤ 2 * ofBe (x :: bs) ↔ x.toNat.testBit 7 = true := by
  have hx : x.toNat < 256 := x.toNat_lt
  have hlt := ofBe_lt bs
  have hbit : x.toNat.testBit 7 = true ↔ 128 ≤ x.toNat := by
    rw [Nat.testBit_eq_decide_div_mod_eq, decide_eq_true_iff]
    omega
  rw [hbit, ofBe_cons, length_cons, Nat.pow_succ]
  constructor
  · intro hle
    by_contra hsmall
    have := Nat.mul_le_mul_left (256 ^ bs.length) (show x.toNat ≤ 127 by omega)
    omega
  · intro hle
    have := Nat.mul_le_mul_left (256 ^ bs.length) hle
    omega

/-- The ranges of the bytes a sequence goes on with, by its first byte. -/
def continuation (b : UInt8) : Option (List (UInt8 × UInt8)) :=
  let any := (0x80, 0xBF)
  if b < 0x80 then some []
  else if b < 0xC2 then none
  else if b < 0xE0 then some [any]
  else if b = 0xE0 then some [(0xA0, 0xBF), any]
  else if b = 0xED then some [(0x80, 0x9F), any]
  else if b < 0xF0 then some [any, any]
  else if b = 0xF0 then some [(0x90, 0xBF), any, any]
  else if b < 0xF4 then some [any, any, any]
  else if b = 0xF4 then some [(0x80, 0x8F), any, any]
  else none

/-- What is due after a byte more. -/
def utf8Step : List (UInt8 × UInt8) → UInt8 → Option (List (UInt8 × UInt8))
  | [], b => continuation b
  | (lo, hi) :: due, b => if lo ≤ b ∧ b ≤ hi then some due else none

/-- What is due after a text, if it is UTF-8 so far. -/
def utf8Due : Option (List (UInt8 × UInt8)) := bs.foldlM utf8Step []

def isUtf8 (bs : Bytes) : Bool := utf8Due bs = some []

/-- Whether a text is cut inside a sequence. -/
def endsInside : Bool := (utf8Due bs).any fun due => !due.isEmpty

variable {due : List (UInt8 × UInt8)}

theorem length_le_of_utf8Step {next : List (UInt8 × UInt8)} {b : UInt8} (hdue : due.length ≤ 3)
    (h : utf8Step due b = some next) : next.length ≤ 3 := by
  cases due with
  | nil =>
    simp only [utf8Step, continuation] at h
    split_ifs at h <;> cases h <;> decide
  | cons r due =>
    simp only [utf8Step, Option.ite_none_right_eq_some, Option.some.injEq] at h
    simp_all
    omega

theorem utf8Due_append (a b : Bytes) : utf8Due (a ++ b) = (utf8Due a).bind fun due => b.foldlM utf8Step due :=
  foldlM_append

theorem utf8Due_append_of_isUtf8 {a : Bytes} (h : isUtf8 a = true) (b : Bytes) : utf8Due (a ++ b) = utf8Due b := by
  rw [utf8Due_append, of_decide_eq_true h]
  rfl

theorem utf8Due_of_append {a b : Bytes} (h : utf8Due (a ++ b) = some due) : ∃ due', utf8Due a = some due' := by
  rw [utf8Due_append, Option.bind_eq_some_iff] at h
  exact h.imp fun _ => And.left

/-- Texts put together are a text. -/
theorem isUtf8_flatten {l : List Bytes} (h : ∀ a ∈ l, isUtf8 a = true) : isUtf8 l.flatten = true := by
  induction l with
  | nil => rfl
  | cons a l ih =>
    rw [forall_mem_cons] at h
    rw [isUtf8, flatten_cons, utf8Due_append_of_isUtf8 h.1]
    exact ih h.2

theorem length_le_of_utf8Due {a : Bytes} (h : utf8Due a = some due) : due.length ≤ 3 := by
  induction a using reverseRecOn generalizing due with
  | nil =>
    cases h
    decide
  | append_singleton a b ih =>
    rw [utf8Due_append, Option.bind_eq_some_iff] at h
    obtain ⟨due', hdue', h⟩ := h
    exact length_le_of_utf8Step (ih hdue') (by simpa using h)

end Virtkit.Common
