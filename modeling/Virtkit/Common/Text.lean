import Mathlib.Algebra.GroupWithZero.Nat

/-!
# Characters and numbers in texts

What is read off a text character by character: the control characters, the numbers that parse, and the
start of a text that takes a given number of bytes.
-/

namespace Virtkit.Common

/-- A control character, of either of the two ranges that Unicode has. -/
def isControl (c : Char) : Bool := c.toNat < 0x20 || (0x7f ≤ c.toNat && c.toNat < 0xa0)

/-- An unsigned 64-bit number. -/
abbrev U64 := Fin (2 ^ 64)

/-- A number as it is parsed: a plus sign is taken, a number that does not fit is not. -/
def parseU64 (t : List Char) : Option U64 :=
  let digits := if t.head? = some '+' then t.tail else t
  if digits ≠ [] ∧ digits.all Char.isDigit then
    if h : Nat.ofDigitChars 10 digits 0 < 2 ^ 64 then some ⟨_, h⟩ else none
  else none

/-- The first characters of a text that take this many bytes, none if no characters do. -/
def takeBytes : ℕ → List Char → Option (List Char)
  | 0, _ => some []
  | _ + 1, [] => none
  | n + 1, c :: cs => if c.utf8Size ≤ n + 1 then (takeBytes (n + 1 - c.utf8Size) cs).map (c :: ·) else none

end Virtkit.Common
