import Grants.Double
import Grants.Numeral

/-!
# JSON numbers

A number keeps the digits it was written with.  As a double it is a significand
of 64 bits times a power of ten, each rounded on its own before they are
multiplied.
-/

namespace Grants

/-- A number as it is written: `whole`, perhaps after a minus sign, and perhaps a fraction and an
exponent. -/
structure Json.Number where
  negative : Bool := false
  whole : List Char
  fraction : List Char := []
  exponent : Option (Bool × List Char) := none
  deriving DecidableEq, Repr

namespace Json.Number

def ofNat (n : Nat) : Number := { whole := Numeral.digits n }

/-- The value of a number written with digits alone, if it fits in 64 bits. -/
def word? (n : Number) : Option UInt64 :=
  if n.negative || !n.fraction.isEmpty || n.exponent.isSome then none
  else Numeral.word? n.whole

/-- Digits are added to a significand while it fits in 64 bits; the others are left over. -/
def fill (significand : Nat) : List Char → Nat × List Char
  | [] => (significand, [])
  | c :: cs =>
    let longer := Nat.ofDigitChars 10 [c] significand
    if longer < UInt64.size then fill longer cs else (significand, c :: cs)

/-- The value of the exponent, 0 if there is none. -/
def exponentValue (n : Number) : Int :=
  match n.exponent with
  | none => 0
  | some (negative, digits) =>
    let e : Int := Nat.ofDigitChars 10 digits 0
    if negative then -e else e

/-- The significand, and the power of ten that it is multiplied by.  Of the digits for which the
significand has no room, those before the point count as zeros and those after it not at all. -/
def scaled (n : Number) : Nat × Int :=
  let (m, zeros) := fill 0 n.whole
  let (m, rest) := fill m n.fraction
  (m, n.exponentValue + zeros.length - (n.fraction.length - rest.length : Nat))

/-- The greatest power of ten in the range of doubles. -/
def maxScale : Nat := 308

/-- Is the number in the range of doubles?  Only a power of ten that is in range itself is
computed. -/
def isFinite (n : Number) : Bool :=
  let (m, e) := n.scaled
  if m = 0 ∨ e ≤ 0 then true
  else if maxScale < e then false
  else decide (Double.round m * Double.round (Nat.pow 10 e.toNat) < Double.bound)

end Json.Number

end Grants
