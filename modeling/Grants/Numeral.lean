/-!
# Decimal numerals

A numeral is a non-empty run of the digits `0` to `9`; leading zeros are allowed.
-/

namespace Grants.Numeral

def isNumeral (cs : List Char) : Bool := !cs.isEmpty && cs.all Char.isDigit

/-- The value of a numeral that fits in 64 bits. -/
def word? (cs : List Char) : Option UInt64 :=
  let n := Nat.ofDigitChars 10 cs 0
  if isNumeral cs && decide (n < UInt64.size) then some (.ofNat n) else none

/-- The shortest numeral of a number. -/
def digits (n : Nat) : List Char := Nat.toDigits 10 n

def text (n : Nat) : String := .ofList (digits n)

@[simp] theorem isNumeral_digits (n : Nat) : isNumeral (digits n) = true := by
  simp only [isNumeral, Bool.and_eq_true, Bool.not_eq_true', List.isEmpty_eq_false_iff,
    List.all_eq_true]
  exact ⟨Nat.toDigits_ne_nil, fun c hc ↦ Nat.isDigit_of_mem_toDigits (by omega) (by omega) hc⟩

@[simp] theorem word?_digits (w : UInt64) : word? (digits w.toNat) = some w := by
  have := w.toNat_lt
  simp only [word?, isNumeral_digits, Bool.true_and, decide_eq_true_eq]
  rw [digits, Nat.ofDigitChars_ten_toDigits, UInt64.ofNat_toNat]
  exact if_pos this

end Grants.Numeral
