/-!
# Rounding to doubles

A double has 53 significant bits.  `round n` is a natural of that precision that
is nearest to `n` (`two_mul_round_le`, `two_mul_le_round`); of two that are
equally near, it is the even multiple of the unit (`even_round_of_tie`).
-/

namespace Grants.Double

def precision : Nat := 53

/-- The distance between the naturals of double precision around `n`. -/
def unit (n : Nat) : Nat := Nat.pow 2 (n.log2 + 1 - precision)

/-- How many units `n` is rounded to. -/
def units (n : Nat) : Nat :=
  let whole := n / unit n
  let rest := n % unit n
  if 2 * rest < unit n ∨ 2 * rest = unit n ∧ whole % 2 = 0 then whole else whole + 1

def round (n : Nat) : Nat := units n * unit n

/-- Half a unit above the largest double, from where on values round to infinity. -/
def bound : Nat := Nat.pow 2 1024 - Nat.pow 2 970

theorem two_mul_round_le (n : Nat) : 2 * round n ≤ 2 * n + unit n := by
  have hn := Nat.div_add_mod n (unit n)
  rw [Nat.mul_comm] at hn
  unfold round units
  dsimp only
  split
  · omega
  · next h =>
    rw [Nat.add_mul, Nat.one_mul]
    omega

theorem two_mul_le_round (n : Nat) : 2 * n ≤ 2 * round n + unit n := by
  have hn := Nat.div_add_mod n (unit n)
  have hlt : n % unit n < unit n := Nat.mod_lt _ (Nat.two_pow_pos _)
  rw [Nat.mul_comm] at hn
  unfold round units
  dsimp only
  split
  · omega
  · rw [Nat.add_mul, Nat.one_mul]
    omega

theorem even_round_of_tie {n : Nat} (h : 2 * (n % unit n) = unit n) : units n % 2 = 0 := by
  unfold units
  dsimp only
  split <;> omega

/-- Naturals of at most 53 bits are doubles. -/
theorem round_of_lt {n : Nat} (h : n < Nat.pow 2 precision) : round n = n := by
  have hunit : unit n = 1 := by
    by_cases hn : n = 0
    · subst hn
      rfl
    · have := (Nat.log2_lt hn).mpr h
      rw [unit, Nat.sub_eq_zero_of_le (by omega)]
  simp [round, units, hunit, Nat.mod_one]

end Grants.Double
