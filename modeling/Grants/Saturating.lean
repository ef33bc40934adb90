/-!
# Saturating arithmetic on 64-bit words

Sums and products that would pass `2 ^ 64 - 1` stay there, and differences that
would go below zero stay at zero.  Each operation is characterised by its value
as a natural number.
-/

namespace Grants

/-- The word nearest to `n`. -/
def saturate (n : Nat) : UInt64 := .ofNat (min n (UInt64.size - 1))

def addSat (a b : UInt64) : UInt64 := saturate (a.toNat + b.toNat)

def mulSat (a b : UInt64) : UInt64 := saturate (a.toNat * b.toNat)

def subSat (a b : UInt64) : UInt64 := saturate (a.toNat - b.toNat)

@[simp] theorem toNat_saturate (n : Nat) : (saturate n).toNat = min n (UInt64.size - 1) :=
  UInt64.toNat_ofNat_of_lt' (by simp only [UInt64.size]; omega)

@[simp] theorem toNat_addSat (a b : UInt64) :
    (addSat a b).toNat = min (a.toNat + b.toNat) (UInt64.size - 1) := toNat_saturate _

@[simp] theorem toNat_mulSat (a b : UInt64) :
    (mulSat a b).toNat = min (a.toNat * b.toNat) (UInt64.size - 1) := toNat_saturate _

@[simp] theorem toNat_subSat (a b : UInt64) : (subSat a b).toNat = a.toNat - b.toNat := by
  have := a.toNat_lt
  rw [subSat, toNat_saturate, UInt64.size]
  omega

end Grants
