import Grants.Proofs.ByteStore.Key

/-!
# The order of keys

Tables keep their records in the order of the keys, byte by byte.  The length of a
part comes before its bytes, in big-endian order, so parts are ordered by their
length and then by their bytes (`Key.compareTexts`), and keys as lists of such
parts (`Key.compare_build`).
-/

namespace Grants

namespace Bytes

variable {as bs : Bytes}

/-- What follows after two byte strings of one length counts only if these are equal. -/
theorem compare_append (h : as.length = bs.length) (xs ys : Bytes) :
    compare (as ++ xs) (bs ++ ys) = (compare as bs).then (compare xs ys) := by
  induction as generalizing bs with
  | nil =>
    cases List.length_eq_zero_iff.mp h.symm
    rfl
  | cons a as ih =>
    cases bs with
    | nil => cases h
    | cons b bs =>
      rw [List.cons_append, List.cons_append, List.compare_cons_cons, List.compare_cons_cons,
        ih (Nat.succ.inj h), Ordering.then_assoc]

theorem compare_toNat (a b : UInt8) : compare a.toNat b.toNat = compare a b := by
  simp only [compare, compareOfLessAndEq, UInt8.lt_iff_toNat_lt, UInt8.toNat_inj]

/-- The leading digit decides between two numbers, unless they share it. -/
theorem compare_digit {w a b m n : Nat} (hm : m < w) (hn : n < w) :
    compare (a * w + m) (b * w + n) = (compare a b).then (compare m n) := by
  rcases Nat.lt_trichotomy a b with h | rfl | h
  · have hle : (a + 1) * w ≤ b * w := Nat.mul_le_mul_right w h
    rw [Nat.succ_mul] at hle
    rw [Nat.compare_eq_lt.mpr h, Nat.compare_eq_lt.mpr (by omega)]
    rfl
  · rw [Nat.compare_eq_eq.mpr rfl, Ordering.eq_then]
    simp only [Nat.compare_eq_ite_lt, Nat.add_lt_add_iff_left]
  · have hle : (b + 1) * w ≤ a * w := Nat.mul_le_mul_right w h
    rw [Nat.succ_mul] at hle
    rw [Nat.compare_eq_gt.mpr h, Nat.compare_eq_gt.mpr (by omega)]
    rfl

/-- Byte strings of one length are ordered as the numbers that they denote. -/
theorem compare_eq_compare_toNat (h : as.length = bs.length) :
    compare as bs = compare (toNat as) (toNat bs) := by
  induction as generalizing bs with
  | nil =>
    cases List.length_eq_zero_iff.mp h.symm
    rfl
  | cons a as ih =>
    cases bs with
    | nil => cases h
    | cons b bs =>
      have h' : as.length = bs.length := Nat.succ.inj h
      rw [List.compare_cons_cons, ih h', toNat, toNat, h',
        compare_digit (h' ▸ toNat_lt as) (toNat_lt bs), compare_toNat]

theorem compare_ofNat {width m n : Nat} (hm : m < weight width) (hn : n < weight width) :
    compare (ofNat width m) (ofNat width n) = compare m n := by
  rw [compare_eq_compare_toNat (by simp), toNat_ofNat_of_lt hm, toNat_ofNat_of_lt hn]

end Bytes

namespace Key

/-- Texts by their length in bytes, and then by their bytes. -/
def compareTexts : String → String → Ordering :=
  compareLex (compareOn fun s ↦ (Bytes.ofString s).length) (compareOn Bytes.ofString)

variable {s t : String} {ss ts : List String} {key key' : Bytes}

/-- The first parts decide between two keys, unless they are equal. -/
theorem compare_part_append (hs : part (Bytes.ofString s) = .ok key)
    (ht : part (Bytes.ofString t) = .ok key') (xs ys : Bytes) :
    compare (key ++ xs) (key' ++ ys) = (compareTexts s t).then (compare xs ys) := by
  obtain ⟨hslen, rfl⟩ := part_eq_ok_iff.mp hs
  obtain ⟨htlen, rfl⟩ := part_eq_ok_iff.mp ht
  have hweight : maxPart < Bytes.weight 2 := by decide
  rw [List.append_assoc, List.append_assoc, Bytes.compare_append (by simp),
    Bytes.compare_ofNat (Nat.lt_of_le_of_lt hslen hweight) (Nat.lt_of_le_of_lt htlen hweight)]
  unfold compareTexts compareLex compareOn
  rw [Ordering.then_assoc]
  -- The bytes of the two texts are compared only if there are as many of them.
  cases hlen : compare (Bytes.ofString s).length (Bytes.ofString t).length with
  | eq => rw [Bytes.compare_append (Nat.compare_eq_eq.mp hlen)]
  | lt | gt => rfl

theorem compare_build (hk : build ss = .ok key) (hk' : build ts = .ok key') :
    compare key key' = List.compareLex compareTexts ss ts := by
  induction ss generalizing ts key key' with
  | nil =>
    cases hk
    cases ts with
    | nil =>
      cases hk'
      rfl
    | cons t ts =>
      obtain ⟨first, rest, ht, -, rfl⟩ := build_cons_eq_ok_iff.mp hk'
      obtain ⟨-, rfl⟩ := part_eq_ok_iff.mp ht
      rfl
  | cons s ss ih =>
    obtain ⟨first, rest, hs, hss, rfl⟩ := build_cons_eq_ok_iff.mp hk
    cases ts with
    | nil =>
      cases hk'
      obtain ⟨-, rfl⟩ := part_eq_ok_iff.mp hs
      rfl
    | cons t ts =>
      obtain ⟨first', rest', ht, hts, rfl⟩ := build_cons_eq_ok_iff.mp hk'
      rw [compare_part_append hs ht, ih hss hts, List.compareLex_cons_cons]

end Key

end Grants
