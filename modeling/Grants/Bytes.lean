/-!
# Byte strings

Numbers of a fixed width in big-endian order, and the bytes of texts in UTF-8.
Both are read back from what is written, and only from that.
-/

namespace Grants

abbrev Bytes := List UInt8

namespace Bytes

/-- What a byte counts for that has `k` bytes after it. -/
def weight (k : Nat) : Nat := Nat.pow 256 k

theorem weight_succ (k : Nat) : weight (k + 1) = 256 * weight k := Nat.pow_succ'

theorem weight_pos (k : Nat) : 0 < weight k := Nat.pow_pos (by decide)

/-- The `width` low bytes of a number, most significant first. -/
def ofNat : (width n : Nat) → Bytes
  | 0, _ => []
  | k + 1, n => .ofNat (n / weight k) :: ofNat k n

def toNat : Bytes → Nat
  | [] => 0
  | b :: bs => b.toNat * weight bs.length + toNat bs

@[simp] theorem length_ofNat (width n : Nat) : (ofNat width n).length = width := by
  induction width with
  | zero => rfl
  | succ k ih => rw [ofNat, List.length_cons, ih]

theorem toNat_lt (bs : Bytes) : toNat bs < weight bs.length := by
  induction bs with
  | nil => decide
  | cons b bs ih =>
    have hb : b.toNat + 1 ≤ 256 := b.toNat_lt
    calc toNat (b :: bs) < b.toNat * weight bs.length + weight bs.length :=
          Nat.add_lt_add_left ih _
      _ = (b.toNat + 1) * weight bs.length := (Nat.succ_mul ..).symm
      _ ≤ 256 * weight bs.length := Nat.mul_le_mul_right _ hb
      _ = weight (b :: bs).length := (weight_succ _).symm

/-- The bytes of a number are those of its remainder. -/
theorem toNat_ofNat (width n : Nat) : toNat (ofNat width n) = n % weight width := by
  induction width with
  | zero => exact (Nat.mod_one n).symm
  | succ k ih =>
    rw [ofNat, toNat, ih, length_ofNat, UInt8.toNat_ofNat', weight_succ, Nat.mul_comm 256,
      Nat.mod_mul, Nat.mul_comm (weight k), Nat.add_comm]

theorem toNat_ofNat_of_lt {width n : Nat} (h : n < weight width) : toNat (ofNat width n) = n := by
  rw [toNat_ofNat, Nat.mod_eq_of_lt h]

theorem ofNat_add_mul (width n m : Nat) :
    ofNat width (n + m * weight width) = ofNat width n := by
  induction width generalizing m with
  | zero => rfl
  | succ k ih =>
    have h : n + m * weight (k + 1) = n + m * 256 * weight k := by rw [weight_succ]; ac_rfl
    rw [ofNat, ofNat, h, ih, Nat.add_mul_div_right _ _ (weight_pos k)]
    refine congrArg (· :: ofNat k n) (UInt8.toNat_inj.mp ?_)
    rw [UInt8.toNat_ofNat', UInt8.toNat_ofNat']
    exact Nat.add_mul_mod_self_right ..

/-- Every byte string is the number it denotes, in its width. -/
theorem ofNat_toNat (bs : Bytes) : ofNat bs.length (toNat bs) = bs := by
  induction bs with
  | nil => rfl
  | cons b bs ih =>
    have hdiv : toNat (b :: bs) / weight bs.length = b.toNat := by
      rw [toNat, Nat.add_comm, Nat.add_mul_div_right _ _ (weight_pos _),
        Nat.div_eq_of_lt (toNat_lt bs), Nat.zero_add]
    rw [List.length_cons, ofNat, hdiv, UInt8.ofNat_toNat, toNat, Nat.add_comm, ofNat_add_mul, ih]

def ofString (s : String) : Bytes := s.toByteArray.data.toList

/-- The text that some bytes encode, if they are well-formed. -/
def toString? (bs : Bytes) : Option String := String.fromUTF8? ⟨bs.toArray⟩

@[simp] theorem toString?_ofString (s : String) : toString? (ofString s) = some s := by
  simp only [toString?, ofString, Array.toArray_toList, String.fromUTF8?]
  exact dif_pos s.isValidUTF8

/-- Only the encoding of a text is read as that text. -/
theorem eq_ofString_of_toString? {bs : Bytes} {s : String} (h : toString? bs = some s) :
    bs = ofString s := by
  unfold toString? String.fromUTF8? at h
  split at h
  · cases h
    rfl
  · simp at h

theorem ofString_inj {s t : String} (h : ofString s = ofString t) : s = t :=
  Option.some.inj (toString?_ofString s ▸ toString?_ofString t ▸ congrArg toString? h)

/-- The bytes of a text are those of its characters. -/
theorem ofString_eq_flatMap (s : String) : ofString s = s.toList.flatMap String.utf8EncodeChar := by
  obtain ⟨cs, rfl⟩ : ∃ cs, s = String.ofList cs := ⟨s.toList, String.ofList_toList.symm⟩
  rw [ofString, String.toByteArray_ofList, List.utf8Encode, List.data_toByteArray,
    String.toList_ofList]

theorem length_ofString_le (s : String) : (ofString s).length ≤ 4 * s.toList.length := by
  rw [ofString_eq_flatMap]
  induction s.toList with
  | nil => simp
  | cons c cs ih =>
    have hc := c.utf8Size_le_four
    rw [List.flatMap_cons, List.length_append, String.length_utf8EncodeChar, List.length_cons]
    omega

end Bytes

end Grants
