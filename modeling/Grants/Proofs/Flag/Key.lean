import Grants.Bytes
import Grants.Proofs.Flag.Derivation
import Mathlib.Data.String.Basic

/-!
# Strict flags as keys

Definitions are stored under the bytes of strict flags.  These are not empty, tell
strict flags apart, and keep their order: strict flags are compared field by field,
that is by their texts, since the segments are those of the text
(`StrictFlag.compareFields_eq`), and every character of such a text takes one byte
(`StrictFlag.compare_ofString_eq_lt_iff`).
-/

namespace Grants

namespace Bytes

variable {c d : Char} {cs ds : List Char}

/-- The byte that a character takes if it takes a single one. -/
def ofAscii (c : Char) : UInt8 := c.val.toUInt8

theorem toNat_ofAscii (hc : c.val ≤ 127) : (ofAscii c).toNat = c.val.toNat := by
  have hlt : c.val.toNat ≤ 127 := UInt32.le_iff_toNat_le.mp hc
  rw [ofAscii, UInt32.toNat_toUInt8]
  omega

theorem ofString_of_ascii {s : String} (h : ∀ c ∈ s.toList, c.val ≤ 127) :
    ofString s = s.toList.map ofAscii := by
  rw [ofString_eq_flatMap, List.map_eq_flatMap]
  refine List.flatMap_congr fun c hc ↦ ?_
  exact String.utf8EncodeChar_eq_singleton (Char.utf8Size_eq_one_iff.mpr (h c hc))

theorem compare_map_ofAscii_eq_lt_iff (hcs : ∀ c ∈ cs, c.val ≤ 127) (hds : ∀ d ∈ ds, d.val ≤ 127) :
    compare (cs.map ofAscii) (ds.map ofAscii) = .lt ↔ cs < ds := by
  induction cs generalizing ds with
  | nil => cases ds <;> simp
  | cons c cs ih =>
    cases ds with
    | nil => simp
    | cons d ds =>
      rw [List.forall_mem_cons] at hcs hds
      have hc := toNat_ofAscii hcs.1
      have hd := toNat_ofAscii hds.1
      have hlt : ofAscii c < ofAscii d ↔ c < d := by
        rw [UInt8.lt_iff_toNat_lt, hc, hd, Char.lt_def, UInt32.lt_iff_toNat_lt]
      have heq : ofAscii c = ofAscii d ↔ c = d := by
        rw [← UInt8.toNat_inj, hc, hd, UInt32.toNat_inj, Char.val_inj]
      rw [List.map_cons, List.map_cons, List.compare_cons_cons, Ordering.then_eq_lt,
        List.cons_lt_cons_iff, ih hcs.2 hds.2, Std.LawfulLTCmp.eq_lt_iff_lt,
        Std.LawfulEqCmp.compare_eq_iff_eq, hlt, heq]

end Bytes

namespace StrictFlag

variable {k l : StrictFlag}

theorem ofString_raw_eq_iff : Bytes.ofString k.raw = Bytes.ofString l.raw ↔ k = l := by
  constructor
  · intro heq
    cases k
    cases Bytes.ofString_inj heq
    rfl
  · rintro rfl
    rfl

theorem length_ofString_pos (k : StrictFlag) : 0 < (Bytes.ofString k.raw).length := by
  by_contra hlen
  have hnil : Bytes.ofString k.raw = Bytes.ofString "" :=
    List.length_eq_zero_iff.mp (Nat.eq_zero_of_not_pos hlen)
  have haccepted := k.accepted
  rw [Bytes.ofString_inj hnil] at haccepted
  exact absurd haccepted (by decide)

instance : Std.TransOrd StrictFlag := inferInstanceAs (Std.TransCmp (compareOn raw))

/-- By one field after the other. -/
def compareFields : StrictFlag → StrictFlag → Ordering :=
  compareLex (compareOn raw) (compareOn segments)

theorem segments_congr (h : k.raw = l.raw) : k.segments = l.segments := by
  rw [segments, segments, h]

/-- The second field never decides. -/
theorem compareFields_eq : compareFields k l = compare k l := by
  change (compare k.raw l.raw).then (compare k.segments l.segments) = compare k.raw l.raw
  cases h : compare k.raw l.raw with
  | eq =>
    rw [segments_congr (Std.LawfulEqCmp.compare_eq_iff_eq.mp h)]
    exact Std.ReflCmp.compare_self
  | lt | gt => rfl

theorem ascii_raw (k : StrictFlag) : ∀ c ∈ k.raw.toList, c.val ≤ 127 := by
  intro c hmem
  by_contra hc
  refine Grammar.notMem_of_strict ?_ ?_ k.accepted hmem
  · rw [Bool.eq_false_iff, Ne, Flag.isWordChar_iff]
    rintro (⟨-, hz⟩ | ⟨-, hnine⟩)
    · exact hc (UInt32.le_trans hz (by decide))
    · exact hc (UInt32.le_trans hnine (by decide))
  · rintro rfl
    exact hc (by decide)

theorem compare_ofString_eq_lt_iff :
    compare (Bytes.ofString k.raw) (Bytes.ofString l.raw) = .lt ↔ compare k l = .lt := by
  rw [Bytes.ofString_of_ascii k.ascii_raw, Bytes.ofString_of_ascii l.ascii_raw,
    Bytes.compare_map_ofAscii_eq_lt_iff k.ascii_raw l.ascii_raw, ← String.lt_iff_toList_lt]
  change _ ↔ compare k.raw l.raw = .lt
  rw [Std.LawfulLTCmp.eq_lt_iff_lt]

end StrictFlag

end Grants
