import Grants.Flag.Basic

/-!
# The texts of flags

The text of a flag is made of lower-case letters, digits and the four signs of
the grammar (`isFlagChar_of_mem`), so that it lies on one line, and it is not
empty (`raw_ne_nil`).
-/

namespace Grants

theorem Text.exists_mem_fields {sep c : Char} {cs : List Char} (hc : c ∈ cs) (hs : c ≠ sep) :
    ∃ f ∈ fields sep cs, c ∈ f := by
  induction cs with
  | nil => cases hc
  | cons d ds ih =>
    obtain ⟨g, gs, hg⟩ := List.exists_cons_of_ne_nil (fields_ne_nil sep ds)
    rw [hg] at ih
    rw [fields, hg]
    rcases List.mem_cons.mp hc with rfl | hc
    · exact ⟨c :: g, by simp [hs], by simp⟩
    · obtain ⟨f, hf, hcf⟩ := ih hc
      by_cases hd : d = sep
      · exact ⟨f, by simp [hd, hf], hcf⟩
      · rcases List.mem_cons.mp hf with rfl | hf
        · exact ⟨d :: f, by simp [hd], List.mem_cons_of_mem _ hcf⟩
        · exact ⟨f, by simp [hd, hf], hcf⟩

namespace Grammar

/-- The characters that the texts of flags are made of. -/
def isFlagChar (c : Char) : Bool := isWordChar c || c ∈ ['.', ':', '?', '*']

theorem isFlagChar_of_mem_segment {s : List Char} (hs : isSegment s = true) {c : Char}
    (hc : c ∈ s) :
    isFlagChar c = true := by
  rw [isSegment, Bool.or_eq_true, beq_iff_eq] at hs
  rcases hs with hs | rfl
  · rw [isWord, Bool.and_eq_true, List.all_eq_true] at hs
    simp [isFlagChar, hs.2 c hc]
  · rw [List.mem_singleton.mp hc]
    decide

theorem isFlagChar_of_mem_path {ss : List (List Char)} (h : isPath ss = true) {s : List Char}
    (hs : s ∈ ss) {c : Char} (hc : c ∈ s) : isFlagChar c = true := by
  induction ss with
  | nil => cases hs
  | cons t ts ih =>
    cases ts with
    | nil =>
      rw [isPath, Bool.or_eq_true, beq_iff_eq] at h
      obtain rfl := List.mem_singleton.mp hs
      rcases h with h | rfl
      · exact isFlagChar_of_mem_segment h hc
      · rw [List.mem_singleton.mp hc]
        decide
    | cons u us =>
      rw [isPath, Bool.and_eq_true] at h
      · rcases List.mem_cons.mp hs with rfl | hs
        · exact isFlagChar_of_mem_segment h.1 hc
        · exact ih h.2 hs
      · simp

theorem isFlagChar_of_isFlag {cs : List Char} (h : isFlag (Text.fields ':' cs) = true) {c : Char}
    (hc : c ∈ cs) : isFlagChar c = true := by
  by_cases hcolon : c = ':'
  · rw [hcolon]
    decide
  obtain ⟨f, hf, hcf⟩ := Text.exists_mem_fields hc hcolon
  obtain ⟨path, suffixes, hp⟩ := List.exists_cons_of_ne_nil (Text.fields_ne_nil ':' cs)
  rw [hp, isFlag, Bool.and_eq_true, Bool.and_eq_true] at h
  rw [hp] at hf
  rcases List.mem_cons.mp hf with rfl | hf
  · by_cases hdot : c = '.'
    · rw [hdot]
      decide
    · obtain ⟨s, hs, hcs⟩ := Text.exists_mem_fields hcf hdot
      exact isFlagChar_of_mem_path h.1.1 hs hcs
  · have hnum := List.all_eq_true.mp h.2 f hf
    rw [Numeral.isNumeral, Bool.and_eq_true, List.all_eq_true] at hnum
    simp [isFlagChar, isWordChar, hnum.2 c hcf]

end Grammar

namespace Flag

variable (f : Flag)

theorem isFlag_raw : Grammar.isFlag (Text.fields ':' f.raw.toList) = true := by
  have h := f.read_raw
  unfold Parts.read? Parts.ofPieces? at h
  split at h
  · assumption
  · cases h

theorem isFlagChar_of_mem {c : Char} (hc : c ∈ f.raw.toList) : Grammar.isFlagChar c = true :=
  Grammar.isFlagChar_of_isFlag f.isFlag_raw hc

theorem notMem_raw {c : Char} (hc : Grammar.isFlagChar c = false) : c ∉ f.raw.toList := fun h ↦
  Bool.false_ne_true (hc.symm.trans (f.isFlagChar_of_mem h))

theorem raw_ne_nil : f.raw.toList ≠ [] := by
  intro h
  have hf := f.isFlag_raw
  rw [h] at hf
  revert hf
  decide

end Flag

end Grants
