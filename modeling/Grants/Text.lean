/-!
# Splitting text

`fields sep` cuts at every `sep`: joining the pieces gives the text back, and
cutting a text joined from pieces without separators gives the pieces back.
`lines` cuts into the lines of a text file.
-/

namespace Grants.Text

/-- The pieces between separators: one more than there are separators. -/
def fields (sep : Char) : List Char → List (List Char)
  | [] => [[]]
  | c :: cs =>
    if c = sep then [] :: fields sep cs
    else (c :: (fields sep cs).headD []) :: (fields sep cs).tail

variable {sep : Char}

theorem fields_ne_nil (sep : Char) (cs : List Char) : fields sep cs ≠ [] := by
  cases cs with
  | nil => simp [fields]
  | cons c cs => by_cases h : c = sep <;> simp [fields, h]

/-- Pieces before a separator and pieces after it do not mix. -/
theorem fields_append_fields (xs ys : List Char) :
    fields sep (xs ++ sep :: ys) = fields sep xs ++ fields sep ys := by
  induction xs with
  | nil => simp [fields]
  | cons c xs ih =>
    obtain ⟨f, fs, hf⟩ := List.exists_cons_of_ne_nil (fields_ne_nil sep xs)
    by_cases hc : c = sep
    · simp [fields, hc, ih]
    · simp [fields, hc, ih, hf]

/-- A text without separators is its own only piece. -/
theorem fields_of_notMem {cs : List Char} (h : sep ∉ cs) : fields sep cs = [cs] := by
  induction cs with
  | nil => rfl
  | cons c cs ih =>
    rw [List.mem_cons, not_or] at h
    simp [fields, Ne.symm h.1, ih h.2]

/-- A piece without separators comes off in front of a separator. -/
theorem fields_append {f : List Char} (cs : List Char) (h : sep ∉ f) :
    fields sep (f ++ sep :: cs) = f :: fields sep cs := by
  rw [fields_append_fields, fields_of_notMem h, List.singleton_append]

theorem headD_fields (sep : Char) (cs : List Char) :
    (fields sep cs).headD [] = cs.takeWhile (· ≠ sep) := by
  induction cs with
  | nil => rfl
  | cons c cs ih =>
    by_cases hc : c = sep
    · simp [fields, hc]
    · rw [fields, if_neg hc, List.headD_cons, ih, List.takeWhile_cons_of_pos (by simpa using hc)]

theorem notMem_of_mem_fields {cs f : List Char} (h : f ∈ fields sep cs) : sep ∉ f := by
  induction cs generalizing f with
  | nil =>
    rw [fields, List.mem_singleton] at h
    simp [h]
  | cons c cs ih =>
    obtain ⟨g, gs, hg⟩ := List.exists_cons_of_ne_nil (fields_ne_nil sep cs)
    rw [fields, hg] at h
    rw [hg] at ih
    by_cases hc : c = sep
    · rw [if_pos hc] at h
      rcases List.mem_cons.mp h with rfl | h
      · simp
      · exact ih h
    · rw [if_neg hc] at h
      rcases List.mem_cons.mp h with rfl | h
      · rw [List.headD_cons, List.mem_cons, not_or]
        exact ⟨Ne.symm hc, ih (by simp)⟩
      · exact ih (List.mem_cons_of_mem _ h)

theorem intercalate_fields (sep : Char) (cs : List Char) :
    [sep].intercalate (fields sep cs) = cs := by
  induction cs with
  | nil => rfl
  | cons c cs ih =>
    obtain ⟨f, fs, hf⟩ := List.exists_cons_of_ne_nil (fields_ne_nil sep cs)
    rw [fields, hf]
    rw [hf] at ih
    by_cases h : c = sep
    · rw [if_pos h, List.intercalate_cons_cons, ih, h]
      rfl
    · rw [if_neg h]
      cases fs with
      | nil => simpa using ih
      | cons g gs =>
        rw [List.intercalate_cons_cons] at ih
        simp [List.intercalate_cons_cons, ih]

theorem fields_intercalate {fs : List (List Char)} (hne : fs ≠ []) (h : ∀ f ∈ fs, sep ∉ f) :
    fields sep ([sep].intercalate fs) = fs := by
  induction fs with
  | nil => exact absurd rfl hne
  | cons f fs ih =>
    cases fs with
    | nil => simpa using fields_of_notMem (h f (by simp))
    | cons g gs =>
      rw [List.intercalate_cons_cons, List.append_assoc, List.singleton_append,
        fields_append _ (h f (by simp)),
        ih (by simp) fun g hg ↦ h g (List.mem_cons_of_mem _ hg)]

theorem fields_inj {cs cs' : List Char} (h : fields sep cs = fields sep cs') : cs = cs' := by
  rw [← intercalate_fields sep cs, h, intercalate_fields]

/-- The last piece of a text is all of it, or what comes after the last separator. -/
theorem getLast?_fields_eq_some_iff {cs f : List Char} :
    (fields sep cs).getLast? = some f ↔
      sep ∉ f ∧ (cs = f ∨ ∃ stem, cs = stem ++ sep :: f) := by
  constructor
  · intro h
    have hf : sep ∉ f := notMem_of_mem_fields (List.mem_of_getLast? h)
    refine ⟨hf, ?_⟩
    obtain ⟨init, hinit⟩ := List.getLast?_eq_some_iff.mp h
    by_cases hnil : init = []
    · subst hnil
      exact .inl (fields_inj (hinit.trans (fields_of_notMem hf).symm))
    · have hsep : ∀ g ∈ init, sep ∉ g := fun g hg ↦
        notMem_of_mem_fields (hinit ▸ List.mem_append_left [f] hg)
      have hcs : fields sep cs = fields sep ([sep].intercalate init ++ sep :: f) := by
        rw [hinit, fields_append_fields, fields_of_notMem hf, fields_intercalate hnil hsep]
      exact .inr ⟨_, fields_inj hcs⟩
  · rintro ⟨hf, rfl | ⟨stem, rfl⟩⟩
    · rw [fields_of_notMem hf, List.getLast?_singleton]
    · rw [fields_append_fields, fields_of_notMem hf, List.getLast?_concat]

/-! ## Pieces as strings -/

section Strings

variable {t : String} {ss : List String}

theorem intercalate_fields_toList (ht : t.toList = [sep]) (s : String) :
    t.intercalate ((fields sep s.toList).map String.ofList) = s := by
  have hmap : ((fields sep s.toList).map String.ofList).map String.toList = fields sep s.toList := by
    simp
  rw [← String.toList_inj, String.toList_intercalate, hmap, ht, intercalate_fields]

theorem fields_toList_intercalate (ht : t.toList = [sep]) (hne : ss ≠ [])
    (h : ∀ s ∈ ss, sep ∉ s.toList) :
    fields sep (t.intercalate ss).toList = ss.map String.toList := by
  rw [String.toList_intercalate, ht]
  exact fields_intercalate (by simpa using hne) (List.forall_mem_map.mpr h)

end Strings

/-- One carriage return at the end of a line belongs to the line break after it. -/
def dropReturn (line : List Char) : List Char :=
  if line.getLast? = some '\r' then line.dropLast else line

/-- The lines of a text.  A last line needs no line break, and keeps a carriage return. -/
def lines (cs : List Char) : List (List Char) :=
  let pieces := fields '\n' cs
  let last := pieces.getLastD []
  pieces.dropLast.map dropReturn ++ if last = [] then [] else [last]

end Grants.Text
