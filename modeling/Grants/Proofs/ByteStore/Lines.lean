import Grants.Proofs.ByteStore.Record
import Grants.Proofs.Distinct
import Grants.Proofs.Flag.Derivation
import Grants.Proofs.Sample

/-!
# Records of flags are read line by line

Any text has its lines, in one way (`Text.hasLines_iff`), and read as a record of
flags it is those of its lines that are flags, each where it first occurs
(`Record.reads_flags`): blank lines, carriage returns and texts that are no flags
cost no flag beside them.  What has been read is written as a record of its own,
which reads the same (`Record.flags_ofFlags`).
-/

namespace Grants

namespace Text

/-- The lines of a text.  A newline ends a line, and takes one carriage return before it along; the
last line may lack its newline, and then keeps a carriage return. -/
inductive HasLines : List Char → List (List Char) → Prop
  | nil : HasLines [] []
  | last {l : List Char} (hl : '\n' ∉ l) (hne : l ≠ []) : HasLines l [l]
  | newline {l cs : List Char} {ls : List (List Char)} (hl : '\n' ∉ l)
      (hr : l.getLast? ≠ some '\r') (hcs : HasLines cs ls) : HasLines (l ++ '\n' :: cs) (l :: ls)
  | returnNewline {l cs : List Char} {ls : List (List Char)} (hl : '\n' ∉ l)
      (hcs : HasLines cs ls) : HasLines (l ++ '\r' :: '\n' :: cs) (l :: ls)

variable {l cs : List Char} {ls : List (List Char)}

theorem dropReturn_of_ne (h : l.getLast? ≠ some '\r') : dropReturn l = l := if_neg h

@[simp] theorem dropReturn_concat (l : List Char) : dropReturn (l ++ ['\r']) = l := by
  simp [dropReturn]

theorem lines_of_notMem (h : '\n' ∉ l) : lines l = if l = [] then [] else [l] := by
  simp [lines, fields_of_notMem h]

/-- The first line comes off at the first newline. -/
theorem lines_append (h : '\n' ∉ l) (cs : List Char) :
    lines (l ++ '\n' :: cs) = dropReturn l :: lines cs := by
  obtain ⟨f, fs, hf⟩ := List.exists_cons_of_ne_nil (fields_ne_nil '\n' cs)
  simp [lines, fields_append cs h, hf]

theorem HasLines.lines_eq (h : HasLines cs ls) : lines cs = ls := by
  induction h with
  | nil => rfl
  | last hl hne => rw [lines_of_notMem hl, if_neg hne]
  | newline hl hr _ ih => rw [lines_append hl, dropReturn_of_ne hr, ih]
  | @returnNewline l cs ls hl _ ih =>
    have hl' : '\n' ∉ l ++ ['\r'] := by simpa using hl
    rw [List.append_cons, lines_append hl', dropReturn_concat, ih]

theorem hasLines_lines (cs : List Char) : HasLines cs (lines cs) := by
  by_cases hcs : '\n' ∈ cs
  · obtain ⟨l, rest, heq, hl⟩ := List.eq_append_cons_of_mem hcs
    have hrest := hasLines_lines rest
    rw [heq, lines_append hl]
    by_cases hr : l.getLast? = some '\r'
    · obtain ⟨stem, rfl⟩ := List.getLast?_eq_some_iff.mp hr
      rw [dropReturn_concat, ← List.append_cons]
      exact .returnNewline (by simpa using hl) hrest
    · rw [dropReturn_of_ne hr]
      exact .newline hl hr hrest
  · rw [lines_of_notMem hcs]
    split
    · next hnil =>
      rw [hnil]
      exact .nil
    · next hne => exact .last hcs hne
termination_by cs.length
decreasing_by rw [heq, List.length_append, List.length_cons]; omega

theorem hasLines_iff : HasLines cs ls ↔ lines cs = ls :=
  ⟨HasLines.lines_eq, fun h ↦ h ▸ hasLines_lines cs⟩

end Text

namespace Record

/-- The flags whose texts are among some lines, each once, in the order of the lines in which they
first occur. -/
structure Reads (lines : List String) (fs : List Flag) : Prop where
  mem_iff (f : Flag) : f ∈ fs ↔ ∃ l ∈ lines, Flag.parse l = .ok f
  nodup : fs.Nodup
  ordered : fs.Pairwise fun f g ↦ lines.idxOf f.raw < lines.idxOf g.raw

theorem mem_parseValid {lines : List String} {f : Flag} :
    f ∈ Flag.parseValid lines ↔ ∃ l ∈ lines, Flag.parse l = .ok f := by
  rw [Flag.parseValid, List.mem_filterMap]
  refine exists_congr fun l ↦ and_congr_right fun _ ↦ ?_
  rw [Flag.parse_eq_ok_iff, Flag.ofString?_eq_some_iff]

/-- A record of flags has the flags of its lines. -/
theorem reads_flags {text : String} {ls : List (List Char)} (h : Text.HasLines text.toList ls) :
    Reads (ls.map String.ofList) (flags text) := by
  obtain rfl := h.lines_eq
  refine ⟨fun f ↦ ?_, nodup_distinct _, pairwise_distinctFrom ?_ [] _⟩
  · rw [flags, mem_distinct, mem_parseValid]
  · exact fun _ _ ↦ Flag.ofString?_eq_some_iff

theorem flags_ofFlags_of_nodup {fs : List Flag} (h : fs.Nodup) : flags (ofFlags fs) = fs := by
  rw [flags_ofFlags, distinct_eq_self h]

/-- Flags are read back from their record each once.  Any other text reads as the flags among its
lines, and what has been read is written and read again without a change. -/
theorem flags_kept_as_lines :
    (∀ fs : List Flag,
      flags (ofFlags fs) = distinct fs ∧ (fs.Nodup → flags (ofFlags fs) = fs)) ∧
    ∀ text : String,
      (∃ ls, (∀ ls', Text.HasLines text.toList ls' ↔ ls' = ls) ∧
        Reads (ls.map String.ofList) (flags text)) ∧
      flags (ofFlags (flags text)) = flags text := by
  constructor
  · exact fun fs ↦ ⟨flags_ofFlags fs, flags_ofFlags_of_nodup⟩
  · intro text
    refine ⟨⟨Text.lines text.toList, fun ls' ↦ ?_, reads_flags (Text.hasLines_lines _)⟩, ?_⟩
    · rw [Text.hasLines_iff, eq_comm]
    · exact flags_ofFlags_of_nodup (nodup_distinct _)

/-- The flags of a damaged record, without their blank lines and repetitions, are kept. -/
theorem flags_kept_as_lines_of_damaged :
    flags "a.b\r\n\nBAD\na.*:60:2\r\r\na.b\na.*:60:2" = [Sample.required, Sample.granted] ∧
      [Sample.required, Sample.granted].Nodup ∧
      flags (ofFlags [Sample.required, Sample.granted]) = [Sample.required, Sample.granted] := by
  have hnodup : [Sample.required, Sample.granted].Nodup := by decide
  exact ⟨by decide +kernel, hnodup, (flags_kept_as_lines.1 _).2 hnodup⟩

end Record

end Grants
