import Grants.ByteStore.Record
import Grants.Proofs.Flag.Text

/-!
# Records are read back

Flags come back from their record each once, in the order of their first
occurrences (`flags_ofFlags`), and a usage record comes back as it was
(`usage_ofUsage`).  A record that has the length of a usage record is one.
-/

namespace Grants

namespace Text

theorem dropReturn_of_notMem {line : List Char} (h : '\r' ∉ line) : dropReturn line = line :=
  if_neg fun hlast ↦ h (List.mem_of_getLast? hlast)

/-- Lines joined by line breaks are read back, if none is empty or has a line break of its own. -/
theorem lines_intercalate {ls : List (List Char)} (hn : ∀ l ∈ ls, '\n' ∉ l)
    (hr : ∀ l ∈ ls, '\r' ∉ l) (hne : ∀ l ∈ ls, l ≠ []) : lines (['\n'].intercalate ls) = ls := by
  by_cases h : ls = []
  · subst h
    rfl
  have hlast : ls.getLastD [] ≠ [] := by
    rw [List.getLastD_eq_getLast?, List.getLast?_eq_some_getLast h]
    exact hne _ (List.getLast_mem h)
  have hinit : ls.dropLast.map dropReturn = ls.dropLast := by
    refine (List.map_congr_left fun l hl ↦ ?_).trans (List.map_id _)
    exact dropReturn_of_notMem (hr l ((List.dropLast_sublist ls).subset hl))
  rw [lines, fields_intercalate h hn]
  simp only [hinit, if_neg hlast]
  rw [List.getLastD_eq_getLast?, List.getLast?_eq_some_getLast h]
  exact List.dropLast_concat_getLast h

end Text

namespace Record

theorem toList_ofFlags (flags : List Flag) :
    (ofFlags flags).toList = ['\n'].intercalate (flags.map fun f ↦ f.raw.toList) := by
  rw [ofFlags, String.toList_intercalate, List.map_map]
  rfl

theorem flags_ofFlags (fs : List Flag) : flags (ofFlags fs) = distinct fs := by
  have hlines : Text.lines (ofFlags fs).toList = fs.map fun f ↦ f.raw.toList := by
    rw [toList_ofFlags]
    refine Text.lines_intercalate ?_ ?_ ?_ <;> intro l hl <;>
      obtain ⟨f, -, rfl⟩ := List.mem_map.mp hl
    · exact f.notMem_raw (by decide)
    · exact f.notMem_raw (by decide)
    · exact f.raw_ne_nil
  rw [flags, hlines, List.map_map, Flag.parseValid, List.filterMap_map]
  refine congrArg distinct ?_
  rw [← List.filterMap_some (l := fs)]
  simp [Function.comp_def]

theorem length_ofUsage (u : Usage) : (ofUsage u).length = usageLength := by
  simp [ofUsage, usageLength]

theorem usage_eq_ok {bytes : Bytes} (h : bytes.length = usageLength) : ∃ u, usage bytes = .ok u :=
  ⟨_, if_pos h⟩

theorem usage_eq_error_iff {bytes : Bytes} {e : Error} :
    usage bytes = .error e ↔
      bytes.length ≠ usageLength ∧ e = .store (.corruptUsage bytes.length) := by
  unfold usage
  split
  · next h => simp [h]
  · next h => simp [h, eq_comm]

theorem ofNat_toNat_word (w : UInt64) : UInt64.ofNat (Bytes.toNat (Bytes.ofNat 8 w.toNat)) = w := by
  rw [Bytes.toNat_ofNat_of_lt w.toNat_lt, UInt64.ofNat_toNat]

theorem ofUsage_eq_cons (u : Usage) :
    ofUsage u = (if u.lastInvoked.isSome then 1 else 0) ::
      (Bytes.ofNat 8 (u.lastInvoked.getD 0).toNat ++ Bytes.ofNat 8 u.uses.toNat) := by
  have hpresent : Bytes.ofNat 1 1 = [1] := by decide
  have habsent : Bytes.ofNat 1 0 = [0] := by decide
  cases h : u.lastInvoked <;> simp [ofUsage, h, hpresent, habsent]

/-- What the three parts of a record say. -/
theorem usage_cons_append (first : UInt8) {last uses : Bytes} (hl : last.length = 8)
    (hu : uses.length = 8) :
    usage (first :: (last ++ uses)) =
      .ok ⟨if first = 0 then none else some (.ofNat (Bytes.toNat last)),
        .ofNat (Bytes.toNat uses)⟩ := by
  have hlen : (first :: (last ++ uses)).length = usageLength := by simp [hl, hu, usageLength]
  have hlast : ((first :: (last ++ uses)).drop 1).take 8 = last := List.take_left' hl
  have huses : (first :: (last ++ uses)).drop 9 = uses := List.drop_left' hl
  rw [usage, if_pos hlen, hlast, huses, List.headD_cons]

theorem usage_ofUsage (u : Usage) : usage (ofUsage u) = .ok u := by
  rw [ofUsage_eq_cons, usage_cons_append _ (Bytes.length_ofNat ..) (Bytes.length_ofNat ..)]
  simp only [ofNat_toNat_word]
  obtain ⟨last, uses⟩ := u
  cases last <;> rfl

end Record

end Grants
