import Grants.Distinct
import Grants.FlagSet

/-!
# Sets of flags hold each flag once

The index of a set has the flags in its list and no others, and the list has none
of them twice.  Every operation on sets keeps to this, so an extension appends the
flags that the set does not have (`Indexed.flags_extend`) and counts them.
-/

namespace Grants.FlagSet

/-- The index of a set is that of its list, which has no repetitions. -/
structure Indexed (s : FlagSet) : Prop where
  contains_iff (f : Flag) : s.contains f = true ↔ f ∈ s.flags
  nodup : s.flags.Nodup

variable {s : FlagSet}

theorem indexed_empty : empty.Indexed where
  contains_iff f := by simp
  nodup := List.nodup_nil

theorem Indexed.insert (hs : s.Indexed) (f : Flag) : (s.insert f).2.Indexed := by
  constructor
  · intro g
    rw [contains_insert, flags_insert, Bool.or_eq_true, decide_eq_true_iff, hs.contains_iff]
    by_cases hf : s.contains f = true
    · rw [if_pos hf]
      refine or_iff_right_of_imp ?_
      rintro rfl
      exact (hs.contains_iff f).mp hf
    · rw [if_neg hf, List.mem_append, List.mem_singleton, or_comm, eq_comm]
  · rw [flags_insert]
    by_cases hf : s.contains f = true
    · rw [if_pos hf]
      exact hs.nodup
    · rw [if_neg hf, List.nodup_append]
      refine ⟨hs.nodup, by simp, ?_⟩
      rintro g hg _ hmem rfl
      rw [List.mem_singleton] at hmem
      subst hmem
      exact hf ((hs.contains_iff g).mpr hg)

theorem Indexed.extend (hs : s.Indexed) (fs : List Flag) : (s.extend fs).Indexed := by
  induction fs generalizing s with
  | nil => exact hs
  | cons f fs ih => exact ih (hs.insert f)

theorem indexed_ofList (fs : List Flag) : (ofList fs).Indexed := indexed_empty.extend fs

/-- A set is extended by the flags that it does not have, each where it first occurs. -/
theorem Indexed.flags_extend (hs : s.Indexed) (fs : List Flag) :
    (s.extend fs).flags = s.flags ++ distinctFrom s.flags fs := by
  induction fs generalizing s with
  | nil => exact (List.append_nil _).symm
  | cons f fs ih =>
    refine (ih (hs.insert f)).trans ?_
    rw [flags_insert, distinctFrom]
    simp only [hs.contains_iff]
    split
    · rfl
    · have hcongr (x : Flag) : x ∈ s.flags ++ [f] ↔ x ∈ f :: s.flags := by
        rw [List.mem_append, List.mem_singleton, List.mem_cons, or_comm]
      rw [distinctFrom_congr hcongr, List.append_assoc, List.singleton_append]

theorem flags_ofList (fs : List Flag) : (ofList fs).flags = distinct fs :=
  indexed_empty.flags_extend fs

/-- The new flags are counted. -/
theorem fst_insertAll (s : FlagSet) (fs : List Flag) :
    s.flags.length + (s.insertAll fs).1 = (s.extend fs).flags.length := by
  induction fs generalizing s with
  | nil => rfl
  | cons f fs ih =>
    change s.flags.length + (((s.insert f).2.insertAll fs).1 + (s.insert f).1.toNat) =
      ((s.insert f).2.extend fs).flags.length
    rw [← ih, fst_insert, flags_insert]
    cases s.contains f with
    | true => simp
    | false =>
      simp
      omega

end Grants.FlagSet
