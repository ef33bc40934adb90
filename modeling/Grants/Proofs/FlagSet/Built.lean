import Grants.ByteStore
import Grants.PlainStore
import Grants.Proofs.Check.Findings
import Grants.Proofs.Distinct
import Grants.Proofs.FlagSet
import Grants.Proofs.Sample

/-!
# Sets of flags keep first occurrences

However a set of flags is built, it is the one that collects all flags that have
been offered, in order (`Built.eq_ofList`): its list has their first occurrences,
and its index is in step with the list (`keeps_ofList`).  These are the
occurrences that `distinct` finds, so repetitions are dropped alike where flags
are read, stored and checked.
-/

namespace Grants

namespace FlagSet

/-- The ways in which sets are built, with all flags that have been offered to a set, in order. -/
inductive Built : List Flag → FlagSet → Prop
  | empty : Built [] empty
  | insert {fs : List Flag} {s : FlagSet} (hs : Built fs s) (f : Flag) :
    Built (fs ++ [f]) (s.insert f).2
  | extend {fs : List Flag} {s : FlagSet} (hs : Built fs s) (gs : List Flag) :
    Built (fs ++ gs) (s.extend gs)
  | insertAll {fs : List Flag} {s : FlagSet} (hs : Built fs s) (gs : List Flag) :
    Built (fs ++ gs) (s.insertAll gs).2
  | collect (fs : List Flag) : Built fs (ofList fs)
  | merge (stored additional : List Flag) : Built (stored ++ additional) (merged stored additional)

theorem Built.eq_ofList {offered : List Flag} {s : FlagSet} (hs : Built offered s) :
    s = ofList offered := by
  -- Each way of adding flags merges them with those that have been collected.
  induction hs with
  | empty => rfl
  | insert _ f ih =>
    rw [ih]
    exact merged_eq_ofList _ [f]
  | extend _ gs ih =>
    rw [ih]
    exact merged_eq_ofList _ gs
  | insertAll _ gs ih =>
    rw [ih, snd_insertAll]
    exact merged_eq_ofList _ gs
  | collect fs => rfl
  | merge stored additional => exact merged_eq_ofList stored additional

/-- What a set has of the flags that it has been offered. -/
structure Keeps (s : FlagSet) (offered : List Flag) : Prop extends s.Indexed where
  flags_eq : s.flags = distinct offered
  mem_index_iff (f : Flag) : f ∈ s.index ↔ f ∈ s.flags
  insert_iff (f : Flag) : (s.insert f).1 = true ↔ s.contains f = false

theorem keeps_ofList (fs : List Flag) : Keeps (ofList fs) fs where
  toIndexed := indexed_ofList fs
  flags_eq := flags_ofList fs
  mem_index_iff f := by
    rw [← Std.ExtTreeSet.contains_iff_mem]
    exact (indexed_ofList fs).contains_iff f
  insert_iff f := by rw [fst_insert, Bool.not_eq_true']

theorem flags_merged (stored additional : List Flag) :
    (merged stored additional).flags = distinct (stored ++ additional) := by
  rw [merged_eq_ofList, flags_ofList]

theorem flags_insertAll_ofList (stored fs : List Flag) :
    ((ofList stored).insertAll fs).2.flags = distinct (stored ++ fs) := by
  rw [snd_insertAll]
  exact flags_merged stored fs

end FlagSet

/-! ## Where repetitions are dropped -/

theorem Flag.parseList_eq_map (ignoreInvalid : Bool) (raws : List String) :
    parseList ignoreInvalid true raws =
      (parseList ignoreInvalid false raws).map fun fs ↦ (FlagSet.ofList fs).flags := by
  have hflags : (fun fs ↦ (FlagSet.ofList fs).flags) = distinct := funext FlagSet.flags_ofList
  rw [hflags]
  cases ignoreInvalid with
  | true => rfl
  | false =>
    unfold parseList
    cases parseAll raws <;> rfl

theorem PlainStore.setPermissions_eq (s : PlainStore) (h : Holder) (fs : List Flag) :
    s.setPermissions h fs = s.putPermissions h (distinct fs) := by
  rw [setPermissions, FlagSet.flags_ofList]

theorem PlainStore.snd_grant (s : PlainStore) (h : Holder) (fs : List Flag) :
    (s.grant h fs).2 = s.putPermissions h (distinct (s.holders[h]?.getD [] ++ fs)) := by
  rw [← FlagSet.flags_insertAll_ofList]
  rfl

theorem ByteStore.setPermissions_eq (s : ByteStore) (h : Holder) (fs : List Flag) :
    s.setPermissions h fs = s.putPermissions h (distinct fs) := by
  rw [setPermissions, FlagSet.flags_ofList]

theorem ByteStore.map_snd_grant (s : ByteStore) (h : Holder) (fs : List Flag) :
    (s.grant h fs).map Prod.snd = (s.permissions? h).bind fun stored ↦
      s.putPermissions h (distinct (stored.getD [] ++ fs)) := by
  unfold grant
  cases s.permissions? h with
  | error e => rfl
  | ok stored =>
    simp only [bind, Except.bind, FlagSet.flags_insertAll_ofList]
    cases s.putPermissions h (distinct (stored.getD [] ++ fs)) <;> rfl

theorem Check.exists_granted_iff {σ : Type} [Store σ] (s : σ) (r : Request) (fs : List Flag) :
    (∃ set, granted s r = .ok set ∧ set.flags = fs) ↔
      r.required ≠ [] ∧ r.holder.validate = .ok () ∧
        ∃ stored, Store.permissions s r.holder = .ok stored ∧
          fs = distinct (stored ++ r.additional) := by
  constructor
  · rintro ⟨set, hset, rfl⟩
    obtain ⟨hr, hv, stored, hp, rfl⟩ := granted_eq_ok_iff.mp hset
    exact ⟨hr, hv, stored, hp, FlagSet.flags_merged ..⟩
  · rintro ⟨hr, hv, stored, hp, rfl⟩
    exact ⟨_, granted_eq_ok_iff.mpr ⟨hr, hv, stored, hp, rfl⟩, FlagSet.flags_merged ..⟩

namespace FlagSet

/-- A set has the first occurrences of the flags that it has been offered, in its list as in its
index, however it was built.  They are what `distinct` finds in any list, and nothing else is.  So
flags are read as a set would keep them, and stored and checked as `distinct` would leave them. -/
theorem first_occurrences_kept :
    (∀ (offered : List Flag) (s : FlagSet), Built offered s → Keeps s offered) ∧
    (∀ {α : Type} [DecidableEq α] (xs : List α),
      (∀ ys, FirstOccurrences xs ys ↔ ys = distinct xs) ∧
        distinct (distinct xs) = distinct xs) ∧
    (∀ (ignoreInvalid : Bool) (raws : List String),
      Flag.parseList ignoreInvalid true raws =
        (Flag.parseList ignoreInvalid false raws).map fun fs ↦ (ofList fs).flags) ∧
    (∀ text : String, Record.flags text =
      (ofList (Flag.parseValid ((Text.lines text.toList).map String.ofList))).flags) ∧
    (∀ (s : PlainStore) (h : Holder) (fs : List Flag),
      s.setPermissions h fs = s.putPermissions h (distinct fs) ∧
        (s.grant h fs).2 = s.putPermissions h (distinct (s.holders[h]?.getD [] ++ fs))) ∧
    (∀ (s : ByteStore) (h : Holder) (fs : List Flag),
      s.setPermissions h fs = s.putPermissions h (distinct fs) ∧
        (s.grant h fs).map Prod.snd = (s.permissions? h).bind fun stored ↦
          s.putPermissions h (distinct (stored.getD [] ++ fs))) ∧
    ∀ {σ : Type} [Store σ] (s : σ) (r : Request) (fs : List Flag),
      (∃ set, Check.granted s r = .ok set ∧ set.flags = fs) ↔
        r.required ≠ [] ∧ r.holder.validate = .ok () ∧
          ∃ stored, Store.permissions s r.holder = .ok stored ∧
            fs = distinct (stored ++ r.additional) := by
  refine ⟨?sets, ?lists, Flag.parseList_eq_map, fun _ ↦ (flags_ofList _).symm, ?plain, ?bytes,
    Check.exists_granted_iff⟩
  case sets =>
    intro offered s hs
    rw [hs.eq_ofList]
    exact keeps_ofList offered
  case lists => exact fun xs ↦ ⟨fun _ ↦ firstOccurrences_iff, distinct_distinct xs⟩
  case plain => exact fun s h fs ↦ ⟨s.setPermissions_eq h fs, s.snd_grant h fs⟩
  case bytes => exact fun s h fs ↦ ⟨s.setPermissions_eq h fs, s.map_snd_grant h fs⟩

/-- A set that has been offered some flags again. -/
theorem first_occurrences_kept_of_repetitions :
    let s := (((ofList [Sample.required, Sample.granted, Sample.required]).insert
      Sample.limited).2).extend [Sample.granted, Sample.limited]
    let offered := [Sample.required, Sample.granted, Sample.required, Sample.limited,
      Sample.granted, Sample.limited]
    Built offered s ∧ Keeps s offered ∧
      s.flags = [Sample.required, Sample.granted, Sample.limited] ∧
      (s.insert Sample.limited).1 = false := by
  intro s offered
  have hbuilt : Built offered s :=
    ((Built.collect [Sample.required, Sample.granted, Sample.required]).insert _).extend _
  have hkeeps := first_occurrences_kept.1 offered s hbuilt
  have hflags : s.flags = [Sample.required, Sample.granted, Sample.limited] := by
    rw [hkeeps.flags_eq]
    decide
  have hin : s.contains Sample.limited = true := by
    rw [hkeeps.contains_iff, hflags]
    simp
  exact ⟨hbuilt, hkeeps, hflags, by rw [fst_insert, hin]; rfl⟩

end FlagSet

end Grants
