import Std.Data.ExtTreeSet
import Grants.Flag.Basic

/-!
# Sets of flags in order of insertion

A set keeps its flags in the order in which they came, and beside them an index
that answers whether a flag is in.  Each operation is described by what it does
to the two.
-/

namespace Grants

structure FlagSet where
  flags : List Flag
  index : Std.ExtTreeSet Flag

namespace FlagSet

def empty : FlagSet := ⟨[], ∅⟩

def contains (s : FlagSet) (f : Flag) : Bool := s.index.contains f

/-- Whether `f` is new in the set, and the set with it. -/
def insert (s : FlagSet) (f : Flag) : Bool × FlagSet :=
  if s.contains f then (false, s) else (true, ⟨s.flags ++ [f], s.index.insert f⟩)

def extend (s : FlagSet) (fs : List Flag) : FlagSet := fs.foldl (fun s f ↦ (s.insert f).2) s

def ofList (fs : List Flag) : FlagSet := empty.extend fs

/-- Stored flags, and after them additional ones. -/
def merged (stored additional : List Flag) : FlagSet := (ofList stored).extend additional

/-- How many of some flags are new in the set, and the set with all of them. -/
def insertAll (s : FlagSet) : List Flag → Nat × FlagSet
  | [] => (0, s)
  | f :: fs =>
    let (new, s) := s.insert f
    let (n, s) := s.insertAll fs
    (n + new.toNat, s)

variable (s : FlagSet)

@[simp] theorem flags_empty : empty.flags = [] := rfl

@[simp] theorem contains_empty (f : Flag) : empty.contains f = false :=
  Std.ExtTreeSet.contains_empty

@[simp] theorem fst_insert (f : Flag) : (s.insert f).1 = !s.contains f := by
  cases h : s.contains f <;> simp [insert, h]

theorem flags_insert (f : Flag) :
    (s.insert f).2.flags = if s.contains f then s.flags else s.flags ++ [f] := by
  cases h : s.contains f <;> simp [insert, h]

theorem contains_insert (f g : Flag) :
    (s.insert f).2.contains g = (decide (f = g) || s.contains g) := by
  cases h : s.contains f with
  | true =>
    by_cases hfg : f = g
    · simp [insert, h, ← hfg]
    · simp [insert, h, hfg]
  | false =>
    simp only [insert, h, Bool.false_eq_true, if_false]
    change (s.index.insert f).contains g = _
    rw [Std.ExtTreeSet.contains_insert]
    refine congrArg (· || s.contains g) ?_
    by_cases hfg : f = g <;> simp [hfg]

theorem extend_append (fs gs : List Flag) : s.extend (fs ++ gs) = (s.extend fs).extend gs :=
  List.foldl_append

/-- Stored and additional flags merge as if they had come in one list. -/
theorem merged_eq_ofList (stored additional : List Flag) :
    merged stored additional = ofList (stored ++ additional) := (extend_append ..).symm

theorem snd_insertAll (fs : List Flag) : (s.insertAll fs).2 = s.extend fs := by
  induction fs generalizing s with
  | nil => rfl
  | cons f fs ih => exact ih _

end FlagSet

end Grants
