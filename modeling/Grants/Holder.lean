/-!
# Holders

A holder is whoever flags are granted to: a user or a role, each of two realms.
Holders are ordered by kind, in declaration order, and then by identifier.
-/

namespace Grants

inductive HolderKind
  | user
  | role
  | discordUser
  | discordRole
  deriving DecidableEq, Repr

namespace HolderKind

def name : HolderKind → String
  | user => "user"
  | role => "role"
  | discordUser => "discordUser"
  | discordRole => "discordRole"

def all : List HolderKind := [user, role, discordUser, discordRole]

def ofName? (name : String) : Option HolderKind := all.find? (·.name == name)

def rank : HolderKind → Nat
  | user => 0
  | role => 1
  | discordUser => 2
  | discordRole => 3

@[simp] theorem ofName?_name (k : HolderKind) : ofName? k.name = some k := by
  cases k <;> decide

theorem rank_inj {k l : HolderKind} (h : k.rank = l.rank) : k = l := by
  revert h
  cases k <;> cases l <;> decide

end HolderKind

structure Holder where
  kind : HolderKind
  id : String
  deriving DecidableEq, Repr

namespace Holder

def display (h : Holder) : String := h.kind.name ++ ":" ++ h.id

instance : Ord Holder := ⟨compareLex (compareOn (·.kind.rank)) (compareOn (·.id))⟩

instance : Std.TransOrd Holder :=
  inferInstanceAs (Std.TransCmp (compareLex (compareOn fun h : Holder ↦ h.kind.rank)
    (compareOn fun h : Holder ↦ h.id)))

instance : Std.LawfulEqOrd Holder where
  eq_of_compare {h g} heq := by
    have h' : (compare h.kind.rank g.kind.rank).then (compare h.id g.id) = .eq := heq
    rw [Ordering.then_eq_eq] at h'
    obtain ⟨k, i⟩ := h
    obtain ⟨l, j⟩ := g
    have hk := HolderKind.rank_inj (Std.LawfulEqOrd.eq_of_compare h'.1)
    have hi := Std.LawfulEqOrd.eq_of_compare h'.2
    simp only at hk hi
    rw [hk, hi]

end Holder

end Grants
