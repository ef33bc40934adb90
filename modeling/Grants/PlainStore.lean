import Std.Data.ExtTreeMap
import Grants.FlagSet
import Grants.Store

/-!
# The plain store

Flags and usage records in two maps.
-/

namespace Grants

structure PlainStore where
  holders : Std.ExtTreeMap Holder (List Flag)
  usages : Std.ExtTreeMap (Holder × String) Usage lexOrd.compare

namespace PlainStore

variable (s : PlainStore) (h : Holder)

def empty : PlainStore := ⟨∅, ∅⟩

def permissions : Except Error (List Flag) :=
  match s.holders[h]? with
  | some flags => .ok flags
  | none => .error (.notFound h)

def putPermissions (flags : List Flag) : PlainStore :=
  { s with holders := s.holders.insert h flags }

def setPermissions (flags : List Flag) : PlainStore :=
  s.putPermissions h (FlagSet.ofList flags).flags

def grant (flags : List Flag) : Nat × PlainStore :=
  let (added, set) := (FlagSet.ofList (s.holders[h]?.getD [])).insertAll flags
  (added, s.putPermissions h set.flags)

def revoke (flags : List Flag) : Nat × PlainStore :=
  match s.holders[h]? with
  | none => (0, s)
  | some current =>
    let kept := current.removeAll flags
    (current.length - kept.length, s.putPermissions h kept)

def removeHolder : Bool × PlainStore :=
  (s.holders.contains h, { s with holders := s.holders.erase h })

variable (key : String)

def usage : Usage := s.usages[(h, key)]?.getD {}

def setUsage (u : Usage) : PlainStore := { s with usages := s.usages.insert (h, key) u }

def resetUsage : Bool × PlainStore :=
  (s.usages.contains (h, key), { s with usages := s.usages.erase (h, key) })

def update {α : Type} (decide : Usage → Change α) : α × PlainStore :=
  let change := decide (s.usage h key)
  (change.answer, if change.keep then s.setUsage h key change.usage else s)

end PlainStore

instance : Store PlainStore where
  empty := .empty
  permissions s h := s.permissions h
  setPermissions s h flags := .ok (s.setPermissions h flags)
  grant s h flags := .ok (s.grant h flags)
  revoke s h flags := .ok (s.revoke h flags)
  removeHolder s h := .ok (s.removeHolder h)
  usage s h key := .ok (s.usage h key)
  setUsage s h key u := .ok (s.setUsage h key u)
  resetUsage s h key := .ok (s.resetUsage h key)
  update s h key decide := .ok (s.update h key decide)

end Grants
