import Std.Data.ExtTreeMap
import Grants.Bytes
import Grants.Error

/-!
# Tables

A table is a finite map of byte strings, in the order of its keys.
-/

namespace Grants

abbrev Table := Std.ExtTreeMap Bytes Bytes

namespace Table

def maxKey : Nat := 511

/-- Keys are neither empty nor oversized. -/
def put (t : Table) (key value : Bytes) : Except Error Table :=
  if 0 < key.length ∧ key.length ≤ maxKey then .ok (t.insert key value)
  else .error (.store .badKeySize)

/-- The table without a record, and whether there was one. -/
def remove (t : Table) (key : Bytes) : Bool × Table := (t.contains key, t.erase key)

end Table

end Grants
