import Grants.Numeral

/-!
# Settings of the byte store

Where the store is, how large it may grow, and how many tables it may hold.
-/

namespace Grants

structure Settings where
  path : String := "./data/flagperm.mdb"
  mapSize : UInt64 := 1073741824
  maxTables : UInt32 := 8
  deriving DecidableEq, Repr

namespace Settings

def atPath (path : String) : Settings := { path }

/-- A size is a numeral, perhaps after a plus sign. -/
def size? (text : String) : Option UInt64 :=
  match text.toList with
  | '+' :: digits => Numeral.word? digits
  | digits => Numeral.word? digits

/-- The defaults, overridden by the values of two variables where they are set.  A size that cannot
be read is passed over. -/
def ofEnvironment (path size : Option String) : Settings :=
  let defaults : Settings := {}
  { path := path.getD defaults.path
    mapSize := (size.bind size?).getD defaults.mapSize }

end Settings

end Grants
