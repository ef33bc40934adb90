import Grants.Bytes
import Grants.Distinct
import Grants.Flag.Parse
import Grants.Usage

/-!
# Records of the byte store

The flags of a holder are stored as lines of text.  A usage record takes 17
bytes: whether there was an invocation, its time, and the number of uses.
-/

namespace Grants.Record

def ofFlags (flags : List Flag) : String := "\n".intercalate (flags.map Flag.raw)

/-- The lines that are flags, each at its first occurrence. -/
def flags (text : String) : List Flag :=
  distinct (Flag.parseValid ((Text.lines text.toList).map String.ofList))

def usageLength : Nat := 17

def ofUsage (u : Usage) : Bytes :=
  Bytes.ofNat 1 u.lastInvoked.isSome.toNat ++
    Bytes.ofNat 8 (u.lastInvoked.getD 0).toNat ++ Bytes.ofNat 8 u.uses.toNat

def usage (bytes : Bytes) : Except Error Usage :=
  if bytes.length = usageLength then
    let last := .ofNat (Bytes.toNat ((bytes.drop 1).take 8))
    .ok ⟨if bytes.headD 0 = 0 then none else some last, .ofNat (Bytes.toNat (bytes.drop 9))⟩
  else .error (.store (.corruptUsage bytes.length))

end Grants.Record
