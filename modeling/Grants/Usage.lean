/-!
# Usage records

What is remembered about a holder's use of one granted flag.
-/

namespace Grants

structure Usage where
  /-- Milliseconds since the epoch of the last permitted invocation. -/
  lastInvoked : Option UInt64 := none
  uses : UInt64 := 0
  deriving DecidableEq, Repr

/-- What a decision on a usage record comes to: an answer, the record it would leave, and whether
that record is to be kept. -/
structure Change (α : Type) where
  answer : α
  usage : Usage
  keep : Bool
  deriving DecidableEq, Repr

end Grants
