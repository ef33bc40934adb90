import Grants.Distinct
import Grants.Error

/-!
# Reading flags

Reading fails with the grammar and the whole text that does not fit it.
-/

namespace Grants

def Flag.parse (raw : String) : Except Error Flag :=
  match Flag.ofString? raw with
  | some f => .ok f
  | none => .error (.grammar .flag raw)

def StrictFlag.parse (raw : String) : Except Error StrictFlag :=
  match StrictFlag.ofString? raw with
  | some k => .ok k
  | none => .error (.grammar .strictFlag raw)

namespace Flag

def isValid (raw : String) : Bool := (ofString? raw).isSome

/-- The flags among some texts, in order. -/
def parseValid (raws : List String) : List Flag := raws.filterMap ofString?

/-- All texts as flags, or the error of the first that is none. -/
def parseAll (raws : List String) : Except Error (List Flag) := raws.mapM parse

def parseList (ignoreInvalid removeDuplicates : Bool) (raws : List String) :
    Except Error (List Flag) := do
  let flags ← if ignoreInvalid then .ok (parseValid raws) else parseAll raws
  return if removeDuplicates then distinct flags else flags

end Flag

end Grants
