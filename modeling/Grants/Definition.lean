import Grants.Flag.Basic

/-!
# Permission definitions

A named permission, registered under a strict flag.
-/

namespace Grants

structure Definition where
  key : StrictFlag
  name : String
  description : String := ""
  deriving DecidableEq

/-- The key as a required flag. -/
def Definition.flag (d : Definition) : Flag := d.key.toFlag

end Grants
