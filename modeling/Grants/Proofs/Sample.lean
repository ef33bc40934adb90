import Grants.Command

/-!
# A sample request

A holder, a flag with a cooldown and a limit, and commands about the two, at
which general theorems are instantiated.
-/

namespace Grants.Sample

def holder : Holder := ⟨.user, "0123456789abcdef01234567"⟩

/-- Everything under a prefix, twice, and a minute apart. -/
def granted : Flag := ⟨⟨["a", "*"], 60, 2⟩, "a.*:60:2", by decide⟩

def required : Flag := ⟨⟨["a", "b"], 0, 0⟩, "a.b", by decide⟩

/-- A flag of its own, five times. -/
def limited : Flag := ⟨⟨["b"], 0, 5⟩, "b:0:5", by decide⟩

def policy : Policy := ⟨true, true, true, true⟩

/-- Both required flags are answered by the granted one. -/
def request : Request where
  holder := holder
  required := [required, granted]
  additional := [granted]
  policy := policy

/-- Each required flag is answered by a granted one of its own. -/
def requestTwo : Request where
  holder := holder
  required := [required, limited]
  additional := [granted, limited]
  policy := policy

/-- A first use, one too early, a second one, and one too many. -/
def commands : List Command :=
  [.setPermissions holder [], .check request 0, .check request 5,
    .evaluate holder granted policy 60000, .check request 120000]

end Grants.Sample
