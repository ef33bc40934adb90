import Grants.Error

/-!
# Checking arguments

Each check either accepts its argument or names what is wrong with it.
-/

namespace Grants

def Grammar.check (g : Grammar) (text : String) : Except Error Unit :=
  if g.accepts text then .ok () else .error (.grammar g text)

namespace Argument

variable {α : Type}

def nonempty (name : String) (items : List α) : Except Error Unit :=
  if items.isEmpty then .error (.check (.empty name)) else .ok ()

def atLeast (name : String) (bound n : UInt64) : Except Error Unit :=
  if n < bound then .error (.check (.below name bound)) else .ok ()

def atMost (name : String) (bound n : UInt64) : Except Error Unit :=
  if bound < n then .error (.check (.above name bound)) else .ok ()

/-- The lower bound is checked first. -/
def inRange (name : String) (lo hi n : UInt64) : Except Error Unit := do
  atLeast name lo n
  atMost name hi n

/-- `display` is used to list the options. -/
def oneOf [BEq α] (display : α → String) (name : String) (options : List α) (x : α) :
    Except Error Unit :=
  if options.contains x then .ok () else .error (.check (.notAmong name (options.map display)))

end Argument

/-- The grammar of the identifiers of holders of a kind. -/
def HolderKind.idGrammar : HolderKind → Grammar
  | user | role => .objectId
  | discordUser | discordRole => .discordId

def Holder.validate (h : Holder) : Except Error Unit := h.kind.idGrammar.check h.id

end Grants
