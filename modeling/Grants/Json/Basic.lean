import Grants.Json.Number

/-!
# JSON values

Objects keep all their members in order, repeated names included, and numbers
keep the digits they were written with.
-/

namespace Grants

inductive Json
  | null
  | bool (b : Bool)
  | num (n : Json.Number)
  | str (s : String)
  /-- A string literal whose escapes leave a surrogate on its own, so that it denotes no text, or
  an object in which a name is such a literal. -/
  | garbled
  | arr (items : List Json)
  | obj (members : List (String × Json))
  deriving Repr

namespace Json

def ofWord (w : UInt64) : Json := .num (.ofNat w.toNat)

/-- The value of the last member of a name. -/
def get? (name : String) : Json → Option Json
  | .obj members => members.reverse.lookup name
  | _ => none

mutual
/-- May a reader keep the value without knowing its type?  Its strings must denote texts, its
numbers be in the range of doubles, and its nesting stay within `depth`. -/
def isSound (depth : Nat) : Json → Bool
  | .null | .bool _ | .str _ => true
  | .num n => n.isFinite
  | .garbled => false
  | .arr items => decide (0 < depth) && areSound (depth - 1) items
  | .obj members => decide (0 < depth) && membersSound (depth - 1) members

def areSound (depth : Nat) : List Json → Bool
  | [] => true
  | v :: vs => isSound depth v && areSound depth vs

def membersSound (depth : Nat) : List (String × Json) → Bool
  | [] => true
  | (_, v) :: ms => isSound depth v && membersSound depth ms
end

mutual
/-- The value in which every object has only the last member of each name. -/
def lastWins : Json → Json
  | .arr items => .arr (lastWinsItems items)
  | .obj members => .obj (lastWinsMembers members)
  | v => v

def lastWinsItems : List Json → List Json
  | [] => []
  | v :: vs => v.lastWins :: lastWinsItems vs

def lastWinsMembers : List (String × Json) → List (String × Json)
  | [] => []
  | (k, v) :: ms =>
    if ms.any (·.1 == k) then lastWinsMembers ms else (k, v.lastWins) :: lastWinsMembers ms
end

end Json

end Grants
