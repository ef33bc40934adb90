import Grants.Json.Token

/-!
# Reading JSON

Values are put together from tokens by a machine with a stack of the arrays and
objects that are still open.
-/

namespace Grants.Json

namespace Parser

/-- The members of an object, whose names may denote no text. -/
abbrev Members := List (Option String × Json)

/-- An open container, with its finished parts in reverse. -/
inductive Frame
  | arr (items : List Json)
  | obj (members : Members) (name : Option String)
  deriving Repr

/-- What comes next. -/
inductive Phase
  | value
  /-- The name of a member, after some members of an object. -/
  | name (members : Members)
  | colon (members : Members) (name : Option String)
  /-- What follows a complete value. -/
  | done (v : Json)
  deriving Repr

structure State where
  stack : List Frame
  phase : Phase

/-- The first token of a value, or the end of an array without items. -/
def begin : List Frame → Token → Option State
  | stack, .value v => some ⟨stack, .done v⟩
  | stack, .openArray => some ⟨.arr [] :: stack, .value⟩
  | stack, .openObject => some ⟨stack, .name []⟩
  | .arr [] :: stack, .closeArray => some ⟨stack, .done (.arr [])⟩
  | _, _ => none

/-- A member with its name, if that is a text. -/
def named? (m : Option String × Json) : Option (String × Json) := m.1.map (·, m.2)

/-- The object of some members, which is garbled unless all their names are texts. -/
def object (members : Members) : Json := ((members.mapM named?).map .obj).getD .garbled

/-- The token after a complete value. -/
def after (v : Json) : List Frame → Token → Option State
  | .arr items :: stack, .comma => some ⟨.arr (v :: items) :: stack, .value⟩
  | .arr items :: stack, .closeArray => some ⟨stack, .done (.arr (v :: items).reverse)⟩
  | .obj members name :: stack, .comma => some ⟨stack, .name ((name, v) :: members)⟩
  | .obj members name :: stack, .closeObject =>
    some ⟨stack, .done (object ((name, v) :: members).reverse)⟩
  | _, _ => none

def step (s : State) (t : Token) : Option State :=
  match s.phase, t with
  | .value, t => begin s.stack t
  | .name [], .closeObject => some ⟨s.stack, .done (.obj [])⟩
  | .name members, .value (.str name) => some ⟨s.stack, .colon members (some name)⟩
  | .name members, .value .garbled => some ⟨s.stack, .colon members none⟩
  | .colon members name, .colon => some ⟨.obj members name :: s.stack, .value⟩
  | .done v, t => after v s.stack t
  | _, _ => none

def finish : State → Option Json
  | ⟨[], .done v⟩ => some v
  | _ => none

def run (ts : List Token) : Option Json := do
  finish (← ts.foldlM step ⟨[], .value⟩)

end Parser

/-- The value that a text denotes. -/
def parse? (text : String) : Option Json := do
  Parser.run (← Token.lex text.toList)

end Grants.Json
