import Grants.Json.Basic

/-!
# JSON tokens

A text is cut into tokens by a machine that reads one character at a time.
-/

namespace Grants.Json

inductive Token
  | openObject
  | closeObject
  | openArray
  | closeArray
  | colon
  | comma
  /-- A token that is a value by itself. -/
  | value (v : Json)
  deriving Repr

/-- A character of a string literal: itself, or the code unit of a numeric escape. -/
inductive Piece
  | char (c : Char)
  | unit (n : Nat)
  deriving DecidableEq, Repr

namespace Piece

def isHigh (n : Nat) : Bool := decide (0xD800 ≤ n ∧ n < 0xDC00)

def isLow (n : Nat) : Bool := decide (0xDC00 ≤ n ∧ n < 0xE000)

/-- The code point of a pair of surrogates. -/
def ofPair (high low : Nat) : Char := .ofNat (0x10000 + (high - 0xD800) * 0x400 + (low - 0xDC00))

/-- The text of a string literal: escaped surrogates must come in pairs. -/
def text? : List Piece → Option (List Char)
  | [] => some []
  | .char c :: ps => (text? ps).map (c :: ·)
  | .unit n :: ps =>
    if isHigh n then
      match ps with
      | .unit m :: ps => if isLow m then (text? ps).map (ofPair n m :: ·) else none
      | _ => none
    else if isLow n then none
    else (text? ps).map (.ofNat n :: ·)

end Piece

namespace Token

/-- What the machine is in the middle of; what it has read is kept in reverse. -/
inductive Mode
  | between
  | word (read : List Char)
  | number (read : List Char)
  | string (read : List Piece)
  | escape (read : List Piece)
  /-- A numeric escape that lacks `missing` digits. -/
  | hex (read : List Piece) (missing code : Nat)
  deriving DecidableEq, Repr

def ofWord? : List Char → Option Token
  | ['n', 'u', 'l', 'l'] => some (.value .null)
  | ['t', 'r', 'u', 'e'] => some (.value (.bool true))
  | ['f', 'a', 'l', 's', 'e'] => some (.value (.bool false))
  | _ => none

/-- Digits without superfluous leading zeros. -/
def isWhole (cs : List Char) : Bool :=
  Numeral.isNumeral cs && (cs.head? != some '0' || cs.length == 1)

def exponent? : List Char → Option (Option (Bool × List Char))
  | [] => some none
  | e :: cs =>
    let (negative, digits) := match cs with
      | '-' :: digits => (true, digits)
      | '+' :: digits => (false, digits)
      | digits => (false, digits)
    if (e == 'e' || e == 'E') && Numeral.isNumeral digits then some (some (negative, digits))
    else none

def number? (cs : List Char) : Option Number :=
  let (negative, cs) := match cs with
    | '-' :: cs => (true, cs)
    | cs => (false, cs)
  let whole := cs.takeWhile Char.isDigit
  if !isWhole whole then none
  else match cs.dropWhile Char.isDigit with
    | '.' :: cs =>
      let fraction := cs.takeWhile Char.isDigit
      if fraction.isEmpty then none
      else (exponent? (cs.dropWhile Char.isDigit)).map (⟨negative, whole, fraction, ·⟩)
    | cs => (exponent? cs).map (⟨negative, whole, [], ·⟩)

def ofString (read : List Piece) : Token :=
  match Piece.text? read.reverse with
  | some cs => .value (.str (.ofList cs))
  | none => .value .garbled

def isSpace (c : Char) : Bool := c == ' ' || c == '\n' || c == '\r' || c == '\t'

/-- Between tokens, a character is blank, a token of its own, or the start of a longer one. -/
def start (c : Char) : Option (List Token × Mode) :=
  if isSpace c then some ([], .between)
  else if c.isLower then some ([], .word [c])
  else if c.isDigit || c == '-' then some ([], .number [c])
  else match c with
    | '"' => some ([], .string [])
    | '{' => some ([.openObject], .between)
    | '}' => some ([.closeObject], .between)
    | '[' => some ([.openArray], .between)
    | ']' => some ([.closeArray], .between)
    | ':' => some ([.colon], .between)
    | ',' => some ([.comma], .between)
    | _ => none

/-- A finished token, and the machine started on the character after it. -/
def startAfter (t : Option Token) (c : Char) : Option (List Token × Mode) := do
  let t ← t
  let (ts, mode) ← start c
  return (t :: ts, mode)

def isNumberChar (c : Char) : Bool :=
  c.isDigit || c == '.' || c == 'e' || c == 'E' || c == '+' || c == '-'

def finishWord (read : List Char) : Option Token := ofWord? read.reverse

def finishNumber (read : List Char) : Option Token :=
  (number? read.reverse).map fun n ↦ .value (.num n)

/-- The character that a one-letter escape stands for. -/
def escaped? : Char → Option Char
  | '"' => some '"'
  | '\\' => some '\\'
  | '/' => some '/'
  | 'b' => some '\x08'
  | 'f' => some '\x0c'
  | 'n' => some '\n'
  | 'r' => some '\r'
  | 't' => some '\t'
  | _ => none

def hexDigit? (c : Char) : Option Nat :=
  if c.isDigit then some (c.toNat - '0'.toNat)
  else if 'a' ≤ c ∧ c ≤ 'f' then some (c.toNat - 'a'.toNat + 10)
  else if 'A' ≤ c ∧ c ≤ 'F' then some (c.toNat - 'A'.toNat + 10)
  else none

/-- One character: the tokens that it completes, and the mode after it. -/
def step (c : Char) : Mode → Option (List Token × Mode)
  | .between => start c
  | .word read => if c.isLower then some ([], .word (c :: read)) else startAfter (finishWord read) c
  | .number read =>
    if isNumberChar c then some ([], .number (c :: read)) else startAfter (finishNumber read) c
  | .string read =>
    if c == '"' then some ([ofString read], .between)
    else if c == '\\' then some ([], .escape read)
    else if c.toNat < 0x20 then none
    else some ([], .string (.char c :: read))
  | .escape read =>
    if c == 'u' then some ([], .hex read 4 0)
    else (escaped? c).map fun d ↦ ([], .string (.char d :: read))
  | .hex read missing code => do
    let code := 16 * code + (← hexDigit? c)
    if missing ≤ 1 then some ([], .string (.unit code :: read))
    else some ([], .hex read (missing - 1) code)

/-- The token that the end of the text completes. -/
def finish : Mode → Option (List Token)
  | .between => some []
  | .word read => (finishWord read).map ([·])
  | .number read => (finishNumber read).map ([·])
  | _ => none

def lexFrom : Mode → List Char → Option (List Token)
  | mode, [] => finish mode
  | mode, c :: cs => do
    let (ts, mode) ← step c mode
    let rest ← lexFrom mode cs
    return ts ++ rest

/-- The tokens of a text. -/
def lex (cs : List Char) : Option (List Token) := lexFrom .between cs

end Token

end Grants.Json
