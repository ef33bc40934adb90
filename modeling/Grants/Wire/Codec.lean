import Grants.Definition
import Grants.Error
import Grants.Json.Parser
import Grants.Json.Printer
import Grants.Request
import Grants.Settings
import Grants.Wire.Slot

/-!
# Wire forms

How holders, policies, usage records, requests, findings and definitions are
written as JSON values, and read back.
-/

namespace Grants

/-- A way of writing and reading the values of a type. -/
structure Codec (α : Type) where
  write : α → Json
  read? : Json → Option α

namespace Codec

variable {α : Type}

def toText (c : Codec α) (a : α) : String := (c.write a).toText

def ofText? (c : Codec α) (text : String) : Option α := (Json.parse? text).bind c.read?

open Wire

def list (c : Codec α) : Codec (List α) where
  write as := .arr (as.map c.write)
  read? := list? c.read?

def flag : Codec Flag where
  write f := .str f.raw
  read? := flag?

def strictFlag : Codec StrictFlag where
  write k := .str k.raw
  read? := strictFlag?

/-- The name of a kind, which may also be the only member of an object, with the value null. -/
def holderKind : Codec HolderKind where
  write k := .str k.name
  read?
    | .str name => HolderKind.ofName? name
    | .obj [(name, .null)] => HolderKind.ofName? name
    | _ => none

/-- A holder with the given names of its fields. -/
def holderAs (kindField idField : String) : Codec Holder where
  write h := .obj [(kindField, holderKind.write h.kind), (idField, .str h.id)]
  read? v := do
    match ← Slot.ofRecord? [kindField, idField] v with
    | [kind, id] => return ⟨← kind.required holderKind.read?, ← id.required text?⟩
    | _ => none

/-- A holder by itself.  In an array, its kind has no other form than the name. -/
def holder : Codec Holder where
  write := (holderAs "type" "id").write
  read?
    | .arr (.obj _ :: _) => none
    | v => (holderAs "type" "id").read? v

/-- A holder as the key of its records. -/
def holderKey : Codec Holder := holderAs "holder_type" "id"

/-- The members of a policy, alone or in a request. -/
def switches (p : Policy) : List (String × Json) :=
  [("respectCooldown", .bool p.respectCooldown), ("invokeCooldown", .bool p.invokeCooldown),
   ("respectLimit", .bool p.respectLimit), ("invokeLimit", .bool p.invokeLimit)]

def policy : Codec Policy where
  write p := .obj (switches p)
  read? v := do
    match ← Slot.ofRecord? ["respectCooldown", "invokeCooldown", "respectLimit", "invokeLimit"] v with
    | [a, b, c, d] =>
      let switch := Slot.withDefault false bool?
      return ⟨← switch a, ← switch b, ← switch c, ← switch d⟩
    | _ => none

def nullable (write : α → Json) : Option α → Json
  | none => .null
  | some a => write a

def usage : Codec Usage where
  write u := .obj
    [("last_invoked_at", nullable .ofWord u.lastInvoked), ("uses_consumed", .ofWord u.uses)]
  read? v := do
    match ← Slot.ofRecord? ["last_invoked_at", "uses_consumed"] v with
    | [last, uses] => return ⟨← last.optional (nullable? word?), ← uses.required word?⟩
    | _ => none

/-- How deep the members of a request that it has no use for may be nested. -/
def spareDepth : Nat := 126

/-- A request is an object, which has the fields of its policy among its own.  The members that it
has no use for must be sound all the same. -/
def request : Codec Request where
  write r := .obj <|
    ("holder", holder.write r.holder) :: ("required", flag.list.write r.required) ::
      ("additional", flag.list.write r.additional) :: switches r.policy
  read?
    | .obj members => do
      let fields := ["holder", "required", "additional"]
      let spare := members.filter fun m ↦ !fields.contains m.1
      if !Json.membersSound spareDepth spare then none
      else match ← Slot.ofRecord? fields (.obj members) with
        | [holder, required, additional] => return {
            holder := ← holder.required Codec.holder.read?
            required := ← required.required flag.list.read?
            additional := ← additional.withDefault [] flag.list.read?
            policy := ← policy.read? (.obj spare) }
        | _ => none
    | _ => none

/-- A member for a value that is present. -/
def present (name : String) (write : α → Json) : Option α → List (String × Json)
  | none => []
  | some a => [(name, write a)]

def finding : Codec Finding where
  write f := .obj <|
    [("flag", flag.write f.flag), ("passed", .bool f.passed)] ++
      present "onCooldown" .bool f.onCooldown ++
      present "cooldownExpires" .ofWord f.cooldownExpires ++
      present "matched" flag.write f.matched ++
      [("limitExhausted", .bool f.limitExhausted)]
  read? v := do
    match ← Slot.ofRecord?
        ["flag", "passed", "onCooldown", "cooldownExpires", "matched", "limitExhausted"] v with
    | [flag, passed, onCooldown, cooldownExpires, matched, limitExhausted] => return {
        flag := ← flag.required flag?
        passed := ← passed.required bool?
        onCooldown := ← onCooldown.withDefault none (nullable? bool?)
        cooldownExpires := ← cooldownExpires.withDefault none (nullable? word?)
        matched := ← matched.withDefault none (nullable? flag?)
        limitExhausted := ← limitExhausted.withDefault false bool? }
    | _ => none

def definition : Codec Definition where
  write d := .obj
    [("key", strictFlag.write d.key), ("name", .str d.name), ("description", .str d.description)]
  read? v := do
    match ← Slot.ofRecord? ["key", "name", "description"] v with
    | [key, name, description] => return {
        key := ← key.required strictFlag?
        name := ← name.required text?
        description := ← description.withDefault "" text? }
    | _ => none

def halfWord? (v : Json) : Option UInt32 := do
  let w ← word? v
  if w.toNat < UInt32.size then return w.toUInt32 else none

def settings : Codec Settings where
  write s := .obj
    [("path", .str s.path), ("map_size", .ofWord s.mapSize), ("max_dbs", .ofWord s.maxTables.toUInt64)]
  read? v := do
    let defaults : Settings := {}
    match ← Slot.ofRecord? ["path", "map_size", "max_dbs"] v with
    | [path, mapSize, maxTables] => return {
        path := ← path.withDefault defaults.path text?
        mapSize := ← mapSize.withDefault defaults.mapSize word?
        maxTables := ← maxTables.withDefault defaults.maxTables halfWord? }
    | _ => none

/-- Reads a value, and fails with `form` if it cannot. -/
def decode (c : Codec α) (v : Json) : Except Error α :=
  match c.read? v with
  | some a => .ok a
  | none => .error .form

def decodeText (c : Codec α) (text : String) : Except Error α :=
  match c.ofText? text with
  | some a => .ok a
  | none => .error .form

end Codec

end Grants
