import Grants.FlagSet
import Grants.Store
import Grants.ByteStore.Key
import Grants.ByteStore.Record
import Grants.ByteStore.Table
import Grants.Wire.Codec

/-!
# The byte store

Flags, usage records and definitions in three tables of byte strings.  An
operation that fails leaves no trace, since its result is the whole store after
it.
-/

namespace Grants

structure ByteStore where
  holders : Table
  usages : Table
  definitions : Table

namespace ByteStore

def empty : ByteStore := ⟨∅, ∅, ∅⟩

/-- A new store, which needs room for its three tables. -/
def create (settings : Settings) : Except Error ByteStore :=
  if settings.maxTables < 3 then .error (.store .tooManyTables) else .ok empty

def decodeText (bytes : Bytes) : Except Error String :=
  match Bytes.toString? bytes with
  | some text => .ok text
  | none => .error (.store .undecodable)

variable (s : ByteStore) (h : Holder)

/-! ## Holders -/

/-- The flags of a holder that has a record. -/
def permissions? : Except Error (Option (List Flag)) := do
  let key ← Key.ofHolder h
  match s.holders[key]? with
  | none => return none
  | some bytes => return some (Record.flags (← decodeText bytes))

def permissions : Except Error (List Flag) := do
  match ← s.permissions? h with
  | some flags => return flags
  | none => .error (.notFound h)

def putPermissions (flags : List Flag) : Except Error ByteStore := do
  let key ← Key.ofHolder h
  return { s with holders := ← s.holders.put key (Bytes.ofString (Record.ofFlags flags)) }

def setPermissions (flags : List Flag) : Except Error ByteStore :=
  s.putPermissions h (FlagSet.ofList flags).flags

def grant (flags : List Flag) : Except Error (Nat × ByteStore) := do
  let stored ← s.permissions? h
  let (added, set) := (FlagSet.ofList (stored.getD [])).insertAll flags
  return (added, ← s.putPermissions h set.flags)

/-- The record is written only if a flag is removed. -/
def revoke (flags : List Flag) : Except Error (Nat × ByteStore) := do
  match ← s.permissions? h with
  | none => return (0, s)
  | some current =>
    let kept := current.removeAll flags
    let removed := current.length - kept.length
    if 0 < removed then return (removed, ← s.putPermissions h kept) else return (removed, s)

def removeHolder : Except Error (Bool × ByteStore) := do
  let (existed, holders) := s.holders.remove (← Key.ofHolder h)
  return (existed, { s with holders })

def holderExists : Except Error Bool := return (← s.permissions? h).isSome

/-- The holders that have a record, in the order of their keys. -/
def listHolders : Except Error (List Holder) := do
  let keys ← s.holders.toList.mapM fun (key, value) ↦ do
    let _ ← decodeText value
    return key
  return keys.filterMap Key.holder?

/-! ## Usage records -/

variable (flag : String)

def usage : Except Error Usage := do
  match s.usages[← Key.ofUsage h flag]? with
  | some bytes => Record.usage bytes
  | none => return {}

def setUsage (u : Usage) : Except Error ByteStore := do
  return { s with usages := ← s.usages.put (← Key.ofUsage h flag) (Record.ofUsage u) }

def resetUsage : Except Error (Bool × ByteStore) := do
  let (existed, usages) := s.usages.remove (← Key.ofUsage h flag)
  return (existed, { s with usages })

def update {α : Type} (decide : Usage → Change α) : Except Error (α × ByteStore) := do
  let change := decide (← s.usage h flag)
  if change.keep then return (change.answer, ← s.setUsage h flag change.usage)
  else return (change.answer, s)

/-! ## Definitions -/

def readDefinition (bytes : Bytes) : Except Error Definition := do
  match Codec.definition.ofText? (← decodeText bytes) with
  | some d => return d
  | none => .error (.store .undecodable)

def define (d : Definition) : Except Error ByteStore := do
  let record := Bytes.ofString (Codec.definition.toText d)
  return { s with definitions := ← s.definitions.put (Bytes.ofString d.key.raw) record }

def definition? (key : StrictFlag) : Except Error (Option Definition) := do
  match s.definitions[Bytes.ofString key.raw]? with
  | none => return none
  | some bytes => return some (← readDefinition bytes)

def undefine (key : StrictFlag) : Bool × ByteStore :=
  let (existed, definitions) := s.definitions.remove (Bytes.ofString key.raw)
  (existed, { s with definitions })

/-- All definitions in the order of their keys. -/
def listDefinitions : Except Error (List Definition) :=
  s.definitions.toList.mapM fun (key, value) ↦ do
    let _ ← decodeText key
    readDefinition value

end ByteStore

instance : Store ByteStore where
  empty := .empty
  permissions s h := s.permissions h
  setPermissions s h flags := s.setPermissions h flags
  grant s h flags := s.grant h flags
  revoke s h flags := s.revoke h flags
  removeHolder s h := s.removeHolder h
  usage s h flag := s.usage h flag
  setUsage s h flag u := s.setUsage h flag u
  resetUsage s h flag := s.resetUsage h flag
  update s h flag decide := s.update h flag decide

end Grants
