import Grants.Flag.Basic
import Grants.Json.Basic

/-!
# Reading records

A record is an object with a member for each field, or an array of the fields in
order.  Members of other names are passed over, and no field may be given twice:
an object without repeated names has the slots that looking its fields up gives
(`Slot.ofRecord?_obj`).
-/

namespace Grants.Wire

/-- What a record has in the place of a field. -/
inductive Slot
  | given (v : Json)
  /-- An object without a member of the name. -/
  | absent
  /-- An array that ends before the field. -/
  | cut

namespace Slot

variable {α : Type}

def ofMembers? (members : List (String × Json)) (name : String) : Option Slot :=
  match members.filter (·.1 == name) with
  | [] => some absent
  | [(_, v)] => some (given v)
  | _ => none

/-- The slots of some fields, in the order of their names. -/
def ofRecord? (names : List String) : Json → Option (List Slot)
  | .obj members => names.mapM (ofMembers? members)
  | .arr items =>
    if items.length ≤ names.length then
      some (items.map given ++ List.replicate (names.length - items.length) cut)
    else none
  | _ => none

def required (read : Json → Option α) : Slot → Option α
  | given v => read v
  | _ => none

/-- A field with a default may be left out of either form. -/
def withDefault (default : α) (read : Json → Option α) : Slot → Option α
  | given v => read v
  | _ => some default

/-- An optional field may be left out of an object, but not of an array. -/
def optional (read : Json → Option (Option α)) : Slot → Option (Option α)
  | given v => read v
  | absent => some none
  | cut => none

/-! ## Slots of objects -/

@[simp] theorem required_given (read : Json → Option α) (v : Json) :
    (given v).required read = read v := rfl

@[simp] theorem withDefault_given (default : α) (read : Json → Option α) (v : Json) :
    (given v).withDefault default read = read v := rfl

@[simp] theorem optional_given (read : Json → Option (Option α)) (v : Json) :
    (given v).optional read = read v := rfl

/-- What an object has in the place of a field, by the value of the member of that name. -/
def ofMember : Option Json → Slot
  | some v => given v
  | none => absent

@[simp] theorem ofMember_some (v : Json) : ofMember (some v) = given v := rfl

variable {members : List (String × Json)}

theorem ofMembers?_eq (h : (members.map Prod.fst).Nodup) (name : String) :
    ofMembers? members name = some (ofMember (members.lookup name)) := by
  induction members with
  | nil => rfl
  | cons m ms ih =>
    obtain ⟨k, v⟩ := m
    rw [List.map_cons, List.nodup_cons] at h
    by_cases hk : k = name
    · subst hk
      have hnone : ms.filter (·.1 == k) = [] := by
        rw [List.filter_eq_nil_iff]
        intro m hm heq
        exact h.1 (List.mem_map.mpr ⟨m, hm, beq_iff_eq.mp heq⟩)
      simp [ofMembers?, hnone]
    · have hne : (name == k) = false := beq_eq_false_iff_ne.mpr (Ne.symm hk)
      rw [List.lookup_cons, hne, ← ih h.2]
      simp [ofMembers?, hk]

theorem ofRecord?_obj (h : (members.map Prod.fst).Nodup) (names : List String) :
    ofRecord? names (.obj members) = some (names.map fun name ↦ ofMember (members.lookup name)) := by
  have hslots : ofMembers? members = fun name ↦ some (ofMember (members.lookup name)) :=
    funext (ofMembers?_eq h)
  rw [ofRecord?, hslots]
  exact List.mapM_pure

end Slot

variable {α : Type}

def bool? : Json → Option Bool
  | .bool b => some b
  | _ => none

def text? : Json → Option String
  | .str s => some s
  | _ => none

def word? : Json → Option UInt64
  | .num n => n.word?
  | _ => none

def flag? (v : Json) : Option Flag := (text? v).bind Flag.ofString?

def strictFlag? (v : Json) : Option StrictFlag := (text? v).bind StrictFlag.ofString?

def list? (read : Json → Option α) : Json → Option (List α)
  | .arr items => items.mapM read
  | _ => none

def nullable? (read : Json → Option α) : Json → Option (Option α)
  | .null => some none
  | v => (read v).map some

end Grants.Wire
