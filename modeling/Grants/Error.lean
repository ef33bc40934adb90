import Grants.Flag.Basic
import Grants.Holder

/-!
# Errors

Every way an operation can fail, by its cause, and the one text of each cause.
-/

namespace Grants

/-- What is wrong with an argument, or why a caller gives up. -/
inductive Complaint
  | empty (name : String)
  | below (name : String) (bound : UInt64)
  | above (name : String) (bound : UInt64)
  | notAmong (name : String) (options : List String)
  | other (reason : String)
  deriving DecidableEq, Repr

/-- What goes wrong inside the byte store. -/
inductive StoreFault
  /-- A part of a key is too long for its length field. -/
  | partTooLong (bytes : Nat)
  /-- A usage record does not have the length of one. -/
  | corruptUsage (bytes : Nat)
  /-- A record is to be written under an empty or an oversized key. -/
  | badKeySize
  /-- The store may not hold as many tables as it needs. -/
  | tooManyTables
  /-- A stored text cannot be decoded. -/
  | undecodable
  deriving DecidableEq, Repr

inductive Error
  | grammar (grammar : Grammar) (text : String)
  | check (complaint : Complaint)
  | notFound (holder : Holder)
  | permission (failed : List Flag)
  | store (fault : StoreFault)
  /-- A JSON value does not have the expected form. -/
  | form
  deriving DecidableEq

instance Error.decidableEqExcept {α : Type} [DecidableEq α] : DecidableEq (Except Error α)
  | .ok a, .ok b => decidable_of_iff (a = b) ⟨congrArg Except.ok, Except.ok.inj⟩
  | .error e, .error e' => decidable_of_iff (e = e') ⟨congrArg Except.error, Except.error.inj⟩
  | .ok _, .error _ => .isFalse nofun
  | .error _, .ok _ => .isFalse nofun

namespace Grammar

def title : Grammar → String
  | flag => "Invalid permission flag"
  | strictFlag => "Invalid strict permission flag"
  | objectId => "Invalid objectId"
  | discordId => "Invalid discordId"

end Grammar

namespace Complaint

def message : Complaint → String
  | empty name => name ++ " cannot be empty"
  | below name bound => name ++ " cannot be less than " ++ Numeral.text bound.toNat
  | above name bound => name ++ " cannot be greater than " ++ Numeral.text bound.toNat
  | notAmong name options => name ++ " must be one of " ++ ",".intercalate options
  | other reason => reason

end Complaint

namespace StoreFault

def message : StoreFault → String
  | partTooLong bytes => "key part of " ++ Numeral.text bytes ++ " bytes exceeds 65535"
  | corruptUsage bytes => "corrupt state record (" ++ Numeral.text bytes ++ " bytes)"
  | badKeySize =>
    "MDB_BAD_VALSIZE: Unsupported size of key/DB name/data, or wrong DUPFIXED size"
  | tooManyTables => "MDB_DBS_FULL: Environment maxdbs limit reached"
  | undecodable => "undecodable record"

end StoreFault

namespace Error

def message : Error → String
  | grammar g text => g.title ++ " \"" ++ text ++ "\""
  | check c => c.message
  | notFound h => "Holder not found: " ++ h.display
  | permission failed => "Missing permissions: " ++ ", ".intercalate (failed.map Flag.raw)
  | store fault => "Store error: " ++ fault.message
  | form => "Unexpected form of a JSON value"

variable {α β : Type} {x : Except Error α} {b : β}

/-- Two steps succeed if the first does and the second does with its result. -/
theorem bind_eq_ok_iff {f : α → Except Error β} :
    x >>= f = .ok b ↔ ∃ a, x = .ok a ∧ f a = .ok b := by
  cases x with
  | error e => simp [bind, Except.bind]
  | ok a => simp [bind, Except.bind]

theorem map_eq_ok_iff {f : α → β} : x.map f = .ok b ↔ ∃ a, x = .ok a ∧ f a = b := by
  cases x with
  | error e => simp [Except.map]
  | ok a => simp [Except.map]

/-- If every element of a list is turned into something that is like it, so is the list. -/
theorem exists_mapM_eq_ok {γ : Type} {f : α → Except Error β} {g : β → γ} {g' : α → γ}
    {as : List α} (h : ∀ a ∈ as, ∃ b, f a = .ok b ∧ g b = g' a) :
    ∃ bs, as.mapM f = .ok bs ∧ bs.map g = as.map g' := by
  induction as with
  | nil => exact ⟨[], rfl, rfl⟩
  | cons a as ih =>
    rw [List.forall_mem_cons] at h
    obtain ⟨⟨b, hb, hg⟩, h⟩ := h
    obtain ⟨bs, hbs, hgs⟩ := ih h
    refine ⟨b :: bs, ?_, by rw [List.map_cons, List.map_cons, hg, hgs]⟩
    rw [List.mapM_cons, hb, hbs]
    rfl

end Error

end Grants
