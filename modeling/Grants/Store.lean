import Grants.Error
import Grants.Usage

/-!
# Stores

A store keeps the granted flags of holders, and usage records under a holder and
a flag's text.  Every operation either fails and leaves the store as it was, or
answers with the store after it.
-/

namespace Grants

class Store (σ : Type) where
  empty : σ
  /-- Fails with `notFound` if the holder has no record. -/
  permissions : σ → Holder → Except Error (List Flag)
  /-- Replaces the flags of a holder. -/
  setPermissions : σ → Holder → List Flag → Except Error σ
  /-- Adds flags, creating the record if needed, and counts the new ones. -/
  grant : σ → Holder → List Flag → Except Error (Nat × σ)
  /-- Removes flags and counts them; the record stays, even if it is empty. -/
  revoke : σ → Holder → List Flag → Except Error (Nat × σ)
  /-- Removes the record of a holder, but none of its usage records. -/
  removeHolder : σ → Holder → Except Error (Bool × σ)
  /-- The usage record, or the default one if there is none. -/
  usage : σ → Holder → String → Except Error Usage
  setUsage : σ → Holder → String → Usage → Except Error σ
  /-- Forgets a usage record, and says whether there was one. -/
  resetUsage : σ → Holder → String → Except Error (Bool × σ)
  /-- Hands the usage record to a decision, and keeps what it leaves if it says so. -/
  update {α : Type} : σ → Holder → String → (Usage → Change α) → Except Error (α × σ)

namespace Store

variable {σ α : Type}

/-- The outcome of one operation on its own: a failure leaves the store as it was. -/
def commit (s : σ) : Except Error (α × σ) → Except Error α × σ
  | .ok (a, s') => (.ok a, s')
  | .error e => (.error e, s)

end Store

end Grants
