import Grants.Wire.Faithful

/-!
# Wire forms round-trip

Holders, policies, usage records, requests, findings and definitions are written
as compact JSON texts, and each of them is read back from its text: whatever
characters identifiers, names and descriptions have, whatever 64-bit words and
flags there are, and whichever optional fields have a value.  The text is read
as the JSON value that was written (`Json.parse?_toText`), and this value as
what it was written for (`Codec.Faithful`).
-/

namespace Grants.Codec

variable {α : Type}

/-- The text that a value is written as is accepted, and read as the value. -/
def RoundTrips (c : Codec α) : Prop := ∀ a, c.decodeText (c.toText a) = .ok a

theorem Faithful.roundTrips {c : Codec α} (h : c.Faithful) : c.RoundTrips := by
  intro a
  rw [decodeText, h.ofText?_toText]

/-- The records that are exchanged as JSON come back as they were. -/
theorem wire_forms_round_trip :
    holder.RoundTrips ∧ holderKey.RoundTrips ∧ policy.RoundTrips ∧ usage.RoundTrips ∧
      request.RoundTrips ∧ finding.RoundTrips ∧ definition.RoundTrips := by
  refine ⟨?_, ?_, ?_, ?_, ?_, ?_, ?_⟩
  · exact faithful_holder.roundTrips
  · exact faithful_holderKey.roundTrips
  · exact faithful_policy.roundTrips
  · exact faithful_usage.roundTrips
  · exact faithful_request.roundTrips
  · exact faithful_finding.roundTrips
  · exact faithful_definition.roundTrips

end Grants.Codec
