import Grants.Proofs.ByteStore.Record

/-!
# Usage records, byte by byte

Whatever has the length of a usage record is read as one, damaged or not, and
nothing else is.  So a record may change when it is read and written back: it is
`rewritten` (`ofUsage_of_usage`), and it stays as it was exactly if it is
`Canonical` (`rewritten_eq_self_iff`).
-/

namespace Grants.Record

variable {bytes : Bytes} {u : Usage}

theorem length_of_usage (h : usage bytes = .ok u) : bytes.length = usageLength := by
  by_cases hlen : bytes.length = usageLength
  · exact hlen
  · cases h.symm.trans (usage_eq_error_iff.mpr ⟨hlen, rfl⟩)

/-- A record has a first byte, the bytes of a time and those of a number. -/
theorem exists_eq_cons_append (h : bytes.length = usageLength) :
    ∃ first last uses, bytes = first :: (last ++ uses) ∧ last.length = 8 ∧ uses.length = 8 := by
  obtain ⟨first, rest, rfl⟩ := List.exists_cons_of_length_eq_add_one h
  have hrest : rest.length = 16 := Nat.succ.inj h
  refine ⟨first, rest.take 8, rest.drop 8, by rw [List.take_append_drop], ?_, ?_⟩
  · rw [List.length_take, hrest, Nat.min_eq_left (by decide)]
  · rw [List.length_drop, hrest]

/-- Eight bytes are written as they were read. -/
theorem ofNat_word_toNat {bs : Bytes} (h : bs.length = 8) :
    Bytes.ofNat 8 (UInt64.ofNat (Bytes.toNat bs)).toNat = bs := by
  have hlt : Bytes.toNat bs < UInt64.size := Nat.lt_of_lt_of_eq (Bytes.toNat_lt bs) (h ▸ rfl)
  rw [UInt64.toNat_ofNat_of_lt' hlt, ← h, Bytes.ofNat_toNat]

/-- The record that is written for what a record says: without an invocation there is no time, and
with one the first byte is 1. -/
def rewritten : Bytes → Bytes
  | [] => []
  | first :: rest =>
    if first = 0 then 0 :: (List.replicate 8 0 ++ rest.drop 8) else 1 :: rest

theorem ofUsage_of_usage (h : usage bytes = .ok u) : ofUsage u = rewritten bytes := by
  obtain ⟨first, last, uses, rfl, hl, hu⟩ := exists_eq_cons_append (length_of_usage h)
  rw [usage_cons_append first hl hu] at h
  cases h
  rw [ofUsage_eq_cons, ofNat_word_toNat hu, rewritten]
  have hzero : Bytes.ofNat 8 0 = List.replicate 8 0 := by decide
  by_cases hfirst : first = 0
  · rw [if_pos hfirst, if_pos hfirst, List.drop_left' hl]
    exact congrArg (0 :: · ++ uses) hzero
  · rw [if_neg hfirst, if_neg hfirst]
    exact congrArg (1 :: · ++ uses) (ofNat_word_toNat hl)

/-- The first byte is 0 or 1, and the eight bytes after it are 0 if it is 0. -/
structure Canonical (bytes : Bytes) : Prop where
  first : bytes[0]? = some 0 ∨ bytes[0]? = some 1
  absent : bytes[0]? = some 0 → ∀ i, 1 ≤ i → i ≤ 8 → bytes[i]? = some 0

theorem canonical_cons_iff {first : UInt8} {rest : Bytes} (h : first ≠ 0) :
    Canonical (first :: rest) ↔ first = 1 := by
  constructor
  · rintro ⟨h0 | h1, -⟩
    · exact absurd (Option.some.inj h0) h
    · exact Option.some.inj h1
  · rintro rfl
    exact ⟨.inr rfl, nofun⟩

theorem canonical_zero_cons_iff {last uses : Bytes} (hl : last.length = 8) :
    Canonical (0 :: (last ++ uses)) ↔ last = List.replicate 8 0 := by
  have hget {i : Nat} (hi : i < 8) : (0 :: (last ++ uses))[i + 1]? = last[i]? := by
    rw [List.getElem?_cons_succ, List.getElem?_append_left (hl ▸ hi)]
  constructor
  · intro h
    apply List.ext_getElem?
    intro i
    by_cases hi : i < 8
    · rw [← hget hi, h.absent rfl _ (Nat.succ_pos i) hi, List.getElem?_replicate, if_pos hi]
    · rw [List.getElem?_eq_none (hl ▸ Nat.le_of_not_lt hi), List.getElem?_replicate, if_neg hi]
  · rintro rfl
    refine ⟨.inl rfl, fun _ i hpos hle ↦ ?_⟩
    obtain ⟨j, rfl⟩ := Nat.exists_eq_succ_of_ne_zero (Nat.ne_of_gt hpos)
    have hj : j < 8 := hle
    rw [hget hj, List.getElem?_replicate, if_pos hj]

theorem rewritten_eq_self_iff (h : bytes.length = usageLength) :
    rewritten bytes = bytes ↔ Canonical bytes := by
  obtain ⟨first, last, uses, rfl, hl, -⟩ := exists_eq_cons_append h
  by_cases hfirst : first = 0
  · rw [hfirst, canonical_zero_cons_iff hl, rewritten, if_pos rfl, List.drop_left' hl,
      List.cons_inj_right, List.append_left_inj, eq_comm]
  · rw [canonical_cons_iff hfirst, rewritten, if_neg hfirst, List.cons_eq_cons, eq_comm]
    exact and_iff_left rfl

/-- A usage record comes back as it was, with an invocation at time 0 told apart from none.  Bytes
are read as a usage record exactly if there are 17 of them, and then they are the record that is
written for what they say exactly if they are canonical. -/
theorem usages_kept_as_bytes :
    (∀ u : Usage, usage (ofUsage u) = .ok u) ∧
    (∀ uses uses' : UInt64, ofUsage ⟨some 0, uses⟩ ≠ ofUsage ⟨none, uses'⟩) ∧
    (∀ (bytes : Bytes) (e : Error), usage bytes = .error e ↔
      bytes.length ≠ 17 ∧ e = .store (.corruptUsage bytes.length)) ∧
    ∀ bytes : Bytes, bytes.length = 17 →
      ∃ u, usage bytes = .ok u ∧ ofUsage u = rewritten bytes ∧
        (ofUsage u = bytes ↔ Canonical bytes) := by
  refine ⟨usage_ofUsage, fun uses uses' h ↦ ?_, fun _ _ ↦ usage_eq_error_iff, fun bytes h ↦ ?_⟩
  · have hread := usage_ofUsage ⟨some 0, uses⟩
    rw [h, usage_ofUsage] at hread
    cases hread
  · obtain ⟨u, hu⟩ := usage_eq_ok h
    have hwritten := ofUsage_of_usage hu
    exact ⟨u, hu, hwritten, hwritten ▸ rewritten_eq_self_iff h⟩

/-- A time without an invocation is read, and lost when the record is written again. -/
theorem usages_kept_as_bytes_of_damaged :
    let bytes : Bytes := [0, 1, 2, 3, 4, 5, 6, 7, 8, 0, 0, 0, 0, 0, 0, 0, 9]
    bytes.length = 17 ∧ ¬ Canonical bytes ∧
      usage bytes = .ok ⟨none, 9⟩ ∧ ofUsage ⟨none, 9⟩ ≠ bytes := by
  intro bytes
  have hlen : bytes.length = 17 := rfl
  have hdamaged : ¬ Canonical bytes := fun h ↦ by
    have hbyte := h.absent rfl 1 (by decide) (by decide)
    cases hbyte
  have husage : usage bytes = .ok ⟨none, 9⟩ := by decide
  obtain ⟨u, hu, -, hiff⟩ := usages_kept_as_bytes.2.2.2 bytes hlen
  cases hu.symm.trans husage
  exact ⟨hlen, hdamaged, husage, fun h ↦ hdamaged (hiff.mp h)⟩

end Grants.Record
