import Grants.ByteStore.Record
import Grants.Proofs.Flag.Specificity
import Grants.Wire.Codec

/-!
# Strict flags are the concrete flags without suffixes

A text is read as a strict flag exactly if it is read as a flag that has no
wildcards, and has no colon (`StrictFlag.exists_parse_iff`).  The flag that a
strict flag stands for is put together from its pieces, and not read from its
text, but it has the same fields as if it had been read
(`StrictFlag.fields_toFlag`).

So it does not matter in which way a flag has come about: all its fields are
those that reading its text gives (`Flag.Obtained.exists_parse`), although flags
are compared by their texts alone.
-/

namespace Grants

/-- All that is kept of a flag. -/
structure Flag.Fields where
  raw : String
  segments : List String
  wildcard : Bool
  cooldown : UInt64
  limit : UInt64
  deriving DecidableEq

def Flag.fields (f : Flag) : Flag.Fields := ⟨f.raw, f.segments, f.isWildcard, f.cooldown, f.limit⟩

namespace StrictFlag

/-- The fields of a strict flag as a flag, put together without a look at the grammar of flags. -/
def fields (k : StrictFlag) : Flag.Fields := ⟨k.raw, k.segments, false, 0, 0⟩

variable {raw : String} {k : StrictFlag}

theorem parse_eq_ok_iff : parse raw = .ok k ↔ k.raw = raw := by
  obtain ⟨text, hk⟩ := k
  by_cases h : Grammar.strictFlag.accepts raw = true
  · simp [parse, ofString?, h, eq_comm]
  · have hne : text ≠ raw := by
      rintro rfl
      exact h hk
    simp [parse, ofString?, h, hne]

theorem exists_raw_iff : (∃ k : StrictFlag, k.raw = raw) ↔
    (Text.fields '.' raw.toList).all Grammar.isWord = true := by
  constructor
  · rintro ⟨k, rfl⟩
    exact k.accepted
  · intro h
    exact ⟨⟨raw, h⟩, rfl⟩

theorem notMem_raw (k : StrictFlag) : ':' ∉ k.raw.toList :=
  Grammar.notMem_of_strict (by decide) (by decide) k.accepted

theorem hasWildcards_toFlag (k : StrictFlag) : k.toFlag.hasWildcards = false := by
  rw [Flag.hasWildcards, Bool.not_eq_false', List.all_eq_true]
  refine List.forall_mem_map.mpr fun s hs ↦ Flag.isConcrete_of_isWord ?_
  rw [String.toList_ofList]
  exact List.all_eq_true.mp k.accepted s hs

/-- A strict flag is put together as its text would be read. -/
theorem fields_toFlag (k : StrictFlag) : k.toFlag.fields = k.fields := by
  rw [Flag.fields, Flag.isWildcard_eq_false k.hasWildcards_toFlag]
  rfl

/-- The segments of a flag without a colon are the pieces of its text. -/
theorem exists_parse_iff : (∃ k, parse raw = .ok k) ↔
    ∃ f, Flag.parse raw = .ok f ∧ f.hasWildcards = false ∧ ':' ∉ raw.toList := by
  constructor
  · rintro ⟨k, hk⟩
    cases parse_eq_ok_iff.mp hk
    exact ⟨k.toFlag, Flag.parse_eq_ok_iff.mpr rfl, k.hasWildcards_toFlag, k.notMem_raw⟩
  · rintro ⟨f, hf, hconcrete, hcolon⟩
    cases Flag.parse_eq_ok_iff.mp hf
    have hpath : f.path.toList = f.raw.toList := by
      rw [Flag.path, String.toList_ofList, List.takeWhile_eq_self_iff]
      intro c hc
      simpa using ne_of_mem_of_not_mem hc hcolon
    simp only [parse_eq_ok_iff, exists_raw_iff, List.all_eq_true, ← hpath]
    intro s hs
    have hmem : String.ofList s ∈ f.segments := by
      rw [Flag.segments_eq]
      exact List.mem_map_of_mem hs
    simpa using Flag.isWord_of_mem_segments hmem (Flag.isConcrete_of_mem hconcrete hmem)

end StrictFlag

/-- The ways in which flags come about, and the fields that they have then. -/
inductive Flag.Obtained : Flag.Fields → Prop
  /-- A text is read. -/
  | parsed {raw : String} {f : Flag} (hf : Flag.parse raw = .ok f) : Obtained f.fields
  /-- One of several texts is read. -/
  | listed {ignoreInvalid removeDuplicates : Bool} {raws : List String} {fs : List Flag} {f : Flag}
      (hfs : Flag.parseList ignoreInvalid removeDuplicates raws = .ok fs) (hf : f ∈ fs) :
      Obtained f.fields
  /-- A strict flag is read and used as a flag. -/
  | strict {raw : String} {k : StrictFlag} (hk : StrictFlag.parse raw = .ok k) : Obtained k.fields
  /-- A flag is found in a wire form. -/
  | received {v : Json} {f : Flag} (hf : Codec.flag.read? v = some f) : Obtained f.fields
  /-- A strict flag is found in a wire form and used as a flag. -/
  | receivedStrict {v : Json} {k : StrictFlag} (hk : Codec.strictFlag.read? v = some k) :
    Obtained k.fields
  /-- A flag is found in a stored record. -/
  | stored {text : String} {f : Flag} (hf : f ∈ Record.flags text) : Obtained f.fields

namespace Flag.Obtained

variable {x y : Flag.Fields}

theorem exists_parse (hx : Obtained x) : ∃ f, Flag.parse x.raw = .ok f ∧ f.fields = x := by
  cases hx with
  | @strict _ k | @receivedStrict _ k => exact ⟨k.toFlag, parse_eq_ok_iff.mpr rfl, k.fields_toFlag⟩
  | @parsed _ f | @listed _ _ _ _ f | @received _ f | @stored _ f =>
    exact ⟨f, parse_eq_ok_iff.mpr rfl, rfl⟩

theorem eq_of_raw_eq (hx : Obtained x) (hy : Obtained y) (hraw : x.raw = y.raw) : x = y := by
  obtain ⟨f, hf, rfl⟩ := hx.exists_parse
  obtain ⟨g, hg, rfl⟩ := hy.exists_parse
  rw [hraw, hg] at hf
  cases hf
  rfl

end Flag.Obtained

/-- How reading a text as a strict flag compares with reading it as a flag. -/
structure StrictFlag.ReadAsFlag (raw : String) : Prop where
  ok_iff : (∃ k, StrictFlag.parse raw = .ok k) ↔
    ∃ f, Flag.parse raw = .ok f ∧ f.hasWildcards = false ∧ ':' ∉ raw.toList
  fields_eq {k : StrictFlag} : StrictFlag.parse raw = .ok k →
    ∃ f, Flag.parse raw = .ok f ∧ k.toFlag.fields = f.fields ∧ k.fields = f.fields

/-- Strict flags are the flags without wildcards and suffixes, in every field.  So flags with one
text have the same fields, in whichever ways they have come about. -/
theorem Flag.text_tells_fields :
    (∀ raw, StrictFlag.ReadAsFlag raw) ∧
      ∀ x y : Flag.Fields, Flag.Obtained x → Flag.Obtained y → x.raw = y.raw → x = y := by
  constructor
  · intro raw
    refine ⟨StrictFlag.exists_parse_iff, fun {k} hk ↦ ?_⟩
    obtain ⟨f, hf, hfields⟩ := (Flag.Obtained.strict hk).exists_parse
    cases StrictFlag.parse_eq_ok_iff.mp hk
    exact ⟨f, hf, k.fields_toFlag.trans hfields.symm, hfields.symm⟩
  · exact fun x y hx hy ↦ hx.eq_of_raw_eq hy

/-- A strict flag used as a flag is the same as the flag of its text in a stored record. -/
theorem Flag.text_tells_fields_of_stored :
    ∃ (k : StrictFlag) (f : Flag), StrictFlag.parse "mod.ban" = .ok k ∧
      f ∈ Record.flags "mod.*:30\r\nmod.ban" ∧ k.fields.raw = f.fields.raw ∧
      k.fields = f.fields := by
  let k : StrictFlag := ⟨"mod.ban", by decide⟩
  let f : Flag := ⟨⟨["mod", "ban"], 0, 0⟩, "mod.ban", by decide⟩
  have hk : StrictFlag.parse "mod.ban" = .ok k := by decide
  have hf : f ∈ Record.flags "mod.*:30\r\nmod.ban" := by decide +kernel
  refine ⟨k, f, hk, hf, rfl, ?_⟩
  exact Flag.text_tells_fields.2 _ _ (.strict hk) (.stored hf) rfl

end Grants
