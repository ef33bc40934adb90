import Grants.Flag.Parse
import Grants.Proofs.Flag.Text

/-!
# The grammar of flags

A derivation of a text is a path with up to two suffixes that make up the text,
where paths, segments and suffixes are what the productions of the grammar say.
A text has at most one derivation (`Derivation.text_inj`).  It is read as a flag
exactly if it has one, and the parts of the flag are those of the derivation
(`Parts.read?_eq_some_iff`).
-/

namespace Grants.Flag

/-- `segment ::= [a-z0-9]+ | "?"` -/
inductive SegmentText : String → Prop
  | any : SegmentText "?"
  | word {s : String} (hne : s ≠ "")
      (hs : ∀ c ∈ s.toList, ('a' ≤ c ∧ c ≤ 'z') ∨ ('0' ≤ c ∧ c ≤ '9')) : SegmentText s

/-- `path ::= "*" | segment ("." segment)* ("." "*")?` -/
inductive PathText : String → Prop
  | all : PathText "*"
  | exact {ss : List String} (hne : ss ≠ []) (hs : ∀ s ∈ ss, SegmentText s) :
    PathText (".".intercalate ss)
  | under {ss : List String} (hne : ss ≠ []) (hs : ∀ s ∈ ss, SegmentText s) :
    PathText (".".intercalate ss ++ ".*")

/-- The number that some decimal digits stand for. -/
def value (digits : String) : Nat := Nat.ofDigitChars 10 digits.toList 0

/-- `uint ::= [0-9]+`, where the number fits in 64 bits. -/
structure SuffixText (digits : String) : Prop where
  ne_empty : digits ≠ ""
  isDigit : ∀ c ∈ digits.toList, '0' ≤ c ∧ c ≤ '9'
  value_lt : value digits < UInt64.size

/-- `flag ::= path (":" uint)? (":" uint)?` -/
@[ext]
structure Derivation where
  path : String
  suffixes : List String
  isPath : PathText path
  isSuffix : ∀ n ∈ suffixes, SuffixText n
  length_le : suffixes.length ≤ 2

namespace Derivation

variable (d : Derivation)

def text : String := ":".intercalate (d.path :: d.suffixes)

/-- A suffix that is left out counts as 0. -/
def cooldown : Nat := d.suffixes[0]?.elim 0 value

def limit : Nat := d.suffixes[1]?.elim 0 value

def parts : Parts where
  segments := (Text.fields '.' d.path.toList).map String.ofList
  cooldown := .ofNat d.cooldown
  limit := .ofNat d.limit

/-- What a flag says is what its derivation does. -/
structure Describes (f : Flag) : Prop where
  raw : f.raw = d.text
  path : f.path = d.path
  /-- The segments are the pieces of the path between its dots. -/
  segments : f.segments ≠ [] ∧ (∀ s ∈ f.segments, s ≠ "" ∧ '.' ∉ s.toList) ∧
    ".".intercalate f.segments = d.path
  isWildcard_iff : f.isWildcard = true ↔ d.path = "*" ∨ ∃ stem, d.path = stem ++ ".*"
  cooldown : f.cooldown.toNat = d.cooldown
  limit : f.limit.toNat = d.limit

end Derivation

/-! ## Segments and paths -/

theorem isWordChar_iff {c : Char} :
    Grammar.isWordChar c = true ↔ ('a' ≤ c ∧ c ≤ 'z') ∨ ('0' ≤ c ∧ c ≤ '9') := by
  have hlower : c.isLower = true ↔ 'a' ≤ c ∧ c ≤ 'z' := by
    change (decide ('a' ≤ c) && decide (c ≤ 'z')) = true ↔ _
    rw [Bool.and_eq_true, decide_eq_true_iff, decide_eq_true_iff]
  rw [Grammar.isWordChar, Bool.or_eq_true, hlower]
  simp [Char.isDigit, Char.le_def]

theorem isSegment_iff {s : String} : Grammar.isSegment s.toList = true ↔ SegmentText s := by
  rw [Grammar.isSegment, Bool.or_eq_true, beq_iff_eq, Grammar.isWord, Bool.and_eq_true,
    List.all_eq_true]
  simp only [isWordChar_iff]
  constructor
  · rintro (⟨hne, hs⟩ | hs)
    · exact .word (by simpa using hne) hs
    · obtain rfl : s = "?" := String.toList_inj.mp hs
      exact .any
  · rintro (- | ⟨hne, hs⟩)
    · exact .inr rfl
    · exact .inl ⟨by simpa using hne, hs⟩

namespace SegmentText

variable {s : String}

theorem ne_empty (hs : SegmentText s) : s ≠ "" := by
  cases hs with
  | any => decide
  | word hne _ => exact hne

theorem notMem (hs : SegmentText s) {c : Char} (hc : Grammar.isWordChar c = false)
    (hany : c ≠ '?') : c ∉ s.toList := by
  intro hmem
  cases hs with
  | any => exact hany (List.mem_singleton.mp hmem)
  | word _ hs => exact Bool.false_ne_true (hc.symm.trans (isWordChar_iff.mpr (hs c hmem)))

end SegmentText

theorem fields_intercalate_segments {ss : List String} (hne : ss ≠ [])
    (hs : ∀ s ∈ ss, SegmentText s) :
    Text.fields '.' (".".intercalate ss).toList = ss.map String.toList :=
  Text.fields_toList_intercalate rfl hne fun s hmem ↦ (hs s hmem).notMem (by decide) (by decide)

namespace PathText

variable {path : String}

theorem of_isPath (h : Grammar.isPath (Text.fields '.' path.toList) = true) : PathText path := by
  have hpath : ".".intercalate ((Text.fields '.' path.toList).map String.ofList) = path :=
    Text.intercalate_fields_toList rfl path
  rcases List.eq_nil_or_concat (Text.fields '.' path.toList) with hnil | ⟨init, last, hfields⟩
  · exact absurd hnil (Text.fields_ne_nil _ _)
  rw [hfields, List.concat_eq_append, List.map_append] at hpath
  rw [hfields, List.concat_eq_append, Grammar.isPath_concat_iff] at h
  obtain ⟨hinit, hlast⟩ := h
  have hss : ∀ s ∈ init.map String.ofList, SegmentText s := by
    refine List.forall_mem_map.mpr fun s hs ↦ isSegment_iff.mp ?_
    rw [String.toList_ofList]
    exact hinit s hs
  rw [← hpath]
  rcases hlast with hlast | rfl
  · refine .exact (by simp) (List.forall_mem_append.mpr ⟨hss, List.forall_mem_singleton.mpr ?_⟩)
    rw [← isSegment_iff, String.toList_ofList]
    exact hlast
  · by_cases hnil : init = []
    · subst hnil
      exact .all
    · rw [String.intercalate_append_of_ne_nil (by simpa using hnil) (by simp), String.append_assoc]
      exact .under (by simpa using hnil) hss

theorem toIsPath (h : PathText path) : Grammar.isPath (Text.fields '.' path.toList) = true := by
  have hsegments {ss : List String} (hs : ∀ s ∈ ss, SegmentText s) :
      ∀ s ∈ ss.map String.toList, Grammar.isSegment s = true :=
    List.forall_mem_map.mpr fun s hmem ↦ isSegment_iff.mpr (hs s hmem)
  cases h with
  | all => decide
  | exact hne hs =>
    rw [fields_intercalate_segments hne hs]
    exact Grammar.isPath_of_forall_isSegment (by simpa using hne) (hsegments hs)
  | @under ss hne hs =>
    have hfields : Text.fields '.' (".".intercalate ss ++ ".*").toList =
        ss.map String.toList ++ [['*']] := by
      rw [String.toList_append, ← fields_intercalate_segments hne hs]
      exact Text.fields_append_fields _ ['*']
    rw [hfields, Grammar.isPath_concat_iff]
    exact ⟨hsegments hs, .inr rfl⟩

/-- A path is made of segments, but the last may be a wildcard. -/
theorem eq_wildcard_or_segment (h : PathText path) {s : List Char}
    (hs : s ∈ Text.fields '.' path.toList) : s = ['*'] ∨ SegmentText (String.ofList s) := by
  have hpath := h.toIsPath
  rcases List.eq_nil_or_concat (Text.fields '.' path.toList) with hnil | ⟨init, last, hfields⟩
  · exact absurd hnil (Text.fields_ne_nil _ _)
  rw [hfields, List.concat_eq_append] at hs hpath
  rw [Grammar.isPath_concat_iff] at hpath
  rw [← isSegment_iff, String.toList_ofList]
  rcases List.mem_append.mp hs with hs | hs
  · exact .inr (hpath.1 s hs)
  · rw [List.mem_singleton.mp hs]
    exact hpath.2.symm

theorem notMem (h : PathText path) : ':' ∉ path.toList := by
  intro hmem
  obtain ⟨s, hs, hc⟩ : ∃ s ∈ Text.fields '.' path.toList, ':' ∈ s :=
    Text.exists_mem_fields hmem (by decide)
  rcases h.eq_wildcard_or_segment hs with rfl | hs
  · simp at hc
  · exact hs.notMem (c := ':') (by decide) (by decide) (by simpa using hc)

end PathText

/-! ## Suffixes -/

theorem suffixText_iff {n : String} :
    SuffixText n ↔ Numeral.isNumeral n.toList = true ∧ value n < UInt64.size := by
  have hnumeral : Numeral.isNumeral n.toList = true ↔
      n ≠ "" ∧ ∀ c ∈ n.toList, '0' ≤ c ∧ c ≤ '9' := by
    simp [Numeral.isNumeral, Char.isDigit, Char.le_def]
  rw [hnumeral, and_assoc]
  exact ⟨fun h ↦ ⟨h.1, h.2, h.3⟩, fun h ↦ ⟨h.1, h.2.1, h.2.2⟩⟩

theorem SuffixText.notMem {n : String} (hn : SuffixText n) : ':' ∉ n.toList := fun hmem ↦
  absurd (hn.isDigit ':' hmem) (by decide)

/-- A suffix is read if it fits in 64 bits, and a suffix that is left out in any case. -/
theorem suffix?_eq_some_iff {n : Option String} {w : UInt64} :
    suffix? (n.map String.toList) = some w ↔
      (∀ digits ∈ n, SuffixText digits) ∧ w = .ofNat (n.elim 0 value) := by
  cases n with
  | none => simp [suffix?, eq_comm]
  | some digits =>
    simp only [Option.map_some, suffix?, Numeral.word?, Option.mem_def, Option.some.injEq,
      forall_eq', suffixText_iff, Option.elim_some, value, Bool.and_eq_true, decide_eq_true_eq]
    split
    · next h => simp [h, eq_comm]
    · next h => simp [h]

namespace Parts

/-- Pieces are read as a flag if they are a path and at most two suffixes. -/
theorem ofPieces?_eq_some_iff {path : String} {suffixes : List String} {parts : Parts} :
    ofPieces? (path.toList :: suffixes.map String.toList) = some parts ↔
      ∃ d : Derivation, d.path = path ∧ d.suffixes = suffixes ∧ parts = d.parts := by
  have hpiece (i : Nat) : (path.toList :: suffixes.map String.toList)[i + 1]? =
      suffixes[i]?.map String.toList := by
    rw [List.getElem?_cons_succ, List.getElem?_map]
  unfold ofPieces?
  rw [hpiece 0, hpiece 1]
  constructor
  · intro h
    split at h
    · next hflag =>
      rw [Grammar.isFlag, Bool.and_eq_true, Bool.and_eq_true, decide_eq_true_eq,
        List.length_map] at hflag
      obtain ⟨⟨hpath, hlen⟩, -⟩ := hflag
      obtain ⟨cooldown, hcooldown, h⟩ := Option.bind_eq_some_iff.mp h
      obtain ⟨limit, hlimit, h⟩ := Option.bind_eq_some_iff.mp h
      obtain ⟨hfirst, rfl⟩ := suffix?_eq_some_iff.mp hcooldown
      obtain ⟨hsecond, rfl⟩ := suffix?_eq_some_iff.mp hlimit
      have hsuffix : ∀ n ∈ suffixes, SuffixText n := by
        intro n hn
        obtain ⟨i, hi⟩ := List.mem_iff_getElem?.mp hn
        rcases i with _ | _ | i
        · exact hfirst n hi
        · exact hsecond n hi
        · have hi := (List.getElem?_eq_some_iff.mp hi).1
          omega
      exact ⟨⟨path, suffixes, .of_isPath hpath, hsuffix, hlen⟩, rfl, rfl, (Option.some.inj h).symm⟩
    · cases h
  · rintro ⟨d, rfl, rfl, rfl⟩
    have hflag : Grammar.isFlag (d.path.toList :: d.suffixes.map String.toList) = true := by
      rw [Grammar.isFlag, d.isPath.toIsPath, List.length_map, decide_eq_true d.length_le,
        Bool.and_self, Bool.true_and, List.all_eq_true]
      exact List.forall_mem_map.mpr fun n hn ↦ (suffixText_iff.mp (d.isSuffix n hn)).1
    rw [if_pos hflag, suffix?_eq_some_iff.mpr ⟨fun n hn ↦ ?_, rfl⟩,
      suffix?_eq_some_iff.mpr ⟨fun n hn ↦ ?_, rfl⟩]
    · rfl
    · exact d.isSuffix n (List.mem_of_getElem? hn)
    · exact d.isSuffix n (List.mem_of_getElem? hn)

end Parts

namespace Derivation

variable {d d' : Derivation}

theorem fields_text (d : Derivation) :
    Text.fields ':' d.text.toList = d.path.toList :: d.suffixes.map String.toList := by
  rw [text, Text.fields_toList_intercalate rfl (List.cons_ne_nil _ _), List.map_cons]
  exact List.forall_mem_cons.mpr ⟨d.isPath.notMem, fun n hn ↦ (d.isSuffix n hn).notMem⟩

/-- A text has at most one derivation. -/
theorem text_inj (h : d.text = d'.text) : d = d' := by
  have hfields := d.fields_text
  rw [h, d'.fields_text, ← List.map_cons, ← List.map_cons] at hfields
  have hpieces := (List.map_inj_right fun _ _ ↦ String.toList_inj.mp).mp hfields
  rw [List.cons.injEq] at hpieces
  exact Derivation.ext hpieces.1.symm hpieces.2.symm

end Derivation

theorem Parts.read?_eq_some_iff {raw : String} {parts : Parts} :
    read? raw = some parts ↔ ∃ d : Derivation, d.text = raw ∧ parts = d.parts := by
  constructor
  · intro h
    obtain ⟨path, suffixes, hfields⟩ :=
      List.exists_cons_of_ne_nil (Text.fields_ne_nil ':' raw.toList)
    have hpieces : Text.fields ':' raw.toList =
        (String.ofList path).toList :: (suffixes.map String.ofList).map String.toList := by
      simp [hfields]
    rw [read?, hpieces, ofPieces?_eq_some_iff] at h
    obtain ⟨d, hpath, hsuffixes, hparts⟩ := h
    refine ⟨d, ?_, hparts⟩
    rw [Derivation.text, hpath, hsuffixes, ← List.map_cons, ← hfields]
    exact Text.intercalate_fields_toList rfl raw
  · rintro ⟨d, rfl, rfl⟩
    rw [read?, d.fields_text, ofPieces?_eq_some_iff]
    exact ⟨d, rfl, rfl, rfl⟩

/-! ## Reading flags -/

variable {raw : String} {f : Flag}

theorem parse_eq_ok_iff : parse raw = .ok f ↔ f.raw = raw := by
  unfold parse
  constructor
  · intro h
    cases hf : ofString? raw with
    | none =>
      rw [hf] at h
      cases h
    | some g =>
      rw [hf] at h
      cases h
      exact raw_of_ofString? hf
  · rintro rfl
    rw [ofString?_raw]

theorem exists_raw_iff : (∃ f : Flag, f.raw = raw) ↔ ∃ d : Derivation, d.text = raw := by
  constructor
  · rintro ⟨f, rfl⟩
    obtain ⟨d, hd, -⟩ := Parts.read?_eq_some_iff.mp f.read_raw
    exact ⟨d, hd⟩
  · rintro ⟨d, rfl⟩
    exact ⟨{ d.parts with
      raw := d.text, read_raw := Parts.read?_eq_some_iff.mpr ⟨d, rfl, rfl⟩ }, rfl⟩

theorem parse_eq_error (h : ¬ ∃ d : Derivation, d.text = raw) :
    parse raw = .error (.grammar .flag raw) := by
  cases hf : ofString? raw with
  | none => rw [parse, hf]
  | some f => exact absurd (exists_raw_iff.mp ⟨f, raw_of_ofString? hf⟩) h

namespace Derivation

variable {d : Derivation}

theorem isWildcard_iff (hf : f.toParts = d.parts) :
    f.isWildcard = true ↔ d.path = "*" ∨ ∃ stem, d.path = stem ++ ".*" := by
  have hsegments : f.segments = (Text.fields '.' d.path.toList).map String.ofList :=
    congrArg Parts.segments hf
  have hlast : f.isWildcard = true ↔ (Text.fields '.' d.path.toList).getLast? = some ['*'] := by
    rw [isWildcard, beq_iff_eq, hsegments, List.getLast?_map, Option.map_eq_some_iff]
    constructor
    · rintro ⟨cs, hcs, h⟩
      obtain rfl : cs = ['*'] := String.ofList_injective h
      exact hcs
    · intro h
      exact ⟨_, h, rfl⟩
  rw [hlast, Text.getLast?_fields_eq_some_iff, and_iff_right (by decide)]
  constructor
  · rintro (h | ⟨stem, h⟩)
    · exact .inl (String.toList_inj.mp h)
    · refine .inr ⟨.ofList stem, String.toList_inj.mp ?_⟩
      rw [h, String.toList_append, String.toList_ofList]
      rfl
  · rintro (h | ⟨stem, h⟩)
    · exact .inl (by rw [h]; rfl)
    · exact .inr ⟨stem.toList, by rw [h, String.toList_append]; rfl⟩

/-- A suffix that is read does not wrap around. -/
theorem toNat_ofNat_elim {n : Option String} (hn : ∀ digits ∈ n, SuffixText digits) :
    (UInt64.ofNat (n.elim 0 value)).toNat = n.elim 0 value := by
  cases n with
  | none => rfl
  | some digits => exact UInt64.toNat_ofNat_of_lt' (hn digits rfl).value_lt

theorem describes (h : f.raw = d.text) : d.Describes f := by
  have hf : f.toParts = d.parts :=
    Option.some.inj (f.read_raw.symm.trans (Parts.read?_eq_some_iff.mpr ⟨d, h.symm, rfl⟩))
  have hsegments : f.segments = (Text.fields '.' d.path.toList).map String.ofList :=
    congrArg Parts.segments hf
  have hsuffix (i : Nat) : ∀ n ∈ d.suffixes[i]?, SuffixText n := fun n hn ↦
    d.isSuffix n (List.mem_of_getElem? hn)
  constructor
  case raw => exact h
  case path =>
    rw [Flag.path, h, ← Text.headD_fields, d.fields_text]
    exact String.ofList_toList
  case segments =>
    rw [hsegments]
    refine ⟨by simpa using Text.fields_ne_nil _ _, List.forall_mem_map.mpr fun s hs ↦ ?_,
      Text.intercalate_fields_toList rfl d.path⟩
    refine ⟨?_, by simpa using Text.notMem_of_mem_fields hs⟩
    rcases d.isPath.eq_wildcard_or_segment hs with rfl | hs
    · decide
    · exact hs.ne_empty
  case isWildcard_iff => exact isWildcard_iff hf
  case cooldown =>
    rw [congrArg Parts.cooldown hf]
    exact toNat_ofNat_elim (hsuffix 0)
  case limit =>
    rw [congrArg Parts.limit hf]
    exact toNat_ofNat_elim (hsuffix 1)

end Derivation

/-- How a text is read as a flag. -/
structure ParsedByGrammar (raw : String) : Prop where
  ok_iff : (∃ f, parse raw = .ok f) ↔ ∃ d : Derivation, d.text = raw
  unique {d d' : Derivation} : d.text = raw → d'.text = raw → d = d'
  describes {d : Derivation} {f : Flag} : d.text = raw → parse raw = .ok f → d.Describes f
  error : (¬ ∃ d : Derivation, d.text = raw) → parse raw = .error (.grammar .flag raw)

/-- Every text is read as the grammar says. -/
theorem parsedByGrammar (raw : String) : ParsedByGrammar raw where
  ok_iff := by
    rw [← exists_raw_iff]
    exact exists_congr fun f ↦ parse_eq_ok_iff
  unique hd hd' := Derivation.text_inj (hd.trans hd'.symm)
  describes hd hf := Derivation.describes ((parse_eq_ok_iff.mp hf).trans hd.symm)
  error := parse_eq_error

end Grants.Flag
