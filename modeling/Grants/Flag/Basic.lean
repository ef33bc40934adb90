import Grants.Grammar

/-!
# Flags

A flag is a text of the flag grammar together with what the text says: the
segments of its path, a cooldown in seconds and a usage limit, both 0 when
absent.  The parts are a function of the text, so flags are equal as soon as
their texts are.
-/

namespace Grants

/-- What the text of a flag says. -/
structure Flag.Parts where
  segments : List String
  cooldown : UInt64
  limit : UInt64
  deriving DecidableEq, Repr

namespace Flag

/-- A suffix that is left out counts as 0. -/
def suffix? : Option (List Char) → Option UInt64
  | none => some 0
  | some digits => Numeral.word? digits

def Parts.ofPieces? (pieces : List (List Char)) : Option Parts :=
  if Grammar.isFlag pieces then do
    let cooldown ← suffix? pieces[1]?
    let limit ← suffix? pieces[2]?
    some ⟨(Text.fields '.' (pieces.headD [])).map String.ofList, cooldown, limit⟩
  else none

/-- The parts of a text of the grammar whose suffixes fit in 64 bits. -/
def Parts.read? (raw : String) : Option Parts := ofPieces? (Text.fields ':' raw.toList)

end Flag

structure Flag extends Flag.Parts where
  raw : String
  read_raw : Flag.Parts.read? raw = some toParts

namespace Flag

theorem ext_raw {f g : Flag} (h : f.raw = g.raw) : f = g := by
  obtain ⟨p, raw, hp⟩ := f
  obtain ⟨q, _, hq⟩ := g
  cases h
  cases hp.symm.trans hq
  rfl

instance : DecidableEq Flag := fun f g ↦
  if h : f.raw = g.raw then .isTrue (ext_raw h)
  else .isFalse fun hfg ↦ h (congrArg Flag.raw hfg)

instance : Ord Flag := ⟨compareOn Flag.raw⟩

instance : Std.TransOrd Flag := inferInstanceAs (Std.TransCmp (compareOn Flag.raw))

instance : Std.LawfulEqOrd Flag where
  eq_of_compare h := ext_raw (Std.LawfulEqOrd.eq_of_compare (α := String) h)

/-- The text before the suffixes. -/
def path (f : Flag) : String := .ofList (f.raw.toList.takeWhile (· ≠ ':'))

/-- The segment that stands for any one segment. -/
def anySegment : String := "?"

/-- The last segment that stands for one or more segments. -/
def wildcard : String := "*"

def isWildcard (f : Flag) : Bool := f.segments.getLast? == some wildcard

def isConcrete (segment : String) : Bool := segment != anySegment && segment != wildcard

def hasWildcards (f : Flag) : Bool := !f.segments.all isConcrete

def hasCooldown (f : Flag) : Bool := decide (0 < f.cooldown)

def hasLimit (f : Flag) : Bool := decide (0 < f.limit)

def ofString? (raw : String) : Option Flag :=
  match h : Parts.read? raw with
  | some parts => some { parts with raw, read_raw := h }
  | none => none

/-- A flag is read back from its text. -/
@[simp] theorem ofString?_raw (f : Flag) : ofString? f.raw = some f := by
  unfold ofString?
  split
  · next h => exact congrArg some (ext_raw rfl)
  · next h => exact absurd (f.read_raw.symm.trans h) (by simp)

theorem raw_of_ofString? {raw : String} {f : Flag} (h : ofString? raw = some f) : f.raw = raw := by
  unfold ofString? at h
  split at h
  · exact congrArg Flag.raw (Option.some.inj h).symm
  · simp at h

theorem ofString?_eq_some_iff {raw : String} {f : Flag} : ofString? raw = some f ↔ f.raw = raw := by
  constructor
  · exact raw_of_ofString?
  · rintro rfl
    exact f.ofString?_raw

end Flag

/-- A flag without wildcards and suffixes. -/
structure StrictFlag where
  raw : String
  accepted : Grammar.strictFlag.accepts raw = true
  deriving DecidableEq

namespace StrictFlag

def segments (k : StrictFlag) : List String := (Text.fields '.' k.raw.toList).map String.ofList

def ofString? (raw : String) : Option StrictFlag :=
  if h : Grammar.strictFlag.accepts raw = true then some ⟨raw, h⟩ else none

theorem read?_raw (k : StrictFlag) : Flag.Parts.read? k.raw = some ⟨k.segments, 0, 0⟩ := by
  have h : (Text.fields '.' k.raw.toList).all Grammar.isWord = true := k.accepted
  have hpath := Grammar.isPath_of_all_isWord (Text.fields_ne_nil _ _) h
  have hcolon := Grammar.notMem_of_strict (c := ':') (by decide) (by decide) h
  simp [Flag.Parts.read?, Flag.Parts.ofPieces?, Text.fields_of_notMem hcolon, Grammar.isFlag, hpath,
    Flag.suffix?, segments]

/-- The same path as a flag, without cooldown and limit. -/
def toFlag (k : StrictFlag) : Flag where
  segments := k.segments
  cooldown := 0
  limit := 0
  raw := k.raw
  read_raw := k.read?_raw

instance : Ord StrictFlag := ⟨compareOn StrictFlag.raw⟩

end StrictFlag

end Grants
