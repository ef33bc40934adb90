import Grants.Numeral
import Grants.Text

/-!
# The grammars of flags and identifiers

A flag is a path with up to two numeric suffixes, `path`, `path:n` or
`path:n:m`.  A path is `*`, or segments joined by dots and optionally followed
by `.*`; a segment is a word of lower-case letters and digits, or `?`.  A strict
flag is a path of words.
-/

namespace Grants

inductive Grammar
  | flag
  | strictFlag
  | objectId
  | discordId
  deriving DecidableEq, Repr

namespace Grammar

def isWordChar (c : Char) : Bool := c.isLower || c.isDigit

def isWord (s : List Char) : Bool := !s.isEmpty && s.all isWordChar

def isSegment (s : List Char) : Bool := isWord s || s == ['?']

/-- Segments, the last of which may be `*`. -/
def isPath : List (List Char) → Bool
  | [] => false
  | [s] => isSegment s || s == ['*']
  | s :: ss => isSegment s && isPath ss

/-- A path and at most two numerals, given as the pieces of a text at its colons. -/
def isFlag : List (List Char) → Bool
  | [] => false
  | path :: suffixes =>
    isPath (Text.fields '.' path) && decide (suffixes.length ≤ 2) &&
      suffixes.all Numeral.isNumeral

def isHexChar (c : Char) : Bool := c.isDigit || decide ('a' ≤ c ∧ c ≤ 'f')

def acceptsChars : Grammar → List Char → Bool
  | flag, cs => isFlag (Text.fields ':' cs)
  | strictFlag, cs => (Text.fields '.' cs).all isWord
  | objectId, cs => decide (cs.length = 24) && cs.all isHexChar
  | discordId, cs => decide (16 ≤ cs.length ∧ cs.length ≤ 20) && cs.all Char.isDigit

def accepts (g : Grammar) (text : String) : Bool := g.acceptsChars text.toList

theorem isPath_concat_iff {init : List (List Char)} {last : List Char} :
    isPath (init ++ [last]) = true ↔
      (∀ s ∈ init, isSegment s = true) ∧ (isSegment last = true ∨ last = ['*']) := by
  induction init with
  | nil => simp [isPath]
  | cons s init ih =>
    obtain ⟨t, ts, ht⟩ := List.exists_cons_of_ne_nil (l := init ++ [last]) (by simp)
    rw [ht] at ih
    rw [List.cons_append, ht, isPath, Bool.and_eq_true, ih, List.forall_mem_cons, and_assoc]
    simp

theorem isPath_of_forall_isSegment {ss : List (List Char)} (hne : ss ≠ [])
    (h : ∀ s ∈ ss, isSegment s = true) : isPath ss = true := by
  rcases List.eq_nil_or_concat ss with hnil | ⟨init, last, hss⟩
  · exact absurd hnil hne
  · rw [List.concat_eq_append] at hss
    rw [hss, List.forall_mem_append] at h
    rw [hss, isPath_concat_iff]
    exact ⟨h.1, .inl (h.2 last List.mem_cons_self)⟩

/-- Words are segments, so a list of words is a path. -/
theorem isPath_of_all_isWord {ss : List (List Char)} (hne : ss ≠ []) (h : ss.all isWord = true) :
    isPath ss = true := by
  refine isPath_of_forall_isSegment hne fun s hs ↦ ?_
  rw [isSegment, List.all_eq_true.mp h s hs, Bool.true_or]

/-- A character that is neither a dot nor a word character does not occur in a strict flag. -/
theorem notMem_of_strict {sep c : Char} (hc : isWordChar c = false) (hs : c ≠ sep) :
    ∀ {cs : List Char}, (Text.fields sep cs).all isWord = true → c ∉ cs := by
  intro cs
  suffices ∀ cs, (∀ s ∈ Text.fields sep cs, s.all isWordChar) → c ∉ cs by
    intro h
    refine this cs fun s hs ↦ ?_
    have := List.all_eq_true.mp h s hs
    rw [isWord, Bool.and_eq_true] at this
    exact this.2
  intro cs
  induction cs with
  | nil => simp
  | cons d ds ih =>
    intro h
    rw [List.mem_cons, not_or]
    by_cases hd : d = sep
    · rw [Text.fields, if_pos hd] at h
      exact ⟨hd ▸ hs, ih fun s hs ↦ h s (by simp [hs])⟩
    · rw [Text.fields, if_neg hd] at h
      obtain ⟨f, fs, hf⟩ := List.exists_cons_of_ne_nil (Text.fields_ne_nil sep ds)
      rw [hf] at h ih
      have hhead := h (d :: f) (by simp)
      rw [List.all_cons, Bool.and_eq_true] at hhead
      refine ⟨fun hcd ↦ ?_, ih fun s hs ↦ ?_⟩
      · rw [← hcd, hc] at hhead
        exact Bool.false_ne_true hhead.1
      · rcases List.mem_cons.mp hs with rfl | hs
        · exact hhead.2
        · exact h s (by simp [hs])

end Grammar

end Grants
