import Grants.Proofs.Flag.Covers
import Mathlib.Data.Set.Finite.Basic

/-!
# Grants that include one another

A grant includes another if it permits every flag without wildcards that the
other permits.  This is decided by the two grants alone: `g` includes `h` exactly
if it permits `h`, whose wildcards are then taken literally, and ends in `*` if
`h` does (`includes_iff`).

What `h` permits is explored by a flag that has a word in place of each of its
wildcards.  If `g` does not have the word as a segment, covering this flag takes
a wildcard of `g` for each wildcard of `h` (`Covers.of_map_named`).
-/

namespace Grants

/-- Words are the segments of a strict flag. -/
theorem StrictFlag.exists_segments_eq {ws : List String} (hne : ws ≠ [])
    (hws : ∀ w ∈ ws, Grammar.isWord w.toList = true) : ∃ k : StrictFlag, k.segments = ws := by
  have hfields : Text.fields '.' (".".intercalate ws).toList = ws.map String.toList := by
    refine Flag.fields_intercalate_segments hne fun w hw ↦ Flag.isSegment_iff.mp ?_
    rw [Grammar.isSegment, hws w hw, Bool.true_or]
  refine ⟨⟨".".intercalate ws, ?_⟩, ?_⟩
  · change (Text.fields '.' (".".intercalate ws).toList).all Grammar.isWord = true
    rw [hfields, List.all_map, List.all_eq_true]
    exact hws
  · rw [segments, hfields]
    simp

namespace Flag

variable {g h r : Flag} {gs hs rs : List String} {w : String}

/-- Every flag without wildcards that `h` permits is permitted by `g`. -/
def Includes (g h : Flag) : Prop :=
  ∀ c : Flag, c.hasWildcards = false → h.permits c = true → g.permits c = true

/-! ## Words in place of wildcards -/

theorem isConcrete_iff {s : String} : isConcrete s = true ↔ s ≠ anySegment ∧ s ≠ wildcard := by
  rw [isConcrete, Bool.and_eq_true, bne_iff_ne, bne_iff_ne]

theorem isConcrete_eq_false_iff {s : String} :
    isConcrete s = false ↔ s = anySegment ∨ s = wildcard := by
  simp [isConcrete, or_iff_not_imp_left]

theorem isConcrete_of_isWord {s : String} (hs : Grammar.isWord s.toList = true) :
    isConcrete s = true := by
  rw [isConcrete_iff]
  constructor
  · rintro rfl
    exact absurd hs (by decide)
  · rintro rfl
    exact absurd hs (by decide)

theorem SegmentText.isWord {s : String} (hs : SegmentText s) (hne : s ≠ anySegment) :
    Grammar.isWord s.toList = true := by
  have hsegment := isSegment_iff.mpr hs
  rw [Grammar.isSegment, Bool.or_eq_true, beq_iff_eq] at hsegment
  exact hsegment.resolve_right fun heq ↦ hne (String.toList_inj.mp heq)

/-- A segment of a flag that is not a wildcard is a word. -/
theorem isWord_of_mem_segments {s : String} (hs : s ∈ h.segments) (hc : isConcrete s = true) :
    Grammar.isWord s.toList = true := by
  rw [isConcrete_iff] at hc
  obtain ⟨stem, last, hsegments, hstem, hlast⟩ := h.exists_segments_eq
  rw [hsegments, List.mem_append, List.mem_singleton] at hs
  rcases hs with hs | rfl
  · exact (hstem s hs).isWord hc.1
  · exact (hlast.resolve_right hc.2).isWord hc.1

def longWord (n : ℕ) : String := .ofList (List.replicate (n + 1) 'a')

theorem isWord_longWord (n : ℕ) : Grammar.isWord (longWord n).toList = true := by
  rw [longWord, String.toList_ofList, Grammar.isWord, Bool.and_eq_true, List.all_eq_true]
  refine ⟨rfl, fun c hc ↦ ?_⟩
  rw [List.eq_of_mem_replicate hc]
  rfl

theorem longWord_injective : Function.Injective longWord := by
  intro m n hmn
  have hlength := congrArg List.length (String.ofList_injective hmn)
  simpa using hlength

/-- There are more words than segments in any list. -/
theorem exists_word_notMem (ss : List String) :
    ∃ w : String, Grammar.isWord w.toList = true ∧ w ∉ ss := by
  obtain ⟨_, ⟨n, rfl⟩, hn⟩ :=
    (Set.infinite_range_of_injective longWord_injective).exists_notMem_finset ss.toFinset
  exact ⟨longWord n, isWord_longWord n, by simpa using hn⟩

/-- A segment, or a word in place of a wildcard. -/
def named (w s : String) : String := if isConcrete s then s else w

theorem isWord_named (hw : Grammar.isWord w.toList = true) {s : String} (hs : s ∈ h.segments) :
    Grammar.isWord (named w s).toList = true := by
  unfold named
  split
  · next hc => exact isWord_of_mem_segments hs hc
  · exact hw

/-- A flag with a word in place of every wildcard of `h`, and perhaps more words after it. -/
theorem exists_named (h : Flag) (hw : Grammar.isWord w.toList = true) (n : ℕ) :
    ∃ c : Flag, c.hasWildcards = false ∧
      c.segments = h.segments.map (named w) ++ List.replicate n w := by
  have hwords : ∀ s ∈ h.segments.map (named w) ++ List.replicate n w,
      Grammar.isWord s.toList = true := by
    rw [List.forall_mem_append, List.forall_mem_map]
    refine ⟨fun s hs ↦ isWord_named hw hs, fun s hs ↦ ?_⟩
    rwa [List.eq_of_mem_replicate hs]
  obtain ⟨k, hk⟩ := StrictFlag.exists_segments_eq (by simp [h.segments_ne_nil]) hwords
  refine ⟨k.toFlag, ?_, hk⟩
  rw [hasWildcards, Bool.not_eq_false', List.all_eq_true]
  intro s hs
  exact isConcrete_of_isWord (hwords s (hk ▸ hs))

/-! ## Covering with wildcards on both sides -/

theorem getLast?_cons_eq_wildcard_iff {s : String} {ss : List String} :
    (s :: ss).getLast? = some wildcard ↔ ss = [] ∧ s = wildcard ∨ ss.getLast? = some wildcard := by
  cases ss with
  | nil => simp
  | cons t ss => simp [List.getLast?_cons_cons]

namespace Covers

/-- Words may take the place of wildcards. -/
theorem map_named (hhs : wildcard ∉ hs.dropLast) (w : String) : Covers hs (hs.map (named w)) := by
  induction hs with
  | nil => exact .nil
  | cons s hs ih =>
    have htail : wildcard ∉ hs.dropLast := by
      cases hs with
      | nil => simp
      | cons t hs => exact fun hmem ↦ hhs (List.mem_cons_of_mem s hmem)
    rw [List.map_cons, named]
    cases hc : isConcrete s with
    | true => exact .same s (ih htail)
    | false =>
      rcases isConcrete_eq_false_iff.mp hc with rfl | rfl
      · exact .any w (ih htail)
      · -- a `*` is the last segment, and so has no more than the word to cover
        cases hs with
        | nil => exact .rest w []
        | cons t hs => exact absurd List.mem_cons_self hhs

/-- Words that `gs` does not have are covered by wildcards, which cover as well what the words
stand for. -/
theorem of_map_named (hw : w ∉ gs) (hc : Covers gs (hs.map (named w))) : Covers gs hs := by
  induction hs generalizing gs with
  | nil => exact hc
  | cons s hs ih =>
    rw [List.map_cons] at hc
    generalize hname : named w s = s' at hc
    cases hc with
    | rest => exact .rest s hs
    | any _ hc => exact .any s (ih (fun hmem ↦ hw (List.mem_cons_of_mem _ hmem)) hc)
    | same _ hc =>
      rw [List.mem_cons, not_or] at hw
      have heq : s' = s := by
        rw [named] at hname
        split at hname
        · exact hname.symm
        · exact absurd hname hw.1
      rw [heq]
      exact .same s (ih hw.2 hc)

/-- After a final `*` there is room for more segments. -/
theorem append (hc : Covers gs rs) (hopen : gs.getLast? = some wildcard) (ts : List String) :
    Covers gs (rs ++ ts) := by
  induction hc with
  | nil => cases hopen
  | rest r rs => exact .rest r (rs ++ ts)
  | any r _ ih =>
    rcases getLast?_cons_eq_wildcard_iff.mp hopen with ⟨-, hany⟩ | hopen
    · exact absurd hany (by decide)
    · exact .any r (ih hopen)
  | same s _ ih =>
    rcases getLast?_cons_eq_wildcard_iff.mp hopen with ⟨rfl, rfl⟩ | hopen
    · exact .rest wildcard _
    · exact .same s (ih hopen)

/-- That `gs` ends in `*` if `hs` does passes to what comes after their first segments. -/
theorem getLast?_tail {s t : String} (hc : Covers gs hs)
    (hopen : (t :: hs).getLast? = some wildcard → (s :: gs).getLast? = some wildcard)
    (hlast : hs.getLast? = some wildcard) : gs.getLast? = some wildcard := by
  have hcons := hopen (getLast?_cons_eq_wildcard_iff.mpr (.inr hlast))
  rcases getLast?_cons_eq_wildcard_iff.mp hcons with ⟨rfl, -⟩ | hgs
  · rw [nil_left_iff.mp hc] at hlast
    cases hlast
  · exact hgs

theorem trans (hgh : Covers gs hs) (hhr : Covers hs rs)
    (hopen : hs.getLast? = some wildcard → gs.getLast? = some wildcard) : Covers gs rs := by
  induction hgh generalizing rs with
  | nil => exact hhr
  | rest => exact wildcard_iff.mpr hhr.ne_nil
  | any r hc ih =>
    have hopen' := hc.getLast?_tail hopen
    cases hhr with
    | rest r rs =>
      -- the `?` would be all that covers a final `*`
      cases hc
      exact absurd (hopen rfl) (by decide)
    | any r hhr => exact .any r (ih hhr hopen')
    | same _ hhr => exact .any _ (ih hhr hopen')
  | same s hc ih =>
    have hopen' := hc.getLast?_tail hopen
    cases hhr with
    | rest r rs =>
      cases hc
      exact .rest r rs
    | any r hhr => exact .any r (ih hhr hopen')
    | same _ hhr => exact .same s (ih hhr hopen')

end Covers

/-! ## Including -/

theorem permits_trans (hgh : g.permits h = true) (hhr : h.permits r = true)
    (hopen : h.isWildcard = true → g.isWildcard = true) : g.permits r = true := by
  rw [permits_iff_covers] at hgh hhr ⊢
  refine hgh.trans hhr fun hlast ↦ getLast?_segments (hopen ?_)
  exact beq_iff_eq.mpr hlast

namespace Includes

theorem permits (hgh : g.Includes h) : g.permits h = true := by
  obtain ⟨w, hw, hfresh⟩ := exists_word_notMem g.segments
  obtain ⟨c, hc, hsegments⟩ := h.exists_named hw 0
  rw [List.replicate_zero, List.append_nil] at hsegments
  have hpermits : h.permits c = true := by
    rw [permits_iff_covers, hsegments]
    exact .map_named h.notMem_dropLast_segments w
  have hcovers := permits_iff_covers.mp (hgh c hc hpermits)
  rw [hsegments] at hcovers
  exact permits_iff_covers.mpr (hcovers.of_map_named hfresh)

/-- What permits flags of many lengths is included only in what does. -/
theorem isWildcard (hgh : g.Includes h) (hh : h.isWildcard = true) : g.isWildcard = true := by
  rw [← Bool.not_eq_false]
  intro hg
  -- without a final `*`, the length of `g` is that of every flag that `h` permits
  have hlength (n : ℕ) : g.segments.length = h.segments.length + n := by
    obtain ⟨c, hc, hsegments⟩ := h.exists_named (isWord_longWord 0) n
    have hcovers : Covers h.segments c.segments := by
      rw [hsegments]
      exact (Covers.map_named h.notMem_dropLast_segments _).append (getLast?_segments hh) _
    have hpermits := permits_iff_covers.mp (hgh c hc (permits_iff_covers.mpr hcovers))
    have hlen := ((Covers.iff_of_notMem (notMem_segments hg)).mp hpermits).1
    simpa [hsegments] using hlen
  have hzero := hlength 0
  have hone := hlength 1
  omega

end Includes

theorem includes_iff :
    g.Includes h ↔ g.permits h = true ∧ (h.isWildcard = true → g.isWildcard = true) := by
  constructor
  · intro hgh
    exact ⟨hgh.permits, hgh.isWildcard⟩
  · rintro ⟨hgh, hopen⟩ c - hc
    exact permits_trans hgh hc hopen

/-- `g` includes `h` exactly if it permits `h` and ends in `*` if `h` does.  Under the second of
these conditions, permitting is transitive for all flags, with wildcards or without. -/
theorem permits_decides_inclusion (g h : Flag) :
    (g.Includes h ↔ g.permits h = true ∧ (h.isWildcard = true → g.isWildcard = true)) ∧
    ((h.isWildcard = true → g.isWildcard = true) → ∀ r : Flag,
      g.permits h = true → h.permits r = true → g.permits r = true) := by
  constructor
  · exact includes_iff
  · intro hopen r hgh hhr
    exact permits_trans hgh hhr hopen

/-- The literal `*` is one segment, which `?` permits, but it stands for more than one. -/
example : ∃ g h : Flag, g.permits h = true ∧ ¬ g.Includes h := by
  refine ⟨⟨⟨["a", "?"], 0, 0⟩, "a.?", by decide⟩, ⟨⟨["a", "*"], 0, 0⟩, "a.*", by decide⟩, ?_⟩
  rw [includes_iff]
  decide

end Flag

end Grants
