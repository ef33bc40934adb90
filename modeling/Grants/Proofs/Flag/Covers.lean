import Grants.Flag.Permits
import Grants.Proofs.Flag.Derivation

/-!
# Grants permit segment by segment

The segments of a flag are those of its path: words and `?`, perhaps with a `*`
at the end (`exists_segments_eq`).  A grant permits a required flag exactly if
its segments cover those of the required one (`permitsSegments_iff_covers`), and
the path `*`, which permits everything at once, is no exception
(`permits_eq_permitsSegments`).
-/

namespace Grants.Flag

/-! ## The segments of a flag -/

theorem SegmentText.ne_wildcard {s : String} (hs : SegmentText s) : s ≠ wildcard := by
  rintro rfl
  exact hs.notMem (c := '*') (by decide) (by decide) (List.mem_singleton.mpr rfl)

section Segments

variable (f : Flag)

theorem exists_describes : ∃ d : Derivation, d.Describes f := by
  obtain ⟨d, hd, -⟩ := Parts.read?_eq_some_iff.mp f.read_raw
  exact ⟨d, Derivation.describes hd.symm⟩

theorem segments_eq : f.segments = (Text.fields '.' f.path.toList).map String.ofList := by
  obtain ⟨d, hd, hparts⟩ := Parts.read?_eq_some_iff.mp f.read_raw
  rw [(Derivation.describes hd.symm).path]
  exact congrArg Parts.segments hparts

theorem segments_ne_nil : f.segments ≠ [] := by
  obtain ⟨d, hd⟩ := f.exists_describes
  exact hd.segments.1

theorem isPath_segments : Grammar.isPath (f.segments.map String.toList) = true := by
  obtain ⟨d, hd⟩ := f.exists_describes
  have hfields : f.segments.map String.toList = Text.fields '.' d.path.toList := by
    simp [segments_eq, hd.path]
  rw [hfields]
  exact d.isPath.toIsPath

/-- All segments but the last are words or `?`, and the last may also be `*`. -/
theorem exists_segments_eq :
    ∃ stem last, f.segments = stem ++ [last] ∧ (∀ s ∈ stem, SegmentText s) ∧
      (SegmentText last ∨ last = wildcard) := by
  rcases List.eq_nil_or_concat f.segments with hnil | ⟨stem, last, hsegments⟩
  · exact absurd hnil f.segments_ne_nil
  rw [List.concat_eq_append] at hsegments
  have hpath := f.isPath_segments
  rw [hsegments, List.map_append, List.map_singleton, Grammar.isPath_concat_iff] at hpath
  refine ⟨stem, last, hsegments, fun s hs ↦ isSegment_iff.mp (hpath.1 _ (List.mem_map_of_mem hs)),
    ?_⟩
  rcases hpath.2 with hlast | hlast
  · exact .inl (isSegment_iff.mp hlast)
  · exact .inr (String.toList_inj.mp hlast)

theorem notMem_dropLast_segments : wildcard ∉ f.segments.dropLast := by
  obtain ⟨stem, last, hsegments, hstem, -⟩ := f.exists_segments_eq
  rw [hsegments, List.dropLast_concat]
  intro hmem
  exact (hstem _ hmem).ne_wildcard rfl

variable {f}

theorem getLast?_segments (hf : f.isWildcard = true) : f.segments.getLast? = some wildcard :=
  beq_iff_eq.mp hf

/-- The slice before a final `*`. -/
theorem dropLast_segments_concat (hf : f.isWildcard = true) :
    f.segments.dropLast ++ [wildcard] = f.segments := by
  obtain ⟨stem, hsegments⟩ := List.getLast?_eq_some_iff.mp (getLast?_segments hf)
  rw [hsegments, List.dropLast_concat]

theorem notMem_segments (hf : f.isWildcard = false) : wildcard ∉ f.segments := by
  obtain ⟨stem, last, hsegments, hstem, hlast⟩ := f.exists_segments_eq
  rw [isWildcard, hsegments, List.getLast?_concat, beq_eq_false_iff_ne] at hf
  rw [hsegments, List.mem_append, List.mem_singleton, not_or]
  refine ⟨fun hmem ↦ (hstem _ hmem).ne_wildcard rfl, ?_⟩
  rintro rfl
  exact hf rfl

theorem segments_congr {g : Flag} (h : f.path = g.path) : f.segments = g.segments := by
  rw [segments_eq, h, ← segments_eq]

theorem path_congr {g : Flag} (h : f.segments = g.segments) : f.path = g.path := by
  rw [segments_eq, segments_eq] at h
  have hfields := (List.map_inj_right fun _ _ ↦ String.ofList_injective).mp h
  exact String.toList_inj.mp (Text.fields_inj hfields)

end Segments

/-! ## Covering -/

theorem segmentPermits_iff {g r : String} :
    segmentPermits g r = true ↔ g = anySegment ∨ g = r := by
  rw [segmentPermits, Bool.or_eq_true, beq_iff_eq, beq_iff_eq]

namespace Covers

variable {g r : String} {gs rs : List String}

theorem refl (gs : List String) : Covers gs gs := by
  induction gs with
  | nil => exact .nil
  | cons g gs ih => exact .same g ih

theorem nil_left_iff : Covers [] rs ↔ rs = [] := by
  constructor
  · intro h
    cases h
    rfl
  · rintro rfl
    exact .nil

theorem ne_nil (h : Covers (g :: gs) rs) : rs ≠ [] := by
  rintro rfl
  cases h

theorem wildcard_iff : Covers [wildcard] rs ↔ rs ≠ [] := by
  refine ⟨ne_nil, fun h ↦ ?_⟩
  obtain ⟨r, rs, rfl⟩ := List.exists_cons_of_ne_nil h
  exact .rest r rs

theorem cons_iff (h : g ≠ wildcard ∨ gs ≠ []) :
    Covers (g :: gs) (r :: rs) ↔ segmentPermits g r = true ∧ Covers gs rs := by
  rw [segmentPermits_iff]
  constructor
  · intro hc
    cases hc with
    | rest => simp at h
    | any _ hc => exact ⟨.inl rfl, hc⟩
    | same _ hc => exact ⟨.inr rfl, hc⟩
  · rintro ⟨rfl | rfl, hc⟩
    · exact .any r hc
    · exact .same g hc

/-- Without a `*`, covering compares as many segments as there are on either side. -/
theorem iff_of_notMem (h : wildcard ∉ gs) :
    Covers gs rs ↔ gs.length = rs.length ∧ segmentsPermit gs rs = true := by
  induction gs generalizing rs with
  | nil =>
    rw [nil_left_iff]
    cases rs <;> simp [segmentsPermit]
  | cons g gs ih =>
    rw [List.mem_cons, not_or] at h
    cases rs with
    | nil => simpa using fun hc ↦ ne_nil hc rfl
    | cons r rs =>
      rw [cons_iff (.inl (Ne.symm h.1)), ih h.2]
      simp [segmentsPermit, and_left_comm]

/-- A final `*` covers what is left when the stem before it has been compared. -/
theorem concat_wildcard_iff {stem : List String} :
    Covers (stem ++ [wildcard]) rs ↔
      stem.length < rs.length ∧ segmentsPermit stem rs = true := by
  induction stem generalizing rs with
  | nil =>
    rw [List.nil_append, wildcard_iff]
    simp [segmentsPermit, List.length_pos_iff]
  | cons g stem ih =>
    rw [List.cons_append]
    cases rs with
    | nil => simpa using fun hc ↦ ne_nil hc rfl
    | cons r rs =>
      rw [cons_iff (.inr (by simp)), ih]
      simp [segmentsPermit, and_left_comm]

end Covers

/-! ## Permitting -/

variable {g h : Flag}

/-- The rule for segments, which makes no exception for the path `*`. -/
def permitsSegments (granted required : Flag) : Bool :=
  if granted.isWildcard then
    let stem := granted.segments.dropLast
    decide (stem.length < required.segments.length) && segmentsPermit stem required.segments
  else
    decide (granted.segments.length = required.segments.length) &&
      segmentsPermit granted.segments required.segments

theorem permitsSegments_iff_covers :
    g.permitsSegments h = true ↔ Covers g.segments h.segments := by
  unfold permitsSegments
  cases hg : g.isWildcard with
  | true =>
    rw [← dropLast_segments_concat hg, Covers.concat_wildcard_iff]
    simp
  | false =>
    rw [Covers.iff_of_notMem (notMem_segments hg)]
    simp

/-- The path `*` covers every path. -/
theorem permits_eq_permitsSegments (g h : Flag) : g.permits h = g.permitsSegments h := by
  by_cases hpath : g.path = wildcard
  · have hsegments : g.segments = [wildcard] := by
      rw [segments_eq, hpath]
      rfl
    have hcovers : g.permitsSegments h = true := by
      rw [permitsSegments_iff_covers, hsegments, Covers.wildcard_iff]
      exact h.segments_ne_nil
    rw [hcovers, permits, if_pos (beq_iff_eq.mpr hpath)]
  · rw [permits, if_neg (fun heq ↦ hpath (beq_iff_eq.mp heq))]
    rfl

theorem permits_iff_covers : g.permits h = true ↔ Covers g.segments h.segments := by
  rw [permits_eq_permitsSegments, permitsSegments_iff_covers]

theorem permits_congr {g' h' : Flag} (hg : g'.path = g.path) (hh : h'.path = h.path) :
    g'.permits h' = g.permits h := by
  rw [Bool.eq_iff_iff, permits_iff_covers, permits_iff_covers, segments_congr hg,
    segments_congr hh]

/-- What decides whether a grant permits a required flag. -/
structure PermitsBySegments (granted required : Flag) : Prop where
  iff_covers : granted.permits required = true ↔ Covers granted.segments required.segments
  /-- Cooldowns and limits do not count. -/
  congr {granted' required' : Flag} : granted'.path = granted.path →
    required'.path = required.path → granted'.permits required' = granted.permits required
  /-- The path `*` is no exception. -/
  eq_permitsSegments : granted.permits required = granted.permitsSegments required
  /-- There is a last segment, and the slice before it leaves out no more than a final `*`. -/
  slice : 0 < granted.segments.length ∧
    (granted.isWildcard = true → granted.segments.dropLast ++ [wildcard] = granted.segments)

/-- A grant permits what its segments cover. -/
theorem permitsBySegments (granted required : Flag) : PermitsBySegments granted required where
  iff_covers := permits_iff_covers
  congr := permits_congr
  eq_permitsSegments := permits_eq_permitsSegments granted required
  slice := ⟨List.length_pos_iff.mpr granted.segments_ne_nil, dropLast_segments_concat⟩

end Grants.Flag
