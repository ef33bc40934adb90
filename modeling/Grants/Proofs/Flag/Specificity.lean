import Grants.Proofs.Flag.BestMatch
import Grants.Proofs.Flag.Includes
import Mathlib.Data.List.TakeWhile

/-!
# Narrower grants rank higher

The concrete leading segments of a grant are leading segments of every flag that
it permits (`Covers.takeWhile_isPrefix`).  So a grant that includes another does not
outrank it (`Includes.rank_le`), and comes first if it answers in place of the
other (`narrower_not_outranked`).  A flag without wildcards is outranked by no
grant that permits it, and those of its rank have its path (`path_eq_of_rank_eq`),
so the first of these answers (`first_exact_answers`).
-/

namespace Grants.Flag

variable {g h r f b : Flag} {gs rs : List String} {granted : List Flag}

/-! ## Concrete leading segments -/

/-- What is concrete at the head of a covering path is taken over by the covered one. -/
theorem Covers.takeWhile_isPrefix (hc : Covers gs rs) :
    gs.takeWhile isConcrete <+: rs.takeWhile isConcrete := by
  induction hc with
  | nil => exact List.prefix_rfl
  | rest r rs => exact List.nil_prefix
  | any r hc ih => exact List.nil_prefix
  | @same s gs rs hc ih =>
    cases hs : isConcrete s with
    | true =>
      rw [List.takeWhile_cons_of_pos hs, List.takeWhile_cons_of_pos hs, List.prefix_cons_inj]
      exact ih
    | false =>
      rw [List.takeWhile_cons_of_neg (Bool.eq_false_iff.mp hs)]
      exact List.nil_prefix

theorem specificity_le_of_permits (hgh : g.permits h = true) : g.specificity ≤ h.specificity :=
  (permits_iff_covers.mp hgh).takeWhile_isPrefix.length_le

/-- Ranks that compare in both respects. -/
theorem Rank.le_of_le {a c : Rank} (hs : a.specificity ≤ c.specificity) (he : a.exact ≤ c.exact) :
    a ≤ c := Prod.Lex.toLex_mono ⟨hs, he⟩

/-! ## Inclusion -/

theorem Includes.rank_le (hgh : g.Includes h) : g.rank ≤ h.rank := by
  refine Rank.le_of_le (specificity_le_of_permits hgh.permits) ?_
  change (!g.isWildcard) ≤ (!h.isWildcard)
  cases hh : h.isWildcard with
  | true =>
    rw [hgh.isWildcard hh]
  | false => exact Bool.le_true _

/-- The answer comes before all other grants of its rank. -/
theorem Answers.idxOf_le (hb : Answers granted r b) (hf : f ∈ granted)
    (hpermits : f.permits r = true) (hrank : f.rank = b.rank) :
    granted.idxOf b ≤ granted.idxOf f := by
  obtain ⟨before, after, rfl, hbefore⟩ := hb.first
  have hfb : f ∉ before := fun hmem ↦ (rank_lt_iff.mpr (hbefore f hmem hpermits)).ne hrank
  have hbb : b ∉ before := fun hmem ↦ (hbefore b hmem hb.permits).ne rfl
  rw [List.idxOf_append_of_notMem hfb, List.idxOf_append_of_notMem hbb, List.idxOf_cons_self]
  omega

/-- A grant that includes another is no more specific, is exact only if the other is, and does not
outrank it.  If it answers a required flag that the other one permits too, they have one rank and it
comes first. -/
theorem narrower_not_outranked (hgh : g.Includes h) :
    g.specificity ≤ h.specificity ∧ (h.isWildcard = true → g.isWildcard = true) ∧
    g.rank ≤ h.rank ∧
    ∀ (s : FlagSet) (required : Flag), s.bestMatch required = some g → h ∈ s.flags →
      h.permits required = true →
        h.rank = g.rank ∧ s.flags.idxOf g ≤ s.flags.idxOf h := by
  refine ⟨specificity_le_of_permits hgh.permits, hgh.isWildcard, hgh.rank_le, ?_⟩
  intro s required hbest hmem hpermits
  have hanswers : Answers s.flags required g := bestMatch_eq_some_iff.mp hbest
  have hrank : h.rank = g.rank := le_antisymm (hanswers.rank_le h hmem hpermits) hgh.rank_le
  exact ⟨hrank, hanswers.idxOf_le hmem hpermits hrank⟩

/-- Neither of two grants has a concrete segment at its head, so the broader one answers if it comes
first. -/
theorem narrower_not_outranked_of_equal_rank :
    ∃ (g h required : Flag) (s : FlagSet), g.Includes h ∧ ¬ h.Includes g ∧
      s.bestMatch required = some g ∧ h ∈ s.flags ∧ h.permits required = true ∧
      g.specificity ≤ h.specificity ∧ h.rank = g.rank ∧
      s.flags.idxOf g ≤ s.flags.idxOf h := by
  let g : Flag := ⟨⟨["?", "*"], 0, 0⟩, "?.*", by decide⟩
  let h : Flag := ⟨⟨["?", "?", "*"], 60, 0⟩, "?.?.*:60", by decide⟩
  let required : Flag := ⟨⟨["a", "b", "c"], 0, 0⟩, "a.b.c", by decide⟩
  have hgh : g.Includes h := includes_iff.mpr (by decide)
  have hhg : ¬ h.Includes g := fun hhg ↦ absurd (includes_iff.mp hhg) (by decide)
  have hbest : (FlagSet.ofList [g, h]).bestMatch required = some g := by decide +kernel
  have hmem : h ∈ (FlagSet.ofList [g, h]).flags := by decide +kernel
  have hpermits : h.permits required = true := by decide
  obtain ⟨hspecificity, -, -, hfirst⟩ := narrower_not_outranked hgh
  obtain ⟨hrank, hidx⟩ := hfirst _ _ hbest hmem hpermits
  exact ⟨g, h, required, .ofList [g, h], hgh, hhg, hbest, hmem, hpermits, hspecificity, hrank, hidx⟩

/-! ## Flags without wildcards -/

theorem rank_congr (hpath : f.path = g.path) : f.rank = g.rank := by
  rw [rank, rank, specificity, specificity, isWildcard, isWildcard, segments_congr hpath]

theorem permits_of_path_eq (hpath : f.path = r.path) : f.permits r = true := by
  rw [permits_iff_covers, segments_congr hpath]
  exact .refl r.segments

section Concrete

variable (hr : r.hasWildcards = false)
include hr

theorem isConcrete_of_mem {s : String} (hs : s ∈ r.segments) : isConcrete s = true := by
  rw [hasWildcards, Bool.not_eq_false', List.all_eq_true] at hr
  exact hr s hs

theorem takeWhile_segments : r.segments.takeWhile isConcrete = r.segments :=
  List.takeWhile_eq_self_iff.mpr fun _ ↦ isConcrete_of_mem hr

theorem isWildcard_eq_false : r.isWildcard = false := by
  rw [isWildcard, beq_eq_false_iff_ne]
  intro hlast
  exact absurd (isConcrete_of_mem hr (List.mem_of_getLast? hlast)) (by decide)

theorem exact_rank : r.rank.exact = true := by
  change (!r.isWildcard) = true
  rw [isWildcard_eq_false hr]
  rfl

/-- No grant that permits a flag without wildcards outranks it. -/
theorem rank_le_of_permits (hpermits : f.permits r = true) : f.rank ≤ r.rank := by
  refine Rank.le_of_le (specificity_le_of_permits hpermits) ?_
  rw [exact_rank hr]
  exact Bool.le_true _

theorem path_eq_of_rank_eq (hpermits : f.permits r = true) (hrank : f.rank = r.rank) :
    f.path = r.path := by
  have hcovers := permits_iff_covers.mp hpermits
  have hwild : f.isWildcard = false := by
    have hf : (!f.isWildcard) = true := (congrArg Rank.exact hrank).trans (exact_rank hr)
    rwa [Bool.not_eq_true'] at hf
  have hlead : f.segments.takeWhile isConcrete = r.segments := by
    rw [← takeWhile_segments hr]
    exact hcovers.takeWhile_isPrefix.eq_of_length (congrArg Rank.specificity hrank)
  -- There are no segments after these, since the two paths have one length.
  have hlength := ((Covers.iff_of_notMem (notMem_segments hwild)).mp hcovers).1
  have hinit : f.segments.takeWhile isConcrete <+: f.segments := List.takeWhile_prefix _
  have hall := hinit.eq_of_length (by rw [hlead, hlength])
  exact path_congr (hall.symm.trans hlead)

theorem rank_lt_of_permits (hpermits : f.permits r = true) (hpath : f.path ≠ r.path) :
    f.rank < r.rank :=
  lt_of_le_of_ne (rank_le_of_permits hr hpermits) fun hrank ↦
    hpath (path_eq_of_rank_eq hr hpermits hrank)

/-- A required flag without wildcards is answered by the first grant of its path, if there is any,
whatever the other grants are. -/
theorem first_exact_answers (s : FlagSet) (hexact : ∃ f ∈ s.flags, f.path = r.path) :
    ∃ b, s.flags.find? (fun f ↦ f.path == r.path) = some b ∧ s.bestMatch r = some b := by
  have hfound : (s.flags.find? fun f ↦ f.path == r.path).isSome := by
    rw [List.find?_isSome]
    simpa using hexact
  obtain ⟨b, hb⟩ := Option.isSome_iff_exists.mp hfound
  refine ⟨b, hb, bestMatch_eq_some_iff.mpr ?_⟩
  obtain ⟨hpath, before, after, hflags, hbefore⟩ := List.find?_eq_some_iff_append.mp hb
  rw [beq_iff_eq] at hpath
  refine ⟨permits_of_path_eq hpath, fun f _ hpermits ↦ rank_le_iff.mp ?_, before, after, hflags,
    fun f hf hpermits ↦ rank_lt_iff.mp ?_⟩
  · rw [rank_congr hpath]
    exact rank_le_of_permits hr hpermits
  · rw [rank_congr hpath]
    exact rank_lt_of_permits hr hpermits (by simpa using hbefore f hf)

end Concrete

/-- Of two grants of the required path the first answers, among broader ones that come before. -/
theorem first_exact_answers_of_competitors :
    ∃ (s : FlagSet) (r b : Flag), r.hasWildcards = false ∧ (∃ f ∈ s.flags, f.path = r.path) ∧
      b.raw = "a.b:30" ∧ s.bestMatch r = some b := by
  let everything : Flag := ⟨⟨["*"], 0, 0⟩, "*", by decide⟩
  let anySecond : Flag := ⟨⟨["a", "?"], 9, 0⟩, "a.?:9", by decide⟩
  let exact : Flag := ⟨⟨["a", "b"], 30, 0⟩, "a.b:30", by decide⟩
  let required : Flag := ⟨⟨["a", "b"], 0, 0⟩, "a.b", by decide⟩
  let s := FlagSet.ofList [everything, anySecond, exact, required]
  have hr : required.hasWildcards = false := by decide
  have hexact : ∃ f ∈ s.flags, f.path = required.path := by decide +kernel
  have hfind : s.flags.find? (fun f ↦ f.path == required.path) = some exact := by decide +kernel
  obtain ⟨b, hb, hbest⟩ := first_exact_answers hr s hexact
  cases hfind.symm.trans hb
  exact ⟨s, required, exact, hr, hexact, rfl, hbest⟩

end Grants.Flag
