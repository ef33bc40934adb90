import Grants.Proofs.Flag.BestMatch
import Grants.Proofs.FlagSet
import Grants.Proofs.Sample

/-!
# Further grants take over with a higher rank

The answer among grants that come in two lists is the answer among the first
ones, unless that among the others takes over (`bestMatch_append`).  A grant that
comes again never does, so the answer in a set is that in the list of all flags
that were offered to it (`bestMatch_ofList`).  Additional flags therefore leave
the answer as it is or put one of a higher rank in its place
(`additional_take_over`).
-/

namespace Grants.Flag

variable {granted : List Flag} {required f : Flag}

/-- The answer `c`, which comes later, takes the place of `b`: there is no `b`, or `c` outranks
it. -/
def TakesOver (b c : Option Flag) : Prop := ∃ g ∈ c, ∀ f ∈ b, f.rank < g.rank

instance (b c : Option Flag) : Decidable (TakesOver b c) :=
  inferInstanceAs (Decidable (∃ g ∈ c, ∀ f ∈ b, f.rank < g.rank))

/-- The one of two answers that stands. -/
def prevailing (b c : Option Flag) : Option Flag := if TakesOver b c then c else b

@[simp] theorem prevailing_none_left (c : Option Flag) : prevailing none c = c := by
  cases c <;> simp [prevailing, TakesOver]

@[simp] theorem prevailing_none_right (b : Option Flag) : prevailing b none = b := by
  simp [prevailing, TakesOver]

@[simp] theorem prevailing_some (f g : Flag) :
    prevailing (some f) (some g) = if f.rank < g.rank then some g else some f := by
  simp [prevailing, TakesOver]

theorem better_eq_prevailing (b : Option Flag) (f : Flag) : better b f = prevailing b (some f) := by
  cases b <;> simp [better]

theorem prevailing_assoc (b c d : Option Flag) :
    prevailing (prevailing b c) d = prevailing b (prevailing c d) := by
  cases b with
  | none => simp
  | some f =>
    cases c with
    | none => simp
    | some g =>
      cases d with
      | none => simp
      | some h =>
        rw [prevailing_some, prevailing_some]
        by_cases hfg : f.rank < g.rank
        · rw [if_pos hfg, prevailing_some]
          by_cases hgh : g.rank < h.rank
          · rw [if_pos hgh, prevailing_some, if_pos (hfg.trans hgh)]
          · rw [if_neg hgh, prevailing_some, if_pos hfg]
        · rw [if_neg hfg, prevailing_some]
          by_cases hgh : g.rank < h.rank
          · rw [if_pos hgh, prevailing_some]
          · have hfh : ¬ f.rank < h.rank := fun hfh ↦ hfg (hfh.trans_le (not_lt.mp hgh))
            rw [if_neg hgh, prevailing_some, if_neg hfh, if_neg hfg]

/-- An answer that prevails over `b` is `b` itself or outranks it. -/
theorem exists_prevailing (f : Flag) (c : Option Flag) :
    ∃ g, prevailing (some f) c = some g ∧ (g = f ∨ f.rank < g.rank) := by
  cases c with
  | none => exact ⟨f, prevailing_none_right _, .inl rfl⟩
  | some g =>
    rw [prevailing_some]
    split
    · next hlt => exact ⟨g, rfl, .inr hlt⟩
    · exact ⟨f, rfl, .inl rfl⟩

/-! ## Answers among the grants of two lists -/

theorem bestMatch_append (granted further : List Flag) (required : Flag) :
    bestMatch (granted ++ further) required =
      prevailing (bestMatch granted required) (bestMatch further required) := by
  induction further using List.reverseRecOn with
  | nil => rw [List.append_nil, show bestMatch [] required = none from rfl, prevailing_none_right]
  | append_singleton further f ih =>
    rw [← List.append_assoc, bestMatch_concat, bestMatch_concat, ih]
    cases f.permits required with
    | true =>
      rw [if_pos rfl, if_pos rfl, better_eq_prevailing, better_eq_prevailing, prevailing_assoc]
    | false => rfl

/-- A grant that comes again changes no answer. -/
theorem bestMatch_concat_of_mem (hf : f ∈ granted) :
    bestMatch (granted ++ [f]) required = bestMatch granted required := by
  rw [bestMatch_concat]
  split
  · next hpermits =>
    cases hb : bestMatch granted required with
    | none =>
      have hnone := bestMatch_eq_none_iff.mp hb f hf
      exact absurd (hnone.symm.trans hpermits) Bool.false_ne_true
    | some b =>
      have hrank := (bestMatch_eq_some_iff.mp hb).rank_le f hf hpermits
      rw [better, if_neg hrank.not_gt]
  · rfl

end Grants.Flag

namespace Grants.FlagSet

variable {s : FlagSet}

theorem Indexed.bestMatch_extend (hs : s.Indexed) (fs : List Flag) (required : Flag) :
    (s.extend fs).bestMatch required = Flag.bestMatch (s.flags ++ fs) required := by
  induction fs generalizing s with
  | nil => exact congrArg (Flag.bestMatch · required) (List.append_nil _).symm
  | cons f fs ih =>
    refine (ih (hs.insert f)).trans ?_
    rw [List.append_cons, Flag.bestMatch_append, Flag.bestMatch_append (s.flags ++ [f]), flags_insert]
    split
    · next hf => rw [Flag.bestMatch_concat_of_mem ((hs.contains_iff f).mp hf)]
    · rfl

/-- Repetitions do not matter for the answer. -/
theorem bestMatch_ofList (fs : List Flag) (required : Flag) :
    (ofList fs).bestMatch required = Flag.bestMatch fs required :=
  indexed_empty.bestMatch_extend fs required

/-- Of stored and additional flags, the additional ones answer if the stored ones do not, or if their
answer has the higher rank.  So further flags take no answer away, and put another in its place only
if it has a higher rank. -/
theorem additional_take_over (stored additional : List Flag) (required : Flag) :
    (merged stored additional).bestMatch required =
      (if Flag.TakesOver ((ofList stored).bestMatch required)
          ((ofList additional).bestMatch required)
        then (ofList additional).bestMatch required
        else (ofList stored).bestMatch required) ∧
    ∀ (further : List Flag) (b : Flag), (merged stored additional).bestMatch required = some b →
      ∃ c, (merged stored (additional ++ further)).bestMatch required = some c ∧
        (c = b ∨ b.rank < c.rank) := by
  simp only [merged_eq_ofList, bestMatch_ofList]
  constructor
  · exact Flag.bestMatch_append stored additional required
  · intro further b hb
    rw [← List.append_assoc, Flag.bestMatch_append, hb]
    exact Flag.exists_prevailing b _

/-- An additional flag of the same path leaves the stored one in place, and a more specific one does
not. -/
theorem additional_take_over_of_same_path :
    ∃ (additional : Flag) (c : Flag), additional.rank = Sample.granted.rank ∧
      (merged [Sample.granted] [additional]).bestMatch Sample.required = some Sample.granted ∧
      (merged [Sample.granted] ([additional] ++ [Sample.required])).bestMatch Sample.required =
        some c ∧
      Sample.granted.rank < c.rank := by
  let additional : Flag := ⟨⟨["a", "*"], 0, 0⟩, "a.*", by decide⟩
  obtain ⟨hmerged, hfurther⟩ :=
    additional_take_over [Sample.granted] [additional] Sample.required
  have hstored := hmerged.trans (show _ = some Sample.granted by decide +kernel)
  obtain ⟨c, hc, hrank⟩ := hfurther [Sample.required] Sample.granted hstored
  refine ⟨additional, c, by decide, hstored, hc, hrank.resolve_left ?_⟩
  rintro rfl
  exact absurd hc (by decide +kernel)

end Grants.FlagSet
