import Grants.Flag.Rank
import Mathlib.Data.List.Induction
import Mathlib.Data.Prod.Lex

/-!
# The best match is the first of the highest rank

Ranks are linearly ordered, as pairs in lexicographic order (`rank_lt_iff`): how
many concrete segments lead a path, and whether it has no final `*`.  Of the
grants that permit a required flag, the one that answers it has the highest such
pair, and those before it have lower ones (`bestMatch_eq_some_iff`).  Only if no
grant permits the flag, there is no answer (`bestMatch_eq_none_iff`).  The scan
for the answer has, after each grant, the answer among the grants so far
(`scanned_bestMatch`).
-/

namespace Grants.Flag

/-! ## The order of ranks -/

namespace Rank

/-- The concrete leading segments count first, and then that there is no final `*`. -/
def key (a : Rank) : ℕ ×ₗ Bool := toLex (a.specificity, a.exact)

variable {a b : Rank}

theorem key_inj (h : a.key = b.key) : a = b := by
  obtain ⟨_, _⟩ := a
  obtain ⟨_, _⟩ := b
  cases h
  rfl

theorem lt_iff : a < b ↔ a.key < b.key := by
  rw [key, key, Prod.Lex.toLex_lt_toLex]
  rfl

instance : LinearOrder Rank where
  le a b := a.key ≤ b.key
  lt a b := a < b
  le_refl _ := le_rfl
  le_trans _ _ _ := le_trans
  le_antisymm _ _ h h' := key_inj (le_antisymm h h')
  le_total _ _ := le_total ..
  lt_iff_le_not_ge _ _ := lt_iff.trans lt_iff_le_not_ge
  toDecidableLE a b := inferInstanceAs (Decidable (a.key ≤ b.key))

end Rank

variable {granted : List Flag} {required b f : Flag}

theorem rank_lt_iff : f.rank < b.rank ↔
    toLex (f.specificity, !f.isWildcard) < toLex (b.specificity, !b.isWildcard) := Rank.lt_iff

theorem rank_le_iff : f.rank ≤ b.rank ↔
    toLex (f.specificity, !f.isWildcard) ≤ toLex (b.specificity, !b.isWildcard) := .rfl

/-! ## Answers to a required flag -/

/-- `b` is the first of the grants of the highest rank that permit a required flag.  The number of
concrete leading segments counts first, and then that there is no final `*`. -/
structure Answers (granted : List Flag) (required b : Flag) : Prop where
  permits : b.permits required = true
  highest : ∀ f ∈ granted, f.permits required = true →
    toLex (f.specificity, !f.isWildcard) ≤ toLex (b.specificity, !b.isWildcard)
  first : ∃ before after, granted = before ++ b :: after ∧ ∀ f ∈ before, f.permits required = true →
    toLex (f.specificity, !f.isWildcard) < toLex (b.specificity, !b.isWildcard)

namespace Answers

theorem rank_le (hb : Answers granted required b) (f : Flag) (hf : f ∈ granted)
    (hpermits : f.permits required = true) : f.rank ≤ b.rank :=
  rank_le_iff.mpr (hb.highest f hf hpermits)

/-- A further grant takes over if it outranks all that permit the flag. -/
theorem of_forall_lt (hf : f.permits required = true)
    (hlt : ∀ g ∈ granted, g.permits required = true → g.rank < f.rank) :
    Answers (granted ++ [f]) required f where
  permits := hf
  highest := by
    rw [List.forall_mem_append, List.forall_mem_singleton]
    exact ⟨fun g hg hpermits ↦ rank_le_iff.mp (hlt g hg hpermits).le, fun _ ↦ le_rfl⟩
  first := ⟨granted, [], rfl, fun g hg hpermits ↦ rank_lt_iff.mp (hlt g hg hpermits)⟩

/-- Any other further grant leaves the answer as it is. -/
theorem concat (hb : Answers granted required b)
    (hf : f.permits required = true → f.rank ≤ b.rank) : Answers (granted ++ [f]) required b where
  permits := hb.permits
  highest := by
    rw [List.forall_mem_append, List.forall_mem_singleton]
    exact ⟨hb.highest, fun hpermits ↦ rank_le_iff.mp (hf hpermits)⟩
  first := by
    obtain ⟨before, after, rfl, hbefore⟩ := hb.first
    exact ⟨before, after ++ [f], by simp, hbefore⟩

theorem find?_eq (hb : Answers granted required b) :
    granted.find? (fun f ↦ f.permits required && f.rank == b.rank) = some b := by
  obtain ⟨before, after, hgranted, hbefore⟩ := hb.first
  rw [List.find?_eq_some_iff_append]
  refine ⟨by simp [hb.permits], before, after, hgranted, fun f hf ↦ ?_⟩
  rw [Bool.not_eq_true', Bool.and_eq_false_imp]
  intro hpermits
  exact beq_eq_false_iff_ne.mpr (rank_lt_iff.mpr (hbefore f hf hpermits)).ne

theorem mem (hb : Answers granted required b) : b ∈ granted := List.mem_of_find?_eq_some hb.find?_eq

theorem unique {b' : Flag} (hb : Answers granted required b) (hb' : Answers granted required b') :
    b = b' := by
  have hrank : b.rank = b'.rank :=
    le_antisymm (hb'.rank_le b hb.mem hb.permits) (hb.rank_le b' hb'.mem hb'.permits)
  have hfind := hb.find?_eq
  rw [hrank, hb'.find?_eq] at hfind
  exact (Option.some.inj hfind).symm

end Answers

/-! ## The scan for the answer -/

/-- What a scan has found when it has seen some grants. -/
inductive Scanned (granted : List Flag) (required : Flag) : Option Flag → Prop
  | unanswered (hnone : ∀ f ∈ granted, f.permits required = false) : Scanned granted required none
  | answered {b : Flag} (hb : Answers granted required b) : Scanned granted required (some b)

theorem bestMatch_concat (granted : List Flag) (required f : Flag) :
    bestMatch (granted ++ [f]) required =
      if f.permits required then better (bestMatch granted required) f
      else bestMatch granted required := by
  cases hf : f.permits required <;> simp [bestMatch, hf]

/-- A grant that permits the flag is compared with what has been found before it. -/
theorem Scanned.better {found : Option Flag} (h : Scanned granted required found)
    (hf : f.permits required = true) : Scanned (granted ++ [f]) required (better found f) := by
  cases h with
  | unanswered hnone =>
    refine .answered (.of_forall_lt hf fun g hg hpermits ↦ ?_)
    exact absurd hpermits (Bool.eq_false_iff.mp (hnone g hg))
  | @answered b hb =>
    rw [Flag.better]
    split
    · next hlt =>
      refine .answered (.of_forall_lt hf fun g hg hpermits ↦ ?_)
      exact (hb.rank_le g hg hpermits).trans_lt hlt
    · next hle => exact .answered (hb.concat fun _ ↦ not_lt.mp hle)

theorem Scanned.pass {found : Option Flag} (h : Scanned granted required found)
    (hf : f.permits required = false) : Scanned (granted ++ [f]) required found := by
  cases h with
  | unanswered hnone =>
    refine .unanswered ?_
    rw [List.forall_mem_append, List.forall_mem_singleton]
    exact ⟨hnone, hf⟩
  | answered hb =>
    exact .answered (hb.concat fun hpermits ↦ absurd hpermits (Bool.eq_false_iff.mp hf))

theorem scanned_bestMatch (granted : List Flag) (required : Flag) :
    Scanned granted required (bestMatch granted required) := by
  induction granted using List.reverseRecOn with
  | nil => exact .unanswered (by simp)
  | append_singleton granted f ih =>
    rw [bestMatch_concat]
    split
    · next hf => exact ih.better hf
    · next hf => exact ih.pass (Bool.eq_false_iff.mpr hf)

theorem Scanned.eq_none_iff {found : Option Flag} (h : Scanned granted required found) :
    found = none ↔ ∀ f ∈ granted, f.permits required = false := by
  cases h with
  | unanswered hnone => exact iff_of_true rfl hnone
  | @answered b hb =>
    refine iff_of_false (Option.some_ne_none b) fun hnone ↦ ?_
    exact Bool.false_ne_true ((hnone b hb.mem).symm.trans hb.permits)

theorem Scanned.eq_some_iff {found : Option Flag} (h : Scanned granted required found) :
    found = some b ↔ Answers granted required b := by
  cases h with
  | unanswered hnone =>
    refine iff_of_false nofun fun hb ↦ ?_
    exact Bool.false_ne_true ((hnone b hb.mem).symm.trans hb.permits)
  | answered hc =>
    rw [Option.some.injEq]
    constructor
    · rintro rfl
      exact hc
    · exact hc.unique

theorem bestMatch_eq_none_iff :
    bestMatch granted required = none ↔ ∀ f ∈ granted, f.permits required = false :=
  (scanned_bestMatch granted required).eq_none_iff

theorem bestMatch_eq_some_iff :
    bestMatch granted required = some b ↔ Answers granted required b :=
  (scanned_bestMatch granted required).eq_some_iff

end Grants.Flag

namespace Grants.FlagSet

/-- A set answers a required flag unless none of its flags permits it, and the answer is the first
of the highest rank. -/
theorem first_of_highest_rank_answers (s : FlagSet) (required : Flag) :
    (s.bestMatch required = none ↔ ∀ f ∈ s.flags, f.permits required = false) ∧
    ∀ b, s.bestMatch required = some b ↔ Flag.Answers s.flags required b := by
  constructor
  · exact Flag.bestMatch_eq_none_iff
  · intro b
    exact Flag.bestMatch_eq_some_iff

end Grants.FlagSet
