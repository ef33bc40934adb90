import Grants.FlagSet
import Grants.Flag.Permits

/-!
# The grant that answers a required flag

Of the grants that permit a required flag the one with the most concrete leading
segments answers; of equals, one without a final `*`; of these, the first.
-/

namespace Grants.Flag

/-- Ranks are compared by `specificity` first. -/
structure Rank where
  specificity : Nat
  exact : Bool
  deriving DecidableEq, Repr

instance : LT Rank where
  lt a b := a.specificity < b.specificity ∨ a.specificity = b.specificity ∧ a.exact < b.exact

instance (a b : Rank) : Decidable (a < b) :=
  inferInstanceAs (Decidable (_ ∨ _ ∧ _))

/-- How many segments a path has before its first wildcard. -/
def specificity (f : Flag) : Nat := (f.segments.takeWhile isConcrete).length

def rank (f : Flag) : Rank := ⟨f.specificity, !f.isWildcard⟩

/-- A later flag takes over only with a higher rank. -/
def better : Option Flag → Flag → Option Flag
  | none, g => some g
  | some b, g => if b.rank < g.rank then some g else some b

def bestMatch (granted : List Flag) (required : Flag) : Option Flag :=
  (granted.filter (·.permits required)).foldl better none

end Grants.Flag

namespace Grants.FlagSet

def bestMatch (s : FlagSet) (required : Flag) : Option Flag := Flag.bestMatch s.flags required

/-- The flags of a set that permit a required one, in order. -/
def matching (s : FlagSet) (required : Flag) : List Flag := s.flags.filter (·.permits required)

end Grants.FlagSet
