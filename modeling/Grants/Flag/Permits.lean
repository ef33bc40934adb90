import Grants.Flag.Basic

/-!
# Which flags a grant permits

A granted `?` permits any one segment and a final `*` one or more further
segments.  Wildcards of the required flag are taken literally.

`Covers` says the same of two lists of segments, one segment at a time.
-/

namespace Grants.Flag

def segmentPermits (granted required : String) : Bool :=
  granted == anySegment || granted == required

def segmentsPermit (granted required : List String) : Bool :=
  (granted.zip required).all fun (g, r) ↦ segmentPermits g r

def permits (granted required : Flag) : Bool :=
  if granted.path == wildcard then true
  else if granted.isWildcard then
    let stem := granted.segments.dropLast
    decide (stem.length < required.segments.length) && segmentsPermit stem required.segments
  else
    decide (granted.segments.length = required.segments.length) &&
      segmentsPermit granted.segments required.segments

/-- The segments of a granted path cover those of a required one. -/
inductive Covers : List String → List String → Prop
  | nil : Covers [] []
  | rest (r : String) (rs : List String) : Covers [wildcard] (r :: rs)
  | any (r : String) {gs rs : List String} : Covers gs rs → Covers (anySegment :: gs) (r :: rs)
  | same (g : String) {gs rs : List String} : Covers gs rs → Covers (g :: gs) (g :: rs)

end Grants.Flag
