import Grants.Distinct
import Mathlib.Data.List.Basic

/-!
# The places of first occurrences

A list has its first occurrences in one way, and `distinct` finds them
(`firstOccurrences_iff`).  Where the elements are read from texts, they stand in
the order in which their texts first occur (`pairwise_distinctFrom`).
-/

namespace Grants

variable {α : Type}

section Reading

variable {β : Type} [BEq β] [LawfulBEq β] {read : β → Option α} {text : α → β} {b : β}
  {bs : List β} {xs : List α}

/-- Texts that are not the first one are found one place later than without it. -/
theorem pairwise_idxOf_cons (h : ∀ x ∈ xs, text x ≠ b)
    (hxs : xs.Pairwise fun x y ↦ bs.idxOf (text x) < bs.idxOf (text y)) :
    xs.Pairwise fun x y ↦ (b :: bs).idxOf (text x) < (b :: bs).idxOf (text y) := by
  refine hxs.imp_of_mem fun {x y} hx hy hlt ↦ ?_
  rw [List.idxOf_cons_ne _ (h x hx).symm, List.idxOf_cons_ne _ (h y hy).symm]
  exact Nat.succ_lt_succ hlt

theorem pairwise_distinctFrom [DecidableEq α] (hread : ∀ b x, read b = some x ↔ text x = b)
    (seen : List α) (bs : List β) :
    (distinctFrom seen (bs.filterMap read)).Pairwise fun x y ↦
      bs.idxOf (text x) < bs.idxOf (text y) := by
  -- Nothing later is read from the first text: either it reads as nothing, or what it reads as is
  -- seen from then on.
  induction bs generalizing seen with
  | nil => exact .nil
  | cons b bs ih =>
    cases hb : read b with
    | none =>
      rw [List.filterMap_cons_none hb]
      refine pairwise_idxOf_cons (fun x _ hx ↦ ?_) (ih seen)
      cases hb.symm.trans ((hread b x).mpr hx)
    | some x =>
      have htext {y : α} (hy : text y = b) : y = x :=
        Option.some.inj (((hread b y).mpr hy).symm.trans hb)
      rw [List.filterMap_cons_some hb, distinctFrom]
      split
      · next hx =>
        refine pairwise_idxOf_cons (fun y hy hyb ↦ ?_) (ih seen)
        exact (mem_distinctFrom.mp hy).2 (htext hyb ▸ hx)
      · have hne : ∀ y ∈ distinctFrom (x :: seen) (bs.filterMap read), text y ≠ b :=
          fun y hy hyb ↦ (mem_distinctFrom.mp hy).2 (htext hyb ▸ List.mem_cons_self)
        refine List.pairwise_cons.mpr ⟨fun y hy ↦ ?_, pairwise_idxOf_cons hne (ih _)⟩
        rw [(hread b x).mp hb, List.idxOf_cons_self, List.idxOf_cons_ne _ (hne y hy).symm]
        exact Nat.succ_pos _

end Reading

variable [DecidableEq α] {xs ys zs : List α}

/-- What a list has, each element once and at the place where it first occurs. -/
structure FirstOccurrences (xs ys : List α) : Prop where
  mem_iff (x : α) : x ∈ ys ↔ x ∈ xs
  nodup : ys.Nodup
  sublist : ys.Sublist xs
  ordered : ys.Pairwise fun x y ↦ xs.idxOf x < xs.idxOf y

theorem FirstOccurrences.unique (hy : FirstOccurrences xs ys) (hz : FirstOccurrences xs zs) :
    ys = zs := by
  have hperm : ys.Perm zs := by
    rw [List.perm_ext_iff_of_nodup hy.nodup hz.nodup]
    exact fun x ↦ (hy.mem_iff x).trans (hz.mem_iff x).symm
  refine hperm.eq_of_pairwise (fun x y _ _ hxy hyx ↦ ?_) hy.ordered hz.ordered
  exact absurd hyx (Nat.lt_asymm hxy)

theorem firstOccurrences_distinct (xs : List α) : FirstOccurrences xs (distinct xs) where
  mem_iff _ := mem_distinct
  nodup := nodup_distinct xs
  sublist := distinct_sublist xs
  ordered := by
    have hread (x y : α) : some x = some y ↔ id y = x := by rw [Option.some_inj, id, eq_comm]
    have hordered := pairwise_distinctFrom hread [] xs
    rwa [List.filterMap_some] at hordered

theorem firstOccurrences_iff : FirstOccurrences xs ys ↔ ys = distinct xs := by
  constructor
  · exact fun h ↦ h.unique (firstOccurrences_distinct xs)
  · rintro rfl
    exact firstOccurrences_distinct xs

theorem distinct_distinct (xs : List α) : distinct (distinct xs) = distinct xs :=
  distinct_eq_self (nodup_distinct xs)

end Grants
