/-!
# First occurrences

`distinct` keeps the first occurrence of every element: the result has the same
members, none of them twice, and a list without repetitions is left alone.
-/

namespace Grants

variable {α : Type} [DecidableEq α]

/-- The elements of a list that are not in `seen`, each at its first occurrence. -/
def distinctFrom (seen : List α) : List α → List α
  | [] => []
  | x :: xs => if x ∈ seen then distinctFrom seen xs else x :: distinctFrom (x :: seen) xs

def distinct (xs : List α) : List α := distinctFrom [] xs

theorem mem_distinctFrom {seen xs : List α} {x : α} :
    x ∈ distinctFrom seen xs ↔ x ∈ xs ∧ x ∉ seen := by
  induction xs generalizing seen with
  | nil => simp [distinctFrom]
  | cons y ys ih =>
    by_cases hy : y ∈ seen
    · rw [distinctFrom, if_pos hy, ih, List.mem_cons]
      constructor
      · exact fun ⟨h, hs⟩ ↦ ⟨.inr h, hs⟩
      · rintro ⟨rfl | h, hs⟩
        · exact absurd hy hs
        · exact ⟨h, hs⟩
    · rw [distinctFrom, if_neg hy, List.mem_cons, ih, List.mem_cons, List.mem_cons, not_or]
      by_cases hx : x = y
      · simp [hx, hy]
      · simp [hx]

@[simp] theorem mem_distinct {xs : List α} {x : α} : x ∈ distinct xs ↔ x ∈ xs := by
  simp [distinct, mem_distinctFrom]

theorem nodup_distinctFrom (seen xs : List α) : (distinctFrom seen xs).Nodup := by
  induction xs generalizing seen with
  | nil => exact List.nodup_nil
  | cons y ys ih =>
    by_cases hy : y ∈ seen
    · rw [distinctFrom, if_pos hy]
      exact ih seen
    · rw [distinctFrom, if_neg hy]
      exact List.nodup_cons.mpr ⟨by simp [mem_distinctFrom], ih _⟩

theorem nodup_distinct (xs : List α) : (distinct xs).Nodup := nodup_distinctFrom [] xs

theorem distinctFrom_sublist (seen xs : List α) : (distinctFrom seen xs).Sublist xs := by
  induction xs generalizing seen with
  | nil => exact .slnil
  | cons y ys ih =>
    by_cases hy : y ∈ seen
    · rw [distinctFrom, if_pos hy]
      exact (ih seen).cons y
    · rw [distinctFrom, if_neg hy]
      exact (ih _).cons_cons y

theorem distinct_sublist (xs : List α) : (distinct xs).Sublist xs := distinctFrom_sublist [] xs

theorem distinctFrom_eq_self {seen xs : List α} (h : xs.Nodup) (hs : ∀ x ∈ xs, x ∉ seen) :
    distinctFrom seen xs = xs := by
  induction xs generalizing seen with
  | nil => rfl
  | cons y ys ih =>
    rw [List.nodup_cons] at h
    rw [distinctFrom, if_neg (hs y (by simp)), ih h.2]
    intro x hx
    rw [List.mem_cons, not_or]
    exact ⟨fun hxy ↦ h.1 (hxy ▸ hx), hs x (List.mem_cons_of_mem _ hx)⟩

theorem distinct_eq_self {xs : List α} (h : xs.Nodup) : distinct xs = xs :=
  distinctFrom_eq_self h (by simp)

/-- Only the members of `seen` matter. -/
theorem distinctFrom_congr {seen seen' : List α} (h : ∀ x, x ∈ seen ↔ x ∈ seen') (xs : List α) :
    distinctFrom seen xs = distinctFrom seen' xs := by
  induction xs generalizing seen seen' with
  | nil => rfl
  | cons y ys ih =>
    have hcons : ∀ x, x ∈ y :: seen ↔ x ∈ y :: seen' := fun x ↦ by
      rw [List.mem_cons, List.mem_cons, h]
    simp only [distinctFrom, h y, ih h, ih hcons]

/-- Elements that have been seen may be left out beforehand. -/
theorem distinctFrom_append (seen seen' xs : List α) :
    distinctFrom (seen ++ seen') xs = distinctFrom seen (xs.filter (· ∉ seen')) := by
  induction xs generalizing seen with
  | nil => rfl
  | cons y ys ih =>
    by_cases hy' : y ∈ seen'
    · rw [distinctFrom, if_pos (List.mem_append_right _ hy'), ih,
        List.filter_cons_of_neg (by simpa)]
    · rw [List.filter_cons_of_pos (by simpa), distinctFrom, distinctFrom, ← ih, ← ih]
      simp only [List.mem_append, hy', or_false, List.cons_append]

end Grants
