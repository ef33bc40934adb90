import Grants.Proofs.ByteStore.Lawful
import Grants.Proofs.Check.Findings
import Grants.Proofs.PlainStore.Lawful
import Grants.Proofs.Sample

/-!
# The order of required flags

Flags that share no usage record may be evaluated in any order
(`evaluateAll_perm`), and a check evaluates each of its matched flags once.  So
the required flags may be put in any order and repeated at will: each of them is
answered as before, and the store after the check is the same
(`check_rearranged`).
-/

namespace Grants

/-- The request for the required flags at some places, in turn. -/
def Request.rearrange (r : Request) (places : List (Fin r.required.length)) : Request :=
  { r with required := places.map r.required.get }

namespace Check

open LawfulStore

/-! ## The order of evaluations -/

section Evaluations

variable {σ : Type} [Store σ] {s t : σ} {h : Holder} {p : Policy} {now : UInt64}
variable {m n : Flag} {ms ns : List Flag}

theorem evaluateAll_append :
    evaluateAll h p now (ms ++ ns) s = evaluateAll h p now ms s >>= evaluateAll h p now ns := by
  induction ms generalizing s with
  | nil => rfl
  | cons m ms ih =>
    rw [List.cons_append, evaluateAll, evaluateAll]
    cases evaluate s h m p now with
    | error e => rfl
    | ok vs => exact ih

variable [LawfulStore σ] {u u' : Usage} {v : Verdict}

theorem usage_evaluate_apart {key : String} (hne : ¬ Collide σ m.raw key)
    (ht : evaluate s h m p now = .ok (v, t)) : Store.usage t h key = Store.usage s h key := by
  rcases eq_or_writes_of_evaluate ht with rfl | ⟨-, -, -, u, ht⟩
  · rfl
  · exact Store.usage_congr (record?_setUsage_apart ht fun _ ↦ hne)

theorem exists_evaluate (now : UInt64) (p : Policy) (hf : Fits σ h)
    (hu : Store.usage s h m.raw = .ok u) :
    ∃ t, evaluate s h m p now = .ok ((p.decide m u now).answer, t) ∧
      if (p.decide m u now).keep then
        Store.setUsage s h m.raw (p.decide m u now).usage = .ok t
      else t = s := by
  rw [evaluate_eq hu]
  cases (p.decide m u now).keep with
  | false => exact ⟨s, rfl, rfl⟩
  | true =>
    obtain ⟨t, ht⟩ := (exists_setUsage_iff s h m.raw (p.decide m u now).usage).mpr hf
    rw [if_pos rfl, ht]
    exact ⟨t, rfl, rfl⟩

variable [CommutingStore σ]

/-- Two flags that share no usage record may change places. -/
theorem evaluateAll_comm (hf : Fits σ h) (hu : Store.usage s h m.raw = .ok u)
    (hu' : Store.usage s h n.raw = .ok u') (hmn : ¬ Collide σ m.raw n.raw)
    (hnm : ¬ Collide σ n.raw m.raw) :
    evaluateAll h p now [m, n] s = evaluateAll h p now [n, m] s := by
  obtain ⟨t, ht, hst⟩ := exists_evaluate now p hf hu
  obtain ⟨t', ht', hst'⟩ := exists_evaluate now p hf hu'
  -- Neither evaluation changes what the other one reads, so both decide as they would alone.
  obtain ⟨w, hw, htw⟩ := exists_evaluate now p hf ((usage_evaluate_apart hmn ht).trans hu')
  obtain ⟨w', hw', htw'⟩ := exists_evaluate now p hf ((usage_evaluate_apart hnm ht').trans hu)
  rw [evaluateAll_cons ht, evaluateAll_cons hw, evaluateAll_cons ht', evaluateAll_cons hw']
  suffices w = w' from congrArg Except.ok this
  cases hm : (p.decide m u now).keep with
  | false =>
    rw [hm] at hst htw'
    cases hst
    cases htw'
    cases hn : (p.decide n u' now).keep with
    | false =>
      rw [hn] at hst' htw
      exact htw.trans hst'.symm
    | true =>
      rw [hn] at hst' htw
      exact Except.ok.inj (htw.symm.trans hst')
  | true =>
    rw [hm] at hst htw'
    cases hn : (p.decide n u' now).keep with
    | false =>
      rw [hn] at hst' htw
      cases hst'
      cases htw
      exact Except.ok.inj (hst.symm.trans htw')
    | true =>
      rw [hn] at hst' htw
      have hcomm := CommutingStore.setUsage_comm hmn hst hst'
      exact Except.ok.inj (htw.symm.trans (hcomm.trans htw'))

/-- Flags that can be read, and share no usage records, may be evaluated in any order. -/
theorem evaluateAll_perm (hperm : ms.Perm ns) (hf : Fits σ h) (hnodup : ms.Nodup)
    (hapart : Apart σ ms) (hread : ∀ m ∈ ms, ∃ u, Store.usage s h m.raw = .ok u) :
    evaluateAll h p now ms s = evaluateAll h p now ns s := by
  induction hperm generalizing s with
  | nil => rfl
  | cons m _ ih =>
    rw [List.nodup_cons] at hnodup
    rw [List.forall_mem_cons] at hread
    obtain ⟨⟨u, hu⟩, hread⟩ := hread
    obtain ⟨t, ht, -⟩ := exists_evaluate now p hf hu
    rw [evaluateAll_cons ht, evaluateAll_cons ht]
    refine ih hnodup.2 (hapart.subset (List.subset_cons_self ..)) fun n hn ↦ ?_
    obtain ⟨u', hu'⟩ := hread n hn
    refine ⟨u', (usage_evaluate_apart (fun hc ↦ hnodup.1 ?_) ht).trans hu'⟩
    rwa [hapart m List.mem_cons_self n (List.mem_cons_of_mem _ hn) hc]
  | swap m n ms =>
    obtain ⟨u, hu⟩ := hread n (by simp)
    obtain ⟨u', hu'⟩ := hread m (by simp)
    have hne : n ≠ m := by
      rintro rfl
      simp at hnodup
    have hcomm : evaluateAll h p now [n, m] s = evaluateAll h p now [m, n] s :=
      evaluateAll_comm hf hu hu' (fun hc ↦ hne (hapart n (by simp) m (by simp) hc))
        (fun hc ↦ hne (hapart m (by simp) n (by simp) hc).symm)
    change evaluateAll h p now ([n, m] ++ ms) s = evaluateAll h p now ([m, n] ++ ms) s
    rw [evaluateAll_append, evaluateAll_append, hcomm]
  | trans hperm _ ih ih' =>
    rw [ih hnodup hapart hread]
    refine ih' (hperm.nodup hnodup) (hapart.subset hperm.symm.subset) fun m hm ↦ ?_
    exact hread m (hperm.symm.subset hm)

end Evaluations

/-! ## The order of required flags -/

/-- How the check of a rearranged request ends, beside the check of `r` itself. -/
structure Rearranged {σ : Type} [Store σ] (s : σ) (r : Request) (now : UInt64)
    (places : List (Fin r.required.length)) : Prop where
  store : (check s (r.rearrange places) now).2 = (check s r now).2
  error_iff (e : Error) :
    (check s (r.rearrange places) now).1 = .error e ↔ (check s r now).1 = .error e
  /-- The flag at each place gets the finding that it has in the check of `r`. -/
  findings {fs : List Finding} : (check s r now).1 = .ok fs →
    ∃ hlen : fs.length = r.required.length,
      (check s (r.rearrange places) now).1 = .ok (places.map fun i ↦ fs.get (i.cast hlen.symm))

variable {σ : Type} [Store σ] {s : σ} {r : Request} {places : List (Fin r.required.length)}

theorem mem_rearrange (hp : r.required ⊆ (r.rearrange places).required) {f : Flag} :
    f ∈ (r.rearrange places).required ↔ f ∈ r.required := by
  refine ⟨fun hf ↦ ?_, fun hf ↦ hp hf⟩
  obtain ⟨i, -, rfl⟩ := List.mem_map.mp hf
  exact List.get_mem ..

theorem granted_rearrange (hp : r.required ⊆ (r.rearrange places).required) :
    granted s (r.rearrange places) = granted s r := by
  have hempty : (r.rearrange places).required.isEmpty = r.required.isEmpty := by
    rw [Bool.eq_iff_iff, List.isEmpty_iff, List.isEmpty_iff, List.eq_nil_iff_forall_not_mem,
      List.eq_nil_iff_forall_not_mem]
    exact forall_congr' fun f ↦ not_congr (mem_rearrange hp)
  unfold granted Argument.nonempty
  rw [hempty]
  rfl

theorem distinct_matched_rearrange (hp : r.required ⊆ (r.rearrange places).required) :
    (distinct (matched s (r.rearrange places))).Perm (distinct (matched s r)) := by
  rw [List.perm_ext_iff_of_nodup (nodup_distinct _) (nodup_distinct _)]
  intro m
  rw [mem_distinct, mem_distinct, matched, matched, granted_rearrange hp]
  cases granted s r with
  | error e => rfl
  | ok set =>
    simp only [List.mem_filterMap]
    exact exists_congr fun f ↦ and_congr_left' (mem_rearrange hp)

/-- Checks that are refused for one reason fail alike, and change nothing. -/
theorem Rearranged.of_granted_eq_error (now : UInt64) {e : Error} (hset : granted s r = .error e)
    (hset' : granted s (r.rearrange places) = .error e) : Rearranged s r now places := by
  have hcheck : check s r now = (.error e, s) := by rw [check, hset]
  have hcheck' : check s (r.rearrange places) now = (.error e, s) := by rw [check, hset']
  refine ⟨?_, ?_, ?_⟩
  · rw [hcheck, hcheck']
  · rw [hcheck, hcheck']
    exact fun _ ↦ Iff.rfl
  · rw [hcheck]
    intro fs hfs
    cases hfs

theorem rearranged [LawfulStore σ] [CommutingStore σ] (now : UInt64)
    (hp : r.required ⊆ (r.rearrange places).required)
    (hread : ∀ m ∈ matched s r, ∃ u, Store.usage s r.holder m.raw = .ok u)
    (hapart : Apart σ (matched s r)) : Rearranged s r now places := by
  have hgranted : granted s (r.rearrange places) = granted s r := granted_rearrange hp
  cases hset : granted s r with
  | error e => exact .of_granted_eq_error now hset (hgranted.trans hset)
  | ok set =>
    have hset' : granted s (r.rearrange places) = .ok set := hgranted.trans hset
    have hperm := distinct_matched_rearrange (s := s) hp
    have hmem (m : Flag) : m ∈ matched s (r.rearrange places) ↔ m ∈ matched s r := by
      rw [← mem_distinct, hperm.mem_iff, mem_distinct]
    obtain ⟨u, hu⟩ := exists_usages hread
    obtain ⟨-, -, t, heq, -⟩ := check_eq now hset hapart hu
    obtain ⟨-, -, t', heq', -⟩ := check_eq now hset' (hapart.subset fun m hm ↦ (hmem m).mp hm)
      fun m hm ↦ hu m ((hmem m).mp hm)
    -- Both checks evaluate the same flags, each of them once, but not in the same order.
    have ht : (Except.ok t : Except Error σ) = .ok t' := by
      rw [← evaluateAll_of_check heq, ← evaluateAll_of_check heq']
      refine (evaluateAll_perm hperm (fits_of_validate (granted_eq_ok_iff.mp hset).2.1)
        (nodup_distinct _) ?_ ?_).symm
      · exact hapart.subset fun m hm ↦ (hmem m).mp (mem_distinct.mp hm)
      · exact fun m hm ↦ hread m ((hmem m).mp (mem_distinct.mp hm))
    cases ht
    refine ⟨?_, ?_, ?_⟩
    · rw [heq, heq']
    · rw [heq, heq']
      simp
    · intro fs hfs
      rw [heq] at hfs
      cases hfs
      refine ⟨List.length_map .., ?_⟩
      rw [heq', Request.rearrange]
      simp

end Check

/-- Required flags in another order, or more than once, get the findings that they had, and the
store after the check is the same: in every plain store, and in every byte store in which the
matched flags have digests of their own and usage records that can be read. -/
theorem check_rearranged :
    (∀ (s : PlainStore) (r : Request) (now : UInt64) (places : List (Fin r.required.length)),
      r.required ⊆ (r.rearrange places).required → Check.Rearranged s r now places) ∧
    ∀ (s : ByteStore) (r : Request) (now : UInt64) (places : List (Fin r.required.length)),
      r.required ⊆ (r.rearrange places).required →
      (∀ m ∈ Check.matched s r, ∃ u, s.usage r.holder m.raw = .ok u) →
      (∀ m ∈ Check.matched s r, ∀ m' ∈ Check.matched s r,
        Sha256.digest (Bytes.ofString m.raw) = Sha256.digest (Bytes.ofString m'.raw) → m = m') →
      Check.Rearranged s r now places := by
  constructor
  · intro s r now places hp
    apply Check.rearranged now hp
    · intro m _
      exact ⟨_, rfl⟩
    · intro m _ m' _ heq
      exact Flag.ext_raw heq
  · intro s r now places hp hread hapart
    exact Check.rearranged now hp hread hapart

/-- The second required flag comes first, and again after the first one.  Its grant has one use
left, which it gets both times. -/
theorem check_rearranged_of_two_matches :
    ∃ (s : ByteStore) (v w : Verdict) (places : List (Fin Sample.requestTwo.required.length)),
      (ByteStore.empty.setPermissions Sample.holder []).bind
        (·.setUsage Sample.holder Sample.limited.raw { uses := 4 }) = .ok s ∧
      Check.matched s Sample.requestTwo = [Sample.granted, Sample.limited] ∧
      (Sample.requestTwo.rearrange places).required =
        [Sample.limited, Sample.required, Sample.limited] ∧
      Check.Rearranged s Sample.requestTwo 5 places ∧
      (check s (Sample.requestTwo.rearrange places) 5).1 =
        .ok [.ofVerdict Sample.limited Sample.limited w, .ofVerdict Sample.required Sample.granted v,
          .ofVerdict Sample.limited Sample.limited w] := by
  obtain ⟨s, hs⟩ : ∃ s, (ByteStore.empty.setPermissions Sample.holder []).bind
      (·.setUsage Sample.holder Sample.limited.raw { uses := 4 }) = .ok s := ⟨_, rfl⟩
  have hmatched : Check.matched s Sample.requestTwo = [Sample.granted, Sample.limited] := by
    cases hs
    decide +kernel
  have husage : s.usage Sample.holder Sample.granted.raw = .ok {} ∧
      s.usage Sample.holder Sample.limited.raw = .ok { uses := 4 } := by
    cases hs
    decide +kernel
  refine ⟨s, ⟨true, some false, none, false⟩, ⟨true, none, none, false⟩,
    [⟨1, by decide⟩, ⟨0, by decide⟩, ⟨1, by decide⟩], hs, hmatched, rfl,
    check_rearranged.2 s Sample.requestTwo 5 _ ?_ ?_ ?_, ?_⟩
  · decide
  · rw [hmatched]
    simp only [List.forall_mem_cons]
    exact ⟨⟨_, husage.1⟩, ⟨_, husage.2⟩, nofun⟩
  · rw [hmatched]
    decide +kernel
  · cases hs
    decide +kernel

end Grants
