import Grants.Proofs.Check.Pointwise
import Grants.Proofs.Run.Basic
import Grants.Proofs.Store.Invariant

/-!
# Usage records have the history of their uses

Commands other than direct ones write a usage record only as a decision on a use
of its flag says.  So the usage record after a run has the history of the uses in
the run, in every lawful store whose records can be read (`history_runAll`).

What a single command preserves comes first: `run_induction` is about any
property of stores, and `record?_run` about records that a command does not come
to.  A record that there is no room for is never written, and never read by a use
that succeeds (`uses_of_usage_eq_error`).
-/

namespace Grants

namespace Command

open LawfulStore
open Store (commit_induction)

variable {σ : Type} [Store σ] [LawfulStore σ] {s : σ} {h : Holder} {m : Flag} {c : Command}
variable {cs : List Command} {u : Usage}

/-- What an edit of a holder's flags and a write of a usage record preserve, a command preserves. -/
theorem run_induction {P : σ → Prop}
    (hwrite : ∀ {s' t n u}, n ∈ reached c.holder s c → P s' →
      Store.setUsage s' c.holder n.raw u = .ok t → P t)
    (hedit : ∀ {s t}, P s → record? t = record? s → P t) (hd : c.isDirect = false) (hs : P s) :
    P (c.run s).2 := by
  cases c with
  | setPermissions h fs =>
    exact commit_induction hs fun t ht ↦ hedit hs (record?_setPermissions ht)
  | grant h fs => exact commit_induction hs fun (n, t) ht ↦ hedit hs (record?_grant ht)
  | revoke h fs => exact commit_induction hs fun (n, t) ht ↦ hedit hs (record?_revoke ht)
  | removeHolder h =>
    exact commit_induction hs fun (b, t) ht ↦ hedit hs (record?_removeHolder ht)
  | permissions h => exact hs
  | usage h flag => exact hs
  | setUsage h flag u => cases hd
  | resetUsage h flag => cases hd
  | update h flag decide => cases hd
  | check r now =>
    simp only [reached, holder, if_true] at hwrite
    exact Check.check_induction hwrite hs
  | checkPermitted r now =>
    simp only [reached, holder, if_true] at hwrite
    exact Check.check_induction hwrite hs
  | evaluate h m p now =>
    simp only [reached, holder, if_true] at hwrite
    refine commit_induction hs fun (v, t) ht ↦ ?_
    exact Check.evaluate_induction (hwrite List.mem_cons_self) hs ht

theorem sound_run (hd : c.isDirect = false) (hs : Store.Sound s) : Store.Sound (c.run s).2 :=
  run_induction (fun _ ↦ Store.Sound.setUsage) Store.Sound.of_record?_eq hd hs

/-- A usage record that a command does not come to, or has no room for, is left alone. -/
theorem record?_run {key : String} (hd : c.isDirect = false)
    (hne : c.holder = h → ∀ n ∈ reached h s c, Fits σ h → ¬ Collide σ n.raw key) :
    record? (c.run s).2 h key = record? s h key := by
  refine run_induction (P := fun t ↦ record? t h key = record? s h key) ?_ ?_ hd rfl
  · intro t t' n u hn ht ht'
    refine (record?_setUsage_apart ht' fun heq ↦ ?_).trans ht
    rw [← heq] at hn ht'
    exact hne heq.symm n hn ((exists_setUsage_iff t h n.raw u).mp ⟨t', ht'⟩)
  · intro t t' ht heq
    rw [heq]
    exact ht

theorem use?_check {r : Request} {now : UInt64} {us : Flag → Usage}
    (hus : ∀ n ∈ Check.matched s r, Store.usage s r.holder n.raw = .ok (us n))
    (hapart : Check.Apart σ (Check.matched s r)) :
    (Grants.check s r now).1.toOption.bind (Use.ofFindings? m r.policy now) =
      if m ∈ Check.matched s r then
        some ⟨r.policy, now, (r.policy.decide m (us m) now).answer.passed⟩
      else none := by
  cases hset : Check.granted s r with
  | error e =>
    rw [Grants.check, Check.matched, hset]
    rfl
  | ok set =>
    obtain ⟨-, -, t, hcheck, -⟩ := Check.check_eq now hset hapart hus
    rw [hcheck, Check.matched, hset]
    exact Use.ofFindings?_map_finding r.required

theorem exists_usage_of_matched (hs : Store.Sound s) (r : Request) : ∃ us : Flag → Usage,
    ∀ n ∈ Check.matched s r, Store.usage s r.holder n.raw = .ok (us n) := by
  cases hset : Check.granted s r with
  | error e =>
    rw [Check.matched, hset]
    exact ⟨fun _ ↦ {}, by simp⟩
  | ok set =>
    have hfits : Fits σ r.holder := fits_of_validate (Check.granted_eq_ok_iff.mp hset).2.1
    exact ⟨_, fun n _ ↦ (hs r.holder n.raw hfits).choose_spec⟩

theorem use?_eq_none (hs : Store.Sound s) (hapart : Check.Apart σ (reached h s c))
    (hm : m ∉ reached h s c) : use? h m s c = none := by
  have hcheck {r : Request} (now : UInt64) (hapart : Check.Apart σ (reached h s (check r now)))
      (hm : m ∉ reached h s (check r now)) : use? h m s (check r now) = none := by
    by_cases hh : r.holder = h
    · subst hh
      rw [reached, if_pos rfl] at hapart hm
      obtain ⟨us, hus⟩ := exists_usage_of_matched hs r
      rw [use?, if_pos rfl, use?_check hus hapart, if_neg hm]
    · exact if_neg hh
  cases c with
  | check r now => exact hcheck now hapart hm
  | checkPermitted r now => exact hcheck now hapart hm
  | evaluate h' m' p now =>
    refine if_neg ?_
    rintro ⟨rfl, rfl⟩
    exact hm (by simp [reached])
  | _ => rfl

/-- A command that comes to the usage record of a flag makes a use of the flag, as long as there is
room for the record. -/
theorem isSome_use? (hf : Fits σ h) (hs : Store.Sound s) (hapart : Check.Apart σ (reached h s c))
    (hm : m ∈ reached h s c) : (use? h m s c).isSome = true := by
  obtain rfl := holder_of_mem_reached hm
  have hcheck {r : Request} {now : UInt64} (hapart : Check.Apart σ (Check.matched s r))
      (hm : m ∈ Check.matched s r) :
      ((Grants.check s r now).1.toOption.bind (Use.ofFindings? m r.policy now)).isSome = true := by
    obtain ⟨us, hus⟩ := exists_usage_of_matched hs r
    rw [use?_check hus hapart, if_pos hm]
    rfl
  cases c with
  | check r now =>
    simp only [reached, use?, holder, if_true] at *
    exact hcheck hapart hm
  | checkPermitted r now =>
    simp only [reached, use?, holder, if_true] at *
    exact hcheck hapart hm
  | evaluate h' m' p now =>
    simp only [reached, holder, if_true, List.mem_singleton] at *
    subst hm
    obtain ⟨u, hu⟩ := hs h' m.raw hf
    obtain ⟨t, ht⟩ := (exists_setUsage_iff s h' m.raw (p.decide m u now).usage).mpr hf
    rw [use?, if_pos ⟨rfl, rfl⟩, evaluate_eq hu, ht]
    cases (p.decide m u now).keep <;> rfl
  | _ => cases hm

theorem history_check {r : Request} {now : UInt64} (hs : Store.Sound s)
    (hapart : Check.Apart σ (Check.matched s r)) (hm : m ∈ Check.matched s r)
    (hu : Store.usage s r.holder m.raw = .ok u) :
    ∃ v, Store.usage (Grants.check s r now).2 r.holder m.raw = .ok v ∧
      History m u ((Grants.check s r now).1.toOption.bind
        (Use.ofFindings? m r.policy now)).toList v := by
  obtain ⟨us, hus⟩ := exists_usage_of_matched hs r
  cases hu.symm.trans (hus m hm)
  rw [use?_check hus hapart, if_pos hm]
  refine ⟨_, ?_, .decide m r.policy (us m) now⟩
  cases hset : Check.granted s r with
  | error e =>
    rw [Check.matched, hset] at hm
    cases hm
  | ok set =>
    obtain ⟨-, -, t, hcheck, -⟩ := Check.check_eq now hset hapart hus
    rw [hcheck, (Check.pointwise hus hapart hcheck).usage m hm]
    cases hkeep : (r.policy.decide m (us m) now).keep with
    | true => rfl
    | false =>
      rw [Policy.usage_decide_of_keep_eq_false hkeep]
      rfl

theorem history_evaluate {p : Policy} {now : UInt64} (hu : Store.usage s h m.raw = .ok u) :
    ∃ v, Store.usage ((evaluate h m p now).run s).2 h m.raw = .ok v ∧
      History m u ((Grants.evaluate s h m p now).toOption.map
        fun vs ↦ ⟨p, now, vs.1.passed⟩).toList v := by
  change ∃ v, Store.usage (Store.commit s ((Grants.evaluate s h m p now).map _)).2 h m.raw = _ ∧ _
  rw [evaluate_eq hu]
  cases hkeep : (p.decide m u now).keep with
  | false =>
    refine ⟨u, hu, ?_⟩
    have hd := History.decide m p u now
    rw [Policy.usage_decide_of_keep_eq_false hkeep] at hd
    exact hd
  | true =>
    rw [if_pos rfl]
    cases ht : Store.setUsage s h m.raw (p.decide m u now).usage with
    | error e => exact ⟨u, hu, .nil u⟩
    | ok t =>
      exact ⟨_, Store.usage_of_record? (record?_setUsage ht (collide_refl _)), .decide m p u now⟩

/-- The usage record after a command has the history of the use that the command makes. -/
theorem history_run (hd : c.isDirect = false) (hs : Store.Sound s)
    (hapart : Check.Apart σ (m :: reached h s c)) (hu : Store.usage s h m.raw = .ok u) :
    ∃ v, Store.usage (c.run s).2 h m.raw = .ok v ∧ History m u (use? h m s c).toList v := by
  have hreached : Check.Apart σ (reached h s c) := hapart.subset (List.subset_cons_self ..)
  by_cases hm : m ∈ reached h s c
  · obtain rfl := holder_of_mem_reached hm
    cases c with
    | check r now =>
      simp only [reached, use?, holder, if_true] at *
      exact history_check hs hreached hm hu
    | checkPermitted r now =>
      simp only [reached, use?, holder, if_true] at *
      exact history_check hs hreached hm hu
    | evaluate h' m' p now =>
      simp only [reached, holder, if_true, List.mem_singleton] at *
      subst hm
      rw [use?, if_pos ⟨rfl, rfl⟩]
      exact history_evaluate hu
    | _ => cases hm
  · -- The command does not come to the record, so it makes no use and leaves the record alone.
    rw [use?_eq_none hs hreached hm]
    refine ⟨u, ?_, .nil u⟩
    rw [← hu]
    refine Store.usage_congr (record?_run hd fun _ n hn _ hc ↦ hm ?_)
    rwa [← hapart n (List.mem_cons_of_mem _ hn) m List.mem_cons_self hc]

theorem sound_runAll (hd : ∀ c ∈ cs, c.isDirect = false) (hs : Store.Sound s) :
    Store.Sound (runAll s cs).2 := by
  induction cs generalizing s with
  | nil => exact hs
  | cons c cs ih =>
    rw [List.forall_mem_cons] at hd
    exact ih hd.2 (sound_run hd.1 hs)

/-- The usage record after a run has the history of the uses in the run. -/
theorem history_runAll (hd : ∀ c ∈ cs, c.isDirect = false) (hs : Store.Sound s)
    (hapart : Check.Apart σ (m :: reachedAll h s cs)) (hu : Store.usage s h m.raw = .ok u) :
    ∃ v, Store.usage (runAll s cs).2 h m.raw = .ok v ∧ History m u (uses h m s cs) v := by
  induction cs generalizing s u with
  | nil => exact ⟨u, hu, .nil u⟩
  | cons c cs ih =>
    rw [List.forall_mem_cons] at hd
    rw [reachedAll] at hapart
    obtain ⟨v, hv, hc⟩ := history_run hd.1 hs
      (hapart.subset (List.cons_subset_cons _ (List.subset_append_left ..))) hu
    obtain ⟨w, hw, hcs⟩ := ih hd.2 (sound_run hd.1 hs)
      (hapart.subset (List.cons_subset_cons _ (List.subset_append_right ..))) hv
    exact ⟨w, hw, hc.append hcs⟩

/-- The usage record between two points of a run has the history of the uses between them. -/
theorem history_between {as bs : List Command} (hcs : as ++ bs <+: cs)
    (hd : ∀ c ∈ cs, c.isDirect = false) (hs : Store.Sound s)
    (hapart : Check.Apart σ (m :: reachedAll h s cs)) (hu : Store.usage s h m.raw = .ok u) :
    ∃ v w, Store.usage (runAll s as).2 h m.raw = .ok v ∧
      Store.usage (runAll s (as ++ bs)).2 h m.raw = .ok w ∧
        History m v (uses h m (runAll s as).2 bs) w := by
  have hd' (c : Command) (hc : c ∈ as ++ bs) : c.isDirect = false := hd c (hcs.subset hc)
  rw [List.forall_mem_append] at hd'
  obtain ⟨v, hv, -⟩ := history_runAll hd'.1 hs (hapart.subset (List.cons_subset_cons _
    (reachedAll_subset [] ((List.prefix_append as bs).trans hcs)))) hu
  obtain ⟨w, hw, hh⟩ := history_runAll hd'.2 (sound_runAll hd'.1 hs)
    (hapart.subset (List.cons_subset_cons _ (reachedAll_subset as hcs))) hv
  rw [← snd_runAll_append] at hw
  exact ⟨v, w, hv, hw, hh⟩

/-- The uses of a flag in a run are the commands that come to its usage record. -/
theorem isSome_use?_iff (hf : Fits σ h) {as : List Command} (hcs : as ++ [c] <+: cs)
    (hd : ∀ c ∈ cs, c.isDirect = false) (hs : Store.Sound s)
    (hapart : Check.Apart σ (reachedAll h s cs)) :
    (use? h m (runAll s as).2 c).isSome ↔ m ∈ reached h (runAll s as).2 c := by
  have hsound : Store.Sound (runAll s as).2 :=
    sound_runAll (fun c hc ↦ hd c (hcs.subset (List.mem_append_left _ hc))) hs
  have hreached : Check.Apart σ (reached h (runAll s as).2 c) := by
    apply hapart.subset
    have hsub := reachedAll_subset (h := h) (s := s) as hcs
    rwa [reachedAll, reachedAll, List.append_nil] at hsub
  constructor
  · intro hsome
    refine Decidable.byContradiction fun hm ↦ ?_
    rw [use?_eq_none hsound hreached hm] at hsome
    cases hsome
  · exact isSome_use? hf hsound hreached

/-! ## Usage records that cannot be read -/

theorem use?_check_of_not_fits {r : Request} (now : UInt64) (hf : ¬ Fits σ h) :
    use? h m s (check r now) = none := by
  by_cases hh : r.holder = h
  · subst hh
    rw [use?, if_pos rfl, Grants.check]
    cases hset : Check.granted s r with
    | error e => rfl
    | ok set => exact absurd (fits_of_validate (Check.granted_eq_ok_iff.mp hset).2.1) hf
  · exact if_neg hh

theorem reads_of_use?_eq_some {e : Error} {x : Use} (hf : ¬ Fits σ h)
    (hu : Store.usage s h m.raw = .error e) (hx : use? h m s c = some x) :
    x.policy.reads m = false := by
  cases c with
  | check r now => cases (use?_check_of_not_fits now hf).symm.trans hx
  | checkPermitted r now => cases (use?_check_of_not_fits now hf).symm.trans hx
  | evaluate h' m' p now =>
    rw [use?] at hx
    split at hx
    · cases hr : p.reads m with
      | false =>
        obtain ⟨vt, -, rfl⟩ := Option.map_eq_some_iff.mp hx
        exact hr
      | true =>
        rw [evaluate_eq_error hr hu] at hx
        cases hx
    · cases hx
  | _ => cases hx

/-- A usage record that cannot be read stays so, and only uses that do not look at it are made. -/
theorem uses_of_usage_eq_error {e : Error} (hd : ∀ c ∈ cs, c.isDirect = false) (hf : ¬ Fits σ h)
    (hu : Store.usage s h m.raw = .error e) :
    Store.usage (runAll s cs).2 h m.raw = .error e ∧
      ∀ x ∈ uses h m s cs, x.policy.reads m = false := by
  induction cs generalizing s with
  | nil => exact ⟨hu, by simp [uses]⟩
  | cons c cs ih =>
    rw [List.forall_mem_cons] at hd
    have hrun : record? (c.run s).2 h m.raw = record? s h m.raw :=
      record?_run hd.1 fun _ _ _ hf' ↦ absurd hf' hf
    obtain ⟨hcs, hxs⟩ := ih hd.2 ((Store.usage_congr hrun).trans hu)
    refine ⟨hcs, ?_⟩
    intro x hx
    rcases List.mem_append.mp hx with hx | hx
    · exact reads_of_use?_eq_some hf hu (Option.mem_toList.mp hx)
    · exact hxs x hx

end Command

/-- The sample commands come to the usage record of one flag. -/
theorem Sample.eq_granted_of_mem_reachedAll :
    ∀ a ∈ granted :: Command.reachedAll holder ByteStore.empty commands, a = granted := by
  decide +kernel

end Grants
