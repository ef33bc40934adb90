import Grants.Proofs.Run.History
import Grants.Proofs.Verdict

/-!
# Limits over whole runs

The number of uses in a usage record is the number of permitted uses that invoked
the limit (`History.uses_eq`).  A use that respects the limit passes only below
it, so uses that respect and invoke it pass no more often than there are uses
left (`History.countP_le`), and without a cooldown just as often
(`History.countP_eq`).

`limit_kept` is this for runs of commands, whatever else happens in between.
-/

namespace Grants

namespace History

variable {m : Flag} {u v : Usage} {xs : List Use}

theorem uses_after (hl : m.hasLimit = true) (x : Use) (u : Usage) :
    (x.after m u).uses.toNat =
      min (u.uses.toNat + (x.passed && x.policy.invokeLimit).toNat) (UInt64.size - 1) := by
  have hlt := u.uses.toNat_lt_size
  unfold Use.after Policy.invoke
  rw [hl]
  cases x.passed with
  | false =>
    change u.uses.toNat = min (u.uses.toNat + 0) (UInt64.size - 1)
    omega
  | true =>
    cases x.policy.invokeLimit with
    | false =>
      change u.uses.toNat = min (u.uses.toNat + 0) (UInt64.size - 1)
      omega
    | true =>
      exact toNat_addSat u.uses 1

/-- The uses after a history are those before it and the permitted ones that invoked the limit. -/
theorem uses_eq (hl : m.hasLimit = true) (hh : History m u xs v) :
    v.uses.toNat =
      min (u.uses.toNat + xs.countP fun x ↦ x.passed && x.policy.invokeLimit)
        (UInt64.size - 1) := by
  induction hh with
  | nil u =>
    have hlt := u.uses.toNat_lt_size
    rw [List.countP_nil]
    omega
  | @cons u v x xs hx _ ih =>
    rw [ih, uses_after hl, List.countP_cons]
    cases x.passed && x.policy.invokeLimit <;> simp <;> omega

theorem uses_le (hl : m.hasLimit = true) (hh : History m u xs v) : u.uses ≤ v.uses := by
  have hlt := u.uses.toNat_lt_size
  rw [UInt64.le_iff_toNat_le, hh.uses_eq hl]
  omega

/-- Of the uses that respect and invoke the limit, no more pass than there are uses left. -/
theorem countP_le (hl : m.hasLimit = true) (hh : History m u xs v) :
    (xs.countP fun x ↦ x.passed && x.policy.respectLimit && x.policy.invokeLimit) ≤
      m.limit.toNat - u.uses.toNat := by
  induction hh with
  | nil u => simp
  | @cons u v x xs hx _ ih =>
    have hlt := m.limit.toNat_lt_size
    rw [uses_after hl] at ih
    rw [List.countP_cons]
    by_cases hc : (x.passed && x.policy.respectLimit && x.policy.invokeLimit) = true
    · rw [if_pos hc]
      -- The use was below the limit, so the count of uses does not saturate.
      simp only [Bool.and_eq_true] at hc
      obtain ⟨⟨hp, hr⟩, hi⟩ := hc
      have hleft : u.uses.toNat < m.limit.toNat := UInt64.lt_iff_toNat_lt.mp
        ((Policy.passed_verdict_iff.mp (hx.symm.trans hp)).2 hl hr)
      rw [hp, hi, Bool.true_and, Bool.toNat_true] at ih
      omega
    · rw [if_neg hc]
      omega

/-- If every use respects and invokes the limit, and nothing else, as many pass as can. -/
theorem countP_eq (hl : m.hasLimit = true) (hc : m.hasCooldown = false) (hh : History m u xs v)
    (hxs : ∀ x ∈ xs, x.policy.respectLimit = true ∧ x.policy.invokeLimit = true) :
    xs.countP (·.passed) = min xs.length (m.limit.toNat - u.uses.toNat) := by
  induction hh with
  | nil u => simp
  | @cons u v x xs hx _ ih =>
    have hlt := m.limit.toNat_lt_size
    rw [List.forall_mem_cons] at hxs
    obtain ⟨⟨hr, hi⟩, hxs⟩ := hxs
    have hpassed : x.passed = true ↔ u.uses.toNat < m.limit.toNat := by
      rw [hx, Policy.passed_verdict_iff, ← UInt64.lt_iff_toNat_lt]
      simp [hl, hc, hr]
    rw [List.countP_cons, List.length_cons, ih hxs, uses_after hl, hi, Bool.and_true]
    cases hp : x.passed with
    | true =>
      have hleft := hpassed.mp hp
      rw [if_pos rfl, Bool.toNat_true]
      omega
    | false =>
      have hnone : ¬ u.uses.toNat < m.limit.toNat := fun h ↦ by
        rw [hpassed.mpr h] at hp
        cases hp
      rw [if_neg Bool.false_ne_true, Bool.toNat_false]
      omega

end History

open Command

/-- A run from `s` keeps to the limit of a flag of a holder, which has the usage record `u`. -/
structure LimitKept {σ : Type} [Store σ] [LawfulStore σ] (s : σ) (h : Holder) (m : Flag) (u : Usage)
    (cs : List Command) : Prop where
  /-- The uses of the flag are the commands that come to its usage record. -/
  isSome_use?_iff : LawfulStore.Fits σ h → ∀ as c, as ++ [c] <+: cs →
    ((use? h m (runAll s as).2 c).isSome ↔ m ∈ reached h (runAll s as).2 c)
  uses_le : ∀ as bs, as <+: bs → bs <+: cs → ∃ v w,
    Store.usage (runAll s as).2 h m.raw = .ok v ∧ Store.usage (runAll s bs).2 h m.raw = .ok w ∧
      v.uses ≤ w.uses
  uses_eq : ∃ v, Store.usage (runAll s cs).2 h m.raw = .ok v ∧
    v.uses.toNat = min (u.uses.toNat +
      (uses h m s cs).countP fun x ↦ x.passed && x.policy.invokeLimit) (UInt64.size - 1)
  countP_le : ((uses h m s cs).countP fun x ↦
    x.passed && x.policy.respectLimit && x.policy.invokeLimit) ≤ m.limit.toNat - u.uses.toNat
  countP_eq : m.cooldown = 0 →
    (∀ x ∈ uses h m s cs, x.policy.respectLimit = true ∧ x.policy.invokeLimit = true) →
    (uses h m s cs).countP (·.passed) =
      min (uses h m s cs).length (m.limit.toNat - u.uses.toNat)

section Runs

variable {σ : Type} [Store σ] [LawfulStore σ] {s : σ} {h : Holder} {m : Flag} {u : Usage}
variable {cs : List Command}

theorem limitKept (hl : 0 < m.limit) (hd : ∀ c ∈ cs, c.isDirect = false) (hs : Store.Sound s)
    (hapart : Check.Apart σ (m :: reachedAll h s cs)) (hu : Store.usage s h m.raw = .ok u) :
    LimitKept s h m u cs := by
  rw [← Flag.hasLimit_iff] at hl
  obtain ⟨v, hv, hh⟩ := history_runAll hd hs hapart hu
  refine ⟨?_, ?_, ⟨v, hv, hh.uses_eq hl⟩, hh.countP_le hl, ?_⟩
  · intro hf as c hcs
    exact isSome_use?_iff hf hcs hd hs (hapart.subset (List.subset_cons_self ..))
  · rintro as _ ⟨bs, rfl⟩ hcs
    obtain ⟨v, w, hv, hw, hh⟩ := history_between hcs hd hs hapart hu
    exact ⟨v, w, hv, hw, hh.uses_le hl⟩
  · intro hc hxs
    refine hh.countP_eq hl ?_ hxs
    rw [Flag.hasCooldown, hc]
    rfl

end Runs

/-- Over whole runs of checks, evaluations and edits of flags, a limit is never over-granted. -/
theorem limit_kept :
    (∀ (s : PlainStore) (h : Holder) (m : Flag) (cs : List Command), 0 < m.limit →
      (∀ c ∈ cs, c.isDirect = false) → LimitKept s h m (s.usage h m.raw) cs) ∧
    ∀ (s : ByteStore) (h : Holder) (m : Flag) (u : Usage) (cs : List Command), 0 < m.limit →
      (∀ c ∈ cs, c.isDirect = false) → s.Intact →
      (∀ a ∈ m :: reachedAll h s cs, ∀ b ∈ m :: reachedAll h s cs,
        Sha256.digest (Bytes.ofString a.raw) = Sha256.digest (Bytes.ofString b.raw) → a = b) →
      s.usage h m.raw = .ok u → LimitKept s h m u cs := by
  constructor
  · intro s h m cs hl hd
    refine limitKept hl hd s.sound ?_ rfl
    intro a _ b _ heq
    exact Flag.ext_raw heq
  · intro s h m u cs hl hd hs hapart hu
    exact limitKept hl hd hs.sound hapart hu

/-- A flag that may be used twice is used four times. -/
theorem limit_kept_of_two_uses :
    (uses Sample.holder Sample.granted ByteStore.empty Sample.commands).map (·.passed) =
        [true, false, true, false] ∧
      LimitKept PlainStore.empty Sample.holder Sample.granted {} Sample.commands ∧
      LimitKept ByteStore.empty Sample.holder Sample.granted {} Sample.commands := by
  have hl : 0 < Sample.granted.limit := by decide
  have hd : ∀ c ∈ Sample.commands, c.isDirect = false := by decide
  refine ⟨by decide +kernel, limit_kept.1 .empty _ _ _ hl hd,
    limit_kept.2 .empty _ _ _ _ hl hd ByteStore.intact_empty ?_ rfl⟩
  intro a ha b hb _
  rw [Sample.eq_granted_of_mem_reachedAll a ha, Sample.eq_granted_of_mem_reachedAll b hb]

end Grants
