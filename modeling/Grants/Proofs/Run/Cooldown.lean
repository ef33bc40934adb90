import Grants.Proofs.Run.History
import Grants.Proofs.Verdict

/-!
# Cooldowns over whole runs

As long as every use that invokes the cooldown also respects it, the time of the
last invocation never goes back (`History.notBefore`), whatever the clock does.
So a permitted use that respects the cooldown is a whole window away from every
permitted use before it that invoked the cooldown (`History.pairwise`).

`cooldown_kept` is this for runs of commands, whatever else happens in between.
-/

namespace Grants

/-- There was an invocation, and the last one was at `t` or later. -/
def Usage.NotBefore (t : UInt64) (u : Usage) : Prop := ∃ last, u.lastInvoked = some last ∧ t ≤ last

/-- The later of two uses respects the cooldown that the earlier one invoked. -/
def Use.Spaced (m : Flag) (x y : Use) : Prop :=
  x.passed = true → x.policy.invokeCooldown = true →
    y.passed = true → y.policy.respectCooldown = true →
      x.now ≤ y.now ∧
        min (1000 * m.cooldown.toNat) (UInt64.size - 1) ≤ y.now.toNat - x.now.toNat

namespace History

variable {m : Flag} {u v : Usage} {x : Use} {xs : List Use} {t : UInt64}

theorem lastInvoked_after (hc : m.hasCooldown = true) (x : Use) (u : Usage) :
    (x.after m u).lastInvoked =
      if (x.passed && x.policy.invokeCooldown) = true then some x.now else u.lastInvoked := by
  unfold Use.after Policy.invoke
  rw [hc]
  cases x.passed <;> rfl

/-- A permitted use that respects the cooldown comes a whole window after the last invocation. -/
theorem le_of_passed (hc : m.hasCooldown = true) (ht : u.NotBefore t)
    (hx : x.passed = (x.policy.verdict m u x.now).passed) (hp : x.passed = true)
    (hr : x.policy.respectCooldown = true) :
    t ≤ x.now ∧ min (1000 * m.cooldown.toNat) (UInt64.size - 1) ≤ x.now.toNat - t.toNat := by
  obtain ⟨last, hlast, hle⟩ := ht
  have hexpiry := (Policy.passed_verdict_iff.mp (hx.symm.trans hp)).1 hc hr
  have hwindow := Usage.expiry?_eq_none_iff.mp hexpiry last hlast
  have hpos := Flag.window_pos (Flag.hasCooldown_iff.mp hc)
  rw [Flag.toNat_window] at hwindow hpos
  rw [UInt64.le_iff_toNat_le] at hle ⊢
  -- The window is not empty, so time has gone by, and the clock stands after `last`.
  omega

theorem notBefore_after (hc : m.hasCooldown = true) (ht : u.NotBefore t)
    (hx : x.passed = (x.policy.verdict m u x.now).passed)
    (hxr : x.policy.invokeCooldown = true → x.policy.respectCooldown = true) :
    (x.after m u).NotBefore t := by
  unfold Usage.NotBefore
  rw [lastInvoked_after hc]
  by_cases hi : (x.passed && x.policy.invokeCooldown) = true
  · rw [if_pos hi]
    rw [Bool.and_eq_true] at hi
    exact ⟨x.now, rfl, (le_of_passed hc ht hx hi.1 (hxr hi.2)).1⟩
  · rw [if_neg hi]
    exact ht

theorem notBefore (hc : m.hasCooldown = true) (hh : History m u xs v)
    (hxs : ∀ x ∈ xs, x.policy.invokeCooldown = true → x.policy.respectCooldown = true)
    (ht : u.NotBefore t) : v.NotBefore t := by
  induction hh with
  | nil u => exact ht
  | cons hx _ ih =>
    rw [List.forall_mem_cons] at hxs
    exact ih hxs.2 (notBefore_after hc ht hx hxs.1)

/-- Every permitted use that respects the cooldown comes a whole window after an invocation that was
there before the history. -/
theorem le_of_mem (hc : m.hasCooldown = true) (hh : History m u xs v)
    (hxs : ∀ x ∈ xs, x.policy.invokeCooldown = true → x.policy.respectCooldown = true)
    (ht : u.NotBefore t) {y : Use} (hy : y ∈ xs) (hp : y.passed = true)
    (hr : y.policy.respectCooldown = true) :
    t ≤ y.now ∧ min (1000 * m.cooldown.toNat) (UInt64.size - 1) ≤ y.now.toNat - t.toNat := by
  induction hh with
  | nil u => cases hy
  | cons hx _ ih =>
    rw [List.forall_mem_cons] at hxs
    rcases List.mem_cons.mp hy with rfl | hy
    · exact le_of_passed hc ht hx hp hr
    · exact ih hxs.2 (notBefore_after hc ht hx hxs.1) hy

theorem pairwise (hc : m.hasCooldown = true) (hh : History m u xs v)
    (hxs : ∀ x ∈ xs, x.policy.invokeCooldown = true → x.policy.respectCooldown = true) :
    xs.Pairwise (Use.Spaced m) := by
  induction hh with
  | nil u => exact .nil
  | @cons u v x xs hx hh ih =>
    rw [List.forall_mem_cons] at hxs
    refine .cons ?_ (ih hxs.2)
    intro y hy hp hi
    have hlast : (x.after m u).NotBefore x.now := by
      unfold Usage.NotBefore
      rw [lastInvoked_after hc, hp, hi]
      exact ⟨x.now, rfl, UInt64.le_refl _⟩
    exact hh.le_of_mem hc hxs.2 hlast hy

end History

open Command

/-- A run from `s` keeps to the cooldown of a flag of a holder. -/
structure CooldownKept {σ : Type} [Store σ] (s : σ) (h : Holder) (m : Flag) (cs : List Command) :
    Prop where
  /-- The time of the last invocation never goes back. -/
  notBefore : ∀ as bs, as <+: bs → bs <+: cs → ∀ v t,
    Store.usage (runAll s as).2 h m.raw = .ok v → v.lastInvoked = some t →
      ∃ w, Store.usage (runAll s bs).2 h m.raw = .ok w ∧ w.NotBefore t
  spaced : (uses h m s cs).Pairwise (Use.Spaced m)

section Runs

variable {σ : Type} [Store σ] [LawfulStore σ] {s : σ} {h : Holder} {m : Flag} {u : Usage}
variable {cs : List Command}

theorem CooldownKept.of_usage_eq_error {e : Error} (hc : 0 < m.cooldown)
    (hd : ∀ c ∈ cs, c.isDirect = false) (hf : ¬ LawfulStore.Fits σ h)
    (hu : Store.usage s h m.raw = .error e) : CooldownKept s h m cs := by
  constructor
  · intro as bs has hbs v t hv
    have hd' (c : Command) (hc : c ∈ as) : c.isDirect = false := hd c ((has.trans hbs).subset hc)
    cases hv.symm.trans (uses_of_usage_eq_error hd' hf hu).1
  · have hxs := (uses_of_usage_eq_error hd hf hu).2
    refine List.pairwise_of_forall_mem_list fun x hx y _ _ hi ↦ ?_
    have hw := Policy.writes_eq_false_of_reads_eq_false (hxs x hx)
    rw [Policy.writes, Flag.hasCooldown_iff.mpr hc, hi] at hw
    cases hw

theorem cooldownKept (hc : 0 < m.cooldown) (hd : ∀ c ∈ cs, c.isDirect = false)
    (hs : Store.Sound s) (hapart : Check.Apart σ (m :: reachedAll h s cs))
    (hxs : ∀ x ∈ uses h m s cs, x.policy.invokeCooldown = true → x.policy.respectCooldown = true) :
    CooldownKept s h m cs := by
  cases hu : Store.usage s h m.raw with
  | error e =>
    refine .of_usage_eq_error hc hd (fun hf ↦ ?_) hu
    obtain ⟨u, hok⟩ := hs h m.raw hf
    cases hok.symm.trans hu
  | ok u =>
    rw [← Flag.hasCooldown_iff] at hc
    obtain ⟨v, -, hh⟩ := history_runAll hd hs hapart hu
    refine ⟨?_, hh.pairwise hc hxs⟩
    rintro as _ ⟨bs, rfl⟩ hcs v t hv hlast
    obtain ⟨v', w, hv', hw, hh⟩ := history_between hcs hd hs hapart hu
    cases hv.symm.trans hv'
    refine ⟨w, hw, hh.notBefore hc ?_ ⟨t, hlast, UInt64.le_refl t⟩⟩
    exact fun x hx ↦ hxs x (uses_subset as hcs hx)

end Runs

/-- Over whole runs of checks, evaluations and edits of flags, cooldowns keep invocations apart. -/
theorem cooldown_kept :
    (∀ (s : PlainStore) (h : Holder) (m : Flag) (cs : List Command), 0 < m.cooldown →
      (∀ c ∈ cs, c.isDirect = false) →
      (∀ x ∈ uses h m s cs, x.policy.invokeCooldown = true → x.policy.respectCooldown = true) →
      CooldownKept s h m cs) ∧
    ∀ (s : ByteStore) (h : Holder) (m : Flag) (cs : List Command), 0 < m.cooldown →
      (∀ c ∈ cs, c.isDirect = false) → s.Intact →
      (∀ a ∈ m :: reachedAll h s cs, ∀ b ∈ m :: reachedAll h s cs,
        Sha256.digest (Bytes.ofString a.raw) = Sha256.digest (Bytes.ofString b.raw) → a = b) →
      (∀ x ∈ uses h m s cs, x.policy.invokeCooldown = true → x.policy.respectCooldown = true) →
      CooldownKept s h m cs := by
  constructor
  · intro s h m cs hc hd hxs
    refine cooldownKept hc hd s.sound ?_ hxs
    intro a _ b _ heq
    exact Flag.ext_raw heq
  · intro s h m cs hc hd hs hapart hxs
    exact cooldownKept hc hd hs.sound hapart hxs

/-- A flag with a minute between uses is used four times, once too early. -/
theorem cooldown_kept_of_two_uses :
    (uses Sample.holder Sample.granted ByteStore.empty Sample.commands).map
        (fun x ↦ (x.now, x.passed)) = [(0, true), (5, false), (60000, true), (120000, false)] ∧
      CooldownKept PlainStore.empty Sample.holder Sample.granted Sample.commands ∧
      CooldownKept ByteStore.empty Sample.holder Sample.granted Sample.commands := by
  have hc : 0 < Sample.granted.cooldown := by decide
  have hd : ∀ c ∈ Sample.commands, c.isDirect = false := by decide
  refine ⟨by decide +kernel, cooldown_kept.1 .empty _ _ _ hc hd (by decide +kernel),
    cooldown_kept.2 .empty _ _ _ hc hd ByteStore.intact_empty ?_ (by decide +kernel)⟩
  intro a ha b hb _
  rw [Sample.eq_granted_of_mem_reachedAll a ha, Sample.eq_granted_of_mem_reachedAll b hb]

end Grants
