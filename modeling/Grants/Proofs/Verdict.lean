import Grants.Policy

/-!
# When a use passes

A use passes if no cooldown that it respects is running, and no limit that it
respects is exhausted (`Policy.passed_verdict_iff`).  The verdict reports each of
the two by itself: when the cooldown clears, and whether the limit is exhausted
(`Policy.limitExhausted_verdict_iff`).

A cooldown clears when its window has gone by since the last invocation
(`Usage.expiry?_eq_none_iff`); the clock may also stand before that invocation,
and then no time has gone by.
-/

namespace Grants

variable {f : Flag} {u : Usage} {now : UInt64}

theorem Flag.hasCooldown_iff : f.hasCooldown = true ↔ 0 < f.cooldown := decide_eq_true_iff

theorem Flag.hasLimit_iff : f.hasLimit = true ↔ 0 < f.limit := decide_eq_true_iff

theorem Flag.toNat_window (f : Flag) :
    f.window.toNat = min (1000 * f.cooldown.toNat) (UInt64.size - 1) := by
  rw [Flag.window, toNat_mulSat, Nat.mul_comm]
  rfl

/-- Even the shortest cooldown takes some time. -/
theorem Flag.window_pos (hc : 0 < f.cooldown) : 0 < f.window.toNat := by
  have hpos := UInt64.lt_iff_toNat_lt.mp hc
  have hsize : 1 < UInt64.size := by decide
  rw [UInt64.toNat_zero] at hpos
  rw [toNat_window]
  omega

theorem Usage.expiry?_eq_none_iff :
    u.expiry? f now = none ↔
      ∀ last, u.lastInvoked = some last → f.window.toNat ≤ now.toNat - last.toNat := by
  unfold Usage.expiry?
  cases u.lastInvoked with
  | none => simp
  | some last => simp [UInt64.lt_iff_toNat_lt]

theorem Usage.exhausts_iff : u.exhausts f = true ↔ f.limit ≤ u.uses := decide_eq_true_iff

namespace Policy

variable {p : Policy}

theorem cooldownExpires_verdict_eq_none_iff :
    (p.verdict f u now).cooldownExpires = none ↔
      (f.hasCooldown = true → p.respectCooldown = true → u.expiry? f now = none) := by
  unfold verdict
  cases f.hasCooldown <;> cases p.respectCooldown <;> simp

/-- An exhausted limit is reported if it is respected, whether or not the cooldown is running. -/
theorem limitExhausted_verdict_iff :
    (p.verdict f u now).limitExhausted = true ↔
      f.hasLimit = true ∧ p.respectLimit = true ∧ f.limit ≤ u.uses := by
  change (f.hasLimit && p.respectLimit && u.exhausts f) = true ↔ _
  rw [Bool.and_eq_true, Bool.and_eq_true, Usage.exhausts_iff, and_assoc]

theorem passed_verdict_iff :
    (p.verdict f u now).passed = true ↔
      (f.hasCooldown = true → p.respectCooldown = true → u.expiry? f now = none) ∧
      (f.hasLimit = true → p.respectLimit = true → u.uses < f.limit) := by
  have hpassed : (p.verdict f u now).passed =
      ((p.verdict f u now).cooldownExpires.isNone && !(p.verdict f u now).limitExhausted) := rfl
  rw [hpassed, Bool.and_eq_true, Option.isNone_iff_eq_none, cooldownExpires_verdict_eq_none_iff,
    Bool.not_eq_true', ← Bool.not_eq_true, limitExhausted_verdict_iff]
  simp only [not_and, UInt64.not_le]

end Policy

end Grants
