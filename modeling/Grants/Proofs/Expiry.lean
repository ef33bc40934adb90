import Grants.Proofs.Sample
import Grants.Proofs.Verdict

/-!
# When a cooldown clears

A use is blocked by a subtraction: less than a window has gone by since the last
invocation.  The time at which the cooldown clears is reported by an addition.
Both saturate, the one at zero, for clocks that stand before that invocation, and
the other at the last moment of the clock.

They agree (`Usage.expiry?_eq`), since a window is never empty and never longer
than the clock.  A reported time is the first at which the cooldown has cleared,
unless that lies beyond the clock, and then it never clears
(`cooldown_clears_as_reported`).
-/

namespace Grants

variable {p : Policy} {f : Flag} {u : Usage} {last : UInt64}

/-- A cooldown is running until a whole window after the last invocation, and what is reported of it
in the meantime does not depend on the time. -/
theorem Usage.expiry?_eq (hc : 0 < f.cooldown) (hl : u.lastInvoked = some last) (now : UInt64) :
    u.expiry? f now =
      if now.toNat < last.toNat + f.window.toNat then some (addSat last f.window) else none := by
  have hpos := f.window_pos hc
  have hiff : subSat now last < f.window ↔ now.toNat < last.toNat + f.window.toNat := by
    rw [UInt64.lt_iff_toNat_lt, toNat_subSat]
    omega
  simp only [expiry?, hl, hiff]

namespace Policy

/-- The cooldown after an invocation at `last`, with a window of `w`, clears at `e`: this is what
decisions on the usage record tell, at whatever time they are made. -/
structure ClearsAt (p : Policy) (f : Flag) (u : Usage) (last : UInt64) (w : Nat) (e : UInt64) :
    Prop where
  /-- The window ends before the clock does. -/
  within : last.toNat + w ≤ UInt64.size - 1 → e.toNat = last.toNat + w ∧
    ∀ t, (p.decide f u t).answer.onCooldown = some true ↔ t < e
  /-- The window does not end, and the last moment of the clock is reported. -/
  beyond : UInt64.size - 1 < last.toNat + w → e.toNat = UInt64.size - 1 ∧
    ∀ t, (p.decide f u t).answer.onCooldown = some true
  /-- The same time is reported as long as the cooldown is running, and none after it. -/
  reported (t : UInt64) : (p.decide f u t).answer.cooldownExpires =
    if (p.decide f u t).answer.onCooldown = some true then some e else none

theorem onCooldown_decide (hc : 0 < f.cooldown) (hr : p.respectCooldown = true) (u : Usage)
    (t : UInt64) : (p.decide f u t).answer.onCooldown = some (u.expiry? f t).isSome := by
  simp [answer_decide, verdict, Flag.hasCooldown_iff.mpr hc, hr]

theorem cooldownExpires_decide (hc : 0 < f.cooldown) (hr : p.respectCooldown = true) (u : Usage)
    (t : UInt64) : (p.decide f u t).answer.cooldownExpires = u.expiry? f t := by
  simp [answer_decide, verdict, Flag.hasCooldown_iff.mpr hc, hr]

theorem onCooldown_decide_iff (hc : 0 < f.cooldown) (hr : p.respectCooldown = true)
    (hl : u.lastInvoked = some last) (t : UInt64) :
    (p.decide f u t).answer.onCooldown = some true ↔
      t.toNat < last.toNat + f.window.toNat := by
  rw [onCooldown_decide hc hr, Usage.expiry?_eq hc hl]
  split <;> simp [*]

theorem clearsAt (hc : 0 < f.cooldown) (hr : p.respectCooldown = true)
    (hl : u.lastInvoked = some last) :
    p.ClearsAt f u last f.window.toNat (addSat last f.window) where
  within hle := by
    have hsum : (addSat last f.window).toNat = last.toNat + f.window.toNat := by
      rw [toNat_addSat, Nat.min_eq_left hle]
    refine ⟨hsum, fun t ↦ ?_⟩
    rw [onCooldown_decide_iff hc hr hl, UInt64.lt_iff_toNat_lt, hsum]
  beyond hlt := by
    refine ⟨by rw [toNat_addSat, Nat.min_eq_right (Nat.le_of_lt hlt)], fun t ↦ ?_⟩
    -- No moment of the clock is as late as the end of the window.
    exact (onCooldown_decide_iff hc hr hl t).mpr
      (Nat.lt_of_le_of_lt (Nat.le_sub_one_of_lt t.toNat_lt_size) hlt)
  reported t := by
    rw [cooldownExpires_decide hc hr, Usage.expiry?_eq hc hl]
    simp only [onCooldown_decide_iff hc hr hl]

end Policy

/-- Where a decision finds a cooldown running, it reports when it clears, and decisions at all times
agree with that. -/
theorem cooldown_clears_as_reported {now : UInt64} (hc : 0 < f.cooldown)
    (hr : p.respectCooldown = true) (hl : u.lastInvoked = some last)
    (hon : (p.decide f u now).answer.onCooldown = some true) :
    ∃ e, (p.decide f u now).answer.cooldownExpires = some e ∧
      p.ClearsAt f u last (min (1000 * f.cooldown.toNat) (UInt64.size - 1)) e := by
  have hclears := f.toNat_window ▸ Policy.clearsAt hc hr hl
  exact ⟨_, by rw [hclears.reported now, if_pos hon], hclears⟩

/-- A minute after an invocation the cooldown clears, and it does not if the clock ends before. -/
theorem cooldown_clears_as_reported_of_minute :
    (∃ e, (Sample.policy.decide Sample.granted ⟨some 5, 1⟩ 60004).answer.cooldownExpires = some e ∧
      Sample.policy.ClearsAt Sample.granted ⟨some 5, 1⟩ 5 60000 e ∧ e = 60005) ∧
    ∃ e, (Sample.policy.decide Sample.granted ⟨some (0 - 9), 2⟩ 7).answer.cooldownExpires = some e ∧
      Sample.policy.ClearsAt Sample.granted ⟨some (0 - 9), 2⟩ (0 - 9) 60000 e ∧ e = 0 - 1 := by
  have hc : 0 < Sample.granted.cooldown := by decide
  constructor
  · have hon : (Sample.policy.decide Sample.granted ⟨some 5, 1⟩ 60004).answer.onCooldown =
        some true := by decide
    obtain ⟨e, he, hclears⟩ := cooldown_clears_as_reported hc rfl rfl hon
    exact ⟨e, he, hclears, by cases he; decide⟩
  · -- The clock stands before the invocation, and too little of it is left after that.
    have hon : (Sample.policy.decide Sample.granted ⟨some (0 - 9), 2⟩ 7).answer.onCooldown =
        some true := by decide
    obtain ⟨e, he, hclears⟩ := cooldown_clears_as_reported hc rfl rfl hon
    exact ⟨e, he, hclears, by cases he; decide⟩

end Grants
