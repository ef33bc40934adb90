import Grants.Flag.Basic
import Grants.Saturating
import Grants.Usage

/-!
# Cooldowns and usage limits

A policy says, for cooldowns and for limits, whether they are respected and
whether a permitted use invokes them.  `Policy.decide` judges one use of a
granted flag at a given time, and `Policy.invoke` is what a permitted use leaves
in the usage record.
-/

namespace Grants

structure Policy where
  respectCooldown : Bool := false
  invokeCooldown : Bool := false
  respectLimit : Bool := false
  invokeLimit : Bool := false
  deriving DecidableEq, Repr

structure Verdict where
  passed : Bool
  /-- Present when the cooldown was respected. -/
  onCooldown : Option Bool
  /-- The time at which the cooldown clears. -/
  cooldownExpires : Option UInt64
  limitExhausted : Bool
  deriving DecidableEq, Repr

namespace Verdict

/-- Nothing stands in the way, and nothing was looked at. -/
def pass : Verdict := ⟨true, none, none, false⟩

end Verdict

/-- The cooldown in milliseconds. -/
def Flag.window (f : Flag) : UInt64 := mulSat f.cooldown 1000

namespace Usage

/-- The time at which a running cooldown clears. -/
def expiry? (u : Usage) (f : Flag) (now : UInt64) : Option UInt64 :=
  match u.lastInvoked with
  | some last => if subSat now last < f.window then some (addSat last f.window) else none
  | none => none

def exhausts (u : Usage) (f : Flag) : Bool := decide (f.limit ≤ u.uses)

end Usage

namespace Policy

variable (p : Policy) (f : Flag)

/-- Does a use of the flag look at its usage record? -/
def reads : Bool :=
  f.hasCooldown && (p.respectCooldown || p.invokeCooldown) ||
    f.hasLimit && (p.respectLimit || p.invokeLimit)

/-- Does a permitted use of the flag change its usage record? -/
def writes : Bool := f.hasCooldown && p.invokeCooldown || f.hasLimit && p.invokeLimit

/-- A cooldown and an exhausted limit are reported independently of each other. -/
def verdict (u : Usage) (now : UInt64) : Verdict :=
  let timed := f.hasCooldown && p.respectCooldown
  let expiry := if timed then u.expiry? f now else none
  let exhausted := f.hasLimit && p.respectLimit && u.exhausts f
  { passed := expiry.isNone && !exhausted
    onCooldown := if timed then some expiry.isSome else none
    cooldownExpires := expiry
    limitExhausted := exhausted }

/-- The usage record after a permitted use. -/
def invoke (u : Usage) (now : UInt64) : Usage :=
  { lastInvoked := if f.hasCooldown && p.invokeCooldown then some now else u.lastInvoked
    uses := if f.hasLimit && p.invokeLimit then addSat u.uses 1 else u.uses }

/-- The verdict on one use, and the usage record after it. -/
def decide (u : Usage) (now : UInt64) : Change Verdict :=
  let v := p.verdict f u now
  if v.passed then ⟨v, p.invoke f u now, p.writes f⟩ else ⟨v, u, false⟩

/-- Decisions on uses one after the other, each on the usage record that the one before it
leaves. -/
def decideAll (u : Usage) : List UInt64 → List (Change Verdict)
  | [] => []
  | now :: nows =>
    let change := p.decide f u now
    change :: decideAll change.usage nows

variable {p f}

theorem invoke_of_writes_eq_false (h : p.writes f = false) (u : Usage) (now : UInt64) :
    p.invoke f u now = u := by
  rw [writes, Bool.or_eq_false_iff] at h
  simp [invoke, h.1, h.2]

theorem verdict_of_reads_eq_false (h : p.reads f = false) (u : Usage) (now : UInt64) :
    p.verdict f u now = .pass := by
  simp only [reads, Bool.or_eq_false_iff, Bool.and_eq_false_imp] at h
  have hc : (f.hasCooldown && p.respectCooldown) = false := by
    rw [Bool.and_eq_false_imp]
    exact fun hf ↦ (h.1 hf).1
  have hl : (f.hasLimit && p.respectLimit) = false := by
    rw [Bool.and_eq_false_imp]
    exact fun hf ↦ (h.2 hf).1
  simp [verdict, Verdict.pass, hc, hl]

/-- What is not read is not written. -/
theorem writes_eq_false_of_reads_eq_false (h : p.reads f = false) : p.writes f = false := by
  simp only [reads, Bool.or_eq_false_iff, Bool.and_eq_false_imp] at h
  simp only [writes, Bool.or_eq_false_iff, Bool.and_eq_false_imp]
  exact ⟨fun hf ↦ (h.1 hf).2, fun hf ↦ (h.2 hf).2⟩

theorem answer_decide (u : Usage) (now : UInt64) : (p.decide f u now).answer = p.verdict f u now := by
  cases h : (p.verdict f u now).passed <;> simp [decide, h]

theorem keep_decide (u : Usage) (now : UInt64) :
    (p.decide f u now).keep = ((p.verdict f u now).passed && p.writes f) := by
  cases h : (p.verdict f u now).passed <;> simp [decide, h]

theorem usage_decide (u : Usage) (now : UInt64) :
    (p.decide f u now).usage = if (p.verdict f u now).passed then p.invoke f u now else u := by
  cases h : (p.verdict f u now).passed <;> simp [decide, h]

/-- A decision that keeps nothing leaves the usage record as it was. -/
theorem usage_decide_of_keep_eq_false {u : Usage} {now : UInt64}
    (h : (p.decide f u now).keep = false) : (p.decide f u now).usage = u := by
  rw [keep_decide] at h
  rw [usage_decide]
  cases hv : (p.verdict f u now).passed with
  | false => rfl
  | true =>
    rw [hv, Bool.true_and] at h
    exact invoke_of_writes_eq_false h u now

end Policy

end Grants
