import Grants.Proofs.ByteStore.Lawful
import Grants.Proofs.Check.Findings
import Grants.Proofs.PlainStore.Lawful
import Grants.Proofs.Sample

/-!
# Previews

What a policy invokes does not show in the answer of a check, although the
invoking check writes between one required flag and the next: a verdict depends
on what the policy respects (`Policy.verdict_congr`), and every matched flag is
judged by the store before the check.  So the request with nothing invoked
foretells the answer, and leaves the store alone (`check_previewed`).
-/

namespace Grants

namespace Policy

variable {p q : Policy} {f : Flag}

/-- What the policy respects. -/
def respects (p : Policy) : Bool × Bool := (p.respectCooldown, p.respectLimit)

/-- The policy that respects the same and invokes nothing. -/
def quiet (p : Policy) : Policy := { p with invokeCooldown := false, invokeLimit := false }

@[simp] theorem respects_quiet : p.quiet.respects = p.respects := rfl

@[simp] theorem writes_quiet : p.quiet.writes f = false := by simp [writes, quiet]

theorem verdict_congr (hpq : p.respects = q.respects) (u : Usage) (now : UInt64) :
    p.verdict f u now = q.verdict f u now := by
  rw [respects, respects, Prod.mk.injEq] at hpq
  rw [verdict, verdict, hpq.1, hpq.2]

end Policy

/-- The same request under another policy. -/
def Request.under (r : Request) (p : Policy) : Request := { r with policy := p }

namespace Check

open LawfulStore

/-- The answer to `r` does not depend on what its policy invokes, and is known without a trace. -/
structure Previewed {σ : Type} [Store σ] (s : σ) (r : Request) (now : UInt64) : Prop where
  answer (p : Policy) : p.respects = r.policy.respects →
    (check s (r.under p) now).1 = (check s r now).1
  preview : check s (r.under r.policy.quiet) now = ((check s r now).1, s)

variable {σ : Type} [Store σ] [LawfulStore σ] {s : σ} {r : Request}

theorem fst_check_under {p : Policy} (now : UInt64)
    (hread : ∀ m ∈ matched s r, ∃ u, Store.usage s r.holder m.raw = .ok u)
    (hapart : Apart σ (matched s r)) (hp : p.respects = r.policy.respects) :
    (check s (r.under p) now).1 = (check s r now).1 := by
  cases hset : granted s r with
  | error e =>
    have hset' : granted s (r.under p) = .error e := hset
    rw [check, check, hset, hset']
  | ok set =>
    obtain ⟨u, hu⟩ := exists_usages hread
    obtain ⟨-, -, t, heq, -⟩ := check_eq now hset hapart hu
    obtain ⟨-, -, t', heq', -⟩ := check_eq (r := r.under p) now hset hapart hu
    rw [heq, heq']
    have hfinding : finding set (fun m ↦ p.decide m (u m) now) =
        finding set (fun m ↦ r.policy.decide m (u m) now) := by
      apply finding_congr
      intro m
      rw [Policy.answer_decide, Policy.answer_decide, Policy.verdict_congr hp]
    exact congrArg (fun d ↦ Except.ok (r.required.map d)) hfinding

theorem previewed (now : UInt64)
    (hread : ∀ m ∈ matched s r, ∃ u, Store.usage s r.holder m.raw = .ok u)
    (hapart : Apart σ (matched s r)) : Previewed s r now where
  answer _ hp := fst_check_under now hread hapart hp
  preview := by
    refine Prod.ext (fst_check_under now hread hapart Policy.respects_quiet) ?_
    apply snd_check_of_writes
    intro m _
    exact Policy.writes_quiet

end Check

/-- Policies that respect the same get the same answer, and the one that invokes nothing gets it
without a trace: in every plain store, and in every byte store in which the matched flags have
digests of their own and usage records that can be read. -/
theorem check_previewed :
    (∀ (s : PlainStore) (r : Request) (now : UInt64), Check.Previewed s r now) ∧
    ∀ (s : ByteStore) (r : Request) (now : UInt64),
      (∀ m ∈ Check.matched s r, ∃ u, s.usage r.holder m.raw = .ok u) →
      (∀ m ∈ Check.matched s r, ∀ m' ∈ Check.matched s r,
        Sha256.digest (Bytes.ofString m.raw) = Sha256.digest (Bytes.ofString m'.raw) → m = m') →
      Check.Previewed s r now := by
  constructor
  · intro s r now
    apply Check.previewed
    · intro m _
      exact ⟨_, rfl⟩
    · intro m _ m' _ heq
      exact Flag.ext_raw heq
  · intro s r now hread hapart
    exact Check.previewed now hread hapart

/-- The first required flag starts the cooldown of the granted flag, which the second one shares:
both pass, as they do in the preview. -/
theorem check_previewed_of_shared_match :
    ∃ (s : ByteStore) (v : Verdict),
      ByteStore.empty.setPermissions Sample.holder [] = .ok s ∧
      Check.matched s Sample.request = [Sample.granted, Sample.granted] ∧
      Check.Previewed s Sample.request 5 ∧
      (check s Sample.request 5).1 = .ok [.ofVerdict Sample.required Sample.granted v,
        .ofVerdict Sample.granted Sample.granted v] := by
  obtain ⟨s, hs⟩ : ∃ s, ByteStore.empty.setPermissions Sample.holder [] = .ok s := ⟨_, rfl⟩
  have hmatched : Check.matched s Sample.request = [Sample.granted, Sample.granted] := by
    cases hs
    decide +kernel
  have husage : s.usage Sample.holder Sample.granted.raw = .ok {} := by
    cases hs
    decide +kernel
  refine ⟨s, ⟨true, some false, none, false⟩, hs, hmatched,
    check_previewed.2 s Sample.request 5 ?_ ?_, ?_⟩
  · intro m hm
    rw [hmatched] at hm
    obtain rfl : m = Sample.granted := by simpa using hm
    exact ⟨_, husage⟩
  · simp [hmatched]
  · cases hs
    decide +kernel

end Grants
