import Grants.Command
import Grants.Proofs.Check.Findings
import Grants.Proofs.PlainStore.Lawful
import Grants.Proofs.ByteStore.Lawful
import Grants.Proofs.Sample
import Mathlib.Data.List.Forall2

/-!
# A check, one matched flag at a time

What a check finds and leaves is fixed by the store before it: each matched flag
is decided on as if it were the only one, however many required flags it answers
and whatever is written in between (`check_pointwise`).  The plain store needs
nothing for this.  The byte store needs usage records that can be read, and no
two matched flags with one digest.
-/

namespace Grants

namespace Check

open LawfulStore

/-- A check of `r` at `now` that finds `fs` and leaves `t`, seen from the store `s` before it, in
which the holder has the usage records `u`. -/
structure Pointwise {σ : Type} [Store σ] [LawfulStore σ] (s : σ) (u : Flag → Usage) (r : Request)
    (now : UInt64) (fs : List Finding) (t : σ) : Prop where
  findings : ∃ stored, Store.permissions s r.holder = .ok stored ∧
    List.Forall₂ (Tells (.merged stored r.additional) fun m ↦ r.policy.decide m (u m) now)
      r.required fs
  usage : ∀ m ∈ matched s r, Store.usage t r.holder m.raw =
    .ok (if (r.policy.decide m (u m) now).keep then (r.policy.decide m (u m) now).usage else u m)
  /-- A usage record is as it was, unless it is that of a matched flag whose decision is kept. -/
  apart : ∀ h key, (h = r.holder → ∀ m ∈ matched s r, (r.policy.decide m (u m) now).keep →
    ¬ Collide σ m.raw key) → record? t h key = record? s h key
  rest : rest t = rest s

variable {σ : Type} [Store σ] [LawfulStore σ] {s t : σ} {u : Flag → Usage} {r : Request}
variable {now : UInt64} {fs : List Finding}

/-- A check leaves the flags of every holder alone. -/
theorem Pointwise.permissions_eq (hp : Pointwise s u r now fs t) (h : Holder) :
    Store.permissions t h = Store.permissions s h :=
  LawfulStore.permissions_eq h hp.rest

theorem pointwise (hread : ∀ m ∈ matched s r, Store.usage s r.holder m.raw = .ok (u m))
    (hapart : Apart σ (matched s r)) (hcheck : check s r now = (.ok fs, t)) :
    Pointwise s u r now fs t := by
  cases hset : granted s r with
  | error e =>
    unfold check at hcheck
    rw [hset] at hcheck
    cases hcheck
  | ok set =>
    obtain ⟨done, memo, t', heq, hp, hdone⟩ := check_eq now hset hapart hread
    cases heq.symm.trans hcheck
    obtain ⟨-, -, stored, hstored, rfl⟩ := granted_eq_ok_iff.mp hset
    refine ⟨⟨stored, hstored, ?_⟩, ?_, ?_, hp.rest⟩
    · rw [List.forall₂_map_right_iff, List.forall₂_same]
      intro f _
      exact tells_finding _ _ f
    · intro m hm
      cases hkeep : (r.policy.decide m (u m) now).keep with
      | true =>
        rw [if_pos rfl]
        exact Store.usage_of_record? (hp.kept m ((hdone m).mpr hm) hkeep)
      | false =>
        rw [if_neg Bool.false_ne_true, ← hread m hm]
        -- What was written belongs to matched flags that are kept, so to others than `m`.
        apply Store.usage_congr
        apply hp.apart
        intro _ n hn hk hc
        rw [hapart n ((hdone n).mp hn) m hm hc, hkeep] at hk
        cases hk
    · intro h key hkey
      exact hp.apart h key fun hh m hm ↦ hkey hh m ((hdone m).mp hm)

end Check

/-- Each finding of a check is the decision on its matched flag and the usage record before the
check, and the check leaves in that usage record what the decision does. -/
theorem check_pointwise :
    (∀ (s t : PlainStore) (r : Request) (now : UInt64) (fs : List Finding),
      check s r now = (.ok fs, t) →
      Check.Pointwise s (fun m ↦ s.usage r.holder m.raw) r now fs t) ∧
    ∀ (s t : ByteStore) (u : Flag → Usage) (r : Request) (now : UInt64) (fs : List Finding),
      (∀ m ∈ Check.matched s r, s.usage r.holder m.raw = .ok (u m)) →
      (∀ m ∈ Check.matched s r, ∀ m' ∈ Check.matched s r,
        Sha256.digest (Bytes.ofString m.raw) = Sha256.digest (Bytes.ofString m'.raw) → m = m') →
      check s r now = (.ok fs, t) → Check.Pointwise s u r now fs t := by
  constructor
  · intro s t r now fs
    apply Check.pointwise
    · intro m _
      rfl
    · intro m _ m' _ heq
      exact Flag.ext_raw heq
  · intro s t u r now fs hread hapart
    exact Check.pointwise hread hapart

/-- Two required flags share a granted flag with one use left: both pass, and one use is taken. -/
theorem check_pointwise_of_shared_match :
    ∃ (s t : PlainStore) (s' t' : ByteStore) (fs : List Finding),
      Check.matched s' Sample.request = [Sample.granted, Sample.granted] ∧
      fs = [⟨Sample.required, true, some false, none, some Sample.granted, false⟩,
        ⟨Sample.granted, true, some false, none, some Sample.granted, false⟩] ∧
      Check.Pointwise s (fun m ↦ s.usage Sample.holder m.raw) Sample.request 5 fs t ∧
      Check.Pointwise s' (fun _ ↦ { uses := 1 }) Sample.request 5 fs t' := by
  let s := (PlainStore.empty.setPermissions Sample.holder []).setUsage Sample.holder
    Sample.granted.raw { uses := 1 }
  obtain ⟨s', hs'⟩ : ∃ s', (ByteStore.empty.setPermissions Sample.holder []).bind
      (·.setUsage Sample.holder Sample.granted.raw { uses := 1 }) = .ok s' := ⟨_, rfl⟩
  have hmatched : Check.matched s' Sample.request = [Sample.granted, Sample.granted] := by
    cases hs'
    decide +kernel
  have husage : s'.usage Sample.holder Sample.granted.raw = .ok { uses := 1 } := by
    cases hs'
    decide +kernel
  have hcheck : (check s' Sample.request 5).1 =
      .ok [⟨Sample.required, true, some false, none, some Sample.granted, false⟩,
        ⟨Sample.granted, true, some false, none, some Sample.granted, false⟩] := by
    cases hs'
    decide +kernel
  refine ⟨s, _, s', _, _, hmatched, rfl, check_pointwise.1 s _ Sample.request 5 _ rfl,
    check_pointwise.2 s' _ _ Sample.request 5 _ ?_ ?_ (Prod.ext hcheck rfl)⟩
  · intro m hm
    rw [hmatched] at hm
    obtain rfl : m = Sample.granted := by simpa using hm
    exact husage
  · simp [hmatched]

end Grants
