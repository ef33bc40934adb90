import Grants.Proofs.ByteStore.Lawful
import Grants.Proofs.Check.Findings
import Grants.Proofs.Sample

/-!
# What a failed check leaves

A check of a byte store fails before it evaluates any flag, and then the store is
as it was, or at a matched flag whose usage record somebody has damaged.  Each
evaluation is an update of its own, so those before the damaged record stay: the
store is as they leave it, and nothing after them leaves a trace (`check_failed`).
A check that invokes nothing leaves no trace at all.
-/

namespace Grants

namespace ByteStore

variable {s t : ByteStore} {h : Holder} {p : Policy} {now : UInt64} {ms : List Flag} {m : Flag}
variable {v : Verdict} {flag : String} {e : Error}

/-- The usage record under the text has a length that none has, and `e` says so. -/
def Damaged (s : ByteStore) (h : Holder) (flag : String) (e : Error) : Prop :=
  ∃ key bytes, Key.ofUsage h flag = .ok key ∧ s.usages[key]? = some bytes ∧
    bytes.length ≠ Record.usageLength ∧ e = .store (.corruptUsage bytes.length)

/-- A usage record of a holder that fits cannot be read only if it is damaged. -/
theorem damaged_of_usage (hf : h.Fits) (he : s.usage h flag = .error e) : s.Damaged h flag e := by
  obtain ⟨key, hk⟩ := Key.exists_ofUsage hf flag
  cases hb : s.usages[key]? with
  | none => cases (usage_of_absent hk hb).symm.trans he
  | some bytes =>
    rw [usage_of_present hk hb] at he
    obtain ⟨hlen, rfl⟩ := Record.usage_eq_error_iff.mp he
    exact ⟨key, bytes, hk, hb, hlen, rfl⟩

/-- What is written is not damaged, so evaluations find damage only where it was. -/
theorem Damaged.of_evaluate (ht : evaluate s h m p now = .ok (v, t)) (hd : t.Damaged h flag e) :
    s.Damaged h flag e := by
  rcases Check.eq_or_writes_of_evaluate ht with rfl | ⟨-, -, -, u, ht⟩
  · exact hd
  obtain ⟨key, -, -, rfl⟩ := setUsage_eq_ok_iff.mp ht
  obtain ⟨key', bytes, hk', hb, hlen, rfl⟩ := hd
  rw [Std.ExtTreeMap.getElem?_insert] at hb
  split at hb
  · cases hb
    exact absurd (Record.length_ofUsage u) hlen
  · exact ⟨key', bytes, hk', hb, hlen, rfl⟩

/-- Only usage records of flags in `ms` that the policy invokes are not as they were. -/
structure Invoked (h : Holder) (p : Policy) (ms : List Flag) (s t : ByteStore) : Prop where
  holders : t.holders = s.holders
  definitions : t.definitions = s.definitions
  usages (key : Bytes) : t.usages[key]? = s.usages[key]? ∨
    ∃ m ∈ ms, p.writes m = true ∧ Key.ofUsage h m.raw = .ok key ∧
      ∃ u, t.usages[key]? = some (Record.ofUsage u)

namespace Invoked

theorem refl (s : ByteStore) : Invoked h p ms s s := ⟨rfl, rfl, fun _ ↦ .inl rfl⟩

theorem evaluate {s' : ByteStore} (hs : Invoked h p ms s s') (hm : m ∈ ms)
    (ht : Grants.evaluate s' h m p now = .ok (v, t)) : Invoked h p ms s t := by
  rcases Check.eq_or_writes_of_evaluate ht with rfl | ⟨hw, -, -, u, ht⟩
  · exact hs
  obtain ⟨key, hk, -, rfl⟩ := setUsage_eq_ok_iff.mp ht
  refine ⟨hs.holders, hs.definitions, ?_⟩
  intro key'
  rw [Std.ExtTreeMap.getElem?_insert]
  split
  · next heq =>
    cases Std.LawfulEqCmp.compare_eq_iff_eq.mp heq
    exact .inr ⟨m, hm, hw, hk, u, rfl⟩
  · exact hs.usages key'

theorem evaluateAll (ht : Check.evaluateAll h p now ms s = .ok t) : Invoked h p ms s t :=
  Check.evaluateAll_induction (fun hm hs ↦ hs.evaluate hm) (refl s) ht

end Invoked

end ByteStore

namespace Check

variable {s t : ByteStore} {r : Request} {now : UInt64} {e : Error} {done : List Flag}

/-- A check stops at a damaged usage record, after it has evaluated the flags in `done`. -/
structure Stopped (s : ByteStore) (r : Request) (now : UInt64) (e : Error) (done : List Flag)
    (t : ByteStore) : Prop where
  damaged : ∃ m rest, distinct (matched s r) = done ++ m :: rest ∧ r.policy.reads m = true ∧
    s.Damaged r.holder m.raw e
  evaluated : evaluateAll r.holder r.policy now done s = .ok t
  invoked : ByteStore.Invoked r.holder r.policy done s t

theorem exists_stopped {set : FlagSet} (hset : granted s r = .ok set)
    (hcheck : check s r now = (.error e, t)) : ∃ done, Stopped s r now e done t := by
  obtain ⟨done, m, rest, hms, ht, hr, hu⟩ := exists_of_check_eq_error hset hcheck
  have hfits : r.holder.Fits := Holder.fits_of_validate (granted_eq_ok_iff.mp hset).2.1
  have hd : s.Damaged r.holder m.raw e := evaluateAll_induction
    (P := fun t ↦ t.Damaged r.holder m.raw e → s.Damaged r.holder m.raw e)
    (fun _ hs ht hd ↦ hs (hd.of_evaluate ht)) id ht (ByteStore.damaged_of_usage hfits hu)
  exact ⟨done, ⟨m, rest, hms, hr, hd⟩, ht, .evaluateAll ht⟩

/-- How a check that failed with `e` has left `t` of the store `s`. -/
structure Failure (s : ByteStore) (r : Request) (now : UInt64) (e : Error) (t : ByteStore) :
    Prop where
  holders : t.holders = s.holders
  definitions : t.definitions = s.definitions
  cause : granted s r = .error e ∧ t = s ∨ ∃ done, Stopped s r now e done t
  /-- Without an invocation there is no trace. -/
  eq_of_writes : (∀ m ∈ matched s r, r.policy.writes m = false) → t = s

end Check

/-- A check that fails leaves no trace but what comes of the matched flags before the one whose
usage record is damaged. -/
theorem check_failed {s t : ByteStore} {r : Request} {now : UInt64} {e : Error}
    (hcheck : check s r now = (.error e, t)) : Check.Failure s r now e t := by
  have hwrites (hw : ∀ m ∈ Check.matched s r, r.policy.writes m = false) : t = s :=
    (congrArg Prod.snd hcheck).symm.trans (Check.snd_check_of_writes now hw)
  cases hset : Check.granted s r with
  | error e' =>
    rw [check, hset] at hcheck
    cases hcheck
    exact ⟨rfl, rfl, .inl ⟨hset, rfl⟩, hwrites⟩
  | ok set =>
    obtain ⟨done, ht⟩ := Check.exists_stopped hset hcheck
    exact ⟨ht.invoked.holders, ht.invoked.definitions, .inr ⟨done, ht⟩, hwrites⟩

/-- The holder has a record, and somebody has cut the usage record of the limited flag short. -/
def Sample.damaged : Except Error ByteStore := do
  let s ← ByteStore.empty.setPermissions Sample.holder []
  let key ← Key.ofUsage Sample.holder Sample.limited.raw
  return { s with usages := s.usages.insert key [0] }

/-- The first flag is used, and the second one fails. -/
theorem Sample.check_of_damaged {s : ByteStore} (hs : Sample.damaged = .ok s) :
    (check s Sample.requestTwo 5).1 = .error (.store (.corruptUsage 1)) ∧
      (check s Sample.requestTwo 5).2.usage Sample.holder Sample.granted.raw = .ok ⟨some 5, 1⟩ := by
  cases hs
  decide +kernel

theorem check_failed_of_damaged :
    ∃ s t, Sample.damaged = .ok s ∧
      check s Sample.requestTwo 5 = (.error (.store (.corruptUsage 1)), t) ∧
      Check.Failure s Sample.requestTwo 5 (.store (.corruptUsage 1)) t ∧
      t.usage Sample.holder Sample.granted.raw = .ok ⟨some 5, 1⟩ := by
  obtain ⟨s, hs⟩ : ∃ s, Sample.damaged = .ok s := ⟨_, rfl⟩
  obtain ⟨herror, husage⟩ := Sample.check_of_damaged hs
  have hcheck : check s Sample.requestTwo 5 =
      (.error (.store (.corruptUsage 1)), (check s Sample.requestTwo 5).2) := Prod.ext herror rfl
  exact ⟨s, _, hs, hcheck, check_failed hcheck, husage⟩

/-- A failed check may leave a trace: the use of a flag before the damaged record. -/
theorem not_eq_of_check_eq_error :
    ¬ ∀ (s : ByteStore) (r : Request) (now : UInt64) (e : Error),
      (check s r now).1 = .error e → (check s r now).2 = s := by
  intro hall
  obtain ⟨s, hs⟩ : ∃ s, Sample.damaged = .ok s := ⟨_, rfl⟩
  obtain ⟨herror, hafter⟩ := Sample.check_of_damaged hs
  have hbefore : s.usage Sample.holder Sample.granted.raw = .ok {} := by
    cases hs
    decide +kernel
  rw [hall s Sample.requestTwo 5 _ herror, hbefore] at hafter
  cases hafter

end Grants
