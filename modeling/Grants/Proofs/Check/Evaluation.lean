import Grants.Proofs.ByteStore.Lawful
import Grants.Proofs.PlainStore.Lawful
import Grants.Proofs.Sample

/-!
# Evaluations and updates

An evaluation passes without a look at the store if the policy reads nothing, and
reads without an update if it writes nothing.  Neither shows: the answer and the
store are those of an update with the decision (`evaluate_agrees_with_update`),
in any lawful store that can read and write the usage record.

The reason is that a policy foretells its decisions.  A decision writes words to
the usage record (`Policy.written`): none if the policy says that nothing is
written, and it reports a change exactly if there are any
(`Policy.keep_decide_iff`).
-/

namespace Grants

/-! ## What a decision writes -/

/-- A word that is written to a usage record. -/
inductive Usage.Write where
  | lastInvoked (time : UInt64)
  | uses (count : UInt64)
  deriving DecidableEq, Repr

/-- The usage record after a word has been written, which may be the word that was there. -/
def Usage.write (u : Usage) : Write → Usage
  | .lastInvoked time => { u with lastInvoked := some time }
  | .uses count => { u with uses := count }

namespace Policy

variable {p : Policy} {f : Flag}

/-- What a decision on one use writes to the usage record, in order. -/
def written (p : Policy) (f : Flag) (u : Usage) (now : UInt64) : List Usage.Write :=
  if (p.verdict f u now).passed then
    (if f.hasCooldown && p.invokeCooldown then [.lastInvoked now] else []) ++
      if f.hasLimit && p.invokeLimit then [.uses (addSat u.uses 1)] else []
  else []

theorem usage_decide_eq_foldl (p : Policy) (f : Flag) (u : Usage) (now : UInt64) :
    (p.decide f u now).usage = (p.written f u now).foldl Usage.write u := by
  rw [usage_decide, written]
  cases (p.verdict f u now).passed with
  | false => rfl
  | true =>
    rw [if_pos rfl, if_pos rfl, invoke]
    cases f.hasCooldown && p.invokeCooldown <;> cases f.hasLimit && p.invokeLimit <;> rfl

/-- A decision reports a change exactly if it writes, whatever it writes. -/
theorem keep_decide_iff (p : Policy) (f : Flag) (u : Usage) (now : UInt64) :
    (p.decide f u now).keep = true ↔ p.written f u now ≠ [] := by
  rw [keep_decide, written, writes]
  cases (p.verdict f u now).passed with
  | false => simp
  | true =>
    rw [if_pos rfl, Bool.true_and]
    cases f.hasCooldown && p.invokeCooldown <;> cases f.hasLimit && p.invokeLimit <;> simp

theorem written_of_writes_eq_false (hw : p.writes f = false) (u : Usage) (now : UInt64) :
    p.written f u now = [] := by
  rw [writes, Bool.or_eq_false_iff] at hw
  simp [written, hw.1, hw.2]

theorem decide_of_writes_eq_false (hw : p.writes f = false) (u : Usage) (now : UInt64) :
    p.decide f u now = ⟨p.verdict f u now, u, false⟩ := by
  unfold decide
  rw [hw, invoke_of_writes_eq_false hw]
  exact ite_self _

theorem decide_of_reads_eq_false (hr : p.reads f = false) (u : Usage) (now : UInt64) :
    p.decide f u now = ⟨.pass, u, false⟩ := by
  rw [decide_of_writes_eq_false (writes_eq_false_of_reads_eq_false hr),
    verdict_of_reads_eq_false hr]

/-- What is known of decisions on uses of a flag from what the policy says about it, and from what
they report. -/
structure Foretells (p : Policy) (f : Flag) : Prop where
  decide_of_not_reads : p.reads f = false → ∀ u now, p.decide f u now = ⟨.pass, u, false⟩
  decide_of_not_writes : p.writes f = false → ∀ u now,
    (p.decide f u now).keep = false ∧ (p.decide f u now).usage = u ∧ p.written f u now = []
  usage_eq (u : Usage) (now : UInt64) :
    (p.decide f u now).usage = (p.written f u now).foldl Usage.write u
  usage_of_not_keep (u : Usage) (now : UInt64) :
    (p.decide f u now).keep = false → (p.decide f u now).usage = u
  keep_iff (u : Usage) (now : UInt64) :
    (p.decide f u now).keep = true ↔ p.written f u now ≠ []

theorem foretells (p : Policy) (f : Flag) : p.Foretells f where
  decide_of_not_reads := decide_of_reads_eq_false
  decide_of_not_writes hw u now := by
    rw [decide_of_writes_eq_false hw]
    exact ⟨rfl, rfl, written_of_writes_eq_false hw u now⟩
  usage_eq := p.usage_decide_eq_foldl f
  usage_of_not_keep _ _ := usage_decide_of_keep_eq_false
  keep_iff := p.keep_decide_iff f

end Policy

/-! ## An evaluation beside the update -/

/-- An evaluation in the store `s`, which has the usage record `u` for it, answers and leaves what
the update with the decision does, and this is the store `t`. -/
structure UpdatesPlainly {σ : Type} [Store σ] (s : σ) (h : Holder) (m : Flag) (p : Policy)
    (now : UInt64) (u : Usage) (t : σ) : Prop where
  usage : Store.usage s h m.raw = .ok u
  update : Store.update s h m.raw (p.decide m · now) = .ok ((p.decide m u now).answer, t)
  evaluate : evaluate s h m p now = .ok ((p.decide m u now).answer, t)
  /-- Without a change the store is as it was, and has no record that it did not have. -/
  unchanged : (p.decide m u now).keep = false → t = s
  changed : (p.decide m u now).keep = true →
    Store.usage t h m.raw = .ok (p.decide m u now).usage

section Lawful

open LawfulStore

variable {σ : Type} [Store σ] [LawfulStore σ] {s : σ} {h : Holder} {m : Flag} {u : Usage}

theorem exists_updatesPlainly (p : Policy) (now : UInt64) (hfits : Fits σ h)
    (hu : Store.usage s h m.raw = .ok u) : ∃ t, UpdatesPlainly s h m p now u t := by
  have hupdate := update_of_usage hu (p.decide m · now)
  have hevaluate : evaluate s h m p now = _ := evaluate_eq hu
  cases hkeep : (p.decide m u now).keep with
  | false =>
    simp only [hkeep, Bool.false_eq_true, if_false] at hupdate hevaluate
    exact ⟨s, hu, hupdate, hevaluate, fun _ ↦ rfl, fun hk ↦ absurd (hkeep.symm.trans hk) nofun⟩
  | true =>
    obtain ⟨t, ht⟩ := (exists_setUsage_iff s h m.raw (p.decide m u now).usage).mpr hfits
    simp only [hkeep, if_true, ht] at hupdate hevaluate
    refine ⟨t, hu, hupdate, hevaluate, fun hk ↦ absurd (hkeep.symm.trans hk) nofun, fun _ ↦ ?_⟩
    exact Store.usage_of_record? (record?_setUsage ht (collide_refl _))

end Lawful

namespace ByteStore

variable {s : ByteStore} {h : Holder} {flag : String}

/-- The usage record under the text has a key that can be written, and can be read if there is
one. -/
def Usable (s : ByteStore) (h : Holder) (flag : String) : Prop :=
  ∃ key, Key.ofUsage h flag = .ok key ∧ key.length ≤ Table.maxKey ∧
    ∀ bytes, s.usages[key]? = some bytes → ∃ u, Record.usage bytes = .ok u

theorem usable_iff : s.Usable h flag ↔ h.Fits ∧ ∃ u, s.usage h flag = .ok u := by
  constructor
  · rintro ⟨key, hk, hlen, hread⟩
    have hpos : 0 < key.length := by
      rw [Key.length_ofUsage hk]
      omega
    exact ⟨(Key.length_le_maxKey_iff hk).mp ⟨hpos, hlen⟩, (exists_usage_iff hk).mpr hread⟩
  · rintro ⟨hfits, hread⟩
    obtain ⟨key, hk⟩ := Key.exists_ofUsage hfits flag
    exact ⟨key, hk, ((Key.length_le_maxKey_iff hk).mpr hfits).2, (exists_usage_iff hk).mp hread⟩

end ByteStore

/-- An evaluation is as good as an update with the decision: in every plain store, and in every byte
store that can read and write the usage record.  What the policy says before a decision and what the
decision reports hold of it. -/
theorem evaluate_agrees_with_update :
    (∀ (s : PlainStore) (h : Holder) (m : Flag) (p : Policy) (now : UInt64),
      ∃ t, UpdatesPlainly s h m p now (s.usage h m.raw) t) ∧
    (∀ (s : ByteStore) (h : Holder) (m : Flag) (p : Policy) (now : UInt64),
      s.Usable h m.raw → ∃ u t, UpdatesPlainly s h m p now u t) ∧
    ∀ (p : Policy) (f : Flag), p.Foretells f := by
  refine ⟨?_, ?_, Policy.foretells⟩
  · intro s h m p now
    exact exists_updatesPlainly p now trivial rfl
  · intro s h m p now husable
    obtain ⟨hfits, u, hu⟩ := ByteStore.usable_iff.mp husable
    exact ⟨u, exists_updatesPlainly p now hfits hu⟩

/-- A use of the flag that only looks at the limit, of which nothing is left. -/
theorem evaluate_agrees_with_update_of_spent_limit :
    ∃ (s : ByteStore) (p : Policy) (u : Usage) (t : ByteStore),
      s.Usable Sample.holder Sample.granted.raw ∧
      p.reads Sample.granted = true ∧ p.writes Sample.granted = false ∧
      UpdatesPlainly s Sample.holder Sample.granted p 5 u t ∧
      (p.decide Sample.granted u 5).answer.limitExhausted = true ∧ t = s := by
  obtain ⟨s, hs⟩ : ∃ s, ByteStore.empty.setUsage Sample.holder Sample.granted.raw { uses := 2 } =
      .ok s := ⟨_, rfl⟩
  let p : Policy := { respectLimit := true }
  have husage : s.usage Sample.holder Sample.granted.raw = .ok { uses := 2 } := by
    cases hs
    decide +kernel
  have husable := ByteStore.usable_iff.mpr ⟨by decide, _, husage⟩
  obtain ⟨u, t, hplain⟩ :=
    evaluate_agrees_with_update.2.1 s Sample.holder Sample.granted p 5 husable
  cases husage.symm.trans hplain.usage
  exact ⟨s, p, _, t, husable, by decide, by decide, hplain, by decide, hplain.unchanged (by decide)⟩

end Grants
