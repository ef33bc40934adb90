import Grants.Proofs.ByteStore.WellFormed
import Grants.Proofs.PlainStore.Lawful

/-!
# When a check fails

A check is refused for one of three reasons, before any flag is judged
(`Refusal`).  In a store whose usage records can be read there is no other way to
fail: every evaluation answers, whatever the ones before it wrote, since the keys
of usage records of holders with a valid identifier are never oversized
(`evaluate_eq_error_iff`).

Usage records can be read in every plain store, and in every byte store that
nobody has written to behind its back (`check_settled`).
-/

namespace Grants

theorem HolderKind.idGrammar_eq_objectId {k : HolderKind} (hk : k = .user ∨ k = .role) :
    k.idGrammar = .objectId := by
  rcases hk with rfl | rfl <;> rfl

theorem HolderKind.idGrammar_eq_discordId {k : HolderKind}
    (hk : k = .discordUser ∨ k = .discordRole) : k.idGrammar = .discordId := by
  rcases hk with rfl | rfl <;> rfl

namespace Check

/-- Why a check is refused.  A reason counts only if the ones before it do not. -/
inductive Refusal (Recorded : Holder → Prop) (r : Request) : Error → Prop
  | empty (hr : r.required = []) : Refusal Recorded r (.check (.empty "required"))
  | objectId (hr : r.required ≠ []) (hk : r.holder.kind = .user ∨ r.holder.kind = .role)
      (hid : Grammar.objectId.accepts r.holder.id = false) :
      Refusal Recorded r (.grammar .objectId r.holder.id)
  | discordId (hr : r.required ≠ [])
      (hk : r.holder.kind = .discordUser ∨ r.holder.kind = .discordRole)
      (hid : Grammar.discordId.accepts r.holder.id = false) :
      Refusal Recorded r (.grammar .discordId r.holder.id)
  | unknown (hr : r.required ≠ []) (hid : r.holder.kind.idGrammar.accepts r.holder.id = true)
      (hh : ¬ Recorded r.holder) : Refusal Recorded r (.notFound r.holder)

/-- An identifier that its grammar does not accept is a reason for a refusal. -/
theorem Refusal.of_validate {Recorded : Holder → Prop} {r : Request} (hr : r.required ≠ [])
    (hid : r.holder.kind.idGrammar.accepts r.holder.id = false) :
    Refusal Recorded r (.grammar r.holder.kind.idGrammar r.holder.id) := by
  cases hk : r.holder.kind with
  | user =>
    rw [hk] at hid
    exact .objectId hr (.inl hk) hid
  | role =>
    rw [hk] at hid
    exact .objectId hr (.inr hk) hid
  | discordUser =>
    rw [hk] at hid
    exact .discordId hr (.inl hk) hid
  | discordRole =>
    rw [hk] at hid
    exact .discordId hr (.inr hk) hid

open LawfulStore

variable {σ : Type} [Store σ] {s : σ} {Recorded : Holder → Prop} {r : Request} {e : Error}

/-! ## The guards of a check -/

theorem granted_of_empty (hr : r.required = []) :
    granted s r = .error (.check (.empty "required")) := by
  rw [granted, Argument.nonempty, hr]
  rfl

theorem granted_of_rejected (hr : r.required ≠ [])
    (hid : r.holder.kind.idGrammar.accepts r.holder.id = false) :
    granted s r = .error (.grammar r.holder.kind.idGrammar r.holder.id) := by
  rw [granted, Argument.nonempty, Holder.validate, Grammar.check, hid]
  simp [hr, bind, Except.bind]

theorem granted_of_accepted (hr : r.required ≠ [])
    (hid : r.holder.kind.idGrammar.accepts r.holder.id = true) :
    granted s r = (Store.permissions s r.holder).map (FlagSet.merged · r.additional) := by
  rw [granted, Argument.nonempty, Holder.validate, Grammar.check, hid]
  simp only [List.isEmpty_iff, hr, if_false, if_true, bind, Except.bind]
  cases Store.permissions s r.holder <;> rfl

theorem granted_eq_error_iff (hs : r.holder.kind.idGrammar.accepts r.holder.id = true → ∀ e,
      Store.permissions s r.holder = .error e ↔ e = .notFound r.holder ∧ ¬ Recorded r.holder) :
    granted s r = .error e ↔ Refusal Recorded r e := by
  constructor
  · intro he
    by_cases hr : r.required = []
    · rw [granted_of_empty hr] at he
      cases he
      exact .empty hr
    cases hid : r.holder.kind.idGrammar.accepts r.holder.id with
    | false =>
      rw [granted_of_rejected hr hid] at he
      cases he
      exact .of_validate hr hid
    | true =>
      rw [granted_of_accepted hr hid] at he
      cases hp : Store.permissions s r.holder with
      | ok stored =>
        rw [hp] at he
        cases he
      | error e' =>
        rw [hp] at he
        cases he
        obtain ⟨rfl, hh⟩ := (hs hid e).mp hp
        exact .unknown hr hid hh
  · rintro (hr | ⟨hr, hk, hid⟩ | ⟨hr, hk, hid⟩ | ⟨hr, hid, hh⟩)
    · exact granted_of_empty hr
    · rw [← HolderKind.idGrammar_eq_objectId hk] at hid ⊢
      exact granted_of_rejected hr hid
    · rw [← HolderKind.idGrammar_eq_discordId hk] at hid ⊢
      exact granted_of_rejected hr hid
    · rw [granted_of_accepted hr hid, (hs hid _).mpr ⟨rfl, hh⟩]
      rfl

/-! ## Past its guards, a check answers -/

section Answers

variable [LawfulStore σ] {t : σ} {h : Holder} {p : Policy} {now : UInt64}

theorem sound_evaluateAll {ms : List Flag} (hs : Store.Sound s)
    (ht : evaluateAll h p now ms s = .ok t) : Store.Sound t :=
  evaluateAll_induction (fun _ ↦ evaluate_induction Store.Sound.setUsage) hs ht

/-- In a store whose usage records can be read, a check fails at its guards or not at all. -/
theorem check_eq_error_iff (hs : Store.Sound s) :
    (check s r now).1 = .error e ↔ granted s r = .error e := by
  cases hset : granted s r with
  | error e' =>
    rw [check, hset]
    simp only [Except.error.injEq]
  | ok set =>
    constructor
    · intro he
      obtain ⟨done, m, rest, -, ht, -, hu⟩ := exists_of_check_eq_error hset (Prod.ext he rfl)
      -- The evaluations before the one that is said to fail keep the store readable.
      have hf : Fits σ r.holder := fits_of_validate (granted_eq_ok_iff.mp hset).2.1
      obtain ⟨u, hu'⟩ := sound_evaluateAll hs ht r.holder m.raw hf
      cases hu'.symm.trans hu
    · intro he
      cases he

end Answers

/-! ## Findings and the flags that they are about -/

theorem map_flag_findings {set : FlagSet} {h : Holder} {p : Policy} {now : UInt64}
    {required : List Flag} {memo : Memo} {fs : List Finding}
    (hfs : (findings set h p now required memo s).1 = .ok fs) : fs.map (·.flag) = required := by
  induction required generalizing memo s fs with
  | nil =>
    cases hfs
    rfl
  | cons f required ih =>
    unfold findings at hfs
    cases hm : set.bestMatch f with
    | none =>
      rw [hm] at hfs
      obtain ⟨gs, hgs, rfl⟩ := Error.map_eq_ok_iff.mp hfs
      exact congrArg (f :: ·) (ih hgs)
    | some m =>
      rw [hm] at hfs
      dsimp only at hfs
      split at hfs
      · cases hfs
      · obtain ⟨gs, hgs, rfl⟩ := Error.map_eq_ok_iff.mp hfs
        exact congrArg (f :: ·) (ih hgs)

/-- The findings of a check are about the required flags in order. -/
theorem map_flag_check {now : UInt64} {fs : List Finding} (hfs : (check s r now).1 = .ok fs) :
    fs.map (·.flag) = r.required := by
  unfold check at hfs
  cases hset : granted s r with
  | error e =>
    rw [hset] at hfs
    cases hfs
  | ok set =>
    rw [hset] at hfs
    exact map_flag_findings hfs

/-- The missing flags are the required ones whose finding did not pass. -/
theorem missing_eq {required : List Flag} {fs : List Finding}
    (hfs : fs.map (·.flag) = required) :
    Finding.missing fs = ((required.zip fs).filter fun x ↦ !x.2.passed).map (·.1) := by
  subst hfs
  unfold Finding.missing
  induction fs with
  | nil => rfl
  | cons f fs ih =>
    rw [List.map_cons, List.zip_cons_cons, List.filter_cons, List.filter_cons]
    cases f.passed with
    | false => exact congrArg (f.flag :: ·) ih
    | true => exact ih

/-! ## How a check ends -/

/-- How a check of `r` at `now` ends, and one that insists on every flag, in the store `s`, in which
the holders in `Recorded` have a record. -/
structure Settled (s : σ) (Recorded : Holder → Prop) (r : Request) (now : UInt64) : Prop where
  error_iff (e : Error) : (check s r now).1 = .error e ↔ Refusal Recorded r e
  ne_store (fault : StoreFault) : (check s r now).1 ≠ .error (.store fault)
  permitted_store : (checkPermitted s r now).2 = (check s r now).2
  permitted_of_error {e : Error} : (check s r now).1 = .error e →
    (checkPermitted s r now).1 = .error e
  permitted_iff {fs : List Finding} : (check s r now).1 = .ok fs →
    ((checkPermitted s r now).1 = .ok fs ↔ ∀ f ∈ fs, f.passed = true)
  /-- The error names the required flags that did not pass, as often as they are required. -/
  permitted_of_failed {fs : List Finding} : (check s r now).1 = .ok fs →
    ¬ (∀ f ∈ fs, f.passed = true) → r.required.length = fs.length ∧
      (checkPermitted s r now).1 =
        .error (.permission (((r.required.zip fs).filter fun x ↦ !x.2.passed).map (·.1)))

theorem Settled.of_error_iff {now : UInt64}
    (hs : ∀ e, (check s r now).1 = .error e ↔ Refusal Recorded r e) :
    Settled s Recorded r now where
  error_iff := hs
  ne_store fault he := nomatch (hs _).mp he
  permitted_store := rfl
  permitted_of_error he := congrArg (·.bind Finding.permit) he
  permitted_iff {fs} hfs := by
    have hpermit : (checkPermitted s r now).1 = Finding.permit fs :=
      congrArg (·.bind Finding.permit) hfs
    rw [hpermit, Finding.permit, Finding.allPassed, ← List.all_eq_true]
    cases fs.all (·.passed) <;> simp
  permitted_of_failed {fs} hfs hfailed := by
    have hpermit : (checkPermitted s r now).1 = Finding.permit fs :=
      congrArg (·.bind Finding.permit) hfs
    have hflags := map_flag_check hfs
    rw [← List.all_eq_true, Bool.not_eq_true] at hfailed
    refine ⟨by rw [← hflags, List.length_map], ?_⟩
    rw [hpermit, Finding.permit, Finding.allPassed, hfailed, ← missing_eq hflags]
    rfl

end Check

/-- A holder has a record in a byte store. -/
def ByteStore.HasRecord (s : ByteStore) (h : Holder) : Prop :=
  ∃ key, Key.ofHolder h = .ok key ∧ key ∈ s.holders

theorem ByteStore.WellFormed.permissions_eq_error_iff {s : ByteStore} {h : Holder} {e : Error}
    (hs : s.WellFormed) (hf : h.Fits) :
    s.permissions h = .error e ↔ e = .notFound h ∧ ¬ s.HasRecord h := by
  obtain ⟨key, hk⟩ := Key.exists_ofHolder hf
  have hrecord : s.HasRecord h ↔ ∃ bytes, s.holders[key]? = some bytes := by
    rw [← Option.isSome_iff_exists, ← Std.ExtTreeMap.mem_iff_isSome_getElem?]
    constructor
    · rintro ⟨key', hk', hmem⟩
      cases hk.symm.trans hk'
      exact hmem
    · intro hmem
      exact ⟨key, hk, hmem⟩
  rcases hs.permissions_eq hk with ⟨hnone, hread⟩ | ⟨fs, hsome, hread⟩
  · rw [hrecord, hread, hnone]
    simp [eq_comm]
  · rw [hrecord, hread, hsome]
    simp

theorem PlainStore.permissions_eq_error_iff {s : PlainStore} {h : Holder} {e : Error} :
    s.permissions h = .error e ↔ e = .notFound h ∧ h ∉ s.holders := by
  rw [Std.ExtTreeMap.mem_iff_isSome_getElem?]
  unfold PlainStore.permissions
  cases s.holders[h]? <;> simp [eq_comm]

/-- A check fails for the reasons of a refusal and no other, in every plain store, and in every byte
store that operations lead to. -/
theorem check_settled :
    (∀ (s : PlainStore) (r : Request) (now : UInt64), Check.Settled s (· ∈ s.holders) r now) ∧
    ∀ (cs : List ByteStore.Command) (r : Request) (now : UInt64),
      Check.Settled (ByteStore.Command.runAll .empty cs).2
        (ByteStore.Command.runAll .empty cs).2.HasRecord r now := by
  constructor
  · intro s r now
    apply Check.Settled.of_error_iff
    intro e
    rw [Check.check_eq_error_iff s.sound]
    apply Check.granted_eq_error_iff
    intro _ e
    exact PlainStore.permissions_eq_error_iff
  · intro cs r now
    have hs := ByteStore.WellFormed.invariant.runAll cs
    apply Check.Settled.of_error_iff
    intro e
    rw [Check.check_eq_error_iff hs.intact.sound]
    apply Check.granted_eq_error_iff
    intro hid e
    exact hs.permissions_eq_error_iff (Holder.fits_of_accepts hid)

end Grants
