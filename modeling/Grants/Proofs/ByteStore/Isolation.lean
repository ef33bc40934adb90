import Grants.Proofs.ByteStore.Lawful
import Grants.Proofs.PlainStore.Isolation

/-!
# The byte store keeps holders apart

The byte store has the records of all holders in the same tables, but no two
holders share a key: not for their flags, nor for usage records, whatever the
digests of the flags' texts are (`Key.ofHolder_inj`, `Key.ofUsage_inj`).  A holder
whose keys are too long has no records, and its operations fail without a trace.

So in both stores commands about one holder go as if there were no others
(`holders_apart`).
-/

namespace Grants

/-- Writing one record leaves two tables alike wherever they were. -/
theorem Table.agree_put (t t' : Table) (key value : Bytes) :
    Agree (fun u u' ↦ ∀ k : Bytes, t[k]? = t'[k]? → u[k]? = u'[k]?) (t.put key value)
      (t'.put key value) := by
  unfold put
  split
  · refine .ok fun k heq ↦ ?_
    rw [Std.ExtTreeMap.getElem?_insert, Std.ExtTreeMap.getElem?_insert, heq]
  · exact .error _

namespace ByteStore

/-- The same records of a holder, as far as it has keys. -/
structure SameFor (h : Holder) (s t : ByteStore) : Prop where
  holders {key : Bytes} : Key.ofHolder h = .ok key → s.holders[key]? = t.holders[key]?
  usages {flag : String} {key : Bytes} : Key.ofUsage h flag = .ok key →
    s.usages[key]? = t.usages[key]?

namespace SameFor

variable {h h' : Holder} {s t : ByteStore} {fs : List Flag} {flag : String} {key : Bytes}

/-! ## Operations on the holder -/

theorem permissions?_eq (hst : SameFor h s t) : s.permissions? h = t.permissions? h := by
  unfold permissions?
  cases hk : Key.ofHolder h with
  | error e => rfl
  | ok key =>
    simp only [bind, Except.bind, hst.holders hk]

theorem putPermissions (hst : SameFor h s t) (fs : List Flag) :
    Agree (SameFor h) (s.putPermissions h fs) (t.putPermissions h fs) := by
  unfold ByteStore.putPermissions
  cases Key.ofHolder h with
  | error e => exact .error e
  | ok key =>
    refine (Table.agree_put s.holders t.holders key _).bind fun holders holders' hput ↦ ?_
    exact .ok ⟨fun hk ↦ hput _ (hst.holders hk), hst.usages⟩

theorem usage_eq (hst : SameFor h s t) : s.usage h flag = t.usage h flag := by
  unfold ByteStore.usage
  cases hk : Key.ofUsage h flag with
  | error e => rfl
  | ok key =>
    simp only [bind, Except.bind, hst.usages hk]

theorem setUsage (hst : SameFor h s t) (flag : String) (u : Usage) :
    Agree (SameFor h) (s.setUsage h flag u) (t.setUsage h flag u) := by
  unfold ByteStore.setUsage
  cases Key.ofUsage h flag with
  | error e => exact .error e
  | ok key =>
    refine (Table.agree_put s.usages t.usages key _).bind fun usages usages' hput ↦ ?_
    exact .ok ⟨hst.holders, fun hk ↦ hput _ (hst.usages hk)⟩

theorem grant (hst : SameFor h s t) (fs : List Flag) :
    Agree (Alike (SameFor h)) (s.grant h fs) (t.grant h fs) := by
  unfold ByteStore.grant
  rw [hst.permissions?_eq]
  cases t.permissions? h with
  | error e => exact .error e
  | ok stored => exact (hst.putPermissions _).bind fun _ _ hst' ↦ .ok ⟨rfl, hst'⟩

theorem revoke (hst : SameFor h s t) (fs : List Flag) :
    Agree (Alike (SameFor h)) (s.revoke h fs) (t.revoke h fs) := by
  unfold ByteStore.revoke
  rw [hst.permissions?_eq]
  cases t.permissions? h with
  | error e => exact .error e
  | ok stored =>
    cases stored with
    | none => exact .ok ⟨rfl, hst⟩
    | some current =>
      dsimp only [bind, Except.bind]
      split
      · exact (hst.putPermissions _).bind fun _ _ hst' ↦ .ok ⟨rfl, hst'⟩
      · exact .ok ⟨rfl, hst⟩

theorem removeHolder (hst : SameFor h s t) :
    Agree (Alike (SameFor h)) (s.removeHolder h) (t.removeHolder h) := by
  unfold ByteStore.removeHolder
  cases hk : Key.ofHolder h with
  | error e => exact .error e
  | ok key =>
    refine .ok ⟨contains_congr (hst.holders hk), fun hk' ↦ ?_, hst.usages⟩
    simp [Std.ExtTreeMap.getElem?_erase, hst.holders hk']

theorem resetUsage (hst : SameFor h s t) (flag : String) :
    Agree (Alike (SameFor h)) (s.resetUsage h flag) (t.resetUsage h flag) := by
  unfold ByteStore.resetUsage
  cases hk : Key.ofUsage h flag with
  | error e => exact .error e
  | ok key =>
    refine .ok ⟨contains_congr (hst.usages hk), hst.holders, fun hk' ↦ ?_⟩
    simp [Std.ExtTreeMap.getElem?_erase, hst.usages hk']

theorem simulation (h : Holder) :
    Simulation ByteStore ByteStore (· = h) (fun _ ↦ True) (SameFor h) where
  permissions {s t _} hst := by
    rintro rfl
    change s.permissions _ = t.permissions _
    unfold ByteStore.permissions
    rw [hst.permissions?_eq]
  setPermissions fs hst := by
    rintro rfl
    exact hst.putPermissions _
  grant fs hst := by
    rintro rfl
    exact hst.grant fs
  revoke fs hst := by
    rintro rfl
    exact hst.revoke fs
  removeHolder hst := by
    rintro rfl
    exact hst.removeHolder
  usage hst := by
    rintro rfl -
    exact hst.usage_eq
  setUsage u hst := by
    rintro rfl -
    exact hst.setUsage _ u
  resetUsage hst := by
    rintro rfl -
    exact hst.resetUsage _
  update decide hst := by
    rintro rfl -
    exact .update hst hst.usage_eq (hst.setUsage _) decide

/-! ## Operations on another holder -/

/-- What happens under a key of another holder's flags is not seen. -/
theorem changeHolder_apart (hst : SameFor h s t) (hne : h' ≠ h) (hk : Key.ofHolder h' = .ok key)
    {holders : Table} (heq : ∀ key', key ≠ key' → holders[key']? = s.holders[key']?) :
    SameFor h { s with holders } t where
  holders {key'} hk' := by
    have hkeys : key ≠ key' := by
      rintro rfl
      exact hne (Key.ofHolder_inj hk hk')
    exact (heq key' hkeys).trans (hst.holders hk')
  usages := hst.usages

theorem changeUsage_apart (hst : SameFor h s t) (hne : h' ≠ h) (hk : Key.ofUsage h' flag = .ok key)
    {usages : Table} (heq : ∀ key', key ≠ key' → usages[key']? = s.usages[key']?) :
    SameFor h { s with usages } t where
  holders := hst.holders
  usages {flag' key'} hk' := by
    have hkeys : key ≠ key' := by
      rintro rfl
      exact hne (Key.ofUsage_inj hk hk').1
    exact (heq key' hkeys).trans (hst.usages hk')

theorem putPermissions_apart (hst : SameFor h s t) (hne : h' ≠ h) {s' : ByteStore}
    (hs' : s.putPermissions h' fs = .ok s') : SameFor h s' t := by
  obtain ⟨key, hk, -, rfl⟩ := putPermissions_eq_ok_iff.mp hs'
  refine hst.changeHolder_apart hne hk fun key' hkeys ↦ ?_
  simp [Std.ExtTreeMap.getElem?_insert, hkeys]

theorem frame (hne : h' ≠ h) (t : ByteStore) : Store.InvariantAt h' (SameFor h · t) where
  setPermissions hst hs' := hst.putPermissions_apart hne hs'
  grant hst hs' := by
    obtain ⟨gs, -, hs'⟩ := exists_put_of_grant hs'
    exact hst.putPermissions_apart hne hs'
  revoke hst hs' := by
    rcases exists_put_of_revoke hs' with rfl | ⟨gs, -, hs'⟩
    · exact hst
    · exact hst.putPermissions_apart hne hs'
  removeHolder hst hs' := by
    obtain ⟨key, hk, hs'⟩ := Error.bind_eq_ok_iff.mp hs'
    cases hs'
    refine hst.changeHolder_apart hne hk fun key' hkeys ↦ ?_
    simp [Std.ExtTreeMap.getElem?_erase, hkeys]
  setUsage hst hs' := by
    obtain ⟨key, hk, -, rfl⟩ := setUsage_eq_ok_iff.mp hs'
    refine hst.changeUsage_apart hne hk fun key' hkeys ↦ ?_
    simp [Std.ExtTreeMap.getElem?_insert, hkeys]
  resetUsage hst hs' := by
    obtain ⟨key, hk, hs'⟩ := Error.bind_eq_ok_iff.mp hs'
    cases hs'
    refine hst.changeUsage_apart hne hk fun key' hkeys ↦ ?_
    simp [Std.ExtTreeMap.getElem?_erase, hkeys]

end SameFor

theorem isolation : Isolation ByteStore SameFor where
  refl _ _ := ⟨fun _ ↦ rfl, fun _ ↦ rfl⟩
  simulation := SameFor.simulation
  frame := SameFor.frame

end ByteStore

/-- In both stores, whatever they hold at first, the commands about one holder get the replies that
they get in a run without all others. -/
theorem holders_apart (h : Holder) (cs : List Command) (s : PlainStore) (t : ByteStore) :
    Command.repliesTo h s cs = (Command.runAll s (cs.filter (·.holder = h))).1 ∧
      Command.repliesTo h t cs = (Command.runAll t (cs.filter (·.holder = h))).1 :=
  ⟨PlainStore.isolation.repliesTo_eq h s cs, ByteStore.isolation.repliesTo_eq h t cs⟩

end Grants
