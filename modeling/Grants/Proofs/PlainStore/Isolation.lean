import Grants.Proofs.PlainStore.Lawful
import Grants.Proofs.Store.Isolation

/-!
# The plain store keeps holders apart

Both maps of the plain store have a part for each holder.
-/

namespace Grants.PlainStore

/-- The same records of a holder. -/
structure SameFor (h : Holder) (s t : PlainStore) : Prop where
  holders : s.holders[h]? = t.holders[h]?
  usages (key : String) : s.usages[(h, key)]? = t.usages[(h, key)]?

namespace SameFor

variable {h h' : Holder} {s t : PlainStore} {fs : List Flag} {key : String}

/-! ## Operations on the holder -/

theorem putPermissions (hst : SameFor h s t) (fs : List Flag) :
    SameFor h (s.putPermissions h fs) (t.putPermissions h fs) where
  holders := by simp [PlainStore.putPermissions]
  usages := hst.usages

theorem usage_eq (hst : SameFor h s t) : s.usage h key = t.usage h key := by
  unfold PlainStore.usage
  rw [hst.usages]

theorem setUsage (hst : SameFor h s t) (key : String) (u : Usage) :
    SameFor h (s.setUsage h key u) (t.setUsage h key u) where
  holders := hst.holders
  usages key' := by rw [getElem?_setUsage, getElem?_setUsage, hst.usages]

theorem simulation (h : Holder) :
    Simulation PlainStore PlainStore (· = h) (fun _ ↦ True) (SameFor h) where
  permissions {s t _} hst := by
    rintro rfl
    change s.permissions _ = t.permissions _
    unfold PlainStore.permissions
    rw [hst.holders]
  setPermissions fs hst := by
    rintro rfl
    exact .ok (hst.putPermissions _)
  grant {s t _} fs hst := by
    rintro rfl
    change Agree _ (.ok (s.grant _ fs)) (.ok (t.grant _ fs))
    unfold PlainStore.grant
    rw [hst.holders]
    exact .ok ⟨rfl, hst.putPermissions _⟩
  revoke {s t _} fs hst := by
    rintro rfl
    change Agree _ (.ok (s.revoke _ fs)) (.ok (t.revoke _ fs))
    unfold PlainStore.revoke
    rw [hst.holders]
    split
    · exact .ok ⟨rfl, hst⟩
    · exact .ok ⟨rfl, hst.putPermissions _⟩
  removeHolder hst := by
    rintro rfl
    refine .ok ⟨contains_congr hst.holders, ?_, hst.usages⟩
    simp [PlainStore.removeHolder]
  usage hst := by
    rintro rfl -
    exact congrArg Except.ok hst.usage_eq
  setUsage u hst := by
    rintro rfl -
    exact .ok (hst.setUsage _ u)
  resetUsage {_ _ _ key} hst := by
    rintro rfl -
    refine .ok ⟨contains_congr (hst.usages key), hst.holders, fun key' ↦ ?_⟩
    simp [PlainStore.resetUsage, Std.ExtTreeMap.getElem?_erase, hst.usages]
  update decide hst := by
    rintro rfl -
    exact .update hst (congrArg Except.ok hst.usage_eq) (fun u ↦ .ok (hst.setUsage _ u)) decide

/-! ## Operations on another holder -/

theorem putPermissions_apart (hst : SameFor h s t) (hne : h' ≠ h) (fs : List Flag) :
    SameFor h (s.putPermissions h' fs) t where
  holders := by
    rw [← hst.holders]
    simp [PlainStore.putPermissions, Std.ExtTreeMap.getElem?_insert, hne]
  usages := hst.usages

theorem frame (hne : h' ≠ h) (t : PlainStore) : Store.InvariantAt h' (SameFor h · t) where
  setPermissions := by
    rintro s _ fs hst ⟨⟩
    exact hst.putPermissions_apart hne _
  grant := by
    rintro s _ fs n hst ⟨⟩
    exact hst.putPermissions_apart hne _
  revoke {s s' fs n} hst hs' := by
    have heq : (s.revoke h' fs).2 = s' := congrArg Prod.snd (Except.ok.inj hs')
    rw [← heq]
    unfold PlainStore.revoke
    split
    · exact hst
    · exact hst.putPermissions_apart hne _
  removeHolder := by
    rintro s _ b hst ⟨⟩
    refine ⟨?_, hst.usages⟩
    rw [← hst.holders]
    simp [Std.ExtTreeMap.getElem?_erase, hne]
  setUsage := by
    rintro s _ key u hst ⟨⟩
    refine ⟨hst.holders, fun key' ↦ ?_⟩
    rw [getElem?_setUsage, if_neg fun heq ↦ hne heq.1.symm, hst.usages]
  resetUsage := by
    rintro s _ key b hst ⟨⟩
    refine ⟨hst.holders, fun key' ↦ ?_⟩
    rw [← hst.usages]
    simp [Std.ExtTreeMap.getElem?_erase, hne]

end SameFor

theorem isolation : Isolation PlainStore SameFor where
  refl _ _ := ⟨rfl, fun _ ↦ rfl⟩
  simulation := SameFor.simulation
  frame := SameFor.frame

end Grants.PlainStore
