import Grants.PlainStore
import Grants.Proofs.Store.Lawful

/-!
# The plain store is lawful

Every holder fits, and no two texts share a usage record.
-/

namespace Grants.PlainStore

variable {s : PlainStore} {h h' : Holder} {key key' : String} {u : Usage} {fs : List Flag}

theorem usages_revoke : (s.revoke h fs).2.usages = s.usages := by
  unfold revoke
  split <;> rfl

theorem getElem?_setUsage :
    (s.setUsage h key u).usages[(h', key')]? =
      if h' = h ∧ key = key' then some u else s.usages[(h', key')]? := by
  rw [setUsage, Std.ExtTreeMap.getElem?_insert]
  simp only [Std.LawfulEqCmp.compare_eq_iff_eq, Prod.mk.injEq, eq_comm (a := h)]

instance : LawfulStore PlainStore where
  Rest := Std.ExtTreeMap Holder (List Flag)
  rest s := s.holders
  record? s h key := .ok s.usages[(h, key)]?
  Fits _ := True
  Collide key key' := key = key'
  collide_refl _ := rfl
  fits_of_validate _ := trivial
  permissions_eq h heq := by
    simp only [Store.permissions, permissions, heq]
  usage_eq _ _ _ := rfl
  update_eq s h key decide := by
    change Except.ok (s.update h key decide) = if (decide (s.usage h key)).keep then _ else _
    unfold update
    cases hk : (decide (s.usage h key)).keep with
    | false => simp [hk, pure, Except.pure]
    | true => simp [hk, Store.setUsage, bind, Except.bind, pure, Except.pure]
  exists_setUsage_iff s h key u := ⟨fun _ ↦ trivial, fun _ ↦ ⟨_, rfl⟩⟩
  record?_setUsage := by
    rintro s _ h key _ u ⟨⟩ rfl
    simp [getElem?_setUsage]
  record?_setUsage_apart := by
    rintro s _ h h' key key' u ⟨⟩ hapart
    have hne : ¬ (h' = h ∧ key = key') := fun hc ↦ hapart hc.1 hc.2
    rw [getElem?_setUsage, if_neg hne]
  rest_setUsage := by
    rintro s _ h key u ⟨⟩
    rfl
  record?_setPermissions := by
    rintro s _ h fs ⟨⟩
    rfl
  record?_grant := by
    rintro s _ h fs n ⟨⟩
    rfl
  record?_revoke {s t h fs n} heq := by
    have ht : (s.revoke h fs).2 = t := congrArg Prod.snd (Except.ok.inj heq)
    rw [← ht, usages_revoke]
  record?_removeHolder := by
    rintro s _ h b ⟨⟩
    rfl

instance : CommutingStore PlainStore where
  setUsage_comm := by
    rintro s _ _ h key key' u u' hne ⟨⟩ ⟨⟩
    have hkeys : (h, key) ≠ (h, key') := fun heq ↦ hne (congrArg Prod.snd heq)
    exact congrArg (fun usages ↦ Except.ok (PlainStore.mk s.holders usages))
      (insert_insert_comm s.usages hkeys u u')

theorem sound (s : PlainStore) : Store.Sound s := fun _ _ _ ↦ ⟨_, rfl⟩

end Grants.PlainStore
