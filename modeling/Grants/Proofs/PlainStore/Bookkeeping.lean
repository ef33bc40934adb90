import Grants.Proofs.PlainStore.Lawful
import Grants.Proofs.Store.Bookkeeping
import Grants.Proofs.Store.Invariant

/-!
# The plain store keeps books

No record of the plain store has a flag twice, after any run (`Nodup.runAll`), and
a revocation that takes nothing writes the record that was there.
-/

namespace Grants.PlainStore

/-- No record has a flag twice. -/
def Nodup (s : PlainStore) : Prop := ∀ h : Holder, (s.holders[h]?.getD []).Nodup

namespace Nodup

variable {s : PlainStore} {h : Holder} {fs : List Flag}

theorem empty : Nodup .empty := by
  intro h
  simp [PlainStore.empty]

theorem putPermissions (hs : s.Nodup) (hn : fs.Nodup) : (s.putPermissions h fs).Nodup := by
  intro h'
  rw [PlainStore.putPermissions, Std.ExtTreeMap.getElem?_insert]
  split
  · exact hn
  · exact hs h'

theorem invariantAt (h : Holder) : Store.InvariantAt h Nodup where
  setPermissions := by
    rintro s _ fs hs ⟨⟩
    exact hs.putPermissions (FlagSet.indexed_ofList fs).nodup
  grant := by
    rintro s _ fs n hs ⟨⟩
    refine hs.putPermissions ?_
    rw [FlagSet.snd_insertAll]
    exact ((FlagSet.indexed_ofList _).extend fs).nodup
  revoke {s t fs n} hs ht := by
    have heq : (s.revoke h fs).2 = t := congrArg Prod.snd (Except.ok.inj ht)
    rw [← heq, revoke]
    split
    · exact hs
    · next current hcurrent =>
      have hn := hs h
      rw [hcurrent] at hn
      exact hs.putPermissions (hn.sublist List.filter_sublist)
  removeHolder := by
    rintro s _ b hs ⟨⟩ h'
    rw [Std.ExtTreeMap.getElem?_erase]
    split
    · exact List.nodup_nil
    · exact hs h'
  setUsage := by
    rintro s _ key u hs ⟨⟩
    exact hs
  resetUsage := by
    rintro s _ key b hs ⟨⟩
    exact hs

theorem runAll (hs : s.Nodup) (cs : List Command) : (Command.runAll s cs).2.Nodup := by
  induction cs generalizing s with
  | nil => exact hs
  | cons c cs ih => exact ih ((invariantAt c.holder).run hs)

end Nodup

variable {s : PlainStore} {h : Holder} {record : Option (List Flag)}

theorem hasRecord_iff : Store.HasRecord s h record ↔ s.holders[h]? = record := by
  change s.permissions h = _ ↔ _
  unfold permissions
  cases s.holders[h]? <;> cases record <;> simp

theorem ledger (h : Holder) : Store.Ledger h Nodup (·.putPermissions h) where
  exists_record hs := ⟨_, hasRecord_iff.mpr rfl, hs h⟩
  written hs hn := ⟨hs.putPermissions hn, hasRecord_iff.mpr (by simp [putPermissions])⟩
  written_again {s fs} _ hr :=
    congrArg (PlainStore.mk · s.usages) (insert_eq_self (hasRecord_iff.mp hr))
  grant_eq {s record} fs hs hr := by
    obtain rfl := hasRecord_iff.mp hr
    change Except.ok (s.grant h fs) = _
    unfold grant
    rw [← FlagSet.fst_insertAll_ofList (hs h), ← FlagSet.flags_extend_ofList (hs h),
      ← FlagSet.snd_insertAll]
  revoke_none {s} fs _ hr := by
    change Except.ok (s.revoke h fs) = _
    rw [revoke, hasRecord_iff.mp hr]
  revoke_some {s old} fs _ hr := by
    change Except.ok (s.revoke h fs) = _
    rw [revoke, hasRecord_iff.mp hr]
    dsimp only
    rw [removeAll_eq_kept, length_sub_length_kept]

end Grants.PlainStore
