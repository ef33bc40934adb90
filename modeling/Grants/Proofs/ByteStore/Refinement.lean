import Grants.Proofs.ByteStore.Lawful
import Grants.Proofs.FlagSet
import Grants.Proofs.PlainStore.Lawful
import Grants.Proofs.Sample
import Grants.Proofs.Store.Simulation

/-!
# The byte store refines the plain store

A byte store encodes a plain store if it has, under the key of every record of
the plain store, the bytes of that record, and nothing under the keys of missing
ones.  Every operation keeps this (`simulation`), so from the empty stores on the
two cannot be told apart (`replies_eq`).

Keys are told apart by holder and by digest, so this is about texts with different
digests, and about holders whose keys are not oversized.
-/

namespace Grants

/-- The byte store `t` has the records of `s`, the usage records as far as their texts are among
`K`. -/
structure Encodes (K : String → Prop) (s : PlainStore) (t : ByteStore) : Prop where
  holders {h : Holder} {key : Bytes} : Key.ofHolder h = .ok key →
    t.holders[key]? = s.holders[h]?.map fun fs ↦ Bytes.ofString (Record.ofFlags fs)
  nodup {h : Holder} {fs : List Flag} : s.holders[h]? = some fs → fs.Nodup
  usages {h : Holder} {flag : String} {key : Bytes} : K flag → Key.ofUsage h flag = .ok key →
    t.usages[key]? = s.usages[(h, flag)]?.map Record.ofUsage

namespace Encodes

variable {K : String → Prop} {s : PlainStore} {t : ByteStore} {h : Holder} {flag : String}
variable {fs : List Flag} {u : Usage}

theorem empty : Encodes K .empty .empty where
  holders _ := by simp [ByteStore.empty, PlainStore.empty]
  nodup hfs := by simp [PlainStore.empty] at hfs
  usages _ _ := by simp [ByteStore.empty, PlainStore.empty]

/-! ## Holders -/

theorem permissions?_eq (hst : Encodes K s t) (hf : h.Fits) :
    t.permissions? h = .ok s.holders[h]? := by
  obtain ⟨key, hk⟩ := Key.exists_ofHolder hf
  exact ByteStore.permissions?_of_getElem? _ hk (fun _ ↦ hst.nodup) (hst.holders hk)

theorem permissions_eq (hst : Encodes K s t) (hf : h.Fits) : t.permissions h = s.permissions h := by
  unfold ByteStore.permissions PlainStore.permissions
  rw [hst.permissions?_eq hf]
  cases s.holders[h]? <;> rfl

/-- Two stores that change alike at one holder encode as before. -/
theorem changeHolder (hst : Encodes K s t) {s' : PlainStore} {t' : ByteStore} {key : Bytes}
    (record : Option (List Flag)) (hk : Key.ofHolder h = .ok key)
    (hn : ∀ fs, record = some fs → fs.Nodup)
    (hs' : ∀ h', s'.holders[h']? = if h = h' then record else s.holders[h']?)
    (ht' : ∀ key', t'.holders[key']? = if key = key' then
      record.map fun fs ↦ Bytes.ofString (Record.ofFlags fs) else t.holders[key']?)
    (hus : s'.usages = s.usages) (hut : t'.usages = t.usages) : Encodes K s' t' where
  holders {h' key'} hk' := by
    rw [hs', ht']
    by_cases hh : h = h'
    · subst hh
      cases hk.symm.trans hk'
      rw [if_pos rfl, if_pos rfl]
    · have hne : key ≠ key' := by
        rintro rfl
        exact hh (Key.ofHolder_inj hk hk')
      rw [if_neg hh, if_neg hne, hst.holders hk']
  nodup {h' fs} hfs := by
    rw [hs'] at hfs
    split at hfs
    · exact hn fs hfs
    · exact hst.nodup hfs
  usages := by
    rw [hus, hut]
    exact hst.usages

theorem putPermissions (hst : Encodes K s t) (hf : h.Fits) (hn : fs.Nodup) :
    ∃ t', t.putPermissions h fs = .ok t' ∧ Encodes K (s.putPermissions h fs) t' := by
  obtain ⟨key, hk⟩ := Key.exists_ofHolder hf
  have hlen : 0 < key.length ∧ key.length ≤ Table.maxKey := by
    rw [Key.length_ofHolder hk]
    unfold Holder.Fits at hf
    unfold Table.maxKey
    omega
  refine ⟨_, ByteStore.putPermissions_eq_ok_iff.mpr ⟨key, hk, hlen, rfl⟩, ?_⟩
  refine hst.changeHolder (some fs) hk ?_ ?_ ?_ rfl rfl
  · rintro _ ⟨⟩
    exact hn
  · intro h'
    simp [PlainStore.putPermissions, Std.ExtTreeMap.getElem?_insert]
  · intro key'
    simp [Std.ExtTreeMap.getElem?_insert]

theorem setPermissions (hst : Encodes K s t) (hf : h.Fits) (fs : List Flag) :
    Agree (Encodes K) (Store.setPermissions s h fs) (Store.setPermissions t h fs) := by
  obtain ⟨t', ht', hst'⟩ := hst.putPermissions hf (FlagSet.indexed_ofList fs).nodup
  change Agree _ (.ok _) (t.putPermissions h _)
  rw [ht']
  exact .ok hst'

theorem grant (hst : Encodes K s t) (hf : h.Fits) (fs : List Flag) :
    Agree (Alike (Encodes K)) (Store.grant s h fs) (Store.grant t h fs) := by
  have hn : ((FlagSet.ofList (s.holders[h]?.getD [])).insertAll fs).2.flags.Nodup := by
    rw [FlagSet.snd_insertAll]
    exact ((FlagSet.indexed_ofList _).extend fs).nodup
  obtain ⟨t', ht', hst'⟩ := hst.putPermissions hf hn
  change Agree _ (.ok (s.grant h fs)) (t.grant h fs)
  unfold ByteStore.grant
  rw [hst.permissions?_eq hf]
  change Agree _ _ (do return (_, ← t.putPermissions h _))
  rw [ht']
  exact .ok ⟨rfl, hst'⟩

/-- The byte store writes only if a flag is removed, but then what it has is what it would write. -/
theorem revoke (hst : Encodes K s t) (hf : h.Fits) (fs : List Flag) :
    Agree (Alike (Encodes K)) (Store.revoke s h fs) (Store.revoke t h fs) := by
  change Agree _ (.ok (s.revoke h fs)) (t.revoke h fs)
  unfold PlainStore.revoke ByteStore.revoke
  rw [hst.permissions?_eq hf]
  cases hcurrent : s.holders[h]? with
  | none => exact .ok ⟨rfl, hst⟩
  | some current =>
    have hn : (current.removeAll fs).Nodup := (hst.nodup hcurrent).sublist List.filter_sublist
    change Agree _ _ (if 0 < current.length - (current.removeAll fs).length
      then do return (_, ← t.putPermissions h _) else .ok (_, t))
    by_cases hlt : 0 < current.length - (current.removeAll fs).length
    · obtain ⟨t', ht', hst'⟩ := hst.putPermissions hf hn
      rw [if_pos hlt, ht']
      exact .ok ⟨rfl, hst'⟩
    · have hkept : current.removeAll fs = current :=
        List.filter_sublist.eq_of_length_le (by unfold List.removeAll at hlt; omega)
      obtain ⟨key, hk⟩ := Key.exists_ofHolder hf
      rw [if_neg hlt]
      refine .ok ⟨rfl, ?_⟩
      change Encodes K (s.putPermissions h (current.removeAll fs)) t
      rw [hkept]
      refine hst.changeHolder (some current) hk ?_ ?_ ?_ rfl rfl
      · rintro _ ⟨⟩
        exact hst.nodup hcurrent
      · intro h'
        simp [PlainStore.putPermissions, Std.ExtTreeMap.getElem?_insert]
      · intro key'
        split
        · next heq => rw [← heq, hst.holders hk, hcurrent]
        · rfl

theorem removeHolder (hst : Encodes K s t) (hf : h.Fits) :
    Agree (Alike (Encodes K)) (Store.removeHolder s h) (Store.removeHolder t h) := by
  obtain ⟨key, hk⟩ := Key.exists_ofHolder hf
  change Agree _ (.ok (s.removeHolder h)) (t.removeHolder h)
  unfold ByteStore.removeHolder
  rw [hk]
  refine .ok ⟨?_, ?_⟩
  · change s.holders.contains h = t.holders.contains key
    rw [Std.ExtTreeMap.contains_eq_isSome_getElem?, Std.ExtTreeMap.contains_eq_isSome_getElem?,
      hst.holders hk, Option.isSome_map]
  · refine hst.changeHolder none hk (fun _ hfs ↦ nomatch hfs) ?_ ?_ rfl rfl
    · intro h'
      simp [PlainStore.removeHolder, Std.ExtTreeMap.getElem?_erase]
    · intro key'
      simp [Std.ExtTreeMap.getElem?_erase]

/-! ## Usage records -/

theorem usage_eq (hst : Encodes K s t) (hf : h.Fits) (hflag : K flag) :
    t.usage h flag = .ok (s.usage h flag) := by
  obtain ⟨key, hk⟩ := Key.exists_ofUsage hf flag
  exact ByteStore.usage_of_getElem? _ hk (hst.usages hflag hk)

variable (hK : ∀ a, K a → ∀ b, K b →
  Sha256.digest (Bytes.ofString a) = Sha256.digest (Bytes.ofString b) → a = b)

include hK

/-- Two stores that change alike at one usage record encode as before. -/
theorem changeUsage (hst : Encodes K s t) {s' : PlainStore} {t' : ByteStore} {key : Bytes}
    (record : Option Usage) (hflag : K flag) (hk : Key.ofUsage h flag = .ok key)
    (hs' : ∀ h' flag', s'.usages[(h', flag')]? =
      if h' = h ∧ flag = flag' then record else s.usages[(h', flag')]?)
    (ht' : ∀ key', t'.usages[key']? =
      if key = key' then record.map Record.ofUsage else t.usages[key']?)
    (hhs : s'.holders = s.holders) (hht : t'.holders = t.holders) : Encodes K s' t' where
  holders := by
    rw [hhs, hht]
    exact hst.holders
  nodup := by
    rw [hhs]
    exact hst.nodup
  usages {h' flag' key'} hflag' hk' := by
    rw [hs', ht']
    by_cases hh : h' = h ∧ flag = flag'
    · obtain ⟨rfl, rfl⟩ := hh
      cases hk.symm.trans hk'
      rw [if_pos rfl, if_pos ⟨rfl, rfl⟩]
    · have hne : key ≠ key' := by
        rintro rfl
        obtain ⟨rfl, hd⟩ := Key.ofUsage_inj hk hk'
        exact hh ⟨rfl, hK flag hflag flag' hflag' hd⟩
      rw [if_neg hh, if_neg hne, hst.usages hflag' hk']

theorem setUsage (hst : Encodes K s t) (hf : h.Fits) (hflag : K flag) (u : Usage) :
    Agree (Encodes K) (Store.setUsage s h flag u) (Store.setUsage t h flag u) := by
  obtain ⟨key, hk⟩ := Key.exists_ofUsage hf flag
  change Agree _ (.ok (s.setUsage h flag u)) (t.setUsage h flag u)
  rw [ByteStore.setUsage_eq_ok_iff.mpr ⟨key, hk, hf, rfl⟩]
  refine .ok (hst.changeUsage hK (some u) hflag hk ?_ ?_ rfl rfl)
  · intro h' flag'
    exact PlainStore.getElem?_setUsage
  · intro key'
    simp [Std.ExtTreeMap.getElem?_insert]

theorem resetUsage (hst : Encodes K s t) (hf : h.Fits) (hflag : K flag) :
    Agree (Alike (Encodes K)) (Store.resetUsage s h flag) (Store.resetUsage t h flag) := by
  obtain ⟨key, hk⟩ := Key.exists_ofUsage hf flag
  change Agree _ (.ok (s.resetUsage h flag)) (t.resetUsage h flag)
  unfold ByteStore.resetUsage
  rw [hk]
  refine .ok ⟨?_, ?_⟩
  · change s.usages.contains (h, flag) = t.usages.contains key
    rw [Std.ExtTreeMap.contains_eq_isSome_getElem?, Std.ExtTreeMap.contains_eq_isSome_getElem?,
      hst.usages hflag hk, Option.isSome_map]
  · refine hst.changeUsage hK none hflag hk ?_ ?_ rfl rfl
    · intro h' flag'
      change (s.usages.erase (h, flag))[(h', flag')]? = _
      rw [Std.ExtTreeMap.getElem?_erase]
      simp only [Std.LawfulEqCmp.compare_eq_iff_eq, Prod.mk.injEq, eq_comm (a := h)]
    · intro key'
      simp [Std.ExtTreeMap.getElem?_erase]

theorem simulation : Simulation PlainStore ByteStore Holder.Fits K (Encodes K) where
  permissions hst hf := (hst.permissions_eq hf).symm
  setPermissions fs hst hf := hst.setPermissions hf fs
  grant fs hst hf := hst.grant hf fs
  revoke fs hst hf := hst.revoke hf fs
  removeHolder hst hf := hst.removeHolder hf
  usage hst hf hflag := (hst.usage_eq hf hflag).symm
  setUsage u hst hf hflag := hst.setUsage hK hf hflag u
  resetUsage hst hf hflag := hst.resetUsage hK hf hflag
  update decide hst hf hflag :=
    .update hst (hst.usage_eq hf hflag).symm (hst.setUsage hK hf hflag) decide

end Encodes

/-- The two stores cannot be told apart: commands from the empty stores on get the same replies, and
so does any update that a caller may think of after them. -/
theorem replies_eq (cs : List Command) (hf : ∀ c ∈ cs, c.holder.Fits)
    (hapart : ∀ a ∈ Command.keysAll PlainStore.empty cs, ∀ b ∈ Command.keysAll PlainStore.empty cs,
      Sha256.digest (Bytes.ofString a) = Sha256.digest (Bytes.ofString b) → a = b) :
    (Command.runAll PlainStore.empty cs).1 = (Command.runAll ByteStore.empty cs).1 ∧
      ∀ (α : Type) (h : Holder) (flag : String) (decide : Usage → Change α), h.Fits →
        (∀ a ∈ Command.keysAll PlainStore.empty cs,
          Sha256.digest (Bytes.ofString a) = Sha256.digest (Bytes.ofString flag) → a = flag) →
        (Store.update (Command.runAll PlainStore.empty cs).2 h flag decide).map (·.1) =
          (Store.update (Command.runAll ByteStore.empty cs).2 h flag decide).map (·.1) := by
  constructor
  · have hsim := Encodes.simulation (K := (· ∈ Command.keysAll PlainStore.empty cs)) hapart
    exact (hsim.runAll .empty hf fun _ hkey ↦ hkey).1
  · intro α h flag decide hh hflag
    have hsim := Encodes.simulation (K := (· ∈ flag :: Command.keysAll PlainStore.empty cs)) <| by
      intro a ha b hb hd
      rcases List.mem_cons.mp ha with rfl | hacs
      · rcases List.mem_cons.mp hb with rfl | hbcs
        · rfl
        · exact (hflag b hbcs hd.symm).symm
      · rcases List.mem_cons.mp hb with rfl | hbcs
        · exact hflag a hacs hd
        · exact hapart a hacs b hbcs hd
    have hrun := hsim.runAll .empty hf fun _ hkey ↦ List.mem_cons_of_mem _ hkey
    exact (hsim.update decide hrun.2 hh List.mem_cons_self).map_fst_eq

/-- The commands of the sample get the same replies, and so does a look at the last invocation. -/
theorem replies_eq_of_sample :
    (Command.runAll PlainStore.empty Sample.commands).1 =
        (Command.runAll ByteStore.empty Sample.commands).1 ∧
      (Store.update (Command.runAll PlainStore.empty Sample.commands).2 Sample.holder
        Sample.granted.raw fun u ↦ ⟨u.lastInvoked, u, false⟩).map (·.1) =
      (Store.update (Command.runAll ByteStore.empty Sample.commands).2 Sample.holder
        Sample.granted.raw fun u ↦ ⟨u.lastInvoked, u, false⟩).map (·.1) := by
  have hf : ∀ c ∈ Sample.commands, c.holder.Fits := by decide +kernel
  have hkeys : ∀ key ∈ Command.keysAll PlainStore.empty Sample.commands,
      key = Sample.granted.raw := by decide +kernel
  obtain ⟨hreplies, hupdate⟩ := replies_eq Sample.commands hf fun a ha b hb _ ↦
    (hkeys a ha).trans (hkeys b hb).symm
  refine ⟨hreplies, hupdate _ Sample.holder Sample.granted.raw _ (by decide) ?_⟩
  exact fun a ha _ ↦ hkeys a ha

end Grants
