import Grants.ByteStore
import Grants.Proofs.ByteStore.Key
import Grants.Proofs.ByteStore.Record
import Grants.Proofs.FlagSet
import Grants.Proofs.Store.Lawful

/-!
# The byte store is lawful

A holder fits if the keys of its usage records do, and two texts share a usage
record if they have one digest.
-/

namespace Grants.ByteStore

variable {s t : ByteStore} {h h' : Holder} {key key' : Bytes} {flag flag' : String} {u : Usage}
variable {fs : List Flag}

/-- The usage record under a key. -/
def recordAt (s : ByteStore) (key : Bytes) : Except Error (Option Usage) :=
  match s.usages[key]? with
  | some bytes => (Record.usage bytes).map some
  | none => .ok none

/-- The usage record of a holder under the text of a flag, if there is one. -/
def record? (s : ByteStore) (h : Holder) (flag : String) : Except Error (Option Usage) :=
  (Key.ofUsage h flag).bind s.recordAt

theorem usage_eq (s : ByteStore) (h : Holder) (flag : String) :
    s.usage h flag = (s.record? h flag).map (·.getD {}) := by
  unfold usage record?
  cases Key.ofUsage h flag with
  | error e => rfl
  | ok key =>
    change (match s.usages[key]? with | some bytes => _ | none => _) = (s.recordAt key).map _
    unfold recordAt
    cases s.usages[key]? with
    | none => rfl
    | some bytes =>
      dsimp only
      cases Record.usage bytes <;> rfl

theorem setUsage_eq_ok_iff :
    s.setUsage h flag u = .ok t ↔ ∃ key, Key.ofUsage h flag = .ok key ∧ h.Fits ∧
      t = { s with usages := s.usages.insert key (Record.ofUsage u) } := by
  unfold setUsage
  cases hk : Key.ofUsage h flag with
  | error e => simp [bind, Except.bind]
  | ok key =>
    have hfits := Key.length_le_maxKey_iff hk
    by_cases hf : h.Fits
    · simp [bind, Except.bind, pure, Except.pure, Table.put, if_pos (hfits.mpr hf), hf, eq_comm]
    · simp [bind, Except.bind, Table.put, hf, mt hfits.mp hf]

theorem putPermissions_eq_ok_iff :
    s.putPermissions h fs = .ok t ↔ ∃ key, Key.ofHolder h = .ok key ∧
      (0 < key.length ∧ key.length ≤ Table.maxKey) ∧
      t = { s with holders := s.holders.insert key (Bytes.ofString (Record.ofFlags fs)) } := by
  unfold putPermissions
  cases hk : Key.ofHolder h with
  | error e => simp [bind, Except.bind]
  | ok key =>
    by_cases hlen : 0 < key.length ∧ key.length ≤ Table.maxKey
    · simp [bind, Except.bind, pure, Except.pure, Table.put, hlen, eq_comm]
    · simp [bind, Except.bind, Table.put, hlen]

theorem usages_of_putPermissions (ht : s.putPermissions h fs = .ok t) : t.usages = s.usages := by
  obtain ⟨key, -, -, rfl⟩ := putPermissions_eq_ok_iff.mp ht
  rfl

theorem define_eq_ok_iff {d : Definition} :
    s.define d = .ok t ↔ ∃ key, key = Bytes.ofString d.key.raw ∧
      (0 < key.length ∧ key.length ≤ Table.maxKey) ∧
      t = { s with
        definitions := s.definitions.insert key (Bytes.ofString (Codec.definition.toText d)) } := by
  unfold define Table.put
  by_cases hlen : 0 < (Bytes.ofString d.key.raw).length ∧
      (Bytes.ofString d.key.raw).length ≤ Table.maxKey
  · simp [bind, Except.bind, pure, Except.pure, hlen, eq_comm]
  · simp [bind, Except.bind, hlen]

theorem nodup_of_permissions? (hfs : s.permissions? h = .ok (some fs)) : fs.Nodup := by
  obtain ⟨key, -, hfs⟩ := Error.bind_eq_ok_iff.mp hfs
  split at hfs
  · cases hfs
  · obtain ⟨text, -, hfs⟩ := Error.bind_eq_ok_iff.mp hfs
    cases hfs
    exact nodup_distinct _

/-- What a grant writes has no repetitions. -/
theorem exists_put_of_grant {n : Nat} (ht : s.grant h fs = .ok (n, t)) :
    ∃ gs : List Flag, gs.Nodup ∧ s.putPermissions h gs = .ok t := by
  obtain ⟨stored, -, ht⟩ := Error.bind_eq_ok_iff.mp ht
  obtain ⟨t', ht', heq⟩ := Error.bind_eq_ok_iff.mp ht
  cases heq
  refine ⟨_, ?_, ht'⟩
  rw [FlagSet.snd_insertAll]
  exact ((FlagSet.indexed_ofList _).extend fs).nodup

theorem exists_put_of_revoke {n : Nat} (ht : s.revoke h fs = .ok (n, t)) :
    t = s ∨ ∃ gs : List Flag, gs.Nodup ∧ s.putPermissions h gs = .ok t := by
  obtain ⟨stored, hstored, ht⟩ := Error.bind_eq_ok_iff.mp ht
  cases stored with
  | none =>
    cases ht
    exact .inl rfl
  | some current =>
    dsimp only at ht
    split at ht
    · obtain ⟨t', ht', heq⟩ := Error.bind_eq_ok_iff.mp ht
      cases heq
      exact .inr ⟨_, (nodup_of_permissions? hstored).sublist List.filter_sublist, ht'⟩
    · cases ht
      exact .inl rfl

theorem usages_of_grant {n : Nat} (ht : s.grant h fs = .ok (n, t)) : t.usages = s.usages := by
  obtain ⟨gs, -, ht⟩ := exists_put_of_grant ht
  exact usages_of_putPermissions ht

theorem usages_of_revoke {n : Nat} (ht : s.revoke h fs = .ok (n, t)) : t.usages = s.usages := by
  rcases exists_put_of_revoke ht with rfl | ⟨gs, -, ht⟩
  · rfl
  · exact usages_of_putPermissions ht

theorem usages_of_removeHolder {b : Bool} (ht : s.removeHolder h = .ok (b, t)) :
    t.usages = s.usages := by
  obtain ⟨key, -, ht⟩ := Error.bind_eq_ok_iff.mp ht
  cases ht
  rfl

theorem record?_congr (heq : t.usages = s.usages) : t.record? = s.record? := by
  funext h flag
  unfold record? recordAt
  rw [heq]

theorem permissions_congr (heq : t.holders = s.holders) : t.permissions h = s.permissions h := by
  unfold permissions permissions?
  rw [heq]

/-- A record that was written with the flags of a holder is read as those flags. -/
theorem permissions?_of_getElem? (record : Option (List Flag)) (hk : Key.ofHolder h = .ok key)
    (hn : ∀ fs, record = some fs → fs.Nodup)
    (hr : s.holders[key]? = record.map fun fs ↦ Bytes.ofString (Record.ofFlags fs)) :
    s.permissions? h = .ok record := by
  simp only [permissions?, hk, bind, Except.bind, hr]
  cases record with
  | none => rfl
  | some fs =>
    simp only [Option.map_some, decodeText, Bytes.toString?_ofString]
    change Except.ok (some (Record.flags (Record.ofFlags fs))) = _
    rw [Record.flags_ofFlags, distinct_eq_self (hn fs rfl)]

theorem usage_of_absent (hk : Key.ofUsage h flag = .ok key) (hb : s.usages[key]? = none) :
    s.usage h flag = .ok {} := by
  rw [usage, hk]
  simp only [bind, Except.bind, hb]
  rfl

theorem usage_of_present {bytes : Bytes} (hk : Key.ofUsage h flag = .ok key)
    (hb : s.usages[key]? = some bytes) : s.usage h flag = Record.usage bytes := by
  rw [usage, hk]
  simp only [bind, Except.bind, hb]

theorem usage_of_getElem? (record : Option Usage) (hk : Key.ofUsage h flag = .ok key)
    (hr : s.usages[key]? = record.map Record.ofUsage) : s.usage h flag = .ok (record.getD {}) := by
  cases record with
  | none => exact usage_of_absent hk hr
  | some u => exact (usage_of_present hk hr).trans (Record.usage_ofUsage u)

/-- A usage record can be read exactly if there is none or what there is can be decoded. -/
theorem exists_usage_iff (hk : Key.ofUsage h flag = .ok key) :
    (∃ u, s.usage h flag = .ok u) ↔
      ∀ bytes, s.usages[key]? = some bytes → ∃ u, Record.usage bytes = .ok u := by
  cases hb : s.usages[key]? with
  | none => simp [usage_of_absent hk hb]
  | some bytes => simp [usage_of_present hk hb]

theorem record?_of_setUsage (ht : s.setUsage h flag u = .ok t)
    (hd : Sha256.digest (Bytes.ofString flag) = Sha256.digest (Bytes.ofString flag')) :
    t.record? h flag' = .ok (some u) := by
  obtain ⟨key, hk, -, rfl⟩ := setUsage_eq_ok_iff.mp ht
  rw [record?, ← Key.ofUsage_congr hd, hk]
  change recordAt _ key = _
  simp only [recordAt, Std.ExtTreeMap.getElem?_insert_self, Record.usage_ofUsage]
  rfl

theorem record?_of_setUsage_apart (ht : s.setUsage h flag u = .ok t)
    (hapart : h' = h → Sha256.digest (Bytes.ofString flag) ≠ Sha256.digest (Bytes.ofString flag')) :
    t.record? h' flag' = s.record? h' flag' := by
  obtain ⟨key, hk, -, rfl⟩ := setUsage_eq_ok_iff.mp ht
  unfold record?
  cases hk' : Key.ofUsage h' flag' with
  | error e => rfl
  | ok key' =>
    have hne : key ≠ key' := by
      rintro rfl
      obtain ⟨rfl, hd⟩ := Key.ofUsage_inj hk hk'
      exact hapart rfl hd
    change recordAt _ key' = s.recordAt key'
    simp only [recordAt, Std.ExtTreeMap.getElem?_insert, Std.LawfulEqCmp.compare_eq_iff_eq,
      if_neg hne]

instance : LawfulStore ByteStore where
  Rest := Table × Table
  rest s := (s.holders, s.definitions)
  record? := record?
  Fits := Holder.Fits
  Collide flag flag' := Sha256.digest (Bytes.ofString flag) = Sha256.digest (Bytes.ofString flag')
  collide_refl _ := rfl
  fits_of_validate := Holder.fits_of_validate
  permissions_eq h heq := permissions_congr (congrArg Prod.fst heq)
  usage_eq := usage_eq
  update_eq s h flag decide := rfl
  exists_setUsage_iff s h flag u := by
    constructor
    · rintro ⟨t, ht⟩
      obtain ⟨-, -, hf, -⟩ := setUsage_eq_ok_iff.mp ht
      exact hf
    · intro hf
      obtain ⟨key, hk⟩ := Key.exists_ofUsage hf flag
      exact ⟨_, setUsage_eq_ok_iff.mpr ⟨key, hk, hf, rfl⟩⟩
  record?_setUsage := record?_of_setUsage
  record?_setUsage_apart := record?_of_setUsage_apart
  rest_setUsage ht := by
    obtain ⟨key, -, -, rfl⟩ := setUsage_eq_ok_iff.mp ht
    rfl
  record?_setPermissions ht := record?_congr (usages_of_putPermissions ht)
  record?_grant ht := record?_congr (usages_of_grant ht)
  record?_revoke ht := record?_congr (usages_of_revoke ht)
  record?_removeHolder ht := record?_congr (usages_of_removeHolder ht)

instance : CommutingStore ByteStore where
  setUsage_comm {s t t' h flag flag' u u'} hne ht ht' := by
    obtain ⟨key, hk, hf, rfl⟩ := setUsage_eq_ok_iff.mp ht
    obtain ⟨key', hk', -, rfl⟩ := setUsage_eq_ok_iff.mp ht'
    have hkeys : key ≠ key' := by
      rintro rfl
      exact hne (Key.ofUsage_inj hk hk').2
    change setUsage _ h flag' u' = setUsage _ h flag u
    rw [setUsage_eq_ok_iff.mpr ⟨key', hk', hf, rfl⟩, setUsage_eq_ok_iff.mpr ⟨key, hk, hf, rfl⟩]
    exact congrArg (fun usages ↦ Except.ok (ByteStore.mk s.holders usages s.definitions))
      (insert_insert_comm s.usages hkeys _ _)

/-- Every usage record has the length of one. -/
def Intact (s : ByteStore) : Prop :=
  ∀ (key record : Bytes), s.usages[key]? = some record → record.length = Record.usageLength

theorem intact_empty : empty.Intact := by
  intro key record hr
  cases (Std.ExtTreeMap.getElem?_empty (α := Bytes)).symm.trans hr

theorem Intact.sound (hs : s.Intact) : Store.Sound s := by
  intro h flag hf
  obtain ⟨key, hk⟩ := Key.exists_ofUsage hf flag
  exact (exists_usage_iff hk).mpr fun record hr ↦ Record.usage_eq_ok (hs key record hr)

end Grants.ByteStore
