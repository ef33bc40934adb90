import Grants.Proofs.ByteStore.Invariant
import Grants.Wire.Faithful

/-!
# What the byte store holds

As long as nobody writes to its tables behind its back, every record of the byte
store is one that an operation wrote: the flags of a holder, a usage record, or a
definition, under the key that belongs to it (`WellFormed`).  The operations keep
this, whether they succeed or fail (`WellFormed.invariant`).

Such records are read back as they were written (`WellFormed.readable`), since
the lines of a record of flags have no line breaks of their own and the codecs
are faithful.
-/

namespace Grants

namespace Table

/-- Every record of a table is under a key of an accepted size, and is as `E` says. -/
def Holds (E : Bytes → Bytes → Prop) (t : Table) : Prop :=
  ∀ key bytes : Bytes, t[key]? = some bytes →
    (0 < key.length ∧ key.length ≤ maxKey) ∧ E key bytes

variable {E : Bytes → Bytes → Prop} {t : Table} {key bytes : Bytes}

theorem holds_empty : Holds E ∅ := by
  intro key bytes hb
  cases (Std.ExtTreeMap.getElem?_empty (α := Bytes)).symm.trans hb

theorem Holds.insert (ht : Holds E t) (hk : 0 < key.length ∧ key.length ≤ maxKey)
    (hE : E key bytes) : Holds E (t.insert key bytes) := by
  intro key' bytes' hb
  rw [Std.ExtTreeMap.getElem?_insert] at hb
  split at hb
  · next heq =>
    cases Std.LawfulEqCmp.compare_eq_iff_eq.mp heq
    cases hb
    exact ⟨hk, hE⟩
  · exact ht key' bytes' hb

theorem Holds.erase (ht : Holds E t) (key : Bytes) : Holds E (t.erase key) := by
  intro key' bytes' hb
  rw [Std.ExtTreeMap.getElem?_erase] at hb
  split at hb
  · cases hb
  · exact ht key' bytes' hb

end Table

namespace ByteStore

/-- The flags of exactly one holder, each of them once. -/
structure HolderEntry (key bytes : Bytes) : Prop where
  holder : ∃ h, Key.ofHolder h = .ok key ∧ ∀ h', Key.ofHolder h' = .ok key → h' = h
  flags : ∃ fs : List Flag, fs.Nodup ∧ (∀ f ∈ fs, Grammar.flag.accepts f.raw = true) ∧
    bytes = Bytes.ofString (Record.ofFlags fs)

/-- A usage record under some text, which need not be that of a flag. -/
structure UsageEntry (key bytes : Bytes) : Prop where
  key : ∃ h flag, Key.ofUsage h flag = .ok key
  usage : ∃ u, bytes = Record.ofUsage u

/-- A definition under its own strict flag. -/
def DefinitionEntry (key bytes : Bytes) : Prop :=
  ∃ d : Definition, Grammar.strictFlag.accepts d.key.raw = true ∧
    key = Bytes.ofString d.key.raw ∧ bytes = Bytes.ofString (Codec.definition.toText d)

/-- Every record is one that an operation writes. -/
structure WellFormed (s : ByteStore) : Prop where
  holders : Table.Holds HolderEntry s.holders
  usages : Table.Holds UsageEntry s.usages
  definitions : Table.Holds DefinitionEntry s.definitions

namespace WellFormed

variable {s t : ByteStore} {h : Holder} {fs : List Flag} {key bytes : Bytes} {flag : String}
variable {u : Usage} {d : Definition} {e : Error}

/-! ## Operations write such records only -/

theorem empty : WellFormed .empty where
  holders := Table.holds_empty
  usages := Table.holds_empty
  definitions := Table.holds_empty

theorem putPermissions (hs : s.WellFormed) (hn : fs.Nodup) (ht : s.putPermissions h fs = .ok t) :
    t.WellFormed := by
  obtain ⟨key, hk, hlen, rfl⟩ := putPermissions_eq_ok_iff.mp ht
  refine ⟨hs.holders.insert hlen ⟨⟨h, hk, ?_⟩, ⟨fs, hn, ?_, rfl⟩⟩, hs.usages, hs.definitions⟩
  · intro h' hk'
    exact Key.ofHolder_inj hk' hk
  · intro f _
    exact f.isFlag_raw

theorem setUsage (hs : s.WellFormed) (ht : s.setUsage h flag u = .ok t) : t.WellFormed := by
  obtain ⟨key, hk, hf, rfl⟩ := setUsage_eq_ok_iff.mp ht
  have hlen := (Key.length_le_maxKey_iff hk).mpr hf
  exact ⟨hs.holders, hs.usages.insert hlen ⟨⟨h, flag, hk⟩, ⟨u, rfl⟩⟩, hs.definitions⟩

theorem define (hs : s.WellFormed) (ht : s.define d = .ok t) : t.WellFormed := by
  obtain ⟨key, hk, hlen, rfl⟩ := define_eq_ok_iff.mp ht
  exact ⟨hs.holders, hs.usages, hs.definitions.insert hlen ⟨d, d.key.accepted, hk, rfl⟩⟩

theorem invariantAt (h : Holder) : Store.InvariantAt h WellFormed where
  setPermissions hs ht := hs.putPermissions (FlagSet.indexed_ofList _).nodup ht
  grant hs ht := by
    obtain ⟨gs, hn, ht⟩ := exists_put_of_grant ht
    exact hs.putPermissions hn ht
  revoke hs ht := by
    rcases exists_put_of_revoke ht with rfl | ⟨gs, hn, ht⟩
    · exact hs
    · exact hs.putPermissions hn ht
  removeHolder hs ht := by
    obtain ⟨key, -, ht⟩ := Error.bind_eq_ok_iff.mp ht
    cases ht
    exact ⟨hs.holders.erase key, hs.usages, hs.definitions⟩
  setUsage := setUsage
  resetUsage hs ht := by
    obtain ⟨key, -, ht⟩ := Error.bind_eq_ok_iff.mp ht
    cases ht
    exact ⟨hs.holders, hs.usages.erase key, hs.definitions⟩

theorem invariant : Invariant WellFormed where
  common := invariantAt
  empty := empty
  define := define
  undefine _ hs := ⟨hs.holders, hs.usages, hs.definitions.erase _⟩

theorem intact (hs : s.WellFormed) : s.Intact := by
  intro key bytes hb
  obtain ⟨u, rfl⟩ := (hs.usages key bytes hb).2.usage
  exact Record.length_ofUsage u

end WellFormed

/-! ## Such records are read back -/

/-- The reads of a store find what is stored, and nothing that cannot be decoded. -/
structure Readable (s : ByteStore) : Prop where
  permissions {h : Holder} {key bytes : Bytes} : Key.ofHolder h = .ok key →
    s.holders[key]? = some bytes →
      ∃ fs, s.permissions h = .ok fs ∧ bytes = Bytes.ofString (Record.ofFlags fs)
  /-- Flags are not read only where there are none, or no key. -/
  permissions_error {h : Holder} {e : Error} : s.permissions h = .error e →
    e = .notFound h ∨ ∃ n, Key.maxPart < n ∧ e = .store (.partTooLong n)
  usage {h : Holder} {flag : String} {key bytes : Bytes} : Key.ofUsage h flag = .ok key →
    s.usages[key]? = some bytes → ∃ u, s.usage h flag = .ok u ∧ bytes = Record.ofUsage u
  usage_error {h : Holder} {flag : String} {e : Error} : s.usage h flag = .error e →
    ∃ n, Key.maxPart < n ∧ e = .store (.partTooLong n)
  definition (key : StrictFlag) : ∃ d, s.definition? key = .ok d ∧
    s.definitions[Bytes.ofString key.raw]? = d.map (Bytes.ofString ∘ Codec.definition.toText) ∧
      ∀ d' ∈ d, d'.key = key
  listHolders : ∃ hs, s.listHolders = .ok hs ∧ hs.map Key.ofHolder = s.holders.keys.map .ok
  listDefinitions : ∃ ds, s.listDefinitions = .ok ds ∧
    ds.map (fun d ↦ (Bytes.ofString d.key.raw, Bytes.ofString (Codec.definition.toText d))) =
      s.definitions.toList

theorem permissions_of_getElem?_eq_none {s : ByteStore} {h : Holder} {key : Bytes}
    (hk : Key.ofHolder h = .ok key) (hb : s.holders[key]? = none) :
    s.permissions h = .error (.notFound h) := by
  rw [ByteStore.permissions, permissions?_of_getElem? none hk nofun hb]
  rfl

@[simp] theorem readDefinition_toText (d : Definition) :
    readDefinition (Bytes.ofString (Codec.definition.toText d)) = .ok d := by
  have hread := Codec.faithful_definition.ofText?_toText d
  unfold readDefinition decodeText
  simp only [Bytes.toString?_ofString, bind, Except.bind, hread]
  rfl

namespace WellFormed

variable {s : ByteStore} {h : Holder} {key : Bytes} {flag : String} {e : Error}

/-- The record of a holder as it is stored, and as it is read. -/
theorem exists_record (hs : s.WellFormed) (hk : Key.ofHolder h = .ok key) :
    ∃ record : Option (List Flag), (record.getD []).Nodup ∧
      s.holders[key]? = record.map (fun fs ↦ Bytes.ofString (Record.ofFlags fs)) ∧
        s.permissions? h = .ok record := by
  cases hb : s.holders[key]? with
  | none => exact ⟨none, List.nodup_nil, rfl, permissions?_of_getElem? none hk nofun hb⟩
  | some bytes =>
    obtain ⟨fs, hn, -, rfl⟩ := (hs.holders key bytes hb).2.flags
    refine ⟨some fs, hn, rfl, permissions?_of_getElem? (some fs) hk ?_ hb⟩
    rintro _ ⟨⟩
    exact hn

theorem permissions_eq (hs : s.WellFormed) (hk : Key.ofHolder h = .ok key) :
    (s.holders[key]? = none ∧ s.permissions h = .error (.notFound h)) ∨
      ∃ fs, s.holders[key]? = some (Bytes.ofString (Record.ofFlags fs)) ∧
        s.permissions h = .ok fs := by
  obtain ⟨record, -, hb, hread⟩ := hs.exists_record hk
  cases record with
  | none => exact .inl ⟨hb, permissions_of_getElem?_eq_none hk hb⟩
  | some fs =>
    refine .inr ⟨fs, hb, ?_⟩
    rw [ByteStore.permissions, hread]
    rfl

theorem usage_eq (hs : s.WellFormed) (hk : Key.ofUsage h flag = .ok key) :
    ∃ record : Option Usage, s.usages[key]? = record.map Record.ofUsage ∧
      s.usage h flag = .ok (record.getD {}) := by
  cases hb : s.usages[key]? with
  | none => exact ⟨none, rfl, usage_of_getElem? none hk hb⟩
  | some bytes =>
    obtain ⟨u, rfl⟩ := (hs.usages key bytes hb).2.usage
    exact ⟨some u, rfl, usage_of_getElem? (some u) hk hb⟩

theorem definition?_eq (hs : s.WellFormed) (key : StrictFlag) :
    ∃ d, s.definition? key = .ok d ∧
      s.definitions[Bytes.ofString key.raw]? = d.map (Bytes.ofString ∘ Codec.definition.toText) ∧
        ∀ d' ∈ d, d'.key = key := by
  unfold definition?
  cases hb : s.definitions[Bytes.ofString key.raw]? with
  | none => exact ⟨none, rfl, rfl, nofun⟩
  | some bytes =>
    obtain ⟨d, -, hkey, rfl⟩ := (hs.definitions _ bytes hb).2
    refine ⟨some d, ?_, rfl, ?_⟩
    · dsimp only
      rw [readDefinition_toText]
      rfl
    · rintro _ ⟨⟩
      have hraw : key.raw = d.key.raw := Bytes.ofString_inj hkey
      cases key
      cases hraw
      rfl

theorem listHolders_eq (hs : s.WellFormed) :
    ∃ hs', s.listHolders = .ok hs' ∧ hs'.map Key.ofHolder = s.holders.keys.map .ok := by
  have hentries : ∀ entry ∈ s.holders.toList, ∃ key,
      (do let _ ← decodeText entry.2; return entry.1) = Except.ok (ε := Error) key ∧
        key = entry.1 := by
    rintro ⟨key, bytes⟩ hmem
    have hb := Std.ExtTreeMap.mem_toList_iff_getElem?_eq_some.mp hmem
    obtain ⟨fs, -, -, rfl⟩ := (hs.holders key bytes hb).2.flags
    refine ⟨key, ?_, rfl⟩
    rw [decodeText, Bytes.toString?_ofString]
    rfl
  obtain ⟨keys, hkeys, hfst⟩ := Error.exists_mapM_eq_ok (g := id) hentries
  rw [List.map_id, Std.ExtTreeMap.map_fst_toList_eq_keys] at hfst
  subst hfst
  refine ⟨s.holders.keys.filterMap Key.holder?, ?_, Key.map_ofHolder_filterMap ?_⟩
  · unfold listHolders
    rw [hkeys]
    rfl
  · intro key hmem
    rw [Std.ExtTreeMap.mem_keys, Std.ExtTreeMap.mem_iff_isSome_getElem?,
      Option.isSome_iff_exists] at hmem
    obtain ⟨bytes, hb⟩ := hmem
    obtain ⟨h, hk, -⟩ := (hs.holders key bytes hb).2.holder
    exact ⟨h, hk⟩

theorem listDefinitions_eq (hs : s.WellFormed) :
    ∃ ds, s.listDefinitions = .ok ds ∧
      ds.map (fun d ↦ (Bytes.ofString d.key.raw, Bytes.ofString (Codec.definition.toText d))) =
        s.definitions.toList := by
  have hentries : ∀ entry ∈ s.definitions.toList, ∃ d,
      (do let _ ← decodeText entry.1; readDefinition entry.2) = .ok d ∧
        (Bytes.ofString d.key.raw, Bytes.ofString (Codec.definition.toText d)) = id entry := by
    rintro ⟨key, bytes⟩ hmem
    have hb := Std.ExtTreeMap.mem_toList_iff_getElem?_eq_some.mp hmem
    obtain ⟨d, -, rfl, rfl⟩ := (hs.definitions key bytes hb).2
    refine ⟨d, ?_, rfl⟩
    rw [decodeText, Bytes.toString?_ofString, readDefinition_toText]
    rfl
  obtain ⟨ds, hds, hmap⟩ := Error.exists_mapM_eq_ok hentries
  rw [List.map_id] at hmap
  exact ⟨ds, hds, hmap⟩

theorem readable (hs : s.WellFormed) : s.Readable where
  permissions hk hb := by
    rcases hs.permissions_eq hk with ⟨hnone, -⟩ | ⟨fs, hfs, hread⟩
    · cases hb.symm.trans hnone
    · exact ⟨fs, hread, Option.some.inj (hb.symm.trans hfs)⟩
  permissions_error {h e} he := by
    cases hk : Key.ofHolder h with
    | error e' =>
      rw [ByteStore.permissions, permissions?, hk] at he
      cases he
      exact .inr (Key.exists_of_build_eq_error hk)
    | ok key =>
      rcases hs.permissions_eq hk with ⟨-, hread⟩ | ⟨fs, -, hread⟩
      · cases hread.symm.trans he
        exact .inl rfl
      · cases hread.symm.trans he
  usage hk hb := by
    obtain ⟨record, hrecord, hread⟩ := hs.usage_eq hk
    cases record with
    | none => cases hb.symm.trans hrecord
    | some u => exact ⟨u, hread, Option.some.inj (hb.symm.trans hrecord)⟩
  usage_error {h flag e} he := by
    cases hk : Key.ofUsage h flag with
    | error e' =>
      rw [ByteStore.usage, hk] at he
      cases he
      exact Key.exists_of_ofUsage_eq_error hk
    | ok key =>
      obtain ⟨record, -, hread⟩ := hs.usage_eq hk
      cases hread.symm.trans he
  definition := hs.definition?_eq
  listHolders := hs.listHolders_eq
  listDefinitions := hs.listDefinitions_eq

end WellFormed

/-- Whatever is asked of an empty store, and whatever becomes of it, the store ends up with records
that operations write, each under its own key, and reads them as they were written.  A transaction
that goes on after a failed step, which changes nothing, is the one that leaves this step out. -/
theorem wellFormed_and_readable (cs : List ByteStore.Command) :
    (ByteStore.Command.runAll .empty cs).2.WellFormed ∧
      (ByteStore.Command.runAll .empty cs).2.Readable :=
  have hs := WellFormed.invariant.runAll cs
  ⟨hs, hs.readable⟩

end ByteStore

end Grants
