import Grants.Proofs.ByteStore.WellFormed
import Grants.Proofs.PlainStore.Bookkeeping
import Grants.Proofs.Sample

/-!
# The byte store keeps books

Grants and revocations edit a record as it was read and write it back; where a
revocation takes nothing and skips the write, the record is there already.
-/

namespace Grants

namespace ByteStore

variable {s : ByteStore} {h : Holder} {key : Bytes} {record : Option (List Flag)}

/-- The store with some flags under a key. -/
def withFlags (s : ByteStore) (key : Bytes) (fs : List Flag) : ByteStore :=
  { s with holders := s.holders.insert key (Bytes.ofString (Record.ofFlags fs)) }

theorem putPermissions_eq_withFlags (hk : Key.ofHolder h = .ok key)
    (hlen : key.length ≤ Table.maxKey) (fs : List Flag) :
    s.putPermissions h fs = .ok (s.withFlags key fs) := by
  have hpos : 0 < key.length := by
    rw [Key.length_ofHolder hk]
    exact Nat.succ_pos _
  exact putPermissions_eq_ok_iff.mpr ⟨key, hk, ⟨hpos, hlen⟩, rfl⟩

theorem hasRecord_of_permissions? (hr : s.permissions? h = .ok record) :
    Store.HasRecord s h record := by
  change s.permissions h = _
  rw [permissions, hr]
  cases record <;> rfl

theorem WellFormed.of_hasRecord (hs : s.WellFormed) (hk : Key.ofHolder h = .ok key)
    (hr : Store.HasRecord s h record) : (record.getD []).Nodup ∧
      s.holders[key]? = record.map (fun fs ↦ Bytes.ofString (Record.ofFlags fs)) ∧
        s.permissions? h = .ok record := by
  obtain ⟨record', hrecord'⟩ := hs.exists_record hk
  obtain rfl := hr.unique (hasRecord_of_permissions? hrecord'.2.2)
  exact hrecord'

theorem WellFormed.withFlags_self (hs : s.WellFormed) (hk : Key.ofHolder h = .ok key)
    {fs : List Flag} (hr : Store.HasRecord s h (some fs)) : s.withFlags key fs = s := by
  obtain ⟨-, hb, -⟩ := hs.of_hasRecord hk hr
  exact congrArg (ByteStore.mk · s.usages s.definitions) (insert_eq_self hb)

theorem ledger (hk : Key.ofHolder h = .ok key) (hlen : key.length ≤ Table.maxKey) :
    Store.Ledger h WellFormed (·.withFlags key) where
  exists_record hs := by
    obtain ⟨record, hn, -, hread⟩ := hs.exists_record hk
    exact ⟨record, hasRecord_of_permissions? hread, hn⟩
  written {s fs} hs hn := by
    refine ⟨hs.putPermissions hn (putPermissions_eq_withFlags hk hlen fs), ?_⟩
    refine hasRecord_of_permissions? (permissions?_of_getElem? (some fs) hk ?_ ?_)
    · rintro _ ⟨⟩
      exact hn
    · exact Std.ExtTreeMap.getElem?_insert_self
  written_again hs hr := hs.withFlags_self hk hr
  grant_eq {s record} fs hs hr := by
    obtain ⟨hn, -, hread⟩ := hs.of_hasRecord hk hr
    change s.grant h fs = _
    rw [grant, hread]
    simp only [bind, Except.bind, putPermissions_eq_withFlags hk hlen, FlagSet.snd_insertAll,
      FlagSet.flags_extend_ofList hn, FlagSet.fst_insertAll_ofList hn]
    rfl
  revoke_none {s} fs hs hr := by
    obtain ⟨-, -, hread⟩ := hs.of_hasRecord hk hr
    change s.revoke h fs = _
    rw [revoke, hread]
    rfl
  revoke_some {s old} fs hs hr := by
    obtain ⟨-, -, hread⟩ := hs.of_hasRecord hk hr
    change s.revoke h fs = _
    rw [revoke, hread]
    simp only [bind, Except.bind, putPermissions_eq_withFlags hk hlen, removeAll_eq_kept,
      length_sub_length_kept]
    split
    · rfl
    · next hzero =>
      -- Nothing is written, and nothing would change.
      rw [kept_eq_self (Nat.eq_zero_of_not_pos hzero), hs.withFlags_self hk hr]
      rfl

end ByteStore

/-- Whatever has been asked of a store that was empty at first, grants and revocations of any flags
keep books about the record of any holder: in the plain store, and in the byte store if the key of
the holder is not oversized.  No record of a holder has a flag twice, whatever its key. -/
theorem grants_keep_books :
    (∀ (cs : List Command) (h : Holder) (fs : List Flag),
      ∃ record, Store.Bookkeeping (Command.runAll PlainStore.empty cs).2 h fs record) ∧
    ∀ (cs : List ByteStore.Command) (h : Holder),
      (∀ key, Key.ofHolder h = .ok key → key.length ≤ Table.maxKey → ∀ fs : List Flag,
        ∃ record, Store.Bookkeeping (ByteStore.Command.runAll .empty cs).2 h fs record) ∧
      ∀ old, (ByteStore.Command.runAll .empty cs).2.permissions h = .ok old → old.Nodup := by
  refine ⟨fun cs h fs ↦ ?_, fun cs h ↦ ⟨fun key hk hlen fs ↦ ?_, fun old hold ↦ ?_⟩⟩
  · exact (PlainStore.ledger h).bookkeeping (PlainStore.Nodup.empty.runAll cs) fs
  · exact (ByteStore.ledger hk hlen).bookkeeping (ByteStore.WellFormed.invariant.runAll cs) fs
  · obtain ⟨record, hread, hold⟩ := Error.bind_eq_ok_iff.mp hold
    cases record with
    | none => cases hold
    | some fs =>
      cases hold
      exact ByteStore.nodup_of_permissions? hread

/-- A record that has one of two flags. -/
theorem grants_keep_books_of_granted :
    let fs := [Sample.required, Sample.granted, Sample.required]
    let cs : List ByteStore.Command := [.common (.grant Sample.holder [Sample.granted])]
    let s := (ByteStore.Command.runAll .empty cs).2
    s.permissions Sample.holder = .ok [Sample.granted] ∧ [Sample.granted].Nodup ∧
      ∃ key, Key.ofHolder Sample.holder = .ok key ∧ key.length ≤ Table.maxKey ∧
        Store.Bookkeeping s Sample.holder fs (some [Sample.granted]) := by
  intro fs cs s
  have hread : s.permissions Sample.holder = .ok [Sample.granted] := by decide +kernel
  obtain ⟨key, hk⟩ := Key.exists_ofHolder (h := Sample.holder) (by decide)
  have hlen : key.length ≤ Table.maxKey := by
    rw [Key.length_ofHolder hk]
    decide
  obtain ⟨hbooks, hnodup⟩ := grants_keep_books.2 cs Sample.holder
  obtain ⟨record, hbooks⟩ := hbooks key hk hlen fs
  have hr : Store.HasRecord s Sample.holder (some [Sample.granted]) := hread
  obtain rfl := hr.unique hbooks.hasRecord
  exact ⟨hread, hnodup _ hread, key, hk, hlen, hbooks⟩

end Grants
