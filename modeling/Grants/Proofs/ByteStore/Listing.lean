import Grants.Proofs.ByteStore.Order
import Grants.Proofs.ByteStore.WellFormed

/-!
# Listings

Without damaged records, a listing of holders is all that there are, each once, in
the order of their keys (`lists_stored_holders`): no key is passed over, since
each is that of a holder, and none stands for two.
-/

namespace Grants

/-- The order in which holders are listed: by the name of the kind and then by the identifier, each
by its length first. -/
def Holder.compareListed (h g : Holder) : Ordering :=
  (Key.compareTexts h.kind.name g.kind.name).then (Key.compareTexts h.id g.id)

theorem Holder.compareListed_self (h : Holder) : h.compareListed h = .eq := by
  simp [compareListed, Key.compareTexts, compareLex, compareOn]

namespace Key

variable {h g : Holder} {key key' : Bytes} {hs : List Holder} {keys : List Bytes}

theorem compare_ofHolder (hk : ofHolder h = .ok key) (hk' : ofHolder g = .ok key') :
    compare key key' = h.compareListed g := by
  rw [compare_build hk hk', List.compareLex_cons_cons, List.compareLex_cons_cons,
    List.compareLex_nil_nil, Ordering.then_eq, Holder.compareListed]

theorem mem_iff_of_map_ofHolder (hmap : hs.map ofHolder = keys.map .ok) :
    h ∈ hs ↔ ∃ key ∈ keys, ofHolder h = .ok key := by
  constructor
  · intro hh
    have hmem := List.mem_map_of_mem (f := ofHolder) hh
    rw [hmap] at hmem
    obtain ⟨key, hkey, heq⟩ := List.mem_map.mp hmem
    exact ⟨key, hkey, heq.symm⟩
  · rintro ⟨key, hkey, hk⟩
    have hmem := List.mem_map_of_mem (f := Except.ok (ε := Error)) hkey
    rw [← hmap] at hmem
    obtain ⟨g, hg, hk'⟩ := List.mem_map.mp hmem
    exact ofHolder_inj hk' hk ▸ hg

/-- Holders whose keys ascend are in the order of listings. -/
theorem pairwise_of_map_ofHolder (hmap : hs.map ofHolder = keys.map .ok)
    (hkeys : keys.Pairwise fun key key' ↦ compare key key' = .lt) :
    hs.Pairwise fun h g ↦ h.compareListed g = .lt := by
  have hpairs : (keys.map Except.ok).Pairwise fun x y : Except Error Bytes ↦
      ∀ key key', x = .ok key → y = .ok key' → compare key key' = .lt := by
    refine List.pairwise_map.mpr (hkeys.imp ?_)
    rintro key key' hlt _ _ ⟨⟩ ⟨⟩
    exact hlt
  rw [← hmap, List.pairwise_map] at hpairs
  refine hpairs.imp_of_mem fun {h g} hh hg hlt ↦ ?_
  obtain ⟨key, -, hk⟩ := (mem_iff_of_map_ofHolder hmap).mp hh
  obtain ⟨key', -, hk'⟩ := (mem_iff_of_map_ofHolder hmap).mp hg
  exact compare_ofHolder hk hk' ▸ hlt key key' hk hk'

end Key

namespace ByteStore

/-- The list is of all holders with a record, each of them once, in the order of their keys. -/
structure Lists (s : ByteStore) (hs : List Holder) : Prop where
  mem_iff (h : Holder) : h ∈ hs ↔ s.holderExists h = .ok true
  exists_iff (h : Holder) : s.holderExists h = .ok true ↔ ∃ fs, s.permissions h = .ok fs
  nodup : hs.Nodup
  ordered : hs.Pairwise fun h g ↦ h.compareListed g = .lt

variable {s : ByteStore} {h : Holder}

theorem holderExists_iff : s.holderExists h = .ok true ↔ ∃ fs, s.permissions h = .ok fs := by
  unfold holderExists permissions
  cases s.permissions? h with
  | error e => simp [bind, Except.bind]
  | ok record => cases record <;> simp [bind, Except.bind, pure, Except.pure]

namespace WellFormed

theorem holderExists_iff_mem (hs : s.WellFormed) :
    s.holderExists h = .ok true ↔ ∃ key ∈ s.holders.keys, Key.ofHolder h = .ok key := by
  simp only [Std.ExtTreeMap.mem_keys, Std.ExtTreeMap.mem_iff_isSome_getElem?]
  rw [holderExists_iff]
  constructor
  · rintro ⟨fs, hfs⟩
    obtain ⟨record, hrecord, -⟩ := Error.bind_eq_ok_iff.mp hfs
    obtain ⟨key, hk, -⟩ := Error.bind_eq_ok_iff.mp hrecord
    rcases hs.permissions_eq hk with ⟨-, hnone⟩ | ⟨fs, hsome, -⟩
    · cases hfs.symm.trans hnone
    · exact ⟨key, by rw [hsome, Option.isSome_some], hk⟩
  · rintro ⟨key, hmem, hk⟩
    rcases hs.permissions_eq hk with ⟨hnone, -⟩ | ⟨fs, -, hfs⟩
    · rw [hnone] at hmem
      cases hmem
    · exact ⟨fs, hfs⟩

theorem lists (hs : s.WellFormed) {listed : List Holder}
    (hmap : listed.map Key.ofHolder = s.holders.keys.map .ok) : s.Lists listed := by
  have hordered := Key.pairwise_of_map_ofHolder hmap Std.ExtTreeMap.ordered_keys
  refine ⟨fun h ↦ ?_, fun _ ↦ holderExists_iff, hordered.imp ?_, hordered⟩
  · rw [hs.holderExists_iff_mem, Key.mem_iff_of_map_ofHolder hmap]
  · rintro h _ hlt rfl
    rw [h.compareListed_self] at hlt
    cases hlt

end WellFormed

/-- Whatever has been asked of a store that was empty, the holders that it lists are those with a
record. -/
theorem lists_stored_holders (cs : List ByteStore.Command) :
    ∃ hs, (ByteStore.Command.runAll .empty cs).2.listHolders = .ok hs ∧
      (ByteStore.Command.runAll .empty cs).2.Lists hs := by
  have hs := WellFormed.invariant.runAll cs
  obtain ⟨listed, hlisted, hmap⟩ := hs.listHolders_eq
  exact ⟨listed, hlisted, hs.lists hmap⟩

end ByteStore

end Grants
