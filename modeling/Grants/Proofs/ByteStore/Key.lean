import Grants.Argument
import Grants.ByteStore.Key
import Grants.ByteStore.Table

/-!
# Holders and usage records behind keys

`ofHolder_append_inj` says that the key of a holder is no initial piece of a key
of another holder, and `ofUsage_inj` that two usage records share a key only if
they are of one holder and of texts with one digest.  The length of a key depends
on the holder alone: a holder `Fits` if the keys of its usage records are not
oversized, and holders with a valid identifier do (`fits_of_validate`).
-/

namespace Grants

namespace Holder

/-- The number of bytes of the kind and the identifier. -/
def size (h : Holder) : Nat := (Bytes.ofString h.kind.name).length + (Bytes.ofString h.id).length

/-- The keys of usage records of the holder can be written. -/
def Fits (h : Holder) : Prop := h.size ≤ 473

instance (h : Holder) : Decidable h.Fits := inferInstanceAs (Decidable (_ ≤ _))

end Holder

theorem HolderKind.length_name_le (k : HolderKind) : (Bytes.ofString k.name).length ≤ 11 := by
  cases k <;> decide

/-- Accepted identifiers have at most 24 characters. -/
theorem HolderKind.length_le_of_idGrammar {k : HolderKind} {id : String}
    (h : k.idGrammar.accepts id = true) : id.toList.length ≤ 24 := by
  cases k <;>
    simp only [idGrammar, Grammar.accepts, Grammar.acceptsChars, Bool.and_eq_true,
      decide_eq_true_eq] at h <;> omega

theorem Holder.idGrammar_of_validate {h : Holder} (hv : h.validate = .ok ()) :
    h.kind.idGrammar.accepts h.id = true := by
  unfold validate Grammar.check at hv
  split at hv
  · assumption
  · cases hv

/-- A holder with an accepted identifier fits. -/
theorem Holder.fits_of_accepts {h : Holder} (hid : h.kind.idGrammar.accepts h.id = true) :
    h.Fits := by
  have hname := h.kind.length_name_le
  have hlen := HolderKind.length_le_of_idGrammar hid
  have hbytes := Bytes.length_ofString_le h.id
  unfold Fits size
  omega

theorem Holder.fits_of_validate {h : Holder} (hv : h.validate = .ok ()) : h.Fits :=
  fits_of_accepts (idGrammar_of_validate hv)

namespace Key

variable {h h' : Holder} {flag flag' : String} {key key' : Bytes}

/-- A key cannot be built exactly if a text is too long, and the first such text is to blame. -/
theorem build_eq_error_iff {ss : List String} {e : Error} :
    build ss = .error e ↔
      ∃ s, ss.find? (fun s ↦ maxPart < (Bytes.ofString s).length) = some s ∧
        e = .store (.partTooLong (Bytes.ofString s).length) := by
  induction ss with
  | nil => simp [build]
  | cons s ss ih =>
    by_cases hs : maxPart < (Bytes.ofString s).length
    · simp [build, part, Nat.not_le.mpr hs, List.find?, hs, bind, Except.bind, eq_comm]
    · simp only [List.find?, hs, decide_false, ← ih, build, part, if_pos (Nat.le_of_not_lt hs)]
      cases build ss <;> simp [bind, Except.bind, pure, Except.pure]

theorem exists_of_build_eq_error {ss : List String} {e : Error} (he : build ss = .error e) :
    ∃ n, maxPart < n ∧ e = .store (.partTooLong n) := by
  obtain ⟨s, hs, rfl⟩ := build_eq_error_iff.mp he
  exact ⟨_, by simpa using List.find?_some hs, rfl⟩

theorem exists_build_iff {ss : List String} :
    (∃ key, build ss = .ok key) ↔ ∀ s ∈ ss, (Bytes.ofString s).length ≤ maxPart := by
  have hfind : ss.find? (fun s ↦ maxPart < (Bytes.ofString s).length) = none ↔
      ∀ s ∈ ss, (Bytes.ofString s).length ≤ maxPart := by
    simp
  rw [← hfind]
  constructor
  · rintro ⟨key, hkey⟩
    rw [Option.eq_none_iff_forall_ne_some]
    intro s hs
    cases hkey.symm.trans (build_eq_error_iff.mpr ⟨s, hs, rfl⟩)
  · intro hnone
    cases hss : build ss with
    | ok key => exact ⟨key, rfl⟩
    | error e =>
      obtain ⟨s, hs, -⟩ := build_eq_error_iff.mp hss
      cases hnone.symm.trans hs

theorem ofHolder_eq_ok_iff :
    ofHolder h = .ok key ↔ ∃ kind id, part (Bytes.ofString h.kind.name) = .ok kind ∧
      part (Bytes.ofString h.id) = .ok id ∧ key = kind ++ id := by
  rw [ofHolder, build_cons_eq_ok_iff]
  constructor
  · rintro ⟨kind, rest, hkind, hrest, rfl⟩
    obtain ⟨id, _, hid, ⟨⟩, rfl⟩ := build_cons_eq_ok_iff.mp hrest
    exact ⟨kind, id, hkind, hid, by rw [List.append_nil]⟩
  · rintro ⟨kind, id, hkind, hid, rfl⟩
    exact ⟨kind, id, hkind,
      build_cons_eq_ok_iff.mpr ⟨id, [], hid, rfl, by rw [List.append_nil]⟩, rfl⟩

theorem length_part {bytes : Bytes} (hp : part bytes = .ok key) :
    key.length = bytes.length + 2 := by
  obtain ⟨-, rfl⟩ := part_eq_ok_iff.mp hp
  rw [List.length_append, Bytes.length_ofNat, Nat.add_comm]

theorem length_ofHolder (hk : ofHolder h = .ok key) : key.length = h.size + 4 := by
  obtain ⟨kind, id, hkind, hid, rfl⟩ := ofHolder_eq_ok_iff.mp hk
  rw [List.length_append, length_part hkind, length_part hid, Holder.size]
  omega

theorem exists_ofHolder (hf : h.Fits) : ∃ key, ofHolder h = .ok key := by
  unfold Holder.Fits Holder.size at hf
  refine exists_build_iff.mpr fun s hs ↦ ?_
  rw [List.mem_cons, List.mem_singleton] at hs
  unfold maxPart
  rcases hs with rfl | rfl <;> omega

/-- The last part of the key of a usage record. -/
def digestPart (flag : String) : Bytes := Bytes.ofNat 2 32 ++ Sha256.digest (Bytes.ofString flag)

theorem part_digest (flag : String) :
    part (Sha256.digest (Bytes.ofString flag)) = .ok (digestPart flag) :=
  part_eq_ok_iff.mpr ⟨by simp [maxPart], by rw [digestPart, Sha256.length_digest]⟩

theorem ofUsage_eq (h : Holder) (flag : String) :
    ofUsage h flag = (ofHolder h).map (· ++ digestPart flag) := by
  rw [ofUsage, part_digest]
  cases ofHolder h <;> rfl

theorem ofUsage_eq_ok_iff :
    ofUsage h flag = .ok key ↔
      ∃ holder, ofHolder h = .ok holder ∧ key = holder ++ digestPart flag := by
  rw [ofUsage_eq]
  cases ofHolder h with
  | error e => simp [Except.map]
  | ok holder => simp [Except.map, eq_comm]

theorem exists_ofUsage (hf : h.Fits) (flag : String) : ∃ key, ofUsage h flag = .ok key := by
  obtain ⟨holder, hh⟩ := exists_ofHolder hf
  exact ⟨_, ofUsage_eq_ok_iff.mpr ⟨holder, hh, rfl⟩⟩

theorem exists_of_ofUsage_eq_error {e : Error} (he : ofUsage h flag = .error e) :
    ∃ n, maxPart < n ∧ e = .store (.partTooLong n) := by
  rw [ofUsage_eq] at he
  cases hh : ofHolder h with
  | error e' =>
    rw [hh] at he
    cases he
    exact exists_of_build_eq_error hh
  | ok holder =>
    rw [hh] at he
    cases he

/-- Texts with one digest have one key. -/
theorem ofUsage_congr
    (hd : Sha256.digest (Bytes.ofString flag) = Sha256.digest (Bytes.ofString flag')) :
    ofUsage h flag = ofUsage h flag' := by
  rw [ofUsage_eq, ofUsage_eq, digestPart, digestPart, hd]

theorem length_ofUsage (hk : ofUsage h flag = .ok key) : key.length = h.size + 38 := by
  obtain ⟨holder, hh, rfl⟩ := ofUsage_eq_ok_iff.mp hk
  rw [List.length_append, length_ofHolder hh, digestPart, List.length_append, Bytes.length_ofNat,
    Sha256.length_digest]

/-- A key is not oversized exactly if its holder fits. -/
theorem length_le_maxKey_iff (hk : ofUsage h flag = .ok key) :
    0 < key.length ∧ key.length ≤ Table.maxKey ↔ h.Fits := by
  rw [length_ofUsage hk, Table.maxKey, Holder.Fits]
  omega

theorem ofHolder_append_inj {rest rest' : Bytes} (hk : ofHolder h = .ok key)
    (hk' : ofHolder h' = .ok key') (heq : key ++ rest = key' ++ rest') :
    h = h' ∧ rest = rest' := by
  have hparse := parse_append hk rest
  rw [heq, parse_append hk' rest'] at hparse
  simp only [List.cons_append, List.nil_append, List.cons.injEq] at hparse
  obtain ⟨hname, hid, -⟩ := hparse
  have hkind : h'.kind = h.kind := Option.some.inj (by
    rw [← HolderKind.ofName?_name, ← HolderKind.ofName?_name, hname])
  obtain ⟨k, i⟩ := h
  obtain ⟨k', i'⟩ := h'
  cases hkind
  cases hid
  cases hk.symm.trans hk'
  exact ⟨rfl, List.append_cancel_left heq⟩

theorem ofHolder_inj (hk : ofHolder h = .ok key) (hk' : ofHolder h' = .ok key) : h = h' :=
  (ofHolder_append_inj hk hk' (rfl : key ++ [] = key ++ [])).1

/-- Keys of holders are turned into their holders, and none is passed over. -/
theorem map_ofHolder_filterMap {keys : List Bytes}
    (hkeys : ∀ key ∈ keys, ∃ h, ofHolder h = .ok key) :
    (keys.filterMap holder?).map ofHolder = keys.map .ok := by
  induction keys with
  | nil => rfl
  | cons key keys ih =>
    rw [List.forall_mem_cons] at hkeys
    obtain ⟨⟨h, hk⟩, hkeys⟩ := hkeys
    rw [List.filterMap_cons_some (holder?_ofHolder hk), List.map_cons, List.map_cons, hk,
      ih hkeys]

/-- Usage records with one key are of one holder, and their texts have one digest. -/
theorem ofUsage_inj (hk : ofUsage h flag = .ok key) (hk' : ofUsage h' flag' = .ok key) :
    h = h' ∧ Sha256.digest (Bytes.ofString flag) = Sha256.digest (Bytes.ofString flag') := by
  obtain ⟨holder, hh, rfl⟩ := ofUsage_eq_ok_iff.mp hk
  obtain ⟨holder', hh', heq⟩ := ofUsage_eq_ok_iff.mp hk'
  obtain ⟨rfl, hrest⟩ := ofHolder_append_inj hh hh' heq
  exact ⟨rfl, List.append_cancel_left hrest⟩

end Key

end Grants
