import Grants.Proofs.ByteStore.Key

/-!
# Keys and their parts

Keys are a code for lists of texts.  A list can be written if none of its texts
is too long, and `parse` reads it back; of other bytes, `parse` reads the longest
list whose key they start with (`build_and_parse`).

So a key is an initial piece of another exactly if its parts are the first parts
of the other (`build_isPrefix_iff`), and `keys_tell_apart` is what this means for
the keys of holders and of usage records.
-/

namespace Grants

/-- The bytes from one position up to another, if there are that many. -/
def Bytes.slice? (bytes : Bytes) (start stop : Nat) : Option Bytes :=
  if start ≤ stop ∧ stop ≤ bytes.length then some ((bytes.drop start).take (stop - start))
  else none

theorem Bytes.slice?_add (bytes : Bytes) (start n : Nat) :
    bytes.slice? start (start + n) =
      if start + n ≤ bytes.length then some ((bytes.drop start).take n) else none := by
  rw [slice?, Nat.add_sub_cancel_left]
  simp only [Nat.le_add_right, true_and]

namespace Key

variable {bytes : Bytes} {hi lo : UInt8} {s : String} {ss : List String}

theorem parse_of_text (hlen : Bytes.toNat [hi, lo] ≤ bytes.length)
    (hs : Bytes.toString? (bytes.take (Bytes.toNat [hi, lo])) = some s) :
    parse (hi :: lo :: bytes) = s :: parse (bytes.drop (Bytes.toNat [hi, lo])) := by
  rw [parse]
  simp only [if_pos hlen, hs]

/-- Nothing is read after a part that is cut short or not a text. -/
theorem parse_of_malformed (h : Bytes.toNat [hi, lo] ≤ bytes.length →
      Bytes.toString? (bytes.take (Bytes.toNat [hi, lo])) = none) :
    parse (hi :: lo :: bytes) = [] := by
  rw [parse]
  split
  · next hlen => rw [h hlen]
  · rfl

theorem parse_of_length_lt (h : bytes.length < 2) : parse bytes = [] := by
  rcases bytes with _ | ⟨b, _ | ⟨c, bytes⟩⟩
  · exact parse_nil
  · rw [parse]
    simp
  · rw [List.length_cons, List.length_cons] at h
    omega

/-! ## Reading with a cursor -/

/-- The parts from a position on.  Whether a part is cut short is checked, but its length is looked
up without a check, and the result is `none` if that is out of bounds. -/
def parseFrom (bytes : Bytes) (i : Nat) : Option (List String) :=
  if i + 2 ≤ bytes.length then
    match bytes.slice? i (i + 2) with
    | none => none
    | some size =>
      let stop := i + 2 + Bytes.toNat size
      match (bytes.slice? (i + 2) stop).bind Bytes.toString? with
      | none => some []
      | some s => (parseFrom bytes stop).map (s :: ·)
  else some []
termination_by bytes.length - i

theorem exists_drop_eq {i : Nat} (h : i + 2 ≤ bytes.length) :
    ∃ hi lo, bytes.slice? i (i + 2) = some [hi, lo] ∧
      bytes.drop i = hi :: lo :: bytes.drop (i + 2) := by
  rw [Bytes.slice?_add, if_pos h, List.drop_eq_getElem_cons (i := i) (by omega),
    List.drop_eq_getElem_cons (i := i + 1) (by omega)]
  exact ⟨_, _, rfl, rfl⟩

/-- A cursor reads what is there, and nothing beyond. -/
theorem parseFrom_eq (bytes : Bytes) (i : Nat) :
    parseFrom bytes i = some (parse (bytes.drop i)) := by
  fun_induction parseFrom bytes i with
  | case1 i hle hnone =>
    obtain ⟨hi, lo, hsize, -⟩ := exists_drop_eq hle
    cases hsize.symm.trans hnone
  | case2 i hle size hsize stop hnone =>
    obtain ⟨hi, lo, hsize', hdrop⟩ := exists_drop_eq hle
    cases hsize.symm.trans hsize'
    rw [hdrop, parse_of_malformed fun hlen ↦ ?_]
    rw [Bytes.slice?_add, if_pos] at hnone
    · exact hnone
    · rw [List.length_drop] at hlen
      omega
  | case3 i hle size hsize stop s hs ih =>
    obtain ⟨hi, lo, hsize', hdrop⟩ := exists_drop_eq hle
    cases hsize.symm.trans hsize'
    rw [Bytes.slice?_add] at hs
    split at hs
    · next hlen =>
      rw [hdrop, parse_of_text (by rw [List.length_drop]; omega) hs, ih, List.drop_drop]
      rfl
    · cases hs
  | case4 i hlt => rw [parse_of_length_lt (by rw [List.length_drop]; omega)]

/-! ## The longest list of parts -/

theorem build_append_eq_ok_iff {ts : List String} {key : Bytes} :
    build (ss ++ ts) = .ok key ↔
      ∃ first rest, build ss = .ok first ∧ build ts = .ok rest ∧ key = first ++ rest := by
  induction ss generalizing key with
  | nil => simp [build]
  | cons s ss ih =>
    rw [List.cons_append, build_cons_eq_ok_iff]
    constructor
    · rintro ⟨first, rest, hs, hrest, rfl⟩
      obtain ⟨middle, rest, hss, hts, rfl⟩ := ih.mp hrest
      exact ⟨_, rest, build_cons_eq_ok_iff.mpr ⟨first, middle, hs, hss, rfl⟩, hts,
        (List.append_assoc ..).symm⟩
    · rintro ⟨key, rest, hkey, hts, rfl⟩
      obtain ⟨first, middle, hs, hss, rfl⟩ := build_cons_eq_ok_iff.mp hkey
      exact ⟨first, _, hs, ih.mpr ⟨middle, rest, hss, hts, rfl⟩, List.append_assoc ..⟩

/-- The bytes are those of a part and of what comes after it, if a part is read. -/
theorem exists_part_of_text (hlen : Bytes.toNat [hi, lo] ≤ bytes.length)
    (hs : Bytes.toString? (bytes.take (Bytes.toNat [hi, lo])) = some s) :
    ∃ first, part (Bytes.ofString s) = .ok first ∧
      hi :: lo :: bytes = first ++ bytes.drop (Bytes.toNat [hi, lo]) := by
  have htake := Bytes.eq_ofString_of_toString? hs
  have hlength : (Bytes.ofString s).length = Bytes.toNat [hi, lo] := by
    rw [← htake, List.length_take, Nat.min_eq_left hlen]
  have hsize : Bytes.ofNat 2 (Bytes.toNat [hi, lo]) = [hi, lo] := Bytes.ofNat_toNat [hi, lo]
  refine ⟨_, part_eq_ok_iff.mpr ⟨?_, rfl⟩, ?_⟩
  · have hweight : Bytes.weight 2 = maxPart + 1 := by decide
    rw [hlength]
    exact Nat.le_of_lt_succ (Nat.lt_of_lt_of_eq (Bytes.toNat_lt [hi, lo]) hweight)
  · rw [hlength, hsize, ← htake, List.append_assoc, List.take_append_drop]
    rfl

/-- The bytes start with the key of what is read from them. -/
theorem exists_build_parse (bytes : Bytes) :
    ∃ key, build (parse bytes) = .ok key ∧ key <+: bytes := by
  fun_induction parse bytes with
  | case1 hi lo bytes n hlen s hs ih =>
    obtain ⟨first, hfirst, heq⟩ := exists_part_of_text hlen hs
    obtain ⟨key, hkey, hprefix⟩ := ih
    refine ⟨first ++ key, build_cons_eq_ok_iff.mpr ⟨first, key, hfirst, hkey, rfl⟩, ?_⟩
    rw [heq]
    exact (List.prefix_append_right_inj first).mpr hprefix
  | case2 | case3 | case4 => exact ⟨[], rfl, List.nil_prefix⟩

/-- `ss` is the longest list of texts whose key the bytes start with. -/
structure Longest (bytes : Bytes) (ss : List String) : Prop where
  built : ∃ key, build ss = .ok key ∧ key <+: bytes
  /-- Every other such list consists of some of the first texts of it. -/
  isPrefix {ts : List String} {key : Bytes} : build ts = .ok key → key <+: bytes → ts <+: ss

theorem longest_parse (bytes : Bytes) : Longest bytes (parse bytes) where
  built := exists_build_parse bytes
  isPrefix := by
    rintro ts key hkey ⟨rest, rfl⟩
    rw [parse_append hkey]
    exact List.prefix_append ..

theorem build_isPrefix_iff {ts : List String} {key key' : Bytes} (hk : build ss = .ok key)
    (hk' : build ts = .ok key') : key <+: key' ↔ ss <+: ts := by
  constructor
  · intro h
    exact parse_build hk' ▸ (longest_parse key').isPrefix hk h
  · rintro ⟨rest, rfl⟩
    obtain ⟨first, last, hfirst, -, rfl⟩ := build_append_eq_ok_iff.mp hk'
    cases hk.symm.trans hfirst
    exact List.prefix_append ..

/-- Building keys and reading them are inverse to each other, up to what follows after a key. -/
theorem build_and_parse :
    (∀ ss : List String, (∃ key, build ss = .ok key ∧ parse key = ss) ↔
      ∀ s ∈ ss, (Bytes.ofString s).length ≤ maxPart) ∧
    (∀ (ss : List String) (e : Error), build ss = .error e ↔
      ∃ s, ss.find? (fun s ↦ maxPart < (Bytes.ofString s).length) = some s ∧
        e = .store (.partTooLong (Bytes.ofString s).length)) ∧
    ∀ bytes : Bytes, parseFrom bytes 0 = some (parse bytes) ∧ Longest bytes (parse bytes) ∧
      (build (parse bytes) = .ok bytes ↔ ∃ ss, build ss = .ok bytes) := by
  refine ⟨fun ss ↦ ?_, fun ss e ↦ build_eq_error_iff, fun bytes ↦ ⟨?_, longest_parse bytes, ?_⟩⟩
  · rw [← exists_build_iff]
    exact exists_congr fun key ↦ and_iff_left_of_imp parse_build
  · exact parseFrom_eq bytes 0
  · constructor
    · exact fun h ↦ ⟨_, h⟩
    · rintro ⟨ss, h⟩
      rwa [parse_build h]

/-! ## Keys of holders and usage records -/

variable {h h' : Holder} {flag flag' : String} {key key' : Bytes}

theorem ofHolder_isPrefix_iff (hk : ofHolder h = .ok key) (hk' : ofUsage h' flag = .ok key') :
    key <+: key' ↔ h = h' := by
  obtain ⟨holder, hh, rfl⟩ := ofUsage_eq_ok_iff.mp hk'
  constructor
  · rintro ⟨rest, heq⟩
    exact (ofHolder_append_inj hk hh heq).1
  · rintro rfl
    cases hk.symm.trans hh
    exact List.prefix_append ..

theorem ofUsage_eq_iff (hk : ofUsage h flag = .ok key) (hk' : ofUsage h' flag' = .ok key') :
    key = key' ↔
      h = h' ∧ Sha256.digest (Bytes.ofString flag) = Sha256.digest (Bytes.ofString flag') := by
  constructor
  · rintro rfl
    exact ofUsage_inj hk hk'
  · rintro ⟨rfl, hd⟩
    exact Except.ok.inj (hk.symm.trans ((ofUsage_congr hd).trans hk'))

/-- Keys tell their parts apart: no key is an initial piece of another by chance. -/
theorem keys_tell_apart :
    (∀ ss ts : List String, (∀ s ∈ ss ++ ts, (Bytes.ofString s).length ≤ maxPart) →
      ∃ key key', build ss = .ok key ∧ build ts = .ok key' ∧
        (key <+: key' ↔ ss <+: ts) ∧ (key = key' ↔ ss = ts)) ∧
    (∀ (h h' : Holder) (flag : String) (key key' : Bytes),
      ofHolder h = .ok key → ofUsage h' flag = .ok key' → (key <+: key' ↔ h = h')) ∧
    ∀ (h h' : Holder) (flag flag' : String) (key key' : Bytes),
      ofUsage h flag = .ok key → ofUsage h' flag' = .ok key' →
        (key = key' ↔ h = h' ∧
          Sha256.digest (Bytes.ofString flag) = Sha256.digest (Bytes.ofString flag')) := by
  refine ⟨fun ss ts hlen ↦ ?_, fun _ _ _ _ _ ↦ ofHolder_isPrefix_iff,
    fun _ _ _ _ _ _ ↦ ofUsage_eq_iff⟩
  rw [List.forall_mem_append, ← exists_build_iff, ← exists_build_iff] at hlen
  obtain ⟨⟨key, hk⟩, key', hk'⟩ := hlen
  refine ⟨key, key', hk, hk', build_isPrefix_iff hk hk', fun h ↦ ?_, ?_⟩
  · rw [← parse_build hk, h, parse_build hk']
  · rintro rfl
    exact Except.ok.inj (hk.symm.trans hk')

/-- The identifier of a holder may look like that of another one and the start of a digest. -/
theorem keys_tell_apart_of_lookalike :
    ∃ key longer usage lookalike, ofHolder ⟨.role, "ab"⟩ = .ok key ∧
      build ["role", "ab", "\u0000 x"] = .ok longer ∧
      ofUsage ⟨.role, "ab"⟩ "x" = .ok usage ∧
      ofUsage ⟨.role, "ab\u0000 x"⟩ "x" = .ok lookalike ∧
      key <+: longer ∧ key <+: usage ∧ ¬ key <+: lookalike ∧ usage ≠ lookalike := by
  have hne : (⟨.role, "ab"⟩ : Holder) ≠ ⟨.role, "ab\u0000 x"⟩ := by decide
  obtain ⟨key, longer, hkey, hlonger, hfirst, -⟩ :=
    keys_tell_apart.1 ["role", "ab"] ["role", "ab", "\u0000 x"] (by decide)
  obtain ⟨usage, husage⟩ := exists_ofUsage (h := ⟨.role, "ab"⟩) (by decide) "x"
  obtain ⟨lookalike, hlook⟩ := exists_ofUsage (h := ⟨.role, "ab\u0000 x"⟩) (by decide) "x"
  refine ⟨key, longer, usage, lookalike, hkey, hlonger, husage, hlook, ?_, ?_, ?_, ?_⟩
  · exact hfirst.mpr ⟨["\u0000 x"], rfl⟩
  · exact (keys_tell_apart.2.1 ⟨.role, "ab"⟩ _ _ _ _ hkey husage).mpr rfl
  · exact fun h ↦ hne ((keys_tell_apart.2.1 ⟨.role, "ab"⟩ _ _ _ _ hkey hlook).mp h)
  · exact fun h ↦ hne ((keys_tell_apart.2.2 _ _ _ _ _ _ husage hlook).mp h).1

end Key

end Grants
