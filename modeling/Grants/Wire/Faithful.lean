import Grants.Json.RoundTrip
import Grants.Wire.Codec

/-!
# Wire forms are read back

A codec is faithful if every value is read back from its wire form, and so from
its text (`Codec.Faithful.ofText?_toText`).  The codecs of flags are, and those of
the records of the library: their fields are looked up by name, and a field that
is skipped when it has no value is read as one without (`withDefault_present`).
-/

namespace Grants.Codec

variable {α : Type}

/-- Every value is written as a plain JSON value, and read back from it. -/
structure Faithful (c : Codec α) : Prop where
  plain (a : α) : (c.write a).Plain
  read?_write (a : α) : c.read? (c.write a) = some a

theorem Faithful.ofText?_toText {c : Codec α} (h : c.Faithful) (a : α) :
    c.ofText? (c.toText a) = some a := by
  rw [ofText?, toText, Json.parse?_toText (h.plain a)]
  exact h.read?_write a

/-! ## Parts -/

@[simp] theorem word?_ofWord (w : UInt64) : Wire.word? (.ofWord w) = some w := by
  simp [Wire.word?, Json.ofWord, Json.Number.word?, Json.Number.ofNat]

@[simp] theorem plain_ofWord (w : UInt64) : (Json.ofWord w).Plain := by
  rw [Json.ofWord, Json.Plain]
  exact ⟨_, rfl⟩

@[simp] theorem plain_str (s : String) : (Json.str s).Plain := by
  rw [Json.Plain]
  trivial

@[simp] theorem plain_bool (b : Bool) : (Json.bool b).Plain := by
  rw [Json.Plain]
  trivial

@[simp] theorem nullable?_null (read : Json → Option α) : Wire.nullable? read .null = some none := rfl

@[simp] theorem nullable?_ofWord (w : UInt64) :
    Wire.nullable? Wire.word? (.ofWord w) = some (some w) := by
  change (Wire.word? (.ofWord w)).map some = _
  rw [word?_ofWord]
  rfl

@[simp] theorem nullable?_bool (b : Bool) :
    Wire.nullable? Wire.bool? (.bool b) = some (some b) := rfl

@[simp] theorem flag?_raw (f : Flag) : Wire.flag? (.str f.raw) = some f := Flag.ofString?_raw f

@[simp] theorem nullable?_flag (f : Flag) :
    Wire.nullable? Wire.flag? (.str f.raw) = some (some f) := by
  change (Wire.flag? (.str f.raw)).map some = _
  rw [flag?_raw]
  rfl

theorem mapM_read?_write {c : Codec α} (h : c.Faithful) (as : List α) :
    (as.map c.write).mapM c.read? = some as := by
  induction as with
  | nil => rfl
  | cons a as ih => simp [h.read?_write, ih]

theorem plainItems_map {c : Codec α} (h : c.Faithful) (as : List α) :
    Json.PlainItems (as.map c.write) := by
  induction as with
  | nil => rw [List.map_nil, Json.PlainItems]; trivial
  | cons a as ih => rw [List.map_cons, Json.PlainItems]; exact ⟨h.plain a, ih⟩

theorem Faithful.list {c : Codec α} (h : c.Faithful) : c.list.Faithful where
  plain as := by
    change (Json.arr _).Plain
    rw [Json.Plain]
    exact plainItems_map h as
  read?_write as := mapM_read?_write h as

theorem faithful_flag : flag.Faithful where
  plain f := plain_str f.raw
  read?_write f := flag?_raw f

theorem faithful_strictFlag : strictFlag.Faithful where
  plain k := plain_str k.raw
  read?_write k := by
    change StrictFlag.ofString? k.raw = some k
    exact dif_pos k.accepted

theorem faithful_holderKind : holderKind.Faithful where
  plain k := plain_str k.name
  read?_write k := HolderKind.ofName?_name k

/-! ## Members -/

theorem plainMembers_append_iff {ms ms' : List (String × Json)} :
    Json.PlainMembers (ms ++ ms') ↔ Json.PlainMembers ms ∧ Json.PlainMembers ms' := by
  induction ms with
  | nil => simp [Json.PlainMembers]
  | cons m ms ih => rw [List.cons_append, Json.PlainMembers, Json.PlainMembers, ih, and_assoc]

section Present

variable (field : String) {write : α → Json}

theorem plainMembers_present (h : ∀ a, (write a).Plain) (a : Option α) :
    Json.PlainMembers (present field write a) := by
  cases a <;> simp [present, Json.PlainMembers, h]

theorem map_fst_present (write : α → Json) (a : Option α) :
    ((present field write a).map Prod.fst).Sublist [field] := by
  cases a <;> simp [present]

theorem lookup_present (write : α → Json) (a : Option α) (name : String) :
    (present field write a).lookup name = if name = field then a.map write else none := by
  cases a with
  | none => simp [present]
  | some a =>
    by_cases h : name = field
    · simp [present, h]
    · simp [present, List.lookup_cons, h, beq_eq_false_iff_ne.mpr]

/-- A field that is skipped when there is no value comes back without one. -/
theorem withDefault_present {read : Json → Option α}
    (h : ∀ a, Wire.nullable? read (write a) = some (some a)) (a : Option α) :
    Wire.Slot.withDefault none (Wire.nullable? read) (.ofMember (a.map write)) = some a := by
  cases a with
  | none => rfl
  | some a => exact h a

end Present

/-! ## Records -/

open Wire

theorem faithful_holderAs {kindField idField : String} (h : kindField ≠ idField) :
    (holderAs kindField idField).Faithful where
  plain h := by simp [holderAs, holderKind, Json.Plain, Json.PlainMembers]
  read?_write a := by
    have hid : (idField == kindField) = false := beq_eq_false_iff_ne.mpr (Ne.symm h)
    simp only [holderAs]
    rw [Slot.ofRecord?_obj (by simpa using h)]
    simp [List.lookup_cons, hid, faithful_holderKind.read?_write, text?]

theorem faithful_holderKey : holderKey.Faithful := faithful_holderAs (by simp)

theorem faithful_holder : holder.Faithful where
  plain := (faithful_holderAs (by simp)).plain
  read?_write := (faithful_holderAs (by simp)).read?_write

theorem faithful_policy : policy.Faithful where
  plain p := by simp [policy, switches, Json.Plain, Json.PlainMembers]
  read?_write p := by
    simp only [policy, switches]
    rw [Slot.ofRecord?_obj (by simp)]
    simp [List.lookup_cons, bool?]

theorem plain_nullable {write : α → Json} (h : ∀ a, (write a).Plain) (a : Option α) :
    (nullable write a).Plain := by
  cases a <;> simp [nullable, Json.Plain, h]

theorem nullable?_nullable {write : α → Json} {read : Json → Option α}
    (h : ∀ a, nullable? read (write a) = some (some a)) (a : Option α) :
    nullable? read (nullable write a) = some a := by
  cases a with
  | none => rfl
  | some a => exact h a

theorem faithful_usage : usage.Faithful where
  plain u := by simp [usage, plain_nullable, Json.Plain, Json.PlainMembers]
  read?_write u := by
    have hlast := nullable?_nullable nullable?_ofWord u.lastInvoked
    simp only [usage]
    rw [Slot.ofRecord?_obj (by simp)]
    simp [List.lookup_cons, hlast]

theorem faithful_definition : definition.Faithful where
  plain d := by simp [definition, strictFlag, Json.Plain, Json.PlainMembers]
  read?_write d := by
    have hkey : strictFlag? (strictFlag.write d.key) = some d.key :=
      faithful_strictFlag.read?_write d.key
    simp only [definition]
    rw [Slot.ofRecord?_obj (by simp)]
    simp [List.lookup_cons, hkey, text?]

theorem faithful_finding : finding.Faithful where
  plain f := by
    have hfirst : Json.PlainMembers [("flag", flag.write f.flag), ("passed", .bool f.passed)] := by
      simp [Json.PlainMembers, faithful_flag.plain]
    have hlast : Json.PlainMembers [("limitExhausted", .bool f.limitExhausted)] := by
      simp [Json.PlainMembers]
    simp only [finding, Json.Plain, plainMembers_append_iff]
    exact ⟨⟨⟨⟨hfirst, plainMembers_present _ plain_bool _⟩, plainMembers_present _ plain_ofWord _⟩,
      plainMembers_present _ faithful_flag.plain _⟩, hlast⟩
  read?_write f := by
    have hnames := ((((List.Sublist.refl ["flag", "passed"]).append
      (map_fst_present "onCooldown" .bool f.onCooldown)).append
      (map_fst_present "cooldownExpires" .ofWord f.cooldownExpires)).append
      (map_fst_present "matched" flag.write f.matched)).append (.refl ["limitExhausted"])
    have hnodup := hnames.nodup (by simp)
    have hflag : flag? (flag.write f.flag) = some f.flag := faithful_flag.read?_write f.flag
    have honCooldown := withDefault_present nullable?_bool f.onCooldown
    have hexpires := withDefault_present nullable?_ofWord f.cooldownExpires
    have hmatched : Slot.withDefault none (nullable? flag?)
        (.ofMember (f.matched.map flag.write)) = some f.matched :=
      withDefault_present nullable?_flag f.matched
    simp only [finding]
    rw [Slot.ofRecord?_obj (by simpa using hnodup)]
    simp [List.lookup_append, lookup_present, List.lookup_cons, hflag, honCooldown, hexpires,
      hmatched, bool?]

theorem faithful_request : request.Faithful where
  plain r := by
    simp [request, switches, Json.Plain, Json.PlainMembers, faithful_holder.plain,
      faithful_flag.list.plain]
  read?_write r := by
    have hflags := faithful_flag.list.read?_write
    have hspare : (("holder", holder.write r.holder) :: ("required", flag.list.write r.required) ::
        ("additional", flag.list.write r.additional) :: switches r.policy).filter
          (fun m ↦ !(["holder", "required", "additional"].contains m.1)) = switches r.policy := by
      simp [switches]
    have hsound : Json.membersSound spareDepth (switches r.policy) = true := by
      simp [switches, Json.membersSound, Json.isSound]
    have hpolicy : policy.read? (.obj (switches r.policy)) = some r.policy :=
      faithful_policy.read?_write r.policy
    simp only [request]
    rw [hspare, Slot.ofRecord?_obj (by simp [switches])]
    simp [List.lookup_cons, hsound, faithful_holder.read?_write, hflags, hpolicy]

end Grants.Codec
