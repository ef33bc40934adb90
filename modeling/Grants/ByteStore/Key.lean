import Grants.Error
import Grants.Sha256

/-!
# Keys of the byte store

A key is a sequence of parts, each a two-byte length and as many bytes.  No byte
is special, and a key built from the first parts of another is an initial piece
of it: `parse_append` reads off the parts that a key was built from, whatever
follows.

The key of a usage record ends with the digest of the flag's text instead of the
text, since flags have no bound on their length and keys do.
-/

namespace Grants.Key

def maxPart : Nat := 65535

def part (bytes : Bytes) : Except Error Bytes :=
  if bytes.length ≤ maxPart then .ok (Bytes.ofNat 2 bytes.length ++ bytes)
  else .error (.store (.partTooLong bytes.length))

def build : List String → Except Error Bytes
  | [] => .ok []
  | s :: ss => do
    let first ← part (Bytes.ofString s)
    let rest ← build ss
    return first ++ rest

/-- The parts of a key, up to the first that is cut short or not a text. -/
def parse : Bytes → List String
  | hi :: lo :: bytes =>
    let n := Bytes.toNat [hi, lo]
    if n ≤ bytes.length then
      match Bytes.toString? (bytes.take n) with
      | some s => s :: parse (bytes.drop n)
      | none => []
    else []
  | _ => []
termination_by bytes => bytes.length
decreasing_by simp only [List.length_drop, List.length_cons]; omega

def ofHolder (h : Holder) : Except Error Bytes := build [h.kind.name, h.id]

def ofUsage (h : Holder) (flag : String) : Except Error Bytes := do
  let holder ← ofHolder h
  let digest ← part (Sha256.digest (Bytes.ofString flag))
  return holder ++ digest

/-- The holder whose record a key is for. -/
def holder? (key : Bytes) : Option Holder :=
  match parse key with
  | [kind, id] => (HolderKind.ofName? kind).map (⟨·, id⟩)
  | _ => none

theorem part_eq_ok_iff {bytes key : Bytes} :
    part bytes = .ok key ↔ bytes.length ≤ maxPart ∧ key = Bytes.ofNat 2 bytes.length ++ bytes := by
  by_cases h : bytes.length ≤ maxPart
  · simp [part, h, eq_comm]
  · simp [part, h]

theorem build_cons_eq_ok_iff {s : String} {ss : List String} {key : Bytes} :
    build (s :: ss) = .ok key ↔
      ∃ first rest, part (Bytes.ofString s) = .ok first ∧ build ss = .ok rest ∧
        key = first ++ rest := by
  rw [build]
  cases part (Bytes.ofString s) with
  | error e => simp [bind, Except.bind]
  | ok first =>
    cases build ss with
    | error e => simp [bind, Except.bind]
    | ok rest => simp [bind, Except.bind, pure, Except.pure, eq_comm]

@[simp] theorem parse_nil : parse [] = [] := by
  rw [parse]
  simp

/-- A part at the head of a key is read back. -/
theorem parse_part_append {s : String} {first : Bytes} (h : part (Bytes.ofString s) = .ok first)
    (rest : Bytes) : parse (first ++ rest) = s :: parse rest := by
  obtain ⟨hlen, rfl⟩ := part_eq_ok_iff.mp h
  obtain ⟨hi, lo, hn⟩ : ∃ hi lo, Bytes.ofNat 2 (Bytes.ofString s).length = [hi, lo] := ⟨_, _, rfl⟩
  have hval : Bytes.toNat [hi, lo] = (Bytes.ofString s).length := by
    rw [← hn, Bytes.toNat_ofNat_of_lt]
    exact Nat.lt_of_le_of_lt hlen (by decide)
  rw [hn, List.append_assoc, List.cons_append, List.cons_append, List.nil_append, parse, hval]
  simp

theorem parse_append {ss : List String} {key : Bytes} (h : build ss = .ok key) (rest : Bytes) :
    parse (key ++ rest) = ss ++ parse rest := by
  induction ss generalizing key with
  | nil =>
    cases h
    rfl
  | cons s ss ih =>
    obtain ⟨first, key, hs, hss, rfl⟩ := build_cons_eq_ok_iff.mp h
    rw [List.append_assoc, parse_part_append hs, ih hss, List.cons_append]

theorem parse_build {ss : List String} {key : Bytes} (h : build ss = .ok key) : parse key = ss := by
  have := parse_append h []
  rwa [List.append_nil, parse_nil, List.append_nil] at this

/-- The key of a holder's record names the holder. -/
theorem holder?_ofHolder {h : Holder} {key : Bytes} (hk : ofHolder h = .ok key) :
    holder? key = some h := by
  rw [holder?, parse_build hk]
  simp

end Grants.Key
