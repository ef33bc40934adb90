import Grants.Distinct
import Grants.Proofs.FlagSet
import Grants.Store
import Mathlib.Data.List.Basic

/-!
# Grants and revocations keep books

A store that reads the record of a holder and writes it back (`Ledger`) appends
the flags that a grant brings and the record lacks, each where it first occurs,
and drops the flags that a revocation names; it counts the ones and the others.
What follows when operations come one after another is a matter of lists
(`Ledger.bookkeeping`).
-/

namespace Grants

/-! ## Flags that come and flags that stay -/

section Lists

variable {α : Type} [DecidableEq α]

/-- What `xs` brings to a list, each element where it first occurs. -/
def brought (old xs : List α) : List α := distinct (xs.filter (· ∉ old))

/-- What `xs` takes from a list. -/
def taken (old xs : List α) : List α := old.filter (· ∈ xs)

/-- What is left of a list without the elements of `xs`. -/
def kept (old xs : List α) : List α := old.filter (· ∉ xs)

variable {old : List α} (xs : List α)

theorem distinctFrom_eq_brought : distinctFrom old xs = brought old xs :=
  distinctFrom_append [] old xs

theorem mem_brought {x : α} : x ∈ brought old xs ↔ x ∈ xs ∧ x ∉ old := by
  rw [← distinctFrom_eq_brought, mem_distinctFrom]

theorem nodup_append_brought (h : old.Nodup) : (old ++ brought old xs).Nodup := by
  refine List.nodup_append.mpr ⟨h, nodup_distinct _, ?_⟩
  rintro x hx _ hx' rfl
  exact ((mem_brought xs).mp hx').2 hx

theorem nodup_kept (h : old.Nodup) : (kept old xs).Nodup := h.sublist List.filter_sublist

/-- Nothing is brought twice. -/
theorem brought_append_brought (old xs : List α) : brought (old ++ brought old xs) xs = [] := by
  refine List.eq_nil_iff_forall_not_mem.mpr fun x hx ↦ ?_
  obtain ⟨hxs, hnot⟩ := (mem_brought xs).mp hx
  rw [List.mem_append, mem_brought, not_or] at hnot
  exact hnot.2 ⟨hxs, hnot.1⟩

/-- Nothing is taken twice. -/
theorem kept_kept (old xs : List α) : kept (kept old xs) xs = kept old xs := by
  simp [kept]

/-- What is brought can be taken again. -/
theorem kept_append_brought (old xs : List α) : kept (old ++ brought old xs) xs = kept old xs := by
  have hnil : kept (brought old xs) xs = [] :=
    List.filter_eq_nil_iff.mpr fun x hx ↦ by simpa using ((mem_brought xs).mp hx).1
  rw [kept, List.filter_append]
  exact (congrArg (kept old xs ++ ·) hnil).trans (List.append_nil _)

theorem length_taken_add_kept (old xs : List α) :
    (taken old xs).length + (kept old xs).length = old.length := by
  rw [List.length_eq_length_filter_add (l := old) (· ∈ xs)]
  simp [taken, kept]

theorem removeAll_eq_kept (old xs : List α) : old.removeAll xs = kept old xs := by
  simp [List.removeAll, kept]

theorem kept_eq_self {xs : List α} (h : (taken old xs).length = 0) :
    kept old xs = old := by
  have hlen := length_taken_add_kept old xs
  rw [h, Nat.zero_add] at hlen
  exact List.filter_sublist.eq_of_length hlen

theorem length_sub_length_kept (old xs : List α) :
    old.length - (kept old xs).length = (taken old xs).length := by
  rw [← length_taken_add_kept old xs, Nat.add_sub_cancel]

end Lists

namespace FlagSet

theorem flags_extend_ofList {old : List Flag} (h : old.Nodup) (fs : List Flag) :
    ((ofList old).extend fs).flags = old ++ brought old fs := by
  have hold : (ofList old).flags = old := (flags_ofList old).trans (distinct_eq_self h)
  rw [(indexed_ofList old).flags_extend, hold, distinctFrom_eq_brought]

theorem fst_insertAll_ofList {old : List Flag} (h : old.Nodup) (fs : List Flag) :
    ((ofList old).insertAll fs).1 = (brought old fs).length := by
  have hold : (ofList old).flags = old := (flags_ofList old).trans (distinct_eq_self h)
  have hcount := fst_insertAll (ofList old) fs
  rw [flags_extend_ofList h, List.length_append, hold] at hcount
  exact Nat.add_left_cancel hcount

end FlagSet

/-! ## Books -/

/-- A record that is there already can be written without a change. -/
theorem insert_eq_self {α β : Type} {cmp : α → α → Ordering} [Std.TransCmp cmp]
    [Std.LawfulEqCmp cmp] {t : Std.ExtTreeMap α β cmp} {a : α} {b : β} (hb : t[a]? = some b) :
    t.insert a b = t := by
  apply Std.ExtTreeMap.ext_getElem?
  intro c
  rw [Std.ExtTreeMap.getElem?_insert]
  split
  · next heq => rw [← Std.LawfulEqCmp.compare_eq_iff_eq.mp heq, hb]
  · rfl

namespace Store

variable {σ : Type} [Store σ]

/-- The flags of a holder, or `none` if the holder has no record. -/
def HasRecord (s : σ) (h : Holder) (record : Option (List Flag)) : Prop :=
  Store.permissions s h = record.elim (.error (.notFound h)) .ok

theorem HasRecord.unique {s : σ} {h : Holder} {record record' : Option (List Flag)}
    (hr : HasRecord s h record) (hr' : HasRecord s h record') : record = record' := by
  have heq := hr.symm.trans hr'
  cases record <;> cases record' <;> cases heq <;> rfl

/-- What grants and revocations of some flags do to the record of a holder, in one store. -/
structure Bookkeeping (s : σ) (h : Holder) (fs : List Flag) (record : Option (List Flag)) :
    Prop where
  hasRecord : HasRecord s h record
  nodup : (record.getD []).Nodup
  /-- A grant makes a record, and appends what is new.  Another one changes nothing, and what is
  granted can be revoked. -/
  grant : ∃ t, Store.grant s h fs = .ok ((brought (record.getD []) fs).length, t) ∧
    HasRecord t h (some (record.getD [] ++ brought (record.getD []) fs)) ∧
    Store.grant t h fs = .ok (0, t) ∧
    ∃ n u, Store.revoke t h fs = .ok (n, u) ∧ HasRecord u h (some (kept (record.getD []) fs))
  /-- A revocation leaves a record, perhaps an empty one, if there was one.  Another one changes
  nothing. -/
  revoke : ∃ t, Store.revoke s h fs = .ok ((taken (record.getD []) fs).length, t) ∧
    HasRecord t h (record.map (kept · fs)) ∧ Store.revoke t h fs = .ok (0, t)
  revoke_missing : record = none → Store.revoke s h fs = .ok (0, s)

/-- The stores with `P` have a record of a holder's flags, none of them twice, and operations read
it and `put` another in its place. -/
structure Ledger (h : Holder) (P : σ → Prop) (put : σ → List Flag → σ) : Prop where
  exists_record {s : σ} : P s → ∃ record, HasRecord s h record ∧ (record.getD []).Nodup
  written {s : σ} {fs : List Flag} : P s → fs.Nodup →
    P (put s fs) ∧ HasRecord (put s fs) h (some fs)
  written_again {s : σ} {fs : List Flag} : P s → HasRecord s h (some fs) → put s fs = s
  grant_eq {s : σ} {record : Option (List Flag)} (fs : List Flag) : P s → HasRecord s h record →
    Store.grant s h fs = .ok ((brought (record.getD []) fs).length,
      put s (record.getD [] ++ brought (record.getD []) fs))
  revoke_none {s : σ} (fs : List Flag) : P s → HasRecord s h none →
    Store.revoke s h fs = .ok (0, s)
  revoke_some {s : σ} {old : List Flag} (fs : List Flag) : P s → HasRecord s h (some old) →
    Store.revoke s h fs = .ok ((taken old fs).length, put s (kept old fs))

namespace Ledger

variable {h : Holder} {P : σ → Prop} {put : σ → List Flag → σ} {s : σ} {old : List Flag}

/-- A grant that brings nothing changes nothing. -/
theorem grant_again (hl : Ledger h P put) (hs : P s) (hr : HasRecord s h (some old))
    {fs : List Flag} (hnone : brought old fs = []) : Store.grant s h fs = .ok (0, s) := by
  have heq := hl.grant_eq fs hs hr
  rw [Option.getD_some, hnone, List.append_nil, hl.written_again hs hr] at heq
  exact heq

/-- A revocation that takes nothing changes nothing. -/
theorem revoke_again (hl : Ledger h P put) (hs : P s) (hr : HasRecord s h (some old))
    {fs : List Flag} (hkept : kept old fs = old) : Store.revoke s h fs = .ok (0, s) := by
  have hcount := length_taken_add_kept old fs
  rw [hkept, Nat.add_eq_right] at hcount
  have heq := hl.revoke_some fs hs hr
  rwa [hcount, hkept, hl.written_again hs hr] at heq

theorem bookkeeping (hl : Ledger h P put) (hs : P s) (fs : List Flag) :
    ∃ record, Bookkeeping s h fs record := by
  obtain ⟨record, hr, hn⟩ := hl.exists_record hs
  refine ⟨record, hr, hn, ?_, ?_, ?_⟩
  -- What the first operation writes is the record that the second one finds.
  · obtain ⟨ht, hrt⟩ := hl.written hs (nodup_append_brought fs hn)
    refine ⟨_, hl.grant_eq fs hs hr, hrt, ?_, _, _, hl.revoke_some fs ht hrt, ?_⟩
    · exact hl.grant_again ht hrt (brought_append_brought _ fs)
    · rw [kept_append_brought]
      exact (hl.written ht (nodup_kept fs hn)).2
  · cases record with
    | none =>
      have heq := hl.revoke_none fs hs hr
      exact ⟨s, heq, hr, heq⟩
    | some old =>
      obtain ⟨ht, hrt⟩ := hl.written hs (nodup_kept fs hn)
      exact ⟨_, hl.revoke_some fs hs hr, hrt, hl.revoke_again ht hrt (kept_kept _ fs)⟩
  · rintro rfl
    exact hl.revoke_none fs hs hr

end Ledger

end Store

end Grants
