import Grants.Check

/-!
# Lawful stores

A store is lawful if an update is a read, a decision and a write, and if a write
changes one usage record and nothing else.  Two things are left to the store:
which holders' usage records it can write (`Fits`), and which flag texts share a
usage record (`Collide`).

`evaluate_eq` says what an evaluation comes to in a lawful store, on every path
that it may take: it decides on the usage record and keeps a change.
-/

namespace Grants

class LawfulStore (σ : Type) [Store σ] where
  /-- What a store holds beside usage records. -/
  Rest : Type
  rest : σ → Rest
  /-- The usage record, if there is one. -/
  record? : σ → Holder → String → Except Error (Option Usage)
  /-- The usage records of the holder can be written. -/
  Fits : Holder → Prop
  /-- The usage records under the two texts are one. -/
  Collide : String → String → Prop
  collide_refl (key : String) : Collide key key
  fits_of_validate {h : Holder} : h.validate = .ok () → Fits h
  permissions_eq {s t : σ} (h : Holder) :
    rest s = rest t → Store.permissions s h = Store.permissions t h
  usage_eq (s : σ) (h : Holder) (key : String) :
    Store.usage s h key = (record? s h key).map (·.getD {})
  update_eq {α : Type} (s : σ) (h : Holder) (key : String) (decide : Usage → Change α) :
    Store.update s h key decide = (do
      let change := decide (← Store.usage s h key)
      if change.keep then return (change.answer, ← Store.setUsage s h key change.usage)
      else return (change.answer, s))
  exists_setUsage_iff (s : σ) (h : Holder) (key : String) (u : Usage) :
    (∃ t, Store.setUsage s h key u = .ok t) ↔ Fits h
  record?_setUsage {s t : σ} {h : Holder} {key key' : String} {u : Usage} :
    Store.setUsage s h key u = .ok t → Collide key key' → record? t h key' = .ok (some u)
  record?_setUsage_apart {s t : σ} {h h' : Holder} {key key' : String} {u : Usage} :
    Store.setUsage s h key u = .ok t → (h' = h → ¬ Collide key key') →
      record? t h' key' = record? s h' key'
  rest_setUsage {s t : σ} {h : Holder} {key : String} {u : Usage} :
    Store.setUsage s h key u = .ok t → rest t = rest s
  record?_setPermissions {s t : σ} {h : Holder} {fs : List Flag} :
    Store.setPermissions s h fs = .ok t → record? t = record? s
  record?_grant {s t : σ} {h : Holder} {fs : List Flag} {n : Nat} :
    Store.grant s h fs = .ok (n, t) → record? t = record? s
  record?_revoke {s t : σ} {h : Holder} {fs : List Flag} {n : Nat} :
    Store.revoke s h fs = .ok (n, t) → record? t = record? s
  record?_removeHolder {s t : σ} {h : Holder} {b : Bool} :
    Store.removeHolder s h = .ok (b, t) → record? t = record? s

theorem insert_insert_comm {α β : Type} {cmp : α → α → Ordering} [Std.TransCmp cmp]
    [Std.LawfulEqCmp cmp] (t : Std.ExtTreeMap α β cmp) {a a' : α} (hne : a ≠ a') (b b' : β) :
    (t.insert a b).insert a' b' = (t.insert a' b').insert a b := by
  apply Std.ExtTreeMap.ext_getElem?
  intro c
  simp only [Std.ExtTreeMap.getElem?_insert, Std.LawfulEqCmp.compare_eq_iff_eq]
  by_cases h : a = c
  · subst h
    simp [Ne.symm hne]
  · simp [h]

theorem contains_congr {α β : Type} {cmp : α → α → Ordering} [Std.TransCmp cmp]
    {t t' : Std.ExtTreeMap α β cmp} {a : α} (heq : t[a]? = t'[a]?) :
    t.contains a = t'.contains a := by
  rw [Std.ExtTreeMap.contains_eq_isSome_getElem?, heq,
    Std.ExtTreeMap.contains_eq_isSome_getElem?]

/-- Usage records of a holder can be written in either order. -/
class CommutingStore (σ : Type) [Store σ] [LawfulStore σ] : Prop where
  setUsage_comm {s t t' : σ} {h : Holder} {key key' : String} {u u' : Usage} :
    ¬ LawfulStore.Collide σ key key' → Store.setUsage s h key u = .ok t →
      Store.setUsage s h key' u' = .ok t' →
        Store.setUsage t h key' u' = Store.setUsage t' h key u

namespace Store

open LawfulStore

variable {σ : Type} [Store σ] [LawfulStore σ] {s t : σ} {h h' : Holder} {key key' : String}
variable {u : Usage}

theorem usage_of_record? (hr : record? s h key = .ok (some u)) : Store.usage s h key = .ok u := by
  rw [usage_eq, hr]
  rfl

theorem usage_congr (heq : record? t h key = record? s h key) :
    Store.usage t h key = Store.usage s h key := by
  rw [usage_eq, usage_eq, heq]

/-- The usage records of all holders that have any can be read. -/
def Sound (s : σ) : Prop := ∀ h key, Fits σ h → ∃ u, Store.usage s h key = .ok u

theorem Sound.of_record?_eq (hs : Sound s) (heq : record? t = record? s) : Sound t := by
  intro h key hf
  obtain ⟨u, hu⟩ := hs h key hf
  exact ⟨u, (usage_congr (by rw [heq])).trans hu⟩

theorem Sound.setUsage (hs : Sound s) (ht : Store.setUsage s h key u = .ok t) : Sound t := by
  intro h' key' hf
  by_cases hc : h' = h ∧ Collide σ key key'
  · obtain ⟨rfl, hc⟩ := hc
    exact ⟨u, usage_of_record? (record?_setUsage ht hc)⟩
  · rw [usage_congr (record?_setUsage_apart ht fun heq hc' ↦ hc ⟨heq, hc'⟩)]
    exact hs h' key' hf

end Store

section Evaluate

open LawfulStore

variable {σ : Type} [Store σ] [LawfulStore σ] {s t : σ} {h : Holder} {m : Flag} {p : Policy}
variable {now : UInt64} {u : Usage}

theorem update_of_usage {α : Type} {key : String} (hu : Store.usage s h key = .ok u)
    (decide : Usage → Change α) :
    Store.update s h key decide =
      if (decide u).keep then (Store.setUsage s h key (decide u).usage).map ((decide u).answer, ·)
      else .ok ((decide u).answer, s) := by
  rw [update_eq, hu]
  change (if (decide u).keep then _ else _) = _
  cases (decide u).keep with
  | false => rfl
  | true => cases Store.setUsage s h key (decide u).usage <;> rfl

/-- An evaluation is a decision on the usage record, whichever path it takes. -/
theorem evaluate_eq (hu : Store.usage s h m.raw = .ok u) :
    evaluate s h m p now =
      if (p.decide m u now).keep then
        (Store.setUsage s h m.raw (p.decide m u now).usage).map ((p.decide m u now).answer, ·)
      else .ok ((p.decide m u now).answer, s) := by
  unfold evaluate
  cases hr : p.reads m with
  | false =>
    have hw := Policy.writes_eq_false_of_reads_eq_false hr
    simp [Policy.keep_decide, Policy.answer_decide, hw, Policy.verdict_of_reads_eq_false hr]
  | true =>
    cases hw : p.writes m with
    | false =>
      simp only [Policy.keep_decide, hw, Bool.and_false, hu]
      rfl
    | true => exact update_of_usage hu _

theorem evaluate_eq_error {e : Error} (hr : p.reads m = true)
    (hu : Store.usage s h m.raw = .error e) : evaluate s h m p now = .error e := by
  unfold evaluate
  rw [hr, update_eq, hu]
  cases p.writes m <;> rfl

/-- An evaluation fails only if it needs a usage record that cannot be read. -/
theorem evaluate_eq_error_iff {e : Error} (hf : Fits σ h) :
    evaluate s h m p now = .error e ↔ p.reads m = true ∧ Store.usage s h m.raw = .error e := by
  constructor
  · intro he
    cases hu : Store.usage s h m.raw with
    | ok u =>
      rw [evaluate_eq hu] at he
      obtain ⟨t, ht⟩ := (exists_setUsage_iff s h m.raw (p.decide m u now).usage).mpr hf
      rw [ht] at he
      split at he <;> cases he
    | error e' =>
      cases hr : p.reads m with
      | false => cases (evaluate_of_reads_eq_false hr).symm.trans he
      | true =>
        cases (evaluate_eq_error hr hu).symm.trans he
        exact ⟨rfl, rfl⟩
  · rintro ⟨hr, hu⟩
    exact evaluate_eq_error hr hu

end Evaluate

end Grants
