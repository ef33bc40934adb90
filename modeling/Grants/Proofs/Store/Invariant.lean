import Grants.Command
import Grants.Proofs.Check.Findings

/-!
# Properties that every operation keeps

A property of stores is an invariant at a holder if every operation on that holder
that succeeds keeps it.  An update is a read and a write, and evaluations and checks
are made of updates.  So a command keeps an invariant at its holder, whatever
becomes of it (`InvariantAt.run`).
-/

namespace Grants

namespace Store

theorem commit_induction {σ : Type} {s : σ} {P : σ → Prop} {α β : Type} {x : Except Error β}
    {f : β → α × σ} (hs : P s) (hx : ∀ b, x = .ok b → P (f b).2) :
    P (Store.commit s (x.map f)).2 := by
  cases x with
  | error e => exact hs
  | ok b => exact hx b rfl

/-- A property that the operations on one holder keep. -/
structure InvariantAt {σ : Type} [Store σ] (h : Holder) (P : σ → Prop) : Prop where
  setPermissions {s t : σ} {fs : List Flag} : P s → Store.setPermissions s h fs = .ok t → P t
  grant {s t : σ} {fs : List Flag} {n : Nat} : P s → Store.grant s h fs = .ok (n, t) → P t
  revoke {s t : σ} {fs : List Flag} {n : Nat} : P s → Store.revoke s h fs = .ok (n, t) → P t
  removeHolder {s t : σ} {b : Bool} : P s → Store.removeHolder s h = .ok (b, t) → P t
  setUsage {s t : σ} {key : String} {u : Usage} : P s → Store.setUsage s h key u = .ok t → P t
  resetUsage {s t : σ} {key : String} {b : Bool} :
    P s → Store.resetUsage s h key = .ok (b, t) → P t

namespace InvariantAt

variable {σ : Type} [Store σ] [LawfulStore σ] {P : σ → Prop} {s t : σ} {h : Holder}

theorem update (hP : InvariantAt h P) (hs : P s) {α : Type} {key : String}
    {decide : Usage → Change α} {a : α} (ht : Store.update s h key decide = .ok (a, t)) : P t := by
  rw [LawfulStore.update_eq] at ht
  obtain ⟨u, -, ht⟩ := Error.bind_eq_ok_iff.mp ht
  dsimp only at ht
  split at ht
  · obtain ⟨t', ht', heq⟩ := Error.bind_eq_ok_iff.mp ht
    cases heq
    exact hP.setUsage hs ht'
  · cases ht
    exact hs

theorem check {r : Request} (hP : InvariantAt r.holder P) (hs : P s) (now : UInt64) :
    P (Grants.check s r now).2 :=
  Check.check_induction (fun _ ↦ hP.setUsage) hs

theorem run {c : Command} (hP : InvariantAt c.holder P) (hs : P s) : P (c.run s).2 := by
  cases c with
  | setPermissions h fs => exact commit_induction hs fun t ht ↦ hP.setPermissions hs ht
  | grant h fs => exact commit_induction hs fun (n, t) ht ↦ hP.grant hs ht
  | revoke h fs => exact commit_induction hs fun (n, t) ht ↦ hP.revoke hs ht
  | removeHolder h => exact commit_induction hs fun (b, t) ht ↦ hP.removeHolder hs ht
  | permissions h => exact hs
  | usage h flag => exact hs
  | setUsage h flag u => exact commit_induction hs fun t ht ↦ hP.setUsage hs ht
  | resetUsage h flag => exact commit_induction hs fun (b, t) ht ↦ hP.resetUsage hs ht
  | update h flag decide => exact commit_induction hs fun (u, t) ht ↦ hP.update hs ht
  | check r now => exact hP.check hs now
  | checkPermitted r now => exact hP.check hs now
  | evaluate h m p now =>
    exact commit_induction hs fun (v, t) ht ↦ Check.evaluate_induction hP.setUsage hs ht

end InvariantAt

end Store

end Grants
