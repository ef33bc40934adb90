import Grants.Proofs.Store.Invariant
import Grants.Proofs.Store.Simulation

/-!
# Stores that keep holders apart

A store keeps its holders apart if operations on a holder depend on the records of
that holder only, and change no others.  Then the commands about a holder get the
replies that they would get without the rest of the run
(`Isolation.repliesTo_eq`).
-/

namespace Grants

namespace Command

variable {σ : Type} [Store σ] {h : Holder} {s : σ} {c : Command} {cs : List Command}

/-- The replies of a run to the commands about one holder. -/
def repliesTo (h : Holder) (s : σ) (cs : List Command) : List (Except Error Reply) :=
  ((cs.zip (runAll s cs).1).filter (·.1.holder = h)).map (·.2)

theorem repliesTo_cons_of_eq (hc : c.holder = h) :
    repliesTo h s (c :: cs) = (c.run s).1 :: repliesTo h (c.run s).2 cs := by
  simp [repliesTo, runAll, hc]

theorem repliesTo_cons_of_ne (hc : c.holder ≠ h) :
    repliesTo h s (c :: cs) = repliesTo h (c.run s).2 cs := by
  simp [repliesTo, runAll, hc]

end Command

/-- A store keeps holders apart, where `Same h` relates the states with the same records of `h`. -/
structure Isolation (σ : Type) [Store σ] (Same : Holder → σ → σ → Prop) : Prop where
  refl (h : Holder) (s : σ) : Same h s s
  /-- Operations on a holder cannot tell such states apart. -/
  simulation (h : Holder) : Simulation σ σ (· = h) (fun _ ↦ True) (Same h)
  /-- Operations on another holder keep what there is of `h`. -/
  frame {h h' : Holder} (hne : h' ≠ h) (t : σ) : Store.InvariantAt h' (Same h · t)

namespace Isolation

variable {σ : Type} [Store σ] [LawfulStore σ] {Same : Holder → σ → σ → Prop} {h : Holder} {s t : σ}

/-- A run and the same run without the other holders go through states that agree on the holder. -/
theorem repliesTo_eq_of_same (hiso : Isolation σ Same) (hst : Same h s t) (cs : List Command) :
    Command.repliesTo h s cs = (Command.runAll t (cs.filter (·.holder = h))).1 := by
  induction cs generalizing s t with
  | nil => rfl
  | cons c cs ih =>
    by_cases hc : c.holder = h
    · have hsim : Alike (Same h) (c.run s) (c.run t) :=
        (hiso.simulation h).run hst hc fun _ _ ↦ trivial
      obtain ⟨hreply, hst⟩ := hsim
      rw [Command.repliesTo_cons_of_eq hc, List.filter_cons_of_pos (by simpa using hc), hreply,
        ih hst]
      rfl
    · have hst : Same h (c.run s).2 t := (hiso.frame hc t).run hst
      rw [Command.repliesTo_cons_of_ne hc, List.filter_cons_of_neg (by simpa using hc), ih hst]

theorem repliesTo_eq (hiso : Isolation σ Same) (h : Holder) (s : σ) (cs : List Command) :
    Command.repliesTo h s cs = (Command.runAll s (cs.filter (·.holder = h))).1 :=
  hiso.repliesTo_eq_of_same (hiso.refl h s) cs

end Isolation

end Grants
