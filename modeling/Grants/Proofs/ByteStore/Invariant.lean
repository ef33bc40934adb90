import Grants.ByteStore.Command
import Grants.Proofs.ByteStore.Lawful
import Grants.Proofs.Store.Invariant

/-!
# Properties that every operation on the byte store keeps

To the operations of any store come those on definitions.  A transaction keeps an
invariant whether it goes through or not, since what it keeps is what its steps
leave, or what was there before.
-/

namespace Grants.ByteStore

/-- A property of the empty store that the operations of the byte store keep. -/
structure Invariant (P : ByteStore → Prop) : Prop where
  common (h : Holder) : Store.InvariantAt h P
  empty : P .empty
  define {s t : ByteStore} {d : Definition} : P s → s.define d = .ok t → P t
  undefine {s : ByteStore} (key : StrictFlag) : P s → P (s.undefine key).2

namespace Invariant

variable {P : ByteStore → Prop} {s t : ByteStore}

theorem step (hP : Invariant P) (hs : P s) {st : Step} {reply : Grants.Reply}
    (ht : st.run s = .ok (reply, t)) : P t := by
  cases st with
  | setPermissions h fs =>
    obtain ⟨t', ht', ⟨⟩⟩ := Error.map_eq_ok_iff.mp ht
    exact (hP.common h).setPermissions hs ht'
  | grant h fs =>
    obtain ⟨⟨n, t'⟩, ht', ⟨⟩⟩ := Error.map_eq_ok_iff.mp ht
    exact (hP.common h).grant hs ht'
  | revoke h fs =>
    obtain ⟨⟨n, t'⟩, ht', ⟨⟩⟩ := Error.map_eq_ok_iff.mp ht
    exact (hP.common h).revoke hs ht'
  | removeHolder h =>
    obtain ⟨⟨b, t'⟩, ht', ⟨⟩⟩ := Error.map_eq_ok_iff.mp ht
    exact (hP.common h).removeHolder hs ht'
  | permissions h =>
    obtain ⟨fs, -, ⟨⟩⟩ := Error.map_eq_ok_iff.mp ht
    exact hs
  | usage h flag =>
    obtain ⟨u, -, ⟨⟩⟩ := Error.map_eq_ok_iff.mp ht
    exact hs
  | setUsage h flag u =>
    obtain ⟨t', ht', ⟨⟩⟩ := Error.map_eq_ok_iff.mp ht
    exact (hP.common h).setUsage hs ht'
  | resetUsage h flag =>
    obtain ⟨⟨b, t'⟩, ht', ⟨⟩⟩ := Error.map_eq_ok_iff.mp ht
    exact (hP.common h).resetUsage hs ht'
  | define d =>
    obtain ⟨t', ht', ⟨⟩⟩ := Error.map_eq_ok_iff.mp ht
    exact hP.define hs ht'
  | undefine key =>
    cases ht
    exact hP.undefine key hs
  | giveUp e => cases ht

theorem stepAll (hP : Invariant P) (hs : P s) {steps : List Step}
    (ht : (Step.runAll s steps).2 = .ok t) : P t := by
  induction steps generalizing s with
  | nil =>
    cases ht
    exact hs
  | cons st steps ih =>
    rw [Step.runAll] at ht
    cases hst : st.run s with
    | error e =>
      rw [hst] at ht
      cases ht
    | ok rs =>
      rw [hst] at ht
      exact ih (hP.step hs hst) ht

theorem transact (hP : Invariant P) (hs : P s) (steps : List Step) : P (s.transact steps).2 := by
  unfold ByteStore.transact
  split
  · next h => exact hP.stepAll hs (congrArg Prod.snd h)
  · exact hs

theorem run (hP : Invariant P) (hs : P s) (c : ByteStore.Command) : P (c.run s).2 := by
  cases c with
  | common c => exact (hP.common c.holder).run hs
  | define d => exact Store.commit_induction hs fun t ht ↦ hP.define hs ht
  | undefine key => exact hP.undefine key hs
  | clear => exact hP.empty
  | transact steps => exact hP.transact hs steps
  | _ => exact hs

/-- What every operation keeps holds after every run from the empty store. -/
theorem runAll (hP : Invariant P) (cs : List ByteStore.Command) :
    P (ByteStore.Command.runAll .empty cs).2 := by
  suffices ∀ s, P s → P (ByteStore.Command.runAll s cs).2 from this _ hP.empty
  induction cs with
  | nil => exact fun s hs ↦ hs
  | cons c cs ih => exact fun s hs ↦ ih _ (hP.run hs c)

end Invariant

end Grants.ByteStore
