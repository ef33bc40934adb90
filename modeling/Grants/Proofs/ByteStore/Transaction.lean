import Grants.ByteStore.Command

/-!
# Transactions are all or nothing

The steps of a transaction, up to the first that fails, do what they do in
transactions of their own.  If all of them succeed, the transaction keeps what they
leave, and otherwise nothing (`all_or_nothing`).

A step in a transaction of its own is what the store offers as a command, where it
does (`Step.exists_run_of_command?`).
-/

namespace Grants

/-- The outcome of a transaction with a single step. -/
def Transaction.Outcome.ofReply : Except Error Reply → Outcome
  | .ok r => ⟨[r], none⟩
  | .error e => ⟨[], some e⟩

namespace ByteStore

/-- Each step in a transaction of its own, whatever becomes of the others. -/
def transactEach (s : ByteStore) : List Step → List Transaction.Outcome × ByteStore
  | [] => ([], s)
  | st :: steps =>
    let (outcome, s) := s.transact [st]
    let (outcomes, s) := transactEach s steps
    (outcome :: outcomes, s)

end ByteStore

open Transaction (Outcome)

variable {s t : ByteStore} {st : Step} {steps : List Step} {r : Grants.Reply}
variable {rs : List Grants.Reply} {x : Except Error ByteStore} {e : Error}

/-! ## Single steps -/

theorem ByteStore.transact_singleton (s : ByteStore) (st : Step) :
    s.transact [st] = Prod.map .ofReply id (Store.commit s (st.run s)) := by
  unfold transact Step.runAll
  cases st.run s <;> rfl

/-- The command that does on its own what a step does in a transaction, if there is one. -/
def Step.command? : Step → Option ByteStore.Command
  | setPermissions h flags => some (.common (.setPermissions h flags))
  | grant h flags => some (.common (.grant h flags))
  | revoke h flags => some (.common (.revoke h flags))
  | removeHolder h => some (.common (.removeHolder h))
  | usage h flag => some (.common (.usage h flag))
  | setUsage h flag u => some (.common (.setUsage h flag u))
  | resetUsage h flag => some (.common (.resetUsage h flag))
  | define d => some (.define d)
  | undefine key => some (.undefine key)
  | permissions _ | giveUp _ => none

theorem Step.exists_run_of_command? {c : ByteStore.Command} (s : ByteStore)
    (hc : st.command? = some c) :
    ∃ reply t, c.run s = (reply.map .common, t) ∧ s.transact [st] = (.ofReply reply, t) := by
  suffices c.run s = Prod.map (Except.map .common) id (Store.commit s (st.run s)) from
    ⟨_, _, this, s.transact_singleton st⟩
  cases st with
  | permissions h => cases hc
  | giveUp e => cases hc
  | usage h flag =>
    cases hc
    change (Except.map _ ((s.usage h flag).map _), s) =
      Prod.map _ _ (Store.commit s ((s.usage h flag).map _))
    cases s.usage h flag <;> rfl
  | define d =>
    cases hc
    change Store.commit s ((s.define d).map _) = Prod.map _ _ (Store.commit s ((s.define d).map _))
    cases s.define d <;> rfl
  | _ =>
    cases hc
    rfl

/-! ## Several steps -/

namespace ByteStore

theorem transactEach_cons_of_ok (hst : st.run s = .ok (r, t)) (steps : List Step) :
    s.transactEach (st :: steps) =
      (.ofReply (.ok r) :: (t.transactEach steps).1, (t.transactEach steps).2) := by
  rw [transactEach, transact_singleton, hst]
  rfl

theorem transactEach_cons_of_error (hst : st.run s = .error e) (steps : List Step) :
    s.transactEach (st :: steps) =
      (.ofReply (.error e) :: (s.transactEach steps).1, (s.transactEach steps).2) := by
  rw [transactEach, transact_singleton, hst]
  rfl

end ByteStore

/-- Steps, the replies of those up to the first that fails, and what they come to. -/
inductive Step.Runs : ByteStore → List Step → List Reply → Except Error ByteStore → Prop
  | done (s : ByteStore) : Runs s [] [] (.ok s)
  | failed {s : ByteStore} {st : Step} {e : Error} (steps : List Step) (hst : st.run s = .error e) :
    Runs s (st :: steps) [] (.error e)
  | step {s t : ByteStore} {st : Step} {steps : List Step} {r : Reply} {rs : List Reply}
    {x : Except Error ByteStore} (hst : st.run s = .ok (r, t)) (hruns : Runs t steps rs x) :
    Runs s (st :: steps) (r :: rs) x

namespace Step

theorem runs_runAll (s : ByteStore) (steps : List Step) :
    Runs s steps (runAll s steps).1 (runAll s steps).2 := by
  induction steps generalizing s with
  | nil => exact .done s
  | cons st steps ih =>
    unfold runAll
    cases hst : st.run s with
    | error e => exact .failed steps hst
    | ok rt => exact .step hst (ih rt.2)

namespace Runs

theorem runAll_eq (hruns : Runs s steps rs x) : runAll s steps = (rs, x) := by
  induction hruns with
  | done s => rfl
  | failed steps hst => rw [runAll, hst]
  | step hst _ ih =>
    rw [runAll, hst]
    dsimp only
    rw [ih]

theorem transact_eq (hruns : Runs s steps rs x) :
    s.transact steps =
      match x with
      | .ok t => (⟨rs, none⟩, t)
      | .error e => (⟨rs, some e⟩, s) := by
  unfold ByteStore.transact
  rw [hruns.runAll_eq]
  cases x <;> rfl

/-- A caller that gives up after some steps gets the error of the first that fails, or its own. -/
theorem concat_giveUp (hruns : Runs s steps rs x) (e : Error) :
    Runs s (steps ++ [.giveUp e]) rs (x.bind fun _ ↦ .error e) := by
  induction hruns with
  | done s => exact .failed [] rfl
  | failed steps hst => exact .failed _ hst
  | step hst _ ih => exact .step hst ih

/-- Steps that succeed together succeed one by one, and come to the same. -/
theorem transactEach_eq (hruns : Runs s steps rs x) (hx : x = .ok t) :
    s.transactEach steps = (rs.map (Outcome.ofReply ∘ .ok), t) := by
  induction hruns with
  | done s =>
    cases hx
    rfl
  | failed steps hst => cases hx
  | step hst _ ih =>
    rw [ByteStore.transactEach_cons_of_ok hst, ih hx]
    rfl

/-- Steps before one that fails succeed one by one, and that one fails. -/
theorem exists_transactEach (hruns : Runs s steps rs x) (hx : x = .error e) :
    ∃ rest, (s.transactEach steps).1 =
      rs.map (Outcome.ofReply ∘ .ok) ++ .ofReply (.error e) :: rest := by
  induction hruns with
  | done s => cases hx
  | failed steps hst =>
    cases hx
    exact ⟨_, congrArg Prod.fst (ByteStore.transactEach_cons_of_error hst steps)⟩
  | step hst _ ih =>
    obtain ⟨rest, hrest⟩ := ih hx
    rw [ByteStore.transactEach_cons_of_ok hst, hrest]
    exact ⟨rest, rfl⟩

end Runs

end Step

namespace ByteStore

/-- How a transaction compares with its steps one by one. -/
structure AllOrNothing (s : ByteStore) (steps : List Step) : Prop where
  /-- Without a failure every step does what it does one by one. -/
  committed : (s.transact steps).1.failure = none →
    s.transactEach steps =
      ((s.transact steps).1.replies.map (Outcome.ofReply ∘ .ok), (s.transact steps).2)
  /-- A failure is that of the first step that fails one by one, and the store is as before. -/
  rolledBack {e : Error} : (s.transact steps).1.failure = some e →
    (s.transact steps).2 = s ∧ ∃ rest, (s.transactEach steps).1 =
      (s.transact steps).1.replies.map (Outcome.ofReply ∘ .ok) ++ .ofReply (.error e) :: rest
  /-- If the caller gives up after the steps, the store is as before, too. -/
  givenUp (e : Error) : s.transact (steps ++ [.giveUp e]) =
    (⟨(s.transact steps).1.replies, some ((s.transact steps).1.failure.getD e)⟩, s)

theorem all_or_nothing (s : ByteStore) (steps : List Step) : AllOrNothing s steps := by
  obtain ⟨rs, x, hruns⟩ : ∃ rs x, Step.Runs s steps rs x := ⟨_, _, Step.runs_runAll s steps⟩
  have hgiven (e : Error) := (hruns.concat_giveUp e).transact_eq
  cases x with
  | ok t =>
    have heq : s.transact steps = (⟨rs, none⟩, t) := hruns.transact_eq
    constructor
    · intro _
      rw [heq]
      exact hruns.transactEach_eq rfl
    · rw [heq]
      intro _ hfailure
      cases hfailure
    · rw [heq]
      exact hgiven
  | error e =>
    have heq : s.transact steps = (⟨rs, some e⟩, s) := hruns.transact_eq
    constructor
    · rw [heq]
      intro hfailure
      cases hfailure
    · rw [heq]
      rintro _ ⟨⟩
      exact ⟨rfl, hruns.exists_transactEach rfl⟩
    · rw [heq]
      exact hgiven

end ByteStore

end Grants
