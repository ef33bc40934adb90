import Grants.ByteStore.Transaction

/-!
# Commands to the byte store

What a caller can ask of a byte store, as data: the commands of any store,
listings, definitions, and transactions.
-/

namespace Grants.ByteStore

/-- What a caller can ask of a byte store. -/
inductive Command
  /-- A command for any store. -/
  | common (c : Grants.Command)
  | holderExists (h : Holder)
  | listHolders
  | define (d : Definition)
  | definition (key : StrictFlag)
  | undefine (key : StrictFlag)
  | listDefinitions
  | clear
  | transact (steps : List Step)

inductive Reply
  | common (r : Grants.Reply)
  | holders (hs : List Holder)
  | definition (d : Option Definition)
  | definitions (ds : List Definition)
  | outcome (o : Transaction.Outcome)
  deriving DecidableEq

namespace Command

def run (s : ByteStore) : Command → Except Error Reply × ByteStore
  | common c => Prod.map (Except.map .common) id (c.run s)
  | holderExists h => ((s.holderExists h).map (.common ∘ .existed), s)
  | listHolders => (s.listHolders.map .holders, s)
  | define d => Store.commit s ((s.define d).map fun s ↦ (.common .done, s))
  | definition key => ((s.definition? key).map .definition, s)
  | undefine key => Prod.map (.ok ∘ .common ∘ .existed) id (s.undefine key)
  | listDefinitions => (s.listDefinitions.map .definitions, s)
  | clear => (.ok (.common .done), empty)
  | transact steps => Prod.map (.ok ∘ .outcome) id (s.transact steps)

def runAll (s : ByteStore) : List Command → List (Except Error Reply) × ByteStore
  | [] => ([], s)
  | c :: cs =>
    let (reply, s) := run s c
    let (replies, s) := runAll s cs
    (reply :: replies, s)

end Command

end Grants.ByteStore
