import Grants.Command
import Grants.ByteStore

/-!
# Transactions

A transaction runs its steps on the byte store one after the other, and keeps
their effects only if all of them succeed.
-/

namespace Grants

inductive Step
  | setPermissions (h : Holder) (flags : List Flag)
  | grant (h : Holder) (flags : List Flag)
  | revoke (h : Holder) (flags : List Flag)
  | removeHolder (h : Holder)
  | permissions (h : Holder)
  | usage (h : Holder) (flag : String)
  | setUsage (h : Holder) (flag : String) (u : Usage)
  | resetUsage (h : Holder) (flag : String)
  | define (d : Definition)
  | undefine (key : StrictFlag)
  /-- The caller gives up, for a reason of its own. -/
  | giveUp (e : Error)
  deriving DecidableEq

namespace Step

def run (s : ByteStore) : Step → Except Error (Reply × ByteStore)
  | setPermissions h flags => (s.setPermissions h flags).map fun s ↦ (.done, s)
  | grant h flags => (s.grant h flags).map (Prod.map .count id)
  | revoke h flags => (s.revoke h flags).map (Prod.map .count id)
  | removeHolder h => (s.removeHolder h).map (Prod.map .existed id)
  | permissions h => (s.permissions? h).map fun fs ↦ (.flags fs, s)
  | usage h flag => (s.usage h flag).map fun u ↦ (.usage u, s)
  | setUsage h flag u => (s.setUsage h flag u).map fun s ↦ (.done, s)
  | resetUsage h flag => (s.resetUsage h flag).map (Prod.map .existed id)
  | define d => (s.define d).map fun s ↦ (.done, s)
  | undefine key => .ok (Prod.map .existed id (s.undefine key))
  | giveUp e => .error e

/-- The replies of the steps up to the first that fails, and the store after all steps or the
error of that one. -/
def runAll (s : ByteStore) : List Step → List Reply × Except Error ByteStore
  | [] => ([], .ok s)
  | st :: steps =>
    match run s st with
    | .error e => ([], .error e)
    | .ok (reply, s) =>
      let (replies, result) := runAll s steps
      (reply :: replies, result)

end Step

/-- What the caller of a transaction gets to see. -/
structure Transaction.Outcome where
  replies : List Reply
  failure : Option Error
  deriving DecidableEq

namespace ByteStore

def transact (s : ByteStore) (steps : List Step) : Transaction.Outcome × ByteStore :=
  match Step.runAll s steps with
  | (replies, .ok s) => (⟨replies, none⟩, s)
  | (replies, .error e) => (⟨replies, some e⟩, s)

end ByteStore

end Grants
