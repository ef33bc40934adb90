import Grants.Check

/-!
# Commands

What a caller can ask of any store, as data.
-/

namespace Grants

inductive Command
  | setPermissions (h : Holder) (flags : List Flag)
  | grant (h : Holder) (flags : List Flag)
  | revoke (h : Holder) (flags : List Flag)
  | removeHolder (h : Holder)
  | permissions (h : Holder)
  | usage (h : Holder) (flag : String)
  | setUsage (h : Holder) (flag : String) (u : Usage)
  | resetUsage (h : Holder) (flag : String)
  /-- A decision gives the usage record after it, and says whether to keep it. -/
  | update (h : Holder) (flag : String) (decide : Usage → Usage × Bool)
  | check (r : Request) (now : UInt64)
  | checkPermitted (r : Request) (now : UInt64)
  | evaluate (h : Holder) (matched : Flag) (p : Policy) (now : UInt64)

inductive Reply
  | done
  | count (n : Nat)
  | existed (yes : Bool)
  /-- The flags of a record, if there is one. -/
  | flags (flags : Option (List Flag))
  | usage (u : Usage)
  | findings (fs : List Finding)
  | verdict (v : Verdict)
  deriving DecidableEq

namespace Command

/-- The holder whose records a command is about. -/
def holder : Command → Holder
  | setPermissions h _ | grant h _ | revoke h _ | removeHolder h | permissions h | usage h _
  | setUsage h _ _ | resetUsage h _ | update h _ _ | evaluate h _ _ _ => h
  | check r _ | checkPermitted r _ => r.holder

variable {σ : Type} [Store σ]

/-- The reply to a command, and the store after it. -/
def run (s : σ) : Command → Except Error Reply × σ
  | setPermissions h flags =>
    Store.commit s ((Store.setPermissions s h flags).map fun s ↦ (.done, s))
  | grant h flags => Store.commit s ((Store.grant s h flags).map (Prod.map .count id))
  | revoke h flags => Store.commit s ((Store.revoke s h flags).map (Prod.map .count id))
  | removeHolder h => Store.commit s ((Store.removeHolder s h).map (Prod.map .existed id))
  | permissions h => ((Store.permissions s h).map fun fs ↦ .flags (some fs), s)
  | usage h flag => ((Store.usage s h flag).map .usage, s)
  | setUsage h flag u => Store.commit s ((Store.setUsage s h flag u).map fun s ↦ (.done, s))
  | resetUsage h flag => Store.commit s ((Store.resetUsage s h flag).map (Prod.map .existed id))
  | update h flag decide =>
    let change (u : Usage) : Change Usage := ⟨u, (decide u).1, (decide u).2⟩
    Store.commit s ((Store.update s h flag change).map (Prod.map .usage id))
  | check r now => Prod.map (Except.map .findings) id (Grants.check s r now)
  | checkPermitted r now => Prod.map (Except.map .findings) id (Grants.checkPermitted s r now)
  | evaluate h matched p now =>
    Store.commit s ((Grants.evaluate s h matched p now).map (Prod.map .verdict id))

/-- The replies to some commands in turn, and the store after all of them. -/
def runAll (s : σ) : List Command → List (Except Error Reply) × σ
  | [] => ([], s)
  | c :: cs =>
    let (reply, s) := run s c
    let (replies, s) := runAll s cs
    (reply :: replies, s)

end Command

end Grants
