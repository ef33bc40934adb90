import Grants.Argument
import Grants.Flag.Rank
import Grants.Request
import Grants.Store

/-!
# Checking a request against a store

Every required flag is answered by the best match among the holder's flags.  The
cooldown and limit of a matched flag are evaluated once in a check, however many
required flags it answers.
-/

namespace Grants

variable {σ : Type} [Store σ]

/-- Judges one use of a matched flag.  The store is read or updated only if the policy asks for
it. -/
def evaluate (s : σ) (h : Holder) (matched : Flag) (p : Policy) (now : UInt64) :
    Except Error (Verdict × σ) :=
  if !p.reads matched then .ok (.pass, s)
  else if !p.writes matched then do
    let u ← Store.usage s h matched.raw
    return ((p.decide matched u now).answer, s)
  else Store.update s h matched.raw (p.decide matched · now)

theorem evaluate_of_reads_eq_false {s : σ} {h : Holder} {m : Flag} {p : Policy} {now : UInt64}
    (hr : p.reads m = false) : evaluate s h m p now = .ok (.pass, s) := by
  unfold evaluate
  rw [hr]
  rfl

namespace Check

/-- The verdicts found so far in a check, by matched flag. -/
abbrev Memo := List (Flag × Verdict)

/-- The verdict on a matched flag: the one found before, or a new one. -/
def verdict (h : Holder) (p : Policy) (now : UInt64) (matched : Flag) (memo : Memo) (s : σ) :
    Except Error (Verdict × Memo × σ) :=
  match memo.lookup matched with
  | some v => .ok (v, memo, s)
  | none => do
    let (v, s) ← evaluate s h matched p now
    return (v, (matched, v) :: memo, s)

/-- The findings on the required flags in order, and the store after the last evaluation. -/
def findings (set : FlagSet) (h : Holder) (p : Policy) (now : UInt64) :
    List Flag → Memo → σ → Except Error (List Finding) × σ
  | [], _, s => (.ok [], s)
  | required :: rest, memo, s =>
    match set.bestMatch required with
    | none =>
      let (fs, s) := findings set h p now rest memo s
      (fs.map (.unmatched required :: ·), s)
    | some matched =>
      match verdict h p now matched memo s with
      | .error e => (.error e, s)
      | .ok (v, memo, s) =>
        let (fs, s) := findings set h p now rest memo s
        (fs.map (.ofVerdict required matched v :: ·), s)

/-- The flags that a request is checked against. -/
def granted (s : σ) (r : Request) : Except Error FlagSet := do
  Argument.nonempty "required" r.required
  r.holder.validate
  let stored ← Store.permissions s r.holder
  return .merged stored r.additional

end Check

/-- One finding for each required flag, in the order of the request. -/
def check (s : σ) (r : Request) (now : UInt64) : Except Error (List Finding) × σ :=
  match Check.granted s r with
  | .error e => (.error e, s)
  | .ok set => Check.findings set r.holder r.policy now r.required [] s

/-- Turns findings of which some did not pass into an error. -/
def Finding.permit (fs : List Finding) : Except Error (List Finding) :=
  if allPassed fs then .ok fs else .error (.permission (missing fs))

/-- A check that fails unless every required flag passes. -/
def checkPermitted (s : σ) (r : Request) (now : UInt64) : Except Error (List Finding) × σ :=
  let (fs, s) := check s r now
  (fs.bind Finding.permit, s)

/-- How many of `n` checks, one after the other, every required flag passes. -/
def countPermitted (r : Request) (now : UInt64) : Nat → σ → Nat × σ
  | 0, s => (0, s)
  | n + 1, s =>
    let (fs, s) := checkPermitted s r now
    let (k, s) := countPermitted r now n s
    (k + fs.isOk.toNat, s)

end Grants
