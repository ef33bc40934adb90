import Grants.Command
import Grants.Proofs.Check.Findings

/-!
# The uses of a flag in a run

A run is a list of commands, one after the other.  A check or an evaluation that
answers is one use of every flag that it judges for its holder, passed or not,
and `uses` lists the uses of one flag in a run.

`History` says what a list of uses makes of a usage record, by the policy alone.
-/

namespace Grants

/-- One use of a flag: what was asked, and what came of it. -/
structure Use where
  policy : Policy
  now : UInt64
  passed : Bool
  deriving DecidableEq

namespace Use

/-- The usage record after a use. -/
def after (m : Flag) (x : Use) (u : Usage) : Usage :=
  if x.passed then x.policy.invoke m u x.now else u

/-- The use of a matched flag in a check, if any of the required flags is answered by it. -/
def ofFindings? (m : Flag) (p : Policy) (now : UInt64) (fs : List Finding) : Option Use :=
  if fs.any (·.matched == some m) then
    some ⟨p, now, fs.any fun f ↦ f.matched == some m && f.passed⟩
  else none

theorem ofFindings?_map_finding {m : Flag} {p : Policy} {now : UInt64} {set : FlagSet}
    {decision : Flag → Change Verdict} (required : List Flag) :
    ofFindings? m p now (required.map (Check.finding set decision)) =
      if m ∈ required.filterMap set.bestMatch then some ⟨p, now, (decision m).answer.passed⟩
      else none := by
  have hmatched : (required.map (Check.finding set decision)).any (·.matched == some m) =
      decide (m ∈ required.filterMap set.bestMatch) := by
    rw [Bool.eq_iff_iff, decide_eq_true_iff, List.mem_filterMap]
    simp [Check.matched_finding]
  have hpassed : ((required.map (Check.finding set decision)).any fun f ↦
      f.matched == some m && f.passed) =
        (decide (m ∈ required.filterMap set.bestMatch) && (decision m).answer.passed) := by
    have hf (f : Flag) : ((Check.finding set decision f).matched == some m &&
        (Check.finding set decision f).passed) =
          ((Check.finding set decision f).matched == some m && (decision m).answer.passed) := by
      cases hm : (Check.finding set decision f).matched == some m with
      | false => rfl
      | true => rw [Check.passed_finding (by simpa [Check.matched_finding] using hm)]
    rw [← hmatched, List.any_map, List.any_map]
    cases hv : (decision m).answer.passed <;> simp [hf, hv, Function.comp_def]
  rw [ofFindings?, hmatched, hpassed]
  by_cases hm : m ∈ required.filterMap set.bestMatch <;> simp [hm]

end Use

/-- What a list of uses makes of a usage record, if each passes as its policy says. -/
inductive History (m : Flag) : Usage → List Use → Usage → Prop
  | nil (u : Usage) : History m u [] u
  | cons {u v : Usage} {x : Use} {xs : List Use}
      (hx : x.passed = (x.policy.verdict m u x.now).passed) (hxs : History m (x.after m u) xs v) :
      History m u (x :: xs) v

theorem History.append {m : Flag} {u v w : Usage} {xs ys : List Use} (hxs : History m u xs v)
    (hys : History m v ys w) : History m u (xs ++ ys) w := by
  induction hxs with
  | nil u => exact hys
  | cons hx _ ih => exact .cons hx (ih hys)

/-- A decision that answers is a use. -/
theorem History.decide (m : Flag) (p : Policy) (u : Usage) (now : UInt64) :
    History m u [⟨p, now, (p.decide m u now).answer.passed⟩] (p.decide m u now).usage := by
  rw [Policy.usage_decide, Policy.answer_decide]
  exact .cons rfl (.nil _)

namespace Command

/-- Does a command write usage records that no policy has decided on? -/
def isDirect : Command → Bool
  | setUsage .. | resetUsage .. | update .. => true
  | _ => false

variable {σ : Type} [Store σ] (h : Holder)

/-- The use that a command makes of a flag of a holder, if it makes one. -/
def use? (m : Flag) (s : σ) : Command → Option Use
  | check r now | checkPermitted r now =>
    if r.holder = h then (Grants.check s r now).1.toOption.bind (Use.ofFindings? m r.policy now)
    else none
  | evaluate h' m' p now =>
    if h' = h ∧ m' = m then
      (Grants.evaluate s h m p now).toOption.map fun vs ↦ ⟨p, now, vs.1.passed⟩
    else none
  | _ => none

/-- The uses of a flag of a holder in a run, in turn. -/
def uses (m : Flag) (s : σ) : List Command → List Use
  | [] => []
  | c :: cs => (use? h m s c).toList ++ uses m (c.run s).2 cs

/-- The flags of a holder whose usage records a command comes to. -/
def reached (s : σ) : Command → List Flag
  | check r _ | checkPermitted r _ => if r.holder = h then Check.matched s r else []
  | evaluate h' m _ _ => if h' = h then [m] else []
  | _ => []

def reachedAll (s : σ) : List Command → List Flag
  | [] => []
  | c :: cs => reached h s c ++ reachedAll (c.run s).2 cs

variable {h} {m : Flag} {s : σ}

theorem holder_of_mem_reached {c : Command} (hm : m ∈ reached h s c) : c.holder = h := by
  cases c with
  | check r now => exact (List.mem_ite_nil_right.mp hm).1
  | checkPermitted r now => exact (List.mem_ite_nil_right.mp hm).1
  | evaluate h' m' p now => exact (List.mem_ite_nil_right.mp hm).1
  | _ => cases hm

theorem snd_runAll_append (cs ds : List Command) :
    (runAll s (cs ++ ds)).2 = (runAll (runAll s cs).2 ds).2 := by
  induction cs generalizing s with
  | nil => rfl
  | cons c cs ih => exact ih

theorem uses_append (cs ds : List Command) :
    uses h m s (cs ++ ds) = uses h m s cs ++ uses h m (runAll s cs).2 ds := by
  induction cs generalizing s with
  | nil => rfl
  | cons c cs ih =>
    rw [List.cons_append, uses, uses, List.append_assoc, ih]
    rfl

theorem reachedAll_append (cs ds : List Command) :
    reachedAll h s (cs ++ ds) = reachedAll h s cs ++ reachedAll h (runAll s cs).2 ds := by
  induction cs generalizing s with
  | nil => rfl
  | cons c cs ih =>
    rw [List.cons_append, reachedAll, reachedAll, List.append_assoc, ih]
    rfl

theorem uses_subset (as : List Command) {bs cs : List Command} (hcs : as ++ bs <+: cs) :
    uses h m (runAll s as).2 bs ⊆ uses h m s cs := by
  obtain ⟨ds, rfl⟩ := hcs
  rw [uses_append, uses_append]
  intro x hx
  exact List.mem_append_left _ (List.mem_append_right _ hx)

theorem reachedAll_subset (as : List Command) {bs cs : List Command} (hcs : as ++ bs <+: cs) :
    reachedAll h (runAll s as).2 bs ⊆ reachedAll h s cs := by
  obtain ⟨ds, rfl⟩ := hcs
  rw [reachedAll_append, reachedAll_append]
  intro n hn
  exact List.mem_append_left _ (List.mem_append_right _ hn)

end Command

end Grants
