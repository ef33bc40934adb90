import Grants.Distinct
import Grants.Proofs.Store.Lawful

/-!
# The findings of a check

A check evaluates its matched flags one after another, each of them once, and
stops at the first that cannot be evaluated (`evaluates_check`).  It writes as it
goes.  So what every write of a matched flag's usage record preserves, a check
preserves, whatever becomes of it (`check_induction`), and a check that invokes
nothing changes nothing (`snd_check_of_writes`).

A finding tells which grant answers a required flag, and what has been decided
on that grant (`tells_finding`).
`Progress` relates the store and the memo on the way to the store at the start:
what has been evaluated is in the memo, what the decisions keep is written, and
all else is as it was.  So every decision is the one on the usage record at the
start (`check_eq`), as long as no two matched flags share a usage record.
-/

namespace Grants.Check

open LawfulStore

variable {σ : Type} [Store σ]

/-- The finding on a required flag, given the decisions on matched flags. -/
def finding (set : FlagSet) (decision : Flag → Change Verdict) (required : Flag) : Finding :=
  match set.bestMatch required with
  | none => .unmatched required
  | some m => .ofVerdict required m (decision m).answer

/-- The finding `f` on a required flag names the grant that answers it, and repeats the verdict of
the decision on that grant.  Without an answer it does not pass, and has nothing else to tell. -/
structure Tells (set : FlagSet) (decision : Flag → Change Verdict) (required : Flag) (f : Finding) :
    Prop where
  flag : f.flag = required
  matched : f.matched = set.bestMatch required
  unmatched : set.bestMatch required = none →
    f.passed = false ∧ f.onCooldown = none ∧ f.cooldownExpires = none ∧ f.limitExhausted = false
  decided (m : Flag) : set.bestMatch required = some m →
    f.passed = (decision m).answer.passed ∧
    f.onCooldown = (decision m).answer.onCooldown ∧
    f.cooldownExpires = (decision m).answer.cooldownExpires ∧
    f.limitExhausted = (decision m).answer.limitExhausted

theorem tells_finding (set : FlagSet) (decision : Flag → Change Verdict) (f : Flag) :
    Tells set decision f (finding set decision f) := by
  unfold finding
  cases hf : set.bestMatch f with
  | none =>
    refine ⟨rfl, hf.symm, fun _ ↦ ⟨rfl, rfl, rfl, rfl⟩, fun m hm ↦ ?_⟩
    cases hf.symm.trans hm
  | some m =>
    refine ⟨rfl, hf.symm, fun hnone ↦ ?_, fun n hn ↦ ?_⟩
    · cases hf.symm.trans hnone
    · cases hf.symm.trans hn
      exact ⟨rfl, rfl, rfl, rfl⟩

theorem matched_finding {set : FlagSet} {decision : Flag → Change Verdict} (f : Flag) :
    (finding set decision f).matched = set.bestMatch f := (tells_finding set decision f).matched

theorem finding_congr {set : FlagSet} {decision decision' : Flag → Change Verdict}
    (heq : ∀ m, (decision m).answer = (decision' m).answer) :
    finding set decision = finding set decision' := by
  funext f
  unfold finding
  cases set.bestMatch f with
  | none => rfl
  | some m => exact congrArg (Finding.ofVerdict f m) (heq m)

theorem passed_finding {set : FlagSet} {decision : Flag → Change Verdict} {f m : Flag}
    (hm : set.bestMatch f = some m) :
    (finding set decision f).passed = (decision m).answer.passed :=
  ((tells_finding set decision f).decided m hm).1

/-- The flags that a request is matched with, one for each required flag that has any. -/
def matched (s : σ) (r : Request) : List Flag :=
  match granted s r with
  | .ok set => r.required.filterMap set.bestMatch
  | .error _ => []

theorem granted_eq_ok_iff {s : σ} {r : Request} {set : FlagSet} :
    granted s r = .ok set ↔ r.required ≠ [] ∧ r.holder.validate = .ok () ∧
      ∃ stored, Store.permissions s r.holder = .ok stored ∧ set = .merged stored r.additional := by
  unfold granted Argument.nonempty
  cases r.required with
  | nil => simp [bind, Except.bind]
  | cons f fs =>
    cases r.holder.validate with
    | error e => simp [bind, Except.bind]
    | ok _ =>
      cases Store.permissions s r.holder <;> simp [bind, Except.bind, pure, Except.pure, eq_comm]

section Evaluations

variable {P : σ → Prop} {h : Holder} {p : Policy} {now : UInt64} {s t : σ} {ms : List Flag}

/-- An evaluation that succeeds writes the usage record of its flag, or nothing. -/
theorem eq_or_writes_of_evaluate [LawfulStore σ] {m : Flag} {v : Verdict}
    (ht : evaluate s h m p now = .ok (v, t)) :
    t = s ∨ p.writes m = true ∧
      ∃ u, Store.usage s h m.raw = .ok u ∧ ∃ u', Store.setUsage s h m.raw u' = .ok t := by
  cases hu : Store.usage s h m.raw with
  | ok u =>
    rw [evaluate_eq hu] at ht
    cases hkeep : (p.decide m u now).keep with
    | true =>
      rw [hkeep, if_pos rfl] at ht
      obtain ⟨t', ht', heq⟩ := Error.map_eq_ok_iff.mp ht
      cases heq
      rw [Policy.keep_decide, Bool.and_eq_true] at hkeep
      exact .inr ⟨hkeep.2, u, rfl, _, ht'⟩
    | false =>
      rw [hkeep] at ht
      cases ht
      exact .inl rfl
  | error e =>
    cases hr : p.reads m with
    | true => cases (evaluate_eq_error hr hu).symm.trans ht
    | false =>
      cases (evaluate_of_reads_eq_false hr).symm.trans ht
      exact .inl rfl

theorem evaluate_induction [LawfulStore σ] {m : Flag} {v : Verdict}
    (hwrite : ∀ {s t u}, P s → Store.setUsage s h m.raw u = .ok t → P t) (hs : P s)
    (ht : evaluate s h m p now = .ok (v, t)) : P t := by
  rcases eq_or_writes_of_evaluate ht with rfl | ⟨-, -, -, u, ht'⟩
  · exact hs
  · exact hwrite hs ht'

theorem exists_usages (hread : ∀ m ∈ ms, ∃ u, Store.usage s h m.raw = .ok u) :
    ∃ u : Flag → Usage, ∀ m ∈ ms, Store.usage s h m.raw = .ok (u m) := by
  refine ⟨fun m ↦ (Store.usage s h m.raw).toOption.getD {}, fun m hm ↦ ?_⟩
  obtain ⟨u, hu⟩ := hread m hm
  simp only [hu]
  rfl

/-- Evaluates flags one after the other, for what this leaves. -/
def evaluateAll (h : Holder) (p : Policy) (now : UInt64) : List Flag → σ → Except Error σ
  | [], s => .ok s
  | m :: ms, s => do
    let (_, s) ← evaluate s h m p now
    evaluateAll h p now ms s

theorem evaluateAll_cons {m : Flag} {v : Verdict} {s' : σ}
    (hs : evaluate s h m p now = .ok (v, s')) :
    evaluateAll h p now (m :: ms) s = evaluateAll h p now ms s' := by
  rw [evaluateAll, hs]
  rfl

theorem evaluateAll_induction
    (hstep : ∀ {s t m v}, m ∈ ms → P s → evaluate s h m p now = .ok (v, t) → P t) (hs : P s)
    (ht : evaluateAll h p now ms s = .ok t) : P t := by
  induction ms generalizing s with
  | nil =>
    cases ht
    exact hs
  | cons m ms ih =>
    obtain ⟨⟨v, s'⟩, hs', ht⟩ := Error.bind_eq_ok_iff.mp ht
    exact ih (fun hm ↦ hstep (List.mem_cons_of_mem _ hm)) (hstep List.mem_cons_self hs hs') ht

/-- What comes of evaluating flags one after the other, up to the first that fails. -/
inductive Evaluates (h : Holder) (p : Policy) (now : UInt64) (ms : List Flag) (s : σ) :
    Except Error (List Finding) × σ → Prop
  | ok {fs : List Finding} {t : σ} (ht : evaluateAll h p now ms s = .ok t) :
    Evaluates h p now ms s (.ok fs, t)
  | error {done rest : List Flag} {m : Flag} {e : Error} {t : σ} (hms : ms = done ++ m :: rest)
      (ht : evaluateAll h p now done s = .ok t) (he : evaluate t h m p now = .error e) :
    Evaluates h p now ms s (.error e, t)

namespace Evaluates

variable {x : Except Error (List Finding) × σ}

theorem map (hx : Evaluates h p now ms s x) (f : List Finding → List Finding) :
    Evaluates h p now ms s (x.1.map f, x.2) := by
  cases hx with
  | ok ht => exact .ok ht
  | error hms ht he => exact .error hms ht he

theorem cons {m : Flag} {v : Verdict} {s' : σ} (hs : evaluate s h m p now = .ok (v, s'))
    (hx : Evaluates h p now ms s' x) : Evaluates h p now (m :: ms) s x := by
  cases hx with
  | ok ht => exact .ok ((evaluateAll_cons hs).trans ht)
  | error hms ht he =>
    rw [hms]
    exact .error rfl ((evaluateAll_cons hs).trans ht) he

theorem exists_evaluateAll (hx : Evaluates h p now ms s x) :
    ∃ done, done ⊆ ms ∧ evaluateAll h p now done s = .ok x.2 := by
  cases hx with
  | ok ht => exact ⟨ms, List.Subset.refl ms, ht⟩
  | error hms ht he =>
    refine ⟨_, ?_, ht⟩
    rw [hms]
    exact List.subset_append_left _ _

end Evaluates

/-- A check evaluates its matched flags in order, each of them once. -/
theorem evaluates_findings (set : FlagSet) (h : Holder) (p : Policy) (now : UInt64)
    (required : List Flag) (memo : Memo) (s : σ) :
    Evaluates h p now (distinctFrom (memo.map Prod.fst) (required.filterMap set.bestMatch)) s
      (findings set h p now required memo s) := by
  -- The flags of the memo are the ones that have been evaluated, so the two grow together.
  induction required generalizing memo s with
  | nil => exact .ok rfl
  | cons f fs ih =>
    unfold findings
    cases hf : set.bestMatch f with
    | none =>
      rw [List.filterMap_cons_none hf]
      exact (ih memo s).map _
    | some m =>
      rw [List.filterMap_cons_some hf, distinctFrom]
      dsimp only
      unfold verdict
      cases hm : memo.lookup m with
      | some v =>
        have hmem : m ∈ memo.map Prod.fst := by
          obtain ⟨l₁, l₂, rfl, -⟩ := List.lookup_eq_some_iff.mp hm
          simp
        rw [if_pos hmem]
        exact (ih memo s).map _
      | none =>
        have hmem : m ∉ memo.map Prod.fst := by
          intro hmem
          obtain ⟨entry, hentry, rfl⟩ := List.mem_map.mp hmem
          simpa using List.lookup_eq_none_iff.mp hm entry hentry
        rw [if_neg hmem]
        dsimp only
        cases he : evaluate s h m p now with
        | error e => exact .error (List.nil_append _).symm rfl he
        | ok vs => exact ((ih ((m, vs.1) :: memo) vs.2).map _).cons he

theorem evaluates_check {r : Request} {set : FlagSet} (now : UInt64)
    (hset : granted s r = .ok set) :
    Evaluates r.holder r.policy now (distinct (matched s r)) s (check s r now) := by
  rw [check, matched, hset]
  exact evaluates_findings set r.holder r.policy now r.required [] s

/-- A check that gets past its guards fails at a matched flag that it reads, after it has evaluated
the matched flags before that one. -/
theorem exists_of_check_eq_error [LawfulStore σ] {r : Request} {set : FlagSet} {e : Error}
    (hset : granted s r = .ok set) (hcheck : check s r now = (.error e, t)) :
    ∃ done m rest, distinct (matched s r) = done ++ m :: rest ∧
      evaluateAll r.holder r.policy now done s = .ok t ∧ r.policy.reads m = true ∧
      Store.usage t r.holder m.raw = .error e := by
  have hfits : Fits σ r.holder := fits_of_validate (granted_eq_ok_iff.mp hset).2.1
  have hev := evaluates_check now hset
  rw [hcheck] at hev
  cases hev with
  | error hms ht he =>
    obtain ⟨hr, hu⟩ := (evaluate_eq_error_iff hfits).mp he
    exact ⟨_, _, _, hms, ht, hr, hu⟩

/-- A check that answers has evaluated all its matched flags. -/
theorem evaluateAll_of_check {r : Request} {fs : List Finding}
    (hcheck : check s r now = (.ok fs, t)) :
    evaluateAll r.holder r.policy now (distinct (matched s r)) s = .ok t := by
  cases hset : granted s r with
  | error e =>
    rw [check, hset] at hcheck
    cases hcheck
  | ok set =>
    have hev := evaluates_check now hset
    rw [hcheck] at hev
    cases hev with
    | ok ht => exact ht

/-- What a write of the usage record of a matched flag preserves, a check preserves. -/
theorem check_induction [LawfulStore σ] {r : Request}
    (hwrite : ∀ {s' t m u}, m ∈ matched s r → P s' → Store.setUsage s' r.holder m.raw u = .ok t →
      P t) (hs : P s) : P (check s r now).2 := by
  cases hset : granted s r with
  | error e =>
    rw [check, hset]
    exact hs
  | ok set =>
    obtain ⟨done, hdone, ht⟩ := (evaluates_check now hset).exists_evaluateAll
    refine evaluateAll_induction (fun hm ↦ evaluate_induction (hwrite ?_)) hs ht
    exact mem_distinct.mp (hdone hm)

/-- A check that invokes nothing leaves the store as it was. -/
theorem snd_check_of_writes [LawfulStore σ] {r : Request} (now : UInt64)
    (hw : ∀ m ∈ matched s r, r.policy.writes m = false) : (check s r now).2 = s := by
  cases hset : granted s r with
  | error e => rw [check, hset]
  | ok set =>
    obtain ⟨done, hdone, ht⟩ := (evaluates_check now hset).exists_evaluateAll
    refine evaluateAll_induction (P := (· = s)) ?_ rfl ht
    rintro _ t m v hm rfl he
    rcases eq_or_writes_of_evaluate he with rfl | ⟨hw', -⟩
    · rfl
    · rw [hw m (mem_distinct.mp (hdone hm))] at hw'
      cases hw'

end Evaluations

variable [LawfulStore σ]

/-- Where a check stands that began in the store `s` and has evaluated the flags `done`. -/
structure Progress (s : σ) (h : Holder) (decision : Flag → Change Verdict) (done : List Flag)
    (memo : Memo) (t : σ) : Prop where
  lookup (m : Flag) : memo.lookup m = if m ∈ done then some (decision m).answer else none
  kept : ∀ m ∈ done, (decision m).keep → record? t h m.raw = .ok (some (decision m).usage)
  apart (h' : Holder) (key : String) :
    (h' = h → ∀ m ∈ done, (decision m).keep → ¬ Collide σ m.raw key) →
      record? t h' key = record? s h' key
  rest : rest t = rest s

/-- No two of the flags share a usage record. -/
def Apart (σ : Type) [Store σ] [LawfulStore σ] (ms : List Flag) : Prop :=
  ∀ m ∈ ms, ∀ m' ∈ ms, Collide σ m.raw m'.raw → m = m'

variable {s t : σ} {h : Holder} {p : Policy} {now : UInt64} {u : Flag → Usage}
variable {memo : Memo} {ms ns done : List Flag}

theorem Apart.subset (hms : Apart σ ms) (hsub : ns ⊆ ms) : Apart σ ns := fun m hm n hn ↦
  hms m (hsub hm) n (hsub hn)

theorem Progress.refl (decision : Flag → Change Verdict) : Progress s h decision [] [] s where
  lookup _ := rfl
  kept _ hm := absurd hm List.not_mem_nil
  apart _ _ _ := rfl
  rest := rfl

/-- An evaluation of a new flag finds its usage record as it was at the start. -/
theorem Progress.evaluate {m : Flag} (hfits : Fits σ h) (hapart : Apart σ ms) (hm : m ∈ ms)
    (hdone : ∀ m ∈ done, m ∈ ms) (hread : Store.usage s h m.raw = .ok (u m)) (hnew : m ∉ done)
    (hp : Progress s h (fun m ↦ p.decide m (u m) now) done memo t) :
    ∃ t', evaluate t h m p now = .ok ((p.decide m (u m) now).answer, t') ∧
      Progress s h (fun m ↦ p.decide m (u m) now) (m :: done)
        ((m, (p.decide m (u m) now).answer) :: memo) t' := by
  have hne : ∀ m' ∈ done, ¬ Collide σ m'.raw m.raw := fun m' hm' hc ↦
    hnew (hapart m' (hdone m' hm') m hm hc ▸ hm')
  have hlookup : ∀ n : Flag, ((m, (p.decide m (u m) now).answer) :: memo).lookup n =
      if n ∈ m :: done then some (p.decide n (u n) now).answer else none := by
    intro n
    rw [List.lookup_cons]
    by_cases hn : n = m
    · subst hn
      simp
    · simp [hn, beq_false_of_ne hn, hp.lookup]
  -- Only records of flags in `done` were written, and `m` shares none of them.
  have hu : Store.usage t h m.raw = .ok (u m) :=
    (Store.usage_congr (hp.apart h m.raw fun _ m' hm' _ ↦ hne m' hm')).trans hread
  rw [evaluate_eq hu]
  cases hkeep : (p.decide m (u m) now).keep with
  | false =>
    refine ⟨t, rfl, hlookup, ?_, ?_, hp.rest⟩
    · intro n hn hk
      rcases List.mem_cons.mp hn with rfl | hn
      · rw [hkeep] at hk
        cases hk
      · exact hp.kept n hn hk
    · intro h' key hkey
      exact hp.apart h' key fun hh n hn ↦ hkey hh n (List.mem_cons_of_mem _ hn)
  | true =>
    obtain ⟨t', ht'⟩ := (exists_setUsage_iff t h m.raw (p.decide m (u m) now).usage).mpr hfits
    rw [if_pos rfl, ht']
    refine ⟨t', rfl, hlookup, ?_, ?_, (rest_setUsage ht').trans hp.rest⟩
    · intro n hn hk
      rcases List.mem_cons.mp hn with rfl | hn
      · exact record?_setUsage ht' (collide_refl _)
      · rw [record?_setUsage_apart ht' fun _ hc ↦
          hnew (hapart m hm n (hdone n hn) hc ▸ hn)]
        exact hp.kept n hn hk
    · intro h' key hkey
      rw [record?_setUsage_apart ht' fun hh ↦ hkey hh m List.mem_cons_self hkeep]
      exact hp.apart h' key fun hh n hn ↦ hkey hh n (List.mem_cons_of_mem _ hn)

/-- A verdict is that of the decision on the usage record at the start, old or new. -/
theorem Progress.verdict {m : Flag} (hfits : Fits σ h) (hapart : Apart σ ms) (hm : m ∈ ms)
    (hdone : ∀ m ∈ done, m ∈ ms) (hread : Store.usage s h m.raw = .ok (u m))
    (hp : Progress s h (fun m ↦ p.decide m (u m) now) done memo t) :
    ∃ done' memo' t', verdict h p now m memo t = .ok ((p.decide m (u m) now).answer, memo', t') ∧
      Progress s h (fun m ↦ p.decide m (u m) now) done' memo' t' ∧
      ∀ n, n ∈ done' ↔ n = m ∨ n ∈ done := by
  unfold Check.verdict
  by_cases hnew : m ∈ done
  · refine ⟨done, memo, t, ?_, hp, ?_⟩
    · rw [hp.lookup, if_pos hnew]
    · rintro n
      constructor
      · exact Or.inr
      · rintro (rfl | hn)
        · exact hnew
        · exact hn
  · obtain ⟨t', he, hp'⟩ := hp.evaluate hfits hapart hm hdone hread hnew
    refine ⟨m :: done, _, t', ?_, hp', fun n ↦ List.mem_cons⟩
    rw [hp.lookup, if_neg hnew, he]
    rfl

theorem Progress.findings {set : FlagSet} {required : List Flag} (hfits : Fits σ h)
    (hapart : Apart σ ms) (hread : ∀ m ∈ ms, Store.usage s h m.raw = .ok (u m))
    (hms : ∀ m ∈ required.filterMap set.bestMatch, m ∈ ms) (hdone : ∀ m ∈ done, m ∈ ms)
    (hp : Progress s h (fun m ↦ p.decide m (u m) now) done memo t) :
    ∃ done' memo' t', findings set h p now required memo t =
        (.ok (required.map (finding set fun m ↦ p.decide m (u m) now)), t') ∧
      Progress s h (fun m ↦ p.decide m (u m) now) done' memo' t' ∧
      ∀ m, m ∈ done' ↔ m ∈ required.filterMap set.bestMatch ∨ m ∈ done := by
  -- The flags evaluated so far grow with the memo and the store, so all three vary.
  induction required generalizing done memo t with
  | nil => exact ⟨done, memo, t, rfl, hp, by simp⟩
  | cons f fs ih =>
    unfold Check.findings
    rw [List.map_cons, finding]
    cases hf : set.bestMatch f with
    | none =>
      rw [List.filterMap_cons_none hf] at hms ⊢
      obtain ⟨done', memo', t', heq, hp', hmem⟩ := ih hms hdone hp
      refine ⟨done', memo', t', ?_, hp', hmem⟩
      dsimp only
      rw [heq]
      rfl
    | some m =>
      rw [List.filterMap_cons_some hf] at hms ⊢
      have hm := hms m List.mem_cons_self
      obtain ⟨done₁, memo₁, t₁, hv, hp₁, hmem₁⟩ := hp.verdict hfits hapart hm hdone (hread m hm)
      have hdone₁ : ∀ n ∈ done₁, n ∈ ms := by
        intro n hn
        rcases (hmem₁ n).mp hn with rfl | hn
        · exact hm
        · exact hdone n hn
      obtain ⟨done', memo', t', heq, hp', hmem⟩ :=
        ih (fun n hn ↦ hms n (List.mem_cons_of_mem _ hn)) hdone₁ hp₁
      refine ⟨done', memo', t', ?_, hp', ?_⟩
      · dsimp only
        rw [hv]
        dsimp only
        rw [heq]
        rfl
      · intro n
        rw [hmem, hmem₁, List.mem_cons, or_left_comm, or_assoc]

/-- A check whose matched flags are apart and can be read evaluates each of them on the usage record
at the start. -/
theorem check_eq {r : Request} {set : FlagSet} (now : UInt64) (hset : granted s r = .ok set)
    (hapart : Apart σ (matched s r))
    (hread : ∀ m ∈ matched s r, Store.usage s r.holder m.raw = .ok (u m)) :
    ∃ done memo t, check s r now =
        (.ok (r.required.map (finding set fun m ↦ r.policy.decide m (u m) now)), t) ∧
      Progress s r.holder (fun m ↦ r.policy.decide m (u m) now) done memo t ∧
      ∀ m, m ∈ done ↔ m ∈ matched s r := by
  have hfits : Fits σ r.holder := fits_of_validate (granted_eq_ok_iff.mp hset).2.1
  have hmatched : matched s r = r.required.filterMap set.bestMatch := by rw [matched, hset]
  obtain ⟨done, memo, t, heq, hp, hmem⟩ := Progress.findings hfits hapart hread
    (fun m hm ↦ hmatched ▸ hm) (fun m hm ↦ absurd hm List.not_mem_nil) (Progress.refl _)
  refine ⟨done, memo, t, ?_, hp, ?_⟩
  · rw [check, hset]
    exact heq
  · intro m
    rw [hmem, hmatched, or_iff_left List.not_mem_nil]

end Grants.Check
