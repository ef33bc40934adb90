import Grants.Command
import Grants.Proofs.Check.Findings

/-!
# Stores that answer alike

A simulation relates the states of two stores so that every operation gives the
same answer, or fails with the same error, and keeps the states related.
Evaluations and checks are made of operations, so they answer alike as well
(`Simulation.evaluate`, `Simulation.check`), and so do whole runs of commands
(`Simulation.runAll`).

A simulation may be limited to some holders and to some texts of flags.
-/

namespace Grants

/-- Two outcomes agree if both fail with one error, or both succeed with related results. -/
inductive Agree {α β : Type} (P : α → β → Prop) : Except Error α → Except Error β → Prop
  | ok {a : α} {b : β} (h : P a b) : Agree P (.ok a) (.ok b)
  | error (e : Error) : Agree P (.error e) (.error e)

/-- The answers are the same, and the stores after them are related. -/
def Alike {α σ τ : Type} (R : σ → τ → Prop) (x : α × σ) (y : α × τ) : Prop := x.1 = y.1 ∧ R x.2 y.2

namespace Agree

variable {α β γ δ σ τ : Type} {P : α → β → Prop} {Q : γ → δ → Prop} {R : σ → τ → Prop}
variable {x : Except Error α} {y : Except Error β}

theorem bind {f : α → Except Error γ} {g : β → Except Error δ} (hxy : Agree P x y)
    (hfg : ∀ a b, P a b → Agree Q (f a) (g b)) : Agree Q (x >>= f) (y >>= g) := by
  cases hxy with
  | ok h => exact hfg _ _ h
  | error e => exact .error e

theorem map {f : α → γ} {g : β → δ} (hxy : Agree P x y) (hfg : ∀ a b, P a b → Q (f a) (g b)) :
    Agree Q (x.map f) (y.map g) := by
  cases hxy with
  | ok h => exact .ok (hfg _ _ h)
  | error e => exact .error e

theorem map_fst_eq {x : Except Error (α × σ)} {y : Except Error (α × τ)}
    (hxy : Agree (Alike R) x y) : x.map (·.1) = y.map (·.1) := by
  cases hxy with
  | ok h => exact congrArg Except.ok h.1
  | error e => rfl

end Agree

theorem Alike.commit {α σ τ : Type} {R : σ → τ → Prop} {s : σ} {t : τ}
    {x : Except Error (α × σ)} {y : Except Error (α × τ)} (hst : R s t)
    (hxy : Agree (Alike R) x y) : Alike R (Store.commit s x) (Store.commit t y) := by
  cases hxy with
  | ok h => exact ⟨congrArg Except.ok h.1, h.2⟩
  | error e => exact ⟨rfl, hst⟩

/-- Updates are alike if what they read and write is. -/
theorem Agree.update {σ τ : Type} [Store σ] [LawfulStore σ] [Store τ] [LawfulStore τ]
    {R : σ → τ → Prop} {s : σ} {t : τ} {h : Holder} {key : String} (hst : R s t)
    (husage : Store.usage s h key = Store.usage t h key)
    (hset : ∀ u, Agree R (Store.setUsage s h key u) (Store.setUsage t h key u)) {α : Type}
    (decide : Usage → Change α) :
    Agree (Alike R) (Store.update s h key decide) (Store.update t h key decide) := by
  cases hu : Store.usage t h key with
  | error e =>
    rw [LawfulStore.update_eq, LawfulStore.update_eq, husage, hu]
    exact .error e
  | ok u =>
    rw [update_of_usage (husage.trans hu), update_of_usage hu]
    split
    · exact (hset _).map fun _ _ hst' ↦ ⟨rfl, hst'⟩
    · exact .ok ⟨rfl, hst⟩

/-- A relation between the states of two stores that every operation keeps, as long as the holder is
among `F` and the text of the flag among `K`. -/
structure Simulation (σ τ : Type) [Store σ] [Store τ] (F : Holder → Prop) (K : String → Prop)
    (R : σ → τ → Prop) : Prop where
  permissions {s : σ} {t : τ} {h : Holder} : R s t → F h →
    Store.permissions s h = Store.permissions t h
  setPermissions {s : σ} {t : τ} {h : Holder} (fs : List Flag) : R s t → F h →
    Agree R (Store.setPermissions s h fs) (Store.setPermissions t h fs)
  grant {s : σ} {t : τ} {h : Holder} (fs : List Flag) : R s t → F h →
    Agree (Alike R) (Store.grant s h fs) (Store.grant t h fs)
  revoke {s : σ} {t : τ} {h : Holder} (fs : List Flag) : R s t → F h →
    Agree (Alike R) (Store.revoke s h fs) (Store.revoke t h fs)
  removeHolder {s : σ} {t : τ} {h : Holder} : R s t → F h →
    Agree (Alike R) (Store.removeHolder s h) (Store.removeHolder t h)
  usage {s : σ} {t : τ} {h : Holder} {key : String} : R s t → F h → K key →
    Store.usage s h key = Store.usage t h key
  setUsage {s : σ} {t : τ} {h : Holder} {key : String} (u : Usage) : R s t → F h → K key →
    Agree R (Store.setUsage s h key u) (Store.setUsage t h key u)
  resetUsage {s : σ} {t : τ} {h : Holder} {key : String} : R s t → F h → K key →
    Agree (Alike R) (Store.resetUsage s h key) (Store.resetUsage t h key)
  update {s : σ} {t : τ} {h : Holder} {key : String} {α : Type} (decide : Usage → Change α) :
    R s t → F h → K key →
      Agree (Alike R) (Store.update s h key decide) (Store.update t h key decide)

namespace Command

/-- The texts under which a command looks for usage records. -/
def keys {σ : Type} [Store σ] (s : σ) : Command → List String
  | usage _ flag | setUsage _ flag _ | resetUsage _ flag | update _ flag _ => [flag]
  | evaluate _ m _ _ => [m.raw]
  | check r _ | checkPermitted r _ => (Check.matched s r).map (·.raw)
  | _ => []

def keysAll {σ : Type} [Store σ] (s : σ) : List Command → List String
  | [] => []
  | c :: cs => keys s c ++ keysAll (c.run s).2 cs

end Command

namespace Simulation

variable {σ τ : Type} [Store σ] [Store τ] {F : Holder → Prop} {K : String → Prop}
variable {R : σ → τ → Prop} {s : σ} {t : τ} {h : Holder} {p : Policy} {now : UInt64}

theorem evaluate (hsim : Simulation σ τ F K R) (hst : R s t) (hh : F h) {m : Flag} (hm : K m.raw) :
    Agree (Alike R) (Grants.evaluate s h m p now) (Grants.evaluate t h m p now) := by
  unfold Grants.evaluate
  split
  · exact .ok ⟨rfl, hst⟩
  · split
    · rw [hsim.usage hst hh hm]
      cases Store.usage t h m.raw with
      | error e => exact .error e
      | ok u => exact .ok ⟨rfl, hst⟩
    · exact hsim.update _ hst hh hm

theorem findings (hsim : Simulation σ τ F K R) (hst : R s t) (hh : F h) {set : FlagSet}
    {required : List Flag} {memo : Check.Memo}
    (hK : ∀ m ∈ required.filterMap set.bestMatch, K m.raw) :
    Alike R (Check.findings set h p now required memo s)
      (Check.findings set h p now required memo t) := by
  -- Both sides carry one memo, so they evaluate the same flags.
  induction required generalizing memo s t with
  | nil => exact ⟨rfl, hst⟩
  | cons f fs ih =>
    unfold Check.findings
    cases hf : set.bestMatch f with
    | none =>
      rw [List.filterMap_cons_none hf] at hK
      obtain ⟨hans, hst⟩ := ih hst hK
      exact ⟨congrArg (Except.map (Finding.unmatched f :: ·)) hans, hst⟩
    | some m =>
      rw [List.filterMap_cons_some hf, List.forall_mem_cons] at hK
      dsimp only
      unfold Check.verdict
      cases memo.lookup m with
      | some v =>
        obtain ⟨hans, hst⟩ := ih hst hK.2
        exact ⟨congrArg (Except.map (Finding.ofVerdict f m v :: ·)) hans, hst⟩
      | none =>
        have he : Agree (Alike R) (Grants.evaluate s h m p now) (Grants.evaluate t h m p now) :=
          hsim.evaluate hst hh hK.1
        dsimp only
        generalize Grants.evaluate s h m p now = x at he ⊢
        generalize Grants.evaluate t h m p now = y at he ⊢
        cases he with
        | error e => exact ⟨rfl, hst⟩
        | @ok vs vt hvst =>
          obtain ⟨v, s'⟩ := vs
          obtain ⟨v', t'⟩ := vt
          obtain ⟨rfl, hst'⟩ := hvst
          obtain ⟨hans, hst''⟩ : Alike R (Check.findings set h p now fs ((m, v) :: memo) s')
            (Check.findings set h p now fs ((m, v) :: memo) t') := ih hst' hK.2
          exact ⟨congrArg (Except.map (Finding.ofVerdict f m v :: ·)) hans, hst''⟩

theorem granted (hsim : Simulation σ τ F K R) (hst : R s t) {r : Request} (hh : F r.holder) :
    Check.granted s r = Check.granted t r := by
  unfold Check.granted
  rw [hsim.permissions hst hh]

theorem check (hsim : Simulation σ τ F K R) (hst : R s t) {r : Request} (hh : F r.holder)
    (now : UInt64) (hK : ∀ m ∈ Check.matched s r, K m.raw) :
    Alike R (Grants.check s r now) (Grants.check t r now) := by
  unfold Check.matched at hK
  unfold Grants.check
  rw [← hsim.granted hst hh]
  cases hset : Check.granted s r with
  | error e => exact ⟨rfl, hst⟩
  | ok set =>
    rw [hset] at hK
    exact hsim.findings hst hh hK

theorem run (hsim : Simulation σ τ F K R) (hst : R s t) {c : Command} (hh : F c.holder)
    (hK : ∀ key ∈ c.keys s, K key) : Alike R (c.run s) (c.run t) := by
  cases c with
  | setPermissions h fs =>
    exact .commit hst ((hsim.setPermissions fs hst hh).map fun _ _ h ↦ ⟨rfl, h⟩)
  | grant h fs =>
    exact .commit hst ((hsim.grant fs hst hh).map fun _ _ h ↦ ⟨congrArg Reply.count h.1, h.2⟩)
  | revoke h fs =>
    exact .commit hst ((hsim.revoke fs hst hh).map fun _ _ h ↦ ⟨congrArg Reply.count h.1, h.2⟩)
  | removeHolder h =>
    exact .commit hst ((hsim.removeHolder hst hh).map fun _ _ h ↦ ⟨congrArg Reply.existed h.1, h.2⟩)
  | permissions h =>
    exact ⟨congrArg (Except.map (Reply.flags ∘ some)) (hsim.permissions hst hh), hst⟩
  | usage h flag =>
    have hflag := hK flag List.mem_cons_self
    exact ⟨congrArg (Except.map Reply.usage) (hsim.usage hst hh hflag), hst⟩
  | setUsage h flag u =>
    have hflag := hK flag List.mem_cons_self
    exact .commit hst ((hsim.setUsage u hst hh hflag).map fun _ _ h ↦ ⟨rfl, h⟩)
  | resetUsage h flag =>
    have hflag := hK flag List.mem_cons_self
    have hreset := hsim.resetUsage hst hh hflag
    exact .commit hst (hreset.map fun _ _ h ↦ ⟨congrArg Reply.existed h.1, h.2⟩)
  | update h flag decide =>
    have hflag := hK flag List.mem_cons_self
    exact .commit hst ((hsim.update _ hst hh hflag).map fun _ _ h ↦ ⟨congrArg Reply.usage h.1, h.2⟩)
  | check r now =>
    obtain ⟨hans, hst⟩ := hsim.check hst hh now (List.forall_mem_map.mp hK)
    exact ⟨congrArg (Except.map Reply.findings) hans, hst⟩
  | checkPermitted r now =>
    obtain ⟨hans, hst⟩ := hsim.check hst hh now (List.forall_mem_map.mp hK)
    refine ⟨congrArg (Except.map Reply.findings) ?_, hst⟩
    exact congrArg (·.bind Finding.permit) hans
  | evaluate h m p now =>
    have hm := hK m.raw List.mem_cons_self
    exact .commit hst ((hsim.evaluate hst hh hm).map fun _ _ h ↦ ⟨congrArg Reply.verdict h.1, h.2⟩)

/-- Related stores give the same replies in a run, and end up related. -/
theorem runAll (hsim : Simulation σ τ F K R) (hst : R s t) {cs : List Command}
    (hh : ∀ c ∈ cs, F c.holder) (hK : ∀ key ∈ Command.keysAll s cs, K key) :
    Alike R (Command.runAll s cs) (Command.runAll t cs) := by
  induction cs generalizing s t with
  | nil => exact ⟨rfl, hst⟩
  | cons c cs ih =>
    rw [List.forall_mem_cons] at hh
    rw [Command.keysAll, List.forall_mem_append] at hK
    obtain ⟨hreply, hst⟩ := hsim.run hst hh.1 hK.1
    obtain ⟨hreplies, hst⟩ := ih hst hh.2 hK.2
    refine ⟨?_, hst⟩
    change (c.run s).1 :: (Command.runAll (c.run s).2 cs).1 =
      (c.run t).1 :: (Command.runAll (c.run t).2 cs).1
    rw [hreply, hreplies]

end Simulation

end Grants
