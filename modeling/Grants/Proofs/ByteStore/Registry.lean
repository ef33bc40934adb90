import Grants.Proofs.ByteStore.Transaction
import Grants.Proofs.ByteStore.WellFormed
import Grants.Proofs.Flag.Key

/-!
# The registry of definitions

A run registers definitions and withdraws them, by commands of their own or in
transactions that go through (`Registration.history`).  A definition stands if
nothing that came after it was about its key.  The definitions that stand are the
records of the table (`Registers`), which each operation keeps (`Registers.step`,
`Registers.run`) and so does a run (`Registers.runAll`).

What the store answers is then that of a map in the order of strict flags
(`registry`).
-/

namespace Grants

/-! ## What stands after some registrations -/

/-- What can happen to definitions. -/
inductive Registration
  | defined (d : Definition)
  | undefined (key : StrictFlag)
  | cleared
  deriving DecidableEq

namespace Registration

/-- It replaces or withdraws what is registered under a key. -/
def Affects (key : StrictFlag) : Registration → Prop
  | defined d => d.key = key
  | undefined key' => key' = key
  | cleared => True

/-- A step that succeeds has this to say about definitions. -/
def ofStep : Step → List Registration
  | .define d => [defined d]
  | .undefine key => [undefined key]
  | _ => []

/-- A command has this to say about definitions, by the reply to it. -/
def ofReply : ByteStore.Command → Except Error ByteStore.Reply → List Registration
  | .define d, .ok _ => [defined d]
  | .undefine key, .ok _ => [undefined key]
  | .clear, .ok _ => [cleared]
  | .transact steps, .ok (.outcome ⟨_, none⟩) => steps.flatMap ofStep
  | _, _ => []

/-- What has happened to the definitions of a store in a run. -/
def history (s : ByteStore) (cs : List ByteStore.Command) : List Registration :=
  (List.zipWith ofReply cs (ByteStore.Command.runAll s cs).1).flatten

/-- The definition is the latest under its key, and has not been withdrawn. -/
def Stands (rs : List Registration) (d : Definition) : Prop :=
  ∃ before after, rs = before ++ defined d :: after ∧ ∀ r ∈ after, ¬ r.Affects d.key

variable {rs : List Registration} {r : Registration} {d : Definition}

theorem not_stands_nil : ¬ Stands [] d := by
  rintro ⟨before, after, heq, -⟩
  simp at heq

theorem stands_concat_iff :
    Stands (rs ++ [r]) d ↔ r = defined d ∨ Stands rs d ∧ ¬ r.Affects d.key := by
  constructor
  -- The last registration is the definition, or the last of those that came after it.
  · rintro ⟨before, after, heq, hafter⟩
    rcases List.eq_nil_or_concat after with rfl | ⟨after, last, rfl⟩
    · exact .inl (List.cons.inj (List.append_inj' heq rfl).2).1
    · rw [List.concat_eq_append, ← List.cons_append, ← List.append_assoc] at heq
      obtain ⟨rfl, ⟨⟩⟩ := List.append_inj' heq rfl
      rw [List.concat_eq_append, List.forall_mem_append, List.forall_mem_singleton] at hafter
      exact .inr ⟨⟨before, after, rfl, hafter.1⟩, hafter.2⟩
  · rintro (rfl | ⟨⟨before, after, rfl, hafter⟩, hr⟩)
    · exact ⟨rs, [], rfl, nofun⟩
    · refine ⟨before, after ++ [r], by simp, ?_⟩
      rw [List.forall_mem_append, List.forall_mem_singleton]
      exact ⟨hafter, hr⟩

end Registration

open Registration

/-! ## The store has what stands -/

namespace ByteStore

/-- The record of a definition is under its key. -/
def Has (s : ByteStore) (d : Definition) : Prop :=
  s.definitions[Bytes.ofString d.key.raw]? = some (Bytes.ofString (Codec.definition.toText d))

/-- The definitions that stand are those of a store. -/
def Registers (s : ByteStore) (rs : List Registration) : Prop := ∀ d, s.Has d ↔ Stands rs d

variable {s t : ByteStore} {d d' : Definition} {rs : List Registration}

theorem ofString_toText_inj (heq : Bytes.ofString (Codec.definition.toText d) =
    Bytes.ofString (Codec.definition.toText d')) : d = d' := by
  have hread := congrArg readDefinition heq
  rw [readDefinition_toText, readDefinition_toText] at hread
  exact Except.ok.inj hread

theorem Has.unique (hd : s.Has d) (hd' : s.Has d') (hkey : d.key = d'.key) : d = d' := by
  unfold Has at hd hd'
  rw [hkey] at hd
  exact ofString_toText_inj (Option.some.inj (hd.symm.trans hd'))

theorem run_define (s : ByteStore) (d : Definition) :
    Command.run s (.define d) = Store.commit s ((s.define d).map fun s ↦ (.common .done, s)) := rfl

theorem has_of_define (ht : s.define d = .ok t) : t.Has d := by
  obtain ⟨key, rfl, -, rfl⟩ := define_eq_ok_iff.mp ht
  exact Std.ExtTreeMap.getElem?_insert_self

theorem has_iff_of_define (ht : s.define d = .ok t) (hne : d.key ≠ d'.key) :
    t.Has d' ↔ s.Has d' := by
  obtain ⟨key, rfl, -, rfl⟩ := define_eq_ok_iff.mp ht
  unfold Has
  rw [Std.ExtTreeMap.getElem?_insert, if_neg]
  rwa [Std.LawfulEqCmp.compare_eq_iff_eq, StrictFlag.ofString_raw_eq_iff]

theorem has_undefine_iff {key : StrictFlag} :
    (s.undefine key).2.Has d ↔ s.Has d ∧ key ≠ d.key := by
  simp only [undefine, Table.remove, Has, Std.ExtTreeMap.getElem?_erase,
    Std.LawfulEqCmp.compare_eq_iff_eq, StrictFlag.ofString_raw_eq_iff]
  split
  · next heq => simp [heq]
  · next hne => simp [hne]

theorem not_has_empty : ¬ empty.Has d := by
  simp [Has, empty]

theorem definitions_of_putPermissions {h : Holder} {fs : List Flag}
    (ht : s.putPermissions h fs = .ok t) : t.definitions = s.definitions := by
  obtain ⟨key, -, -, rfl⟩ := putPermissions_eq_ok_iff.mp ht
  rfl

/-- Operations on holders leave definitions alone. -/
theorem definitions_invariantAt (h : Holder) (t : Table) :
    Store.InvariantAt h fun s : ByteStore ↦ s.definitions = t where
  setPermissions hs ht := (definitions_of_putPermissions ht).trans hs
  grant hs ht := by
    obtain ⟨gs, -, ht⟩ := exists_put_of_grant ht
    exact (definitions_of_putPermissions ht).trans hs
  revoke hs ht := by
    rcases exists_put_of_revoke ht with rfl | ⟨gs, -, ht⟩
    · exact hs
    · exact (definitions_of_putPermissions ht).trans hs
  removeHolder hs ht := by
    obtain ⟨key, -, ht⟩ := Error.bind_eq_ok_iff.mp ht
    cases ht
    exact hs
  setUsage hs ht := by
    obtain ⟨key, -, -, rfl⟩ := setUsage_eq_ok_iff.mp ht
    exact hs
  resetUsage hs ht := by
    obtain ⟨key, -, ht⟩ := Error.bind_eq_ok_iff.mp ht
    cases ht
    exact hs

theorem definitions_run (c : Grants.Command) (s : ByteStore) :
    (c.run s).2.definitions = s.definitions :=
  (definitions_invariantAt c.holder s.definitions).run rfl

/-- A step that does what a command for any store does leaves definitions alone. -/
theorem definitions_of_step {st : Step} {r : Grants.Reply} {c : Grants.Command}
    (hc : st.command? = some (.common c)) (ht : st.run s = .ok (r, t)) :
    t.definitions = s.definitions := by
  obtain ⟨reply, t', hrun, htransact⟩ := Step.exists_run_of_command? s hc
  rw [transact_singleton, ht] at htransact
  obtain rfl : t = t' := congrArg Prod.snd htransact
  rw [← definitions_run c s]
  exact congrArg (definitions ∘ Prod.snd) hrun.symm

namespace Registers

theorem empty : Registers .empty [] := fun _ ↦ iff_of_false not_has_empty not_stands_nil

theorem unchanged (hs : s.Registers rs) (heq : t.definitions = s.definitions) :
    t.Registers (rs ++ []) := by
  intro d
  rw [List.append_nil, ← hs d, Has, heq]
  rfl

theorem define (hs : s.Registers rs) (ht : s.define d = .ok t) :
    t.Registers (rs ++ [.defined d]) := by
  intro d'
  rw [stands_concat_iff, Registration.defined.injEq, ← hs d']
  -- Under its own key the new definition is the only one, and other keys keep theirs.
  by_cases hkey : d.key = d'.key
  · constructor
    · exact fun hd' ↦ .inl ((has_of_define ht).unique hd' hkey)
    · rintro (rfl | ⟨-, hne⟩)
      · exact has_of_define ht
      · exact absurd hkey hne
  · rw [has_iff_of_define ht hkey]
    constructor
    · exact fun hd' ↦ .inr ⟨hd', hkey⟩
    · rintro (rfl | ⟨hd', -⟩)
      · exact absurd rfl hkey
      · exact hd'

theorem undefine (hs : s.Registers rs) (key : StrictFlag) :
    (s.undefine key).2.Registers (rs ++ [.undefined key]) := by
  intro d
  rw [stands_concat_iff, ← hs d, has_undefine_iff]
  simp [Registration.Affects]

theorem clear (rs : List Registration) : Registers .empty (rs ++ [.cleared]) := by
  intro d
  rw [stands_concat_iff]
  simp [not_has_empty, Registration.Affects]

theorem step (hs : s.Registers rs) {st : Step} {r : Grants.Reply} (ht : st.run s = .ok (r, t)) :
    t.Registers (rs ++ ofStep st) := by
  cases st with
  | define d =>
    obtain ⟨t', ht', ⟨⟩⟩ := Error.map_eq_ok_iff.mp ht
    exact hs.define ht'
  | undefine key =>
    cases ht
    exact hs.undefine key
  | permissions h =>
    obtain ⟨fs, -, ⟨⟩⟩ := Error.map_eq_ok_iff.mp ht
    exact hs.unchanged rfl
  | giveUp e => cases ht
  | _ => exact hs.unchanged (definitions_of_step rfl ht)

theorem stepAll (hs : s.Registers rs) {steps : List Step} (ht : (Step.runAll s steps).2 = .ok t) :
    t.Registers (rs ++ steps.flatMap ofStep) := by
  induction steps generalizing s rs with
  | nil =>
    cases ht
    exact hs.unchanged rfl
  | cons st steps ih =>
    rw [Step.runAll] at ht
    cases hst : st.run s with
    | error e =>
      rw [hst] at ht
      cases ht
    | ok rt =>
      rw [hst] at ht
      rw [List.flatMap_cons, ← List.append_assoc]
      exact ih (hs.step hst) ht

/-- A transaction registers all that its steps do, or nothing. -/
theorem transact (hs : s.Registers rs) (steps : List Step) :
    (s.transact steps).2.Registers
      (rs ++ ofReply (.transact steps) (.ok (.outcome (s.transact steps).1))) := by
  unfold ByteStore.transact
  split
  · next h => exact hs.stepAll (congrArg Prod.snd h)
  · exact hs.unchanged rfl

theorem run (hs : s.Registers rs) (c : ByteStore.Command) :
    (c.run s).2.Registers (rs ++ ofReply c (c.run s).1) := by
  cases c with
  | common c => exact hs.unchanged (definitions_run c s)
  | define d =>
    rw [run_define]
    cases ht : s.define d with
    | error e => exact hs.unchanged rfl
    | ok t => exact hs.define ht
  | undefine key => exact hs.undefine key
  | clear => exact clear rs
  | transact steps => exact hs.transact steps
  | _ => exact hs.unchanged rfl

theorem runAll (hs : s.Registers rs) (cs : List ByteStore.Command) :
    (Command.runAll s cs).2.Registers (rs ++ history s cs) := by
  induction cs generalizing s rs with
  | nil => exact hs.unchanged rfl
  | cons c cs ih =>
    have hcs := ih (hs.run c)
    rw [List.append_assoc] at hcs
    exact hcs

end Registers

/-- What a store answers about definitions if those that stand are its own. -/
structure Registry (s : ByteStore) (rs : List Registration) : Prop where
  /-- There is a definition under a key, and something to withdraw, exactly if one stands. -/
  definition (key : StrictFlag) : ∃ record, s.definition? key = .ok record ∧
    (∀ d, record = some d ↔ d.key = key ∧ Stands rs d) ∧
      (s.undefine key).1 = record.isSome
  /-- A definition is refused only for the size of its key, and then nothing changes. -/
  define (d : Definition) :
    if (Bytes.ofString d.key.raw).length ≤ Table.maxKey then
      ∃ t, Command.run s (.define d) = (.ok (.common .done), t)
    else Command.run s (.define d) = (.error (.store .badKeySize), s)
  /-- The list has what stands, each once, in the order of keys. -/
  listDefinitions : ∃ ds, s.listDefinitions = .ok ds ∧ (∀ d, d ∈ ds ↔ Stands rs d) ∧ ds.Nodup ∧
    ds.Pairwise fun d d' ↦ d.key.compareFields d'.key = .lt

theorem WellFormed.exists_definition (hs : s.WellFormed) (key : StrictFlag) :
    ∃ record, s.definition? key = .ok record ∧
      (∀ d, record = some d ↔ d.key = key ∧ s.Has d) ∧ (s.undefine key).1 = record.isSome := by
  obtain ⟨record, hread, hb, hkey⟩ := hs.definition?_eq key
  refine ⟨record, hread, fun d ↦ ⟨?_, ?_⟩, ?_⟩
  · rintro rfl
    obtain rfl := hkey d rfl
    exact ⟨rfl, hb⟩
  · rintro ⟨rfl, hd⟩
    cases record with
    | none => cases hb.symm.trans hd
    | some d' =>
      have hd' : s.Has d' := by
        rw [Has, hkey d' rfl]
        exact hb
      rw [hd'.unique hd (hkey d' rfl)]
  · change s.definitions.contains _ = _
    rw [Std.ExtTreeMap.contains_eq_isSome_getElem?, hb, Option.isSome_map]

theorem run_define_of_length (s : ByteStore) (d : Definition) :
    if (Bytes.ofString d.key.raw).length ≤ Table.maxKey then
      ∃ t, Command.run s (.define d) = (.ok (.common .done), t)
    else Command.run s (.define d) = (.error (.store .badKeySize), s) := by
  split
  · next hlen =>
    obtain ⟨t, ht⟩ : ∃ t, s.define d = .ok t :=
      ⟨_, define_eq_ok_iff.mpr ⟨_, rfl, ⟨d.key.length_ofString_pos, hlen⟩, rfl⟩⟩
    rw [run_define, ht]
    exact ⟨t, rfl⟩
  · next hlen =>
    have ht : s.define d = .error (.store .badKeySize) := by
      simp [ByteStore.define, Table.put, hlen, bind, Except.bind]
    rw [run_define, ht]
    rfl

theorem WellFormed.exists_listDefinitions (hs : s.WellFormed) :
    ∃ ds, s.listDefinitions = .ok ds ∧ (∀ d, d ∈ ds ↔ s.Has d) ∧
      ds.Pairwise fun d d' ↦ compare d.key d'.key = .lt := by
  obtain ⟨ds, hread, hmap⟩ := hs.listDefinitions_eq
  refine ⟨ds, hread, fun d ↦ ?_, ?_⟩
  · have hmem : s.Has d ↔ (Bytes.ofString d.key.raw, Bytes.ofString (Codec.definition.toText d)) ∈
        s.definitions.toList := Std.ExtTreeMap.mem_toList_iff_getElem?_eq_some.symm
    rw [hmem, ← hmap]
    constructor
    · exact fun hd ↦ List.mem_map_of_mem hd
    · intro hd
      obtain ⟨d', hd', heq⟩ := List.mem_map.mp hd
      exact ofString_toText_inj (Prod.mk.inj heq).2 ▸ hd'
  · have hordered := s.definitions.ordered_keys_toList
    rw [← hmap, List.pairwise_map] at hordered
    exact hordered.imp StrictFlag.compare_ofString_eq_lt_iff.mp

/-- Whatever has been asked of a store that was empty, it has the definitions that stand after what
went through.  A transaction that goes on after a failed step, which changes nothing, is the one
that leaves this step out. -/
theorem registry (cs : List ByteStore.Command) :
    Registry (Command.runAll .empty cs).2 (history .empty cs) := by
  have hs := WellFormed.invariant.runAll cs
  have hstands : Registers _ ([] ++ history .empty cs) := Registers.empty.runAll cs
  rw [List.nil_append] at hstands
  refine ⟨fun key ↦ ?_, run_define_of_length _, ?_⟩
  · obtain ⟨record, hread, hrecord, hsome⟩ := hs.exists_definition key
    exact ⟨record, hread, fun d ↦ by rw [hrecord, hstands d], hsome⟩
  · obtain ⟨ds, hread, hmem, hordered⟩ := hs.exists_listDefinitions
    refine ⟨ds, hread, fun d ↦ (hmem d).trans (hstands d), hordered.imp ?_, hordered.imp ?_⟩
    · rintro d _ hlt rfl
      cases Std.ReflCmp.compare_self.symm.trans hlt
    · intro d d' hlt
      rwa [StrictFlag.compareFields_eq]

/-- A transaction that is rolled back has nothing to say, and one that goes through has all. -/
example :
    let d : Definition := ⟨⟨"mod.ban", by decide⟩, "Ban", ""⟩
    let e : Definition := ⟨⟨"mod.kick", by decide⟩, "Kick", ""⟩
    history .empty [.define d, .transact [.undefine d.key, .giveUp (.store .badKeySize)],
      .transact [.define e, .undefine d.key]] = [.defined d, .defined e, .undefined d.key] := by
  decide +kernel

end ByteStore

end Grants
