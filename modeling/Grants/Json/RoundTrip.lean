import Grants.Json.Parser
import Grants.Json.Printer

/-!
# Reading back what is written

A value of natural numbers, texts, lists and objects is read back from its text
(`parse?_toText`).  The text is cut into the tokens of the value whatever follows
it (`Token.lexFrom_render`), and the tokens of a value put the value together
whatever is open around it (`Parser.foldlM_tokens`).
-/

namespace Grants.Json

mutual
/-- Are all numbers naturals, and all strings texts? -/
def Plain : Json → Prop
  | .null | .bool _ | .str _ => True
  | .num n => ∃ k, n = .ofNat k
  | .garbled => False
  | .arr items => PlainItems items
  | .obj members => PlainMembers members

def PlainItems : List Json → Prop
  | [] => True
  | v :: vs => v.Plain ∧ PlainItems vs

def PlainMembers : List (String × Json) → Prop
  | [] => True
  | (_, v) :: ms => v.Plain ∧ PlainMembers ms
end

mutual
/-- The tokens of a value. -/
def tokens : Json → List Token
  | .arr items => .openArray :: tokensItems items ++ [.closeArray]
  | .obj members => .openObject :: tokensMembers members ++ [.closeObject]
  | .null => [.value .null]
  | .bool b => [.value (.bool b)]
  | .num n => [.value (.num n)]
  | .str s => [.value (.str s)]
  | .garbled => [.value .garbled]

def tokensItems : List Json → List Token
  | [] => []
  | [v] => v.tokens
  | v :: w :: vs => v.tokens ++ .comma :: tokensItems (w :: vs)

def tokensMembers : List (String × Json) → List Token
  | [] => []
  | [(k, v)] => .value (.str k) :: .colon :: v.tokens
  | (k, v) :: m :: ms =>
    .value (.str k) :: .colon :: v.tokens ++ .comma :: tokensMembers (m :: ms)
end

namespace Token

/-! ## Single steps -/

theorem lexFrom_cons {c : Char} {mode mode' : Mode} {ts : List Token}
    (h : step c mode = some (ts, mode')) (cs : List Char) :
    lexFrom mode (c :: cs) = (lexFrom mode' cs).map (ts ++ ·) := by
  rw [lexFrom, h]
  cases h' : lexFrom mode' cs <;> simp [h']

theorem lexFrom_cons_nil {c : Char} {mode m : Mode} (h : step c mode = some ([], m))
    (cs : List Char) : lexFrom mode (c :: cs) = lexFrom m cs := by
  rw [lexFrom_cons h]
  cases lexFrom m cs <;> rfl

/-- Nothing that follows continues a word or a number. -/
def Ends (cs : List Char) : Prop := ∀ c ∈ cs.head?, c.isLower = false ∧ isNumberChar c = false

theorem ends_cons {c : Char} (h : c.isLower = false ∧ isNumberChar c = false) (cs : List Char) :
    Ends (c :: cs) := by
  intro d hd
  cases hd
  exact h

theorem bind_startAfter (t : Token) (c : Char) (cs : List Char) :
    (do
      let (ts, mode) ← startAfter (some t) c
      let rest ← lexFrom mode cs
      return ts ++ rest) = (lexFrom .between (c :: cs)).map (t :: ·) := by
  rw [lexFrom, step, startAfter]
  cases start c with
  | none => rfl
  | some r =>
    obtain ⟨ts, mode⟩ := r
    cases h : lexFrom mode cs <;> simp [h]

theorem lexFrom_word {read : List Char} {t : Token} (ht : finishWord read = some t)
    {cs : List Char} (hcs : Ends cs) :
    lexFrom (.word read) cs = (lexFrom .between cs).map (t :: ·) := by
  cases cs with
  | nil => simp [lexFrom, finish, ht]
  | cons c cs =>
    rw [lexFrom, step, (hcs c rfl).1, ht]
    exact bind_startAfter t c cs

theorem lexFrom_number {read : List Char} {t : Token} (ht : finishNumber read = some t)
    {cs : List Char} (hcs : Ends cs) :
    lexFrom (.number read) cs = (lexFrom .between cs).map (t :: ·) := by
  cases cs with
  | nil => simp [lexFrom, finish, ht]
  | cons c cs =>
    rw [lexFrom, step, (hcs c rfl).2, ht]
    exact bind_startAfter t c cs

theorem lexFrom_letters (read : List Char) {w : List Char} (h : ∀ c ∈ w, c.isLower = true)
    (cs : List Char) :
    lexFrom (.word read) (w ++ cs) = lexFrom (.word (w.reverse ++ read)) cs := by
  induction w generalizing read with
  | nil => rfl
  | cons c w ih =>
    rw [List.cons_append, lexFrom_cons_nil (m := .word (c :: read)) (by simp [step, h c]),
      ih _ fun d hd ↦ h d (List.mem_cons_of_mem _ hd), List.reverse_cons, List.append_assoc]
    rfl

/-- A word of letters is read as the token that it spells. -/
theorem lexFrom_literal {c : Char} {w : List Char} {t : Token}
    (hc : step c .between = some ([], .word [c])) (hw : w.all Char.isLower = true)
    (ht : finishWord (w.reverse ++ [c]) = some t) {cs : List Char} (hcs : Ends cs) :
    lexFrom .between (c :: w ++ cs) = (lexFrom .between cs).map (t :: ·) := by
  rw [List.cons_append, lexFrom_cons_nil hc, lexFrom_letters _ (List.all_eq_true.mp hw),
    lexFrom_word ht hcs]

/-! ## Numbers -/

theorem head?_digits_ne_zero {n : Nat} (hn : n ≠ 0) : (Numeral.digits n).head? ≠ some '0' := by
  induction n using Nat.strongRecOn with
  | ind n ih =>
    rw [Numeral.digits]
    by_cases h : n < 10
    · have hall : ∀ m < 10, m ≠ 0 → [m.digitChar].head? ≠ some '0' := by decide
      rw [Nat.toDigits_of_lt_base h]
      exact hall n h hn
    · rw [Nat.toDigits_of_base_le (by decide) (Nat.le_of_not_lt h), List.head?_append]
      have := ih (n / 10) (by omega) (by omega)
      obtain ⟨d, ds, hd⟩ := List.exists_cons_of_ne_nil (Nat.toDigits_ne_nil (b := 10) (n := n / 10))
      rw [Numeral.digits, hd] at this
      rw [hd]
      exact this

theorem isWhole_digits (n : Nat) : isWhole (Numeral.digits n) = true := by
  rw [isWhole, Numeral.isNumeral_digits, Bool.true_and]
  by_cases hn : n = 0
  · subst hn
    decide
  · simp [head?_digits_ne_zero hn]

theorem isDigit_of_mem_digits {n : Nat} {c : Char} (h : c ∈ Numeral.digits n) :
    c.isDigit = true := Nat.isDigit_of_mem_toDigits (by decide) (by decide) h

theorem number?_digits (n : Nat) : number? (Numeral.digits n) = some (.ofNat n) := by
  have hall : ∀ c ∈ Numeral.digits n, c.isDigit = true := fun c ↦ isDigit_of_mem_digits
  have hwhole := isWhole_digits n
  have hneg : ∀ cs, Numeral.digits n ≠ '-' :: cs := by
    intro cs h
    have := hall '-' (h ▸ List.mem_cons_self)
    exact absurd this (by decide)
  have htake : (Numeral.digits n).takeWhile Char.isDigit = Numeral.digits n := by
    simpa using @List.takeWhile_append_of_pos _ Char.isDigit (Numeral.digits n) [] hall
  have hdrop : (Numeral.digits n).dropWhile Char.isDigit = [] := by
    simpa using @List.dropWhile_append_of_pos _ Char.isDigit (Numeral.digits n) [] hall
  unfold number?
  split
  next negative cs heq =>
  split at heq
  · next cs' h => exact absurd h (hneg cs')
  · cases heq
    simp only [htake, hdrop, hwhole, Bool.not_true, Bool.false_eq_true, if_false]
    rfl

theorem lexFrom_digits (read : List Char) {ds : List Char} (h : ∀ c ∈ ds, c.isDigit = true)
    (cs : List Char) :
    lexFrom (.number read) (ds ++ cs) = lexFrom (.number (ds.reverse ++ read)) cs := by
  induction ds generalizing read with
  | nil => rfl
  | cons d ds ih =>
    have hd : isNumberChar d = true := by simp [isNumberChar, h d]
    rw [List.cons_append, lexFrom_cons_nil (m := .number (d :: read)) (by simp [step, hd]),
      ih _ fun c hc ↦ h c (List.mem_cons_of_mem _ hc), List.reverse_cons, List.append_assoc]
    rfl

theorem step_digit {c : Char} (h : c.isDigit = true) :
    step c .between = some ([], .number [c]) := by
  have hspace : isSpace c = false := by
    rw [Bool.eq_false_iff]
    intro hs
    simp only [isSpace, Bool.or_eq_true, beq_iff_eq] at hs
    rcases hs with ((rfl | rfl) | rfl) | rfl <;> exact absurd h (by decide)
  have hlower : c.isLower = false := by
    simp only [Char.isDigit, Bool.and_eq_true, decide_eq_true_eq] at h
    change (decide (c.val ≥ 'a'.val) && decide (c.val ≤ 'z'.val)) = false
    rw [Bool.and_eq_false_iff, decide_eq_false_iff_not]
    exact .inl fun hc ↦ absurd (UInt32.le_trans hc h.2) (by decide)
  simp [step, start, hspace, hlower, h]

theorem lexFrom_ofNat (n : Nat) {cs : List Char} (hcs : Ends cs) :
    lexFrom .between ((Number.ofNat n).render ++ cs) =
      (lexFrom .between cs).map (.value (.num (.ofNat n)) :: ·) := by
  have hrender : (Number.ofNat n).render = Numeral.digits n := by simp [Number.render, Number.ofNat]
  have hall : ∀ c ∈ Numeral.digits n, c.isDigit = true := fun c ↦ isDigit_of_mem_digits
  obtain ⟨d, ds, hds⟩ := List.exists_cons_of_ne_nil (Nat.toDigits_ne_nil (b := 10) (n := n))
  rw [← Numeral.digits] at hds
  have hfinish : finishNumber (ds.reverse ++ [d]) = some (.value (.num (.ofNat n))) := by
    rw [finishNumber, List.reverse_append, List.reverse_reverse, List.reverse_singleton,
      List.singleton_append, ← hds, number?_digits]
    rfl
  rw [hrender, hds, List.cons_append,
    lexFrom_cons_nil (m := .number [d]) (step_digit (hall d (hds ▸ List.mem_cons_self))),
    lexFrom_digits [d] (fun c hc ↦ hall c (hds ▸ List.mem_cons_of_mem _ hc)),
    lexFrom_number hfinish hcs]

/-! ## Strings -/

end Token

/-- Does a piece of a string literal stand for a character, whatever follows it? -/
def Piece.Denotes (p : Piece) (c : Char) : Prop :=
  ∀ ps, text? (p :: ps) = (text? ps).map (c :: ·)

namespace Piece.Denotes

theorem char (c : Char) : (Piece.char c).Denotes c := fun _ ↦ by rw [text?]

theorem unit {c : Char} (h : c.toNat < 0x20) : (Piece.unit c.toNat).Denotes c := by
  intro ps
  have hhigh : isHigh c.toNat = false := by rw [isHigh, decide_eq_false_iff_not]; omega
  have hlow : isLow c.toNat = false := by rw [isLow, decide_eq_false_iff_not]; omega
  rw [text?.eq_def]
  simp [hhigh, hlow]

end Piece.Denotes

namespace Token

theorem hexDigit?_digitChar {n : Nat} (h : n < 16) : hexDigit? n.digitChar = some n := by
  revert n
  decide

theorem lexFrom_escape (read : List Piece) (c : Char) (cs : List Char) :
    ∃ p : Piece, p.Denotes c ∧
      lexFrom (.string read) (escape c ++ cs) = lexFrom (.string (p :: read)) cs := by
  have short {d e : Char} (hd : d ≠ 'u') (he : escaped? d = some e) :
      lexFrom (.string read) ('\\' :: d :: cs) = lexFrom (.string (.char e :: read)) cs := by
    rw [lexFrom_cons_nil (m := .escape read) (by simp [step]),
      lexFrom_cons_nil (m := .string (.char e :: read)) (by simp [step, hd, he])]
  unfold escape
  split
  · exact ⟨_, .char _, short (by decide) rfl⟩
  · exact ⟨_, .char _, short (by decide) rfl⟩
  · exact ⟨_, .char _, short (by decide) rfl⟩
  · exact ⟨_, .char _, short (by decide) rfl⟩
  · exact ⟨_, .char _, short (by decide) rfl⟩
  · exact ⟨_, .char _, short (by decide) rfl⟩
  · exact ⟨_, .char _, short (by decide) rfl⟩
  · next hquote hslash _ _ _ _ _ =>
    split
    · next hc =>
      refine ⟨_, .unit hc, ?_⟩
      have hhigh := hexDigit?_digitChar (n := c.toNat / 16) (by omega)
      have hlow := hexDigit?_digitChar (n := c.toNat % 16) (by omega)
      have hsum : 16 * (16 * (16 * (16 * 0 + 0) + 0) + c.toNat / 16) + c.toNat % 16 = c.toNat := by
        omega
      simp only [List.cons_append, List.nil_append]
      rw [lexFrom_cons_nil (m := .escape read) (by simp [step]),
        lexFrom_cons_nil (m := .hex read 4 0) (by simp [step]),
        lexFrom_cons_nil (m := .hex read 3 (16 * 0 + 0)) (by simp only [step]; rfl),
        lexFrom_cons_nil (m := .hex read 2 (16 * (16 * 0 + 0) + 0)) (by simp only [step]; rfl),
        lexFrom_cons_nil (by simp only [step, hhigh]; rfl),
        lexFrom_cons_nil (by simp only [step, hlow]; rfl), hsum]
    · next hc =>
      refine ⟨_, .char _, ?_⟩
      rw [List.singleton_append, lexFrom_cons_nil]
      simp [step, hc, show ¬ c = '"' from hquote, show ¬ c = '\\' from hslash]

theorem lexFrom_escapes (read : List Piece) (s cs : List Char) :
    ∃ ps, Piece.text? ps = some s ∧
      lexFrom (.string read) (s.flatMap escape ++ cs) =
        lexFrom (.string (ps.reverse ++ read)) cs := by
  induction s generalizing read with
  | nil => exact ⟨[], rfl, rfl⟩
  | cons c s ih =>
    obtain ⟨p, hp, hlex⟩ := lexFrom_escape read c (s.flatMap escape ++ cs)
    obtain ⟨ps, hps, hrest⟩ := ih (p :: read)
    refine ⟨p :: ps, by rw [hp, hps]; rfl, ?_⟩
    rw [List.flatMap_cons, List.append_assoc, hlex, hrest, List.reverse_cons, List.append_assoc]
    rfl

theorem lexFrom_quoted (s : String) (cs : List Char) :
    lexFrom .between (quoted s ++ cs) = (lexFrom .between cs).map (.value (.str s) :: ·) := by
  obtain ⟨ps, hps, hlex⟩ := lexFrom_escapes [] s.toList ('"' :: cs)
  have hstring : ofString (ps.reverse ++ []) = .value (.str s) := by
    rw [ofString, List.append_nil, List.reverse_reverse, hps]
    simp
  have hclose : step '"' (.string (ps.reverse ++ [])) =
      some ([ofString (ps.reverse ++ [])], .between) := by simp [step]
  rw [quoted, List.cons_append, List.cons_append,
    lexFrom_cons_nil (m := .string []) rfl, List.append_assoc, List.singleton_append,
    hlex, lexFrom_cons hclose, hstring]
  rfl

/-! ## Values -/

theorem ends_of_delimiter {c : Char} (h : c = ',' ∨ c = ':' ∨ c = ']' ∨ c = '}') (cs : List Char) :
    Ends (c :: cs) := by
  refine ends_cons ?_ cs
  rcases h with rfl | rfl | rfl | rfl <;> decide

theorem lexFrom_delimiter {c : Char} {t : Token} (h : step c .between = some ([t], .between))
    (cs : List Char) : lexFrom .between (c :: cs) = (lexFrom .between cs).map (t :: ·) :=
  lexFrom_cons h cs

mutual
theorem lexFrom_render : ∀ (v : Json), v.Plain → ∀ {cs : List Char}, Ends cs →
    lexFrom .between (v.render ++ cs) = (lexFrom .between cs).map (v.tokens ++ ·)
  | .null, _, cs, hcs => by
    rw [render, tokens]
    exact lexFrom_literal rfl rfl rfl hcs
  | .bool true, _, cs, hcs => by
    rw [render, tokens]
    exact lexFrom_literal rfl rfl rfl hcs
  | .bool false, _, cs, hcs => by
    rw [render, tokens]
    exact lexFrom_literal rfl rfl rfl hcs
  | .num n, h, cs, hcs => by
    rw [Plain] at h
    obtain ⟨k, rfl⟩ := h
    exact lexFrom_ofNat k hcs
  | .str s, _, cs, _ => lexFrom_quoted s cs
  | .garbled, h, _, _ => by
    rw [Plain] at h
    exact h.elim
  | .arr items, h, cs, _ => by
    rw [Plain] at h
    rw [render, tokens, List.cons_append, List.cons_append, List.append_assoc,
      List.singleton_append, lexFrom_delimiter rfl, lexFrom_renderItems items h,
      lexFrom_delimiter rfl]
    simp [Option.map_map, Function.comp_def]
  | .obj members, h, cs, _ => by
    rw [Plain] at h
    rw [render, tokens, List.cons_append, List.cons_append, List.append_assoc,
      List.singleton_append, lexFrom_delimiter rfl, lexFrom_renderMembers members h,
      lexFrom_delimiter rfl]
    simp [Option.map_map, Function.comp_def]

theorem lexFrom_renderItems : ∀ (vs : List Json), PlainItems vs → ∀ {cs : List Char},
    lexFrom .between (renderItems vs ++ ']' :: cs) =
      (lexFrom .between (']' :: cs)).map (tokensItems vs ++ ·)
  | [], _, cs => by
    rw [renderItems, tokensItems]
    simp
  | [v], h, cs => by
    rw [PlainItems] at h
    rw [renderItems, tokensItems]
    exact lexFrom_render v h.1 (ends_of_delimiter (by simp) cs)
  | v :: w :: vs, h, cs => by
    rw [PlainItems] at h
    rw [renderItems, tokensItems, List.append_assoc, List.cons_append,
      lexFrom_render v h.1 (ends_of_delimiter (by simp) _), lexFrom_delimiter rfl,
      lexFrom_renderItems (w :: vs) h.2]
    simp [Option.map_map, Function.comp_def]

theorem lexFrom_renderMembers : ∀ (ms : List (String × Json)), PlainMembers ms →
    ∀ {cs : List Char}, lexFrom .between (renderMembers ms ++ '}' :: cs) =
      (lexFrom .between ('}' :: cs)).map (tokensMembers ms ++ ·)
  | [], _, cs => by
    rw [renderMembers, tokensMembers]
    simp
  | [(k, v)], h, cs => by
    rw [PlainMembers] at h
    rw [renderMembers, tokensMembers, List.append_assoc, List.cons_append, lexFrom_quoted,
      lexFrom_delimiter rfl, lexFrom_render v h.1 (ends_of_delimiter (by simp) cs)]
    simp [Option.map_map, Function.comp_def]
  | (k, v) :: m :: ms, h, cs => by
    rw [PlainMembers] at h
    rw [renderMembers, tokensMembers, List.append_assoc, List.append_assoc, List.cons_append,
      List.cons_append, lexFrom_quoted, lexFrom_delimiter rfl,
      lexFrom_render v h.1 (ends_of_delimiter (by simp) _), lexFrom_delimiter rfl,
      lexFrom_renderMembers (m :: ms) h.2]
    simp [Option.map_map, Function.comp_def]
end

theorem lex_render {v : Json} (h : v.Plain) : lex v.render = some v.tokens := by
  have hends : Ends [] := by simp [Ends]
  have := lexFrom_render v h hends
  rw [List.append_nil] at this
  rw [lex, this, lexFrom, finish]
  simp

end Token

namespace Parser

theorem foldlM_cons {s s' : State} {t : Token} (h : step s t = some s') (ts : List Token) :
    (t :: ts).foldlM step s = ts.foldlM step s' := by
  rw [List.foldlM_cons, h]
  rfl

theorem foldlM_append {s s' : State} {ts : List Token} (h : ts.foldlM step s = some s')
    (us : List Token) : (ts ++ us).foldlM step s = us.foldlM step s' := by
  rw [List.foldlM_append, h]
  rfl

theorem step_name (stack : List Frame) (read : Members) (name : String) :
    step ⟨stack, .name read⟩ (.value (.str name)) = some ⟨stack, .colon read (some name)⟩ := by
  cases read <;> rfl

/-- A member whose name is a text. -/
def withName (m : String × Json) : Option String × Json := (some m.1, m.2)

theorem object_map_withName (ms : List (String × Json)) : object (ms.map withName) = .obj ms := by
  have hread : (ms.map withName).mapM named? = some ms := by
    induction ms with
    | nil => rfl
    | cons m ms ih =>
      rw [List.map_cons, List.mapM_cons, ih]
      rfl
  rw [object, hread]
  rfl

mutual
theorem foldlM_tokens : ∀ (v : Json), v.Plain → ∀ stack : List Frame,
    v.tokens.foldlM step ⟨stack, .value⟩ = some ⟨stack, .done v⟩
  | .null, _, stack => by rw [tokens]; rfl
  | .bool b, _, stack => by rw [tokens]; rfl
  | .num n, _, stack => by rw [tokens]; rfl
  | .str s, _, stack => by rw [tokens]; rfl
  | .garbled, h, stack => by rw [Plain] at h; exact h.elim
  | .arr [], _, stack => by rw [tokens, tokensItems]; rfl
  | .arr (v :: vs), h, stack => by
    rw [Plain] at h
    rw [tokens, List.cons_append, foldlM_cons rfl, foldlM_tokensItems (v :: vs) (by simp) h]
    rfl
  | .obj [], _, stack => by rw [tokens, tokensMembers]; rfl
  | .obj (m :: ms), h, stack => by
    rw [Plain] at h
    rw [tokens, List.cons_append, foldlM_cons rfl]
    exact foldlM_tokensMembers (m :: ms) (by simp) h [] stack

theorem foldlM_tokensItems : ∀ vs : List Json, vs ≠ [] → PlainItems vs →
    ∀ (read : List Json) (stack : List Frame),
      (tokensItems vs ++ [Token.closeArray]).foldlM step ⟨.arr read :: stack, .value⟩ =
        some ⟨stack, .done (.arr (read.reverse ++ vs))⟩
  | [], hne, _, _, _ => absurd rfl hne
  | [v], _, h, read, stack => by
    rw [PlainItems] at h
    rw [tokensItems, foldlM_append (foldlM_tokens v h.1 _), foldlM_cons rfl, List.reverse_cons]
    rfl
  | v :: w :: vs, _, h, read, stack => by
    rw [PlainItems] at h
    rw [tokensItems, List.append_assoc, foldlM_append (foldlM_tokens v h.1 _), List.cons_append,
      foldlM_cons rfl, foldlM_tokensItems (w :: vs) (by simp) h.2, List.reverse_cons, List.append_assoc]
    rfl

theorem foldlM_tokensMembers : ∀ ms : List (String × Json), ms ≠ [] → PlainMembers ms →
    ∀ (read : List (String × Json)) (stack : List Frame),
      (tokensMembers ms ++ [Token.closeObject]).foldlM step ⟨stack, .name (read.map withName)⟩ =
        some ⟨stack, .done (.obj (read.reverse ++ ms))⟩
  | [], hne, _, _, _ => absurd rfl hne
  | [(k, v)], _, h, read, stack => by
    rw [PlainMembers] at h
    have hobject := object_map_withName (read.reverse ++ [(k, v)])
    rw [List.map_append, List.map_reverse] at hobject
    rw [tokensMembers, List.cons_append, foldlM_cons (step_name ..), List.cons_append,
      foldlM_cons rfl, foldlM_append (foldlM_tokens v h.1 _), foldlM_cons rfl, List.reverse_cons,
      ← hobject]
    rfl
  | (k, v) :: m :: ms, _, h, read, stack => by
    rw [PlainMembers] at h
    rw [tokensMembers, List.append_assoc, List.cons_append, foldlM_cons (step_name ..),
      List.cons_append, foldlM_cons rfl, foldlM_append (foldlM_tokens v h.1 _), List.cons_append,
      foldlM_cons rfl]
    refine (foldlM_tokensMembers (m :: ms) (by simp) h.2 ((k, v) :: read) stack).trans ?_
    rw [List.reverse_cons, List.append_assoc]
    rfl
end

theorem run_tokens {v : Json} (h : v.Plain) : run v.tokens = some v := by
  rw [run, foldlM_tokens v h]
  rfl

end Parser

/-- A value is read back from its text. -/
theorem parse?_toText {v : Json} (h : v.Plain) : parse? v.toText = some v := by
  rw [parse?, toText, String.toList_ofList, Token.lex_render h]
  exact Parser.run_tokens h

end Grants.Json
