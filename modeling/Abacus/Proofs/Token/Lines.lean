import Abacus.Proofs.Token.Lexing

/-!
# Proofs/Token/Lines — no lexeme goes beyond the end of its line

A lexeme at the front of a text is found by looking at the line it stands on: whatever follows the
end of that line, the lexeme is the same (`Lexeme.scan?_append_line`).  That holds however the line
ends, with a comment, a numeral that lacks its exponent or half a symbol.  So the tokens of two
texts with the end of a line between them are the tokens of each, with that end between them
(`tokenizes_lines`).

The line on which a text begins is seen in the places of its tokens and nowhere else, and
`Tokenizes` leaves the places out.
-/

namespace Abacus

open Decimal (isDigit)

/-! ## Scanning up to the end of a line -/

section Spans

variable {p : Char → Bool}

theorem takeWhile_append_line (hp : p '\n' = false) (a b : List Char) :
    (a ++ '\n' :: b).takeWhile p = a.takeWhile p := by
  induction a with
  | nil => simp [hp]
  | cons c a ih =>
    rw [List.cons_append, List.takeWhile_cons, List.takeWhile_cons, ih]

theorem dropWhile_append_line (hp : p '\n' = false) (a b : List Char) :
    (a ++ '\n' :: b).dropWhile p = a.dropWhile p ++ '\n' :: b := by
  induction a with
  | nil => simp [hp]
  | cons c a ih =>
    rw [List.cons_append, List.dropWhile_cons, List.dropWhile_cons]
    split
    · exact ih
    · rfl

end Spans

/-- What is found at the front of a text, when the end of a line and more text stand after it. -/
def beforeLine {α : Type} (b : List Char) : α × List Char → α × List Char
  | (x, rest) => (x, rest ++ '\n' :: b)

namespace Numeral

theorem spanFraction_append_line (a b : List Char) :
    spanFraction (a ++ '\n' :: b) = beforeLine b (spanFraction a) := by
  by_cases h : ∃ rest, a = '.' :: rest
  · obtain ⟨rest, rfl⟩ := h
    simp only [spanFraction, List.cons_append, takeWhile_append_line (p := isDigit) rfl,
      dropWhile_append_line (p := isDigit) rfl]
    split <;> rfl
  · have hne : a.head? ≠ some '.' := by
      intro hhead
      obtain ⟨rest, rfl⟩ := List.head?_eq_some_iff.mp hhead
      exact h ⟨rest, rfl⟩
    have hne' : (a ++ '\n' :: b).head? ≠ some '.' := by
      cases a with
      | nil => simp
      | cons c a => exact hne
    rw [spanFraction_of_ne hne, spanFraction_of_ne hne', beforeLine]

theorem spanSign_append_line (a b : List Char) :
    spanSign (a ++ '\n' :: b) = beforeLine b (spanSign a) := by
  fun_cases spanSign a with
  | case1 rest => rfl
  | case2 rest => rfl
  | case3 cs hplus hminus =>
    match a with
    | [] => rfl
    | c :: a =>
      rw [List.cons_append, spanSign]
      · rfl
      · rintro rest h
        exact hplus a (by rw [(List.cons.inj h).1])
      · rintro rest h
        exact hminus a (by rw [(List.cons.inj h).1])

theorem spanExponent_append_line (a b : List Char) :
    spanExponent (a ++ '\n' :: b) = beforeLine b (spanExponent a) := by
  match a with
  | [] => rfl
  | mark :: a =>
    simp only [spanExponent, List.cons_append, spanSign_append_line]
    split
    · simp only [beforeLine, takeWhile_append_line (p := isDigit) rfl,
        dropWhile_append_line (p := isDigit) rfl]
      split <;> rfl
    · rfl

theorem scan?_append_line (a b : List Char) :
    scan? (a ++ '\n' :: b) = (scan? a).map (beforeLine b) := by
  simp only [scan?, takeWhile_append_line (p := isDigit) rfl,
    dropWhile_append_line (p := isDigit) rfl, spanFraction_append_line, beforeLine,
    spanExponent_append_line]
  split <;> rfl

end Numeral

/-! ## Symbols, comments and lexemes -/

section Fronts

variable {a : List Char} {c d : Char}

/-- A text that does not begin with a certain character does not begin with it before the end of a
line either. -/
theorem not_front_append_line (hc : c ≠ '\n') (h : ∀ cs, a = c :: cs → False) (b : List Char) :
    ∀ cs, a ++ '\n' :: b = c :: cs → False := by
  intro cs heq
  match a with
  | [] => exact hc (List.cons.inj heq).1.symm
  | c' :: a => exact h a (congrArg (· :: a) (List.cons.inj heq).1)

theorem not_front_two_append_line (hc : c ≠ '\n') (hd : d ≠ '\n')
    (h : ∀ cs, a = c :: d :: cs → False) (b : List Char) :
    ∀ cs, a ++ '\n' :: b = c :: d :: cs → False := by
  intro cs heq
  match a with
  | [] => exact hc (List.cons.inj heq).1.symm
  | c' :: a =>
    obtain ⟨rfl, htail⟩ := List.cons.inj heq
    exact not_front_append_line hd (fun cs' h' => h cs' (congrArg (c' :: ·) h')) b cs htail

end Fronts

theorem Symbol.scan?_append_line (a b : List Char) :
    scan? (a ++ '\n' :: b) = (scan? a).map (beforeLine b) := by
  fun_cases scan? a
  case case23 =>
    rw [scan?]
    · rfl
    all_goals
      first
      | exact not_front_append_line (by decide) ‹_› b
      | exact not_front_two_append_line (by decide) (by decide) ‹_› b
  all_goals try rfl
  -- the symbols that begin a longer one
  all_goals
    rw [List.cons_append, scan?]
    · rfl
    all_goals exact not_front_append_line (by decide) ‹_› b

/-- **A lexeme is found on its line**, whatever follows the end of the line. -/
theorem Lexeme.scan?_append_line {a : List Char} (ha : a ≠ []) (b : List Char) :
    scan? (a ++ '\n' :: b) = (scan? a).map (beforeLine b) := by
  fun_cases scan? a with
  | case1 => exact absurd rfl ha
  | case2 cs => rfl
  | case3 cs =>
    simp only [List.cons_append, scan?, dropWhile_append_line (p := (!endsComment ·)) rfl]
    rfl
  | case4 c cs hnewLine hcomment hblank =>
    rw [List.cons_append, scan?_of_not_comment hnewLine (hcomment' hcomment), if_pos hblank,
      dropWhile_append_line (p := isBlank) rfl]
    rfl
  | case5 c cs hnewLine hcomment hblank hstart =>
    rw [List.cons_append, scan?_of_not_comment hnewLine (hcomment' hcomment), if_neg hblank,
      if_pos hstart, takeWhile_append_line (p := isIdentifierRest) rfl,
      dropWhile_append_line (p := isIdentifierRest) rfl]
    rfl
  | case6 c cs hnewLine hcomment hblank hstart n rest hscan =>
    rw [List.cons_append, scan?_of_not_comment hnewLine (hcomment' hcomment), if_neg hblank,
      if_neg hstart, ← List.cons_append, Numeral.scan?_append_line, hscan]
    rfl
  | case7 c cs hnewLine hcomment hblank hstart hscan =>
    rw [List.cons_append, scan?_of_not_comment hnewLine (hcomment' hcomment), if_neg hblank,
      if_neg hstart, ← List.cons_append, Numeral.scan?_append_line, hscan,
      Symbol.scan?_append_line]
    simp only [Option.map_none, Option.map_map]
    rfl
where
  hcomment' {c : Char} {cs : List Char} (h : ∀ cs', c = '/' → cs = '/' :: cs' → False) :
      ∀ cs', c = '/' → cs ++ '\n' :: b = '/' :: cs' → False :=
    fun cs' hc => not_front_append_line (by decide) (fun cs'' => h cs'' hc) b cs'

/-! ## Texts and their tokens -/

/-- **The tokens of a text**, wherever it begins. -/
def Tokenizes (cs : List Char) (word : List Token) : Prop :=
  ∀ line, ∃ ts, tokenizeFrom line cs = .ok ts ∧ ts.map (·.token) = word

/-- A text has the same tokens on every line. -/
theorem tokenizes_of_tokenizeFrom {line : Nat} {cs : List Char} {ts : List PlacedToken}
    (h : tokenizeFrom line cs = .ok ts) : Tokenizes cs (ts.map (·.token)) := by
  intro line'
  cases hscan : Lexeme.scan? cs with
  | none =>
    obtain ⟨rfl, rfl⟩ := (tokenizeFrom_eq_ok_of_none hscan).mp h
    exact ⟨[], tokenizeFrom_nil line', rfl⟩
  | some found =>
    obtain ⟨lexeme, rest⟩ := found
    have hlt := Lexeme.length_lt_of_scan? hscan
    obtain ⟨hallowed, ts', hts', rfl⟩ := (tokenizeFrom_eq_ok_iff hscan).mp h
    obtain ⟨us, hus, heq⟩ := tokenizes_of_tokenizeFrom hts' (lexeme.lineAfter line')
    refine ⟨_, (tokenizeFrom_eq_ok_iff hscan).mpr ⟨hallowed, us, hus, rfl⟩, ?_⟩
    rw [List.map_append, List.map_append, map_token_placed, map_token_placed, heq]
termination_by cs.length

theorem tokenizes_nil {word : List Token} : Tokenizes [] word ↔ word = [] := by
  constructor
  · intro h
    obtain ⟨ts, hts, rfl⟩ := h 1
    obtain rfl := Except.ok.inj ((tokenizeFrom_nil 1).symm.trans hts)
    rfl
  · rintro rfl line
    exact ⟨[], tokenizeFrom_nil line, rfl⟩

theorem not_tokenizes_of_none {cs : List Char} (h : Lexeme.scan? cs = none) (hcs : cs ≠ [])
    {word : List Token} : ¬ Tokenizes cs word := by
  intro htokens
  obtain ⟨ts, hts, -⟩ := htokens 1
  exact hcs ((tokenizeFrom_eq_ok_of_none h).mp hts).1

/-- **The tokens of a text are those of its first lexeme and those of the rest.** -/
theorem tokenizes_iff {cs rest : List Char} {lexeme : Lexeme}
    (h : Lexeme.scan? cs = some (lexeme, rest)) {word : List Token} :
    Tokenizes cs word ↔
      lexeme.Allowed ∧ ∃ word', Tokenizes rest word' ∧ word = lexeme.tokens ++ word' := by
  constructor
  · intro htokens
    obtain ⟨ts, hts, rfl⟩ := htokens 1
    obtain ⟨hallowed, ts', hts', rfl⟩ := (tokenizeFrom_eq_ok_iff h).mp hts
    refine ⟨hallowed, _, tokenizes_of_tokenizeFrom hts', ?_⟩
    rw [List.map_append, map_token_placed]
  · rintro ⟨hallowed, word', hword', rfl⟩ line
    obtain ⟨ts', hts', rfl⟩ := hword' (lexeme.lineAfter line)
    refine ⟨_, (tokenizeFrom_eq_ok_iff h).mpr ⟨hallowed, ts', hts', rfl⟩, ?_⟩
    rw [List.map_append, map_token_placed]

/-- **The tokens of two texts with the end of a line between them** are those of each, with that end
between them. -/
theorem tokenizes_lines {a b : List Char} {word : List Token} :
    Tokenizes (a ++ '\n' :: b) word ↔
      ∃ u v, Tokenizes a u ∧ Tokenizes b v ∧ word = u ++ .newLine :: v := by
  by_cases ha : a = []
  · subst ha
    have hscan : Lexeme.scan? ('\n' :: b) = some (.newLine, b) := rfl
    simp [tokenizes_iff hscan, tokenizes_nil, Lexeme.Allowed, Lexeme.tokens]
  · have happend := Lexeme.scan?_append_line ha b
    cases hscan : Lexeme.scan? a with
    | none =>
      rw [hscan] at happend
      refine iff_of_false (not_tokenizes_of_none happend (by simp)) ?_
      rintro ⟨u, v, hu, -⟩
      exact not_tokenizes_of_none hscan ha hu
    | some found =>
      obtain ⟨lexeme, rest⟩ := found
      have hlt := Lexeme.length_lt_of_scan? hscan
      rw [hscan] at happend
      rw [tokenizes_iff happend]
      constructor
      · rintro ⟨hallowed, word', hword', rfl⟩
        obtain ⟨u, v, hu, hv, rfl⟩ := tokenizes_lines.mp hword'
        refine ⟨lexeme.tokens ++ u, v, (tokenizes_iff hscan).mpr ⟨hallowed, u, hu, rfl⟩, hv, ?_⟩
        rw [List.append_assoc]
      · rintro ⟨u, v, hu, hv, rfl⟩
        obtain ⟨hallowed, u', hu', rfl⟩ := (tokenizes_iff hscan).mp hu
        refine ⟨hallowed, _, tokenizes_lines.mpr ⟨u', v, hu', hv, rfl⟩, ?_⟩
        rw [List.append_assoc]
termination_by a.length

end Abacus
