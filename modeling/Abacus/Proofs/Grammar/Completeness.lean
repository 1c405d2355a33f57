import Abacus.Proofs.Grammar.Reading
import Abacus.Proofs.Grammar.Unambiguous

/-!
# Proofs/Grammar/Completeness — what is derivable is read

The routine of a nonterminal reads the word of each of its derivations whose calls bind, and answers
what the derivation denotes, if it could not have gone on: `Derivation.parsed`.  The induction is on
the derivation; the token after it is what makes each routine stop, or turn to the right
alternative.
-/

namespace Abacus.Grammar

/-! ## The next token -/

theorem next?_eq_head? (ts : List PlacedToken) : next? ts = (ts.map (·.token)).head? :=
  List.head?_map.symm

theorem Loose.next?_ne {k : Nat} {rest : List PlacedToken} (h : Loose k (rest.map (·.token)))
    {t : Token} (ht : t.looseness ≤ k) : next? rest ≠ some t := by
  rw [next?_eq_head?]
  exact h.head?_ne ht

theorem Loose.joiner?_eq_none {l : Level} {rest : List PlacedToken}
    (h : Loose (2 + l.depth) (rest.map (·.token))) : ∀ t ∈ next? rest, t.joiner? l = none := by
  intro t ht
  rw [next?_eq_head?] at ht
  refine Option.eq_none_iff_forall_ne_some.mpr fun form hform => ?_
  obtain ⟨s, rfl, hs⟩ := Token.joiner?_eq_some_iff.mp hform
  have := h _ ht
  rw [Level.looseness_symbol hs] at this
  exact Nat.lt_irrefl _ this

theorem signed?_eq_none {t : Token} (h : startsPrimary t = true) : t.signed? = none := by
  refine Option.eq_none_iff_forall_ne_some.mpr fun f hf => ?_
  obtain ⟨sign, rfl, -⟩ := Token.signed?_eq_some_iff.mp hf
  revert h
  cases sign <;> decide

/-- The next token of a word is its first one. -/
theorem mem_next?_append {used rest : List PlacedToken} {ts : List Token}
    (hused : used.map (·.token) = ts) {t : Token} (ht : t ∈ ts.head?) :
    t ∈ next? (used ++ rest) := by
  rw [next?_eq_head?, List.map_append, hused]
  exact head?_append_of_mem ht

/-- Arguments are followed by a closing parenthesis. -/
theorem exists_rightParen {rest : List PlacedToken}
    (h : (rest.map (·.token)).head? = some (.symbol .rightParen)) :
    ∃ line rest', rest = ⟨.symbol .rightParen, line⟩ :: rest' := by
  match rest with
  | ⟨k, line⟩ :: rest' =>
    obtain rfl : k = .symbol .rightParen := Option.some.inj h
    exact ⟨line, rest', rfl⟩

/-- A word with a closing parenthesis at its end. -/
theorem exists_close {used : List PlacedToken} {ts : List Token}
    (h : used.map (·.token) = ts ++ [.symbol .rightParen]) :
    ∃ inside line, used = inside ++ [⟨.symbol .rightParen, line⟩] ∧
      inside.map (·.token) = ts := by
  obtain ⟨inside, close, rfl, hinside, hclose⟩ := List.map_eq_append_iff.mp h
  obtain ⟨⟨_, line⟩, _, rfl, rfl, hnil⟩ := List.map_eq_cons_iff.mp hclose
  obtain rfl := List.map_eq_nil_iff.mp hnil
  exact ⟨inside, line, rfl, hinside⟩

/-! ## Derivations are parsed -/

/-- **The routine of a nonterminal reads `x` off `ts` and leaves `rest`.**  The routines for
arguments take the closing parenthesis along, which is not part of the nonterminal. -/
def Nonterminal.Parses :
    (n : Nonterminal) → List PlacedToken → n.Meaning → List PlacedToken → Prop
  | .level l, ts, e, rest => Reads (parseLevel l ts) e rest
  | .operand l, ts, e, rest => Reads (parseOperand l ts) e rest
  | .tail l, ts, f, rest => ∀ lhs, Reads (parseMore l lhs ts) (f lhs) rest
  | .unary, ts, e, rest => Reads (parseUnary ts) e rest
  | .power, ts, e, rest => Reads (parsePower ts) e rest
  | .factorials, ts, e, rest => ReadsFactorials ts e rest
  | .primary, ts, e, rest => Reads (parsePrimary ts) e rest
  | .arguments, ts, args, rest =>
    ∃ line rest', rest = ⟨.symbol .rightParen, line⟩ :: rest' ∧ Reads (parseArguments ts) args rest'
  | .argumentList, ts, args, rest =>
    ∃ line rest', rest = ⟨.symbol .rightParen, line⟩ :: rest' ∧
      Reads (parseArgumentList ts) args rest'

namespace Derivation

/-- The routine of its nonterminal reads a derivation off its word, whatever follows that ends it.
-/
def Parsed {n : Nonterminal} (d : Derivation n) : Prop :=
  ∀ used rest : List PlacedToken, used.map (·.token) = d.tokens →
    n.EndsBefore (rest.map (·.token)) → n.Parses (used ++ rest) d.meaning rest

theorem Parsed.level {l : Level} {first : Derivation (.operand l)} {more : Derivation (.tail l)}
    (hfirst : first.Parsed) (hmore : more.Parsed) : (level first more).Parsed := by
  intro used rest hused hrest
  obtain ⟨used₁, used₂, rfl, h₁, h₂⟩ := List.map_eq_append_iff.mp hused
  rw [List.append_assoc]
  refine reads_parseLevel.mpr ⟨_, _, hfirst used₁ _ h₁ ?_, hmore used₂ rest h₂ hrest _⟩
  rw [List.map_append, h₂]
  exact more.endsBefore_tail hrest

theorem Parsed.stop {l : Level} : (stop : Derivation (.tail l)).Parsed := by
  intro used rest hused hrest lhs
  obtain rfl := List.map_eq_nil_iff.mp hused
  exact reads_parseMore.mpr (.inr ⟨hrest.joiner?_eq_none, rfl, rfl⟩)

theorem Parsed.more {l : Level} {s : Symbol} {form : Infixed} {hs : (s, form) ∈ l.symbols}
    {rhs : Derivation (.operand l)} {more : Derivation (.tail l)} (hrhs : rhs.Parsed)
    (hmore : more.Parsed) : (Derivation.more s form hs rhs more).Parsed := by
  intro used rest hused hrest lhs
  obtain ⟨t, used, rfl, ht, hused⟩ := List.map_eq_cons_iff.mp hused
  obtain ⟨used₁, used₂, rfl, h₁, h₂⟩ := List.map_eq_append_iff.mp hused
  rw [List.cons_append, List.append_assoc]
  refine reads_parseMore.mpr (.inl ⟨t, _, form, _, _, rfl, ?_, hrhs used₁ _ h₁ ?_,
    hmore used₂ rest h₂ hrest _⟩)
  · exact Token.joiner?_eq_some_iff.mpr ⟨s, ht, hs⟩
  · rw [List.map_append, h₂]
    exact more.endsBefore_tail hrest

theorem Parsed.tighter {l l' : Level} {hl : l.tighter = some l'} {e : Derivation (.level l')}
    (he : e.Parsed) : (tighter hl e).Parsed := by
  intro used rest hused hrest
  have hdepth : 2 + l'.depth ≤ 1 + l.depth := by
    rw [Level.depth_of_tighter_eq_some hl]
    omega
  show Reads (parseOperand l _) _ _
  rw [parseOperand_of_tighter hl]
  exact he used rest hused (hrest.mono hdepth)

theorem Parsed.tightest {l : Level} {hl : l.tighter = none} {e : Derivation .unary}
    (he : e.Parsed) : (tightest hl e).Parsed := by
  intro used rest hused hrest
  have hdepth : 2 ≤ 1 + l.depth := by
    have hl' := Level.depth_of_tighter_eq_none hl
    omega
  show Reads (parseOperand l _) _ _
  rw [parseOperand_of_tightest hl]
  exact he used rest hused (hrest.mono hdepth)

theorem Parsed.signed {sign : Sign} {e : Derivation .unary} (he : e.Parsed) :
    (signed sign e).Parsed := by
  intro used rest hused hrest
  obtain ⟨t, used, rfl, ht, hused⟩ := List.map_eq_cons_iff.mp hused
  refine reads_parseUnary.mpr (.inl ⟨t, _, sign.apply, _, rfl, ?_, he used rest hused hrest, rfl⟩)
  exact Token.signed?_eq_some_iff.mpr ⟨sign, ht, rfl⟩

theorem Parsed.unsigned {e : Derivation .power} (he : e.Parsed) : (unsigned e).Parsed := by
  intro used rest hused hrest
  obtain ⟨t, ht, hs⟩ := e.starts
  exact reads_parseUnary.mpr
    (.inr ⟨⟨t, mem_next?_append hused ht, signed?_eq_none hs⟩, he used rest hused hrest⟩)

theorem Parsed.bare {e : Derivation .factorials} (he : e.Parsed) : (bare e).Parsed := by
  intro used rest hused hrest
  refine reads_parsePower.mpr ⟨_, rest, he used rest hused (hrest.mono (by decide)), .inr ?_⟩
  exact ⟨hrest.next?_ne (by decide), rfl, rfl⟩

theorem Parsed.raised {base : Derivation .factorials} {exponent : Derivation .unary}
    (hbase : base.Parsed) (hexponent : exponent.Parsed) : (raised base exponent).Parsed := by
  intro used rest hused hrest
  obtain ⟨used₁, used₂, rfl, h₁, h₂⟩ := List.map_eq_append_iff.mp hused
  obtain ⟨t, used₂, rfl, ht, h₂⟩ := List.map_eq_cons_iff.mp h₂
  rw [List.append_assoc]
  refine reads_parsePower.mpr ⟨_, _, hbase used₁ _ h₁ ?_, .inl ⟨t, _, _, rfl, ht,
    hexponent used₂ rest h₂ hrest, rfl⟩⟩
  rw [List.cons_append, List.map_cons, ht]
  exact loose_caret _

theorem Parsed.factorials {e : Derivation .primary} {count : Nat} (he : e.Parsed) :
    (factorials e count).Parsed := by
  intro used rest hused hrest
  obtain ⟨used₁, bangs, rfl, h₁, hbangs⟩ := List.map_eq_append_iff.mp hused
  obtain ⟨hlength, hbang⟩ := List.eq_replicate_iff.mp hbangs
  rw [List.append_assoc]
  refine readsFactorials_iff.mpr ⟨_, bangs, he used₁ _ h₁ ?_, ?_, hrest.next?_ne (by decide), ?_⟩
  · rw [List.map_append, hbangs]
    exact loose_replicate_bang count hrest
  · exact fun t ht => hbang _ (List.mem_map_of_mem ht)
  · rw [← hlength, List.length_map]
    rfl

theorem Parsed.number (d : Decimal) : (number d).Parsed := by
  intro used rest hused hrest
  obtain ⟨⟨_, line⟩, used', rfl, rfl, hnil⟩ := List.map_eq_cons_iff.mp hused
  obtain rfl := List.map_eq_nil_iff.mp hnil
  exact reads_parsePrimary_number.mpr ⟨rfl, rfl⟩

theorem Parsed.identifier (name : String) : (identifier name).Parsed := by
  intro used rest hused hrest
  obtain ⟨⟨_, line⟩, used', rfl, rfl, hnil⟩ := List.map_eq_cons_iff.mp hused
  obtain rfl := List.map_eq_nil_iff.mp hnil
  exact (reads_parsePrimary_identifier (hrest.next?_ne (by decide))).mpr ⟨rfl, rfl⟩

theorem Parsed.call {name : String} {args : Derivation .arguments} {f : Builtin}
    (hf : Builtin.ofName? name = some f) (harity : args.meaning.length = f.arity)
    (hargs : args.Parsed) : (call name args).Parsed := by
  intro used rest hused hrest
  obtain ⟨⟨_, line⟩, _, rfl, rfl, h₁⟩ := List.map_eq_cons_iff.mp hused
  obtain ⟨⟨_, line'⟩, _, rfl, rfl, h₂⟩ := List.map_eq_cons_iff.mp h₁
  obtain ⟨inside, line'', rfl, hinside⟩ := exists_close h₂
  obtain ⟨_, rest', hrest', hread⟩ :=
    hargs inside (⟨.symbol .rightParen, line''⟩ :: rest) hinside rfl
  obtain rfl := (List.cons.inj hrest').2
  simp only [List.cons_append, List.append_assoc, List.nil_append]
  refine reads_parsePrimary_call.mpr ⟨_, hread, callNamed_eq_ok_iff.mpr ⟨f, hf, harity, ?_⟩⟩
  simp only [meaning, callOf, hf]

theorem Parsed.group {e : Derivation (.level .comparison)} (he : e.Parsed) : (group e).Parsed := by
  intro used rest hused hrest
  obtain ⟨⟨_, line⟩, _, rfl, rfl, h₁⟩ := List.map_eq_cons_iff.mp hused
  obtain ⟨inside, line', rfl, hinside⟩ := exists_close h₁
  simp only [List.cons_append, List.append_assoc, List.nil_append]
  exact reads_parsePrimary_group.mpr ⟨line', he inside _ hinside (loose_rightParen _)⟩

theorem Parsed.noArguments : noArguments.Parsed := by
  intro used rest hused hrest
  obtain rfl := List.map_eq_nil_iff.mp hused
  obtain ⟨line, rest', rfl⟩ := exists_rightParen hrest
  exact ⟨line, rest', rfl, reads_parseArguments.mpr (.inl ⟨line, rfl, rfl⟩)⟩

theorem Parsed.someArguments {args : Derivation .argumentList} (hargs : args.Parsed) :
    (someArguments args).Parsed := by
  intro used rest hused hrest
  obtain ⟨line, rest', rfl, hread⟩ := hargs used rest hused hrest
  refine ⟨line, rest', rfl, reads_parseArguments.mpr (.inr ⟨fun hnext => ?_, hread⟩)⟩
  obtain ⟨t, ht, hs⟩ := args.starts
  obtain rfl := Option.some.inj ((mem_next?_append hused ht).symm.trans hnext)
  exact absurd hs (by decide)

theorem Parsed.last {e : Derivation (.level .comparison)} (he : e.Parsed) : (last e).Parsed := by
  intro used rest hused hrest
  obtain ⟨line, rest', rfl⟩ := exists_rightParen hrest
  exact ⟨line, rest', rfl, reads_parseArgumentList.mpr
    ⟨_, _, he used _ hused (loose_rightParen _), .inr ⟨line, rfl, rfl⟩⟩⟩

theorem Parsed.next {e : Derivation (.level .comparison)} {args : Derivation .argumentList}
    (he : e.Parsed) (hargs : args.Parsed) : (next e args).Parsed := by
  intro used rest hused hrest
  obtain ⟨used₁, used₂, rfl, h₁, h₂⟩ := List.map_eq_append_iff.mp hused
  obtain ⟨⟨_, line⟩, used₃, rfl, rfl, h₃⟩ := List.map_eq_cons_iff.mp h₂
  obtain ⟨line', rest', rfl, hread⟩ := hargs used₃ rest h₃ hrest
  rw [List.append_assoc]
  exact ⟨line', rest', rfl, reads_parseArgumentList.mpr
    ⟨_, _, he used₁ _ h₁ (loose_comma _), .inl ⟨line, _, _, rfl, hread, rfl⟩⟩⟩

/-- **Every derivation whose calls bind is parsed.** -/
theorem parsed {n : Nonterminal} (d : Derivation n) (h : d.CallsBind) : d.Parsed := by
  induction d with
  | level first rest ihFirst ihRest => exact (ihFirst h.1).level (ihRest h.2)
  | stop => exact .stop
  | more s form hs rhs rest ihRhs ihRest => exact (ihRhs h.1).more (ihRest h.2)
  | tighter hl e ih => exact (ih h).tighter
  | tightest hl e ih => exact (ih h).tightest
  | signed sign e ih => exact (ih h).signed
  | unsigned e ih => exact (ih h).unsigned
  | bare e ih => exact (ih h).bare
  | raised base exponent ihBase ihExponent => exact (ihBase h.1).raised (ihExponent h.2)
  | factorials e count ih => exact (ih h).factorials
  | number d => exact .number d
  | identifier name => exact .identifier name
  | call name args ih =>
    obtain ⟨⟨f, hf, harity⟩, hargs⟩ := h
    exact (ih hargs).call hf harity
  | group e ih => exact (ih h).group
  | noArguments => exact .noArguments
  | someArguments args ih => exact (ih h).someArguments
  | last e ih => exact (ih h).last
  | next e args ihE ihArgs => exact (ihE h.1).next (ihArgs h.2)

end Derivation

/-! ## Statements and programs -/

/-- **A statement is read off its word.** -/
theorem Statement.parsed (s : Statement) (h : s.CallsBind) {used rest : List PlacedToken}
    (hused : used.map (·.token) = s.tokens) (hrest : EndsStatement (rest.map (·.token))) :
    Reads (parseAssignment (used ++ rest)) s.meaning rest := by
  match s with
  | .expression e =>
    refine reads_parseAssignment.mpr ⟨_, rest, e.parsed h used rest hused hrest.loose, .inr ?_⟩
    refine ⟨fun hnext => ?_, rfl, rfl⟩
    rw [next?_eq_head?] at hnext
    exact absurd (hrest _ hnext) (by simp)
  | .assignment target value =>
    obtain ⟨used₁, used₂, rfl, h₁, h₂⟩ := List.map_eq_append_iff.mp hused
    obtain ⟨⟨_, line⟩, used₃, rfl, rfl, h₃⟩ := List.map_eq_cons_iff.mp h₂
    rw [List.append_assoc]
    exact reads_parseAssignment.mpr
      ⟨_, _, target.parsed h.1 used₁ _ h₁ (loose_equals _),
        .inl ⟨line, _, _, rfl, value.parsed h.2 used₃ rest h₃ hrest.loose, rfl⟩⟩

/-- Ends of lines before the first statement are skipped. -/
theorem parseStatements_newLines : ∀ (count : Nat) {ts : List PlacedToken} {word : List Token},
    ts.map (·.token) = List.replicate count .newLine ++ word →
      ∃ ts', ts'.map (·.token) = word ∧ parseStatements ts = parseStatements ts'
  | 0, ts, word, h => ⟨ts, h, rfl⟩
  | count + 1, ts, word, h => by
    obtain ⟨⟨_, line⟩, ts, rfl, rfl, hts⟩ := List.map_eq_cons_iff.mp h
    obtain ⟨ts', hts', heq⟩ := parseStatements_newLines count hts
    exact ⟨ts', hts', parseStatements_newLine.trans heq⟩

/-- **The statements of lines are read off their word.** -/
theorem parseStatements_lines {lines : List (Statement × Nat)} (hsep : Separated lines)
    (hbind : ∀ line ∈ lines, line.1.CallsBind) {ts : List PlacedToken}
    (hts : ts.map (·.token) = lines.flatMap lineTokens) :
    parseStatements ts = .ok (lines.map fun line => line.1.meaning) := by
  induction lines generalizing ts with
  | nil =>
    obtain rfl := List.map_eq_nil_iff.mp hts
    rw [parseStatements]
    rfl
  | cons first lines ih =>
    obtain ⟨s, count⟩ := first
    obtain ⟨t, ht, hs⟩ := lines_starts (s, count) lines
    rw [← hts, ← next?_eq_head?] at ht
    have hnil : ts ≠ [] := by
      rintro rfl
      cases ht
    have hnext : next? ts ≠ some .newLine := by
      intro h
      obtain rfl := Option.some.inj (ht.symm.trans h)
      exact absurd hs (by decide)
    rw [List.flatMap_cons, lineTokens, List.append_assoc] at hts
    obtain ⟨used, rest, rfl, hused, hrest⟩ := List.map_eq_append_iff.mp hts
    have hread := s.parsed (hbind _ List.mem_cons_self) hused (hrest ▸ hsep.endsStatement)
    have hlines : ∀ {ts : List PlacedToken}, ts.map (·.token) = lines.flatMap lineTokens →
        parseStatements ts = .ok (lines.map fun line => line.1.meaning) :=
      ih hsep.tail fun line hline => hbind line (List.mem_cons_of_mem _ hline)
    refine (parseStatements_eq_ok_iff hnil hnext).mpr ?_
    cases count with
    | zero =>
      obtain rfl := hsep.eq_nil
      obtain rfl := List.map_eq_nil_iff.mp hrest
      exact ⟨s.meaning, [], _, reads_parseStatement.mpr ⟨[], hread, .inr ⟨rfl, rfl⟩⟩,
        hlines rfl, rfl⟩
    | succ count =>
      obtain ⟨⟨_, line⟩, rest', rfl, rfl, hrest'⟩ := List.map_eq_cons_iff.mp hrest
      obtain ⟨ts', hts', heq⟩ := parseStatements_newLines count hrest'
      exact ⟨s.meaning, rest', _, reads_parseStatement.mpr ⟨_, hread, .inl ⟨line, rfl⟩⟩,
        heq.trans (hlines hts'), rfl⟩

/-- **The statements of a program are read off its word.** -/
theorem Program.parsed (p : Program) (h : p.CallsBind) {ts : List PlacedToken}
    (hts : ts.map (·.token) = p.tokens) : parseStatements ts = .ok p.meanings := by
  obtain ⟨ts', hts', heq⟩ := parseStatements_newLines p.leading hts
  exact heq.trans (parseStatements_lines p.separated h hts')

end Abacus.Grammar
