import Abacus.Proofs.Grammar.Derivation

/-!
# Proofs/Grammar/Unambiguous — a word has one derivation

Two derivations of one nonterminal whose words begin one and the same list of tokens are equal, if
neither could have gone on: `Derivation.determined`.  Whether a derivation can go on is a matter of
the next token alone.  The looser a token (`Token.looseness`), the more of what stands before it is
an operand of it, and `Nonterminal.EndsBefore` asks for a token that is looser than all that the
nonterminal takes in.

Each constructor has its lemma: where the other derivation ends in another production, its next
token is one that the first may not be followed by.  `Program.eq_of_tokens_eq` follows: a program
has one derivation, because the ends of lines between two statements can be counted.
-/

namespace Abacus

/-! ## Tokens that end a derivation -/

/-- How loosely a token holds on to what stands before it: `(` makes a call of a name, `!` applies
to a primary, `^` to factorials, and an infix symbol to the operand of its level. -/
def Token.looseness : Token → Nat
  | .symbol .leftParen => 0
  | .symbol .bang => 1
  | .symbol .caret => 2
  | .symbol .star | .symbol .slash | .symbol .percent => 3
  | .symbol .plus | .symbol .minus => 4
  | .symbol .shiftLeft | .symbol .shiftRight => 5
  | .symbol .ampersand => 6
  | .symbol .pipe => 7
  | .symbol .equalEqual | .symbol .bangEqual | .symbol .less | .symbol .lessEqual
  | .symbol .greater | .symbol .greaterEqual => 8
  | _ => 9

theorem Level.looseness_symbol {l : Level} {s : Symbol} {form : Infixed}
    (h : (s, form) ∈ l.symbols) : (Token.symbol s).looseness = 2 + l.depth := by
  have key : ∀ x ∈ l.symbols, (Token.symbol x.1).looseness = 2 + l.depth := by cases l <;> decide
  exact key (s, form) h

/-- A symbol builds one thing at its level. -/
theorem Level.symbols_functional {l : Level} {s : Symbol} {form form' : Infixed}
    (h : (s, form) ∈ l.symbols) (h' : (s, form') ∈ l.symbols) : form = form' := by
  have key : ∀ x ∈ l.symbols, ∀ y ∈ l.symbols, x.1 = y.1 → x.2 = y.2 := by cases l <;> decide
  exact key (s, form) h (s, form') h' rfl

theorem Level.depth_of_tighter_eq_some {l l' : Level} (h : l.tighter = some l') :
    l.depth = l'.depth + 1 := by
  cases l <;> cases h <;> rfl

theorem Level.depth_of_tighter_eq_none {l : Level} (h : l.tighter = none) : l.depth = 1 := by
  cases l <;> first | rfl | cases h

theorem Sign.symbol_injective {s s' : Sign} (h : s.symbol = s'.symbol) : s = s' := by
  cases s <;> cases s' <;> first | rfl | cases h

namespace Grammar

/-- Nothing, or a token looser than `k` first. -/
def Loose (k : Nat) (rest : List Token) : Prop :=
  ∀ t ∈ rest.head?, k < t.looseness

theorem loose_cons (k : Nat) (t : Token) (rest : List Token) :
    Loose k (t :: rest) ↔ k < t.looseness := by simp [Loose]

theorem Loose.mono {k k' : Nat} {rest : List Token} (h : Loose k rest) (hk : k' ≤ k) :
    Loose k' rest :=
  fun t ht => Nat.lt_of_le_of_lt hk (h t ht)

theorem Loose.head?_ne {k : Nat} {rest : List Token} (h : Loose k rest) {t : Token}
    (ht : t.looseness ≤ k) : rest.head? ≠ some t :=
  fun e => absurd (h t e) (by omega)

/-- What ends an argument ends every expression. -/
theorem loose_of_head?_eq_rightParen {rest : List Token}
    (h : rest.head? = some (.symbol .rightParen)) : Loose 8 rest := by
  intro t ht
  obtain rfl := Option.some.inj (h.symm.trans ht)
  decide

/-- **What may follow a derivation that could not have gone on.** -/
def Nonterminal.EndsBefore : Nonterminal → List Token → Prop
  | .primary => Loose 0
  | .factorials => Loose 1
  | .power | .unary => Loose 2
  | .operand l => Loose (1 + l.depth)
  | .level l | .tail l => Loose (2 + l.depth)
  | .arguments | .argumentList => fun rest => rest.head? = some (.symbol .rightParen)

/-! ## First tokens -/

/-- The tokens that begin a primary. -/
def startsPrimary : Token → Bool
  | .number _ | .identifier _ | .symbol .leftParen => true
  | _ => false

/-- The tokens that begin an expression. -/
def startsExpression : Token → Bool
  | .symbol .minus | .symbol .plus | .symbol .tilde => true
  | t => startsPrimary t

/-- The first token of a derivation; what follows an operand, and arguments, may be empty. -/
def Nonterminal.Starts : Nonterminal → List Token → Prop
  | .primary | .factorials | .power => fun ts => ∃ t ∈ ts.head?, startsPrimary t = true
  | .tail _ | .arguments => fun _ => True
  | .level _ | .operand _ | .unary | .argumentList =>
    fun ts => ∃ t ∈ ts.head?, startsExpression t = true

theorem startsExpression_of_startsPrimary {t : Token} (h : startsPrimary t = true) :
    startsExpression t = true := by
  unfold startsExpression
  split
  · rfl
  · rfl
  · rfl
  · exact h

theorem head?_append_of_mem {ts rest : List Token} {t : Token} (h : t ∈ ts.head?) :
    t ∈ (ts ++ rest).head? := by
  rw [List.head?_append, Option.mem_def.mp h]
  rfl

theorem Derivation.starts {n : Nonterminal} (d : Derivation n) : n.Starts d.tokens := by
  induction d with
  | level first rest ihFirst _ =>
    obtain ⟨t, ht, hs⟩ := ihFirst
    exact ⟨t, head?_append_of_mem ht, hs⟩
  | stop => exact trivial
  | more => exact trivial
  | tighter _ e ih => exact ih
  | tightest _ e ih => exact ih
  | signed sign e => exact ⟨_, rfl, by cases sign <;> rfl⟩
  | unsigned e ih =>
    obtain ⟨t, ht, hs⟩ := ih
    exact ⟨t, ht, startsExpression_of_startsPrimary hs⟩
  | bare e ih => exact ih
  | raised base exponent ihBase _ =>
    obtain ⟨t, ht, hs⟩ := ihBase
    exact ⟨t, head?_append_of_mem ht, hs⟩
  | factorials e count ih =>
    obtain ⟨t, ht, hs⟩ := ih
    exact ⟨t, head?_append_of_mem ht, hs⟩
  | number d => exact ⟨_, rfl, rfl⟩
  | identifier name => exact ⟨_, rfl, rfl⟩
  | call name args => exact ⟨_, rfl, rfl⟩
  | group e => exact ⟨_, rfl, rfl⟩
  | noArguments => exact trivial
  | someArguments => exact trivial
  | last e ih => exact ih
  | next e args ih _ =>
    obtain ⟨t, ht, hs⟩ := ih
    exact ⟨t, head?_append_of_mem ht, hs⟩

/-- The tokens after an operand of a level end it. -/
theorem Derivation.endsBefore_tail {l : Level} (d : Derivation (.tail l)) {rest : List Token}
    (h : Loose (2 + l.depth) rest) : Loose (1 + l.depth) (d.tokens ++ rest) := by
  cases d with
  | stop => exact h.mono (by omega)
  | more s form hs rhs more =>
    refine (loose_cons _ _ _).mpr ?_
    rw [Level.looseness_symbol hs]
    omega

theorem loose_replicate_bang (count : Nat) {rest : List Token} (h : Loose 1 rest) :
    Loose 0 (List.replicate count (.symbol .bang) ++ rest) := by
  cases count with
  | zero => exact h.mono (by omega)
  | succ count => exact (loose_cons _ _ _).mpr (by decide)

/-- A repeated token is counted by what it begins, if something else comes after it. -/
theorem replicate_append_inj {t : Token} {rest rest' : List Token} (h : rest.head? ≠ some t)
    (h' : rest'.head? ≠ some t) :
    ∀ {k k' : Nat}, List.replicate k t ++ rest = List.replicate k' t ++ rest' →
      k = k' ∧ rest = rest'
  | 0, 0, e => ⟨rfl, e⟩
  | 0, k' + 1, e => absurd (congrArg List.head? e) h
  | k + 1, 0, e => absurd (congrArg List.head? e).symm h'
  | k + 1, k' + 1, e => by
    obtain ⟨rfl, hrest⟩ := replicate_append_inj h h' (List.cons.inj e).2
    exact ⟨rfl, hrest⟩

/-! ## One derivation for a word -/

namespace Derivation

/-- **A derivation is told by its word**: another one whose word begins the same tokens is equal to
it, if neither could have gone on. -/
def Determined {n : Nonterminal} (d : Derivation n) : Prop :=
  ∀ (d' : Derivation n) (r r' : List Token), n.EndsBefore r → n.EndsBefore r' →
    d.tokens ++ r = d'.tokens ++ r' → d = d' ∧ r = r'

theorem Determined.level {l : Level} {first : Derivation (.operand l)} {rest : Derivation (.tail l)}
    (hfirst : first.Determined) (hrest : rest.Determined) : (level first rest).Determined := by
  rintro ⟨first', rest'⟩ r r' hr hr' h
  simp only [tokens, List.append_assoc] at h
  obtain ⟨rfl, h₁⟩ := hfirst _ _ _ (rest.endsBefore_tail hr) (rest'.endsBefore_tail hr') h
  obtain ⟨rfl, h₂⟩ := hrest _ _ _ hr hr' h₁
  exact ⟨rfl, h₂⟩

/-- A symbol of a level does not end what the level derives. -/
theorem not_loose_of_mem_symbols {l : Level} {s : Symbol} {form : Infixed}
    (hs : (s, form) ∈ l.symbols) (ts : List Token) : ¬ Loose (2 + l.depth) (.symbol s :: ts) := by
  rw [loose_cons, Level.looseness_symbol hs]
  exact Nat.lt_irrefl _

theorem Determined.stop {l : Level} : (stop : Derivation (.tail l)).Determined := by
  intro d' r r' hr hr' h
  cases d' with
  | stop => exact ⟨rfl, h⟩
  | more s form hs rhs rest =>
    obtain rfl : r = _ := h
    exact absurd hr (not_loose_of_mem_symbols hs _)

theorem Determined.more {l : Level} {s : Symbol} {form : Infixed} {hs : (s, form) ∈ l.symbols}
    {rhs : Derivation (.operand l)} {rest : Derivation (.tail l)} (hrhs : rhs.Determined)
    (hrest : rest.Determined) : (more s form hs rhs rest).Determined := by
  intro d' r r' hr hr' h
  cases d' with
  | stop =>
    obtain rfl : _ = r' := h
    exact absurd hr' (not_loose_of_mem_symbols hs _)
  | more s' form' hs' rhs' rest' =>
    simp only [tokens, List.cons_append, List.append_assoc, List.cons.injEq,
      Token.symbol.injEq] at h
    obtain ⟨rfl, h⟩ := h
    obtain rfl := Level.symbols_functional hs hs'
    obtain ⟨rfl, h₁⟩ := hrhs _ _ _ (rest.endsBefore_tail hr) (rest'.endsBefore_tail hr') h
    obtain ⟨rfl, h₂⟩ := hrest _ _ _ hr hr' h₁
    exact ⟨rfl, h₂⟩

theorem Determined.tighter {l l' : Level} {hl : l.tighter = some l'} {e : Derivation (.level l')}
    (he : e.Determined) : (tighter hl e).Determined := by
  intro d' r r' hr hr' h
  have hdepth : 2 + l'.depth ≤ 1 + l.depth := by
    rw [Level.depth_of_tighter_eq_some hl]
    omega
  cases d' with
  | @tighter _ l'' hl' e' =>
    obtain rfl : l' = l'' := Option.some.inj (hl.symm.trans hl')
    obtain ⟨rfl, h₁⟩ := he _ _ _ (hr.mono hdepth) (hr'.mono hdepth) h
    exact ⟨rfl, h₁⟩
  | tightest hl' e' => exact absurd (hl.symm.trans hl') (by simp)

theorem Determined.tightest {l : Level} {hl : l.tighter = none} {e : Derivation .unary}
    (he : e.Determined) : (tightest hl e).Determined := by
  intro d' r r' hr hr' h
  have hdepth : 2 ≤ 1 + l.depth := by
    have hl' := Level.depth_of_tighter_eq_none hl
    omega
  cases d' with
  | tighter hl' e' => exact absurd (hl.symm.trans hl') (by simp)
  | tightest hl' e' =>
    obtain ⟨rfl, h₁⟩ := he _ _ _ (hr.mono hdepth) (hr'.mono hdepth) h
    exact ⟨rfl, h₁⟩

/-- A sign begins no power. -/
theorem sign_cons_ne {sign : Sign} {ts rest : List Token} (e : Derivation .power) :
    .symbol sign.symbol :: ts ≠ e.tokens ++ rest := by
  intro h
  obtain ⟨t, ht, hs⟩ := e.starts
  have ht' : some (Token.symbol sign.symbol) = some t :=
    (congrArg List.head? h).trans (head?_append_of_mem ht)
  obtain rfl := Option.some.inj ht'
  revert hs
  cases sign <;> decide

theorem Determined.signed {sign : Sign} {e : Derivation .unary} (he : e.Determined) :
    (signed sign e).Determined := by
  intro d' r r' hr hr' h
  cases d' with
  | signed sign' e' =>
    simp only [tokens, List.cons_append, List.cons.injEq, Token.symbol.injEq] at h
    obtain rfl := Sign.symbol_injective h.1
    obtain ⟨rfl, h₁⟩ := he _ _ _ hr hr' h.2
    exact ⟨rfl, h₁⟩
  | unsigned e' => exact absurd h (sign_cons_ne e')

theorem Determined.unsigned {e : Derivation .power} (he : e.Determined) :
    (unsigned e).Determined := by
  intro d' r r' hr hr' h
  cases d' with
  | signed sign' e' => exact absurd h.symm (sign_cons_ne e)
  | unsigned e' =>
    obtain ⟨rfl, h₁⟩ := he _ _ _ hr hr' h
    exact ⟨rfl, h₁⟩

theorem loose_caret (ts : List Token) : Loose 1 (.symbol .caret :: ts) :=
  (loose_cons _ _ _).mpr (by decide)

theorem not_loose_caret (ts : List Token) : ¬ Loose 2 (.symbol .caret :: ts) := by
  rw [loose_cons]
  decide

theorem Determined.bare {e : Derivation .factorials} (he : e.Determined) : (bare e).Determined := by
  intro d' r r' hr hr' h
  cases d' with
  | bare e' =>
    obtain ⟨rfl, h₁⟩ := he _ _ _ (hr.mono (by decide)) (hr'.mono (by decide)) h
    exact ⟨rfl, h₁⟩
  | raised base' exponent' =>
    simp only [tokens, List.append_assoc] at h
    obtain ⟨-, rfl⟩ := he _ _ _ (hr.mono (by decide)) (loose_caret _) h
    exact absurd hr (not_loose_caret _)

theorem Determined.raised {base : Derivation .factorials} {exponent : Derivation .unary}
    (hbase : base.Determined) (hexponent : exponent.Determined) :
    (raised base exponent).Determined := by
  intro d' r r' hr hr' h
  simp only [tokens, List.append_assoc] at h
  cases d' with
  | bare e' =>
    obtain ⟨-, rfl⟩ := hbase _ _ _ (loose_caret _) (hr'.mono (by decide)) h
    exact absurd hr' (not_loose_caret _)
  | raised base' exponent' =>
    simp only [tokens, List.append_assoc] at h
    obtain ⟨rfl, h₁⟩ := hbase _ _ _ (loose_caret _) (loose_caret _) h
    obtain ⟨rfl, h₂⟩ := hexponent _ _ _ hr hr' (List.cons.inj h₁).2
    exact ⟨rfl, h₂⟩

theorem Determined.factorials {e : Derivation .primary} {count : Nat} (he : e.Determined) :
    (factorials e count).Determined := by
  intro d' r r' hr hr' h
  cases d' with
  | factorials e' count' =>
    simp only [tokens, List.append_assoc] at h
    obtain ⟨rfl, h₁⟩ :=
      he _ _ _ (loose_replicate_bang count hr) (loose_replicate_bang count' hr') h
    have hbang : (Token.symbol .bang).looseness ≤ 1 := by decide
    obtain ⟨rfl, h₂⟩ := replicate_append_inj (hr.head?_ne hbang) (hr'.head?_ne hbang) h₁
    exact ⟨rfl, h₂⟩

theorem Determined.number (d : Decimal) : (number d).Determined := by
  intro d' r r' hr hr' h
  cases d' <;> simp_all [tokens]

theorem not_loose_leftParen (ts : List Token) : ¬ Loose 0 (.symbol .leftParen :: ts) := by
  rw [loose_cons]
  decide

theorem Determined.identifier (name : String) : (identifier name).Determined := by
  intro d' r r' hr hr' h
  cases d' with
  | number => simp [tokens] at h
  | identifier => simp_all [tokens]
  | call name' args' =>
    obtain rfl : r = _ := (List.cons.inj h).2
    exact absurd hr (not_loose_leftParen _)
  | group => simp [tokens] at h

theorem Determined.call {name : String} {args : Derivation .arguments} (hargs : args.Determined) :
    (call name args).Determined := by
  intro d' r r' hr hr' h
  cases d' with
  | number => simp [tokens] at h
  | identifier name' =>
    obtain rfl : _ = r' := (List.cons.inj h).2
    exact absurd hr' (not_loose_leftParen _)
  | call name' args' =>
    simp only [tokens, List.cons_append, List.append_assoc, List.cons.injEq,
      Token.identifier.injEq, true_and] at h
    obtain ⟨rfl, h⟩ := h
    obtain ⟨rfl, h₁⟩ := hargs args' (.symbol .rightParen :: r) (.symbol .rightParen :: r') rfl rfl h
    exact ⟨rfl, (List.cons.inj h₁).2⟩
  | group => simp [tokens] at h

theorem loose_rightParen (ts : List Token) : Loose 8 (.symbol .rightParen :: ts) :=
  loose_of_head?_eq_rightParen rfl

theorem loose_comma (ts : List Token) : Loose 8 (.symbol .comma :: ts) :=
  (loose_cons _ _ _).mpr (by decide)

theorem Determined.group {e : Derivation (.level .comparison)} (he : e.Determined) :
    (group e).Determined := by
  intro d' r r' hr hr' h
  cases d' with
  | number => simp [tokens] at h
  | identifier => simp [tokens] at h
  | call => simp [tokens] at h
  | group e' =>
    simp only [tokens, List.cons_append, List.append_assoc, List.cons.injEq, true_and] at h
    obtain ⟨rfl, h₁⟩ := he _ _ _ (loose_rightParen _) (loose_rightParen _) h
    exact ⟨rfl, (List.cons.inj h₁).2⟩

/-- A closing parenthesis begins no argument. -/
theorem ne_argumentList {rest rest' : List Token}
    (hr : rest.head? = some (.symbol .rightParen)) (args : Derivation .argumentList) :
    rest ≠ args.tokens ++ rest' := by
  rintro rfl
  obtain ⟨t, ht, hs⟩ := args.starts
  have ht' : some t = some (Token.symbol .rightParen) := (head?_append_of_mem ht).symm.trans hr
  obtain rfl := Option.some.inj ht'
  exact absurd hs (by decide)

theorem Determined.noArguments : noArguments.Determined := by
  intro d' r r' hr hr' h
  cases d' with
  | noArguments => exact ⟨rfl, h⟩
  | someArguments args' => exact absurd h (ne_argumentList hr args')

theorem Determined.someArguments {args : Derivation .argumentList} (hargs : args.Determined) :
    (someArguments args).Determined := by
  intro d' r r' hr hr' h
  cases d' with
  | noArguments => exact absurd h.symm (ne_argumentList hr' args)
  | someArguments args' =>
    obtain ⟨rfl, h₁⟩ := hargs _ _ _ hr hr' h
    exact ⟨rfl, h₁⟩

theorem Determined.last {e : Derivation (.level .comparison)} (he : e.Determined) :
    (last e).Determined := by
  intro d' r r' hr hr' h
  have hloose := loose_of_head?_eq_rightParen hr
  cases d' with
  | last e' =>
    obtain ⟨rfl, h₁⟩ := he _ _ _ hloose (loose_of_head?_eq_rightParen hr') h
    exact ⟨rfl, h₁⟩
  | next e' args' =>
    simp only [tokens, List.append_assoc] at h
    obtain ⟨-, rfl⟩ := he _ _ _ hloose (loose_comma _) h
    exact absurd hr (by simp [Nonterminal.EndsBefore])

theorem Determined.next {e : Derivation (.level .comparison)} {args : Derivation .argumentList}
    (he : e.Determined) (hargs : args.Determined) : (next e args).Determined := by
  intro d' r r' hr hr' h
  simp only [tokens, List.append_assoc] at h
  cases d' with
  | last e' =>
    obtain ⟨-, rfl⟩ := he _ _ _ (loose_comma _) (loose_of_head?_eq_rightParen hr') h
    exact absurd hr' (by simp [Nonterminal.EndsBefore])
  | next e' args' =>
    simp only [tokens, List.append_assoc] at h
    obtain ⟨rfl, h₁⟩ := he _ _ _ (loose_comma _) (loose_comma _) h
    obtain ⟨rfl, h₂⟩ := hargs _ _ _ hr hr' (List.cons.inj h₁).2
    exact ⟨rfl, h₂⟩

/-- **Every derivation is told by its word.** -/
theorem determined {n : Nonterminal} (d : Derivation n) : d.Determined := by
  induction d with
  | level first rest ihFirst ihRest => exact ihFirst.level ihRest
  | stop => exact .stop
  | more s form hs rhs rest ihRhs ihRest => exact ihRhs.more ihRest
  | tighter hl e ih => exact ih.tighter
  | tightest hl e ih => exact ih.tightest
  | signed sign e ih => exact ih.signed
  | unsigned e ih => exact ih.unsigned
  | bare e ih => exact ih.bare
  | raised base exponent ihBase ihExponent => exact ihBase.raised ihExponent
  | factorials e count ih => exact ih.factorials
  | number d => exact .number d
  | identifier name => exact .identifier name
  | call name args ih => exact ih.call
  | group e ih => exact ih.group
  | noArguments => exact .noArguments
  | someArguments args ih => exact ih.someArguments
  | last e ih => exact ih.last
  | next e args ihE ihArgs => exact ihE.next ihArgs

end Derivation

/-! ## One derivation for a program -/

/-- What may follow a statement: nothing, or the end of its line. -/
def EndsStatement (rest : List Token) : Prop :=
  ∀ t ∈ rest.head?, t = .newLine

theorem EndsStatement.loose {rest : List Token} (h : EndsStatement rest) : Loose 8 rest := by
  intro t ht
  obtain rfl := h t ht
  decide

theorem loose_equals (ts : List Token) : Loose 8 (.symbol .equals :: ts) :=
  (loose_cons _ _ _).mpr (by decide)

theorem not_endsStatement_equals (ts : List Token) : ¬ EndsStatement (.symbol .equals :: ts) :=
  fun h => absurd (h _ rfl) (by simp)

namespace Statement

theorem starts : ∀ s : Statement, ∃ t ∈ s.tokens.head?, startsExpression t = true
  | .expression e => e.starts
  | .assignment target value => by
    obtain ⟨t, ht, hs⟩ := target.starts
    exact ⟨t, head?_append_of_mem ht, hs⟩

/-- **Two statements whose words begin the same tokens are equal**, if both have ended. -/
theorem eq_of_tokens_append {s s' : Statement} {r r' : List Token} (hr : EndsStatement r)
    (hr' : EndsStatement r') (h : s.tokens ++ r = s'.tokens ++ r') : s = s' ∧ r = r' := by
  match s, s' with
  | .expression e, .expression e' =>
    obtain ⟨rfl, h₁⟩ := e.determined _ _ _ hr.loose hr'.loose h
    exact ⟨rfl, h₁⟩
  | .expression e, .assignment target' value' =>
    simp only [tokens, List.append_assoc] at h
    obtain ⟨-, rfl⟩ := e.determined _ _ _ hr.loose (loose_equals _) h
    exact absurd hr (not_endsStatement_equals _)
  | .assignment target value, .expression e' =>
    simp only [tokens, List.append_assoc] at h
    obtain ⟨-, rfl⟩ := target.determined _ _ _ (loose_equals _) hr'.loose h
    exact absurd hr' (not_endsStatement_equals _)
  | .assignment target value, .assignment target' value' =>
    simp only [tokens, List.append_assoc] at h
    obtain ⟨rfl, h₁⟩ := target.determined _ _ _ (loose_equals _) (loose_equals _) h
    obtain ⟨rfl, h₂⟩ := value.determined _ _ _ hr.loose hr'.loose (List.cons.inj h₁).2
    exact ⟨rfl, h₂⟩

end Statement

theorem Separated.tail {line : Statement × Nat} {lines : List (Statement × Nat)}
    (h : Separated (line :: lines)) : Separated lines := by
  intro line' hmem
  cases lines with
  | nil => exact absurd hmem (by simp)
  | cons => exact h line' (List.mem_cons_of_mem _ hmem)

/-- Only the last line may not have ended. -/
theorem Separated.eq_nil {s : Statement} {lines : List (Statement × Nat)}
    (h : Separated ((s, 0) :: lines)) : lines = [] := by
  match lines with
  | [] => rfl
  | line :: lines => exact absurd (h (s, 0) List.mem_cons_self) (Nat.lt_irrefl 0)

theorem lines_starts (line : Statement × Nat) (lines : List (Statement × Nat)) :
    ∃ t ∈ ((line :: lines).flatMap lineTokens).head?, startsExpression t = true := by
  obtain ⟨t, ht, hs⟩ := line.1.starts
  refine ⟨t, ?_, hs⟩
  rw [List.flatMap_cons, lineTokens, List.append_assoc]
  exact head?_append_of_mem ht

theorem head?_lines_ne_newLine (lines : List (Statement × Nat)) :
    (lines.flatMap lineTokens).head? ≠ some .newLine := by
  cases lines with
  | nil => simp
  | cons line lines =>
    intro h
    obtain ⟨t, ht, hs⟩ := lines_starts line lines
    obtain rfl := Option.some.inj (ht.symm.trans h)
    exact absurd hs (by decide)

theorem Separated.endsStatement {s : Statement} {count : Nat} {lines : List (Statement × Nat)}
    (h : Separated ((s, count) :: lines)) :
    EndsStatement (List.replicate count .newLine ++ lines.flatMap lineTokens) := by
  intro t ht
  cases count with
  | succ count => exact (Option.some.inj ht).symm
  | zero =>
    obtain rfl := h.eq_nil
    exact absurd ht (by simp)

theorem lines_eq_of_tokens_eq : ∀ {lines lines' : List (Statement × Nat)}, Separated lines →
    Separated lines' → lines.flatMap lineTokens = lines'.flatMap lineTokens → lines = lines'
  | [], [], _, _, _ => rfl
  | [], line :: lines, _, _, h => by
    obtain ⟨t, ht, -⟩ := lines_starts line lines
    exact absurd ht (by simp [← h])
  | line :: lines, [], _, _, h => by
    obtain ⟨t, ht, -⟩ := lines_starts line lines
    exact absurd ht (by simp [h])
  | (s, count) :: lines, (s', count') :: lines', hsep, hsep', h => by
    simp only [List.flatMap_cons, lineTokens, List.append_assoc] at h
    obtain ⟨rfl, h₁⟩ :=
      Statement.eq_of_tokens_append hsep.endsStatement hsep'.endsStatement h
    obtain ⟨rfl, h₂⟩ :=
      replicate_append_inj (head?_lines_ne_newLine lines) (head?_lines_ne_newLine lines') h₁
    obtain rfl := lines_eq_of_tokens_eq hsep.tail hsep'.tail h₂
    rfl

/-- **A program has one derivation.** -/
theorem Program.eq_of_tokens_eq {p p' : Program} (h : p.tokens = p'.tokens) : p = p' := by
  obtain ⟨leading, lines, hsep⟩ := p
  obtain ⟨leading', lines', hsep'⟩ := p'
  obtain ⟨rfl, h₁⟩ :=
    replicate_append_inj (head?_lines_ne_newLine lines) (head?_lines_ne_newLine lines') h
  obtain rfl := lines_eq_of_tokens_eq hsep hsep' h₁
  rfl

end Grammar

end Abacus
