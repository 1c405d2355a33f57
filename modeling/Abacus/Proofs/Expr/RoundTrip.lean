import Abacus.Proofs.Grammar.Completeness
import Abacus.Proofs.Grammar.Output

/-!
# Proofs/Expr/RoundTrip — the input form of an expression is read back as that expression

The input form of an expression is the word of a primary: every operator stands in parentheses, with
nothing around it that could bind tighter.  So the text of an expression without negative literals
lexes to tokens (`Lexes`) that derive a primary which denotes the expression (`Denotes`), each
literal up to its spelling: `written`.  The parser accepts exactly what derives, hence
`parseProgram_text_of_spells`.

A negative literal is written as a sign in front of a literal and is read back as one; and no text
is read as a negative literal, so what comes out of the parser comes back out of it unchanged.
-/

namespace Abacus

/-! ## The names of functions -/

/-- **The name of a function names that function**: no two have one name. -/
theorem Builtin.ofName?_name (f : Builtin) : ofName? f.name = some f := by
  have key : ∀ f ∈ all, ofName? f.name = some f := by decide +kernel
  exact key f f.mem_all

theorem Builtin.isIdentifier_name (f : Builtin) : IsIdentifier f.name := by
  have key : ∀ f ∈ all, f.name.toList.head?.any isIdentifierStart = true ∧
      f.name.toList.tail.all isIdentifierRest = true := by decide +kernel
  obtain ⟨hstart, hrest⟩ := key f f.mem_all
  match hname : f.name.toList with
  | [] =>
    rw [hname] at hstart
    exact nomatch hstart
  | c :: cs =>
    rw [hname] at hstart hrest
    exact ⟨c, cs, hname, hstart, List.all_eq_true.mp hrest⟩

/-! ## Denotations of tokens -/

namespace Grammar

namespace Denotes

variable {l l' : Level} {ts us : List Token} {a b : Expr}

theorem unary_of_primary (h : Denotes .primary ts a) : Denotes .unary ts a := by
  obtain ⟨d, rfl, hbind, rfl⟩ := h
  exact ⟨.unsigned (.bare (.factorials d 0)), List.append_nil _, hbind, rfl⟩

theorem level_of_operand (h : Denotes (.operand l) ts a) : Denotes (.level l) ts a := by
  obtain ⟨d, rfl, hbind, rfl⟩ := h
  exact ⟨.level d .stop, List.append_nil _, ⟨hbind, trivial⟩, rfl⟩

theorem operand_of_level (hl : l.tighter = some l') (h : Denotes (.level l') ts a) :
    Denotes (.operand l) ts a := by
  obtain ⟨d, rfl, hbind, rfl⟩ := h
  exact ⟨.tighter hl d, rfl, hbind, rfl⟩

/-- A signed expression is an operand of every level. -/
theorem operand_of_unary (h : Denotes .unary ts a) (l : Level) : Denotes (.operand l) ts a := by
  match hl : l.tighter with
  | none =>
    obtain ⟨d, rfl, hbind, rfl⟩ := h
    exact ⟨.tightest hl d, rfl, hbind, rfl⟩
  | some l' =>
    have hdepth := Level.depth_tighter hl
    exact operand_of_level hl (level_of_operand (operand_of_unary h l'))
termination_by l.depth

/-- What a level derives is an expression. -/
theorem expression_of_level (h : Denotes (.level l) ts a) : Denotes (.level .comparison) ts a := by
  have loosen {l l' : Level} (hl : l.tighter = some l') (h : Denotes (.level l') ts a) :
      Denotes (.level l) ts a := level_of_operand (operand_of_level hl h)
  match l with
  | .comparison => exact h
  | .bitOr => exact loosen rfl h
  | .bitAnd => exact loosen rfl (loosen rfl h)
  | .shift => exact loosen rfl (loosen rfl (loosen rfl h))
  | .additive => exact loosen rfl (loosen rfl (loosen rfl (loosen rfl h)))
  | .multiplicative => exact loosen rfl (loosen rfl (loosen rfl (loosen rfl (loosen rfl h))))

theorem expression_of_primary (h : Denotes .primary ts a) : Denotes (.level .comparison) ts a :=
  level_of_operand (operand_of_unary (unary_of_primary h) .comparison)

theorem signed (sign : Sign) (h : Denotes .unary ts a) :
    Denotes .unary (.symbol sign.symbol :: ts) (sign.apply a) := by
  obtain ⟨d, rfl, hbind, rfl⟩ := h
  exact ⟨.signed sign d, rfl, hbind, rfl⟩

theorem joined {s : Symbol} {form : Infixed} (hs : (s, form) ∈ l.symbols)
    (ha : Denotes (.operand l) ts a) (hb : Denotes (.operand l) us b) :
    Denotes (.level l) (ts ++ .symbol s :: us) (form.join a b) := by
  obtain ⟨d, rfl, hbind, rfl⟩ := ha
  obtain ⟨d', rfl, hbind', rfl⟩ := hb
  refine ⟨.level d (.more s form hs d' .stop), ?_, ⟨hbind, hbind', trivial⟩, rfl⟩
  simp [Derivation.tokens]

end Denotes

end Grammar

/-! ## Written operators, groups and lists -/

/-- The symbol that writes an operator. -/
def Operator.token : Operator → Symbol
  | .plus => .plus
  | .minus => .minus
  | .times => .star
  | .divide => .slash
  | .modulo => .percent

namespace Lexes

variable {cs ds : List Char} {ts us : List Token}

theorem nil : Lexes [] [] :=
  fun _ _ _ _ h => h

theorem group (h : Lexes cs ts) :
    Lexes ('(' :: cs ++ [')']) (.symbol .leftParen :: (ts ++ [.symbol .rightParen])) := by
  intro line rest ts' _ hts
  have hclose : tokenizeFrom line (')' :: rest) = .ok (⟨.symbol .rightParen, line⟩ :: ts') :=
    tokenizeFrom_symbol rfl hts
  have hinside := h line _ _ (endsWritten_cons (by decide) rest) hclose
  have hopen : tokenizeFrom line ('(' :: (cs ++ ')' :: rest)) =
      .ok (⟨.symbol .leftParen, line⟩ :: _) :=
    tokenizeFrom_symbol rfl hinside
  simpa [placed] using hopen

theorem sign {op : Operator} (hop : Expr.IsSign op) (h : Lexes cs ts) :
    Lexes (op.symbol :: cs) (.symbol op.token :: ts) := by
  intro line rest ts' hrest hts
  have hscan : Lexeme.scan? (op.symbol :: (cs ++ rest)) = some (.symbol op.token, cs ++ rest) := by
    obtain rfl | rfl := hop <;> rfl
  exact tokenizeFrom_symbol hscan (h _ _ _ hrest hts)

theorem operator (op : Operator) (hcs : Lexes cs ts) (hds : Lexes ds us) :
    Lexes (cs ++ ' ' :: op.symbol :: ' ' :: ds) (ts ++ .symbol op.token :: us) := by
  intro line rest ts' hrest hts
  have hscan : Lexeme.scan? (op.symbol :: ' ' :: (ds ++ rest)) =
      some (.symbol op.token, ' ' :: (ds ++ rest)) := by
    cases op <;> rfl
  have hop := tokenizeFrom_space
    (tokenizeFrom_symbol hscan (tokenizeFrom_space (hds _ _ _ hrest hts)))
  have hall := hcs line _ _ (endsWritten_cons (by decide) _) hop
  simpa [placed] using hall

theorem comma (hcs : Lexes cs ts) (hds : Lexes ds us) :
    Lexes (cs ++ ',' :: ' ' :: ds) (ts ++ .symbol .comma :: us) := by
  intro line rest ts' hrest hts
  have hcomma : tokenizeFrom line (',' :: ' ' :: (ds ++ rest)) =
      .ok (⟨.symbol .comma, line⟩ :: _) :=
    tokenizeFrom_symbol rfl (tokenizeFrom_space (hds _ _ _ hrest hts))
  have hall := hcs line _ _ (endsWritten_cons (by decide) _) hcomma
  simpa [placed] using hall

theorem call (f : Builtin) (h : Lexes cs ts) :
    Lexes (f.name.toList ++ '(' :: cs ++ [')'])
      (.identifier f.name :: .symbol .leftParen :: (ts ++ [.symbol .rightParen])) := by
  intro line rest ts' hrest hts
  have hgroup := h.group line rest ts' hrest hts
  have hends : ∀ c ∈ ('(' :: cs ++ [')'] ++ rest).head?, isIdentifierRest c = false := by
    intro c hc
    obtain rfl : '(' = c := Option.some.inj hc
    decide
  simpa [placed] using tokenizeFrom_identifier f.isIdentifier_name hends hgroup

end Lexes

/-! ## Written expressions -/

namespace Expr

open Grammar (Denotes)

/-- **The text lexes to tokens of a primary that denotes `e`.** -/
def Written (cs : List Char) (e : Expr) : Prop :=
  ∃ ts, Lexes cs ts ∧ Denotes .primary ts e

variable {cs ds : List Char} {a b : Expr}

theorem written_number {d : Decimal} (hneg : d.isNegative = false) (h : d.Spells) :
    Written d.write (.number d.reread) :=
  ⟨_, lexes_decimal hneg h, .number d.reread, rfl, trivial, rfl⟩

theorem written_var {name : String} (h : IsIdentifier name) : Written name.toList (.var name) :=
  ⟨_, lexes_identifier h, .identifier name, rfl, trivial, rfl⟩

theorem Written.unary {op : Operator} (hop : IsSign op) (h : Written cs a) :
    Written ('(' :: op.symbol :: cs ++ [')']) (.unary op a) := by
  obtain ⟨ts, hlex, hden⟩ := h
  have hsigned : Denotes .unary (.symbol op.token :: ts) (.unary op a) := by
    obtain rfl | rfl := hop
    · exact hden.unary_of_primary.signed .plus
    · exact hden.unary_of_primary.signed .minus
  exact ⟨_, (hlex.sign hop).group, (hsigned.operand_of_unary .comparison).level_of_operand.group⟩

theorem Written.binary (op : Operator) (ha : Written cs a) (hb : Written ds b) :
    Written ('(' :: cs ++ ' ' :: op.symbol :: ' ' :: ds ++ [')']) (.binary op a b) := by
  obtain ⟨ts, hlex, hden⟩ := ha
  obtain ⟨us, hlex', hden'⟩ := hb
  obtain ⟨l, hl⟩ : ∃ l : Level, (op.token, .operator op) ∈ l.symbols := by
    cases op
    · exact ⟨.additive, by decide⟩
    · exact ⟨.additive, by decide⟩
    · exact ⟨.multiplicative, by decide⟩
    · exact ⟨.multiplicative, by decide⟩
    · exact ⟨.multiplicative, by decide⟩
  have hjoined := (hden.unary_of_primary.operand_of_unary l).joined hl
    (hden'.unary_of_primary.operand_of_unary l)
  exact ⟨_, (hlex.operator op hlex').group, hjoined.expression_of_level.group⟩

/-- Written arguments, with commas between them. -/
theorem written_argumentList {f : Expr → Expr} : ∀ {e : Expr} {es : List Expr},
    (∀ a ∈ e :: es, Written a.write (f a)) →
      ∃ ts, Lexes (joinCommas ((e :: es).map write)) ts ∧
        Denotes .argumentList ts ((e :: es).map f)
  | e, [], h => by
    obtain ⟨ts, hlex, hden⟩ := h e List.mem_cons_self
    obtain ⟨d, rfl, hbind, hd⟩ := hden.expression_of_primary
    exact ⟨_, hlex, .last d, rfl, hbind, congrArg (fun x => [x]) hd⟩
  | e, e' :: es, h => by
    obtain ⟨he, hes⟩ := List.forall_mem_cons.mp h
    obtain ⟨ts, hlex, hden⟩ := he
    obtain ⟨us, hlex', d', rfl, hbind', hd'⟩ := written_argumentList hes
    obtain ⟨d, rfl, hbind, hd⟩ := hden.expression_of_primary
    refine ⟨_, hlex.comma hlex', .next d d', rfl, ⟨hbind, hbind'⟩, ?_⟩
    rw [Grammar.Derivation.meaning, hd, hd']
    rfl

theorem written_arguments {f : Expr → Expr} {es : List Expr}
    (h : ∀ a ∈ es, Written a.write (f a)) :
    ∃ ts, Lexes (joinCommas (es.map write)) ts ∧ Denotes .arguments ts (es.map f) := by
  match es with
  | [] => exact ⟨[], Lexes.nil, .noArguments, rfl, trivial, rfl⟩
  | e :: es =>
    obtain ⟨ts, hlex, d, rfl, hbind, hd⟩ := written_argumentList h
    exact ⟨_, hlex, .someArguments d, rfl, hbind, hd⟩

/-- **The input form of an expression without negative literals is a primary that denotes it.** -/
theorem written {e : Expr} : e.WellFormed →
    e.Leaves (fun d => d.isNegative = false ∧ d.Spells) IsIdentifier →
      Written e.write e.reread := by
  induction e using Expr.induction with
  | number d =>
    intro _ h
    rw [write, h.1]
    exact written_number h.1 h.2
  | var name => exact fun _ h => written_var h
  | unary op a iha => exact fun hwf h => (iha hwf.2 h).unary hwf.1
  | binary op a b iha ihb => exact fun hwf h => (iha hwf.1 h.1).binary op (ihb hwf.2 h.2)
  | call f args ih =>
    intro hwf h
    rw [WellFormed, allWellFormed_iff] at hwf
    rw [Leaves, allLeaves_iff] at h
    obtain ⟨ts, hlex, hden⟩ := written_arguments fun a ha => ih a ha (hwf.2 a ha) (h a ha)
    rw [write, writeAll_eq, reread, mapLiterals, mapAllLiterals_eq]
    exact ⟨_, hlex.call f, hden.call f.ofName?_name (by rw [List.length_map, hwf.1])⟩

/-- **An expression without negative literals is read back from its text**, up to how its literals
are spelled. -/
theorem parseProgram_text_of_spells {e : Expr} (hwf : e.WellFormed)
    (h : e.Leaves (fun d => d.isNegative = false ∧ d.Spells) IsIdentifier) :
    parseProgram e.text = .ok [e.reread] := by
  obtain ⟨ts, hlex, hden⟩ := written hwf h
  obtain ⟨d, hd, hbind, hmeaning⟩ := hden.expression_of_primary
  refine parseProgram_eq_ok_iff.mpr ⟨_, hlex.tokenize_ofList, ?_⟩
  rw [← hmeaning]
  refine (Grammar.Program.single (.expression d)).parsed ?_ ?_
  · exact List.forall_mem_singleton.mpr hbind
  · rw [map_token_placed, Grammar.Program.tokens_single]
    exact hd.symm

theorem parseProgram_text_of_readable {e : Expr} (h : e.Readable) :
    parseProgram e.text = .ok [e.reread] :=
  parseProgram_text_of_spells h.1 (h.2.mono (fun _ => And.imp_right .inr) fun _ => id)

/-- **Printing and then parsing gives the expression back.**  A well-formed expression whose names
and literals can be written is read back from its text as one statement, equal to it but for the
signs of its negative literals, and with the same text.  Whatever the parser answers is read back as
it is. -/
theorem parseProgram_text :
    (∀ e : Expr, e.WellFormed → e.Spellable →
      ∃ e', parseProgram e.text = .ok [e'] ∧ e'.equal e.signed = true ∧ e'.text = e.text) ∧
    (∀ (source : String) (es : List Expr), parseProgram source = .ok es →
      ∀ e ∈ es, ∃ e', parseProgram e.text = .ok [e'] ∧ e'.equal e = true) := by
  constructor
  · intro e hwf h
    have hreadable : e.signed.Readable := ⟨wellFormed_signed hwf, unsigned_signed h⟩
    have htext : e.signed.text = e.text := congrArg String.ofList (write_signed h)
    refine ⟨e.signed.reread, ?_, equal_reread _, ?_⟩
    · rw [← htext]
      exact parseProgram_text_of_readable hreadable
    · rw [← htext]
      exact congrArg String.ofList (write_reread hreadable.2)
  · intro source es hes e he
    have hreadable := readable_of_parseProgram hes e he
    exact ⟨e.reread, parseProgram_text_of_readable hreadable, equal_reread e⟩

/-- A negative literal, and a call on a variable and a literal that is written with an exponent. -/
def negativeSum : Expr :=
  .binary .plus (.number ⟨-25, 1⟩) (.call .hypot [.var "x_1", .number ⟨3, -20⟩])

example : negativeSum.text = "((-2.5) + hypot(x_1, 3e+20))" := by cbv

theorem parseProgram_text_negativeSum :
    (negativeSum.WellFormed ∧ negativeSum.Spellable ∧
      ∃ e', parseProgram negativeSum.text = .ok [e'] ∧ e'.equal negativeSum.signed = true ∧
        e'.text = negativeSum.text) ∧
    (parseProgram "x=-2.50" = .ok [.call .define [.var "x", .unary .minus (.number ⟨250, 2⟩)]] ∧
      ∃ e', parseProgram (call .define [.var "x", .unary .minus (.number ⟨250, 2⟩)]).text
          = .ok [e'] ∧
        e'.equal (.call .define [.var "x", .unary .minus (.number ⟨250, 2⟩)]) = true) := by
  have hwf : negativeSum.WellFormed := ⟨trivial, rfl, trivial, trivial, trivial⟩
  have hscale : (1 : Int).natAbs ≤ Numeral.maxScale ∧ (-20 : Int).natAbs ≤ Numeral.maxScale := by
    decide
  have hspell : negativeSum.Spellable :=
    ⟨hscale.1, ⟨'x', ['_', '1'], rfl, rfl, List.all_eq_true.mp rfl⟩, hscale.2, trivial⟩
  have hparse : parseProgram "x=-2.50" =
      .ok [.call .define [.var "x", .unary .minus (.number ⟨250, 2⟩)]] :=
    parseProgram_eq_ok_iff.mpr ⟨[⟨.identifier "x", 1⟩, ⟨.symbol .equals, 1⟩, ⟨.symbol .minus, 1⟩,
      ⟨.number ⟨250, 2⟩, 1⟩], by cbv, by cbv⟩
  exact ⟨⟨hwf, hspell, parseProgram_text.1 negativeSum hwf hspell⟩, hparse,
    parseProgram_text.2 _ _ hparse _ List.mem_cons_self⟩

end Expr

end Abacus
