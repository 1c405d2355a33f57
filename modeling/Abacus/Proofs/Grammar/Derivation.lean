import Abacus.Expr.Parser

/-!
# Proofs/Grammar/Derivation — the grammar of the language, and what its derivations denote

    program        := newline* (statement newline+)* statement? newline*
    statement      := expression ("=" expression)?
    expression     := comparison
    comparison     := bitOr (("==" | "!=" | "<" | "<=" | ">" | ">=") bitOr)*
    bitOr          := bitAnd ("|" bitAnd)*
    bitAnd         := shift ("&" shift)*
    shift          := additive (("<<" | ">>") additive)*
    additive       := multiplicative (("+" | "-") multiplicative)*
    multiplicative := unary (("*" | "/" | "%") unary)*
    unary          := ("-" | "+" | "~") unary | power
    power          := factorials ("^" unary)?
    factorials     := primary "!"*
    primary        := number | identifier "(" arguments ")" | identifier | "(" expression ")"
    arguments      := (expression ("," expression)*)?

A `Derivation` is a derivation tree, with one constructor for each way to go on.  It knows nothing
of the parser: `tokens` reads off the word that it derives and `meaning` what it denotes.  The six
levels of infix symbols have one production, `operand (symbol operand)*`; they differ in their
symbols (`Level.symbols`) and in what their operands are (`Level.tighter`).

A derivation says of a call only that a name is applied to arguments.  `CallsBind` adds that the
name is that of a function which takes that many.
-/

namespace Abacus

deriving instance DecidableEq for Infixed

/-! ## The symbols of the grammar -/

/-- The infix symbols of a level, and what each builds from its operands: an operator for the five
arithmetic ones, a call for the others. -/
def Level.symbols : Level → List (Symbol × Infixed)
  | .comparison =>
    [(.equalEqual, .function .equal), (.bangEqual, .function .unequal), (.less, .function .less),
      (.lessEqual, .function .lessEqual), (.greater, .function .greater),
      (.greaterEqual, .function .greaterEqual)]
  | .bitOr => [(.pipe, .function .bitOr)]
  | .bitAnd => [(.ampersand, .function .bitAnd)]
  | .shift => [(.shiftLeft, .function .bitShiftLeft), (.shiftRight, .function .bitShiftRight)]
  | .additive => [(.plus, .operator .plus), (.minus, .operator .minus)]
  | .multiplicative =>
    [(.star, .operator .times), (.slash, .operator .divide), (.percent, .operator .modulo)]

/-- The signs that stand in front of an operand. -/
inductive Sign where
  | minus
  | plus
  | tilde

/-- The symbol that writes a sign. -/
def Sign.symbol : Sign → Symbol
  | .minus => .minus
  | .plus => .plus
  | .tilde => .tilde

/-- The expression that a sign makes of its operand. -/
def Sign.apply : Sign → Expr → Expr
  | .minus, e => .unary .minus e
  | .plus, e => .unary .plus e
  | .tilde, e => .call .bitNot [e]

namespace Grammar

/-! ## Derivations -/

/-- What a derivation can derive. -/
inductive Nonterminal where
  /-- Operands of a level with its symbols between them. -/
  | level (l : Level)
  /-- An operand of a level. -/
  | operand (l : Level)
  /-- What follows the first operand of a level. -/
  | tail (l : Level)
  | unary
  | power
  | factorials
  | primary
  | arguments
  /-- One argument or more. -/
  | argumentList

/-- What derivations denote: what follows an operand acts on it, arguments are a list, and all else
is an expression. -/
@[reducible] def Nonterminal.Meaning : Nonterminal → Type
  | .tail _ => Expr → Expr
  | .arguments | .argumentList => List Expr
  | _ => Expr

/-- **A derivation tree of the grammar.** -/
inductive Derivation : Nonterminal → Type where
  | level {l} (first : Derivation (.operand l)) (rest : Derivation (.tail l)) :
      Derivation (.level l)
  | stop {l} : Derivation (.tail l)
  | more {l} (s : Symbol) (form : Infixed) (h : (s, form) ∈ l.symbols)
    (rhs : Derivation (.operand l)) (rest : Derivation (.tail l)) : Derivation (.tail l)
  | tighter {l l'} (h : l.tighter = some l') (e : Derivation (.level l')) :
    Derivation (.operand l)
  | tightest {l} (h : l.tighter = none) (e : Derivation .unary) : Derivation (.operand l)
  | signed (sign : Sign) (e : Derivation .unary) : Derivation .unary
  | unsigned (e : Derivation .power) : Derivation .unary
  | bare (e : Derivation .factorials) : Derivation .power
  | raised (base : Derivation .factorials) (exponent : Derivation .unary) : Derivation .power
  | factorials (e : Derivation .primary) (count : Nat) : Derivation .factorials
  | number (d : Decimal) : Derivation .primary
  | identifier (name : String) : Derivation .primary
  | call (name : String) (args : Derivation .arguments) : Derivation .primary
  | group (e : Derivation (.level .comparison)) : Derivation .primary
  | noArguments : Derivation .arguments
  | someArguments (args : Derivation .argumentList) : Derivation .arguments
  | last (e : Derivation (.level .comparison)) : Derivation .argumentList
  | next (e : Derivation (.level .comparison)) (args : Derivation .argumentList) :
    Derivation .argumentList

namespace Derivation

/-- **The word that a derivation derives.** -/
def tokens {n : Nonterminal} : Derivation n → List Token
  | .level first rest => first.tokens ++ rest.tokens
  | .stop => []
  | .more s _ _ rhs rest => .symbol s :: (rhs.tokens ++ rest.tokens)
  | .tighter _ e => e.tokens
  | .tightest _ e => e.tokens
  | .signed sign e => .symbol sign.symbol :: e.tokens
  | .unsigned e => e.tokens
  | .bare e => e.tokens
  | .raised base exponent => base.tokens ++ .symbol .caret :: exponent.tokens
  | .factorials e count => e.tokens ++ List.replicate count (.symbol .bang)
  | .number d => [.number d]
  | .identifier name => [.identifier name]
  | .call name args =>
    .identifier name :: .symbol .leftParen :: (args.tokens ++ [.symbol .rightParen])
  | .group e => .symbol .leftParen :: (e.tokens ++ [.symbol .rightParen])
  | .noArguments => []
  | .someArguments args => args.tokens
  | .last e => e.tokens
  | .next e args => e.tokens ++ .symbol .comma :: args.tokens

/-- The call of the function of a name; a name that no function has stands for itself. -/
def callOf (name : String) (args : List Expr) : Expr :=
  match Builtin.ofName? name with
  | some f => .call f args
  | none => .var name

/-- An expression under some factorials. -/
def factorialOf : Nat → Expr → Expr
  | 0, e => e
  | count + 1, e => factorialOf count (.call .factorial [e])

/-- **What a derivation denotes.**  Infix symbols join from the left, because what follows an
operand acts on all that stands before it; signs and `^` join from the right. -/
def meaning {n : Nonterminal} : Derivation n → n.Meaning
  | .level first rest => rest.meaning first.meaning
  | .stop => fun lhs => lhs
  | .more _ form _ rhs rest => fun lhs => rest.meaning (form.join lhs rhs.meaning)
  | .tighter _ e => e.meaning
  | .tightest _ e => e.meaning
  | .signed sign e => sign.apply e.meaning
  | .unsigned e => e.meaning
  | .bare e => e.meaning
  | .raised base exponent => .call .power [base.meaning, exponent.meaning]
  | .factorials e count => factorialOf count e.meaning
  | .number d => .number d
  | .identifier name => .var name
  | .call name args => callOf name args.meaning
  | .group e => e.meaning
  | .noArguments => []
  | .someArguments args => args.meaning
  | .last e => [e.meaning]
  | .next e args => e.meaning :: args.meaning

/-- **Every name that is applied to arguments is that of a function which takes that many.** -/
def CallsBind {n : Nonterminal} : Derivation n → Prop
  | .level first rest => first.CallsBind ∧ rest.CallsBind
  | .stop => True
  | .more _ _ _ rhs rest => rhs.CallsBind ∧ rest.CallsBind
  | .tighter _ e => e.CallsBind
  | .tightest _ e => e.CallsBind
  | .signed _ e => e.CallsBind
  | .unsigned e => e.CallsBind
  | .bare e => e.CallsBind
  | .raised base exponent => base.CallsBind ∧ exponent.CallsBind
  | .factorials e _ => e.CallsBind
  | .number _ => True
  | .identifier _ => True
  | .call name args =>
    (∃ f, Builtin.ofName? name = some f ∧ args.meaning.length = f.arity) ∧ args.CallsBind
  | .group e => e.CallsBind
  | .noArguments => True
  | .someArguments args => args.CallsBind
  | .last e => e.CallsBind
  | .next e args => e.CallsBind ∧ args.CallsBind

end Derivation

/-- **The tokens derive something that denotes `x`**, and all its calls bind. -/
def Denotes (n : Nonterminal) (ts : List Token) (x : n.Meaning) : Prop :=
  ∃ d : Derivation n, d.tokens = ts ∧ d.CallsBind ∧ d.meaning = x

theorem Denotes.group {ts : List Token} {e : Expr} (h : Denotes (.level .comparison) ts e) :
    Denotes .primary (.symbol .leftParen :: (ts ++ [.symbol .rightParen])) e := by
  obtain ⟨d, rfl, hbind, rfl⟩ := h
  exact ⟨.group d, rfl, hbind, rfl⟩

theorem Denotes.call {ts : List Token} {args : List Expr} (h : Denotes .arguments ts args)
    {name : String} {f : Builtin} (hf : Builtin.ofName? name = some f)
    (harity : args.length = f.arity) :
    Denotes .primary
      (.identifier name :: .symbol .leftParen :: (ts ++ [.symbol .rightParen])) (.call f args) := by
  obtain ⟨d, rfl, hbind, rfl⟩ := h
  refine ⟨.call name d, rfl, ⟨⟨f, hf, harity⟩, hbind⟩, ?_⟩
  simp only [Derivation.meaning, Derivation.callOf, hf]

/-! ## Programs -/

/-- An expression, or an assignment of one to another. -/
inductive Statement where
  | expression (e : Derivation (.level .comparison))
  | assignment (target value : Derivation (.level .comparison))

namespace Statement

/-- The word that a statement derives. -/
def tokens : Statement → List Token
  | .expression e => e.tokens
  | .assignment target value => target.tokens ++ .symbol .equals :: value.tokens

/-- The expression that a statement denotes; an assignment is a call of `define`. -/
def meaning : Statement → Expr
  | .expression e => e.meaning
  | .assignment target value => .call .define [target.meaning, value.meaning]

/-- Every call of a statement binds. -/
def CallsBind : Statement → Prop
  | .expression e => e.CallsBind
  | .assignment target value => target.CallsBind ∧ value.CallsBind

end Statement

/-- Every statement but the last is followed by the end of a line, or several. -/
def Separated (lines : List (Statement × Nat)) : Prop :=
  ∀ line ∈ lines.dropLast, 0 < line.2

/-- **A derivation of a program**: ends of lines, and statements with ends of lines after each. -/
structure Program where
  /-- The number of ends of lines before the first statement. -/
  leading : Nat
  /-- The statements, and how many ends of lines follow each. -/
  lines : List (Statement × Nat)
  separated : Separated lines

/-- The word of a statement and the ends of lines after it. -/
def lineTokens (line : Statement × Nat) : List Token :=
  line.1.tokens ++ List.replicate line.2 .newLine

namespace Program

/-- The word that a program derives. -/
def tokens (p : Program) : List Token :=
  List.replicate p.leading .newLine ++ p.lines.flatMap lineTokens

/-- The expressions that a program denotes, one for each statement. -/
def meanings (p : Program) : List Expr :=
  p.lines.map fun line => line.1.meaning

/-- Every call of a program binds. -/
def CallsBind (p : Program) : Prop :=
  ∀ line ∈ p.lines, line.1.CallsBind

end Program

end Grammar

end Abacus
