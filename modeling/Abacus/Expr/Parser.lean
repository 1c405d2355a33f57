import Abacus.Token.Lexer

/-!
# Expr/Parser — from tokens to expressions

    statement      := expression ("=" expression)? (end of line | end of input)
    expression     := comparison
    comparison     := bitOr (("==" | "!=" | "<" | "<=" | ">" | ">=") bitOr)*
    bitOr          := bitAnd ("|" bitAnd)*
    bitAnd         := shift ("&" shift)*
    shift          := additive (("<<" | ">>") additive)*
    additive       := multiplicative (("+" | "-") multiplicative)*
    multiplicative := unary (("*" | "/" | "%") unary)*
    unary          := ("-" | "+" | "~") unary | power
    power          := factorials ("^" unary)?
    factorials     := primary "!"*
    primary        := number | identifier | identifier "(" arguments ")" | "(" expression ")"
    arguments      := (expression ("," expression)*)?

Every routine answers what it read together with a *shorter* list of tokens, and that it is shorter is
part of the answer's type: the recursion ends because of it.
-/

namespace Abacus

/-! ## The levels of infix operators -/

/-- The levels of infix operators, from the loosest to the tightest. -/
inductive Level where
  | comparison
  | bitOr
  | bitAnd
  | shift
  | additive
  | multiplicative
deriving DecidableEq

/-- The next tighter level; the operands of the tightest are signed expressions. -/
def Level.tighter : Level → Option Level
  | .comparison => some .bitOr
  | .bitOr => some .bitAnd
  | .bitAnd => some .shift
  | .shift => some .additive
  | .additive => some .multiplicative
  | .multiplicative => none

/-- How many levels there are down from this one. -/
def Level.depth : Level → Nat
  | .comparison => 6
  | .bitOr => 5
  | .bitAnd => 4
  | .shift => 3
  | .additive => 2
  | .multiplicative => 1

@[simp] theorem Level.depth_comparison : Level.comparison.depth = 6 := rfl

theorem Level.depth_tighter {l l' : Level} (h : l.tighter = some l') : l'.depth < l.depth := by
  cases l <;> cases h <;> decide

/-- What an infix symbol builds from its operands. -/
inductive Infixed where
  | operator (op : Operator)
  | function (f : Builtin)

/-- The expression that joins two operands. -/
def Infixed.join (form : Infixed) (lhs rhs : Expr) : Expr :=
  match form with
  | .operator op => .binary op lhs rhs
  | .function f => .call f [lhs, rhs]

/-- The level of an infix symbol, and what it builds. -/
def Symbol.infixed? : Symbol → Option (Level × Infixed)
  | .equalEqual => some (.comparison, .function .equal)
  | .bangEqual => some (.comparison, .function .unequal)
  | .less => some (.comparison, .function .less)
  | .lessEqual => some (.comparison, .function .lessEqual)
  | .greater => some (.comparison, .function .greater)
  | .greaterEqual => some (.comparison, .function .greaterEqual)
  | .pipe => some (.bitOr, .function .bitOr)
  | .ampersand => some (.bitAnd, .function .bitAnd)
  | .shiftLeft => some (.shift, .function .bitShiftLeft)
  | .shiftRight => some (.shift, .function .bitShiftRight)
  | .plus => some (.additive, .operator .plus)
  | .minus => some (.additive, .operator .minus)
  | .star => some (.multiplicative, .operator .times)
  | .slash => some (.multiplicative, .operator .divide)
  | .percent => some (.multiplicative, .operator .modulo)
  | _ => none

/-- What a token of the level `l` builds from the operands around it. -/
def Token.joiner? (l : Level) : Token → Option Infixed
  | .symbol s =>
    match s.infixed? with
    | some (l', form) => if l' = l then some form else none
    | none => none
  | _ => none

/-- What a sign in front of an operand builds from it. -/
def Token.signed? : Token → Option (Expr → Expr)
  | .symbol .minus => some (.unary .minus)
  | .symbol .plus => some (.unary .plus)
  | .symbol .tilde => some fun e => .call .bitNot [e]
  | _ => none

/-! ## Answers of the parser -/

/-- Why no expression could be read: something is wrong at a place, or the tokens have run out. -/
inductive Failure where
  | fault (error : ParseError)
  | outOfTokens

/-- The failure as an error, given the line on which the last token stands. -/
def Failure.toError (lastLine : Nat) : Failure → ParseError
  | .fault error => error
  | .outOfTokens => ⟨lastLine, .endOfInput⟩

/-- A failure at a line. -/
def Failure.at (line : Nat) (fault : ParseFault) : Failure :=
  .fault ⟨line, fault⟩

/-- What is left of `ts` after something was read from it. -/
abbrev Rest (ts : List PlacedToken) : Type :=
  { rest : List PlacedToken // rest.length < ts.length }

/-- What was read from the front of `ts`, and what is left. -/
abbrev Parsed (α : Type) (ts : List PlacedToken) : Type :=
  Except Failure (α × Rest ts)

/-- What follows the token `k`, if the tokens begin with it. -/
def after? (k : Token) (ts : List PlacedToken) : Option (Rest ts) :=
  match ts with
  | [] => none
  | t :: rest => if t.token = k then some ⟨rest, Nat.lt_succ_self _⟩ else none

/-- The call of the function called `name`, which stands on the given line. -/
def callNamed (name : String) (args : List Expr) (line : Nat) : Except Failure Expr :=
  match Builtin.ofName? name with
  | none => .error (.at line (.unknownFunction name))
  | some f =>
    match f.bind args with
    | .ok e => .ok e
    | .error cause => .error (.at line (.invalidCall cause))

/-- `e` under as many factorials as there are `!` at the front of `ts`. -/
def factorialsOf (e : Expr) (ts : List PlacedToken) :
    Expr × { rest : List PlacedToken // rest.length ≤ ts.length } :=
  match ts with
  | ⟨.symbol .bang, _⟩ :: rest =>
    let (e, ⟨rest', h⟩) := factorialsOf (.call .factorial [e]) rest
    (e, ⟨rest', Nat.le_succ_of_le h⟩)
  | ts => (e, ⟨ts, Nat.le_refl _⟩)

/-! ## The grammar -/

mutual

/-- Operands of the level below `l`, joined from the left by the symbols of `l`. -/
def parseLevel (l : Level) (ts : List PlacedToken) : Parsed Expr ts := do
  let (lhs, ⟨rest, h⟩) ← parseOperand l ts
  let (e, ⟨rest', h'⟩) ← parseMore l lhs rest
  return (e, ⟨rest', by omega⟩)
termination_by (ts.length, 2 * l.depth + 5)

/-- Further symbols of the level `l` and their right operands, after the operand `lhs`. -/
def parseMore (l : Level) (lhs : Expr) (ts : List PlacedToken) :
    Except Failure (Expr × { rest : List PlacedToken // rest.length ≤ ts.length }) :=
  match ts with
  | [] => .ok (lhs, ⟨[], Nat.le_refl _⟩)
  | t :: rest =>
    match t.token.joiner? l with
    | none => .ok (lhs, ⟨t :: rest, Nat.le_refl _⟩)
    | some form => do
      let (rhs, ⟨rest', h⟩) ← parseOperand l rest
      let (e, ⟨rest'', h'⟩) ← parseMore l (form.join lhs rhs) rest'
      return (e, ⟨rest'', by simp only [List.length_cons]; omega⟩)
termination_by (ts.length, 0)

/-- An operand of the level `l`. -/
def parseOperand (l : Level) (ts : List PlacedToken) : Parsed Expr ts :=
  match h : l.tighter with
  | some l' =>
    have := Level.depth_tighter h
    parseLevel l' ts
  | none => parseUnary ts
termination_by (ts.length, 2 * l.depth + 4)

/-- Signs, and what they stand in front of. -/
def parseUnary (ts : List PlacedToken) : Parsed Expr ts :=
  match ts with
  | [] => .error .outOfTokens
  | t :: rest =>
    match t.token.signed? with
    | some sign => do
      let (e, ⟨rest', h⟩) ← parseUnary rest
      return (sign e, ⟨rest', by simp only [List.length_cons]; omega⟩)
    | none => parsePower (t :: rest)
termination_by (ts.length, 3)

/-- A power, whose exponent may be signed and a power itself. -/
def parsePower (ts : List PlacedToken) : Parsed Expr ts := do
  let (e, ⟨rest, h⟩) ← parsePrimary ts
  let (base, ⟨rest, h⟩) := factorialsOf e rest
  match after? (.symbol .caret) rest with
  | none => return (base, ⟨rest, by omega⟩)
  | some ⟨rest', h'⟩ =>
    let (exponent, ⟨rest'', h''⟩) ← parseUnary rest'
    return (.call .power [base, exponent], ⟨rest'', by omega⟩)
termination_by (ts.length, 2)

/-- A number, a variable, a call, or an expression in parentheses. -/
def parsePrimary (ts : List PlacedToken) : Parsed Expr ts :=
  match ts with
  | [] => .error .outOfTokens
  | ⟨.number d, _⟩ :: rest => .ok (.number d, ⟨rest, by simp⟩)
  | ⟨.identifier name, line⟩ :: ⟨.symbol .leftParen, _⟩ :: rest => do
    let (args, ⟨rest', h⟩) ← parseArguments rest
    let e ← callNamed name args line
    return (e, ⟨rest', by simp only [List.length_cons]; omega⟩)
  | ⟨.identifier name, _⟩ :: rest => .ok (.var name, ⟨rest, by simp⟩)
  | ⟨.symbol .leftParen, line⟩ :: rest => do
    let (e, ⟨rest', h⟩) ← parseLevel .comparison rest
    match after? (.symbol .rightParen) rest' with
    | some ⟨rest'', h'⟩ => return (e, ⟨rest'', by simp only [List.length_cons]; omega⟩)
    | none => throw (.at line .unclosedParenthesis)
  | t :: _ => .error (.at t.line (.unexpectedToken t.token))
termination_by (ts.length, 1)

/-- The arguments of a call, up to and including the closing parenthesis. -/
def parseArguments (ts : List PlacedToken) : Parsed (List Expr) ts :=
  match after? (.symbol .rightParen) ts with
  | some rest => .ok ([], rest)
  | none => parseArgumentList ts
termination_by (ts.length, 19)

/-- One argument or more, up to and including the closing parenthesis. -/
def parseArgumentList (ts : List PlacedToken) : Parsed (List Expr) ts := do
  let (e, ⟨rest, h⟩) ← parseLevel .comparison ts
  match after? (.symbol .comma) rest with
  | some ⟨rest', h'⟩ =>
    let (es, ⟨rest'', h''⟩) ← parseArgumentList rest'
    return (e :: es, ⟨rest'', by omega⟩)
  | none =>
    match after? (.symbol .rightParen) rest with
    | some ⟨rest', h'⟩ => return ([e], ⟨rest', by omega⟩)
    | none =>
      match rest with
      | t :: _ => throw (.at t.line (.unexpectedInArguments t.token))
      | [] => throw .outOfTokens
termination_by (ts.length, 18)

end

/-- **An expression at the front of the tokens.** -/
def parseExpression (ts : List PlacedToken) : Parsed Expr ts :=
  parseLevel .comparison ts

/-- An expression, or an assignment of one. -/
def parseAssignment (ts : List PlacedToken) : Parsed Expr ts := do
  let (target, ⟨rest, h⟩) ← parseExpression ts
  match after? (.symbol .equals) rest with
  | none => return (target, ⟨rest, h⟩)
  | some ⟨rest', h'⟩ =>
    let (value, ⟨rest'', h''⟩) ← parseExpression rest'
    return (.call .define [target, value], ⟨rest'', by omega⟩)

/-- A statement: an expression or an assignment, and the end of its line. -/
def parseStatement (ts : List PlacedToken) : Parsed Expr ts := do
  let (e, ⟨rest, h⟩) ← parseAssignment ts
  match after? .newLine rest with
  | some ⟨rest', h'⟩ => return (e, ⟨rest', by omega⟩)
  | none =>
    match rest with
    | [] => return (e, ⟨[], Nat.lt_of_le_of_lt (Nat.zero_le _) h⟩)
    | t :: _ => throw (.at t.line (.trailingToken t.token))

/-- The statements of a list of tokens; empty lines between them are skipped. -/
def parseStatements (ts : List PlacedToken) : Except Failure (List Expr) :=
  match ts with
  | [] => .ok []
  | ⟨.newLine, _⟩ :: rest => parseStatements rest
  | t :: rest => do
    let (e, ⟨rest', h⟩) ← parseStatement (t :: rest)
    have : rest'.length < (t :: rest).length := h
    let es ← parseStatements rest'
    return e :: es
termination_by ts.length
decreasing_by
  · exact Nat.lt_succ_self _
  · exact this

/-- The line of the last token; an empty text has one line. -/
def lastLine (ts : List PlacedToken) : Nat :=
  match ts.getLast? with
  | some t => t.line
  | none => 1

/-- **The statements of a source text.** -/
def parseProgram (source : String) : Except ParseError (List Expr) :=
  match tokenize source with
  | .error e => .error e
  | .ok ts => (parseStatements ts).mapError (Failure.toError (lastLine ts))

end Abacus
