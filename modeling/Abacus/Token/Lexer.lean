import Abacus.Error.Parsing

/-!
# Token/Lexer — cutting a source text into tokens

`Lexeme.scan?` takes the longest lexeme off the front of a text, and `tokenize` repeats it, keeping
the tokens, counting the lines and leaving out blanks and comments. A numeral backs off: in `1e+` only
the `1` is a number, because no digit follows the sign.
-/

namespace Abacus

open Decimal (isDigit)

/-! ## Character classes -/

/-- The characters that may begin an identifier. -/
def isIdentifierStart (c : Char) : Bool :=
  ('a' ≤ c && c ≤ 'z') || ('A' ≤ c && c ≤ 'Z') || c == '_'

/-- The characters that may go on in an identifier. -/
def isIdentifierRest (c : Char) : Bool :=
  isIdentifierStart c || isDigit c

/-- Blanks within a line. -/
def isBlank (c : Char) : Bool :=
  c == ' ' || c == '\t' || c == '\r' || c == '\x0c'

/-- The characters that end a comment. -/
def endsComment (c : Char) : Bool :=
  c == '\n' || c == '\r'

/-! ## Numerals -/

/-- A written number, taken apart. -/
structure Numeral where
  /-- The digits before the point. -/
  whole : List Char
  /-- The digits after the point. -/
  fraction : List Char
  /-- The sign and the digits of the exponent; empty if there is none. -/
  exponent : List Char

namespace Numeral

/-- The digits after a point, and what follows them; a point without digits is left alone. -/
def spanFraction (cs : List Char) : List Char × List Char :=
  match cs with
  | '.' :: rest =>
    let digits := rest.takeWhile isDigit
    if digits.isEmpty then ([], cs) else (digits, rest.dropWhile isDigit)
  | _ => ([], cs)

/-- A sign, if there is one, and what follows it. -/
def spanSign : List Char → List Char × List Char
  | '+' :: rest => (['+'], rest)
  | '-' :: rest => (['-'], rest)
  | cs => ([], cs)

/-- The sign and digits after the mark of an exponent, and what follows them; a mark without digits
is left alone. -/
def spanExponent (cs : List Char) : List Char × List Char :=
  match cs with
  | [] => ([], [])
  | mark :: rest =>
    if mark == 'e' || mark == 'E' then
      let (sign, rest) := spanSign rest
      let digits := rest.takeWhile isDigit
      if digits.isEmpty then ([], cs) else (sign ++ digits, rest.dropWhile isDigit)
    else ([], cs)

/-- The longest numeral at the front of a text: digits before the point, digits after it, or both. -/
def scan? (cs : List Char) : Option (Numeral × List Char) :=
  let whole := cs.takeWhile isDigit
  let (fraction, rest) := spanFraction (cs.dropWhile isDigit)
  if whole.isEmpty && fraction.isEmpty then none
  else
    let (exponent, rest) := spanExponent rest
    some (⟨whole, fraction, exponent⟩, rest)

/-- The exponent that a numeral writes. -/
def exponentValue (n : Numeral) : Int :=
  (Decimal.readSigned? Decimal.readPlain? n.exponent).getD 0

/-- **The decimal that a numeral writes**: all its digits as the coefficient, and as the scale the
number of digits after the point less the exponent. -/
def toDecimal (n : Numeral) : Decimal :=
  ⟨Digits.read (n.whole ++ n.fraction), n.fraction.length - n.exponentValue⟩

/-- The largest scale, up or down, that a numeral may have. -/
def maxScale : Nat := 1000000

/-- Whether a numeral may stand in a program. -/
def inRange (n : Numeral) : Bool :=
  n.toDecimal.scale.natAbs ≤ maxScale

end Numeral

/-! ## Symbols -/

/-- The longest symbol at the front of a text. -/
def Symbol.scan? : List Char → Option (Symbol × List Char)
  | '<' :: '<' :: cs => some (.shiftLeft, cs)
  | '>' :: '>' :: cs => some (.shiftRight, cs)
  | '=' :: '=' :: cs => some (.equalEqual, cs)
  | '!' :: '=' :: cs => some (.bangEqual, cs)
  | '<' :: '=' :: cs => some (.lessEqual, cs)
  | '>' :: '=' :: cs => some (.greaterEqual, cs)
  | '+' :: cs => some (.plus, cs)
  | '-' :: cs => some (.minus, cs)
  | '*' :: cs => some (.star, cs)
  | '/' :: cs => some (.slash, cs)
  | '%' :: cs => some (.percent, cs)
  | '^' :: cs => some (.caret, cs)
  | '!' :: cs => some (.bang, cs)
  | '~' :: cs => some (.tilde, cs)
  | '&' :: cs => some (.ampersand, cs)
  | '|' :: cs => some (.pipe, cs)
  | '(' :: cs => some (.leftParen, cs)
  | ')' :: cs => some (.rightParen, cs)
  | ',' :: cs => some (.comma, cs)
  | '=' :: cs => some (.equals, cs)
  | '<' :: cs => some (.less, cs)
  | '>' :: cs => some (.greater, cs)
  | _ => none

/-! ## Lexemes -/

/-- A piece of a source text. -/
inductive Lexeme where
  /-- Blanks, or a comment. -/
  | blank
  | newLine
  | identifier (name : List Char)
  | numeral (n : Numeral)
  | symbol (s : Symbol)

/-- **The longest lexeme at the front of a text**, and what follows it. -/
def Lexeme.scan? : List Char → Option (Lexeme × List Char)
  | [] => none
  | '\n' :: cs => some (.newLine, cs)
  | '/' :: '/' :: cs => some (.blank, cs.dropWhile (!endsComment ·))
  | c :: cs =>
    if isBlank c then some (.blank, cs.dropWhile isBlank)
    else if isIdentifierStart c then
      some (.identifier (c :: cs.takeWhile isIdentifierRest), cs.dropWhile isIdentifierRest)
    else
      match Numeral.scan? (c :: cs) with
      | some (n, rest) => some (.numeral n, rest)
      | none => (Symbol.scan? (c :: cs)).map fun (s, rest) => (.symbol s, rest)

/-! ## Every lexeme takes something -/

theorem length_dropWhile_le {α : Type} (p : α → Bool) (xs : List α) :
    (xs.dropWhile p).length ≤ xs.length :=
  (List.dropWhile_suffix p).length_le

theorem length_takeWhile_add {α : Type} (p : α → Bool) (xs : List α) :
    (xs.takeWhile p).length + (xs.dropWhile p).length = xs.length := by
  rw [← List.length_append, List.takeWhile_append_dropWhile]

theorem Numeral.length_spanFraction (cs : List Char) :
    (spanFraction cs).1.length + (spanFraction cs).2.length ≤ cs.length := by
  unfold spanFraction
  split
  · next rest =>
      have := length_takeWhile_add isDigit rest
      simp only
      split <;> simp only [List.length_cons, List.length_nil] <;> omega
  · simp

theorem Numeral.length_spanSign (cs : List Char) : (spanSign cs).2.length ≤ cs.length := by
  unfold spanSign
  split <;> simp

theorem Numeral.length_spanExponent (cs : List Char) :
    (spanExponent cs).2.length ≤ cs.length := by
  unfold spanExponent
  split
  · simp
  · next mark rest =>
      have hs := length_spanSign rest
      have hd := length_dropWhile_le isDigit (spanSign rest).2
      simp only
      split
      · split <;> simp only [List.length_cons] <;> omega
      · simp

theorem Numeral.length_lt_of_scan? {cs rest : List Char} {n : Numeral}
    (h : scan? cs = some (n, rest)) : rest.length < cs.length := by
  have hw := length_takeWhile_add isDigit cs
  have hf := length_spanFraction (cs.dropWhile isDigit)
  have he := length_spanExponent (spanFraction (cs.dropWhile isDigit)).2
  simp only [scan?] at h
  split at h
  · simp at h
  · next hne =>
      simp only [Option.some.injEq, Prod.mk.injEq] at h
      rw [← h.2]
      simp only [Bool.and_eq_true, List.isEmpty_iff] at hne
      rcases Decidable.not_and_iff_or_not.mp hne with hne | hne <;> have := List.length_pos_iff.mpr hne <;> omega

theorem Symbol.length_lt_of_scan? {cs rest : List Char} {s : Symbol}
    (h : scan? cs = some (s, rest)) : rest.length < cs.length := by
  unfold scan? at h
  split at h <;> simp only [Option.some.injEq, Prod.mk.injEq, reduceCtorEq] at h <;>
    simp only [← h.2, List.length_cons] <;> omega

/-- **A lexeme takes at least one character.** -/
theorem Lexeme.length_lt_of_scan? {cs rest : List Char} {l : Lexeme}
    (h : scan? cs = some (l, rest)) : rest.length < cs.length := by
  unfold scan? at h
  split at h
  · simp at h
  · next cs =>
      simp only [Option.some.injEq, Prod.mk.injEq] at h
      simp [← h.2]
  · next cs =>
      have := length_dropWhile_le (!endsComment ·) cs
      simp only [Option.some.injEq, Prod.mk.injEq] at h
      simp only [← h.2, List.length_cons]
      omega
  · next c cs _ _ =>
      split at h
      · have := length_dropWhile_le isBlank cs
        simp only [Option.some.injEq, Prod.mk.injEq] at h
        simp only [← h.2, List.length_cons]
        omega
      · split at h
        · have := length_dropWhile_le isIdentifierRest cs
          simp only [Option.some.injEq, Prod.mk.injEq] at h
          simp only [← h.2, List.length_cons]
          omega
        · split at h
          · next hn =>
              simp only [Option.some.injEq, Prod.mk.injEq] at h
              rw [← h.2]
              exact Numeral.length_lt_of_scan? hn
          · obtain ⟨⟨s, r⟩, hs, he⟩ := Option.map_eq_some_iff.mp h
            simp only [Prod.mk.injEq] at he
            rw [← he.2]
            exact Symbol.length_lt_of_scan? hs

/-! ## Tokens -/

/-- The tokens of a text that begins on the given line. -/
def tokenizeFrom (line : Nat) (cs : List Char) : Except ParseError (List PlacedToken) :=
  match h : Lexeme.scan? cs with
  | none =>
    match cs with
    | [] => .ok []
    | c :: _ => .error ⟨line, .unexpectedCharacter c⟩
  | some (lexeme, rest) =>
    have : rest.length < cs.length := Lexeme.length_lt_of_scan? h
    match lexeme with
    | .blank => tokenizeFrom line rest
    -- the end of a line belongs to the line that it begins
    | .newLine => (tokenizeFrom (line + 1) rest).map (⟨.newLine, line + 1⟩ :: ·)
    | .identifier name =>
      (tokenizeFrom line rest).map (⟨.identifier (String.ofList name), line⟩ :: ·)
    | .symbol s => (tokenizeFrom line rest).map (⟨.symbol s, line⟩ :: ·)
    | .numeral n =>
      if n.inRange then (tokenizeFrom line rest).map (⟨.number n.toDecimal, line⟩ :: ·)
      else
        let literal := String.ofList (cs.take (cs.length - rest.length))
        .error ⟨line, .numberOutOfRange literal⟩
termination_by cs.length

/-- **The tokens of a source text.** -/
def tokenize (source : String) : Except ParseError (List PlacedToken) :=
  tokenizeFrom 1 source.toList

end Abacus
