import Abacus.Proofs.Token.Lexing
import Mathlib.Computability.Language
import Mathlib.Data.Nat.Digits.Defs

/-!
# Proofs/Token/Pattern — the patterns that lexemes match

A `Pattern` is a regular language: numbers, identifiers, symbols, ends of lines, comments and blanks
each have theirs.  Of a number it is not enough to know that it matches.  `Writes w d` says which
decimal the word `w` writes, and the numbers are just the words that write one (`mem_words_number`).

Nothing here scans a text.
-/

namespace Abacus

open Decimal (isDigit)
open Digits (AllDigits)
open scoped Computability

/-! ## Patterns -/

/-- The words of one character of a class. -/
def oneOf (p : Char → Bool) : Language Char :=
  {w | ∃ c, p c = true ∧ w = [c]}

/-- What may mark an exponent. -/
def isExponentMark (c : Char) : Bool :=
  c == 'e' || c == 'E'

/-- What may stand in front of the digits of an exponent. -/
def isSign (c : Char) : Bool :=
  c == '+' || c == '-'

/-- `[0-9]+` -/
def digitWords : Language Char :=
  oneOf isDigit * (oneOf isDigit)∗

/-- `([eE][+-]?[0-9]+)?` -/
def exponentWords : Language Char :=
  1 + oneOf isExponentMark * (1 + oneOf isSign) * digitWords

/-- The kinds of lexemes. -/
inductive Pattern where
  | number
  | identifier
  | symbol (s : Symbol)
  | newLine
  | comment
  | blanks

/-- **The words that match a pattern.** -/
def Pattern.words : Pattern → Language Char
  -- digits with a point among them or none, or a point and digits
  | .number =>
    digitWords * (1 + {['.']} * digitWords) * exponentWords + {['.']} * digitWords * exponentWords
  | .identifier => oneOf isIdentifierStart * (oneOf isIdentifierRest)∗
  | .symbol s => {s.chars}
  | .newLine => {['\n']}
  | .comment => {['/', '/']} * (oneOf (!endsComment ·))∗
  | .blanks => oneOf isBlank * (oneOf isBlank)∗

section Languages

variable {p : Char → Bool} {w : List Char}

theorem mem_kstar_oneOf : w ∈ (oneOf p)∗ ↔ ∀ c ∈ w, p c = true := by
  rw [Language.mem_kstar]
  constructor
  · rintro ⟨parts, rfl, hparts⟩ c hc
    obtain ⟨part, hpart, hc⟩ := List.mem_flatten.mp hc
    obtain ⟨d, hd, rfl⟩ := hparts part hpart
    rwa [List.mem_singleton.mp hc]
  · intro h
    refine ⟨w.map ([·]), by rw [← List.flatMap_def, List.flatMap_singleton'], ?_⟩
    intro part hpart
    obtain ⟨c, hc, rfl⟩ := List.mem_map.mp hpart
    exact ⟨c, h c hc, rfl⟩

theorem mem_oneOf_mul {l : Language Char} :
    w ∈ oneOf p * l ↔ ∃ c w', p c = true ∧ w' ∈ l ∧ w = c :: w' := by
  rw [Language.mem_mul]
  constructor
  · rintro ⟨_, ⟨c, hc, rfl⟩, w', hw', rfl⟩
    exact ⟨c, w', hc, hw', rfl⟩
  · rintro ⟨c, w', hc, hw', rfl⟩
    exact ⟨[c], ⟨c, hc, rfl⟩, w', hw', rfl⟩

theorem mem_singleton_mul {u : List Char} {l : Language Char} :
    w ∈ ({u} : Language Char) * l ↔ ∃ w' ∈ l, w = u ++ w' := by
  rw [Language.mem_mul]
  constructor
  · rintro ⟨_, rfl, w', hw', rfl⟩
    exact ⟨w', hw', rfl⟩
  · rintro ⟨w', hw', rfl⟩
    exact ⟨u, rfl, w', hw', rfl⟩

theorem mem_digitWords : w ∈ digitWords ↔ AllDigits w ∧ w ≠ [] := by
  rw [digitWords, mem_oneOf_mul]
  constructor
  · rintro ⟨c, w', hc, hw', rfl⟩
    exact ⟨List.forall_mem_cons.mpr ⟨hc, mem_kstar_oneOf.mp hw'⟩, List.cons_ne_nil c w'⟩
  · rintro ⟨hdigits, hne⟩
    match w with
    | c :: w' =>
      obtain ⟨hc, hw'⟩ := List.forall_mem_cons.mp hdigits
      exact ⟨c, w', hc, mem_kstar_oneOf.mpr hw', rfl⟩

end Languages

/-! ## The decimal that a number writes -/

/-- The number that digits write, the most significant first. -/
def digitsValue (cs : List Char) : Nat :=
  Nat.ofDigits 10 (cs.map Digits.digit).reverse

/-- **What stands for an exponent, and which**: nothing, or a mark, a sign or none, and digits. -/
inductive WritesExponent : List Char → Int → Prop
  | none : WritesExponent [] 0
  | unsigned {mark : Char} {ds : List Char} : isExponentMark mark = true → AllDigits ds → ds ≠ [] →
      WritesExponent (mark :: ds) (digitsValue ds)
  | plus {mark : Char} {ds : List Char} : isExponentMark mark = true → AllDigits ds → ds ≠ [] →
      WritesExponent (mark :: '+' :: ds) (digitsValue ds)
  | minus {mark : Char} {ds : List Char} : isExponentMark mark = true → AllDigits ds → ds ≠ [] →
      WritesExponent (mark :: '-' :: ds) (-digitsValue ds)

/-- Digits, with their point: which stand before it and which after it. -/
inductive Mantissa : List Char → List Char → List Char → Prop
  | whole {ds : List Char} : AllDigits ds → ds ≠ [] → Mantissa ds ds []
  | point {ds fs : List Char} : AllDigits ds → AllDigits fs → fs ≠ [] →
      Mantissa (ds ++ '.' :: fs) ds fs

/-- **What a number is, and which decimal it writes**: the coefficient is written by the digits
before and after the point together, and the scale is the number of digits after the point less the
exponent. -/
inductive Writes : List Char → Decimal → Prop
  | mk {m ds fs ex : List Char} {e : Int} : Mantissa m ds fs → WritesExponent ex e →
      Writes (m ++ ex) ⟨digitsValue (ds ++ fs), fs.length - e⟩

theorem mem_exponentWords {w : List Char} : w ∈ exponentWords ↔ ∃ e, WritesExponent w e := by
  rw [exponentWords, Language.mem_add, Language.mem_one, mul_assoc, mem_oneOf_mul]
  constructor
  · rintro (rfl | ⟨mark, w', hmark, hw', rfl⟩)
    · exact ⟨0, .none⟩
    · rw [Language.mem_mul] at hw'
      obtain ⟨sign, hsign, ds, hds, rfl⟩ := hw'
      obtain ⟨hdigits, hne⟩ := mem_digitWords.mp hds
      obtain rfl | ⟨c, hc, rfl⟩ := (Language.mem_add _ _ _).mp hsign
      · exact ⟨_, .unsigned hmark hdigits hne⟩
      · obtain rfl | rfl : c = '+' ∨ c = '-' := by simpa [isSign] using hc
        · exact ⟨_, .plus hmark hdigits hne⟩
        · exact ⟨_, .minus hmark hdigits hne⟩
  · rintro ⟨e, h⟩
    have hsigned {c : Char} {ds : List Char} (hc : isSign c = true) (hdigits : AllDigits ds)
        (hne : ds ≠ []) : c :: ds ∈ (1 + oneOf isSign) * digitWords :=
      Language.append_mem_mul (a := [c]) (.inr ⟨c, hc, rfl⟩) (mem_digitWords.mpr ⟨hdigits, hne⟩)
    cases h with
    | none => exact .inl rfl
    | unsigned hmark hdigits hne =>
      exact .inr ⟨_, _, hmark,
        Language.append_mem_mul (a := []) (.inl rfl) (mem_digitWords.mpr ⟨hdigits, hne⟩), rfl⟩
    | plus hmark hdigits hne => exact .inr ⟨_, _, hmark, hsigned rfl hdigits hne, rfl⟩
    | minus hmark hdigits hne => exact .inr ⟨_, _, hmark, hsigned rfl hdigits hne, rfl⟩

/-- No exponent goes on with the digits before it. -/
theorem WritesExponent.ends_mantissa {ex : List Char} {e : Int} (h : WritesExponent ex e)
    (hex : ex ≠ []) (rest : List Char) :
    ∀ c ∈ (ex ++ rest).head?, isDigit c = false ∧ c ≠ '.' := by
  have hmark {mark : Char} (hmark : isExponentMark mark = true) :
      isDigit mark = false ∧ mark ≠ '.' := by
    obtain rfl | rfl : mark = 'e' ∨ mark = 'E' := by simpa [isExponentMark] using hmark
    all_goals decide
  intro c hc
  cases h with
  | none => exact absurd rfl hex
  | unsigned h _ _ => exact Option.some.inj hc ▸ hmark h
  | plus h _ _ => exact Option.some.inj hc ▸ hmark h
  | minus h _ _ => exact Option.some.inj hc ▸ hmark h

/-- **The numbers are the words that write a decimal.** -/
theorem mem_words_number {w : List Char} : w ∈ Pattern.number.words ↔ ∃ d, Writes w d := by
  rw [Pattern.words, Language.mem_add, Language.mem_mul, Language.mem_mul]
  constructor
  · rintro (⟨_, hmantissa, ex, hex, rfl⟩ | ⟨_, hmantissa, ex, hex, rfl⟩)
    · obtain ⟨e, he⟩ := mem_exponentWords.mp hex
      obtain ⟨ds, hds, _, hfraction, rfl⟩ := Language.mem_mul.mp hmantissa
      obtain ⟨hdigits, hne⟩ := mem_digitWords.mp hds
      obtain rfl | hfraction := (Language.mem_add _ _ _).mp hfraction
      · rw [List.append_nil]
        exact ⟨_, .mk (.whole hdigits hne) he⟩
      · obtain ⟨fs, hfs, rfl⟩ := mem_singleton_mul.mp hfraction
        obtain ⟨hfs, hne⟩ := mem_digitWords.mp hfs
        exact ⟨_, .mk (.point hdigits hfs hne) he⟩
    · obtain ⟨e, he⟩ := mem_exponentWords.mp hex
      obtain ⟨fs, hfs, rfl⟩ := mem_singleton_mul.mp hmantissa
      obtain ⟨hfs, hne⟩ := mem_digitWords.mp hfs
      have hmantissa : Mantissa ([] ++ '.' :: fs) [] fs := .point (List.forall_mem_nil _) hfs hne
      exact ⟨_, .mk hmantissa he⟩
  · rintro ⟨d, @⟨m, ds, fs, ex, e, hmantissa, he⟩⟩
    have hex := mem_exponentWords.mpr ⟨e, he⟩
    cases hmantissa with
    | whole hdigits hne =>
      refine .inl ⟨m, ?_, ex, hex, rfl⟩
      exact ⟨m, mem_digitWords.mpr ⟨hdigits, hne⟩, [], .inl rfl, List.append_nil m⟩
    | point hdigits hfs hne =>
      have hpoint : '.' :: fs ∈ ({['.']} : Language Char) * digitWords :=
        mem_singleton_mul.mpr ⟨fs, mem_digitWords.mpr ⟨hfs, hne⟩, rfl⟩
      by_cases hds : ds = []
      · subst hds
        exact .inr ⟨_, hpoint, ex, hex, rfl⟩
      · exact .inl ⟨_, ⟨ds, mem_digitWords.mpr ⟨hdigits, hds⟩, _, .inr hpoint, rfl⟩, ex, hex, rfl⟩

theorem digitsValue_eq_read (cs : List Char) : digitsValue cs = Digits.read cs := by
  induction cs with
  | nil => rfl
  | cons c cs ih =>
    rw [digitsValue] at ih ⊢
    rw [List.map_cons, List.reverse_cons, Nat.ofDigits_append, Nat.ofDigits_singleton, ih,
      List.length_reverse, List.length_map, Digits.read_cons, Nat.mul_comm, Nat.add_comm]
    rfl

end Abacus
