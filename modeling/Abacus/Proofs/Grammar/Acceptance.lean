import Abacus.Proofs.Grammar.Completeness
import Abacus.Proofs.Grammar.Soundness

/-!
# Proofs/Grammar/Acceptance — a source text is a program exactly when its tokens derive one

The parser answers statements exactly when the tokens of the text are the word of a program whose
calls bind; the statements are then what the program denotes, and there is no other derivation of
that word.
-/

namespace Abacus.Grammar

/-- **The parser accepts exactly the grammar.**  Of a text that has tokens, the statements are those
that a derivation of its tokens denotes, if its calls bind, and tokens have at most one derivation.
-/
theorem parseProgram_iff_derivation {source : String} {ts : List PlacedToken}
    (h : tokenize source = .ok ts) :
    (∀ es, parseProgram source = .ok es ↔
      ∃ p : Program, p.tokens = ts.map (·.token) ∧ p.CallsBind ∧ p.meanings = es) ∧
    (∀ p p' : Program, p.tokens = ts.map (·.token) → p'.tokens = ts.map (·.token) → p = p') := by
  refine ⟨fun es => ?_, fun p p' hp hp' => Program.eq_of_tokens_eq (hp.trans hp'.symm)⟩
  constructor
  · intro hes
    obtain ⟨ts', hts', hes⟩ := parseProgram_eq_ok_iff.mp hes
    obtain rfl := Except.ok.inj (h.symm.trans hts')
    exact program_of_parseStatements hes
  · rintro ⟨p, hp, hbind, rfl⟩
    exact parseProgram_eq_ok_iff.mpr ⟨ts, h, p.parsed hbind hp.symm⟩

/-- The tokens of a sign in an exponent, of factorials, and of a call on the next line. -/
def signedExponentTokens : List PlacedToken :=
  [⟨.number ⟨2, 0⟩, 1⟩, ⟨.symbol .caret, 1⟩, ⟨.symbol .minus, 1⟩, ⟨.identifier "x", 1⟩,
    ⟨.symbol .bang, 1⟩, ⟨.symbol .caret, 1⟩, ⟨.identifier "y", 1⟩, ⟨.newLine, 2⟩,
    ⟨.identifier "random", 2⟩, ⟨.symbol .leftParen, 2⟩, ⟨.symbol .rightParen, 2⟩]

theorem parseProgram_iff_derivation_signedExponent :
    tokenize "2^-x!^y\nrandom()" = .ok signedExponentTokens ∧
    (∀ es, parseProgram "2^-x!^y\nrandom()" = .ok es ↔
      ∃ p : Program, p.tokens = signedExponentTokens.map (·.token) ∧ p.CallsBind ∧
        p.meanings = es) ∧
    (∀ p p' : Program, p.tokens = signedExponentTokens.map (·.token) →
      p'.tokens = signedExponentTokens.map (·.token) → p = p') := by
  have h : tokenize "2^-x!^y\nrandom()" = .ok signedExponentTokens := by cbv
  exact ⟨h, parseProgram_iff_derivation h⟩

end Abacus.Grammar
