import Abacus.Program
import Abacus.Proofs.Evaluation.Basic
import Abacus.Proofs.Grammar.Lines
import Abacus.Proofs.Token.Lines

/-!
# Proofs/Program — programs compose line by line

Two source texts with the end of a line between them are a program exactly when each of them is, and
its statements are those of the first and then those of the second (`parseProgram_lines`).  Running
the whole is running the first and then, if that has an answer, the second (`runStatements_append`);
so a program may be given in pieces, cut at any end of a line.
-/

namespace Abacus

/-! ## Reading -/

/-- **A text is a program when its tokens are the word of one**, on whatever line it begins. -/
theorem parseProgram_iff_tokenizes {source : String} {es : List Expr} :
    parseProgram source = .ok es ↔
      ∃ p : Grammar.Program, Tokenizes source.toList p.tokens ∧ p.CallsBind ∧ p.meanings = es := by
  constructor
  · intro h
    obtain ⟨ts, hts, hes⟩ := parseProgram_eq_ok_iff.mp h
    obtain ⟨p, hp, hbind, rfl⟩ := Grammar.program_of_parseStatements hes
    exact ⟨p, hp ▸ tokenizes_of_tokenizeFrom hts, hbind, rfl⟩
  · rintro ⟨p, htokens, hbind, rfl⟩
    obtain ⟨ts, hts, hp⟩ := htokens 1
    exact parseProgram_eq_ok_iff.mpr ⟨ts, hts, p.parsed hbind hp⟩

/-- **The statements of two texts with the end of a line between them** are those of each. -/
theorem parseProgram_lines {a b : String} {es : List Expr} :
    parseProgram (a ++ "\n" ++ b) = .ok es ↔
      ∃ es₁ es₂, parseProgram a = .ok es₁ ∧ parseProgram b = .ok es₂ ∧ es = es₁ ++ es₂ := by
  have hchars : (a ++ "\n" ++ b).toList = a.toList ++ '\n' :: b.toList := by simp
  rw [parseProgram_iff_tokenizes, hchars]
  constructor
  · rintro ⟨r, htokens, hbind, rfl⟩
    obtain ⟨u, v, ha, hb, hr⟩ := tokenizes_lines.mp htokens
    obtain ⟨p, q, rfl, rfl, h⟩ := Grammar.Program.Composed.split r hr
    obtain ⟨hp, hq⟩ := h.callsBind_iff.mp hbind
    exact ⟨_, _, parseProgram_iff_tokenizes.mpr ⟨p, ha, hp, rfl⟩,
      parseProgram_iff_tokenizes.mpr ⟨q, hb, hq, rfl⟩, h.meanings_eq⟩
  · rintro ⟨es₁, es₂, ha, hb, rfl⟩
    obtain ⟨p, hpa, hp, rfl⟩ := parseProgram_iff_tokenizes.mp ha
    obtain ⟨q, hqb, hq, rfl⟩ := parseProgram_iff_tokenizes.mp hb
    obtain ⟨r, h⟩ := Grammar.Program.Composed.join p q
    exact ⟨r, tokenizes_lines.mpr ⟨_, _, hpa, hqb, h.tokens_eq⟩,
      h.callsBind_iff.mpr ⟨hp, hq⟩, h.meanings_eq⟩

/-! ## Running -/

theorem runStatements_cons (e : Expr) {es : List Expr} (h : es ≠ []) :
    runStatements (e :: es) = (do
      let _ ← e.eval
      runStatements es) := by
  rw [runStatements]
  exact h

/-- **Running statements and then others.**  The value is that of the last one there is. -/
theorem runStatements_append (es₁ es₂ : List Expr) :
    runStatements (es₁ ++ es₂) = (do
      let v ← runStatements es₁
      let w ← runStatements es₂
      pure (if es₂.isEmpty then v else w)) := by
  match es₂ with
  | [] => simp [runStatements]
  | e' :: es₂ =>
    induction es₁ with
    | nil => simp [runStatements]
    | cons e es₁ ih =>
      rw [List.cons_append, runStatements_cons e (by simp), ih]
      match es₁ with
      | [] => simp [runStatements]
      | e₁ :: es₁ => simp [runStatements_cons e]

/-- Running a program runs its statements. -/
theorem runSource_of_parseProgram {source : String} {es : List Expr}
    (h : parseProgram source = .ok es) (s : Session) :
    runSource source s = match runStatements es s with
      | (.ok x, s) => (.ok x, s)
      | (.error error, s) => (.error (.evaluation error), s) := by
  rcases hrun : runStatements es s with ⟨e | x, s'⟩
  · simp only [runSource, h, hrun]
  · simp only [runSource, h, hrun]

/-- **Programs compose line by line.**  Two texts with the end of a line between them are a program
exactly when each of them is, with the statements of both; running it is running the one and then,
unless that fails, the other, with the value of the other unless it has no statement; and a text
that is no program changes nothing. -/
theorem runSource_lines (a b : String) :
    (∀ es, parseProgram (a ++ "\n" ++ b) = .ok es ↔
      ∃ es₁ es₂, parseProgram a = .ok es₁ ∧ parseProgram b = .ok es₂ ∧ es = es₁ ++ es₂) ∧
    (∀ es₁ es₂ s, parseProgram a = .ok es₁ → parseProgram b = .ok es₂ →
      runSource (a ++ "\n" ++ b) s = match runSource a s with
        | (.ok v, s₁) =>
          match runSource b s₁ with
          | (.ok w, s₂) => (.ok (if es₂.isEmpty then v else w), s₂)
          | (.error error, s₂) => (.error error, s₂)
        | (.error error, s₁) => (.error error, s₁)) ∧
    (∀ source s, (∀ es, parseProgram source ≠ .ok es) → (runSource source s).2 = s) := by
  refine ⟨fun es => parseProgram_lines, fun es₁ es₂ s ha hb => ?_, fun source s hnone => ?_⟩
  · have hwhole := parseProgram_lines.mpr ⟨es₁, es₂, ha, hb, rfl⟩
    rw [runSource_of_parseProgram hwhole, runSource_of_parseProgram ha, runStatements_append,
      Evaluation.bind_apply]
    obtain ⟨error | v, s₁⟩ := runStatements es₁ s
    · rfl
    · simp only [runSource_of_parseProgram hb, Evaluation.bind_apply]
      obtain ⟨error | w, s₂⟩ := runStatements es₂ s₁
      · rfl
      · rfl
  · rw [runSource]
    split
    · rfl
    · next es hes => exact absurd hes (hnone es)

/-- A program in two pieces: an assignment before a comment, and a statement that uses it. -/
theorem runSource_lines_comment :
    parseProgram "x = 2 // two" = .ok [.call .define [.var "x", .number ⟨2, 0⟩]] ∧
    parseProgram "x * x" = .ok [.binary .times (.var "x") (.var "x")] ∧
    parseProgram ("x = 2 // two" ++ "\n" ++ "x * x") =
      .ok [.call .define [.var "x", .number ⟨2, 0⟩], .binary .times (.var "x") (.var "x")] ∧
    (runSource ("x = 2 // two" ++ "\n" ++ "x * x") (.initial default (mkStdGen 0))).1 =
      .ok (some ⟨4, 0⟩) := by
  have ha : parseProgram "x = 2 // two" = .ok [.call .define [.var "x", .number ⟨2, 0⟩]] :=
    parseProgram_eq_ok_iff.mpr ⟨[⟨.identifier "x", 1⟩, ⟨.symbol .equals, 1⟩,
      ⟨.number ⟨2, 0⟩, 1⟩], by cbv, by cbv⟩
  have hb : parseProgram "x * x" = .ok [.binary .times (.var "x") (.var "x")] :=
    parseProgram_eq_ok_iff.mpr ⟨[⟨.identifier "x", 1⟩, ⟨.symbol .star, 1⟩,
      ⟨.identifier "x", 1⟩], by cbv, by cbv⟩
  refine ⟨ha, hb, ((runSource_lines _ _).1 _).mpr ⟨_, _, ha, hb, rfl⟩, ?_⟩
  rw [(runSource_lines _ _).2.1 _ _ _ ha hb, runSource_of_parseProgram ha]
  simp only [runSource_of_parseProgram hb]
  rfl

end Abacus
