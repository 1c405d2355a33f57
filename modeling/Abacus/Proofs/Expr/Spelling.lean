import Abacus.Proofs.Expr.RoundTrip
import Abacus.Proofs.Expr.Simplify
import Abacus.Proofs.Token.Lines

/-!
# Proofs/Expr/Spelling — when the text of a simplified expression is a program

Every expression has a text, but a program may not hold every literal: the scale of a numeral must
be in range.  Literals that come from a program are, and those that simplification computes need not
be.  For an expression that is `Printable`, well formed with names that can be written, the scales of
its literals are all that matters: its text has tokens exactly when every literal `Spells`
(`demands_write`), and is then read back as the expression (`parseProgram_text_iff_literalsSpell`).

Simplification keeps an expression printable, so the text of a simplified statement is a program
exactly when simplification has computed no literal out of range (`parseProgram_simplify_text`).  It
can: `1e-1000000 * 1e-1000000` is a program, and its simplified text is not.
-/

namespace Abacus

/-! ## Texts that have tokens -/

/-- A text has tokens. -/
def Tokenizable (cs : List Char) : Prop :=
  ∃ word, Tokenizes cs word

/-- **A text has tokens when its first lexeme is allowed and the rest has tokens.** -/
theorem tokenizable_iff {cs rest : List Char} {lexeme : Lexeme}
    (h : Lexeme.scan? cs = some (lexeme, rest)) :
    Tokenizable cs ↔ lexeme.Allowed ∧ Tokenizable rest := by
  constructor
  · rintro ⟨word, hword⟩
    obtain ⟨hallowed, word', hword', -⟩ := (tokenizes_iff h).mp hword
    exact ⟨hallowed, word', hword'⟩
  · rintro ⟨hallowed, word', hword'⟩
    exact ⟨_, (tokenizes_iff h).mpr ⟨hallowed, word', hword', rfl⟩⟩

theorem tokenizable_symbol {cs rest : List Char} {s : Symbol}
    (h : Lexeme.scan? cs = some (.symbol s, rest)) : Tokenizable cs ↔ Tokenizable rest :=
  (tokenizable_iff h).trans (and_iff_right trivial)

theorem tokenizable_blank {c : Char} (hc : isBlank c = true) {rest : List Char} :
    Tokenizable (c :: rest) ↔ Tokenizable (rest.dropWhile isBlank) :=
  (tokenizable_iff (Lexeme.scan?_blank hc)).trans (and_iff_right trivial)

theorem tokenizable_space {rest : List Char} : Tokenizable (' ' :: rest) ↔ Tokenizable rest := by
  rw [tokenizable_blank rfl]
  match rest with
  | [] => rfl
  | c :: rest =>
    by_cases hc : isBlank c = true
    · rw [List.dropWhile_cons_of_pos hc, tokenizable_blank hc]
    · rw [List.dropWhile_cons_of_neg hc]

theorem tokenizable_identifier {name : String} (h : IsIdentifier name) {rest : List Char}
    (hends : ∀ c ∈ rest.head?, isIdentifierRest c = false) :
    Tokenizable (name.toList ++ rest) ↔ Tokenizable rest := by
  obtain ⟨c, cs, hname, hc, hcs⟩ := h
  rw [hname]
  exact (tokenizable_iff (Lexeme.scan?_identifier hc hcs hends)).trans (and_iff_right trivial)

/-- **A decimal has tokens when it may be written.** -/
theorem tokenizable_decimal {d : Decimal} (hneg : d.isNegative = false) {rest : List Char}
    (hrest : EndsWritten rest) :
    Tokenizable (d.write ++ rest) ↔ d.Spells ∧ Tokenizable rest := by
  obtain ⟨n, hscan, hn⟩ := (Decimal.isNumeralOf_write hneg).scan rest hrest.endsNumeral
  have hlexeme := Lexeme.scan?_numeral (Decimal.isNumeralOf_write hneg).head hscan
  rw [tokenizable_iff hlexeme, Lexeme.Allowed, Numeral.inRange, decide_eq_true_eq, hn,
    d.natAbs_scale_reread_le_iff]

theorem Decimal.spells_abs (d : Decimal) : d.abs.Spells ↔ d.Spells := by
  rw [Spells, Spells, abs, magnitude, Int.natCast_eq_zero, Int.natAbs_eq_zero]

/-- **A text that has tokens, wherever it stands, exactly on a condition.** -/
def Demands (cs : List Char) (P : Prop) : Prop :=
  ∀ rest, EndsWritten rest → (Tokenizable (cs ++ rest) ↔ P ∧ Tokenizable rest)

namespace Demands

variable {cs ds : List Char} {P Q : Prop}

theorem nil : Demands [] True :=
  fun _ _ => (and_iff_right trivial).symm

theorem group (h : Demands cs P) : Demands ('(' :: cs ++ [')']) P := by
  intro rest _
  have hclose : Tokenizable (')' :: rest) ↔ Tokenizable rest := tokenizable_symbol rfl
  have hinside := h (')' :: rest) (endsWritten_cons (by decide) rest)
  rw [hclose] at hinside
  rw [List.append_assoc, List.cons_append, tokenizable_symbol rfl]
  exact hinside

theorem sign {op : Operator} (hop : Expr.IsSign op) (h : Demands cs P) :
    Demands (op.symbol :: cs) P := by
  intro rest hrest
  have hscan : Lexeme.scan? (op.symbol :: (cs ++ rest)) = some (.symbol op.token, cs ++ rest) := by
    obtain rfl | rfl := hop <;> rfl
  rw [List.cons_append, tokenizable_symbol hscan, h rest hrest]

theorem operator (op : Operator) (hcs : Demands cs P) (hds : Demands ds Q) :
    Demands (cs ++ ' ' :: op.symbol :: ' ' :: ds) (P ∧ Q) := by
  intro rest hrest
  have hscan : Lexeme.scan? (op.symbol :: ' ' :: (ds ++ rest)) =
      some (.symbol op.token, ' ' :: (ds ++ rest)) := by
    cases op <;> rfl
  have hall := hcs (' ' :: op.symbol :: ' ' :: (ds ++ rest)) (endsWritten_cons (by decide) _)
  rw [tokenizable_space, tokenizable_symbol hscan, tokenizable_space, hds rest hrest] at hall
  rw [List.append_assoc, and_assoc]
  exact hall

theorem comma (hcs : Demands cs P) (hds : Demands ds Q) :
    Demands (cs ++ ',' :: ' ' :: ds) (P ∧ Q) := by
  intro rest hrest
  have hcomma : Tokenizable (',' :: ' ' :: (ds ++ rest)) ↔ Tokenizable (' ' :: (ds ++ rest)) :=
    tokenizable_symbol rfl
  have hall := hcs (',' :: ' ' :: (ds ++ rest)) (endsWritten_cons (by decide) _)
  rw [hcomma, tokenizable_space, hds rest hrest] at hall
  rw [List.append_assoc, and_assoc]
  exact hall

theorem call (f : Builtin) (h : Demands cs P) :
    Demands (f.name.toList ++ '(' :: cs ++ [')']) P := by
  intro rest hrest
  have hends : ∀ c ∈ ('(' :: cs ++ [')'] ++ rest).head?, isIdentifierRest c = false := by
    intro c hc
    obtain rfl : '(' = c := Option.some.inj hc
    decide
  rw [List.append_assoc, List.append_assoc, ← List.append_assoc ('(' :: cs),
    tokenizable_identifier f.isIdentifier_name hends]
  exact h.group rest hrest

end Demands

namespace Expr

/-! ## Written expressions -/

/-- **Well formed, with names that can be written**; the literals may be any. -/
def Printable (e : Expr) : Prop :=
  e.WellFormed ∧ e.Leaves (fun _ => True) IsIdentifier

/-- Every literal may be written. -/
def LiteralsSpell (e : Expr) : Prop :=
  e.Leaves Decimal.Spells fun _ => True

theorem demands_number (d : Decimal) : Demands (write (.number d)) d.Spells := by
  rw [write]
  split
  · next hneg =>
    have habs : Demands d.abs.write d.abs.Spells := fun _ => tokenizable_decimal d.isNegative_abs
    rw [Decimal.write_of_isNegative hneg, ← d.spells_abs]
    exact (habs.sign (.inr rfl)).group
  · next hneg => exact fun _ => tokenizable_decimal ((Bool.not_eq_true _).mp hneg)

theorem demands_arguments : ∀ {es : List Expr},
    (∀ a ∈ es, Demands a.write a.LiteralsSpell) →
      Demands (joinCommas (es.map write)) (∀ a ∈ es, a.LiteralsSpell)
  | [], _ => by simpa [joinCommas] using Demands.nil
  | [e], h => by simpa [joinCommas] using h e List.mem_cons_self
  | e :: e' :: es, h => by
    obtain ⟨he, hes⟩ := List.forall_mem_cons.mp h
    rw [List.forall_mem_cons]
    exact he.comma (demands_arguments hes)

/-- **The text of a printable expression has tokens exactly when its literals may be written.** -/
theorem demands_write {e : Expr} : e.Printable → Demands e.write e.LiteralsSpell := by
  induction e using Expr.induction with
  | number d => exact fun _ => demands_number d
  | var name =>
    rintro ⟨-, hname⟩ rest hrest
    rw [write, tokenizable_identifier hname hrest.endsIdentifier]
    exact (and_iff_right trivial).symm
  | unary op a iha =>
    rintro ⟨hwf, h⟩
    exact ((iha ⟨hwf.2, h⟩).sign hwf.1).group
  | binary op a b iha ihb =>
    rintro ⟨hwf, h⟩
    exact ((iha ⟨hwf.1, h.1⟩).operator op (ihb ⟨hwf.2, h.2⟩)).group
  | call f args ih =>
    rintro ⟨hwf, h⟩
    rw [WellFormed, allWellFormed_iff] at hwf
    rw [Leaves, allLeaves_iff] at h
    have hargs := demands_arguments fun a ha => ih a ha ⟨hwf.2 a ha, h a ha⟩
    rw [write, writeAll_eq, LiteralsSpell, Leaves, allLeaves_iff]
    exact hargs.call f

/-- **A printable expression whose literals may be written is read back from its text**, up to the
signs of its negative literals. -/
theorem parseProgram_text_of_literalsSpell {e : Expr} (h : e.Printable) (hspell : e.LiteralsSpell) :
    parseProgram e.text = .ok [e.signed.reread] := by
  have hleaves : e.signed.Leaves (fun d => d.isNegative = false ∧ d.Spells) IsIdentifier := by
    refine leaves_mapLiterals (fun d hd => ?_) ((hspell.and h.2).mono (fun _ => And.left)
      fun _ => And.right)
    rw [signedLiteral]
    split
    · exact ⟨d.isNegative_abs, d.spells_abs.mpr hd⟩
    · next hneg => exact ⟨(Bool.not_eq_true _).mp hneg, hd⟩
  have htext : e.signed.text = e.text := congrArg String.ofList (write_signed h.2)
  rw [← htext]
  exact parseProgram_text_of_spells (wellFormed_signed h.1) hleaves

/-- **The text of a printable expression is a program exactly when its literals may be written.** -/
theorem parseProgram_text_iff_literalsSpell {e : Expr} (h : e.Printable) :
    (∃ es, parseProgram e.text = .ok es) ↔ e.LiteralsSpell := by
  constructor
  · rintro ⟨es, hes⟩
    obtain ⟨ts, hts, -⟩ := parseProgram_eq_ok_iff.mp hes
    have htokens : Tokenizable (e.write ++ []) := by
      rw [tokenize, text, String.toList_ofList] at hts
      rw [List.append_nil]
      exact ⟨_, tokenizes_of_tokenizeFrom hts⟩
    exact ((demands_write h [] endsWritten_nil).mp htokens).1
  · exact fun hspell => ⟨_, parseProgram_text_of_literalsSpell h hspell⟩

/-! ## Simplified expressions -/

theorem printable_of_readable {e : Expr} (h : e.Readable) : e.Printable :=
  ⟨h.1, h.2.mono (fun _ _ => trivial) fun _ => id⟩

theorem printable_number (d : Decimal) : (number d).Printable :=
  ⟨trivial, trivial⟩

theorem compositional_leaves {p : Decimal → Prop} {q : String → Prop} (hp : ∀ d, p d) :
    Compositional (Leaves p q) where
  number := hp
  unary h := ⟨h, fun _ ha => ha⟩
  binary h := ⟨h, fun _ _ ha hb => ⟨ha, hb⟩⟩
  call h := ⟨allLeaves_iff.mp h, fun _ _ hargs => allLeaves_iff.mpr hargs⟩

/-- **Simplification keeps an expression printable.** -/
theorem printable_simplify (env : Environment) {e : Expr} :
    e.Printable → (e.simplify env).Printable :=
  (compositional_wellFormed.and (compositional_leaves fun _ => trivial)).simplify env

/-- **When the text of a simplified statement is a program.**  A statement of a program is
simplified to an expression whose text is a program exactly when none of its literals is out of
range, and then it is one statement, equal to the expression but for the signs of its negative
literals. -/
theorem parseProgram_simplify_text {source : String} {es : List Expr}
    (hes : parseProgram source = .ok es) (c : Context) {e : Expr} (he : e ∈ es) :
    ((∃ es', parseProgram (e.simplify (.initial c)).text = .ok es') ↔
      (e.simplify (.initial c)).LiteralsSpell) ∧
    (∀ es', parseProgram (e.simplify (.initial c)).text = .ok es' →
      ∃ e', es' = [e'] ∧ e'.equal (e.simplify (.initial c)).signed = true) := by
  have hprintable := printable_simplify (.initial c)
    (printable_of_readable (readable_of_parseProgram hes e he))
  have hiff := parseProgram_text_iff_literalsSpell hprintable
  refine ⟨hiff, fun es' hes' => ?_⟩
  have hread := parseProgram_text_of_literalsSpell hprintable (hiff.mp ⟨es', hes'⟩)
  exact ⟨_, Except.ok.inj (hes'.symm.trans hread), equal_reread _⟩

/-- An assignment whose value is simplified to a negative literal. -/
def assignedDifference : Expr :=
  .call .define [.var "x", .binary .minus (.number ⟨2, 0⟩) (.number ⟨6, 0⟩)]

theorem parseProgram_simplify_text_assignedDifference :
    parseProgram "x = 2 - 6" = .ok [assignedDifference] ∧
    assignedDifference.simplify (.initial default) = .call .define [.var "x", .number ⟨-4, 0⟩] ∧
    ∃ e', parseProgram (assignedDifference.simplify (.initial default)).text = .ok [e'] ∧
      e'.equal (assignedDifference.simplify (.initial default)).signed = true := by
  have hparse : parseProgram "x = 2 - 6" = .ok [assignedDifference] :=
    parseProgram_eq_ok_iff.mpr ⟨[⟨.identifier "x", 1⟩, ⟨.symbol .equals, 1⟩, ⟨.number ⟨2, 0⟩, 1⟩,
      ⟨.symbol .minus, 1⟩, ⟨.number ⟨6, 0⟩, 1⟩], by cbv, by cbv⟩
  have hsimplify : assignedDifference.simplify (.initial default) =
      .call .define [.var "x", .number ⟨-4, 0⟩] := by cbv
  have hspell : (assignedDifference.simplify (.initial default)).LiteralsSpell := by
    rw [hsimplify]
    exact ⟨trivial, .inr (Nat.zero_le _), trivial⟩
  obtain ⟨hiff, hequal⟩ := parseProgram_simplify_text hparse default List.mem_cons_self
  obtain ⟨es', hes'⟩ := hiff.mpr hspell
  obtain ⟨e', rfl, he'⟩ := hequal es' hes'
  exact ⟨hparse, hsimplify, e', hes', he'⟩

/-- The square of a number with as many digits after the point as a program may write. -/
def tinySquare : Expr :=
  .binary .times (.number ⟨1, 1000000⟩) (.number ⟨1, 1000000⟩)

theorem simplify_tinySquare :
    tinySquare.simplify (.initial default) = .number ⟨1, 2000000⟩ := by
  have hone : Decimal.isOne ⟨1, 1000000⟩ = false := rfl
  have hmul : Decimal.mulChecked ⟨1, 1000000⟩ ⟨1, 1000000⟩ = .ok ⟨1, 2000000⟩ := by
    rw [Decimal.mulChecked, Decimal.mul, hone]
    rfl
  simp [tinySquare, simplify, foldBinary, literal?, Operator.apply, hmul, literalOr]

/-- **A program whose simplified text is none.** -/
theorem not_parseProgram_simplify_tinySquare :
    parseProgram "1e-1000000 * 1e-1000000" = .ok [tinySquare] ∧
    (tinySquare.simplify (.initial default)).text = "1E-2000000" ∧
    ¬ ∃ es, parseProgram (tinySquare.simplify (.initial default)).text = .ok es := by
  refine ⟨parseProgram_eq_ok_iff.mpr ⟨[⟨.number ⟨1, 1000000⟩, 1⟩, ⟨.symbol .star, 1⟩,
    ⟨.number ⟨1, 1000000⟩, 1⟩], by cbv, by cbv⟩, ?_, ?_⟩
  · rw [simplify_tinySquare]
    rfl
  · rw [simplify_tinySquare, parseProgram_text_iff_literalsSpell (printable_number _)]
    rintro (h | h)
    · exact absurd h (by decide)
    · exact absurd h (by decide)

end Expr

end Abacus
