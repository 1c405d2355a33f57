import Abacus.Proofs.Token.Numeral

/-!
# Proofs/Token/Lexing — how the tokens of a text come from its lexemes

A text has tokens exactly when the lexeme at its front is allowed and the rest has tokens, and then
the lexeme puts its own in front: `tokenizeFrom_eq_ok_iff`.  `Lexes cs ts` says that `cs` gives the
tokens `ts` wherever a blank, a comma or a closing parenthesis stands after it, or nothing: written
decimals, names and symbols do.

The other way round, whatever a text holds, its tokens are `Sound`: a name is an identifier, and a
number is not negative and in range.
-/

namespace Abacus

open Decimal (isDigit)

/-! ## One lexeme at a time -/

namespace Lexeme

/-- The tokens that a lexeme puts in front of the others. -/
def tokens : Lexeme → List Token
  | .blank => []
  | .newLine => [.newLine]
  | .identifier name => [.identifier (String.ofList name)]
  | .numeral n => [.number n.toDecimal]
  | .symbol s => [.symbol s]

/-- The line on which the tokens of a lexeme stand, and what follows it. -/
def lineAfter (line : Nat) : Lexeme → Nat
  | .newLine => line + 1
  | _ => line

/-- Whether a lexeme may stand in a program. -/
def Allowed : Lexeme → Prop
  | .numeral n => n.inRange = true
  | _ => True

end Lexeme

/-- Tokens on one line. -/
def placed (line : Nat) (ts : List Token) : List PlacedToken :=
  ts.map fun t => ⟨t, line⟩

theorem map_token_placed (line : Nat) (ts : List Token) :
    (placed line ts).map (·.token) = ts := by
  simp [placed, Function.comp_def]

theorem map_eq_ok_iff {α β ε : Type} {x : Except ε α} {f : α → β} {b : β} :
    x.map f = .ok b ↔ ∃ a, x = .ok a ∧ b = f a := by
  cases x with
  | error e => simp [Except.map]
  | ok a => simp [Except.map, eq_comm]

theorem tokenizeFrom_nil (line : Nat) : tokenizeFrom line [] = .ok [] := by
  rw [tokenizeFrom]
  rfl

/-- A text that does not begin with a lexeme has tokens only if it is empty. -/
theorem tokenizeFrom_eq_ok_of_none {line : Nat} {cs : List Char} (h : Lexeme.scan? cs = none)
    {ts : List PlacedToken} : tokenizeFrom line cs = .ok ts ↔ cs = [] ∧ ts = [] := by
  rw [tokenizeFrom]
  split
  · split
    · simp [eq_comm]
    · simp
  · next hsome => exact absurd (h.symm.trans hsome) (by simp)

/-- **A text has tokens when its first lexeme is allowed and the rest has tokens.** -/
theorem tokenizeFrom_eq_ok_iff {line : Nat} {cs rest : List Char} {lexeme : Lexeme}
    (h : Lexeme.scan? cs = some (lexeme, rest)) {ts : List PlacedToken} :
    tokenizeFrom line cs = .ok ts ↔
      lexeme.Allowed ∧ ∃ ts', tokenizeFrom (lexeme.lineAfter line) rest = .ok ts' ∧
        ts = placed (lexeme.lineAfter line) lexeme.tokens ++ ts' := by
  rw [tokenizeFrom]
  split
  · next hnone => exact absurd (hnone.symm.trans h) (by simp)
  · next lexeme' rest' hsome =>
    obtain ⟨rfl, rfl⟩ := Prod.mk.inj (Option.some.inj (hsome.symm.trans h))
    cases lexeme' with
    | blank => simp [Lexeme.Allowed, Lexeme.lineAfter, Lexeme.tokens, placed]
    | newLine =>
      exact map_eq_ok_iff.trans (and_iff_right trivial).symm
    | identifier name =>
      exact map_eq_ok_iff.trans (and_iff_right trivial).symm
    | symbol s =>
      exact map_eq_ok_iff.trans (and_iff_right trivial).symm
    | numeral n =>
      by_cases hn : n.inRange = true
      · simp only [hn, if_true]
        exact map_eq_ok_iff.trans (and_iff_right hn).symm
      · simp [hn, Lexeme.Allowed]

/-! ## The lexemes of written things -/

/-- A name that can be written. -/
def IsIdentifier (name : String) : Prop :=
  ∃ c cs, name.toList = c :: cs ∧ isIdentifierStart c = true ∧ ∀ d ∈ cs, isIdentifierRest d = true

/-- The first lexeme of a text that begins with neither the end of a line nor a comment. -/
theorem Lexeme.scan?_of_not_comment {c : Char} {cs : List Char} (hnewLine : c ≠ '\n')
    (hcomment : ∀ cs', c = '/' → cs = '/' :: cs' → False) :
    scan? (c :: cs) =
      if isBlank c then some (.blank, cs.dropWhile isBlank)
      else if isIdentifierStart c then
        some (.identifier (c :: cs.takeWhile isIdentifierRest), cs.dropWhile isIdentifierRest)
      else
        match Numeral.scan? (c :: cs) with
        | some (n, rest) => some (.numeral n, rest)
        | none => (Symbol.scan? (c :: cs)).map fun (s, rest) => (.symbol s, rest) := by
  unfold scan?
  split
  · next heq => cases heq
  · next heq => exact absurd (List.cons.inj heq).1 hnewLine
  · next heq => exact (hcomment _ (List.cons.inj heq).1 (List.cons.inj heq).2).elim
  · next heq =>
      cases heq
      rfl

theorem Lexeme.scan?_cons {c : Char} {cs : List Char} (hnewLine : c ≠ '\n') (hslash : c ≠ '/') :
    scan? (c :: cs) =
      if isBlank c then some (.blank, cs.dropWhile isBlank)
      else if isIdentifierStart c then
        some (.identifier (c :: cs.takeWhile isIdentifierRest), cs.dropWhile isIdentifierRest)
      else
        match Numeral.scan? (c :: cs) with
        | some (n, rest) => some (.numeral n, rest)
        | none => (Symbol.scan? (c :: cs)).map fun (s, rest) => (.symbol s, rest) :=
  scan?_of_not_comment hnewLine fun _ h _ => hslash h

/-- A character of a class is none that is not of it. -/
theorem ne_of_class {p : Char → Bool} {c d : Char} (hc : p c = true) (hd : p d = false) :
    c ≠ d := by
  rintro rfl
  exact absurd (hc.symm.trans hd) (by decide)

theorem isBlank_of_class {p : Char → Bool} {c : Char} (hc : p c = true)
    (hblank : [' ', '\t', '\r', '\x0c'].any p = false) : isBlank c = false := by
  rw [← Bool.not_eq_true]
  intro h
  have hmem : c ∈ [' ', '\t', '\r', '\x0c'] := by simpa [isBlank, or_assoc] using h
  exact List.any_eq_false.mp hblank c hmem hc

theorem Lexeme.scan?_blank {c : Char} {cs : List Char} (hc : isBlank c = true) :
    scan? (c :: cs) = some (.blank, cs.dropWhile isBlank) := by
  rw [scan?_cons (ne_of_class hc (by decide)) (ne_of_class hc (by decide)), if_pos hc]

theorem Lexeme.scan?_identifier {c : Char} {cs rest : List Char} (hc : isIdentifierStart c = true)
    (hcs : ∀ d ∈ cs, isIdentifierRest d = true)
    (hrest : ∀ d ∈ rest.head?, isIdentifierRest d = false) :
    scan? (c :: (cs ++ rest)) = some (.identifier (c :: cs), rest) := by
  have hblank : isBlank c = false := isBlank_of_class hc (by decide)
  rw [scan?_cons (ne_of_class hc (by decide)) (ne_of_class hc (by decide)), hblank, hc,
    takeWhile_append_ends hcs hrest, dropWhile_append_ends hcs hrest]
  rfl

theorem isIdentifierStart_of_isDigit {c : Char} (hc : isDigit c = true) :
    isIdentifierStart c = false := by
  have key : ∀ d < 10, isIdentifierStart (Digits.char d) = false := by decide
  have hchar : c = Digits.char (Digits.digit c) :=
    Digits.digit_inj hc (Digits.isDigit_char _ (Digits.digit_lt hc))
      (Digits.digit_char _ (Digits.digit_lt hc)).symm
  rw [hchar]
  exact key _ (Digits.digit_lt hc)

theorem Lexeme.scan?_numeral {cs rest rest' : List Char} {n : Numeral}
    (hhead : ∃ c ∈ cs.head?, isDigit c = true)
    (hscan : Numeral.scan? (cs ++ rest) = some (n, rest')) :
    scan? (cs ++ rest) = some (.numeral n, rest') := by
  obtain ⟨c, hc, hdigit⟩ := hhead
  match cs with
  | d :: cs =>
    obtain rfl : d = c := Option.some.inj hc
    have hblank : isBlank d = false := isBlank_of_class hdigit (by decide)
    rw [List.cons_append] at hscan ⊢
    rw [scan?_cons (ne_of_class hdigit (by decide)) (ne_of_class hdigit (by decide)), hblank,
      isIdentifierStart_of_isDigit hdigit, hscan]
    rfl

/-! ## Texts that give their tokens wherever they stand -/

/-- What may stand after a written thing: a blank, a comma, a closing parenthesis, or nothing. -/
def EndsWritten (rest : List Char) : Prop :=
  ∀ c ∈ rest.head?, c ∈ [' ', ',', ')']

theorem endsWritten_nil : EndsWritten [] :=
  nofun

theorem endsWritten_cons {c : Char} (hc : c ∈ [' ', ',', ')']) (rest : List Char) :
    EndsWritten (c :: rest) := by
  intro d hd
  obtain rfl := Option.some.inj hd
  exact hc

theorem EndsWritten.not_class {rest : List Char} (h : EndsWritten rest) {p : Char → Bool}
    (hp : [' ', ',', ')'].any p = false) : ∀ c ∈ rest.head?, p c = false := by
  intro c hc
  exact Bool.eq_false_iff.mpr (List.any_eq_false.mp hp c (h c hc))

theorem EndsWritten.endsNumeral {rest : List Char} (h : EndsWritten rest) : EndsNumeral rest := by
  intro c hc
  have hclass := h.not_class (p := fun c => isDigit c || c == '.' || c == 'e' || c == 'E')
    (by decide) c hc
  simpa [and_assoc] using hclass

theorem EndsWritten.endsIdentifier {rest : List Char} (h : EndsWritten rest) :
    ∀ c ∈ rest.head?, isIdentifierRest c = false :=
  h.not_class (by decide)

/-- **A text that gives certain tokens wherever something ends it.** -/
def Lexes (cs : List Char) (ts : List Token) : Prop :=
  ∀ (line : Nat) (rest : List Char) (ts' : List PlacedToken), EndsWritten rest →
    tokenizeFrom line rest = .ok ts' → tokenizeFrom line (cs ++ rest) = .ok (placed line ts ++ ts')

/-- A text of its own stands on the first line. -/
theorem Lexes.tokenize_ofList {cs : List Char} {ts : List Token} (h : Lexes cs ts) :
    tokenize (String.ofList cs) = .ok (placed 1 ts) := by
  have hall := h 1 [] [] endsWritten_nil (tokenizeFrom_nil 1)
  rw [List.append_nil, List.append_nil] at hall
  rwa [tokenize, String.toList_ofList]

section Steps

variable {line : Nat} {rest : List Char} {ts : List PlacedToken}

/-- A symbol puts its token in front. -/
theorem tokenizeFrom_symbol {cs : List Char} {s : Symbol}
    (h : Lexeme.scan? cs = some (.symbol s, rest)) (hrest : tokenizeFrom line rest = .ok ts) :
    tokenizeFrom line cs = .ok (⟨.symbol s, line⟩ :: ts) :=
  (tokenizeFrom_eq_ok_iff h).mpr ⟨trivial, ts, hrest, rfl⟩

theorem tokenizeFrom_dropWhile_isBlank (hrest : tokenizeFrom line rest = .ok ts) :
    tokenizeFrom line (rest.dropWhile isBlank) = .ok ts := by
  match rest with
  | [] => exact hrest
  | c :: rest =>
    by_cases hc : isBlank c = true
    · obtain ⟨-, ts', hts', rfl⟩ := (tokenizeFrom_eq_ok_iff (Lexeme.scan?_blank hc)).mp hrest
      rwa [List.dropWhile_cons_of_pos hc]
    · rwa [List.dropWhile_cons_of_neg hc]

/-- A blank puts nothing in front. -/
theorem tokenizeFrom_space (hrest : tokenizeFrom line rest = .ok ts) :
    tokenizeFrom line (' ' :: rest) = .ok ts := by
  exact (tokenizeFrom_eq_ok_iff (Lexeme.scan?_blank rfl)).mpr
    ⟨trivial, ts, tokenizeFrom_dropWhile_isBlank hrest, rfl⟩

theorem tokenizeFrom_identifier {name : String} (h : IsIdentifier name)
    (hends : ∀ c ∈ rest.head?, isIdentifierRest c = false)
    (hrest : tokenizeFrom line rest = .ok ts) :
    tokenizeFrom line (name.toList ++ rest) = .ok (⟨.identifier name, line⟩ :: ts) := by
  obtain ⟨c, cs, hname, hc, hcs⟩ := h
  have hscan : Lexeme.scan? (name.toList ++ rest) = some (.identifier name.toList, rest) := by
    rw [hname]
    exact Lexeme.scan?_identifier hc hcs hends
  refine (tokenizeFrom_eq_ok_iff hscan).mpr ⟨trivial, ts, hrest, ?_⟩
  rw [Lexeme.tokens, String.ofList_toList]
  rfl

end Steps

/-- A name gives one token. -/
theorem lexes_identifier {name : String} (h : IsIdentifier name) :
    Lexes name.toList [.identifier name] :=
  fun _ _ _ hrest hts => tokenizeFrom_identifier h hrest.endsIdentifier hts

/-- **A written decimal gives one token**, if it is not negative and may be written. -/
theorem lexes_decimal {d : Decimal} (hneg : d.isNegative = false) (h : d.Spells) :
    Lexes d.write [.number d.reread] := by
  intro line rest ts' hrest hts
  obtain ⟨n, hscan, hn⟩ := (Decimal.isNumeralOf_write hneg).scan rest hrest.endsNumeral
  have hlexeme := Lexeme.scan?_numeral (Decimal.isNumeralOf_write hneg).head hscan
  have hrange : n.inRange = true := by
    rw [Numeral.inRange, decide_eq_true_eq, hn]
    exact d.natAbs_scale_reread_le_iff.mpr h
  refine (tokenizeFrom_eq_ok_iff hlexeme).mpr ⟨hrange, ts', hts, ?_⟩
  rw [Lexeme.tokens, hn]
  rfl

/-! ## Tokens are sound -/

/-- A name is an identifier, and a number is not negative and in range. -/
def Token.Sound : Token → Prop
  | .number d => d.isNegative = false ∧ d.scale.natAbs ≤ Numeral.maxScale
  | .identifier name => IsIdentifier name
  | _ => True

theorem Lexeme.isIdentifier_of_scan? {cs name rest : List Char}
    (h : scan? cs = some (.identifier name, rest)) : IsIdentifier (String.ofList name) := by
  unfold scan? at h
  split at h
  · exact nomatch h
  · exact nomatch h
  · exact nomatch h
  · next c cs _ _ =>
    split at h
    · exact nomatch h
    · split at h
      · next hc =>
        obtain ⟨h, -⟩ := Prod.mk.inj (Option.some.inj h)
        obtain rfl := Lexeme.identifier.inj h
        refine ⟨c, cs.takeWhile isIdentifierRest, String.toList_ofList, hc, ?_⟩
        exact fun d hd => List.all_eq_true.mp List.all_takeWhile d hd
      · split at h
        · exact nomatch h
        · obtain ⟨⟨s, rest⟩, -, h⟩ := Option.map_eq_some_iff.mp h
          exact nomatch h

theorem Numeral.sound_toDecimal {n : Numeral} (h : n.inRange = true) :
    (Token.number n.toDecimal).Sound :=
  ⟨decide_eq_false (Int.not_lt.mpr (Int.natCast_nonneg _)), of_decide_eq_true h⟩

theorem Lexeme.sound_tokens {cs rest : List Char} {lexeme : Lexeme}
    (h : scan? cs = some (lexeme, rest)) (hallowed : lexeme.Allowed) :
    ∀ t ∈ lexeme.tokens, t.Sound := by
  intro t ht
  match lexeme with
  | .blank => exact nomatch ht
  | .newLine =>
    obtain rfl := List.mem_singleton.mp ht
    trivial
  | .symbol s =>
    obtain rfl := List.mem_singleton.mp ht
    trivial
  | .identifier name =>
    obtain rfl := List.mem_singleton.mp ht
    exact isIdentifier_of_scan? h
  | .numeral n =>
    obtain rfl := List.mem_singleton.mp ht
    exact n.sound_toDecimal hallowed

/-- **The tokens of a text are sound.** -/
theorem sound_of_tokenizeFrom (line : Nat) (cs : List Char) {ts : List PlacedToken}
    (h : tokenizeFrom line cs = .ok ts) : ∀ t ∈ ts, t.token.Sound := by
  cases hscan : Lexeme.scan? cs with
  | none =>
    obtain ⟨-, rfl⟩ := (tokenizeFrom_eq_ok_of_none hscan).mp h
    exact List.forall_mem_nil _
  | some found =>
    obtain ⟨lexeme, rest⟩ := found
    have hlt := Lexeme.length_lt_of_scan? hscan
    obtain ⟨hallowed, ts', hts', rfl⟩ := (tokenizeFrom_eq_ok_iff hscan).mp h
    intro t ht
    obtain ht | ht := List.mem_append.mp ht
    · obtain ⟨k, hk, rfl⟩ := List.mem_map.mp ht
      exact Lexeme.sound_tokens hscan hallowed k hk
    · exact sound_of_tokenizeFrom _ rest hts' t ht
termination_by cs.length

end Abacus
