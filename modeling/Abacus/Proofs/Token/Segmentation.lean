import Abacus.Proofs.Token.LongestMatch

/-!
# Proofs/Token/Segmentation — a source text is cut into longest matches

    y<=1.5e+ // last      ▸      `y` `<=` `1.5` `e` `+` ` ` `// last`

The lexer cuts a text from left to right into pieces, each the longest match at its place.  If it
gets to the end, each piece that is neither a comment nor blanks gives one token, and no character
is lost (`Cut.texts_append`).  If it does not, it stops at the first place where no pattern matches
or where a number is out of range, and that is its error: `tokenize_longest_match`.

Neither the pieces nor their tokens mention the scanner.
-/

namespace Abacus

/-! ## Pieces -/

/-- A piece of a source text, and the pattern that it matches. -/
structure Piece where
  pattern : Pattern
  text : List Char

namespace Piece

/-- A number has a scale of at most a million, up or down. -/
def InRange (piece : Piece) : Prop :=
  ∀ d, piece.pattern = .number → Writes piece.text d → d.scale.natAbs ≤ 1000000

/-- Comments and blanks. -/
def IsSkipped (piece : Piece) : Prop :=
  piece.pattern = .comment ∨ piece.pattern = .blanks

/-- **The token that a piece stands for.** -/
inductive StandsFor : Piece → Token → Prop
  | number {w : List Char} {d : Decimal} : Writes w d → StandsFor ⟨.number, w⟩ (.number d)
  | identifier {w : List Char} : StandsFor ⟨.identifier, w⟩ (.identifier (String.ofList w))
  | symbol {s : Symbol} {w : List Char} : StandsFor ⟨.symbol s, w⟩ (.symbol s)
  | newLine {w : List Char} : StandsFor ⟨.newLine, w⟩ .newLine

theorem StandsFor.not_isSkipped {piece : Piece} {t : Token} (h : piece.StandsFor t) :
    ¬ piece.IsSkipped := by
  cases h <;> exact nofun

/-- A piece stands for one token. -/
theorem StandsFor.unique {piece : Piece} {t t' : Token} (h : piece.StandsFor t)
    (h' : piece.StandsFor t') : t = t' := by
  cases h with
  | number hw =>
    cases h' with
    | number hw' => rw [hw.unique hw']
  | _ =>
    cases h'
    rfl

/-- The characters of pieces, in order. -/
def texts (pieces : List Piece) : List Char :=
  pieces.flatMap (·.text)

theorem texts_cons (piece : Piece) (pieces : List Piece) :
    texts (piece :: pieces) = piece.text ++ texts pieces :=
  List.flatMap_cons

end Piece

/-! ## Cutting a text -/

/-- **A text cut into pieces, as far as `rest`**: each piece is the longest match at its place, and
no number is out of range. -/
inductive Cut : List Char → List Piece → List Char → Prop
  | nil (cs : List Char) : Cut cs [] cs
  | cons {piece : Piece} {rest rest' : List Char} {pieces : List Piece} :
      piece.pattern.Longest piece.text rest → piece.InRange → Cut rest pieces rest' →
      Cut (piece.text ++ rest) (piece :: pieces) rest'

/-- **The tokens of pieces that stand after `before`**, each on the line that the end of its piece
is on. -/
inductive Places : List Char → List Piece → List PlacedToken → Prop
  | nil (before : List Char) : Places before [] []
  | skip {before : List Char} {piece : Piece} {pieces : List Piece} {ts : List PlacedToken} :
      piece.IsSkipped → Places (before ++ piece.text) pieces ts → Places before (piece :: pieces) ts
  | token {before : List Char} {piece : Piece} {pieces : List Piece} {t : Token}
      {ts : List PlacedToken} :
      piece.StandsFor t → Places (before ++ piece.text) pieces ts →
      Places before (piece :: pieces) (⟨t, 1 + (before ++ piece.text).count '\n'⟩ :: ts)

/-- **What stops the cutting of a text**: a number out of range, or a character where no pattern
matches. -/
inductive Breaks : List Char → ParseFault → Prop
  | number {w rest : List Char} {d : Decimal} : Pattern.number.Longest w rest → Writes w d →
      1000000 < d.scale.natAbs → Breaks (w ++ rest) (.numberOutOfRange (String.ofList w))
  | character {c : Char} {cs : List Char} :
      (∀ (p : Pattern) (w rest : List Char), c :: cs = w ++ rest → w ∉ p.words) →
      Breaks (c :: cs) (.unexpectedCharacter c)

/-- **No character is lost.** -/
theorem Cut.texts_append {cs rest : List Char} {pieces : List Piece} (h : Cut cs pieces rest) :
    Piece.texts pieces ++ rest = cs := by
  induction h with
  | nil cs => rfl
  | cons _ _ _ ih => rw [Piece.texts_cons, List.append_assoc, ih]

/-- Pieces give the same tokens every time. -/
theorem Places.unique {before : List Char} {pieces : List Piece} {ts ts' : List PlacedToken}
    (h : Places before pieces ts) (h' : Places before pieces ts') : ts = ts' := by
  induction h generalizing ts' with
  | nil before =>
    cases h'
    rfl
  | skip hskip _ ih =>
    cases h' with
    | skip _ hrest => exact ih hrest
    | token ht _ => exact absurd hskip ht.not_isSkipped
  | token ht _ ih =>
    cases h' with
    | skip hskip _ => exact absurd hskip ht.not_isSkipped
    | token ht' hrest => rw [ht.unique ht', ih hrest]

/-! ## Only the end of a line begins another

So counting the ends of lines that are scanned counts those in the text. -/

section NewLines

variable {w : List Char}

theorem newLine_notMem_of_class {p : Char → Bool} (hp : p '\n' = false)
    (hw : ∀ c ∈ w, p c = true) : '\n' ∉ w :=
  fun hmem => absurd ((hw _ hmem).symm.trans hp) (by decide)

theorem WritesExponent.newLine_notMem {e : Int} (h : WritesExponent w e) : '\n' ∉ w := by
  have hmark {mark : Char} (hmark : isExponentMark mark = true) : '\n' ≠ mark :=
    (ne_of_class hmark (by decide)).symm
  cases h with
  | none => exact List.not_mem_nil
  | unsigned h hds _ => simp [hmark h, newLine_notMem_of_class (by decide) hds]
  | plus h hds _ => simp [hmark h, newLine_notMem_of_class (by decide) hds]
  | minus h hds _ => simp [hmark h, newLine_notMem_of_class (by decide) hds]

theorem Writes.newLine_notMem {d : Decimal} (h : Writes w d) : '\n' ∉ w := by
  obtain @⟨m, ds, fs, ex, e, hm, hex⟩ := h
  have hm : '\n' ∉ m := by
    cases hm with
    | whole hds _ => exact newLine_notMem_of_class (by decide) hds
    | point hds hfs _ =>
      simp [newLine_notMem_of_class (by decide) hds, newLine_notMem_of_class (by decide) hfs]
  simp [hm, hex.newLine_notMem]

theorem Pattern.newLine_notMem {p : Pattern} (h : w ∈ p.words) (hp : p ≠ .newLine) :
    '\n' ∉ w := by
  cases p with
  | newLine => exact absurd rfl hp
  | number =>
    obtain ⟨d, hd⟩ := mem_words_number.mp h
    exact hd.newLine_notMem
  | identifier =>
    obtain ⟨c, cs, hc, hcs, rfl⟩ := mem_oneOf_mul.mp h
    have hc' : '\n' ≠ c := (ne_of_class hc (by decide)).symm
    simp [hc', newLine_notMem_of_class (by decide) (mem_kstar_oneOf.mp hcs)]
  | symbol s =>
    obtain rfl : w = s.chars := h
    cases s <;> decide
  | comment =>
    obtain ⟨cs, hcs, rfl⟩ := mem_singleton_mul.mp h
    simp [newLine_notMem_of_class (by decide) (mem_kstar_oneOf.mp hcs)]
  | blanks =>
    obtain ⟨c, cs, hc, hcs, rfl⟩ := mem_oneOf_mul.mp h
    have hc' : '\n' ≠ c := (ne_of_class hc (by decide)).symm
    simp [hc', newLine_notMem_of_class (by decide) (mem_kstar_oneOf.mp hcs)]

end NewLines

namespace Lexeme.IsFor

variable {l : Lexeme} {p : Pattern} {w : List Char}

theorem lineAfter_eq (h : l.IsFor p w) (hw : w ∈ p.words) (line : Nat) :
    l.lineAfter line = line + w.count '\n' := by
  cases h with
  | newLine => rfl
  | _ =>
    rw [List.count_eq_zero.mpr (Pattern.newLine_notMem hw nofun)]
    rfl

theorem allowed_iff (h : l.IsFor p w) : l.Allowed ↔ Piece.InRange ⟨p, w⟩ := by
  cases h with
  | @number n w hw =>
    rw [Lexeme.Allowed, Numeral.inRange, decide_eq_true_eq]
    constructor
    · intro hrange d _ hd
      rwa [← hw.unique hd]
    · exact fun hrange => hrange _ rfl hw
  | _ =>
    refine iff_of_true trivial ?_
    intro d hpattern
    cases hpattern

/-- The tokens that a lexeme puts in front of others are those of its piece. -/
theorem places (h : l.IsFor p w) {before : List Char} {pieces : List Piece}
    {ts : List PlacedToken} (hts : Places (before ++ w) pieces ts) :
    Places before (⟨p, w⟩ :: pieces) (placed (1 + (before ++ w).count '\n') l.tokens ++ ts) := by
  cases h with
  | number hw => exact .token (.number hw) hts
  | identifier => exact .token .identifier hts
  | symbol s => exact .token .symbol hts
  | newLine => exact .token .newLine hts
  | comment => exact .skip (.inl rfl) hts
  | blanks => exact .skip (.inr rfl) hts

end Lexeme.IsFor

/-! ## Steps and runs -/

theorem map_nil_append {ε α : Type} (x : Except ε (List α)) : x.map ([] ++ ·) = x := by
  cases x <;> rfl

theorem map_append_append {ε α : Type} (x : Except ε (List α)) (us ts : List α) :
    (x.map (ts ++ ·)).map (us ++ ·) = x.map (us ++ ts ++ ·) := by
  cases x with
  | error e => rfl
  | ok xs => simp [Except.map]

/-- **One step**: a lexeme that is allowed puts its tokens in front of those of the rest. -/
theorem tokenizeFrom_of_allowed {line : Nat} {cs rest : List Char} {l : Lexeme}
    (h : Lexeme.scan? cs = some (l, rest)) (hallowed : l.Allowed) :
    tokenizeFrom line cs = (tokenizeFrom (l.lineAfter line) rest).map
      (placed (l.lineAfter line) l.tokens ++ ·) := by
  rw [tokenizeFrom]
  split
  · next hnone => exact nomatch hnone.symm.trans h
  · next l' rest' hsome =>
    obtain ⟨rfl, rfl⟩ := Prod.mk.inj (Option.some.inj (hsome.symm.trans h))
    cases l' with
    | blank => exact (map_nil_append _).symm
    | numeral n => exact if_pos hallowed
    | _ => rfl

/-- **A whole run**: the tokens of pieces stand in front of those of what is left. -/
theorem Cut.tokenizeFrom_eq {cs rest : List Char} {pieces : List Piece} (h : Cut cs pieces rest)
    (before : List Char) :
    ∃ ts, Places before pieces ts ∧
      tokenizeFrom (1 + before.count '\n') cs =
        (tokenizeFrom (1 + (before ++ Piece.texts pieces).count '\n') rest).map (ts ++ ·) := by
  induction h generalizing before with
  | nil cs =>
    refine ⟨[], .nil before, ?_⟩
    rw [map_nil_append, Piece.texts, List.flatMap_nil, List.append_nil]
  | @cons piece rest rest' pieces hlongest hrange hcut ih =>
    obtain ⟨l, hscan, hl⟩ := hlongest.scan?
    obtain ⟨ts, hts, hrest⟩ := ih (before ++ piece.text)
    refine ⟨_, hl.places hts, ?_⟩
    have hline : l.lineAfter (1 + before.count '\n') = 1 + (before ++ piece.text).count '\n' := by
      rw [hl.lineAfter_eq hlongest.mem, List.count_append, Nat.add_assoc]
    rw [tokenizeFrom_of_allowed hscan (hl.allowed_iff.mpr hrange), hline, hrest, map_append_append,
      Piece.texts_cons, List.append_assoc]

/-- **Where the cutting stops, the lexer fails**, and says why. -/
theorem Breaks.tokenizeFrom_eq {cs : List Char} {fault : ParseFault} (h : Breaks cs fault)
    (line : Nat) : tokenizeFrom line cs = .error ⟨line, fault⟩ := by
  cases h with
  | @number w rest d hlongest hd hscale =>
    obtain ⟨l, hscan, hl⟩ := hlongest.scan?
    obtain @⟨n, w, hw⟩ := hl
    have hrange : n.inRange = false := by
      rw [Numeral.inRange, hw.unique hd]
      exact decide_eq_false (Nat.not_le.mpr hscale)
    rw [tokenizeFrom]
    split
    · next hnone => cases hnone.symm.trans hscan
    · next l' rest' hsome =>
      obtain ⟨rfl, rfl⟩ := Prod.mk.inj (Option.some.inj (hsome.symm.trans hscan))
      simp [hrange]
  | @character c cs hnone =>
    rw [tokenizeFrom]
    split
    · rfl
    · next l rest hsome => cases (Lexeme.scan?_eq_none_iff.mpr hnone).symm.trans hsome

/-- **A text may be cut up to its end, or up to where something stops the cutting.** -/
theorem exists_cut (cs : List Char) :
    ∃ pieces rest, Cut cs pieces rest ∧ (rest = [] ∨ ∃ fault, Breaks rest fault) := by
  cases hscan : Lexeme.scan? cs with
  | none =>
    refine ⟨[], cs, .nil cs, ?_⟩
    match cs with
    | [] => exact .inl rfl
    | c :: cs => exact .inr ⟨_, .character (Lexeme.scan?_eq_none_iff.mp hscan)⟩
  | some found =>
    obtain ⟨l, rest⟩ := found
    have hlt := Lexeme.length_lt_of_scan? hscan
    obtain ⟨p, w, rfl, hlongest, hl⟩ := Lexeme.longest_of_scan? hscan
    by_cases hrange : Piece.InRange ⟨p, w⟩
    · obtain ⟨pieces, rest', hcut, hend⟩ := exists_cut rest
      exact ⟨⟨p, w⟩ :: pieces, rest', .cons hlongest hrange hcut, hend⟩
    · simp only [Piece.InRange, not_forall, Nat.not_le] at hrange
      obtain ⟨d, rfl, hd, hscale⟩ := hrange
      exact ⟨[], _, .nil _, .inr ⟨_, .number hlongest hd hscale⟩⟩
termination_by cs.length

/-! ## The tokens of a source text -/

section Sources

variable {source : String}

/-- A text that is cut up to its end has the tokens of its pieces. -/
theorem Cut.tokenize_eq_ok {pieces : List Piece} (h : Cut source.toList pieces []) :
    ∃ ts, Places [] pieces ts ∧ tokenize source = .ok ts := by
  obtain ⟨ts, hts, heq⟩ := h.tokenizeFrom_eq []
  refine ⟨ts, hts, heq.trans ?_⟩
  rw [tokenizeFrom_nil, Except.map, List.append_nil]

theorem Cut.tokenize_eq_error {pieces : List Piece} {rest : List Char} {fault : ParseFault}
    (h : Cut source.toList pieces rest) (hbreaks : Breaks rest fault) :
    tokenize source = .error ⟨1 + (Piece.texts pieces).count '\n', fault⟩ := by
  obtain ⟨ts, -, heq⟩ := h.tokenizeFrom_eq []
  refine heq.trans ?_
  rw [hbreaks.tokenizeFrom_eq, Except.map, List.nil_append]

theorem exists_cut_of_tokenize_eq_ok {ts : List PlacedToken} (h : tokenize source = .ok ts) :
    ∃ pieces, Cut source.toList pieces [] ∧ Places [] pieces ts := by
  obtain ⟨pieces, rest, hcut, rfl | ⟨fault, hbreaks⟩⟩ := exists_cut source.toList
  · obtain ⟨ts', hts', heq⟩ := hcut.tokenize_eq_ok
    obtain rfl := Except.ok.inj (h.symm.trans heq)
    exact ⟨pieces, hcut, hts'⟩
  · exact nomatch h.symm.trans (hcut.tokenize_eq_error hbreaks)

theorem exists_cut_of_tokenize_eq_error {line : Nat} {fault : ParseFault}
    (h : tokenize source = .error ⟨line, fault⟩) :
    ∃ pieces rest, Cut source.toList pieces rest ∧ Breaks rest fault ∧
      line = 1 + (Piece.texts pieces).count '\n' := by
  obtain ⟨pieces, rest, hcut, rfl | ⟨fault', hbreaks⟩⟩ := exists_cut source.toList
  · obtain ⟨ts, -, heq⟩ := hcut.tokenize_eq_ok
    exact nomatch h.symm.trans heq
  · have heq := h.symm.trans (hcut.tokenize_eq_error hbreaks)
    obtain ⟨rfl, rfl⟩ := ParseError.mk.inj (Except.error.inj heq)
    exact ⟨pieces, rest, hcut, hbreaks, rfl⟩

end Sources

/-- **The lexer cuts a source text into longest matches.**  It gives tokens if and only if the text
may be cut up to its end, and then they are the tokens of the pieces, each on its line.  Otherwise
it fails where something stops the cutting, on the line of that place.  The pieces and what is left
are the text. -/
theorem tokenize_longest_match (source : String) :
    ((∃ ts, tokenize source = .ok ts) ↔ ∃ pieces, Cut source.toList pieces []) ∧
    (∀ ts, tokenize source = .ok ts ↔
      ∃ pieces, Piece.texts pieces = source.toList ∧ Cut source.toList pieces [] ∧
        Places [] pieces ts) ∧
    (∀ line fault, tokenize source = .error ⟨line, fault⟩ ↔
      ∃ pieces rest, Piece.texts pieces ++ rest = source.toList ∧ Cut source.toList pieces rest ∧
        Breaks rest fault ∧ line = 1 + (Piece.texts pieces).count '\n') := by
  refine ⟨⟨?_, ?_⟩, fun ts => ⟨fun hts => ?_, ?_⟩, fun line fault => ⟨fun herror => ?_, ?_⟩⟩
  · rintro ⟨ts, hts⟩
    obtain ⟨pieces, hcut, -⟩ := exists_cut_of_tokenize_eq_ok hts
    exact ⟨pieces, hcut⟩
  · rintro ⟨pieces, hcut⟩
    obtain ⟨ts, -, hts⟩ := hcut.tokenize_eq_ok
    exact ⟨ts, hts⟩
  · obtain ⟨pieces, hcut, hplaces⟩ := exists_cut_of_tokenize_eq_ok hts
    have htexts := hcut.texts_append
    rw [List.append_nil] at htexts
    exact ⟨pieces, htexts, hcut, hplaces⟩
  · rintro ⟨pieces, -, hcut, hplaces⟩
    obtain ⟨ts', hplaces', hts'⟩ := hcut.tokenize_eq_ok
    rw [hplaces.unique hplaces']
    exact hts'
  · obtain ⟨pieces, rest, hcut, hstop⟩ := exists_cut_of_tokenize_eq_error herror
    exact ⟨pieces, rest, hcut.texts_append, hcut, hstop⟩
  · rintro ⟨pieces, rest, -, hcut, hbreaks, rfl⟩
    exact hcut.tokenize_eq_error hbreaks

end Abacus
