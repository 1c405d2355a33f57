import Abacus.Proofs.Token.Lines
import Abacus.Proofs.Token.Pattern

/-!
# Proofs/Token/LongestMatch — a lexeme is the longest match

A scanner never looks back, and a pattern may match less than the scanner would like: after the `1`
of `1e+` there is an exponent only if a digit follows the sign.  Still `Lexeme.scan?` finds the
longest front part of a text that matches any pattern at all.  What it takes matches one
(`Lexeme.exists_of_scan?`), and where a word matches one, it takes no less (`Lexeme.takes_of_mem`).
-/

namespace Abacus

open Decimal (isDigit)
open Digits (AllDigits)
open scoped Computability

/-! ## Scanning takes what matches, and no less

Where a word matches, the scanner may go on and take more.  So each step is shown to take either
just the word, and then to find what the word stands for, or more. -/

/-- **Just `rest` is left**, and what was found satisfies `P`, or less is left. -/
inductive TakesAtLeast {α : Type} (rest : List Char) (P : α → Prop) : α × List Char → Prop
  | exact {x : α} : P x → TakesAtLeast rest P (x, rest)
  | more {found : α × List Char} : found.2.length < rest.length → TakesAtLeast rest P found

theorem TakesAtLeast.map {α β : Type} {rest : List Char} {P : α → Prop} {Q : β → Prop}
    {found : α × List Char} (h : TakesAtLeast rest P found) (f : α → β)
    (hf : ∀ x, P x → Q (f x)) : TakesAtLeast rest Q (f found.1, found.2) := by
  cases h with
  | exact hx => exact .exact (hf _ hx)
  | more hlt => exact .more hlt

theorem takeWhile_nil_or_lt (p : Char → Bool) (cs : List Char) :
    cs.takeWhile p = [] ∧ cs.dropWhile p = cs ∨ (cs.dropWhile p).length < cs.length := by
  match cs with
  | [] => exact .inl ⟨rfl, rfl⟩
  | c :: cs =>
    by_cases hc : p c = true
    · refine .inr ?_
      rw [List.dropWhile_cons_of_pos hc]
      exact Nat.lt_succ_of_le (length_dropWhile_le p cs)
    · exact .inl ⟨List.takeWhile_cons_of_neg hc, List.dropWhile_cons_of_neg hc⟩

theorem allDigits_takeWhile (cs : List Char) : AllDigits (cs.takeWhile isDigit) :=
  fun c hc => List.all_eq_true.mp List.all_takeWhile c hc

namespace Numeral

theorem exponentValue_unsigned {whole fraction ds : List Char} (hdigits : AllDigits ds)
    (hne : ds ≠ []) : exponentValue ⟨whole, fraction, ds⟩ = Digits.read ds := by
  match ds with
  | c :: ds =>
    have hc := hdigits c List.mem_cons_self
    rw [exponentValue, Decimal.readSigned?, readPlain?_digits hdigits hne]
    · rfl
    · rintro cs h
      exact ne_of_class hc (by decide) (List.cons.inj h).1
    · rintro cs h
      exact ne_of_class hc (by decide) (List.cons.inj h).1

/-- There is no fraction, or it is a point and digits. -/
theorem spanFraction_cases (cs : List Char) :
    spanFraction cs = ([], cs) ∨
      ∃ fs rest, AllDigits fs ∧ fs ≠ [] ∧ cs = '.' :: (fs ++ rest) ∧
        spanFraction cs = (fs, rest) := by
  fun_cases spanFraction cs with
  | case1 rest digits hempty => exact .inl rfl
  | case2 rest digits hempty =>
    refine .inr ⟨_, _, allDigits_takeWhile rest, by simpa [digits] using hempty, ?_, rfl⟩
    rw [List.takeWhile_append_dropWhile]
  | case3 => exact .inl rfl

theorem spanFraction_nil_or_lt (cs : List Char) :
    spanFraction cs = ([], cs) ∨ (spanFraction cs).2.length < cs.length := by
  obtain hnone | ⟨fs, rest, -, -, rfl, hsome⟩ := spanFraction_cases cs
  · exact .inl hnone
  · refine .inr ?_
    simp only [hsome, List.length_cons, List.length_append]
    omega

theorem spanFraction_digits {fs : List Char} (hfs : AllDigits fs) (hne : fs ≠ [])
    (rest : List Char) :
    spanFraction ('.' :: (fs ++ rest)) =
      (fs ++ rest.takeWhile isDigit, rest.dropWhile isDigit) := by
  simp [spanFraction, List.takeWhile_append_of_pos hfs, List.dropWhile_append_of_pos hfs, hne]

theorem spanSign_digits {ds : List Char} (hdigits : AllDigits ds) (hne : ds ≠ [])
    (rest : List Char) : spanSign (ds ++ rest) = ([], ds ++ rest) := by
  match ds with
  | c :: ds =>
    have hc := hdigits c List.mem_cons_self
    rw [List.cons_append, spanSign]
    · rintro cs h
      exact ne_of_class hc (by decide) (List.cons.inj h).1
    · rintro cs h
      exact ne_of_class hc (by decide) (List.cons.inj h).1

theorem spanSign_spec (cs : List Char) :
    cs = (spanSign cs).1 ++ (spanSign cs).2 ∧
      ((spanSign cs).1 = [] ∨ (spanSign cs).1 = ['+'] ∨ (spanSign cs).1 = ['-']) := by
  fun_cases spanSign cs <;> simp

/-- A mark, a sign or none, and digits write an exponent, and it is the value that is read. -/
theorem exists_writesExponent {mark : Char} {sign ds : List Char}
    (hmark : isExponentMark mark = true) (hsign : sign = [] ∨ sign = ['+'] ∨ sign = ['-'])
    (hdigits : AllDigits ds) (hne : ds ≠ []) :
    ∃ e, WritesExponent (mark :: (sign ++ ds)) e ∧
      ∀ whole fraction, exponentValue ⟨whole, fraction, sign ++ ds⟩ = e := by
  obtain rfl | rfl | rfl := hsign
  · refine ⟨_, .unsigned hmark hdigits hne, fun _ _ => ?_⟩
    rw [digitsValue_eq_read]
    exact exponentValue_unsigned hdigits hne
  · refine ⟨_, .plus hmark hdigits hne, fun _ _ => ?_⟩
    rw [digitsValue_eq_read]
    exact exponentValue_plus hdigits hne
  · refine ⟨_, .minus hmark hdigits hne, fun _ _ => ?_⟩
    rw [digitsValue_eq_read]
    exact exponentValue_minus hdigits hne

/-- There is no exponent, or it is one that is written, and its value is read. -/
theorem spanExponent_cases (cs : List Char) :
    spanExponent cs = ([], cs) ∨
      ∃ ex e x rest, WritesExponent ex e ∧ ex ≠ [] ∧ cs = ex ++ rest ∧
        spanExponent cs = (x, rest) ∧
        ∀ whole fraction, exponentValue ⟨whole, fraction, x⟩ = e := by
  fun_cases spanExponent cs with
  | case1 => exact .inl rfl
  | case2 mark rest hmark sign rest' hspan digits hempty => exact .inl rfl
  | case3 mark rest hmark sign rest' hspan digits hempty =>
    obtain ⟨hsplit, hsign⟩ := spanSign_spec rest
    rw [hspan] at hsplit hsign
    have hne : rest'.takeWhile isDigit ≠ [] := by simpa [digits] using hempty
    obtain ⟨e, hwrites, hvalue⟩ :=
      exists_writesExponent hmark hsign (allDigits_takeWhile rest') hne
    refine .inr ⟨_, e, _, _, hwrites, List.cons_ne_nil _ _, ?_, rfl, hvalue⟩
    rw [List.cons_append, List.append_assoc, List.takeWhile_append_dropWhile, ← hsplit]
  | case4 => exact .inl rfl

theorem spanExponent_nil_or_lt (cs : List Char) :
    spanExponent cs = ([], cs) ∨ (spanExponent cs).2.length < cs.length := by
  obtain hnone | ⟨ex, e, x, rest, -, hne, rfl, hsome, -⟩ := spanExponent_cases cs
  · exact .inl hnone
  · have hex := List.length_pos_iff.mpr hne
    refine .inr ?_
    simp only [hsome, List.length_append]
    omega

theorem spanExponent_digits {mark : Char} (sign : List Char) {ds rest : List Char}
    (hmark : isExponentMark mark = true) (hdigits : AllDigits ds) (hne : ds ≠ [])
    (hsign : spanSign (sign ++ (ds ++ rest)) = (sign, ds ++ rest)) :
    spanExponent (mark :: (sign ++ (ds ++ rest))) =
      (sign ++ ds ++ rest.takeWhile isDigit, rest.dropWhile isDigit) := by
  have hmark' : (mark == 'e' || mark == 'E') = true := hmark
  simp [spanExponent, hmark', hsign, List.takeWhile_append_of_pos hdigits,
    List.dropWhile_append_of_pos hdigits, hne]

/-- A written exponent is taken, and after it any digits that follow. -/
theorem spanExponent_of_writes {ex : List Char} {e : Int} (h : WritesExponent ex e) (hex : ex ≠ [])
    (rest : List Char) :
    ∃ x, spanExponent (ex ++ rest) = (x ++ rest.takeWhile isDigit, rest.dropWhile isDigit) ∧
      ∀ whole fraction, exponentValue ⟨whole, fraction, x⟩ = e := by
  cases h with
  | none => exact absurd rfl hex
  | @unsigned mark ds hmark hdigits hne =>
    refine ⟨ds, spanExponent_digits [] hmark hdigits hne
      (spanSign_digits hdigits hne rest), fun _ _ => ?_⟩
    rw [exponentValue_unsigned hdigits hne, digitsValue_eq_read]
  | @plus mark ds hmark hdigits hne =>
    refine ⟨'+' :: ds, spanExponent_digits ['+'] hmark hdigits hne rfl, fun _ _ => ?_⟩
    rw [exponentValue_plus hdigits hne, digitsValue_eq_read]
  | @minus mark ds hmark hdigits hne =>
    refine ⟨'-' :: ds, spanExponent_digits ['-'] hmark hdigits hne rfl, fun _ _ => ?_⟩
    rw [exponentValue_minus hdigits hne, digitsValue_eq_read]

/-- The digits at the front of a text, before and after the point. -/
def spanMantissa (cs : List Char) : (List Char × List Char) × List Char :=
  let (fraction, rest) := spanFraction (cs.dropWhile isDigit)
  ((cs.takeWhile isDigit, fraction), rest)

/-- **A numeral is a mantissa and an exponent.** -/
theorem scan?_eq (cs : List Char) :
    scan? cs =
      if (spanMantissa cs).1 = ([], []) then none
      else some (⟨(spanMantissa cs).1.1, (spanMantissa cs).1.2,
        (spanExponent (spanMantissa cs).2).1⟩, (spanExponent (spanMantissa cs).2).2) := by
  simp [scan?, spanMantissa]

theorem exists_of_spanMantissa {cs : List Char} (h : (spanMantissa cs).1 ≠ ([], [])) :
    ∃ m, cs = m ++ (spanMantissa cs).2 ∧
      Mantissa m (spanMantissa cs).1.1 (spanMantissa cs).1.2 := by
  have hcs := List.takeWhile_append_dropWhile (p := isDigit) (l := cs)
  obtain hnone | ⟨fs, rest, hfs, hne, hrest, hsome⟩ := spanFraction_cases (cs.dropWhile isDigit)
  · simp only [spanMantissa, hnone] at h ⊢
    exact ⟨_, hcs.symm, .whole (allDigits_takeWhile cs) (by simpa using h)⟩
  · simp only [spanMantissa, hsome] at h ⊢
    refine ⟨_, ?_, .point (allDigits_takeWhile cs) hfs hne⟩
    rw [List.append_assoc, List.cons_append, ← hrest, hcs]

/-- **What is scanned as a numeral is a number**, and the decimal is the one it writes. -/
theorem exists_of_scan? {cs rest : List Char} {n : Numeral} (h : scan? cs = some (n, rest)) :
    ∃ w, cs = w ++ rest ∧ Writes w n.toDecimal := by
  rw [scan?_eq] at h
  split at h
  · exact nomatch h
  · next hmantissa =>
    obtain ⟨m, hcs, hm⟩ := exists_of_spanMantissa hmantissa
    obtain ⟨rfl, rfl⟩ := Prod.mk.inj (Option.some.inj h)
    obtain hnone | ⟨ex, e, x, rest, hex, -, hrest, hsome, hvalue⟩ :=
      spanExponent_cases (spanMantissa cs).2
    · rw [hnone, toDecimal, ← digitsValue_eq_read, exponentValue_nil]
      refine ⟨m, hcs, ?_⟩
      have := Writes.mk hm .none
      rwa [List.append_nil] at this
    · rw [hsome, toDecimal, ← digitsValue_eq_read, hvalue]
      refine ⟨m ++ ex, ?_, .mk hm hex⟩
      rw [List.append_assoc, ← hrest]
      exact hcs

/-- A mantissa is taken, and perhaps more digits. -/
theorem takes_mantissa {m ds fs : List Char} (h : Mantissa m ds fs) (rest : List Char) :
    TakesAtLeast rest (· = (ds, fs)) (spanMantissa (m ++ rest)) := by
  cases h with
  | whole hdigits hne =>
    rw [spanMantissa, List.takeWhile_append_of_pos hdigits, List.dropWhile_append_of_pos hdigits]
    obtain ⟨htake, hdrop⟩ | hlt := takeWhile_nil_or_lt isDigit rest
    · rw [htake, hdrop, List.append_nil]
      obtain hnone | hlt := spanFraction_nil_or_lt rest
      · rw [hnone]
        exact .exact rfl
      · exact .more hlt
    · have hfraction := length_spanFraction (rest.dropWhile isDigit)
      exact .more (Nat.lt_of_le_of_lt (Nat.le_of_add_left_le hfraction) hlt)
  | point hdigits hfs hne =>
    have hpoint : EndsDigits ('.' :: (fs ++ rest)) := endsDigits_cons (by decide) _
    rw [spanMantissa, List.append_assoc, List.cons_append, takeWhile_append_ends hdigits hpoint,
      dropWhile_append_ends hdigits hpoint, spanFraction_digits hfs hne]
    obtain ⟨htake, hdrop⟩ | hlt := takeWhile_nil_or_lt isDigit rest
    · rw [htake, hdrop, List.append_nil]
      exact .exact rfl
    · exact .more hlt

/-- Before what does not go on with it, just the mantissa is taken. -/
theorem spanMantissa_of_ends {m ds fs : List Char} (h : Mantissa m ds fs) {rest : List Char}
    (hrest : ∀ c ∈ rest.head?, isDigit c = false ∧ c ≠ '.') :
    spanMantissa (m ++ rest) = ((ds, fs), rest) := by
  have hdigits : EndsDigits rest := fun c hc => (hrest c hc).1
  have hpoint : rest.head? ≠ some '.' := fun hc => (hrest _ hc).2 rfl
  cases h with
  | whole hds hne =>
    rw [spanMantissa, takeWhile_append_ends hds hdigits, dropWhile_append_ends hds hdigits,
      spanFraction_of_ne hpoint]
  | point hds hfs hne =>
    have hends : EndsDigits ('.' :: (fs ++ rest)) := endsDigits_cons (by decide) _
    rw [spanMantissa, List.append_assoc, List.cons_append, takeWhile_append_ends hds hends,
      dropWhile_append_ends hds hends, spanFraction_point hfs hne hdigits]

theorem spanMantissa_ne_nil {m ds fs : List Char} (h : Mantissa m ds fs) (rest : List Char) :
    (spanMantissa (m ++ rest)).1 ≠ ([], []) := by
  cases h with
  | whole hdigits hne => simp [spanMantissa, List.takeWhile_append_of_pos hdigits, hne]
  | point hdigits hfs hne =>
    have hpoint : EndsDigits ('.' :: (fs ++ rest)) := endsDigits_cons (by decide) _
    simp [spanMantissa, dropWhile_append_ends hdigits hpoint, spanFraction_digits hfs hne, hne]

/-- **A number is taken, and perhaps more**: if no more, then the decimal is the one it writes. -/
theorem takes_of_writes {w : List Char} {d : Decimal} (h : Writes w d) (rest : List Char) :
    ∃ found, scan? (w ++ rest) = some found ∧ TakesAtLeast rest (·.toDecimal = d) found := by
  obtain @⟨m, ds, fs, ex, e, hm, he⟩ := h
  rw [List.append_assoc, scan?_eq, if_neg (spanMantissa_ne_nil hm _)]
  refine ⟨_, rfl, ?_⟩
  by_cases hex : ex = []
  · subst hex
    cases he
    have htakes := takes_mantissa hm rest
    rw [List.nil_append]
    generalize spanMantissa (m ++ rest) = found at htakes ⊢
    cases htakes with
    | exact hfound =>
      subst hfound
      obtain hnone | hlt := spanExponent_nil_or_lt rest
      · rw [hnone]
        refine .exact ?_
        rw [toDecimal, exponentValue_nil, digitsValue_eq_read]
      · exact .more hlt
    | more hlt => exact .more (Nat.lt_of_le_of_lt (length_spanExponent found.2) hlt)
  -- the mark of the exponent ends the mantissa
  · obtain ⟨x, hx, hvalue⟩ := spanExponent_of_writes he hex rest
    rw [spanMantissa_of_ends hm (he.ends_mantissa hex rest), hx]
    obtain ⟨htake, hdrop⟩ | hlt := takeWhile_nil_or_lt isDigit rest
    · rw [htake, hdrop, List.append_nil]
      refine .exact ?_
      rw [toDecimal, hvalue, digitsValue_eq_read]
    · exact .more hlt

end Numeral

/-- **A number writes one decimal.** -/
theorem Writes.unique {w : List Char} {d d' : Decimal} (h : Writes w d) (h' : Writes w d') :
    d = d' := by
  obtain ⟨found, hscan, htakes⟩ := Numeral.takes_of_writes h []
  obtain ⟨found', hscan', htakes'⟩ := Numeral.takes_of_writes h' []
  obtain rfl := Option.some.inj (hscan.symm.trans hscan')
  cases htakes with
  | more hlt => exact absurd hlt (Nat.not_lt_zero _)
  | exact hfound =>
    cases htakes' with
    | more hlt => exact absurd hlt (Nat.not_lt_zero _)
    | exact hfound' => exact hfound.symm.trans hfound'

/-! ## Symbols -/

theorem Symbol.eq_of_scan? {cs rest : List Char} {s : Symbol} (h : scan? cs = some (s, rest)) :
    cs = s.chars ++ rest := by
  revert h
  fun_cases scan? cs
  all_goals rintro ⟨⟩ <;> rfl

/-- A symbol that begins a longer one: either the longer one stands there or it does not. -/
theorem Symbol.takes_unless {s : Symbol} {rest : List Char} (c : Char)
    (hlonger : ∀ cs, ∃ s', scan? (s.chars ++ c :: cs) = some (s', cs))
    (hnot : (∀ cs, rest ≠ c :: cs) →
      ∃ found, scan? (s.chars ++ rest) = some found ∧ TakesAtLeast rest (· = s) found) :
    ∃ found, scan? (s.chars ++ rest) = some found ∧ TakesAtLeast rest (· = s) found := by
  by_cases hfront : ∃ cs, rest = c :: cs
  · obtain ⟨cs, rfl⟩ := hfront
    obtain ⟨s', hs'⟩ := hlonger cs
    exact ⟨_, hs', .more (Nat.lt_succ_self _)⟩
  · exact hnot (not_exists.mp hfront)

/-- A symbol is taken, or a longer one that it begins. -/
theorem Symbol.takes (s : Symbol) (rest : List Char) :
    ∃ found, scan? (s.chars ++ rest) = some found ∧ TakesAtLeast rest (· = s) found := by
  cases s with
  | bang =>
    refine takes_unless '=' (fun _ => ⟨_, rfl⟩) fun hequals => ⟨_, ?_, .exact rfl⟩
    rw [chars, List.singleton_append, scan?]
    exact hequals
  | equals =>
    refine takes_unless '=' (fun _ => ⟨_, rfl⟩) fun hequals => ⟨_, ?_, .exact rfl⟩
    rw [chars, List.singleton_append, scan?]
    exact hequals
  | less =>
    refine takes_unless '=' (fun _ => ⟨_, rfl⟩) fun hequals => ?_
    refine takes_unless '<' (fun _ => ⟨_, rfl⟩) fun hshift => ⟨_, ?_, .exact rfl⟩
    rw [chars, List.singleton_append, scan?]
    · exact hshift
    · exact hequals
  | greater =>
    refine takes_unless '=' (fun _ => ⟨_, rfl⟩) fun hequals => ?_
    refine takes_unless '>' (fun _ => ⟨_, rfl⟩) fun hshift => ⟨_, ?_, .exact rfl⟩
    rw [chars, List.singleton_append, scan?]
    · exact hshift
    · exact hequals
  | _ => exact ⟨_, rfl, .exact rfl⟩

/-- What begins a symbol begins no other kind of lexeme, except that `//` begins a comment. -/
theorem Symbol.chars_eq_cons (s : Symbol) :
    ∃ c cs, s.chars = c :: cs ∧ c ≠ '\n' ∧ isBlank c = false ∧ isIdentifierStart c = false ∧
      isDigit c = false ∧ c ≠ '.' := by
  cases s <;> exact ⟨_, _, rfl, by decide⟩

/-! ## Lexemes -/

theorem Numeral.scan?_eq_none {c : Char} (hdigit : isDigit c = false) (hpoint : c ≠ '.')
    (cs : List Char) : scan? (c :: cs) = none := by
  have hc : ¬ isDigit c = true := by simp [hdigit]
  have hhead : (c :: cs).head? ≠ some '.' := fun h => hpoint (Option.some.inj h)
  rw [scan?_eq, if_pos]
  rw [spanMantissa, List.takeWhile_cons_of_neg hc, List.dropWhile_cons_of_neg hc,
    spanFraction_of_ne hhead]

namespace Lexeme

/-- **Where there is a numeral, it is the lexeme.** -/
theorem scan?_of_numeral {cs rest : List Char} {n : Numeral}
    (h : Numeral.scan? cs = some (n, rest)) : scan? cs = some (.numeral n, rest) := by
  match cs with
  | [] => exact nomatch h
  | c :: cs =>
    have hclass : (isDigit c || c == '.') = true := by
      by_contra hc
      obtain ⟨hdigit, hpoint⟩ : isDigit c = false ∧ c ≠ '.' := by simpa using hc
      exact absurd ((Numeral.scan?_eq_none hdigit hpoint cs).symm.trans h) nofun
    have hblank : isBlank c = false :=
      isBlank_of_class (p := fun c => isDigit c || c == '.') hclass (by decide)
    have hne {d : Char} (hd : (isDigit d || d == '.') = false) : c ≠ d :=
      ne_of_class (p := fun c => isDigit c || c == '.') hclass hd
    have hstart : isIdentifierStart c = false := by
      obtain hdigit | hpoint := (Bool.or_eq_true _ _).mp hclass
      · exact isIdentifierStart_of_isDigit hdigit
      · rw [eq_of_beq hpoint]
        decide
    rw [scan?_cons (hne (by decide)) (hne (by decide)), hblank, hstart, h]
    rfl

/-- **Where a symbol stands, it is the lexeme**, unless a comment begins there. -/
theorem scan?_of_symbol {s : Symbol} {rest : List Char}
    (hcomment : ∀ cs, s.chars ++ rest ≠ '/' :: '/' :: cs) :
    scan? (s.chars ++ rest) = (Symbol.scan? (s.chars ++ rest)).map fun (s, rest) =>
      (.symbol s, rest) := by
  obtain ⟨c, cs, hchars, hnewLine, hblank, hstart, hdigit, hpoint⟩ := s.chars_eq_cons
  rw [hchars, List.cons_append] at hcomment ⊢
  rw [scan?_of_not_comment hnewLine fun cs' hc hcs => hcomment cs' (by rw [hc, hcs]), hblank,
    hstart, Numeral.scan?_eq_none hdigit hpoint]
  rfl

/-- What a word that matches a pattern is scanned as. -/
inductive IsFor : Lexeme → Pattern → List Char → Prop
  | number {n : Numeral} {w : List Char} : Writes w n.toDecimal → IsFor (.numeral n) .number w
  | identifier {w : List Char} : IsFor (.identifier w) .identifier w
  | symbol (s : Symbol) : IsFor (.symbol s) (.symbol s) s.chars
  | newLine : IsFor .newLine .newLine ['\n']
  | comment {w : List Char} : IsFor .blank .comment w
  | blanks {w : List Char} : IsFor .blank .blanks w

/-- **What is scanned matches a pattern.** -/
theorem exists_of_scan? {cs rest : List Char} {l : Lexeme} (h : scan? cs = some (l, rest)) :
    ∃ p w, cs = w ++ rest ∧ w ∈ p.words ∧ l.IsFor p w := by
  have hclass (p : Char → Bool) (cs : List Char) : cs.takeWhile p ∈ (oneOf p)∗ :=
    mem_kstar_oneOf.mpr fun c hc => List.all_eq_true.mp List.all_takeWhile c hc
  revert h
  fun_cases scan? cs with
  | case1 =>
    intro h
    cases h
  | case2 cs =>
    rintro ⟨⟩
    exact ⟨.newLine, _, rfl, rfl, .newLine⟩
  | case3 cs =>
    rintro ⟨⟩
    refine ⟨.comment, _, ?_, mem_singleton_mul.mpr ⟨_, hclass _ cs, rfl⟩, .comment⟩
    simp [List.takeWhile_append_dropWhile]
  | case4 c cs _ _ hc =>
    rintro ⟨⟩
    refine ⟨.blanks, _, ?_, mem_oneOf_mul.mpr ⟨c, _, hc, hclass _ cs, rfl⟩, .blanks⟩
    rw [List.cons_append, List.takeWhile_append_dropWhile]
  | case5 c cs _ _ _ hc =>
    rintro ⟨⟩
    refine ⟨.identifier, _, ?_, mem_oneOf_mul.mpr ⟨c, _, hc, hclass _ cs, rfl⟩, .identifier⟩
    rw [List.cons_append, List.takeWhile_append_dropWhile]
  | case6 c cs _ _ _ _ n rest hscan =>
    rintro ⟨⟩
    obtain ⟨w, hw, hwrites⟩ := Numeral.exists_of_scan? hscan
    exact ⟨.number, w, hw, mem_words_number.mpr ⟨_, hwrites⟩, .number hwrites⟩
  | case7 c cs _ _ _ _ hscan =>
    intro h
    obtain ⟨⟨s, rest⟩, hs, ⟨⟩⟩ := Option.map_eq_some_iff.mp h
    exact ⟨.symbol s, s.chars, Symbol.eq_of_scan? hs, rfl, .symbol s⟩

theorem takes_of_class {p : Char → Bool} {cs : List Char} (hcs : cs ∈ (oneOf p)∗)
    (rest : List Char) :
    TakesAtLeast rest (· = cs) ((cs ++ rest).takeWhile p, (cs ++ rest).dropWhile p) := by
  have hall := mem_kstar_oneOf.mp hcs
  rw [List.takeWhile_append_of_pos hall, List.dropWhile_append_of_pos hall]
  obtain ⟨htake, hdrop⟩ | hlt := takeWhile_nil_or_lt p rest
  · rw [htake, hdrop, List.append_nil]
    exact .exact rfl
  · exact .more hlt

/-- **Where a word matches a pattern, no less is taken.** -/
theorem takes_of_mem {p : Pattern} {w : List Char} (h : w ∈ p.words) (rest : List Char) :
    ∃ found, scan? (w ++ rest) = some found ∧ TakesAtLeast rest (·.IsFor p w) found := by
  cases p with
  | number =>
    obtain ⟨d, hd⟩ := mem_words_number.mp h
    obtain ⟨found, hscan, htakes⟩ := Numeral.takes_of_writes hd rest
    refine ⟨_, scan?_of_numeral hscan, htakes.map numeral ?_⟩
    rintro n rfl
    exact .number hd
  | identifier =>
    obtain ⟨c, cs, hc, hcs, rfl⟩ := mem_oneOf_mul.mp h
    have hblank : isBlank c = false := isBlank_of_class hc (by decide)
    refine ⟨_, ?_, (takes_of_class hcs rest).map (fun cs => identifier (c :: cs)) ?_⟩
    · rw [List.cons_append, scan?_cons (ne_of_class hc (by decide)) (ne_of_class hc (by decide)),
        hblank, hc]
      rfl
    · rintro _ rfl
      exact .identifier
  | symbol s =>
    obtain rfl : w = s.chars := h
    by_cases hcomment : ∃ cs, s.chars ++ rest = '/' :: '/' :: cs
    -- only a slash has another slash after it here
    · obtain ⟨cs, hcs⟩ := hcomment
      obtain rfl : rest = '/' :: cs := by
        cases s <;> simp_all [Symbol.chars]
      rw [hcs]
      exact ⟨_, rfl, .more (Nat.lt_succ_of_le (length_dropWhile_le _ cs))⟩
    · obtain ⟨found, hscan, htakes⟩ := s.takes rest
      refine ⟨_, ?_, htakes.map symbol ?_⟩
      · rw [scan?_of_symbol (not_exists.mp hcomment), hscan]
        rfl
      · rintro _ rfl
        exact .symbol _
  | newLine =>
    obtain rfl : w = ['\n'] := h
    exact ⟨_, rfl, .exact .newLine⟩
  | comment =>
    obtain ⟨cs, hcs, rfl⟩ := mem_singleton_mul.mp h
    exact ⟨_, rfl, (takes_of_class hcs rest).map (fun _ => blank) fun _ _ => .comment⟩
  | blanks =>
    obtain ⟨c, cs, hc, hcs, rfl⟩ := mem_oneOf_mul.mp h
    exact ⟨_, scan?_blank hc, (takes_of_class hcs rest).map (fun _ => blank) fun _ _ => .blanks⟩

end Lexeme

/-! ## The longest match -/

/-- **The word `w` matches `p`**, and no longer front part of `w ++ rest` matches any pattern. -/
structure Pattern.Longest (p : Pattern) (w rest : List Char) : Prop where
  mem : w ∈ p.words
  longest : ∀ (q : Pattern) (v rest' : List Char), v ∈ q.words → v ++ rest' = w ++ rest →
    v.length ≤ w.length

/-- **The longest match is what is scanned.** -/
theorem Pattern.Longest.scan? {p : Pattern} {w rest : List Char} (h : p.Longest w rest) :
    ∃ l, Lexeme.scan? (w ++ rest) = some (l, rest) ∧ l.IsFor p w := by
  obtain ⟨found, hscan, htakes⟩ := Lexeme.takes_of_mem h.mem rest
  cases htakes with
  | @exact l hl => exact ⟨l, hscan, hl⟩
  | more hlt =>
    obtain ⟨q, v, heq, hv, -⟩ := Lexeme.exists_of_scan? hscan
    have hle := h.longest q v found.2 hv heq.symm
    have hlength := congrArg List.length heq
    rw [List.length_append, List.length_append] at hlength
    omega

/-- **What is scanned is the longest match.** -/
theorem Lexeme.longest_of_scan? {cs rest : List Char} {l : Lexeme}
    (h : scan? cs = some (l, rest)) : ∃ p w, cs = w ++ rest ∧ p.Longest w rest ∧ l.IsFor p w := by
  obtain ⟨p, w, rfl, hw, hl⟩ := exists_of_scan? h
  refine ⟨p, w, rfl, ⟨hw, ?_⟩, hl⟩
  intro q v rest' hv heq
  obtain ⟨found, hscan, htakes⟩ := takes_of_mem hv rest'
  obtain rfl : found = (l, rest) := Option.some.inj (hscan.symm.trans (heq ▸ h))
  have hle : rest.length ≤ rest'.length := by
    cases htakes with
    | exact _ => exact Nat.le_refl _
    | more hlt => exact Nat.le_of_lt hlt
  have hlength := congrArg List.length heq
  rw [List.length_append, List.length_append] at hlength
  omega

/-- **Where nothing is scanned, no pattern matches.** -/
theorem Lexeme.scan?_eq_none_iff {cs : List Char} :
    scan? cs = none ↔ ∀ (p : Pattern) (w rest : List Char), cs = w ++ rest → w ∉ p.words := by
  constructor
  · rintro h p w rest rfl hw
    obtain ⟨found, hscan, -⟩ := takes_of_mem hw rest
    exact nomatch h.symm.trans hscan
  · intro h
    refine Option.eq_none_iff_forall_ne_some.mpr fun found hscan => ?_
    obtain ⟨p, w, heq, hw, -⟩ := exists_of_scan? hscan
    exact h p w found.2 heq hw

end Abacus
