import Abacus.Proofs.Digits
import Abacus.Decimal.Order
import Abacus.Token.Lexer

/-!
# Proofs/Token/Numeral — a written decimal is one numeral

The text of a decimal that is not negative is a numeral, and the longest one at the front of any
text that goes on with something else: `Decimal.isNumeralOf_write`.  There are four forms: digits,
digits with a point, and an exponent after either.  What is read back is the pair itself, except
that zero comes back as the integer zero and the zeros of a round integer become digits:
`Decimal.reread`.
-/

namespace Abacus

open Decimal (isDigit)
open Digits (AllDigits)

/-! ## Scanning -/

/-- What does not go on with digits. -/
def EndsDigits (rest : List Char) : Prop :=
  ∀ c ∈ rest.head?, isDigit c = false

/-- What does not go on with a numeral. -/
def EndsNumeral (rest : List Char) : Prop :=
  ∀ c ∈ rest.head?, isDigit c = false ∧ c ≠ '.' ∧ c ≠ 'e' ∧ c ≠ 'E'

theorem EndsNumeral.endsDigits {rest : List Char} (h : EndsNumeral rest) : EndsDigits rest :=
  fun c hc => (h c hc).1

theorem endsDigits_cons {c : Char} (h : isDigit c = false) (rest : List Char) :
    EndsDigits (c :: rest) := by
  intro d hd
  obtain rfl := Option.some.inj hd
  exact h

/-- The longest front part of a class ends where the class does. -/
theorem takeWhile_append_ends {p : Char → Bool} {cs rest : List Char} (hcs : ∀ c ∈ cs, p c = true)
    (hrest : ∀ c ∈ rest.head?, p c = false) : (cs ++ rest).takeWhile p = cs := by
  have hstop : rest.takeWhile p = [] := by
    match rest with
    | [] => rfl
    | c :: rest => rw [List.takeWhile_cons_of_neg (by simp [hrest c rfl])]
  rw [List.takeWhile_append_of_pos hcs, hstop, List.append_nil]

theorem dropWhile_append_ends {p : Char → Bool} {cs rest : List Char} (hcs : ∀ c ∈ cs, p c = true)
    (hrest : ∀ c ∈ rest.head?, p c = false) : (cs ++ rest).dropWhile p = rest := by
  rw [List.dropWhile_append_of_pos hcs]
  match rest with
  | [] => rfl
  | c :: rest => rw [List.dropWhile_cons_of_neg (by simp [hrest c rfl])]

namespace Numeral

theorem spanFraction_of_ne {rest : List Char} (h : rest.head? ≠ some '.') :
    spanFraction rest = ([], rest) := by
  unfold spanFraction
  split
  · exact absurd rfl h
  · rfl

theorem spanFraction_point {fraction rest : List Char} (hfraction : AllDigits fraction)
    (hne : fraction ≠ []) (hrest : EndsDigits rest) :
    spanFraction ('.' :: (fraction ++ rest)) = (fraction, rest) := by
  simp only [spanFraction, takeWhile_append_ends hfraction hrest,
    dropWhile_append_ends hfraction hrest]
  simp [hne]

theorem spanExponent_of_ends {rest : List Char} (h : EndsNumeral rest) :
    spanExponent rest = ([], rest) := by
  match rest with
  | [] => rfl
  | c :: rest =>
    obtain ⟨-, -, he, hE⟩ := h c rfl
    simp [spanExponent, he, hE]

theorem spanExponent_mark {mark sign : Char} {digits rest : List Char}
    (hmark : mark = 'e' ∨ mark = 'E') (hsign : sign = '+' ∨ sign = '-') (hdigits : AllDigits digits)
    (hne : digits ≠ []) (hrest : EndsDigits rest) :
    spanExponent (mark :: sign :: (digits ++ rest)) = (sign :: digits, rest) := by
  have hsplit : spanSign (sign :: (digits ++ rest)) = ([sign], digits ++ rest) := by
    obtain rfl | rfl := hsign <;> rfl
  have hbool : (mark == 'e' || mark == 'E') = true := by
    obtain rfl | rfl := hmark <;> rfl
  simp only [spanExponent, hbool, hsplit, takeWhile_append_ends hdigits hrest,
    dropWhile_append_ends hdigits hrest]
  simp [hne]

/-- **The numeral at the front of a text that begins with digits.** -/
theorem scan?_digits {whole rest : List Char} (hwhole : AllDigits whole) (hne : whole ≠ [])
    (hrest : EndsDigits rest) :
    scan? (whole ++ rest) =
      some (⟨whole, (spanFraction rest).1, (spanExponent (spanFraction rest).2).1⟩,
        (spanExponent (spanFraction rest).2).2) := by
  simp [scan?, takeWhile_append_ends hwhole hrest, dropWhile_append_ends hwhole hrest, hne]

theorem exponentValue_nil (whole fraction : List Char) :
    exponentValue ⟨whole, fraction, []⟩ = 0 := rfl

theorem readPlain?_digits {digits : List Char} (hdigits : AllDigits digits) (hne : digits ≠ []) :
    Decimal.readPlain? digits = some (Digits.read digits) :=
  if_pos ⟨hne, List.all_eq_true.mpr hdigits⟩

theorem exponentValue_plus {whole fraction digits : List Char} (hdigits : AllDigits digits)
    (hne : digits ≠ []) : exponentValue ⟨whole, fraction, '+' :: digits⟩ = Digits.read digits := by
  simp [exponentValue, Decimal.readSigned?, readPlain?_digits hdigits hne]

theorem exponentValue_minus {whole fraction digits : List Char} (hdigits : AllDigits digits)
    (hne : digits ≠ []) :
    exponentValue ⟨whole, fraction, '-' :: digits⟩ = -(Digits.read digits : Int) := by
  simp [exponentValue, Decimal.readSigned?, readPlain?_digits hdigits hne]

end Numeral

/-! ## The forms of a written decimal -/

/-- **A text that begins with a digit and is one numeral**, which writes `d`, whatever ends it. -/
structure IsNumeralOf (cs : List Char) (d : Decimal) : Prop where
  head : ∃ c ∈ cs.head?, isDigit c = true
  scan : ∀ rest, EndsNumeral rest →
    ∃ n, Numeral.scan? (cs ++ rest) = some (n, rest) ∧ n.toDecimal = d

theorem exists_head_append {ds : List Char} (hds : AllDigits ds) (hne : ds ≠ [])
    (rest : List Char) : ∃ c ∈ (ds ++ rest).head?, isDigit c = true := by
  match ds with
  | c :: ds => exact ⟨c, rfl, hds c List.mem_cons_self⟩

section Forms

variable {whole fraction digits : List Char}

theorem EndsNumeral.head?_ne_point {rest : List Char} (h : EndsNumeral rest) :
    rest.head? ≠ some '.' :=
  fun hpoint => (h _ hpoint).2.1 rfl

/-- Digits alone write an integer. -/
theorem isNumeralOf_whole (hwhole : AllDigits whole) (hne : whole ≠ []) :
    IsNumeralOf whole ⟨Digits.read whole, 0⟩ where
  head := by simpa using exists_head_append hwhole hne []
  scan rest hrest := by
    refine ⟨⟨whole, [], []⟩, ?_, ?_⟩
    · rw [Numeral.scan?_digits hwhole hne hrest.endsDigits,
        Numeral.spanFraction_of_ne hrest.head?_ne_point, Numeral.spanExponent_of_ends hrest]
    · simp [Numeral.toDecimal, Numeral.exponentValue_nil]

/-- Digits and an exponent write an integer at the scale of the exponent. -/
theorem isNumeralOf_whole_exponent (mark sign : Char) (hwhole : AllDigits whole) (hne : whole ≠ [])
    (hmark : mark = 'e' ∨ mark = 'E') (hsign : sign = '+' ∨ sign = '-')
    (hdigits : AllDigits digits) (hne' : digits ≠ []) :
    IsNumeralOf (whole ++ mark :: sign :: digits)
      ⟨Digits.read whole, -Numeral.exponentValue ⟨whole, [], sign :: digits⟩⟩ where
  head := exists_head_append hwhole hne _
  scan rest hrest := by
    have hends : EndsDigits (mark :: sign :: (digits ++ rest)) := by
      obtain rfl | rfl := hmark <;> exact endsDigits_cons rfl _
    have hpoint : (mark :: sign :: (digits ++ rest)).head? ≠ some '.' := by
      obtain rfl | rfl := hmark <;> simp
    refine ⟨⟨whole, [], sign :: digits⟩, ?_, ?_⟩
    · rw [List.append_assoc, List.cons_append, List.cons_append,
        Numeral.scan?_digits hwhole hne hends, Numeral.spanFraction_of_ne hpoint,
        Numeral.spanExponent_mark hmark hsign hdigits hne' hrest.endsDigits]
    · simp [Numeral.toDecimal]

/-- Digits with a point among them write a number with as many digits after the point. -/
theorem isNumeralOf_point (hwhole : AllDigits whole) (hne : whole ≠ [])
    (hfraction : AllDigits fraction) (hne' : fraction ≠ []) :
    IsNumeralOf (whole ++ '.' :: fraction) ⟨Digits.read (whole ++ fraction), fraction.length⟩ where
  head := exists_head_append hwhole hne _
  scan rest hrest := by
    refine ⟨⟨whole, fraction, []⟩, ?_, ?_⟩
    · rw [List.append_assoc, List.cons_append,
        Numeral.scan?_digits hwhole hne (endsDigits_cons (by decide) _),
        Numeral.spanFraction_point hfraction hne' hrest.endsDigits,
        Numeral.spanExponent_of_ends hrest]
    · simp [Numeral.toDecimal, Numeral.exponentValue_nil]

/-- Digits with a point among them and an exponent. -/
theorem isNumeralOf_point_exponent (hwhole : AllDigits whole) (hne : whole ≠ [])
    (hfraction : AllDigits fraction) (hne' : fraction ≠ []) (hdigits : AllDigits digits)
    (hne'' : digits ≠ []) :
    IsNumeralOf (whole ++ '.' :: fraction ++ 'E' :: '-' :: digits)
      ⟨Digits.read (whole ++ fraction), fraction.length + Digits.read digits⟩ where
  head := by
    rw [List.append_assoc]
    exact exists_head_append hwhole hne _
  scan rest hrest := by
    refine ⟨⟨whole, fraction, '-' :: digits⟩, ?_, ?_⟩
    · rw [List.append_assoc, List.append_assoc, List.cons_append, List.cons_append,
        List.cons_append, Numeral.scan?_digits hwhole hne (endsDigits_cons (by decide) _),
        Numeral.spanFraction_point hfraction hne' (endsDigits_cons (by decide) _),
        Numeral.spanExponent_mark (.inr rfl) (.inr rfl) hdigits hne'' hrest.endsDigits]
    · simp [Numeral.toDecimal, Numeral.exponentValue_minus hdigits hne'']

end Forms

namespace Decimal

/-! ## Reading back -/

/-- **The decimal that the text of a decimal is read back as**: an integer with few zeros at its end
is written with these zeros, and zero without its scale. -/
def reread (d : Decimal) : Decimal :=
  if d.coeff = 0 then zero
  else if -maxTrailingZeros ≤ d.scale ∧ d.scale < 0 then ⟨d.coeff * tenTo (-d.scale).toNat, 0⟩
  else d

/-- **Reading back keeps the value.** -/
theorem toRat_reread (d : Decimal) : d.reread.toRat = d.toRat := by
  rw [reread]
  split
  · next h => rw [toRat_eq_zero.mpr h, toRat_eq_zero.mpr rfl]
  · split
    · next h =>
      have hzero := coeffAt_mul_unit d (Int.le_of_lt h.2)
      rw [coeffAt_eq, Int.zero_sub] at hzero
      exact hzero
    · rfl

theorem isNegative_reread {d : Decimal} (h : d.isNegative = false) :
    d.reread.isNegative = false := by
  rw [isNegative, decide_eq_false_iff_not] at h ⊢
  rw [reread]
  split
  · decide
  · split
    · exact Int.not_lt.mpr (Int.mul_nonneg (Int.not_lt.mp h) (Int.natCast_nonneg _))
    · exact h

/-- **Whether a decimal may be written in a program**: zero is written without its scale, and any
other scale must be in range. -/
def Spells (d : Decimal) : Prop :=
  d.coeff = 0 ∨ d.scale.natAbs ≤ Numeral.maxScale

/-- A decimal may be written when what is read back has a scale in range. -/
theorem natAbs_scale_reread_le_iff (d : Decimal) :
    d.reread.scale.natAbs ≤ Numeral.maxScale ↔ d.Spells := by
  rw [reread, Spells]
  split
  · next h => exact iff_of_true (Nat.zero_le _) (.inl h)
  · next h =>
    rw [or_iff_right h]
    split
    · next hround =>
      rw [maxTrailingZeros] at hround
      exact iff_of_true (Nat.zero_le _) (by rw [Numeral.maxScale]; omega)
    · rfl

/-- A round integer is read back with its zeros as digits. -/
theorem reread_of_round {n : Nat} (hn : n ≠ 0) {s : Int} (hlow : -maxTrailingZeros ≤ s)
    (hs : s ≤ 0) : reread ⟨n, s⟩ = ⟨(n * tenTo (-s).toNat : Nat), 0⟩ := by
  rw [reread, if_neg (Int.natCast_ne_zero.mpr hn)]
  split
  · rw [Int.natCast_mul]
  · next h =>
    obtain rfl : s = 0 := Int.le_antisymm hs (Int.not_lt.mp fun hneg => h ⟨hlow, hneg⟩)
    exact congrArg (fun n : Nat => (⟨n, 0⟩ : Decimal)) (Nat.mul_one n).symm

/-- Every other pair is read back as it is. -/
theorem reread_eq_self {n : Nat} (hn : n ≠ 0) {s : Int} (hs : s < -maxTrailingZeros ∨ 0 ≤ s) :
    reread ⟨n, s⟩ = ⟨n, s⟩ := by
  rw [reread, if_neg (Int.natCast_ne_zero.mpr hn), if_neg]
  rintro ⟨hlow, hneg⟩
  obtain hs | hs := hs
  · exact absurd hlow (Int.not_le.mpr hs)
  · exact absurd hneg (Int.not_lt.mpr hs)

theorem isNumeralOf_writeWhole {n : Nat} (hn : n ≠ 0) {s : Int} (hs : s ≤ 0) :
    IsNumeralOf (writeWhole (Digits.write n) (-s)) (reread ⟨n, s⟩) := by
  have hdigits := Digits.allDigits_write n
  have hne := Digits.write_ne_nil n
  rw [writeWhole]
  by_cases hshort : -s ≤ maxTrailingZeros
  · have hread : Digits.read (Digits.write n ++ List.replicate (-s).toNat '0') =
        n * tenTo (-s).toNat := by
      rw [Digits.read_append, Digits.read_write, Digits.read_replicate_zero, List.length_replicate,
        Nat.add_zero]
    have hform := isNumeralOf_whole (hdigits.append (Digits.allDigits_replicate_zero (-s).toNat))
      (List.append_ne_nil_of_left_ne_nil hne _)
    rwa [if_pos hshort, reread_of_round hn (by omega) hs, ← hread]
  · have hform := isNumeralOf_whole_exponent 'e' '+' hdigits hne (.inl rfl) (.inl rfl)
      (Digits.allDigits_write (-s).toNat) (Digits.write_ne_nil _)
    rw [Numeral.exponentValue_plus (Digits.allDigits_write _) (Digits.write_ne_nil _),
      Digits.read_write, Digits.read_write, Int.toNat_of_nonneg (by omega), Int.neg_neg] at hform
    rwa [if_neg hshort, reread_eq_self hn (.inl (by omega))]

theorem isNumeralOf_writeScientific (n places : Nat) :
    IsNumeralOf (writeScientific (Digits.write n) places)
      ⟨n, ((Digits.write n).length - 1 : Nat) + places⟩ := by
  have hdigits := Digits.allDigits_write n
  have hread := Digits.read_write n
  have hplaces := Digits.allDigits_write places
  have hplaces' := Digits.write_ne_nil places
  match hn : Digits.write n with
  | [] => exact absurd hn (Digits.write_ne_nil n)
  | [c] =>
    rw [hn] at hdigits hread
    have hform := isNumeralOf_whole_exponent 'E' '-' hdigits (List.cons_ne_nil _ _) (.inr rfl)
      (.inr rfl) hplaces hplaces'
    rw [Numeral.exponentValue_minus hplaces hplaces', hread, Digits.read_write, Int.neg_neg]
      at hform
    simpa [writeScientific] using hform
  | c :: c' :: cs =>
    rw [hn] at hdigits hread
    obtain ⟨hc, hcs⟩ := List.forall_mem_cons.mp hdigits
    have hform := isNumeralOf_point_exponent (List.forall_mem_singleton.mpr hc)
      (List.cons_ne_nil _ _) hcs (List.cons_ne_nil _ _) hplaces hplaces'
    rw [show [c] ++ c' :: cs = c :: c' :: cs from rfl, hread, Digits.read_write] at hform
    exact hform

theorem isNumeralOf_writePoint (n : Nat) {places : Nat} (hplaces : places ≠ 0) :
    IsNumeralOf (writePoint (Digits.write n) places) ⟨n, places⟩ := by
  have hdigits := Digits.allDigits_write n
  have hread := Digits.read_write n
  have hne := Digits.write_ne_nil n
  rw [writePoint]
  generalize Digits.write n = ds at hdigits hread hne
  split
  · next hle =>
    have hzeros := Digits.allDigits_replicate_zero (places - ds.length)
    have hform : IsNumeralOf (['0'] ++ '.' :: (List.replicate (places - ds.length) '0' ++ ds)) _ :=
      isNumeralOf_point (List.forall_mem_singleton.mpr rfl) (List.cons_ne_nil _ _)
        (hzeros.append hdigits) (List.append_ne_nil_of_right_ne_nil _ hne)
    have hvalue : Digits.read (['0'] ++ (List.replicate (places - ds.length) '0' ++ ds)) = n := by
      rw [Digits.read_append, Digits.read_append, Digits.read_replicate_zero, hread,
        show Digits.read ['0'] = 0 from rfl, Nat.zero_mul, Nat.zero_mul, Nat.zero_add, Nat.zero_add]
    have hlength : (List.replicate (places - ds.length) '0' ++ ds).length = places := by
      rw [List.length_append, List.length_replicate]
      omega
    rwa [hvalue, hlength] at hform
  · next hlt =>
    have hform : IsNumeralOf
        (ds.take (ds.length - places) ++ '.' :: ds.drop (ds.length - places)) _ :=
      isNumeralOf_point (fun c hc => hdigits c (List.mem_of_mem_take hc))
        (List.ne_nil_of_length_pos (by rw [List.length_take]; omega))
        (fun c hc => hdigits c (List.mem_of_mem_drop hc))
        (List.ne_nil_of_length_pos (by rw [List.length_drop]; omega))
    rw [List.take_append_drop, hread, List.length_drop] at hform
    have hlength : ds.length - (ds.length - places) = places := by omega
    rwa [hlength] at hform

theorem isNumeralOf_writeMagnitude {n : Nat} (hn : n ≠ 0) (s : Int) :
    IsNumeralOf (writeMagnitude (Digits.write n) s) (reread ⟨n, s⟩) := by
  rw [writeMagnitude]
  split
  · next hs => exact isNumeralOf_writeWhole hn hs
  · next hs =>
    rw [reread_eq_self hn (.inr (by omega))]
    split
    · next hsmall =>
      have hform := isNumeralOf_writeScientific n (s.toNat + 1 - (Digits.write n).length)
      have hlength := List.length_pos_iff.mpr (Digits.write_ne_nil n)
      have hscale : (((Digits.write n).length - 1 : Nat) : Int) +
          (s.toNat + 1 - (Digits.write n).length : Nat) = s := by
        rw [maxLeadingZeros] at hsmall
        omega
      rwa [hscale] at hform
    · have hform := isNumeralOf_writePoint n (show s.toNat ≠ 0 by omega)
      rwa [Int.toNat_of_nonneg (by omega)] at hform

theorem exists_natCast {d : Decimal} (hneg : d.isNegative = false) :
    ∃ (n : Nat) (s : Int), d = ⟨n, s⟩ := by
  refine ⟨d.coeff.toNat, d.scale, ?_⟩
  rw [Int.toNat_of_nonneg (by simpa [isNegative] using hneg)]

theorem write_natCast {n : Nat} (hn : n ≠ 0) (s : Int) :
    write ⟨n, s⟩ = writeMagnitude (Digits.write n) s := by
  have hneg : isNegative ⟨n, s⟩ = false := decide_eq_false (Int.not_lt.mpr (Int.natCast_nonneg n))
  rw [write, if_neg (Int.natCast_ne_zero.mpr hn), magnitude, Int.natAbs_natCast, hneg]
  rfl

theorem isNegative_abs (d : Decimal) : d.abs.isNegative = false :=
  decide_eq_false (Int.not_lt.mpr (Int.natCast_nonneg _))

/-- A negative decimal is written as its absolute value after `-`. -/
theorem write_of_isNegative {d : Decimal} (h : d.isNegative = true) :
    d.write = '-' :: d.abs.write := by
  have hcoeff : d.coeff ≠ 0 := by
    rw [isNegative, decide_eq_true_eq] at h
    omega
  have habs : d.abs.write = writeMagnitude (Digits.write d.magnitude) d.scale :=
    write_natCast (Int.natAbs_ne_zero.mpr hcoeff) d.scale
  rw [habs, write, if_neg hcoeff, h]
  rfl

/-- **A decimal that is not negative is written as one numeral.** -/
theorem isNumeralOf_write {d : Decimal} (hneg : d.isNegative = false) :
    IsNumeralOf d.write d.reread := by
  obtain ⟨n, s, rfl⟩ := exists_natCast hneg
  by_cases hn : n = 0
  · subst hn
    exact isNumeralOf_whole (List.forall_mem_singleton.mpr rfl) (List.cons_ne_nil _ _)
  · rw [write_natCast hn]
    exact isNumeralOf_writeMagnitude hn s

/-- **A decimal that was read back is written as before.** -/
theorem write_reread {d : Decimal} (hneg : d.isNegative = false) : d.reread.write = d.write := by
  obtain ⟨n, s, rfl⟩ := exists_natCast hneg
  by_cases hn : n = 0
  · subst hn
    rfl
  · by_cases hround : -maxTrailingZeros ≤ s ∧ s ≤ 0
    · have hshort : -s ≤ maxTrailingZeros := Int.neg_le_of_neg_le hround.1
      rw [reread_of_round hn hround.1 hround.2, write_natCast hn, write_natCast, writeMagnitude,
        writeMagnitude, if_pos (Int.le_refl 0), if_pos hround.2, writeWhole, writeWhole,
        if_pos hshort, if_pos (by decide), Digits.write_mul_tenTo hn]
      · exact List.append_nil _
      · exact Nat.mul_ne_zero hn (Nat.ne_of_gt (tenTo_pos _))
    · rw [reread_eq_self hn]
      omega

end Decimal

end Abacus
