import Abacus.Proofs.Decimal.Arithmetic

/-!
# Proofs/Builtin — functions do not see how a number is written

Arguments of one value differ in nothing but their scales, and to an operator or an exact function a
scale shows in one way only: it may not fit in 64 bits, which is an error where it is looked out for
and the end of the program where it is not.  Wherever neither answer is one of these
(`KeepsScale`), the two answers agree: both are numbers of one value, or both fail for the same cause
(`Operator.agrees_apply`, `Builtin.agrees_unary`, `Builtin.agrees_binary`).

Left out are the functions that compute with floating-point numbers, and powers with an exponent
that is no integer of 32 bits, which do so as well.
-/

namespace Abacus

open Decimal

/-! ## Answers -/

/-- Two decimals of one value. -/
def Decimal.SameValue (x y : Decimal) : Prop :=
  x.toRat = y.toRat

/-- Both answer, alike under `rel`, or both fail for the same cause. -/
def AnswersAlike {α : Type} (rel : α → α → Prop) : Except EvalError α → Except EvalError α → Prop
  | .ok a, .ok b => rel a b
  | .error e, .error e' => e.ctorIdx = e'.ctorIdx
  | _, _ => False

/-- No scale left 64 bits, neither where that is an error nor where the program stops at it. -/
def KeepsScale {α : Type} (x : Except EvalError α) : Prop :=
  x ≠ .error .exponentOverflow ∧ x ≠ .error .stopped

namespace KeepsScale

variable {α β : Type}

theorem ok (a : α) : KeepsScale (.ok a) :=
  ⟨nofun, nofun⟩

/-- A failure that is no matter of scales is none for whatever was to precede or to follow. -/
theorem error {e : EvalError} (h : KeepsScale (.error e : Except EvalError β)) :
    KeepsScale (.error e : Except EvalError α) :=
  ⟨fun he => h.1 (congrArg Except.error (Except.error.inj he)),
    fun he => h.2 (congrArg Except.error (Except.error.inj he))⟩

end KeepsScale

/-- **The answers are alike unless one is that a scale does not fit.** -/
def Agrees {α : Type} (rel : α → α → Prop) (x y : Except EvalError α) : Prop :=
  KeepsScale x → KeepsScale y → AnswersAlike rel x y

namespace Agrees

variable {α β : Type} {rel : α → α → Prop} {rel' : β → β → Prop}

theorem ok {a b : α} (h : rel a b) : Agrees rel (.ok a) (.ok b) :=
  fun _ _ => h

theorem error {e e' : EvalError} (h : e.ctorIdx = e'.ctorIdx) :
    Agrees rel (.error e) (.error e') :=
  fun _ _ => h

theorem bind {x y : Except EvalError α} {f g : α → Except EvalError β} (h : Agrees rel x y)
    (hfg : ∀ a b, rel a b → Agrees rel' (f a) (g b)) : Agrees rel' (x >>= f) (y >>= g) := by
  intro hx hy
  match x, y with
  | .ok a, .ok b => exact hfg a b (h (.ok a) (.ok b)) hx hy
  | .error e, .error e' => exact h (KeepsScale.error hx) (KeepsScale.error hy)
  | .ok a, .error e => exact (h (.ok a) (KeepsScale.error hy)).elim
  | .error e, .ok b => exact (h (KeepsScale.error hx) (.ok b)).elim

/-- Answers of which each is known, unless a scale does not fit. -/
theorem of_values {x y : Except EvalError α} {a b : α} (hx : KeepsScale x → x = .ok a)
    (hy : KeepsScale y → y = .ok b) (h : rel a b) : Agrees rel x y := by
  intro hkx hky
  rw [hx hkx, hy hky]
  exact h

/-- Answers that are given only if a scale fits. -/
theorem checked {p q : Prop} [Decidable p] [Decidable q] {a b : α} (h : rel a b) :
    Agrees rel (if p then .ok a else .error .exponentOverflow)
      (if q then .ok b else .error .exponentOverflow) :=
  of_values (fun hk => if_pos (by_contra fun hp => hk.1 (if_neg hp)))
    (fun hk => if_pos (by_contra fun hq => hk.1 (if_neg hq))) h

end Agrees

section Operations

variable {a a' b b' : Decimal}

/-! ## Operators -/

/-- A result is stored unless its scale stops the program. -/
theorem stored_of_keepsScale (h : KeepsScale a.stored) : a.stored = .ok a :=
  if_pos (by_contra fun hfits => h.2 (if_neg hfits))

theorem mulChecked_of_keepsScale (h : KeepsScale (a.mulChecked b)) :
    a.mulChecked b = .ok (a.mul b) := by
  have hfits : ScaleFits (a.scale + b.scale) := by_contra fun hfits => h.1 (if_neg hfits)
  rw [mulChecked, if_pos hfits] at h ⊢
  exact stored_of_keepsScale h

theorem agrees_mulChecked (ha : a.SameValue a') (hb : b.SameValue b') :
    Agrees SameValue (a.mulChecked b) (a'.mulChecked b') := by
  refine Agrees.of_values mulChecked_of_keepsScale mulChecked_of_keepsScale ?_
  rw [SameValue, toRat_mul, toRat_mul, ha, hb]

/-- **A running total does not see how it is written**, nor how its terms are. -/
theorem Series.agrees_combine (kind : Series) (ha : a.SameValue a') (hb : b.SameValue b') :
    Agrees SameValue (kind.combine a b) (kind.combine a' b') := by
  cases kind with
  | sum =>
    refine Agrees.ok ?_
    rw [SameValue, toRat_addAligned, toRat_addAligned, ha, hb]
  | product =>
    refine Agrees.of_values stored_of_keepsScale stored_of_keepsScale ?_
    rw [SameValue, toRat_mulPlain, toRat_mulPlain, ha, hb]

theorem divide_of_zero (c : Context) (a : Decimal) (hb : b.coeff = 0) :
    c.divide a b = .error .divisionByZero := by
  rw [Context.divide, if_pos (by simpa [isZero] using hb)]

theorem divide_zero_of_ne (c : Context) (ha : a.coeff = 0) (hb : b.coeff ≠ 0) :
    c.divide a b = .ok .zero := by
  rw [Context.divide, if_neg (by simpa [isZero] using hb), if_pos (by simpa [isZero] using ha)]

theorem coeff_eq_zero_congr (h : a.SameValue a') : a.coeff = 0 ↔ a'.coeff = 0 := by
  rw [← toRat_eq_zero, ← toRat_eq_zero, h]

/-- **Division does not see how its operands are written**: an answer is the quotient of the values,
rounded once. -/
theorem agrees_divide (c : Context) (ha : a.SameValue a') (hb : b.SameValue b') :
    Agrees SameValue (c.divide a b) (c.divide a' b') := by
  by_cases hb0 : b.coeff = 0
  · rw [divide_of_zero c a hb0, divide_of_zero c a' ((coeff_eq_zero_congr hb).mp hb0)]
    exact Agrees.error rfl
  · have hb0' := mt (coeff_eq_zero_congr hb).mpr hb0
    by_cases ha0 : a.coeff = 0
    · rw [divide_zero_of_ne c ha0 hb0,
        divide_zero_of_ne c ((coeff_eq_zero_congr ha).mp ha0) hb0']
      exact Agrees.ok rfl
    · have ha0' := mt (coeff_eq_zero_congr ha).mpr ha0
      rw [c.divide_eq a b ha0 hb0, c.divide_eq a' b' ha0' hb0']
      refine Agrees.checked ?_
      have hrounds := c.roundsTo_markedQuotient a' b' ha0' hb0'
      rw [← ha, ← hb] at hrounds
      exact (c.roundsTo_markedQuotient a b ha0 hb0).unique hrounds

theorem agrees_remChecked (ha : a.SameValue a') (hb : b.SameValue b') :
    Agrees SameValue (a.remChecked b) (a'.remChecked b') := by
  have hzero : b.isZero = b'.isZero := by rw [Bool.eq_iff_iff, isZero_iff, isZero_iff, hb]
  rw [remChecked, remChecked, hzero]
  split
  · exact Agrees.error rfl
  · exact Agrees.ok (toRat_rem_congr ha hb)

/-- **An operator does not see how its operands are written.** -/
theorem Operator.agrees_apply (op : Operator) (c : Context) (ha : a.SameValue a')
    (hb : b.SameValue b') : Agrees SameValue (op.apply c a b) (op.apply c a' b') := by
  cases op with
  | plus =>
    refine Agrees.ok ?_
    rw [SameValue, toRat_add, toRat_add, ha, hb]
  | minus =>
    refine Agrees.ok ?_
    rw [SameValue, toRat_sub, toRat_sub, ha, hb]
  | times => exact agrees_mulChecked ha hb
  | divide => exact agrees_divide c ha hb
  | modulo => exact agrees_remChecked ha hb

theorem Operator.agrees_applySign (op : Operator) (ha : a.SameValue a') :
    Agrees SameValue (op.applySign a) (op.applySign a') := by
  cases op with
  | plus => exact Agrees.ok ha
  | minus =>
    refine Agrees.ok ?_
    rw [SameValue, toRat_neg, toRat_neg, ha]
  | times => exact Agrees.error rfl
  | divide => exact Agrees.error rfl
  | modulo => exact Agrees.error rfl

/-! ## Functions -/

theorem sameValue_round (c : Context) (ha : a.SameValue a') :
    (c.round a).SameValue (c.round a') := by
  have h := c.roundsTo_round a
  rw [ha] at h
  exact h.unique (c.roundsTo_round a')

theorem sameValue_roundToScale (ha : a.SameValue a') (s : ℤ) (mode : RoundingMode) :
    (a.roundToScale s mode).SameValue (a'.roundToScale s mode) := by
  rw [SameValue, toRat_roundToScale, toRat_roundToScale, ha]

theorem sameValue_roundHalf (ha : a.SameValue a') : a.roundHalf.SameValue a'.roundHalf := by
  refine sameValue_roundToScale ?_ 0 .floor
  rw [SameValue, toRat_addAligned, toRat_addAligned, ha]

theorem agrees_factorial (ha : a.SameValue a') : Agrees SameValue a.factorial a'.factorial := by
  rw [factorial, factorial, toInt?_congr ha]
  cases a'.toInt? with
  | none => exact Agrees.error rfl
  | some n =>
    by_cases hn : n < 0
    · simp only [if_pos hn]
      exact Agrees.error rfl
    · simp only [if_neg hn]
      exact Agrees.ok rfl

theorem agrees_isPrime (ha : a.SameValue a') : Agrees Eq a.isPrime a'.isPrime := by
  rw [isPrime, isPrime, isInteger_congr ha, toInt32?_congr ha]
  split
  · cases a'.toInt32? with
    | none => exact Agrees.error rfl
    | some n => exact Agrees.ok rfl
  · exact Agrees.ok rfl

theorem agrees_shift (down : Bool) (ha : a.SameValue a') (hb : b.SameValue b') :
    Agrees SameValue (a.shift down b) (a'.shift down b') := by
  rw [shift, shift, truncate_congr ha, truncate_congr hb]
  by_cases hk : b'.truncate.natAbs < twoTo 32
  · simp only [if_pos hk]
    exact Agrees.ok rfl
  · simp only [if_neg hk]
    exact Agrees.error rfl

theorem agrees_powChecked (ha : a.SameValue a') (n : ℕ) :
    Agrees SameValue (a.powChecked n) (a'.powChecked n) := by
  refine Agrees.checked ?_
  rw [SameValue, toRat_pow, toRat_pow, ha]

/-- A power with an exponent that is an integer of 32 bits. -/
theorem agrees_power (c : Context) (ha : a.SameValue a') (hb : b.SameValue b')
    (hexact : b.toInt32? ≠ none) : Agrees SameValue (power c a b) (power c a' b') := by
  rw [power, power, ← toInt32?_congr hb]
  cases h : b.toInt32? with
  | none => exact absurd h hexact
  | some n =>
    by_cases hn : 0 ≤ n
    · simp only [if_pos hn]
      exact agrees_powChecked ha n.natAbs
    · simp only [if_neg hn]
      exact (agrees_powChecked ha n.natAbs).bind fun d d' hd => agrees_divide c rfl hd

end Operations

/-- The functions that compute with floating-point numbers, whatever their arguments. -/
def Builtin.isFloating : Builtin → Bool
  | .sin | .cos | .tan | .asin | .acos | .atan | .atan2 | .sinh | .cosh | .tanh
  | .exp | .logE | .log2 | .log10 | .log | .sqrt | .cbrt | .hypot => true
  | _ => false

/-- Whether a function computes with floating-point numbers on certain values. -/
def Builtin.Floats (f : Builtin) (values : List Decimal) : Prop :=
  f.isFloating = true ∨ f = .power ∧ ∃ a b, values = [a, b] ∧ b.toInt32? = none

section Rules

variable {f : Builtin} {a a' b b' : Decimal}

/-- **A function of one argument does not see how it is written.** -/
theorem Builtin.agrees_unary {apply : Context → Decimal → Except EvalError Decimal}
    (hrule : f.rule = .unary apply) (hf : ¬ f.Floats [a]) (c : Context) (ha : a.SameValue a') :
    Agrees SameValue (apply c a) (apply c a') := by
  cases f with
  | abs =>
    cases hrule
    refine Agrees.ok (sameValue_round c ?_)
    rw [SameValue, ← abs_toRat, ← abs_toRat, ha]
  | floor =>
    cases hrule
    exact Agrees.ok (sameValue_roundToScale ha 0 .floor)
  | ceiling =>
    cases hrule
    exact Agrees.ok (sameValue_roundToScale ha 0 .ceiling)
  | round =>
    cases hrule
    exact Agrees.ok (sameValue_roundHalf ha)
  | not =>
    cases hrule
    exact Agrees.ok (congrArg (fun n : ℤ => toRat (ofBool (n == 0))) (truncate_congr ha))
  | bitNot =>
    cases hrule
    exact Agrees.ok (congrArg (fun n => toRat (ofInt (Integer.complement n))) (truncate_congr ha))
  | factorial =>
    cases hrule
    exact agrees_factorial ha
  | isPrime =>
    cases hrule
    exact (agrees_isPrime ha).bind fun x y hxy => Agrees.ok (congrArg (toRat ∘ ofBool) hxy)
  | _ => first | exact absurd (.inl rfl) hf | cases hrule

theorem agrees_comparison {holds : Ordering → Bool}
    {apply : Context → Decimal → Decimal → Except EvalError Decimal}
    (hrule : Rule.comparison holds = .binary apply) (c : Context) (ha : a.SameValue a')
    (hb : b.SameValue b') : Agrees SameValue (apply c a b) (apply c a' b') := by
  cases hrule
  exact Agrees.ok (congrArg (fun order => toRat (ofBool (holds order))) (compare_congr ha hb))

theorem agrees_onIntegers {g : ℤ → ℤ → ℤ}
    {apply : Context → Decimal → Decimal → Except EvalError Decimal}
    (hrule : Rule.onIntegers g = .binary apply) (c : Context) (ha : a.SameValue a')
    (hb : b.SameValue b') : Agrees SameValue (apply c a b) (apply c a' b') := by
  cases hrule
  exact Agrees.ok (congrArg₂ (fun m n => toRat (ofInt (g m n))) (truncate_congr ha)
    (truncate_congr hb))

/-- **A function of two arguments does not see how they are written.** -/
theorem Builtin.agrees_binary {apply : Context → Decimal → Decimal → Except EvalError Decimal}
    (hrule : f.rule = .binary apply) (hf : ¬ f.Floats [a, b]) (c : Context) (ha : a.SameValue a')
    (hb : b.SameValue b') : Agrees SameValue (apply c a b) (apply c a' b') := by
  cases f with
  | power =>
    cases hrule
    exact agrees_power c ha hb fun hnone => hf (.inr ⟨rfl, a, b, rfl, hnone⟩)
  | plus | subtract | times | divide | modulo =>
    cases hrule
    exact Operator.agrees_apply _ c ha hb
  | equal | unequal | less | lessEqual | greater | greaterEqual =>
    rw [rule] at hrule
    exact agrees_comparison hrule c ha hb
  | bitAnd | bitOr | bitXor =>
    rw [rule] at hrule
    exact agrees_onIntegers hrule c ha hb
  | bitShiftLeft | bitShiftRight =>
    cases hrule
    exact agrees_shift _ ha hb
  | _ => first | exact absurd (.inl rfl) hf | cases hrule

end Rules

end Abacus
