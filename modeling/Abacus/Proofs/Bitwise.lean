import Abacus.Proofs.Decimal.Arithmetic
import Abacus.Proofs.Evaluation.Basic

/-!
# Proofs/Bitwise — integers as endless rows of bits

Bit `k` of an integer is the parity of the integer with its last `k` bits dropped, rounded down
(`testBit_iff_odd`), so that a negative integer has leading ones without end.  Two facts carry
everything else:

* `BitsAddUp.add_eq_add` — if two pairs of integers have as many ones at each place, they have one
  sum.  No carry has to be followed: the pairs agree modulo every power of two.
* `shift_eq_floor` — moving the bits is a product with a power of two, rounded down.

The functions of the language take the integer parts of their operands and do no more than this
(`eval_shift`, `eval_bitwise`).
-/

namespace Abacus

namespace Integer

/-! ## One bit after another -/

theorem testBit_zero (n : ℤ) : testBit n 0 = decide (n % 2 = 1) := by
  cases n with
  | ofNat m =>
    rw [testBit, Nat.testBit_zero]
    exact decide_eq_decide.mpr (by simp only [Int.ofNat_eq_natCast]; omega)
  | negSucc m =>
    rw [testBit, Nat.testBit_zero, ← decide_not]
    exact decide_eq_decide.mpr (by rw [Int.negSucc_eq]; omega)

theorem testBit_succ (n : ℤ) (k : ℕ) : testBit n (k + 1) = testBit (n / 2) k := by
  cases n with
  | ofNat m =>
    have hhalf : Int.ofNat m / 2 = Int.ofNat (m / 2) := rfl
    rw [hhalf, testBit, testBit, Nat.testBit_succ]
  | negSucc m =>
    have hhalf : Int.negSucc m / 2 = Int.negSucc (m / 2) := by
      rw [Int.negSucc_eq, Int.negSucc_eq]
      omega
    rw [hhalf, testBit, testBit, Nat.testBit_succ]

/-- **Bit `k` is the parity of what is left when `k` bits are dropped.** -/
theorem testBit_iff_odd (n : ℤ) (k : ℕ) : testBit n k = true ↔ Odd (n / 2 ^ k) := by
  induction k generalizing n with
  | zero => rw [testBit_zero, decide_eq_true_eq, pow_zero, Int.ediv_one, Int.odd_iff]
  | succ k ih =>
    rw [testBit_succ, ih, pow_succ', Int.ediv_ediv_of_nonneg (by decide)]

theorem toNat_testBit_zero (n : ℤ) : ((testBit n 0).toNat : ℤ) = n % 2 := by
  rw [testBit_zero]
  obtain h | h := Int.emod_two_eq_zero_or_one n
  · rw [h]
    rfl
  · rw [h]
    rfl

/-! ## Sums bit by bit -/

/-- The two pairs of integers have as many ones at each place. -/
def BitsAddUp (x y a b : ℤ) : Prop :=
  ∀ k, (testBit x k).toNat + (testBit y k).toNat = (testBit a k).toNat + (testBit b k).toNat

theorem BitsAddUp.half {x y a b : ℤ} (h : BitsAddUp x y a b) :
    BitsAddUp (x / 2) (y / 2) (a / 2) (b / 2) := by
  intro k
  simpa only [testBit_succ] using h (k + 1)

theorem BitsAddUp.two_pow_dvd {x y a b : ℤ} (h : BitsAddUp x y a b) (k : ℕ) :
    2 ^ k ∣ (x + y) - (a + b) := by
  induction k generalizing x y a b with
  | zero => exact one_dvd _
  | succ k ih =>
    have hlast : x % 2 + y % 2 = a % 2 + b % 2 := by
      simp only [← toNat_testBit_zero]
      exact_mod_cast h 0
    -- the last bits cancel, and what is left is twice the difference of the halves
    have hsplit : (x + y) - (a + b) = 2 * ((x / 2 + y / 2) - (a / 2 + b / 2)) := by omega
    rw [hsplit, pow_succ']
    exact mul_dvd_mul_left 2 (ih h.half)

/-- **Pairs with as many ones at each place have one sum.** -/
theorem BitsAddUp.add_eq_add {x y a b : ℤ} (h : BitsAddUp x y a b) : x + y = a + b := by
  have hdvd := h.two_pow_dvd ((x + y) - (a + b)).natAbs
  have hlt : |(x + y) - (a + b)| < 2 ^ ((x + y) - (a + b)).natAbs := by
    rw [← Int.natCast_natAbs]
    exact_mod_cast Nat.lt_two_pow_self
  exact sub_eq_zero.mp (Int.eq_zero_of_abs_lt_dvd hdvd hlt)

/-! ## Logic -/

theorem testBit_without (m n k : ℕ) : (without m n).testBit k = (m.testBit k && !n.testBit k) := by
  rw [without, Nat.testBit_xor, Nat.testBit_and]
  cases m.testBit k <;> cases n.testBit k <;> rfl

theorem testBit_and (a b : ℤ) (k : ℕ) : testBit (and a b) k = (testBit a k && testBit b k) := by
  cases a <;> cases b <;> simp [and, testBit, testBit_without, Bool.and_comm]

theorem testBit_or (a b : ℤ) (k : ℕ) : testBit (or a b) k = (testBit a k || testBit b k) := by
  cases a <;> cases b <;> simp [or, testBit, testBit_without, Bool.or_comm]

theorem testBit_xor (a b : ℤ) (k : ℕ) : testBit (xor a b) k = (testBit a k ^^ testBit b k) := by
  cases a <;> cases b <;> simp [xor, testBit]

theorem complement_ofNat (m : ℕ) : complement (.ofNat m) = .negSucc m := by
  rw [complement, Int.negSucc_eq, Int.ofNat_eq_natCast]
  omega

theorem complement_negSucc (m : ℕ) : complement (.negSucc m) = .ofNat m := by
  rw [complement, Int.negSucc_eq, Int.ofNat_eq_natCast]
  omega

theorem testBit_complement (a : ℤ) (k : ℕ) : testBit (complement a) k = !testBit a k := by
  cases a with
  | ofNat m => rw [complement_ofNat, testBit, testBit]
  | negSucc m => rw [complement_negSucc, testBit, testBit, Bool.not_not]

/-! ### What follows from the bits alone -/

theorem eq_of_testBit_eq {x y : ℤ} (h : ∀ k, testBit x k = testBit y k) : x = y := by
  have hbits : BitsAddUp x 0 y 0 := fun k => by rw [h]
  simpa only [add_zero] using hbits.add_eq_add

theorem and_add_or (a b : ℤ) : and a b + or a b = a + b := by
  refine BitsAddUp.add_eq_add fun k => ?_
  rw [testBit_and, testBit_or]
  cases testBit a k <;> cases testBit b k <;> rfl

theorem xor_eq_or_sub_and (a b : ℤ) : xor a b = or a b - and a b := by
  have hbits : BitsAddUp (xor a b) (and a b) (or a b) 0 := by
    intro k
    have hzero : testBit 0 k = false := Nat.zero_testBit k
    rw [testBit_xor, testBit_and, testBit_or, hzero]
    cases testBit a k <;> cases testBit b k <;> rfl
  rw [eq_sub_iff_add_eq, hbits.add_eq_add, add_zero]

/-- What is not in both is not in the one or not in the other. -/
theorem complement_and (a b : ℤ) : complement (and a b) = or (complement a) (complement b) := by
  refine eq_of_testBit_eq fun k => ?_
  rw [testBit_complement, testBit_and, testBit_or, testBit_complement, testBit_complement,
    Bool.not_and]

/-! ## Shifts -/

theorem natAbs_lt_twoTo_iff (k : ℤ) (j : ℕ) : k.natAbs < twoTo j ↔ |k| < 2 ^ j := by
  rw [← Int.natCast_natAbs]
  exact_mod_cast Iff.rfl

theorem shiftUp_eq (a : ℤ) (k : ℕ) : shiftUp a k = a * 2 ^ k := by
  cases a with
  | ofNat m =>
    rw [shiftUp, Nat.shiftLeft_eq, Int.ofNat_eq_natCast, Int.ofNat_eq_natCast]
    push_cast
    rfl
  | negSucc m =>
    rw [shiftUp, Nat.shiftLeft_eq, Int.negSucc_eq, neg_mul, Int.ofNat_eq_natCast]
    push_cast
    rfl

theorem shiftDown_eq (a : ℤ) (k : ℕ) : shiftDown a k = a / 2 ^ k := by
  cases a with
  | ofNat m =>
    rw [shiftDown, Nat.shiftRight_eq_div_pow, Int.ofNat_eq_natCast, Int.ofNat_eq_natCast]
    push_cast
    rfl
  | negSucc m =>
    rw [shiftDown, Nat.shiftRight_eq_div_pow, Int.negSucc_ediv m (by positivity), Int.negSucc_eq]
    push_cast
    rfl

/-- **Moving the bits is a product with a power of two, rounded down.** -/
theorem shift_eq_floor (a k : ℤ) : shift a k = ⌊(a : ℚ) * 2 ^ k⌋ := by
  rw [shift]
  split
  · next hk =>
    obtain ⟨j, rfl⟩ : ∃ j : ℕ, k = -j := ⟨k.natAbs, by omega⟩
    rw [shiftDown_eq, Int.natAbs_neg, Int.natAbs_natCast, zpow_neg, zpow_natCast, ← div_eq_mul_inv]
    exact_mod_cast (Rat.floor_intCast_div_natCast a (2 ^ j)).symm
  · next hk =>
    obtain ⟨j, rfl⟩ : ∃ j : ℕ, k = j := ⟨k.natAbs, by omega⟩
    rw [shiftUp_eq, Int.natAbs_natCast, zpow_natCast]
    exact_mod_cast (Int.floor_intCast (a * 2 ^ j)).symm

/-- Bits that are moved up and down again are where they were. -/
theorem shift_shift_neg (a : ℤ) {k : ℤ} (hk : 0 ≤ k) : shift (shift a k) (-k) = a := by
  obtain ⟨j, rfl⟩ := Int.eq_ofNat_of_zero_le hk
  have hup : ⌊(a : ℚ) * 2 ^ (j : ℤ)⌋ = a * 2 ^ j := by
    rw [zpow_natCast]
    exact_mod_cast Int.floor_intCast (a * 2 ^ j)
  rw [shift_eq_floor, shift_eq_floor, hup]
  push_cast
  rw [mul_assoc, ← zpow_natCast, ← zpow_add₀ two_ne_zero, add_neg_cancel, zpow_zero, mul_one,
    Int.floor_intCast]

end Integer

/-! ## The functions

They look at no more of their arguments than the integer parts. -/

/-- Turning the sign turns the sign of the integer part. -/
theorem RoundingMode.select_down_neg (q : ℚ) : down.select (-q) = -down.select q := by
  obtain h | rfl | h := lt_trichotomy q 0
  · rw [select, select, if_pos (neg_nonneg.mpr h.le), if_neg (not_le.mpr h), Int.floor_neg]
  · simp
  · rw [select, select, if_neg (not_le.mpr (neg_lt_zero.mpr h)), if_pos h.le, Int.ceil_neg]

namespace Decimal

theorem truncate_ofInt (n : ℤ) : (ofInt n).truncate = n := by
  rw [truncate_eq_select, toRat_ofInt, RoundingMode.select_intCast]

theorem truncate_neg (d : Decimal) : d.neg.truncate = -d.truncate := by
  rw [truncate_eq_select, truncate_eq_select, toRat_neg, RoundingMode.select_down_neg]

variable (d : Decimal) {amount : Decimal}

/-- An amount whose magnitude fits in 32 bits is an amount in either direction. -/
theorem shift_of_lt (down : Bool) (h : |amount.truncate| < 2 ^ 32) :
    d.shift down amount = .ok (ofInt
      (Integer.shift d.truncate (if down then -amount.truncate else amount.truncate))) := by
  rw [shift, if_pos ((Integer.natAbs_lt_twoTo_iff _ 32).mpr h)]

theorem shift_of_le (down : Bool) (h : 2 ^ 32 ≤ |amount.truncate|) :
    d.shift down amount = .error (.shiftOutOfRange amount) := by
  rw [shift, if_neg (mt (Integer.natAbs_lt_twoTo_iff _ 32).mp (not_lt.mpr h))]

/-- A shift down is a shift up by the opposite amount. -/
theorem shift_true_eq (h : |amount.truncate| < 2 ^ 32) :
    d.shift true amount = d.shift false amount.neg := by
  have hneg : |amount.neg.truncate| < 2 ^ 32 := by rwa [truncate_neg, abs_neg]
  rw [shift_of_lt d true h, shift_of_lt d false hneg, truncate_neg]
  rfl

/-- A shift up is undone by a shift down, as far as the integer part goes. -/
theorem shift_true_shift (h : |amount.truncate| < 2 ^ 32) (hpos : 0 ≤ amount.truncate) :
    (ofInt (Integer.shift d.truncate amount.truncate)).shift true amount =
      .ok (ofInt d.truncate) := by
  rw [shift_of_lt _ true h, truncate_ofInt, if_pos rfl, Integer.shift_shift_neg _ hpos]

end Decimal

namespace Expr

open Integer (testBit)

/-- **Shifts multiply by a power of two and round down**, whatever the signs of the operand and of
the amount are, if the integer part of the amount has a magnitude below `2 ^ 32`.  So a shift down
is a shift up by the opposite amount, and a shift up of an integer is undone by a shift down.  Any
other amount is refused. -/
theorem eval_shift (x n : Decimal) (s : Session) {t k : ℤ}
    (ht : RoundingMode.down.select x.toRat = t) (hk : RoundingMode.down.select n.toRat = k) :
    (|k| < 2 ^ 32 →
      (call .bitShiftLeft [.number x, .number n]).eval s = (.ok (.ofInt ⌊(t : ℚ) * 2 ^ k⌋), s) ∧
      (call .bitShiftRight [.number x, .number n]).eval s =
        (.ok (.ofInt ⌊(t : ℚ) * 2 ^ (-k)⌋), s) ∧
      (call .bitShiftRight [.number x, .number n]).eval s =
        (call .bitShiftLeft [.number x, .unary .minus (.number n)]).eval s ∧
      (0 ≤ k → ∀ m : ℤ, x.toRat = m →
        (call .bitShiftRight [.call .bitShiftLeft [.number x, .number n], .number n]).eval s =
          (.ok (.ofInt m), s))) ∧
    (2 ^ 32 ≤ |k| →
      (call .bitShiftLeft [.number x, .number n]).eval s = (.error (.shiftOutOfRange n), s) ∧
      (call .bitShiftRight [.number x, .number n]).eval s =
        (.error (.shiftOutOfRange n), s)) := by
  rw [← Decimal.truncate_eq_select] at ht hk
  subst ht hk
  refine ⟨fun hfits => ⟨?_, ?_, ?_, fun hpos m hm => ?_⟩, fun hlarge => ⟨?_, ?_⟩⟩
  · rw [eval_call_numbers rfl, x.shift_of_lt false hfits, ← Integer.shift_eq_floor]
    rfl
  · rw [eval_call_numbers rfl, x.shift_of_lt true hfits, ← Integer.shift_eq_floor]
    rfl
  · rw [eval_call_numbers rfl, x.shift_true_eq hfits, eval, evalWithin_call_binary rfl
      (evalWithin_number _ x s) (evalWithin_minus (evalWithin_number _ n s))]
  · have hup : evalWithin (nestingLimit s.env) (.call .bitShiftLeft [.number x, .number n]) s =
        (.ok (.ofInt (Integer.shift x.truncate n.truncate)), s) := by
      rw [evalWithin_call_binary rfl (evalWithin_number _ x s) (evalWithin_number _ n s),
        x.shift_of_lt false hfits]
      rfl
    have hinteger : x.truncate = m := by
      rw [Decimal.truncate_eq_select, hm, RoundingMode.select_intCast]
    rw [eval, evalWithin_call_binary rfl hup (evalWithin_number _ n s),
      x.shift_true_shift hfits hpos, hinteger]
  · rw [eval_call_numbers rfl, x.shift_of_le false hlarge]
  · rw [eval_call_numbers rfl, x.shift_of_le true hlarge]

/-- Minus nine and a half, moved by one and a half places and by `2 ^ 32`; and three, moved up and
down again. -/
theorem eval_shift_minusNineAndHalf :
    (call .bitShiftLeft [.number ⟨-95, 1⟩, .number ⟨15, 1⟩]).eval (.initial default (mkStdGen 0)) =
      (.ok ⟨-18, 0⟩, .initial default (mkStdGen 0)) ∧
    (call .bitShiftRight [.number ⟨-95, 1⟩, .number ⟨15, 1⟩]).eval (.initial default (mkStdGen 0)) =
      (.ok ⟨-5, 0⟩, .initial default (mkStdGen 0)) ∧
    (call .bitShiftRight [.number ⟨-95, 1⟩, .number ⟨4294967296, 0⟩]).eval
        (.initial default (mkStdGen 0)) =
      (.error (.shiftOutOfRange ⟨4294967296, 0⟩), .initial default (mkStdGen 0)) ∧
    (call .bitShiftRight [.call .bitShiftLeft [.number ⟨300, 2⟩, .number ⟨15, 1⟩],
        .number ⟨15, 1⟩]).eval (.initial default (mkStdGen 0)) =
      (.ok ⟨3, 0⟩, .initial default (mkStdGen 0)) := by
  have hnine : RoundingMode.down.select (Decimal.toRat ⟨-95, 1⟩) = -9 :=
    (Decimal.truncate_eq_select _).symm.trans (by decide)
  have hone : RoundingMode.down.select (Decimal.toRat ⟨15, 1⟩) = 1 :=
    (Decimal.truncate_eq_select _).symm.trans (by decide)
  have hlarge : RoundingMode.down.select (Decimal.toRat ⟨4294967296, 0⟩) = 4294967296 :=
    (Decimal.truncate_eq_select _).symm.trans (by decide)
  have hthree : Decimal.toRat ⟨300, 2⟩ = (3 : ℤ) :=
    (Decimal.toRat_eq_intCast_iff (by decide) 3).mpr rfl
  obtain ⟨hleft, hright, -, -⟩ := (eval_shift ⟨-95, 1⟩ ⟨15, 1⟩ _ hnine hone).1 (by decide)
  obtain ⟨-, hrefused⟩ := (eval_shift ⟨-95, 1⟩ ⟨4294967296, 0⟩ _ hnine hlarge).2 (by decide)
  obtain ⟨-, -, -, hback⟩ := (eval_shift ⟨300, 2⟩ ⟨15, 1⟩ _ rfl hone).1 (by decide)
  refine ⟨hleft.trans ?_, hright.trans ?_, hrefused, hback (by decide) 3 hthree⟩
  · norm_num [Decimal.ofInt]
  · norm_num [Decimal.ofInt]

/-! ### Logic on integer parts -/

section Calls

variable {f : Builtin} {g : ℤ → ℤ → ℤ} {n : ℕ} {a b : Expr} {x y : Decimal} {s s₁ s₂ : Session}

theorem evalWithin_onIntegers (h : f.rule = .onIntegers g) (hx : evalWithin n a s = (.ok x, s₁))
    (hy : evalWithin n b s₁ = (.ok y, s₂)) :
    evalWithin n (.call f [a, b]) s = (.ok (.ofInt (g x.truncate y.truncate)), s₂) :=
  evalWithin_call_binary h hx hy

theorem evalWithin_bitNot (hx : evalWithin n a s = (.ok x, s₁)) :
    evalWithin n (.call .bitNot [a]) s = (.ok (.ofInt (Integer.complement x.truncate)), s₁) := by
  rw [evalWithin_call_unary rfl hx]

/-- Complements exchange conjunction and disjunction. -/
theorem evalWithin_bitNot_bitAnd (hx : evalWithin n a s = (.ok x, s₁))
    (hy : evalWithin n b s₁ = (.ok y, s₂)) :
    evalWithin n (.call .bitNot [.call .bitAnd [a, b]]) s =
      evalWithin n (.call .bitOr [.call .bitNot [a], .call .bitNot [b]]) s := by
  rw [evalWithin_bitNot (evalWithin_onIntegers rfl hx hy),
    evalWithin_onIntegers rfl (evalWithin_bitNot hx) (evalWithin_bitNot hy)]
  simp only [Decimal.truncate_ofInt, Integer.complement_and]

end Calls

/-- **Bitwise functions work on endless two's complement.**  Bit `k` of an integer is the parity of
its quotient by `2 ^ k`, rounded down, and the functions combine the integer parts of their operands
bit by bit.  So the complement of `m` is `-m - 1`, conjunction and disjunction have the sum of the
operands, they differ by the exclusive disjunction, and complements exchange them. -/
theorem eval_bitwise (a b : Decimal) (s : Session) {m n : ℤ}
    (hm : RoundingMode.down.select a.toRat = m) (hn : RoundingMode.down.select b.toRat = n) :
    (∀ (i : ℤ) (k : ℕ), testBit i k = true ↔ Odd (i / 2 ^ k)) ∧
    ∃ both either single opposite : ℤ,
      (call .bitAnd [.number a, .number b]).eval s = (.ok (.ofInt both), s) ∧
      (call .bitOr [.number a, .number b]).eval s = (.ok (.ofInt either), s) ∧
      (call .bitXor [.number a, .number b]).eval s = (.ok (.ofInt single), s) ∧
      (call .bitNot [.number a]).eval s = (.ok (.ofInt opposite), s) ∧
      (∀ k, testBit both k = (testBit m k && testBit n k) ∧
        testBit either k = (testBit m k || testBit n k) ∧
        testBit single k = (testBit m k ^^ testBit n k) ∧
        testBit opposite k = !testBit m k) ∧
      opposite = -m - 1 ∧ both + either = m + n ∧ single = either - both ∧
      (call .bitNot [.call .bitAnd [.number a, .number b]]).eval s =
        (.ok (.ofInt (-both - 1)), s) ∧
      (call .bitNot [.call .bitAnd [.number a, .number b]]).eval s =
        (call .bitOr [.call .bitNot [.number a], .call .bitNot [.number b]]).eval s := by
  rw [← Decimal.truncate_eq_select] at hm hn
  subst hm hn
  have ha := evalWithin_number (nestingLimit s.env) a s
  have hb := evalWithin_number (nestingLimit s.env) b s
  refine ⟨Integer.testBit_iff_odd, _, _, _, _, evalWithin_onIntegers rfl ha hb,
    evalWithin_onIntegers rfl ha hb, evalWithin_onIntegers rfl ha hb, evalWithin_bitNot ha,
    fun k => ⟨Integer.testBit_and _ _ k, Integer.testBit_or _ _ k, Integer.testBit_xor _ _ k,
      Integer.testBit_complement _ k⟩,
    rfl, Integer.and_add_or _ _, Integer.xor_eq_or_sub_and _ _, ?_,
    evalWithin_bitNot_bitAnd ha hb⟩
  rw [eval, evalWithin_bitNot (evalWithin_onIntegers rfl ha hb), Decimal.truncate_ofInt,
    Integer.complement]

/-- Minus eight and nine tenths with three: integer parts of either sign. -/
theorem eval_bitwise_minusEight :
    ∃ both either : ℤ,
      (call .bitAnd [.number ⟨-89, 1⟩, .number ⟨3, 0⟩]).eval (.initial default (mkStdGen 0)) =
        (.ok (.ofInt both), .initial default (mkStdGen 0)) ∧
      (call .bitOr [.number ⟨-89, 1⟩, .number ⟨3, 0⟩]).eval (.initial default (mkStdGen 0)) =
        (.ok (.ofInt either), .initial default (mkStdGen 0)) ∧
      both + either = -5 ∧ testBit either 100 = true := by
  have height : RoundingMode.down.select (Decimal.toRat ⟨-89, 1⟩) = -8 :=
    (Decimal.truncate_eq_select _).symm.trans (by decide)
  have hthree : RoundingMode.down.select (Decimal.toRat ⟨3, 0⟩) = 3 :=
    (Decimal.truncate_eq_select _).symm.trans (by decide)
  obtain ⟨-, both, either, _, _, hand, hor, -, -, hbits, -, hsum, -, -, -⟩ :=
    eval_bitwise ⟨-89, 1⟩ ⟨3, 0⟩ (.initial default (mkStdGen 0)) height hthree
  exact ⟨both, either, hand, hor, hsum, (hbits 100).2.1.trans (by decide)⟩

end Expr

end Abacus
