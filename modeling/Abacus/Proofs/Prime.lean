import Abacus.Builtin.Rule
import Abacus.Proofs.Decimal.Arithmetic
import Mathlib.Data.Nat.Prime.Basic

/-!
# Proofs/Prime — dividing by odd numbers tells the primes

When trial division comes to `d`, no prime below `d` divides the number: `NoFactorBelow`.  One round
carries this from `d` to `d + 2` (`NoFactorBelow.next`), for the number between them is even and the
number that is tested is not.  Once the square of `d` has passed the number, it says that the number
is prime (`NoFactorBelow.prime`): a composite number has a prime factor up to its square root.

The same loop on words of 64 bits is `Trials`, with every number that it squares.  For numbers of 32
bits a divisor that is squared is at most `2 ^ 16 + 1`, so no square leaves the word
(`trials_noDivisorFrom`).
-/

namespace Abacus

namespace Integer

variable {n d : ℕ}

/-! ## No prime factor below the divisor -/

/-- **No prime below `d` divides `n`.** -/
def NoFactorBelow (n d : ℕ) : Prop :=
  ∀ p, p.Prime → p ∣ n → d ≤ p

theorem noFactorBelow_three (hn : n % 2 ≠ 0) : NoFactorBelow n 3 := by
  intro p hp hdvd
  have htwo : p ≠ 2 := by
    rintro rfl
    exact hn (Nat.mod_eq_zero_of_dvd hdvd)
  have := hp.two_le
  omega

/-- **One round**: if `d` does not divide the odd `n`, the next prime that can is two further on. -/
theorem NoFactorBelow.next (h : NoFactorBelow n d) (hn : n % 2 ≠ 0) (hd : d % 2 = 1)
    (hdvd : n % d ≠ 0) : NoFactorBelow n (d + 2) := by
  intro p hp hpn
  have hle : d ≤ p := h p hp hpn
  have hne : p ≠ d := by
    rintro rfl
    exact hdvd (Nat.mod_eq_zero_of_dvd hpn)
  have hodd : p % 2 = 1 := by
    by_contra heven
    have htwo : 2 ∣ n := (Nat.dvd_of_mod_eq_zero (by omega)).trans hpn
    exact hn (Nat.mod_eq_zero_of_dvd htwo)
  omega

/-- **The end of the loop**: a composite number has a prime factor up to its square root. -/
theorem NoFactorBelow.prime (h : NoFactorBelow n d) (hn : 2 ≤ n) (hsquare : n < d * d) :
    n.Prime := by
  by_contra hnot
  have hle : d ≤ n.minFac := h _ (Nat.minFac_prime (by omega)) (Nat.minFac_dvd n)
  have hfactor : n.minFac ^ 2 ≤ n := Nat.minFac_sq_le_self (by omega) hnot
  have hdd : d * d ≤ n.minFac * n.minFac := Nat.mul_le_mul hle hle
  rw [sq] at hfactor
  omega

theorem not_prime_of_mod_eq_zero (hd : 2 ≤ d) (hsquare : d * d ≤ n) (hdvd : n % d = 0) :
    ¬ n.Prime := by
  intro hp
  obtain hone | hself := hp.eq_one_or_self_of_dvd d (Nat.dvd_of_mod_eq_zero hdvd)
  · omega
  · have hlt : d * 1 < d * d := Nat.mul_lt_mul_of_pos_left hd (by omega)
    omega

/-- **From a divisor on, trial division tells whether the number is prime**, if no prime below the
divisor divides it. -/
theorem noDivisorFrom_iff (hn : 2 ≤ n) (hodd : n % 2 ≠ 0) (hd : 2 ≤ d) (hdodd : d % 2 = 1)
    (h : NoFactorBelow n d) : noDivisorFrom n d = true ↔ n.Prime := by
  fun_induction noDivisorFrom n d with
  | case1 d hsquare hdvd => simpa using not_prime_of_mod_eq_zero hd hsquare hdvd
  | case2 d hsquare hdvd ih => exact ih (by omega) (by omega) (h.next hodd hdodd hdvd)
  | case3 d hsquare => simpa using h.prime hn (Nat.lt_of_not_le hsquare)

/-- **Trial division is right about every number.** -/
theorem isPrime_iff (n : ℕ) : isPrime n = true ↔ n.Prime := by
  rw [isPrime]
  split
  · next hsmall => exact iff_of_false nofun fun hp => absurd hp.two_le (by omega)
  · next hlarge =>
    split
    · next heven =>
      rw [beq_iff_eq]
      constructor
      · rintro rfl
        exact Nat.prime_two
      · exact fun hp => hp.eq_two_or_odd.resolve_right (by omega)
    · next hodd =>
      exact noDivisorFrom_iff (by omega) hodd (by decide) rfl (noFactorBelow_three hodd)

/-! ## The loop on words -/

/-- **Trial division on words of 64 bits**, from the divisor `d` on: it squares the numbers `tried`,
one after the other, and comes to `answer`.  Squares and next divisors are those of words. -/
inductive Trials (n : UInt64) : UInt64 → List UInt64 → Bool → Prop where
  | passed {d : UInt64} (h : ¬ d * d ≤ n) : Trials n d [d] true
  | divided {d : UInt64} (h : d * d ≤ n) (hd : n % d = 0) : Trials n d [d] false
  | next {d : UInt64} {tried : List UInt64} {answer : Bool} (h : d * d ≤ n) (hd : n % d ≠ 0)
      (rest : Trials n (d + 2) tried answer) : Trials n d (d :: tried) answer

namespace Trials

variable {n d : UInt64} {tried tried' : List UInt64} {answer answer' : Bool}

/-- The loop goes one way only. -/
theorem unique (h : Trials n d tried answer) (h' : Trials n d tried' answer') :
    tried' = tried ∧ answer' = answer := by
  induction h generalizing tried' with
  | passed hle =>
    cases h' with
    | passed => exact ⟨rfl, rfl⟩
    | divided hle' => exact absurd hle' hle
    | next hle' => exact absurd hle' hle
  | divided hle hd =>
    cases h' with
    | passed hle' => exact absurd hle hle'
    | divided => exact ⟨rfl, rfl⟩
    | next _ hd' => exact absurd hd hd'
  | next hle hd _ ih =>
    cases h' with
    | passed hle' => exact absurd hle hle'
    | divided _ hd' => exact absurd hd' hd
    | next _ _ rest =>
      obtain ⟨rfl, rfl⟩ := ih rest
      exact ⟨rfl, rfl⟩

end Trials

section Words

variable {n d : UInt64}

/-- The square of a small divisor stays in the word. -/
theorem mul_self_le_iff (hd : d.toNat ≤ 2 ^ 16 + 1) :
    d * d ≤ n ↔ d.toNat * d.toNat ≤ n.toNat := by
  have hle : d.toNat * d.toNat ≤ (2 ^ 16 + 1) * (2 ^ 16 + 1) := Nat.mul_le_mul hd hd
  rw [UInt64.le_iff_toNat_le, UInt64.toNat_mul, Nat.mod_eq_of_lt (by omega)]

theorem mod_eq_zero_iff : n % d = 0 ↔ n.toNat % d.toNat = 0 := by
  rw [← UInt64.toNat_inj, UInt64.toNat_mod, UInt64.toNat_zero]

theorem toNat_add_two (hd : d.toNat ≤ 2 ^ 16 + 1) : (d + 2).toNat = d.toNat + 2 := by
  rw [UInt64.toNat_add, show (2 : UInt64).toNat = 2 from rfl, Nat.mod_eq_of_lt (by omega)]

/-- **For a number of 32 bits the loop on words is that on numbers**: it comes to an end, with the
same answer, and every divisor on the way is small. -/
theorem trials_noDivisorFrom (hn : n.toNat < 2 ^ 32) (hd : d.toNat ≤ 2 ^ 16 + 1) :
    ∃ tried, Trials n d tried (noDivisorFrom n.toNat d.toNat) ∧
      (∀ c ∈ tried, c.toNat ≤ 2 ^ 16 + 1) ∧ d.toNat + 2 * tried.length ≤ 2 ^ 16 + 3 := by
  -- the recursion is on the number that the word `d` stands for
  generalize hword : d.toNat = k
  fun_induction noDivisorFrom n.toNat k generalizing d with
  | case1 k hsquare hdvd =>
    subst hword
    refine ⟨[d], .divided ((mul_self_le_iff hd).mpr hsquare) (mod_eq_zero_iff.mpr hdvd),
      List.forall_mem_singleton.mpr hd, ?_⟩
    rw [List.length_singleton]
    omega
  | case2 k hsquare hdvd ih =>
    subst hword
    have hroot : d.toNat < 2 ^ 16 := Nat.mul_self_lt_mul_self_iff.mp (by omega)
    obtain ⟨tried, htried, hsmall, hlength⟩ :=
      ih (d := d + 2) (by rw [toNat_add_two hd]; omega) (toNat_add_two hd)
    refine ⟨d :: tried,
      .next ((mul_self_le_iff hd).mpr hsquare) (mt mod_eq_zero_iff.mp hdvd) htried,
      List.forall_mem_cons.mpr ⟨hd, hsmall⟩, ?_⟩
    rw [List.length_cons]
    omega
  | case3 k hsquare =>
    subst hword
    refine ⟨[d], .passed (mt (mul_self_le_iff hd).mp hsquare), List.forall_mem_singleton.mpr hd, ?_⟩
    rw [List.length_singleton]
    omega

end Words

end Integer

/-! ## Primality of decimals -/

namespace Decimal

variable {x : Decimal}

theorem isPrime_of_ne_intCast (h : ∀ n : ℤ, x.toRat ≠ n) : x.isPrime = .ok false := by
  have hnot : ¬ x.isInteger = true := fun hint => by
    obtain ⟨n, hn⟩ := (isInteger_iff x).mp hint
    exact h n hn
  rw [isPrime, if_neg hnot]

theorem isPrime_of_outside {n : ℤ} (h : x.toRat = n)
    (hout : ¬ (-2 ^ 31 ≤ n ∧ n ≤ 2 ^ 31 - 1)) : x.isPrime = .error (.primeTooLarge x) := by
  have hnone : x.toInt32? = none := by
    refine Option.eq_none_iff_forall_ne_some.mpr fun m hm => hout ?_
    obtain ⟨hvalue, hlow, hhigh⟩ := toInt32?_eq_some_iff.mp hm
    obtain rfl : n = m := by exact_mod_cast h.symm.trans hvalue
    omega
  rw [isPrime, if_pos ((isInteger_iff x).mpr ⟨n, h⟩), hnone]

theorem isPrime_of_inside {n : ℤ} (h : x.toRat = n) (hlow : -2 ^ 31 ≤ n) (hhigh : n ≤ 2 ^ 31 - 1) :
    x.isPrime = .ok (Integer.isPrime n.natAbs) := by
  have hsome : x.toInt32? = some n := toInt32?_eq_some_iff.mpr ⟨h, by omega, by omega⟩
  rw [isPrime, if_pos ((isInteger_iff x).mpr ⟨n, h⟩), hsome]

end Decimal

/-- **Primality by trial division.**  A decimal that is not an integer is not prime, an integer of
more than 32 bits is refused, and for any other the answer is whether its magnitude is prime,
however it is written.  For every number of 32 bits the loop on words of 64 bits comes to an end,
in one way only, after at most `2 ^ 15` squares; it answers what the loop on numbers does, and no
square leaves the word. -/
theorem isPrime_by_trialDivision :
    (∀ x : Decimal,
      ((∀ n : ℤ, x.toRat ≠ n) → x.isPrime = .ok false) ∧
      (∀ n : ℤ, x.toRat = n → ¬ (-2 ^ 31 ≤ n ∧ n ≤ 2 ^ 31 - 1) →
        x.isPrime = .error (.primeTooLarge x)) ∧
      (∀ n : ℤ, x.toRat = n → -2 ^ 31 ≤ n → n ≤ 2 ^ 31 - 1 →
        ∃ answer, x.isPrime = .ok answer ∧ (answer = true ↔ n.natAbs.Prime))) ∧
    (∀ n : UInt32, ∃ tried,
      Integer.Trials n.toUInt64 3 tried (Integer.noDivisorFrom n.toNat 3) ∧
      (∀ tried' answer, Integer.Trials n.toUInt64 3 tried' answer →
        tried' = tried ∧ answer = Integer.noDivisorFrom n.toNat 3) ∧
      tried.length ≤ 2 ^ 15 ∧
      ∀ d ∈ tried, d.toNat * d.toNat < 2 ^ 64) := by
  refine ⟨fun x => ⟨Decimal.isPrime_of_ne_intCast, fun n => Decimal.isPrime_of_outside,
    fun n h hlow hhigh => ⟨_, Decimal.isPrime_of_inside h hlow hhigh, Integer.isPrime_iff _⟩⟩,
    fun n => ?_⟩
  obtain ⟨tried, htried, hsmall, hlength⟩ :=
    Integer.trials_noDivisorFrom (n := n.toUInt64) (d := 3) n.toNat_lt (by decide)
  refine ⟨tried, htried, fun tried' answer h => htried.unique h, ?_, fun d hd => ?_⟩
  · rw [show (3 : UInt64).toNat = 3 from rfl] at hlength
    omega
  · have hle := Nat.mul_le_mul (hsmall d hd) (hsmall d hd)
    omega

/-- `7.5`, `2147483648`, `-7.00` and the least number of 32 bits; and the loop for 49, which squares
three, five and seven. -/
theorem isPrime_by_trialDivision_fortyNine :
    Decimal.isPrime ⟨75, 1⟩ = .ok false ∧
    Decimal.isPrime ⟨2 ^ 31, 0⟩ = .error (.primeTooLarge ⟨2 ^ 31, 0⟩) ∧
    Decimal.isPrime ⟨-700, 2⟩ = .ok true ∧
    Decimal.isPrime ⟨-2 ^ 31, 0⟩ = .ok false ∧
    Integer.Trials (49 : UInt32).toUInt64 3 [3, 5, 7] false ∧
    Integer.noDivisorFrom 49 3 = false ∧
    ∀ d ∈ ([3, 5, 7] : List UInt64), d.toNat * d.toNat < 2 ^ 64 := by
  obtain ⟨hdecimals, hwords⟩ := isPrime_by_trialDivision
  have hvalue : ∀ n : ℤ, Decimal.toRat ⟨n, 0⟩ = n := Decimal.toRat_ofInt
  have hminusSeven : Decimal.toRat ⟨-700, 2⟩ = (-7 : ℤ) :=
    (Decimal.toRat_eq_intCast_iff (by decide) (-7)).mpr (by decide)
  have hfraction : ∀ n : ℤ, Decimal.toRat ⟨75, 1⟩ ≠ n := fun n h => by
    have hcoeff : (75 : ℤ) = n * 10 := (Decimal.toRat_eq_intCast_iff (by decide) n).mp h
    omega
  obtain ⟨seven, hseven, hsevenPrime⟩ :=
    (hdecimals ⟨-700, 2⟩).2.2 (-7) hminusSeven (by decide) (by decide)
  obtain ⟨least, hleast, hleastPrime⟩ :=
    (hdecimals ⟨-2 ^ 31, 0⟩).2.2 (-2 ^ 31) (hvalue _) (by decide) (by decide)
  obtain ⟨tried, htried, hunique, -, hsquares⟩ := hwords 49
  have hloop : Integer.Trials (49 : UInt32).toUInt64 3 [3, 5, 7] false :=
    .next (by decide) (by decide) (.next (by decide) (by decide) (.divided (by decide) (by decide)))
  obtain ⟨rfl, hanswer⟩ := hunique _ _ hloop
  obtain rfl : seven = true := hsevenPrime.mpr (by decide)
  obtain rfl : least = false := by
    rw [Bool.eq_false_iff, ne_eq, hleastPrime]
    exact fun hp => absurd hp.eq_two_or_odd (by decide)
  exact ⟨(hdecimals _).1 hfraction, (hdecimals _).2.1 (2 ^ 31) (hvalue _) (by decide),
    hseven, hleast, hloop, hanswer.symm, hsquares⟩

end Abacus
