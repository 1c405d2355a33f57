import Abacus.Expr.Printer
import Abacus.Proofs.Expr.Basic
import Abacus.Proofs.Token.Lexing

/-!
# Proofs/Expr/Literals — the literals of an expression, and what becomes of them in its text

`Leaves p q` asks `p` of every literal and `q` of the name of every variable, and `mapLiterals` puts
an expression in the place of every literal.  Two such maps are what printing and parsing do:

* `signed` — a negative literal is the sign `-` in front of its absolute value; the text is the
  same.
* `reread` — a literal is the number that its text is read back as; the value and the text are the
  same.

Of a single literal more is kept than its value: `tokenize_text_number` says which pair of a
coefficient and a scale its text stands for.
-/

namespace Abacus.Expr

/-! ## Leaves -/

mutual

/-- Every literal satisfies `p`, and the name of every variable `q`. -/
def Leaves (p : Decimal → Prop) (q : String → Prop) : Expr → Prop
  | .number d => p d
  | .var name => q name
  | .unary _ a => Leaves p q a
  | .binary _ a b => Leaves p q a ∧ Leaves p q b
  | .call _ args => AllLeaves p q args

/-- `Leaves` for each of a list. -/
def AllLeaves (p : Decimal → Prop) (q : String → Prop) : List Expr → Prop
  | [] => True
  | e :: es => Leaves p q e ∧ AllLeaves p q es

end

mutual

/-- The expression with `f d` in the place of each literal `d`. -/
def mapLiterals (f : Decimal → Expr) : Expr → Expr
  | .number d => f d
  | .var name => .var name
  | .unary op a => .unary op (mapLiterals f a)
  | .binary op a b => .binary op (mapLiterals f a) (mapLiterals f b)
  | .call g args => .call g (mapAllLiterals f args)

/-- `mapLiterals` of each of a list. -/
def mapAllLiterals (f : Decimal → Expr) : List Expr → List Expr
  | [] => []
  | e :: es => mapLiterals f e :: mapAllLiterals f es

end

section Maps

variable {p p' : Decimal → Prop} {q q' : String → Prop} {f : Decimal → Expr}

theorem allLeaves_iff : ∀ {es : List Expr}, AllLeaves p q es ↔ ∀ e ∈ es, Leaves p q e
  | [] => by simp [AllLeaves]
  | e :: es => by simp [AllLeaves, allLeaves_iff]

theorem mapAllLiterals_eq : ∀ es : List Expr, mapAllLiterals f es = es.map (mapLiterals f)
  | [] => rfl
  | e :: es => by rw [mapAllLiterals, mapAllLiterals_eq es, List.map_cons]

theorem writeAll_eq : ∀ es : List Expr, writeAll es = es.map write
  | [] => rfl
  | e :: es => by rw [writeAll, writeAll_eq es, List.map_cons]

theorem Leaves.mono (hp : ∀ d, p d → p' d) (hq : ∀ name, q name → q' name) {e : Expr} :
    e.Leaves p q → e.Leaves p' q' := by
  induction e using Expr.induction with
  | number d => exact hp d
  | var name => exact hq name
  | unary op a iha => exact iha
  | binary op a b iha ihb => exact And.imp iha ihb
  | call g args ih =>
    intro h
    rw [Leaves, allLeaves_iff] at h ⊢
    exact fun a ha => ih a ha (h a ha)

theorem Leaves.and {e : Expr} : e.Leaves p q → e.Leaves p' q' →
    e.Leaves (fun d => p d ∧ p' d) fun name => q name ∧ q' name := by
  induction e using Expr.induction with
  | number d => exact And.intro
  | var name => exact And.intro
  | unary op a iha => exact iha
  | binary op a b iha ihb => exact fun h h' => ⟨iha h.1 h'.1, ihb h.2 h'.2⟩
  | call g args ih =>
    intro h h'
    rw [Leaves, allLeaves_iff] at h h' ⊢
    exact fun a ha => ih a ha (h a ha) (h' a ha)

theorem leaves_mapLiterals (hf : ∀ d, p d → (f d).Leaves p' q) {e : Expr} :
    e.Leaves p q → (e.mapLiterals f).Leaves p' q := by
  induction e using Expr.induction with
  | number d => exact hf d
  | var name => exact id
  | unary op a iha => exact iha
  | binary op a b iha ihb => exact And.imp iha ihb
  | call g args ih =>
    intro h
    rw [Leaves, allLeaves_iff] at h
    rw [mapLiterals, Leaves, allLeaves_iff, mapAllLiterals_eq]
    exact List.forall_mem_map.mpr fun a ha => ih a ha (h a ha)

theorem wellFormed_mapLiterals (hf : ∀ d, (f d).WellFormed) {e : Expr} :
    e.WellFormed → (e.mapLiterals f).WellFormed := by
  induction e using Expr.induction with
  | number d => exact fun _ => hf d
  | var name => exact id
  | unary op a iha => exact And.imp_right iha
  | binary op a b iha ihb => exact And.imp iha ihb
  | call g args ih =>
    intro h
    rw [WellFormed, allWellFormed_iff] at h
    rw [mapLiterals, WellFormed, allWellFormed_iff, mapAllLiterals_eq, List.length_map]
    exact ⟨h.1, List.forall_mem_map.mpr fun a ha => ih a ha (h.2 a ha)⟩

/-- Literals that are written alike give one text. -/
theorem write_mapLiterals (hf : ∀ d, p d → (f d).write = write (.number d)) {e : Expr} :
    e.Leaves p q → (e.mapLiterals f).write = e.write := by
  induction e using Expr.induction with
  | number d => exact hf d
  | var name => exact fun _ => rfl
  | unary op a iha =>
    intro h
    rw [mapLiterals, write, write, iha h]
  | binary op a b iha ihb =>
    intro h
    rw [mapLiterals, write, write, iha h.1, ihb h.2]
  | call g args ih =>
    intro h
    rw [Leaves, allLeaves_iff] at h
    have hargs : args.map (write ∘ mapLiterals f) = args.map write :=
      List.map_congr_left fun a ha => ih a ha (h a ha)
    rw [mapLiterals, write, write, writeAll_eq, writeAll_eq, mapAllLiterals_eq, List.map_map, hargs]

theorem equalAll_mapAllLiterals : ∀ {es : List Expr},
    (∀ e ∈ es, (e.mapLiterals f).equal e = true) → equalAll (mapAllLiterals f es) es = true
  | [], _ => rfl
  | e :: es, h => by
    obtain ⟨he, hes⟩ := List.forall_mem_cons.mp h
    rw [mapAllLiterals, equalAll, he, equalAll_mapAllLiterals hes]
    rfl

/-- Literals of one value give equal expressions. -/
theorem equal_mapLiterals (hf : ∀ d, (f d).equal (.number d) = true) (e : Expr) :
    (e.mapLiterals f).equal e = true := by
  induction e using Expr.induction with
  | number d => exact hf d
  | var name => simp [mapLiterals, equal]
  | unary op a iha => simp [mapLiterals, equal, iha]
  | binary op a b iha ihb => simp [mapLiterals, equal, iha, ihb]
  | call g args ih =>
    simp [mapLiterals, equal, equalAll_mapAllLiterals ih]

end Maps

/-! ## Signs and literals -/

/-- The names can be written, and the literals have scales in range. -/
def Spellable : Expr → Prop :=
  Leaves (fun d => d.scale.natAbs ≤ Numeral.maxScale) IsIdentifier

/-- Moreover no literal is negative. -/
def Unsigned : Expr → Prop :=
  Leaves (fun d => d.isNegative = false ∧ d.scale.natAbs ≤ Numeral.maxScale) IsIdentifier

/-- A literal, with its sign in front of it if it is negative. -/
def signedLiteral (d : Decimal) : Expr :=
  if d.isNegative then .unary .minus (.number d.abs) else .number d

/-- **Each negative literal replaced by the sign `-` in front of its absolute value.** -/
def signed (e : Expr) : Expr :=
  e.mapLiterals signedLiteral

/-- **Each literal replaced by the number that its text is read back as.** -/
def reread (e : Expr) : Expr :=
  e.mapLiterals fun d => .number d.reread

theorem unsigned_signed {e : Expr} (h : e.Spellable) : e.signed.Unsigned := by
  refine leaves_mapLiterals (fun d hd => ?_) h
  rw [signedLiteral]
  split
  · exact ⟨d.isNegative_abs, hd⟩
  · next hneg => exact ⟨(Bool.not_eq_true _).mp hneg, hd⟩

theorem wellFormed_signed {e : Expr} (h : e.WellFormed) : e.signed.WellFormed := by
  refine wellFormed_mapLiterals (fun d => ?_) h
  rw [signedLiteral]
  split
  · exact ⟨.inr rfl, trivial⟩
  · trivial

/-- **The text of an expression does not tell a negative literal from a sign.** -/
theorem write_signed {p : Decimal → Prop} {q : String → Prop} {e : Expr} (h : e.Leaves p q) :
    e.signed.write = e.write := by
  refine write_mapLiterals (fun d _ => ?_) h
  rw [signedLiteral]
  split
  · next hneg =>
    rw [write, write, write, Decimal.isNegative_abs, hneg, Decimal.write_of_isNegative hneg]
    rfl
  · rfl

/-- **What was read back is written as before.** -/
theorem write_reread {e : Expr} (h : e.Unsigned) : e.reread.write = e.write := by
  refine write_mapLiterals (fun d hd => ?_) h
  rw [write, write, Decimal.isNegative_reread hd.1, hd.1, Decimal.write_reread hd.1]

/-- **What was read back is equal to what was written.** -/
theorem equal_reread (e : Expr) : e.reread.equal e = true := by
  refine equal_mapLiterals (fun d => ?_) e
  rw [equal, Decimal.equal_iff]
  exact d.toRat_reread

/-! ## The pair that a literal is read back as -/

section Number

variable {d : Decimal}

theorem write_number (h : d.isNegative = false) : (number d).write = d.write := by
  rw [write, h]
  rfl

theorem text_number_reread (h : d.isNegative = false) :
    (number d.reread).text = (number d).text := by
  rw [text, text, write_number (Decimal.isNegative_reread h), write_number h,
    Decimal.write_reread h]

theorem tokenize_text_reread (h : d.isNegative = false) (hspells : d.Spells) :
    tokenize (number d).text = .ok [⟨.number d.reread, 1⟩] := by
  rw [text, write_number h]
  exact (lexes_decimal h hspells).tokenize_ofList

/-- **The text of a literal keeps its exact pair.**  A decimal that is not negative, with a scale in
range, is written as one number.  That has the same coefficient and the same scale, but for two
cases: up to fifteen zeros at the end of an integer become digits of it, and zero loses its scale.
The number is written as the decimal was. -/
theorem tokenize_text_number (d : Decimal) (hcoeff : 0 ≤ d.coeff)
    (hscale : d.scale.natAbs ≤ 1000000) :
    ∃ d' : Decimal, tokenize (number d).text = .ok [⟨.number d', 1⟩] ∧
      (d.coeff ≠ 0 → 0 ≤ d.scale ∨ d.scale < -15 → d' = d) ∧
      (d.coeff ≠ 0 → -15 ≤ d.scale → d.scale < 0 →
        d' = ⟨d.coeff * tenTo (-d.scale).toNat, 0⟩) ∧
      (d.coeff = 0 → d' = ⟨0, 0⟩) ∧
      (number d').text = (number d).text := by
  have hneg : d.isNegative = false := decide_eq_false (Int.not_lt.mpr hcoeff)
  refine ⟨d.reread, tokenize_text_reread hneg (.inr hscale), fun hne hs => ?_,
    fun hne hlow hhigh => ?_, fun hzero => if_pos hzero, text_number_reread hneg⟩
  · obtain ⟨n, s, rfl⟩ := Decimal.exists_natCast hneg
    exact Decimal.reread_eq_self (Int.natCast_ne_zero.mp hne) hs.symm
  · obtain ⟨n, s, rfl⟩ := Decimal.exists_natCast hneg
    rw [Decimal.reread_of_round (Int.natCast_ne_zero.mp hne) hlow (Int.le_of_lt hhigh)]
    rw [Int.natCast_mul]

-- digits, digits with an exponent, a point among them, and both
example : (number ⟨12, -15⟩).text = "12000000000000000" ∧ (number ⟨12, -16⟩).text = "12e+16" ∧
    (number ⟨150, 7⟩).text = "0.0000150" ∧ (number ⟨110, 10⟩).text = "1.10E-8" := by
  decide +kernel

theorem tokenize_text_number_fourForms :
    tokenize (number ⟨12, -15⟩).text = .ok [⟨.number ⟨12000000000000000, 0⟩, 1⟩] ∧
    tokenize (number ⟨12, -16⟩).text = .ok [⟨.number ⟨12, -16⟩, 1⟩] ∧
    tokenize (number ⟨150, 7⟩).text = .ok [⟨.number ⟨150, 7⟩, 1⟩] ∧
    tokenize (number ⟨110, 10⟩).text = .ok [⟨.number ⟨110, 10⟩, 1⟩] ∧
    tokenize (number ⟨0, 7⟩).text = .ok [⟨.number ⟨0, 0⟩, 1⟩] := by
  obtain ⟨_, hround, -, hdigits, -⟩ := tokenize_text_number ⟨12, -15⟩ (by decide) (by decide)
  obtain ⟨_, hlong, hexponent, -⟩ := tokenize_text_number ⟨12, -16⟩ (by decide) (by decide)
  obtain ⟨_, hplain, hpoint, -⟩ := tokenize_text_number ⟨150, 7⟩ (by decide) (by decide)
  obtain ⟨_, htiny, hboth, -⟩ := tokenize_text_number ⟨110, 10⟩ (by decide) (by decide)
  obtain ⟨_, hnothing, -, -, hzero, -⟩ := tokenize_text_number ⟨0, 7⟩ (by decide) (by decide)
  obtain rfl := hdigits (by decide) (by decide) (by decide)
  obtain rfl := hexponent (by decide) (.inr (by decide))
  obtain rfl := hpoint (by decide) (.inl (by decide))
  obtain rfl := hboth (by decide) (.inl (by decide))
  obtain rfl := hzero rfl
  exact ⟨hround, hlong, hplain, htiny, hnothing⟩

end Number

end Abacus.Expr
