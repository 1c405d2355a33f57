import Abacus.Decimal.Text

/-!
# Proofs/Digits — the digits of a number are the one way to write it

`write n` is a list of digits that reads as `n` (`read_write`) and has no leading zero
(`head?_write_ne_zero`), and no other list is: `eq_of_read_eq`.  So a power of ten that a number is
multiplied by is written as zeros at the end (`write_mul_tenTo`).
-/

namespace Abacus.Digits

open Decimal (isDigit)

/-! ## Digits -/

/-- Digits, and nothing else. -/
def AllDigits (cs : List Char) : Prop :=
  ∀ c ∈ cs, isDigit c = true

theorem AllDigits.append {cs ds : List Char} (hcs : AllDigits cs) (hds : AllDigits ds) :
    AllDigits (cs ++ ds) := by
  intro c hc
  obtain hc | hc := List.mem_append.mp hc
  · exact hcs c hc
  · exact hds c hc

theorem allDigits_replicate_zero (k : Nat) : AllDigits (List.replicate k '0') := by
  intro c hc
  rw [List.eq_of_mem_replicate hc]
  rfl

/-- What a digit counts for. -/
def digit (c : Char) : Nat :=
  c.toNat - '0'.toNat

theorem isDigit_char : ∀ d < 10, isDigit (char d) = true := by decide

theorem digit_char : ∀ d < 10, digit (char d) = d := by decide

theorem toNat_bounds {c : Char} (h : isDigit c = true) : 48 ≤ c.toNat ∧ c.toNat ≤ 57 := by
  simp only [isDigit, Bool.and_eq_true, decide_eq_true_eq] at h
  exact ⟨h.1, h.2⟩

theorem digit_lt {c : Char} (h : isDigit c = true) : digit c < 10 := by
  have := toNat_bounds h
  rw [digit, show '0'.toNat = 48 from rfl]
  omega

theorem digit_inj {c d : Char} (hc : isDigit c = true) (hd : isDigit d = true)
    (h : digit c = digit d) : c = d := by
  have hc := toNat_bounds hc
  have hd := toNat_bounds hd
  refine Char.toNat_inj.mp ?_
  rw [digit, digit, show '0'.toNat = 48 from rfl] at h
  omega

/-! ## Reading -/

theorem foldl_digits (n : Nat) : ∀ cs : List Char,
    cs.foldl (fun n c => 10 * n + (c.toNat - '0'.toNat)) n = n * tenTo cs.length + read cs
  | [] => (Nat.mul_one n).symm
  | c :: cs => by
    have hread : read (c :: cs) = (10 * 0 + (c.toNat - '0'.toNat)) * tenTo cs.length + read cs :=
      foldl_digits _ cs
    have hlength : tenTo (cs.length + 1) = tenTo cs.length * 10 := tenTo_add cs.length 1
    rw [List.foldl_cons, foldl_digits _ cs, hread, List.length_cons, hlength, Nat.mul_zero,
      Nat.zero_add, Nat.add_mul, Nat.add_assoc, Nat.mul_comm 10 n, Nat.mul_assoc,
      Nat.mul_comm 10 (tenTo cs.length)]

theorem read_append (cs ds : List Char) :
    read (cs ++ ds) = read cs * tenTo ds.length + read ds := by
  rw [read, List.foldl_append, foldl_digits]
  rfl

theorem read_singleton (c : Char) : read [c] = digit c := by
  rw [read, List.foldl_cons, List.foldl_nil]
  exact Nat.zero_add _

theorem read_cons (c : Char) (cs : List Char) :
    read (c :: cs) = digit c * tenTo cs.length + read cs := by
  rw [← List.singleton_append, read_append, read_singleton]

theorem read_replicate_zero : ∀ k : Nat, read (List.replicate k '0') = 0
  | 0 => rfl
  | k + 1 => by
    rw [List.replicate_succ, read_cons, read_replicate_zero k]
    exact Nat.zero_mul _

/-- A zero in front does not count. -/
theorem read_dropWhile_zero : ∀ cs : List Char, read (cs.dropWhile (· == '0')) = read cs
  | [] => rfl
  | c :: cs => by
    rw [List.dropWhile_cons]
    split
    · next h =>
      rw [read_dropWhile_zero cs, read_cons, eq_of_beq h]
      exact (Nat.zero_add _).symm.trans (congrArg (· + read cs) (Nat.zero_mul _).symm)
    · rfl

/-! ## Writing -/

theorem writePadded_append : ∀ (k n : Nat) (cs ds : List Char),
    writePadded k n (cs ++ ds) = writePadded k n cs ++ ds
  | 0, _, _, _ => rfl
  | k + 1, n, cs, ds => by
    rw [writePadded, writePadded_append k, writePadded_append k, writePadded]

theorem length_writePadded : ∀ (k n : Nat) (cs : List Char),
    (writePadded k n cs).length = twoTo k + cs.length
  | 0, _, cs => Nat.add_comm cs.length 1
  | k + 1, n, cs => by
    rw [writePadded, length_writePadded k, length_writePadded k, twoTo_succ]
    omega

theorem allDigits_writePadded : ∀ (k n : Nat) {cs : List Char}, AllDigits cs →
    AllDigits (writePadded k n cs)
  | 0, n, _, h => List.forall_mem_cons.mpr ⟨isDigit_char _ (Nat.mod_lt _ (by decide)), h⟩
  | k + 1, n, _, h => allDigits_writePadded k _ (allDigits_writePadded k _ h)

/-- **The padded digits of a number read as what of it has room.** -/
theorem read_writePadded : ∀ k n : Nat, read (writePadded k n []) = n % tenTo (twoTo k)
  | 0, n => by
    rw [writePadded, read_singleton, digit_char _ (Nat.mod_lt _ (by decide))]
    rfl
  | k + 1, n => by
    have hsplit : writePadded (k + 1) n [] =
        writePadded k (n / tenTo (twoTo k)) [] ++ writePadded k (n % tenTo (twoTo k)) [] :=
      writePadded_append k _ [] _
    have hpower : tenTo (twoTo (k + 1)) = tenTo (twoTo k) * tenTo (twoTo k) := by
      rw [twoTo_succ, Nat.two_mul, tenTo_add]
    rw [hsplit, read_append, length_writePadded, read_writePadded k, read_writePadded k,
      Nat.mod_mod, hpower, Nat.mod_mul, List.length_nil, Nat.add_zero, Nat.mul_comm, Nat.add_comm]

theorem allDigits_write (n : Nat) : AllDigits (write n) := by
  rw [write]
  split
  · exact List.forall_mem_cons.mpr ⟨rfl, List.forall_mem_nil _⟩
  · intro c hc
    exact allDigits_writePadded _ _ (List.forall_mem_nil _) c ((List.dropWhile_sublist _).subset hc)

/-- **The digits of a number read as the number.** -/
theorem read_write (n : Nat) : read (write n) = n := by
  rw [write]
  split
  · next h => exact h.symm
  · rw [read_dropWhile_zero, read_writePadded]
    exact Nat.mod_eq_of_lt (lt_tenTo_level n)

theorem write_zero : write 0 = ['0'] :=
  rfl

theorem write_ne_nil (n : Nat) : write n ≠ [] := by
  intro h
  have hn := read_write n
  rw [h] at hn
  obtain rfl : 0 = n := hn
  exact absurd h (by simp [write_zero])

/-- **Only zero is written with a zero in front.** -/
theorem head?_write_ne_zero {n : Nat} (h : n ≠ 0) : (write n).head? ≠ some '0' := by
  rw [write, if_neg h]
  intro hhead
  have := List.head?_dropWhile_not (· == '0') (writePadded (level n) n [])
  rw [hhead] at this
  exact absurd this (by decide)

/-! ## One way to write a number -/

theorem read_lt : ∀ {cs : List Char}, AllDigits cs → read cs < tenTo cs.length
  | [], _ => Nat.one_pos
  | c :: cs, h => by
    have hc := digit_lt (h c List.mem_cons_self)
    have hcs := read_lt fun d hd => h d (List.mem_cons_of_mem _ hd)
    rw [read_cons, List.length_cons, Nat.add_comm cs.length, tenTo_add]
    calc digit c * tenTo cs.length + read cs
        < digit c * tenTo cs.length + tenTo cs.length := Nat.add_lt_add_left hcs _
      _ = (digit c + 1) * tenTo cs.length := (Nat.succ_mul _ _).symm
      _ ≤ 10 * tenTo cs.length := Nat.mul_le_mul_right _ hc

theorem tenTo_le_read {c : Char} {cs : List Char} (hcs : AllDigits (c :: cs)) (hc : c ≠ '0') :
    tenTo cs.length ≤ read (c :: cs) := by
  have hdigit : digit c ≠ 0 := fun h => hc (digit_inj (hcs c List.mem_cons_self) rfl h)
  rw [read_cons]
  calc tenTo cs.length = 1 * tenTo cs.length := (Nat.one_mul _).symm
    _ ≤ digit c * tenTo cs.length := Nat.mul_le_mul_right _ (Nat.pos_of_ne_zero hdigit)
    _ ≤ digit c * tenTo cs.length + read cs := Nat.le_add_right _ _

/-- Fewer digits read as less, if the more have no leading zero. -/
theorem length_le_of_read_eq {cs ds : List Char} (hcs : AllDigits cs) (hds : AllDigits ds)
    (hhead : ds.head? ≠ some '0') (h : read cs = read ds) : ds.length ≤ cs.length := by
  match ds with
  | [] => exact Nat.zero_le _
  | d :: ds =>
    have hlow := tenTo_le_read hds fun hd => hhead (congrArg some hd)
    have hhigh := read_lt hcs
    refine Nat.lt_of_not_le fun hle => ?_
    have := tenTo_le hle
    omega

theorem eq_of_read_eq_of_length_eq : ∀ {cs ds : List Char}, AllDigits cs → AllDigits ds →
    cs.length = ds.length → read cs = read ds → cs = ds
  | [], [], _, _, _, _ => rfl
  | c :: cs, d :: ds, hcs, hds, hlength, h => by
    have hcs' : AllDigits cs := fun x hx => hcs x (List.mem_cons_of_mem _ hx)
    have hds' : AllDigits ds := fun x hx => hds x (List.mem_cons_of_mem _ hx)
    have hlength' : cs.length = ds.length := Nat.succ.inj hlength
    have hlt := read_lt hcs'
    have hlt' := read_lt hds'
    rw [read_cons, read_cons, ← hlength'] at h
    rw [← hlength'] at hlt'
    have hfirst : digit c = digit d := by
      have hdiv := congrArg (· / tenTo cs.length) h
      simpa [Nat.mul_add_div (tenTo_pos _), Nat.mul_comm, Nat.div_eq_of_lt hlt,
        Nat.div_eq_of_lt hlt'] using hdiv
    obtain rfl := digit_inj (hcs c List.mem_cons_self) (hds d List.mem_cons_self) hfirst
    rw [eq_of_read_eq_of_length_eq hcs' hds' hlength' (Nat.add_left_cancel h)]

/-- **Digits without a leading zero are told by the number that they read as.** -/
theorem eq_of_read_eq {cs ds : List Char} (hcs : AllDigits cs) (hds : AllDigits ds)
    (hhead : cs.head? ≠ some '0') (hhead' : ds.head? ≠ some '0') (h : read cs = read ds) :
    cs = ds := by
  have hle := length_le_of_read_eq hcs hds hhead' h
  have hge := length_le_of_read_eq hds hcs hhead h.symm
  exact eq_of_read_eq_of_length_eq hcs hds (Nat.le_antisymm hge hle) h

/-- **A power of ten is written as zeros at the end.** -/
theorem write_mul_tenTo {n : Nat} (h : n ≠ 0) (k : Nat) :
    write (n * tenTo k) = write n ++ List.replicate k '0' := by
  have hne : n * tenTo k ≠ 0 := Nat.mul_ne_zero h (Nat.ne_of_gt (tenTo_pos k))
  refine eq_of_read_eq (allDigits_write _)
    ((allDigits_write n).append (allDigits_replicate_zero k)) (head?_write_ne_zero hne) ?_ ?_
  · have hhead := head?_write_ne_zero h
    match hn : write n with
    | [] => exact absurd hn (write_ne_nil n)
    | c :: cs =>
      rw [hn] at hhead
      exact hhead
  · rw [read_write, read_append, read_write, read_replicate_zero, List.length_replicate,
      Nat.add_zero]

end Abacus.Digits
