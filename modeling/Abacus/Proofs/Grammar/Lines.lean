import Abacus.Proofs.Grammar.Acceptance

/-!
# Proofs/Grammar/Lines — programs with the end of a line between them

A statement never holds the end of a line, so the end of a line in the word of a program stands
between statements, or where there is none.  Two programs with the end of a line between them are
therefore a program (`Composed.join`), and a program may be cut in two at any end of a line
(`Composed.split`); the statements of the whole are those of the one and then those of the other.
-/

namespace Abacus.Grammar

/-! ## Statements stand on one line -/

theorem Derivation.newLine_notMem {n : Nonterminal} (d : Derivation n) : .newLine ∉ d.tokens := by
  induction d with
  | factorials e count ih => simp [tokens, ih, List.mem_replicate]
  | _ => simp_all [tokens]

theorem Statement.newLine_notMem (s : Statement) : .newLine ∉ s.tokens := by
  cases s with
  | expression e => exact e.newLine_notMem
  | assignment target value =>
    simp [tokens, target.newLine_notMem, value.newLine_notMem]

/-- Where a separator stands in what begins with a part that has none: right after that part, or in
what follows. -/
theorem eq_or_split_of_append_eq {α : Type} {x : α} {xs t u v : List α} (hx : x ∉ xs)
    (h : xs ++ x :: t = u ++ x :: v) :
    u = xs ∧ v = t ∨ ∃ u', u = xs ++ x :: u' ∧ t = u' ++ x :: v := by
  obtain ⟨w, rfl, hw⟩ | ⟨w, rfl, hw⟩ := List.append_eq_append_iff.mp h
  · obtain ⟨rfl, hv⟩ | ⟨u', rfl, ht⟩ := List.cons_eq_append_iff.mp hw
    · exact .inl ⟨List.append_nil xs, (List.cons.inj hv).2⟩
    · exact .inr ⟨u', rfl, ht⟩
  · obtain ⟨rfl, hv⟩ | ⟨w', rfl, -⟩ := List.cons_eq_append_iff.mp hw
    · exact .inl ⟨(List.append_nil u).symm, (List.cons.inj hv).2.symm⟩
    · exact absurd (List.mem_append_right u List.mem_cons_self) hx

/-! ## Programs line by line -/

namespace Program

/-- **Induction over the lines of a program**: there is nothing, or the end of a line and a program,
or one statement, or a statement, the end of its line and a program. -/
@[elab_as_elim]
theorem induction {P : Program → Prop} (empty : P .empty)
    (afterNewLine : ∀ p, P p → P p.afterNewLine) (single : ∀ s, P (.single s))
    (afterStatement : ∀ s p, P p → P (p.afterStatement s)) : ∀ p, P p
  | ⟨0, [], _⟩ => empty
  | ⟨leading + 1, lines, h⟩ =>
    afterNewLine ⟨leading, lines, h⟩ (induction empty afterNewLine single afterStatement _)
  | ⟨0, (s, 0) :: lines, h⟩ => by
    obtain rfl := h.eq_nil
    exact single s
  | ⟨0, (s, count + 1) :: lines, h⟩ =>
    afterStatement s ⟨count, lines, h.tail⟩ (induction empty afterNewLine single afterStatement _)
termination_by p => p.tokens.length
decreasing_by
  · exact Nat.lt_succ_self _
  · show _ < (Program.afterStatement s ⟨count, lines, h.tail⟩).tokens.length
    rw [tokens_afterStatement, List.length_append, List.length_cons]
    omega

/-- **The program `r` is `p`, the end of a line and `q`.** -/
structure Composed (p q r : Program) : Prop where
  tokens_eq : r.tokens = p.tokens ++ .newLine :: q.tokens
  meanings_eq : r.meanings = p.meanings ++ q.meanings
  callsBind_iff : r.CallsBind ↔ p.CallsBind ∧ q.CallsBind

namespace Composed

variable {p q r : Program}

theorem empty (q : Program) : Composed .empty q q.afterNewLine where
  tokens_eq := tokens_afterNewLine q
  meanings_eq := rfl
  callsBind_iff := (and_iff_right (List.forall_mem_nil _)).symm

theorem single (s : Statement) (q : Program) : Composed (.single s) q (q.afterStatement s) where
  tokens_eq := by simp
  meanings_eq := rfl
  callsBind_iff := by simp [CallsBind, Program.single, Program.afterStatement]

theorem afterNewLine (h : Composed p q r) : Composed p.afterNewLine q r.afterNewLine where
  tokens_eq := by simp [h.tokens_eq]
  meanings_eq := h.meanings_eq
  callsBind_iff := h.callsBind_iff

theorem afterStatement (h : Composed p q r) (s : Statement) :
    Composed (p.afterStatement s) q (r.afterStatement s) where
  tokens_eq := by simp [h.tokens_eq]
  meanings_eq := congrArg (s.meaning :: ·) h.meanings_eq
  callsBind_iff := by
    have hlines := h.callsBind_iff
    simp only [CallsBind, Program.afterStatement, List.forall_mem_cons] at hlines ⊢
    rw [hlines, and_assoc]

/-- **Two programs with the end of a line between them are a program.** -/
theorem join (p q : Program) : ∃ r, Composed p q r := by
  induction p using Program.induction with
  | empty => exact ⟨_, empty q⟩
  | afterNewLine p ih =>
    obtain ⟨r, h⟩ := ih
    exact ⟨_, h.afterNewLine⟩
  | single s => exact ⟨_, single s q⟩
  | afterStatement s p ih =>
    obtain ⟨r, h⟩ := ih
    exact ⟨_, h.afterStatement s⟩

/-- **A program may be cut at any end of a line.** -/
theorem split (r : Program) {u v : List Token} (h : r.tokens = u ++ .newLine :: v) :
    ∃ p q, p.tokens = u ∧ q.tokens = v ∧ Composed p q r := by
  induction r using Program.induction generalizing u with
  | empty => exact absurd (congrArg (Token.newLine ∈ ·) h) (by simp [tokens, Program.empty])
  | afterNewLine r ih =>
    rw [tokens_afterNewLine] at h
    obtain ⟨rfl, rfl⟩ | ⟨u', rfl, hr⟩ := eq_or_split_of_append_eq List.not_mem_nil h
    · exact ⟨_, _, rfl, rfl, empty r⟩
    · obtain ⟨p, q, rfl, rfl, hcomposed⟩ := ih hr
      exact ⟨_, _, rfl, rfl, hcomposed.afterNewLine⟩
  | single s =>
    rw [tokens_single] at h
    exact absurd (h ▸ s.newLine_notMem) (by simp)
  | afterStatement s r ih =>
    rw [tokens_afterStatement] at h
    -- the end of a line is that of the statement, or stands after it
    obtain ⟨rfl, rfl⟩ | ⟨u', rfl, hr⟩ := eq_or_split_of_append_eq s.newLine_notMem h
    · exact ⟨_, _, tokens_single s, rfl, single s r⟩
    · obtain ⟨p, q, rfl, rfl, hcomposed⟩ := ih hr
      exact ⟨_, _, tokens_afterStatement s p, rfl, hcomposed.afterStatement s⟩

end Composed

end Program

end Abacus.Grammar
