import Abacus.Proofs.Expr.Literals
import Abacus.Proofs.Grammar.Soundness

/-!
# Proofs/Grammar/Output — what comes out of the parser can be written again

Every expression that the parser answers is well formed, has no negative literal, and has names and
literals that can be written: `readable_of_parseProgram`.  A derivation whose calls bind denotes
such an expression if its tokens are sound, and the tokens of a text are.
-/

namespace Abacus

namespace Expr

/-- **Well formed, and written as it stands**: no literal is negative, and all leaves can be
written. -/
def Readable (e : Expr) : Prop :=
  e.WellFormed ∧ e.Unsigned

theorem readable_call {f : Builtin} {args : List Expr} (harity : args.length = f.arity)
    (h : ∀ a ∈ args, a.Readable) : (call f args).Readable := by
  refine ⟨⟨harity, (allWellFormed_iff args).mpr fun a ha => (h a ha).1⟩, ?_⟩
  exact allLeaves_iff.mpr fun a ha => (h a ha).2

theorem readable_call_one {f : Builtin} (harity : f.arity = 1) {a : Expr} (ha : a.Readable) :
    (call f [a]).Readable :=
  readable_call harity.symm (List.forall_mem_singleton.mpr ha)

theorem readable_call_two {f : Builtin} (harity : f.arity = 2) {a b : Expr} (ha : a.Readable)
    (hb : b.Readable) : (call f [a, b]).Readable :=
  readable_call harity.symm (List.forall_mem_cons.mpr ⟨ha, List.forall_mem_singleton.mpr hb⟩)

end Expr

/-- Whether a form takes two operands. -/
def Infixed.takesTwo : Infixed → Bool
  | .operator _ => true
  | .function f => f.arity == 2

theorem Level.takesTwo_of_mem {l : Level} {s : Symbol} {form : Infixed}
    (h : (s, form) ∈ l.symbols) : form.takesTwo = true := by
  have key : ∀ x ∈ l.symbols, x.2.takesTwo = true := by cases l <;> decide
  exact key (s, form) h

theorem Infixed.readable_join {form : Infixed} (hform : form.takesTwo = true) {a b : Expr}
    (ha : a.Readable) (hb : b.Readable) : (form.join a b).Readable := by
  match form with
  | .operator op => exact ⟨⟨ha.1, hb.1⟩, ha.2, hb.2⟩
  | .function f => exact Expr.readable_call_two (eq_of_beq hform) ha hb

theorem Sign.readable_apply (sign : Sign) {a : Expr} (ha : a.Readable) :
    (sign.apply a).Readable := by
  match sign with
  | .minus => exact ⟨⟨.inr rfl, ha.1⟩, ha.2⟩
  | .plus => exact ⟨⟨.inl rfl, ha.1⟩, ha.2⟩
  | .tilde => exact Expr.readable_call_one rfl ha

namespace Grammar

/-- What a derivation denotes is readable. -/
def Nonterminal.Readable : (n : Nonterminal) → n.Meaning → Prop
  | .tail _, f => ∀ e : Expr, e.Readable → (f e).Readable
  | .arguments, es => ∀ e ∈ es, e.Readable
  | .argumentList, es => ∀ e ∈ es, e.Readable
  | .level _, e => e.Readable
  | .operand _, e => e.Readable
  | .unary, e => e.Readable
  | .power, e => e.Readable
  | .factorials, e => e.Readable
  | .primary, e => e.Readable

namespace Derivation

theorem readable_factorialOf :
    ∀ (count : Nat) {e : Expr}, e.Readable → (factorialOf count e).Readable
  | 0, _, h => h
  | count + 1, _, h => readable_factorialOf count (Expr.readable_call_one rfl h)

/-- **A derivation with sound tokens whose calls bind denotes something readable.** -/
theorem readable {n : Nonterminal} (d : Derivation n) (hbind : d.CallsBind)
    (hsound : ∀ t ∈ d.tokens, t.Sound) : n.Readable d.meaning := by
  induction d with
  | level first rest ihFirst ihRest =>
    obtain ⟨hfirst, hrest⟩ := List.forall_mem_append.mp hsound
    exact ihRest hbind.2 hrest _ (ihFirst hbind.1 hfirst)
  | stop => exact fun _ h => h
  | more s form hs rhs rest ihRhs ihRest =>
    obtain ⟨hrhs, hrest⟩ := List.forall_mem_append.mp (List.forall_mem_cons.mp hsound).2
    intro lhs hlhs
    exact ihRest hbind.2 hrest _
      (Infixed.readable_join (Level.takesTwo_of_mem hs) hlhs (ihRhs hbind.1 hrhs))
  | tighter hl e ih => exact ih hbind hsound
  | tightest hl e ih => exact ih hbind hsound
  | signed sign e ih => exact sign.readable_apply (ih hbind (List.forall_mem_cons.mp hsound).2)
  | unsigned e ih => exact ih hbind hsound
  | bare e ih => exact ih hbind hsound
  | raised base exponent ihBase ihExponent =>
    obtain ⟨hbase, hexponent⟩ := List.forall_mem_append.mp hsound
    exact Expr.readable_call_two rfl (ihBase hbind.1 hbase)
      (ihExponent hbind.2 (List.forall_mem_cons.mp hexponent).2)
  | factorials e count ih =>
    exact readable_factorialOf count (ih hbind (List.forall_mem_append.mp hsound).1)
  | number d => exact ⟨trivial, hsound (.number d) List.mem_cons_self⟩
  | identifier name => exact ⟨trivial, hsound (.identifier name) List.mem_cons_self⟩
  | call name args ih =>
    obtain ⟨⟨f, hf, harity⟩, hargs⟩ := hbind
    have hinside := (List.forall_mem_cons.mp (List.forall_mem_cons.mp hsound).2).2
    have hreadable := ih hargs (List.forall_mem_append.mp hinside).1
    show (callOf name args.meaning).Readable
    rw [callOf, hf]
    exact Expr.readable_call harity hreadable
  | group e ih =>
    exact ih hbind (List.forall_mem_append.mp (List.forall_mem_cons.mp hsound).2).1
  | noArguments => exact List.forall_mem_nil _
  | someArguments args ih => exact ih hbind hsound
  | last e ih => exact List.forall_mem_singleton.mpr (ih hbind hsound)
  | next e args ihE ihArgs =>
    obtain ⟨he, hargs⟩ := List.forall_mem_append.mp hsound
    exact List.forall_mem_cons.mpr
      ⟨ihE hbind.1 he, ihArgs hbind.2 (List.forall_mem_cons.mp hargs).2⟩

end Derivation

theorem Statement.readable (s : Statement) (hbind : s.CallsBind)
    (hsound : ∀ t ∈ s.tokens, t.Sound) : s.meaning.Readable := by
  match s with
  | .expression e => exact e.readable hbind hsound
  | .assignment target value =>
    obtain ⟨htarget, hvalue⟩ := List.forall_mem_append.mp hsound
    exact Expr.readable_call_two rfl (target.readable hbind.1 htarget)
      (value.readable hbind.2 (List.forall_mem_cons.mp hvalue).2)

theorem Program.readable (p : Program) (hbind : p.CallsBind) (hsound : ∀ t ∈ p.tokens, t.Sound) :
    ∀ e ∈ p.meanings, e.Readable := by
  refine List.forall_mem_map.mpr fun line hline => line.1.readable (hbind line hline) fun t ht => ?_
  refine hsound t (List.mem_append_right _ (List.mem_flatMap.mpr ⟨line, hline, ?_⟩))
  exact List.mem_append_left _ ht

end Grammar

/-- **What comes out of the parser is readable.** -/
theorem readable_of_parseProgram {source : String} {es : List Expr}
    (h : parseProgram source = .ok es) : ∀ e ∈ es, e.Readable := by
  obtain ⟨ts, hts, hes⟩ := parseProgram_eq_ok_iff.mp h
  obtain ⟨p, hp, hbind, rfl⟩ := Grammar.program_of_parseStatements hes
  refine p.readable hbind ?_
  rw [hp]
  exact List.forall_mem_map.mpr (sound_of_tokenizeFrom 1 source.toList hts)

end Abacus
