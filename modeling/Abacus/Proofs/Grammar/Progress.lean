import Abacus.Proofs.Grammar.Failures

/-!
# Proofs/Grammar/Progress — every routine takes a token, so the recursion ends

The routines of the parser answer what is left with a proof that it is shorter, and recur on it by
that proof.  Here the recursion is taken without it.  `Routine.body` says what one routine does,
with its calls left open, and knows nothing of lengths; `Routine.within k` allows calls `k` deep and
answers nothing if they go deeper.

    body (within k) = within (k + 1) ──19 * (ts.length + 1) deep──▸ the routines of the parser

What carries this is that a call is made on fewer tokens, or on the same tokens to a routine of a
lower rank (`weight`).  For that a routine must have taken a token before another call is made on
what it leaves, and it has: that is a proper suffix of its tokens (`suffix_of_run`,
`length_lt_of_run`).
-/

namespace Abacus.Grammar

theorem Consumes.suffix {ts rest : List PlacedToken} (h : Consumes ts rest) : rest <:+ ts := by
  obtain ⟨used, rfl, -⟩ := h
  exact List.suffix_append used rest

/-! ## Powers without their factorials -/

/-- A primary, and the factorials after it. -/
def parseFactorials (ts : List PlacedToken) : Parsed Expr ts := do
  let (a, mid) ← parsePrimary ts
  let (e, rest) := factorialsOf a mid.1
  return (e, ⟨rest.1, Nat.lt_of_le_of_lt rest.2 mid.2⟩)

/-- A power begins with a primary and its factorials. -/
theorem parsePower_eq (ts : List PlacedToken) :
    parsePower ts = do
      let (base, rest) ← parseFactorials ts
      match after? (.symbol .caret) rest.1 with
      | none => return (base, rest)
      | some ⟨rest', h⟩ =>
        let (exponent, ⟨rest'', h'⟩) ← parseUnary rest'
        return (.call .power [base, exponent],
          ⟨rest'', Nat.lt_trans h' (Nat.lt_trans h rest.2)⟩) := by
  rw [parsePower, parseFactorials]
  cases parsePrimary ts with
  | error failure => rfl
  | ok first =>
    obtain ⟨a, mid, h⟩ := first
    dsimp only [bind, Except.bind, pure, Except.pure]
    cases after? (.symbol .caret) (factorialsOf a mid).2.1 <;> rfl

/-! ## Routines -/

/-- **The routines of the parser**, each of its loops as a routine of its own. -/
inductive Routine where
  /-- Operands of a level with its symbols between them; those of the loosest are an expression. -/
  | level (l : Level)
  | operand (l : Level)
  /-- The loop over the symbols of a level, after the operand `lhs`. -/
  | more (l : Level) (lhs : Expr)
  | unary
  | power
  | factorials
  /-- The loop over the `!` after `e`. -/
  | bangs (e : Expr)
  | primary
  | arguments
  /-- The loop over the arguments. -/
  | argumentList
  | assignment
  | statement
  /-- The loop over the statements. -/
  | statements

namespace Routine

/-- What a routine reads. -/
@[reducible] def Answer : Routine → Type
  | .arguments | .argumentList | .statements => List Expr
  | _ => Expr

/-- An answer without the proof about what is left. -/
def plain {α : Type} {P : List PlacedToken → Prop}
    (p : Except Failure (α × { rest : List PlacedToken // P rest })) :
    Except Failure (α × List PlacedToken) :=
  p.map fun (x, ⟨rest, _⟩) => (x, rest)

/-- **What a routine answers**: what it has read and the tokens that are left. -/
def run : (r : Routine) → List PlacedToken → Except Failure (r.Answer × List PlacedToken)
  | .level l, ts => plain (parseLevel l ts)
  | .operand l, ts => plain (parseOperand l ts)
  | .more l lhs, ts => plain (parseMore l lhs ts)
  | .unary, ts => plain (parseUnary ts)
  | .power, ts => plain (parsePower ts)
  | .factorials, ts => plain (parseFactorials ts)
  | .bangs e, ts => plain (.ok (factorialsOf e ts))
  | .primary, ts => plain (parsePrimary ts)
  | .arguments, ts => plain (parseArguments ts)
  | .argumentList, ts => plain (parseArgumentList ts)
  | .assignment, ts => plain (parseAssignment ts)
  | .statement, ts => plain (parseStatement ts)
  | .statements, ts => (parseStatements ts).map fun es => (es, [])

variable {r r' : Routine} {ts ts' rest : List PlacedToken}

/-! ## Tokens taken -/

/-- The loops that may end before they have taken anything. -/
def isLoop : Routine → Bool
  | .more _ _ | .bangs _ | .statements => true
  | _ => false

theorem plain_eq_ok_iff {α : Type} {P : List PlacedToken → Prop}
    {p : Except Failure (α × { rest : List PlacedToken // P rest })} {x : α} :
    plain p = .ok (x, rest) ↔ Reads p x rest := by
  cases p with
  | error failure => exact ⟨nofun, nofun⟩
  | ok first =>
    obtain ⟨y, rest', h⟩ := first
    rw [reads_ok, plain, Except.map, Except.ok.injEq, Prod.mk.injEq]

/-- **What is left are the last of the tokens.** -/
theorem suffix_of_run {x : r.Answer} (h : r.run ts = .ok (x, rest)) : rest <:+ ts := by
  cases r with
  | level l => exact (derives_of_parseLevel l ts (plain_eq_ok_iff.mp h)).consumes.suffix
  | operand l => exact (derives_of_parseOperand l ts (plain_eq_ok_iff.mp h)).consumes.suffix
  | more l lhs =>
    obtain ⟨f, hf, -⟩ := derives_of_parseMore l lhs ts (plain_eq_ok_iff.mp h)
    exact hf.consumes.suffix
  | unary => exact (derives_of_parseUnary ts (plain_eq_ok_iff.mp h)).consumes.suffix
  | power => exact (derives_of_parsePower ts (plain_eq_ok_iff.mp h)).consumes.suffix
  | factorials =>
    obtain ⟨a, mid, ha, hbangs⟩ := reads_bind.mp (plain_eq_ok_iff.mp h)
    obtain ⟨-, rfl⟩ := reads_pure.mp hbangs
    exact ((derives_of_parsePrimary ts ha).consumes.trans (consumes_factorialsOf a mid)).suffix
  | bangs e =>
    obtain ⟨-, rfl⟩ := reads_ok.mp (plain_eq_ok_iff.mp h)
    exact (consumes_factorialsOf e ts).suffix
  | primary => exact (derives_of_parsePrimary ts (plain_eq_ok_iff.mp h)).consumes.suffix
  | arguments =>
    obtain ⟨line, hargs⟩ := derives_of_parseArguments ts (plain_eq_ok_iff.mp h)
    exact (List.suffix_cons _ rest).trans hargs.consumes.suffix
  | argumentList =>
    obtain ⟨line, hargs⟩ := derives_of_parseArgumentList ts (plain_eq_ok_iff.mp h)
    exact (List.suffix_cons _ rest).trans hargs.consumes.suffix
  | assignment =>
    obtain ⟨s, used, rfl, -⟩ := statement_of_parseAssignment (plain_eq_ok_iff.mp h)
    exact List.suffix_append used rest
  | statement =>
    obtain ⟨mid, hmid, hend⟩ := reads_parseStatement.mp (plain_eq_ok_iff.mp h)
    obtain ⟨s, used, rfl, -⟩ := statement_of_parseAssignment hmid
    obtain ⟨line, rfl⟩ | ⟨rfl, rfl⟩ := hend
    · exact (List.suffix_cons _ rest).trans (List.suffix_append used _)
    · exact List.nil_suffix
  | statements =>
    rw [run] at h
    cases hes : parseStatements ts with
    | error failure =>
      rw [hes] at h
      exact nomatch h
    | ok es =>
      rw [hes] at h
      obtain ⟨-, rfl⟩ := Prod.mk.inj (Except.ok.inj h)
      exact List.nil_suffix

/-- **A routine that is not a loop takes a token.** -/
theorem length_lt_of_run {x : r.Answer} (hr : r.isLoop = false) (h : r.run ts = .ok (x, rest)) :
    rest.length < ts.length := by
  cases r with
  | more l lhs => exact nomatch hr
  | bangs e => exact nomatch hr
  | statements => exact nomatch hr
  | _ => exact (plain_eq_ok_iff.mp h).bound

/-! ## The recursion, without its lengths -/

/-- An answer that may not have come. -/
abbrev Pending : Type → Type :=
  ExceptT Failure Option

/-- An answer that has come. -/
def answered {α : Type} (p : Except Failure α) : Pending α :=
  ExceptT.mk (some p)

/-- What calls of the routines come to. -/
abbrev Calls : Type :=
  (r : Routine) → List PlacedToken → Pending (r.Answer × List PlacedToken)

/-- **One routine, with `call` for the calls that it makes.** -/
@[simp] def body (call : Calls) : Calls
  | .level l, ts => do
    let (lhs, rest) ← call (.operand l) ts
    call (.more l lhs) rest
  | .operand l, ts =>
    match l.tighter with
    | some l' => call (.level l') ts
    | none => call .unary ts
  | .more _ lhs, [] => return (lhs, [])
  | .more l lhs, t :: rest =>
    match t.token.joiner? l with
    | none => return (lhs, t :: rest)
    | some form => do
      let (rhs, rest) ← call (.operand l) rest
      call (.more l (form.join lhs rhs)) rest
  | .unary, [] => throw .outOfTokens
  | .unary, t :: rest =>
    match t.token.signed? with
    | some sign => do
      let (e, rest) ← call .unary rest
      return (sign e, rest)
    | none => call .power (t :: rest)
  | .power, ts => do
    let (base, rest) ← call .factorials ts
    match after? (.symbol .caret) rest with
    | none => return (base, rest)
    | some ⟨rest, _⟩ =>
      let (exponent, rest) ← call .unary rest
      return (.call .power [base, exponent], rest)
  | .factorials, ts => do
    let (e, rest) ← call .primary ts
    call (.bangs e) rest
  | .bangs e, ts =>
    match after? (.symbol .bang) ts with
    | some ⟨rest, _⟩ => call (.bangs (.call .factorial [e])) rest
    | none => return (e, ts)
  | .primary, [] => throw .outOfTokens
  | .primary, ⟨.number d, _⟩ :: rest => return (.number d, rest)
  | .primary, ⟨.identifier name, line⟩ :: rest =>
    match after? (.symbol .leftParen) rest with
    | some ⟨rest, _⟩ => do
      let (args, rest) ← call .arguments rest
      let e ← callNamed name args line
      return (e, rest)
    | none => return (.var name, rest)
  | .primary, ⟨.symbol .leftParen, line⟩ :: rest => do
    let (e, rest) ← call (.level .comparison) rest
    match after? (.symbol .rightParen) rest with
    | some ⟨rest, _⟩ => return (e, rest)
    | none => throw (.at line .unclosedParenthesis)
  | .primary, t :: _ => throw (.at t.line (.unexpectedToken t.token))
  | .arguments, ts =>
    match after? (.symbol .rightParen) ts with
    | some ⟨rest, _⟩ => return ([], rest)
    | none => call .argumentList ts
  | .argumentList, ts => do
    let (e, rest) ← call (.level .comparison) ts
    match after? (.symbol .comma) rest with
    | some ⟨rest, _⟩ =>
      let (es, rest) ← call .argumentList rest
      return (e :: es, rest)
    | none =>
      match after? (.symbol .rightParen) rest with
      | some ⟨rest, _⟩ => return ([e], rest)
      | none =>
        match rest with
        | t :: _ => throw (.at t.line (.unexpectedInArguments t.token))
        | [] => throw .outOfTokens
  | .assignment, ts => do
    let (target, rest) ← call (.level .comparison) ts
    match after? (.symbol .equals) rest with
    | none => return (target, rest)
    | some ⟨rest, _⟩ =>
      let (value, rest) ← call (.level .comparison) rest
      return (.call .define [target, value], rest)
  | .statement, ts => do
    let (e, rest) ← call .assignment ts
    match after? .newLine rest with
    | some ⟨rest, _⟩ => return (e, rest)
    | none =>
      match rest with
      | [] => return (e, [])
      | t :: _ => throw (.at t.line (.trailingToken t.token))
  | .statements, [] => return ([], [])
  | .statements, ⟨.newLine, _⟩ :: rest => call .statements rest
  | .statements, t :: rest => do
    let (e, rest) ← call .statement (t :: rest)
    let (es, rest) ← call .statements rest
    return (e :: es, rest)

/-- **A routine with calls at most `k` deep inside each other**: nothing comes of a call that is
deeper. -/
def within : Nat → Calls
  | 0 => fun _ _ => none
  | k + 1 => body (within k)

/-- A routine makes calls on its own tokens only to routines of a lower rank. -/
def rank : Routine → Nat
  | .more _ _ | .bangs _ | .primary => 0
  | .factorials => 1
  | .power => 2
  | .unary => 3
  | .operand l => 2 * l.depth + 2
  | .level l => 2 * l.depth + 3
  | .argumentList | .assignment => 16
  | .arguments | .statement => 17
  | .statements => 18

/-- What falls from call to call: the tokens, and among calls on the same tokens the rank. -/
def weight (r : Routine) (ts : List PlacedToken) : Nat :=
  19 * ts.length + r.rank

theorem rank_lt (r : Routine) : r.rank < 19 := by
  have hdepth : ∀ l : Level, l.depth ≤ 6 := fun l => by cases l <;> decide
  cases r with
  | operand l | level l =>
    have := hdepth l
    simp only [rank]
    omega
  | _ => simp only [rank]; omega

theorem weight_lt_of_length_lt (h : ts'.length < ts.length) : r'.weight ts' < r.weight ts := by
  have := r'.rank_lt
  rw [weight, weight]
  omega

theorem weight_lt_of_rank_lt (h : r'.rank < r.rank) : r'.weight ts < r.weight ts :=
  Nat.add_lt_add_left h _

/-! ## One routine

Each routine is followed through its body: its calls have less weight, so they are answered, and
what it makes of the answers is what the routine of the parser does. -/

section Answers

variable {α β : Type} {P Q : List PlacedToken → Prop}

/-- **A call that was answered**, and what is done with the answer. -/
theorem answered_bind {p : Except Failure (β × { rest : List PlacedToken // Q rest })}
    {f : β × { rest : List PlacedToken // Q rest } →
      Except Failure (α × { rest : List PlacedToken // P rest })}
    {k : β × List PlacedToken → Pending (α × List PlacedToken)}
    (h : ∀ x rest hrest, k (x, rest) = answered (plain (f (x, ⟨rest, hrest⟩)))) :
    answered (plain p) >>= k = answered (plain (p >>= f)) := by
  cases p with
  | error failure => rfl
  | ok first =>
    obtain ⟨x, rest, hrest⟩ := first
    exact h x rest hrest

/-- A weaker proof about what is left does not show. -/
theorem plain_weaken {p : Except Failure (α × { rest : List PlacedToken // Q rest })}
    (h : ∀ rest, Q rest → P rest) :
    plain (do
      let (x, ⟨rest, hrest⟩) ← p
      return (x, (⟨rest, h rest hrest⟩ : { rest : List PlacedToken // P rest }))) = plain p := by
  cases p <;> rfl

end Answers

/-- **Calls of less weight than `n` are answered as the routines of the parser answer them.** -/
def AnswersBelow (n : Nat) (call : Calls) : Prop :=
  ∀ (r : Routine) (ts : List PlacedToken), r.weight ts < n → call r ts = answered (r.run ts)

section Step

variable {call : Calls} {l : Level} {e lhs : Expr}

theorem body_level (h : AnswersBelow (weight (.level l) ts) call) :
    body call (.level l) ts = answered (run (.level l) ts) := by
  rw [body, h (.operand l) ts (weight_lt_of_rank_lt (Nat.lt_succ_self _)), run, run, parseLevel]
  refine answered_bind fun lhs rest hlt => ?_
  refine (h (.more l lhs) rest (weight_lt_of_length_lt hlt)).trans ?_
  exact congrArg answered (plain_weaken _).symm

theorem body_operand (h : AnswersBelow (weight (.operand l) ts) call) :
    body call (.operand l) ts = answered (run (.operand l) ts) := by
  cases hl : l.tighter with
  | some l' =>
    have hrank : rank (.level l') < rank (.operand l) := by
      have := Level.depth_tighter hl
      simp only [rank]
      omega
    simp only [body, hl, run, parseOperand_of_tighter hl]
    exact h (.level l') ts (weight_lt_of_rank_lt hrank)
  | none =>
    have hrank : rank .unary < rank (.operand l) := by
      have : 0 < l.depth := by cases l <;> decide
      simp only [rank]
      omega
    simp only [body, hl, run, parseOperand_of_tightest hl]
    exact h .unary ts (weight_lt_of_rank_lt hrank)

theorem body_more (h : AnswersBelow (weight (.more l lhs) ts) call) :
    body call (.more l lhs) ts = answered (run (.more l lhs) ts) := by
  match ts with
  | [] =>
    rw [body, run, parseMore]
    rfl
  | t :: rest =>
    rw [body, run, parseMore]
    cases t.token.joiner? l with
    | none => rfl
    | some form =>
      dsimp only
      rw [h (.operand l) rest (weight_lt_of_length_lt (Nat.lt_succ_self _)), run]
      refine answered_bind fun rhs rest' hlt => ?_
      refine (h (.more l _) rest' (weight_lt_of_length_lt (Nat.lt_succ_of_lt hlt))).trans ?_
      exact congrArg answered (plain_weaken _).symm

theorem body_unary (h : AnswersBelow (weight .unary ts) call) :
    body call .unary ts = answered (run .unary ts) := by
  match ts with
  | [] =>
    rw [body, run, parseUnary]
    rfl
  | t :: rest =>
    rw [body, run, parseUnary]
    cases t.token.signed? with
    | none => exact h .power (t :: rest) (weight_lt_of_rank_lt (by decide))
    | some sign =>
      dsimp only
      rw [h .unary rest (weight_lt_of_length_lt (Nat.lt_succ_self _)), run]
      exact answered_bind fun e rest' hlt => rfl

theorem body_power (h : AnswersBelow (weight .power ts) call) :
    body call .power ts = answered (run .power ts) := by
  rw [body, h .factorials ts (weight_lt_of_rank_lt (by decide)), run, run, parsePower_eq]
  refine answered_bind fun base rest hlt => ?_
  dsimp only
  cases after? (.symbol .caret) rest with
  | none => rfl
  | some found =>
    obtain ⟨rest', hlt'⟩ := found
    dsimp only
    rw [h .unary rest' (weight_lt_of_length_lt (Nat.lt_trans hlt' hlt)), run]
    exact answered_bind fun exponent rest'' hlt'' => rfl

theorem body_factorials (h : AnswersBelow (weight .factorials ts) call) :
    body call .factorials ts = answered (run .factorials ts) := by
  rw [body, h .primary ts (weight_lt_of_rank_lt (by decide)), run, run, parseFactorials]
  refine answered_bind fun a rest hlt => ?_
  exact h (.bangs a) rest (weight_lt_of_length_lt hlt)

theorem body_bangs (h : AnswersBelow (weight (.bangs e) ts) call) :
    body call (.bangs e) ts = answered (run (.bangs e) ts) := by
  rw [body, run]
  obtain ⟨⟨_, line⟩, rest, hlt, rfl, rfl, hafter⟩ | ⟨hafter, hnext⟩ :=
    after?_cases (.symbol .bang) ts
  · rw [hafter]
    exact h (.bangs _) rest (weight_lt_of_length_lt hlt)
  · rw [hafter, factorialsOf]
    · rfl
    · rintro line rest rfl
      exact hnext rfl

theorem body_primary (h : AnswersBelow (weight .primary ts) call) :
    body call .primary ts = answered (run .primary ts) := by
  match ts with
  | [] =>
    rw [body, run, parsePrimary]
    rfl
  | ⟨.number d, line⟩ :: rest =>
    rw [body, run, parsePrimary]
    rfl
  | ⟨.identifier name, line⟩ :: rest =>
    rw [body, run]
    obtain ⟨⟨_, line'⟩, rest', hlt, rfl, rfl, hafter⟩ | ⟨hafter, hnext⟩ :=
      after?_cases (.symbol .leftParen) rest
    · rw [hafter, parsePrimary]
      dsimp only
      rw [h .arguments rest' (weight_lt_of_length_lt (Nat.lt_succ_of_lt hlt)), run]
      refine answered_bind fun args rest'' hlt'' => ?_
      dsimp only
      cases callNamed name args line <;> rfl
    · rw [hafter, parsePrimary]
      · rfl
      · rintro line' rest' rfl
        exact hnext rfl
  | ⟨.symbol s, line⟩ :: rest =>
    by_cases hs : s = .leftParen
    · subst hs
      rw [body, run, parsePrimary,
        h (.level .comparison) rest (weight_lt_of_length_lt (Nat.lt_succ_self _)), run]
      refine answered_bind fun e rest' hlt => ?_
      dsimp only
      cases after? (.symbol .rightParen) rest' <;> rfl
    · rw [body, run, parsePrimary]
      · rfl
      all_goals simp [hs]
  | ⟨.newLine, line⟩ :: rest =>
    rw [body, run, parsePrimary]
    · rfl
    all_goals simp

theorem body_arguments (h : AnswersBelow (weight .arguments ts) call) :
    body call .arguments ts = answered (run .arguments ts) := by
  rw [body, run, parseArguments]
  cases after? (.symbol .rightParen) ts with
  | some found => rfl
  | none => exact h .argumentList ts (weight_lt_of_rank_lt (by decide))

theorem body_argumentList (h : AnswersBelow (weight .argumentList ts) call) :
    body call .argumentList ts = answered (run .argumentList ts) := by
  rw [body, h (.level .comparison) ts (weight_lt_of_rank_lt (by decide)), run, run,
    parseArgumentList]
  refine answered_bind fun e rest hlt => ?_
  dsimp only
  cases after? (.symbol .comma) rest with
  | some found =>
    obtain ⟨rest', hlt'⟩ := found
    dsimp only
    rw [h .argumentList rest' (weight_lt_of_length_lt (Nat.lt_trans hlt' hlt)), run]
    exact answered_bind fun es rest'' hlt'' => rfl
  | none =>
    dsimp only
    cases after? (.symbol .rightParen) rest with
    | some found => rfl
    | none => cases rest <;> rfl

theorem body_assignment (h : AnswersBelow (weight .assignment ts) call) :
    body call .assignment ts = answered (run .assignment ts) := by
  rw [body, h (.level .comparison) ts (weight_lt_of_rank_lt (by decide)), run, run,
    parseAssignment]
  refine answered_bind fun target rest hlt => ?_
  dsimp only
  cases after? (.symbol .equals) rest with
  | none => rfl
  | some found =>
    obtain ⟨rest', hlt'⟩ := found
    dsimp only
    rw [h (.level .comparison) rest' (weight_lt_of_length_lt (Nat.lt_trans hlt' hlt)), run]
    exact answered_bind fun value rest'' hlt'' => rfl

theorem body_statement (h : AnswersBelow (weight .statement ts) call) :
    body call .statement ts = answered (run .statement ts) := by
  rw [body, h .assignment ts (weight_lt_of_rank_lt (by decide)), run, run, parseStatement]
  refine answered_bind fun e rest hlt => ?_
  dsimp only
  cases after? .newLine rest with
  | some found => rfl
  | none => cases rest <;> rfl

theorem body_statements (h : AnswersBelow (weight .statements ts) call) :
    body call .statements ts = answered (run .statements ts) := by
  match ts with
  | [] =>
    rw [body, run, parseStatements]
    rfl
  | ⟨k, line⟩ :: rest =>
    by_cases hk : k = .newLine
    · subst hk
      rw [body, run, parseStatements_newLine]
      exact h .statements rest (weight_lt_of_length_lt (Nat.lt_succ_self _))
    · rw [body, h .statement (⟨k, line⟩ :: rest) (weight_lt_of_rank_lt (by decide)), run, run,
        parseStatements]
      · cases parseStatement (⟨k, line⟩ :: rest) with
        | error failure => rfl
        | ok first =>
          obtain ⟨e, rest', hlt⟩ := first
          show (call .statements rest' >>= fun (es, rest) => pure (e :: es, rest)) =
            answered ((parseStatements rest' >>= fun es => pure (e :: es)).map fun es => (es, []))
          rw [h .statements rest' (weight_lt_of_length_lt hlt), run]
          cases parseStatements rest' <;> rfl
      all_goals simpa using hk

/-- **One routine is answered if the calls of less weight are.** -/
theorem body_eq_answered (h : AnswersBelow (r.weight ts) call) :
    body call r ts = answered (r.run ts) := by
  cases r with
  | level l => exact body_level h
  | operand l => exact body_operand h
  | more l lhs => exact body_more h
  | unary => exact body_unary h
  | power => exact body_power h
  | factorials => exact body_factorials h
  | bangs e => exact body_bangs h
  | primary => exact body_primary h
  | arguments => exact body_arguments h
  | argumentList => exact body_argumentList h
  | assignment => exact body_assignment h
  | statement => exact body_statement h
  | statements => exact body_statements h

end Step

/-- **Calls as deep as the weight are enough**, so every routine comes to its answer. -/
theorem within_eq_answered : ∀ {k : Nat} {r : Routine} {ts : List PlacedToken},
    r.weight ts < k → r.within k ts = answered (r.run ts)
  | k + 1, r, ts, h => by
    rw [within]
    exact body_eq_answered fun r' ts' h' => within_eq_answered (by omega)

end Routine

/-! ## Programs -/

/-- **Every statement takes a token.** -/
theorem length_le_of_parseStatements {ts : List PlacedToken} {es : List Expr}
    (h : parseStatements ts = .ok es) : es.length ≤ ts.length := by
  induction hlength : ts.length using Nat.strongRecOn generalizing ts es with
  | ind n ih =>
    subst hlength
    match ts with
    | [] =>
      rw [parseStatements] at h
      obtain rfl := Except.ok.inj h
      exact Nat.le_refl _
    | ⟨k, line⟩ :: rest =>
      by_cases hk : k = .newLine
      · subst hk
        rw [parseStatements_newLine] at h
        exact Nat.le_succ_of_le (ih rest.length (Nat.lt_succ_self _) h rfl)
      · obtain ⟨e, rest', es', hread, hes, rfl⟩ :=
          (parseStatements_eq_ok_iff (by simp) (by simpa using hk)).mp h
        have hle : es'.length ≤ rest'.length := ih rest'.length hread.bound hes rfl
        exact Nat.lt_of_le_of_lt hle hread.bound

/-- **Parsing takes tokens, and comes to an end.**  A routine that succeeds leaves a proper suffix
of its tokens, unless it is a loop, which leaves a suffix.  The arguments of a call are read up to and
with the closing parenthesis.  On every list of tokens the recursion of the routines, taken without
any measure, comes to what the routine answers, with calls no more than `19 * (ts.length + 1)` deep
inside each other.  And there are no more statements than tokens. -/
theorem parsing_takes_tokens_and_ends :
    (∀ (r : Routine) (ts rest : List PlacedToken) (x : r.Answer), r.run ts = .ok (x, rest) →
      rest <:+ ts ∧ (r.isLoop = false → rest ≠ ts)) ∧
    (∀ (ts rest : List PlacedToken) (args : List Expr),
      Routine.arguments.run ts = .ok (args, rest) →
      ∃ used close, ts = used ++ close :: rest ∧ close.token = .symbol .rightParen) ∧
    (∀ (r : Routine) (ts : List PlacedToken) (k : Nat), 19 * (ts.length + 1) ≤ k →
      (r.within k ts).run = some (r.run ts)) ∧
    (∀ (ts : List PlacedToken) (es : List Expr), parseStatements ts = .ok es →
      es.length ≤ ts.length) ∧
    (∀ (source : String) (ts : List PlacedToken) (es : List Expr), tokenize source = .ok ts →
      parseProgram source = .ok es → es.length ≤ ts.length) := by
  refine ⟨fun r ts rest x h => ⟨Routine.suffix_of_run h, fun hr => ?_⟩, fun ts rest args h => ?_,
    fun r ts k hk => ?_, fun ts es => length_le_of_parseStatements,
    fun source ts es hts hes => ?_⟩
  · rintro rfl
    exact Nat.lt_irrefl _ (Routine.length_lt_of_run hr h)
  · obtain ⟨line, used, hused, -⟩ := derives_of_parseArguments ts (Routine.plain_eq_ok_iff.mp h)
    exact ⟨used, _, hused, rfl⟩
  · have hweight : r.weight ts < k := by
      have := r.rank_lt
      rw [Routine.weight]
      omega
    rw [Routine.within_eq_answered hweight]
    rfl
  · obtain ⟨ts', hts', hes⟩ := parseProgram_eq_ok_iff.mp hes
    obtain rfl := Except.ok.inj (hts.symm.trans hts')
    exact length_le_of_parseStatements hes

/-- The tokens after `hypot(`, up to the end of the call, and a statement on the next line. -/
def afterCallTokens : List PlacedToken :=
  [⟨.number ⟨1, 0⟩, 1⟩, ⟨.symbol .comma, 1⟩, ⟨.identifier "x", 1⟩, ⟨.symbol .bang, 1⟩,
    ⟨.symbol .rightParen, 1⟩, ⟨.newLine, 2⟩, ⟨.number ⟨2, 0⟩, 2⟩]

/-- The arguments of a call; the tokens of an unclosed call, for which calls 95 deep are enough; and
two statements. -/
theorem parsing_takes_tokens_and_ends_call :
    (∃ used close rest, afterCallTokens = used ++ close :: rest ∧
      close.token = .symbol .rightParen ∧
      Routine.arguments.run afterCallTokens =
        .ok ([.number ⟨1, 0⟩, .call .factorial [.var "x"]], rest) ∧
      rest <:+ afterCallTokens ∧ rest ≠ afterCallTokens) ∧
    (Routine.statements.within 95 [⟨.identifier "hypot", 1⟩, ⟨.symbol .leftParen, 1⟩,
      ⟨.number ⟨1, 0⟩, 1⟩, ⟨.symbol .comma, 1⟩]).run = some (.error .outOfTokens) ∧
    (∃ es ts, parseProgram "hypot(1, x!)\n2" = .ok es ∧ tokenize "hypot(1, x!)\n2" = .ok ts ∧
      es.length ≤ ts.length) := by
  obtain ⟨hsuffix, hclose, hwithin, -, hprogram⟩ := parsing_takes_tokens_and_ends
  have hargs : Routine.arguments.run afterCallTokens =
      .ok ([.number ⟨1, 0⟩, .call .factorial [.var "x"]],
        [⟨.newLine, 2⟩, ⟨.number ⟨2, 0⟩, 2⟩]) := by cbv
  have hunclosed : Routine.statements.run [⟨.identifier "hypot", 1⟩, ⟨.symbol .leftParen, 1⟩,
      ⟨.number ⟨1, 0⟩, 1⟩, ⟨.symbol .comma, 1⟩] = .error .outOfTokens := by cbv
  have htokens : tokenize "hypot(1, x!)\n2" =
      .ok (⟨.identifier "hypot", 1⟩ :: ⟨.symbol .leftParen, 1⟩ :: afterCallTokens) := by cbv
  have hes : parseProgram "hypot(1, x!)\n2" =
      .ok [.call .hypot [.number ⟨1, 0⟩, .call .factorial [.var "x"]], .number ⟨2, 0⟩] :=
    parseProgram_eq_ok_iff.mpr ⟨_, htokens, by cbv⟩
  obtain ⟨used, close, hused, htoken⟩ := hclose _ _ _ hargs
  refine ⟨⟨used, close, _, hused, htoken, hargs, (hsuffix _ _ _ _ hargs).1,
    (hsuffix _ _ _ _ hargs).2 rfl⟩, ?_, ⟨_, _, hes, htokens, hprogram _ _ _ htokens hes⟩⟩
  exact (hwithin _ _ _ (by decide)).trans (congrArg some hunclosed)

end Abacus.Grammar
