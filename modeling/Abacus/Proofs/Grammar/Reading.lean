import Abacus.Proofs.Grammar.Derivation

/-!
# Proofs/Grammar/Reading — what each routine of the parser reads

A routine answers what it read and a shorter list of tokens; `Reads p x rest` says that `p` is such
an answer and forgets the proof that comes with it.  For each routine there is one equivalence that
says when it reads `x` and leaves `rest`, in terms of the routines that it calls.  Nothing below
opens a routine again.
-/

namespace Abacus

/-! ## The parser's tables are the grammar's -/

theorem Token.joiner?_eq_some_iff {l : Level} {t : Token} {form : Infixed} :
    t.joiner? l = some form ↔ ∃ s, t = .symbol s ∧ (s, form) ∈ l.symbols := by
  constructor
  · intro h
    match t with
    | .symbol s =>
      refine ⟨s, rfl, ?_⟩
      revert h
      cases l <;> cases s <;> simp [joiner?, Symbol.infixed?, Level.symbols] <;> exact Eq.symm
  · rintro ⟨s, rfl, h⟩
    have key : ∀ x ∈ l.symbols, (Token.symbol x.1).joiner? l = some x.2 := by
      cases l <;> decide
    exact key (s, form) h

theorem Token.signed?_eq_some_iff {t : Token} {f : Expr → Expr} :
    t.signed? = some f ↔ ∃ sign : Sign, t = .symbol sign.symbol ∧ sign.apply = f := by
  constructor
  · intro h
    unfold signed? at h
    split at h
    · exact ⟨.minus, rfl, Option.some.inj h⟩
    · exact ⟨.plus, rfl, Option.some.inj h⟩
    · exact ⟨.tilde, rfl, Option.some.inj h⟩
    · exact absurd h (by simp)
  · rintro ⟨sign, rfl, rfl⟩
    cases sign <;> rfl

namespace Grammar

/-! ## Answers -/

section Answers

variable {α β : Type} {P Q : List PlacedToken → Prop}

/-- **The answer is that `x` was read and `rest` is left.** -/
def Reads (p : Except Failure (α × { rest : List PlacedToken // P rest })) (x : α)
    (rest : List PlacedToken) : Prop :=
  ∃ h, p = .ok (x, ⟨rest, h⟩)

theorem Reads.bound {p : Except Failure (α × { rest : List PlacedToken // P rest })} {x : α}
    {rest : List PlacedToken} (h : Reads p x rest) : P rest :=
  h.1

theorem bind_eq_ok_iff {p : Except Failure β} {f : β → Except Failure α} {x : α} :
    (p >>= f) = .ok x ↔ ∃ y, p = .ok y ∧ f y = .ok x := by
  cases p with
  | error failure => exact ⟨nofun, nofun⟩
  | ok y =>
    constructor
    · exact fun h => ⟨y, rfl, h⟩
    · rintro ⟨_, hy, h⟩
      obtain rfl := Except.ok.inj hy
      exact h

theorem mapError_eq_ok_iff {ε ε' : Type} {f : ε → ε'} {p : Except ε α} {x : α} :
    p.mapError f = .ok x ↔ p = .ok x := by
  cases p with
  | error failure => exact ⟨nofun, nofun⟩
  | ok y =>
    constructor
    · exact fun h => congrArg Except.ok (Except.ok.inj h)
    · exact fun h => congrArg Except.ok (Except.ok.inj h)

theorem reads_bind_value {p : Except Failure β}
    {f : β → Except Failure (α × { rest : List PlacedToken // P rest })} {x : α}
    {rest : List PlacedToken} :
    Reads (p >>= f) x rest ↔ ∃ y, p = .ok y ∧ Reads (f y) x rest := by
  constructor
  · rintro ⟨h, e⟩
    obtain ⟨y, hp, hf⟩ := bind_eq_ok_iff.mp e
    exact ⟨y, hp, h, hf⟩
  · rintro ⟨y, hp, h, hf⟩
    exact ⟨h, bind_eq_ok_iff.mpr ⟨y, hp, hf⟩⟩

theorem reads_bind {p : Except Failure (β × { rest : List PlacedToken // Q rest })}
    {f : β × { rest : List PlacedToken // Q rest } →
      Except Failure (α × { rest : List PlacedToken // P rest })}
    {x : α} {rest : List PlacedToken} :
    Reads (p >>= f) x rest ↔
      ∃ y mid, ∃ h : Reads p y mid, Reads (f (y, ⟨mid, h.bound⟩)) x rest := by
  rw [reads_bind_value]
  constructor
  · rintro ⟨⟨y, mid, hmid⟩, hp, hf⟩
    exact ⟨y, mid, ⟨hmid, hp⟩, hf⟩
  · rintro ⟨y, mid, ⟨hmid, hp⟩, hf⟩
    exact ⟨_, hp, hf⟩

@[simp] theorem reads_ok {x y : α} {r rest : List PlacedToken} {h : P r} :
    Reads (.ok (x, ⟨r, h⟩) : Except Failure (α × { rest : List PlacedToken // P rest })) y rest ↔
      x = y ∧ r = rest := by
  constructor
  · rintro ⟨h', e⟩
    cases e
    exact ⟨rfl, rfl⟩
  · rintro ⟨rfl, rfl⟩
    exact ⟨h, rfl⟩

@[simp] theorem reads_pure {x y : α} {r rest : List PlacedToken} {h : P r} :
    Reads (pure (x, ⟨r, h⟩) : Except Failure (α × { rest : List PlacedToken // P rest })) y rest ↔
      x = y ∧ r = rest :=
  reads_ok

@[simp] theorem not_reads_error {x : α} {rest : List PlacedToken} {failure : Failure} :
    ¬ Reads (.error failure : Except Failure (α × { rest : List PlacedToken // P rest })) x rest :=
  fun ⟨_, h⟩ => nomatch h

@[simp] theorem not_reads_throw {x : α} {rest : List PlacedToken} {failure : Failure} :
    ¬ Reads (throw failure : Except Failure (α × { rest : List PlacedToken // P rest })) x rest :=
  not_reads_error

end Answers

/-- The token that the tokens begin with. -/
def next? (ts : List PlacedToken) : Option Token :=
  ts.head?.map (·.token)

@[simp] theorem next?_cons (t : PlacedToken) (ts : List PlacedToken) :
    next? (t :: ts) = some t.token := rfl

/-- A token stands first and is taken off, or another one does, or none. -/
theorem after?_cases (k : Token) (ts : List PlacedToken) :
    (∃ t rest h, ts = t :: rest ∧ t.token = k ∧ after? k ts = some ⟨rest, h⟩) ∨
      (after? k ts = none ∧ next? ts ≠ some k) := by
  match ts with
  | [] => exact .inr ⟨rfl, by simp [next?]⟩
  | t :: rest =>
    by_cases h : t.token = k
    · exact .inl ⟨t, rest, Nat.lt_succ_self _, rfl, h, if_pos h⟩
    · exact .inr ⟨if_neg h, by simpa [next?] using h⟩

theorem after?_eq_none {k : Token} {ts : List PlacedToken} (h : next? ts ≠ some k) :
    after? k ts = none := by
  obtain ⟨t, rest, -, rfl, rfl, -⟩ | ⟨hnone, -⟩ := after?_cases k ts
  · exact absurd rfl h
  · exact hnone

theorem callNamed_eq_ok_iff {name : String} {args : List Expr} {line : Nat} {e : Expr} :
    callNamed name args line = .ok e ↔
      ∃ f, Builtin.ofName? name = some f ∧ args.length = f.arity ∧ .call f args = e := by
  unfold callNamed Builtin.bind
  cases Builtin.ofName? name with
  | none => simp
  | some f => by_cases h : args.length = f.arity <;> simp [h]

/-! ## Infix symbols -/

variable {l l' : Level} {ts rest : List PlacedToken} {e lhs : Expr}

theorem reads_parseLevel :
    Reads (parseLevel l ts) e rest ↔
      ∃ lhs mid, Reads (parseOperand l ts) lhs mid ∧ Reads (parseMore l lhs mid) e rest := by
  rw [parseLevel]
  simp only [reads_bind, reads_pure, exists_prop, exists_eq_right_right, exists_eq_right]

theorem reads_parseMore :
    Reads (parseMore l lhs ts) e rest ↔
      (∃ t mid form rhs mid', ts = t :: mid ∧ t.token.joiner? l = some form ∧
        Reads (parseOperand l mid) rhs mid' ∧ Reads (parseMore l (form.join lhs rhs) mid') e rest) ∨
      ((∀ t ∈ next? ts, t.joiner? l = none) ∧ lhs = e ∧ ts = rest) := by
  match ts with
  | [] => simp [parseMore, next?]
  | t :: mid =>
    cases h : t.token.joiner? l with
    | none => simp [parseMore, next?, h]
    | some form =>
      simp only [parseMore, h, reads_bind, reads_pure, exists_prop, exists_eq_right_right,
        exists_eq_right]
      constructor
      · rintro ⟨rhs, mid', hrhs, he⟩
        exact .inl ⟨t, mid, form, rhs, mid', rfl, h, hrhs, he⟩
      · rintro (⟨_, _, _, rhs, mid', ⟨rfl, rfl⟩, hform, hrhs, he⟩ | ⟨hnone, -⟩)
        · obtain rfl := Option.some.inj (h.symm.trans hform)
          exact ⟨rhs, mid', hrhs, he⟩
        · exact absurd (hnone t.token rfl) (by simp [h])

theorem parseOperand_of_tighter (h : l.tighter = some l') :
    parseOperand l ts = parseLevel l' ts := by
  rw [parseOperand]
  split
  · next l'' h'' =>
    obtain rfl := Option.some.inj (h.symm.trans h'')
    rfl
  · next h'' => exact absurd (h.symm.trans h'') (by simp)

theorem parseOperand_of_tightest (h : l.tighter = none) : parseOperand l ts = parseUnary ts := by
  rw [parseOperand]
  split
  · next l'' h'' => exact absurd (h.symm.trans h'') (by simp)
  · rfl

/-! ## Signs and powers -/

theorem reads_parseUnary :
    Reads (parseUnary ts) e rest ↔
      (∃ t mid sign a, ts = t :: mid ∧ t.token.signed? = some sign ∧ Reads (parseUnary mid) a rest ∧
        sign a = e) ∨
      (∃ t ∈ next? ts, t.signed? = none) ∧ Reads (parsePower ts) e rest := by
  match ts with
  | [] => simp [parseUnary, next?]
  | t :: mid =>
    cases h : t.token.signed? with
    | none => simp [parseUnary, next?, h]
    | some sign =>
      simp only [parseUnary, h, reads_bind, reads_pure, exists_prop]
      constructor
      · rintro ⟨a, rest', ha, rfl, rfl⟩
        exact .inl ⟨t, mid, sign, a, rfl, h, ha, rfl⟩
      · rintro (⟨_, _, _, a, ⟨rfl, rfl⟩, hsign, ha, rfl⟩ | ⟨⟨t', ht', hnone⟩, -⟩)
        · obtain rfl := Option.some.inj (h.symm.trans hsign)
          exact ⟨a, rest, ha, rfl, rfl⟩
        · obtain rfl : t.token = t' := Option.some.inj ht'
          exact absurd hnone (by simp [h])

/-- **All the `!` in front are taken off.** -/
theorem factorialsOf_append (hrest : next? rest ≠ some (.symbol .bang)) :
    ∀ (bangs : List PlacedToken) (a : Expr), (∀ t ∈ bangs, t.token = .symbol .bang) →
      (factorialsOf a (bangs ++ rest)).1 = Derivation.factorialOf bangs.length a ∧
        (factorialsOf a (bangs ++ rest)).2.1 = rest
  | [], a, _ => by
    rw [List.nil_append, factorialsOf]
    · exact ⟨rfl, rfl⟩
    · rintro line mid rfl
      exact hrest rfl
  | ⟨k, line⟩ :: bangs, a, h => by
    obtain rfl : k = .symbol .bang := h _ List.mem_cons_self
    exact factorialsOf_append hrest bangs _ fun t ht => h t (List.mem_cons_of_mem _ ht)

/-- Tokens are some `!` and something else after them. -/
theorem exists_bangs : ∀ ts : List PlacedToken, ∃ bangs rest, ts = bangs ++ rest ∧
    (∀ t ∈ bangs, t.token = .symbol .bang) ∧ next? rest ≠ some (.symbol .bang)
  | [] => ⟨[], [], rfl, by simp, by simp [next?]⟩
  | t :: ts => by
    by_cases h : t.token = .symbol .bang
    · obtain ⟨bangs, rest, rfl, hbangs, hrest⟩ := exists_bangs ts
      exact ⟨t :: bangs, rest, rfl, List.forall_mem_cons.mpr ⟨h, hbangs⟩, hrest⟩
    · exact ⟨[], t :: ts, rfl, by simp, by simpa using h⟩

/-- A primary is read from the tokens, and then the factorials after it. -/
def ReadsFactorials (ts : List PlacedToken) (e : Expr) (rest : List PlacedToken) : Prop :=
  ∃ a mid, Reads (parsePrimary ts) a mid ∧ (factorialsOf a mid).1 = e ∧
    (factorialsOf a mid).2.1 = rest

theorem readsFactorials_iff :
    ReadsFactorials ts e rest ↔
      ∃ a bangs, Reads (parsePrimary ts) a (bangs ++ rest) ∧
        (∀ t ∈ bangs, t.token = .symbol .bang) ∧ next? rest ≠ some (.symbol .bang) ∧
        Derivation.factorialOf bangs.length a = e := by
  constructor
  · rintro ⟨a, mid, ha, rfl, rfl⟩
    obtain ⟨bangs, rest, rfl, hbangs, hrest⟩ := exists_bangs mid
    obtain ⟨he, hr⟩ := factorialsOf_append hrest bangs a hbangs
    rw [he, hr]
    exact ⟨a, bangs, ha, hbangs, hrest, rfl⟩
  · rintro ⟨a, bangs, ha, hbangs, hrest, rfl⟩
    exact ⟨a, _, ha, factorialsOf_append hrest bangs a hbangs⟩

theorem reads_parsePower :
    Reads (parsePower ts) e rest ↔
      ∃ base mid, ReadsFactorials ts base mid ∧
        ((∃ t mid' x, mid = t :: mid' ∧ t.token = .symbol .caret ∧ Reads (parseUnary mid') x rest ∧
          .call .power [base, x] = e) ∨
        next? mid ≠ some (.symbol .caret) ∧ base = e ∧ mid = rest) := by
  rw [parsePower, reads_bind]
  constructor
  · rintro ⟨a, mid, ha, h⟩
    refine ⟨_, _, ⟨a, mid, ha, rfl, rfl⟩, ?_⟩
    obtain ⟨t, mid', hlt, hmid, ht, hafter⟩ | ⟨hafter, hnext⟩ :=
      after?_cases (.symbol .caret) (factorialsOf a mid).2.1
    · simp only [hafter, reads_bind, reads_pure, exists_prop] at h
      obtain ⟨x, rest', hx, rfl, rfl⟩ := h
      exact .inl ⟨t, mid', x, hmid, ht, hx, rfl⟩
    · simp only [hafter, reads_pure] at h
      exact .inr ⟨hnext, h⟩
  · rintro ⟨_, _, ⟨a, mid, ha, rfl, rfl⟩, h⟩
    refine ⟨a, mid, ha, ?_⟩
    obtain ⟨t, mid', hlt, hmid, ht, hafter⟩ | ⟨hafter, hnext⟩ :=
      after?_cases (.symbol .caret) (factorialsOf a mid).2.1
    · simp only [hafter, reads_bind, reads_pure, exists_prop]
      obtain ⟨_, _, x, hmid', -, hx, rfl⟩ | ⟨hnext, -⟩ := h
      · obtain ⟨rfl, rfl⟩ := List.cons.inj (hmid.symm.trans hmid')
        exact ⟨x, rest, hx, rfl, rfl⟩
      · exact absurd (by rw [hmid, next?_cons, ht]) hnext
    · simp only [hafter, reads_pure]
      obtain ⟨_, _, x, hmid', ht, -⟩ | ⟨-, h⟩ := h
      · exact absurd (by rw [hmid', next?_cons, ht]) hnext
      · exact h

/-! ## Primaries and arguments -/

variable {name : String} {line : Nat}

theorem reads_parsePrimary_number {d : Decimal} :
    Reads (parsePrimary (⟨.number d, line⟩ :: ts)) e rest ↔ .number d = e ∧ ts = rest := by
  rw [parsePrimary, reads_ok]

theorem reads_parsePrimary_identifier (h : next? ts ≠ some (.symbol .leftParen)) :
    Reads (parsePrimary (⟨.identifier name, line⟩ :: ts)) e rest ↔ .var name = e ∧ ts = rest := by
  rw [parsePrimary, reads_ok]
  rintro _ _ rfl
  exact h rfl

theorem reads_parsePrimary_call {line' : Nat} :
    Reads (parsePrimary (⟨.identifier name, line⟩ :: ⟨.symbol .leftParen, line'⟩ :: ts)) e rest ↔
      ∃ args, Reads (parseArguments ts) args rest ∧ callNamed name args line = .ok e := by
  rw [parsePrimary, reads_bind]
  constructor
  · rintro ⟨args, mid, hargs, h⟩
    obtain ⟨e', hcall, h⟩ := reads_bind_value.mp h
    obtain ⟨rfl, rfl⟩ := reads_pure.mp h
    exact ⟨args, hargs, hcall⟩
  · rintro ⟨args, hargs, hcall⟩
    exact ⟨args, rest, hargs, reads_bind_value.mpr ⟨e, hcall, reads_pure.mpr ⟨rfl, rfl⟩⟩⟩

theorem reads_parsePrimary_group :
    Reads (parsePrimary (⟨.symbol .leftParen, line⟩ :: ts)) e rest ↔
      ∃ line', Reads (parseLevel .comparison ts) e (⟨.symbol .rightParen, line'⟩ :: rest) := by
  rw [parsePrimary, reads_bind]
  constructor
  · rintro ⟨e', mid, he, h⟩
    obtain ⟨⟨_, line'⟩, mid', hlt, rfl, rfl, hafter⟩ | ⟨hafter, -⟩ :=
      after?_cases (.symbol .rightParen) mid
    · simp only [hafter] at h
      obtain ⟨rfl, rfl⟩ := reads_pure.mp h
      exact ⟨line', he⟩
    · simp only [hafter, not_reads_throw] at h
  · rintro ⟨line', he⟩
    exact ⟨e, _, he, reads_pure.mpr ⟨rfl, rfl⟩⟩

/-- A primary is a number, a name, a call or a group, and nothing else. -/
theorem shape_of_reads_parsePrimary (h : Reads (parsePrimary ts) e rest) :
    (∃ d line mid, ts = ⟨.number d, line⟩ :: mid) ∨
      (∃ name line mid, ts = ⟨.identifier name, line⟩ :: mid ∧
        next? mid ≠ some (.symbol .leftParen)) ∨
      (∃ name line line' mid,
        ts = ⟨.identifier name, line⟩ :: ⟨.symbol .leftParen, line'⟩ :: mid) ∨
      (∃ line mid, ts = ⟨.symbol .leftParen, line⟩ :: mid) := by
  rw [parsePrimary.eq_def] at h
  split at h
  · exact absurd h not_reads_error
  · next d line mid => exact .inl ⟨d, line, mid, rfl⟩
  · next name line line' mid => exact .inr (.inr (.inl ⟨name, line, line', mid, rfl⟩))
  · next name line mid hmid =>
    refine .inr (.inl ⟨name, line, mid, rfl, ?_⟩)
    intro hnext
    cases mid with
    | nil => cases hnext
    | cons t mid' =>
      obtain ⟨k, line'⟩ := t
      obtain rfl : k = .symbol .leftParen := Option.some.inj hnext
      exact hmid line' mid' rfl
  · next line mid => exact .inr (.inr (.inr ⟨line, mid, rfl⟩))
  · exact absurd h not_reads_error

theorem reads_parseArguments {args : List Expr} :
    Reads (parseArguments ts) args rest ↔
      (∃ line, ts = ⟨.symbol .rightParen, line⟩ :: rest ∧ args = []) ∨
      (next? ts ≠ some (.symbol .rightParen) ∧ Reads (parseArgumentList ts) args rest) := by
  rw [parseArguments]
  obtain ⟨⟨_, line⟩, mid, hlt, rfl, rfl, hafter⟩ | ⟨hafter, hnext⟩ :=
    after?_cases (.symbol .rightParen) ts
  · simp [hafter, eq_comm, and_comm]
  · simp only [hafter, hnext, ne_eq, not_false_eq_true, true_and]
    constructor
    · exact .inr
    · rintro (⟨line, rfl, -⟩ | h)
      · exact absurd rfl hnext
      · exact h

theorem reads_parseArgumentList {args : List Expr} :
    Reads (parseArgumentList ts) args rest ↔
      ∃ e mid, Reads (parseLevel .comparison ts) e mid ∧
        ((∃ line mid' es, mid = ⟨.symbol .comma, line⟩ :: mid' ∧
          Reads (parseArgumentList mid') es rest ∧ e :: es = args) ∨
        (∃ line, mid = ⟨.symbol .rightParen, line⟩ :: rest ∧ [e] = args)) := by
  rw [parseArgumentList, reads_bind]
  constructor
  · rintro ⟨e, mid, he, h⟩
    refine ⟨e, mid, he, ?_⟩
    obtain ⟨⟨_, line⟩, mid', hlt, rfl, rfl, hafter⟩ | ⟨hafter, -⟩ :=
      after?_cases (.symbol .comma) mid
    · simp only [hafter, reads_bind, reads_pure, exists_prop] at h
      obtain ⟨es, rest', hes, rfl, rfl⟩ := h
      exact .inl ⟨line, mid', es, rfl, hes, rfl⟩
    · simp only [hafter] at h
      obtain ⟨⟨_, line⟩, mid', hlt, rfl, rfl, hafter'⟩ | ⟨hafter', -⟩ :=
        after?_cases (.symbol .rightParen) mid
      · simp only [hafter', reads_pure] at h
        obtain ⟨rfl, rfl⟩ := h
        exact .inr ⟨line, rfl, rfl⟩
      · simp only [hafter'] at h
        split at h <;> exact absurd h not_reads_throw
  · rintro ⟨e, mid, he, ⟨line, mid', es, rfl, hes, rfl⟩ | ⟨line, rfl, rfl⟩⟩
    · refine ⟨e, _, he, reads_bind.mpr ⟨es, rest, hes, reads_pure.mpr ⟨rfl, rfl⟩⟩⟩
    · exact ⟨e, _, he, reads_pure.mpr ⟨rfl, rfl⟩⟩

/-! ## Statements -/

theorem reads_parseAssignment :
    Reads (parseAssignment ts) e rest ↔
      ∃ target mid, Reads (parseLevel .comparison ts) target mid ∧
        ((∃ line mid' value, mid = ⟨.symbol .equals, line⟩ :: mid' ∧
          Reads (parseLevel .comparison mid') value rest ∧ .call .define [target, value] = e) ∨
        next? mid ≠ some (.symbol .equals) ∧ target = e ∧ mid = rest) := by
  rw [parseAssignment, reads_bind]
  constructor
  · rintro ⟨target, mid, htarget, h⟩
    refine ⟨target, mid, htarget, ?_⟩
    obtain ⟨⟨_, line⟩, mid', hlt, rfl, rfl, hafter⟩ | ⟨hafter, hnext⟩ :=
      after?_cases (.symbol .equals) mid
    · simp only [hafter, reads_bind, reads_pure, exists_prop] at h
      obtain ⟨value, rest', hvalue, rfl, rfl⟩ := h
      exact .inl ⟨line, mid', value, rfl, hvalue, rfl⟩
    · simp only [hafter, reads_pure] at h
      exact .inr ⟨hnext, h⟩
  · rintro ⟨target, mid, htarget, ⟨line, mid', value, rfl, hvalue, rfl⟩ | ⟨hnext, rfl, rfl⟩⟩
    · exact ⟨target, _, htarget,
        reads_bind.mpr ⟨value, rest, hvalue, reads_pure.mpr ⟨rfl, rfl⟩⟩⟩
    · refine ⟨target, mid, htarget, ?_⟩
      simp only [after?_eq_none hnext, reads_pure, and_self]

theorem reads_parseStatement :
    Reads (parseStatement ts) e rest ↔
      ∃ mid, Reads (parseAssignment ts) e mid ∧
        ((∃ line, mid = ⟨.newLine, line⟩ :: rest) ∨ mid = [] ∧ rest = []) := by
  rw [parseStatement, reads_bind]
  constructor
  · rintro ⟨e', mid, he, h⟩
    obtain ⟨⟨_, line⟩, mid', hlt, rfl, rfl, hafter⟩ | ⟨hafter, -⟩ := after?_cases .newLine mid
    · simp only [hafter, reads_pure] at h
      obtain ⟨rfl, rfl⟩ := h
      exact ⟨_, he, .inl ⟨line, rfl⟩⟩
    · simp only [hafter] at h
      split at h
      · obtain ⟨rfl, rfl⟩ := reads_pure.mp h
        exact ⟨[], he, .inr ⟨rfl, rfl⟩⟩
      · exact absurd h not_reads_throw
  · rintro ⟨mid, he, ⟨line, rfl⟩ | ⟨rfl, rfl⟩⟩
    · exact ⟨e, _, he, reads_pure.mpr ⟨rfl, rfl⟩⟩
    · exact ⟨e, _, he, reads_pure.mpr ⟨rfl, rfl⟩⟩

theorem parseStatements_newLine :
    parseStatements (⟨.newLine, line⟩ :: ts) = parseStatements ts := by
  rw [parseStatements]

theorem parseStatements_eq_ok_iff {es : List Expr} (hnil : ts ≠ [])
    (hnext : next? ts ≠ some .newLine) :
    parseStatements ts = .ok es ↔
      ∃ e rest es', Reads (parseStatement ts) e rest ∧ parseStatements rest = .ok es' ∧
        e :: es' = es := by
  match ts with
  | t :: ts =>
    rw [parseStatements]
    · constructor
      · intro h
        obtain ⟨⟨e, rest, hlt⟩, hread, h⟩ := bind_eq_ok_iff.mp h
        obtain ⟨es', hes, h⟩ := bind_eq_ok_iff.mp h
        exact ⟨e, rest, es', ⟨hlt, hread⟩, hes, Except.ok.inj h⟩
      · rintro ⟨e, rest, es', ⟨hlt, hread⟩, hes, rfl⟩
        exact bind_eq_ok_iff.mpr ⟨_, hread, bind_eq_ok_iff.mpr ⟨es', hes, rfl⟩⟩
    · rintro line rfl
      exact hnext rfl

end Grammar

/-- A text has statements when it has tokens and these have statements. -/
theorem parseProgram_eq_ok_iff {source : String} {es : List Expr} :
    parseProgram source = .ok es ↔
      ∃ ts, tokenize source = .ok ts ∧ parseStatements ts = .ok es := by
  rw [parseProgram]
  cases tokenize source with
  | error e => simp
  | ok ts => simp [Grammar.mapError_eq_ok_iff]

end Abacus
