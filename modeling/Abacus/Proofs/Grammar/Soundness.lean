import Abacus.Proofs.Grammar.Reading

/-!
# Proofs/Grammar/Soundness — what the parser reads is derivable

What a routine takes off the front of the tokens is the word of a derivation of its nonterminal,
every call of that derivation binds, and what the routine answers is what the derivation denotes:
`Derives`. The proofs follow the routines, one for each, and recur where they recur.
-/

namespace Abacus.Grammar

/-- **The tokens `ts` begin with tokens that denote `x`**, and go on with `rest`. -/
def Derives (n : Nonterminal) (ts : List PlacedToken) (x : n.Meaning) (rest : List PlacedToken) :
    Prop :=
  ∃ used, ts = used ++ rest ∧ Denotes n (used.map (·.token)) x

theorem map_token_bangs {bangs : List PlacedToken} (h : ∀ t ∈ bangs, t.token = .symbol .bang) :
    bangs.map (·.token) = List.replicate bangs.length (.symbol .bang) := by
  rw [List.eq_replicate_iff]
  refine ⟨List.length_map _, fun t ht => ?_⟩
  obtain ⟨t', ht', rfl⟩ := List.mem_map.mp ht
  exact h t' ht'

/-- A primary and the factorials after it. -/
theorem Derives.factorials {ts rest bangs : List PlacedToken} {a : Expr}
    (h : Derives .primary ts a (bangs ++ rest)) (hbangs : ∀ t ∈ bangs, t.token = .symbol .bang) :
    Derives .factorials ts (Derivation.factorialOf bangs.length a) rest := by
  obtain ⟨used, rfl, d, hd, hbind, rfl⟩ := h
  refine ⟨used ++ bangs, by simp, .factorials d bangs.length, ?_, hbind, rfl⟩
  rw [List.map_append, ← hd, map_token_bangs hbangs, Derivation.tokens]

mutual

theorem derives_of_parseLevel (l : Level) (ts : List PlacedToken) {e : Expr}
    {rest : List PlacedToken} (h : Reads (parseLevel l ts) e rest) :
    Derives (.level l) ts e rest := by
  obtain ⟨lhs, mid, hlhs, hmore⟩ := reads_parseLevel.mp h
  have hlt := hlhs.bound
  obtain ⟨used, rfl, d, hd, hbind, rfl⟩ := derives_of_parseOperand l ts hlhs
  obtain ⟨f, ⟨used', rfl, d', hd', hbind', rfl⟩, rfl⟩ := derives_of_parseMore l _ mid hmore
  exact ⟨used ++ used', by simp, .level d d', by simp [hd, hd', Derivation.tokens],
    ⟨hbind, hbind'⟩, rfl⟩
termination_by (ts.length, 2 * l.depth + 5)

theorem derives_of_parseMore (l : Level) (lhs : Expr) (ts : List PlacedToken) {e : Expr}
    {rest : List PlacedToken} (h : Reads (parseMore l lhs ts) e rest) :
    ∃ f : Expr → Expr, Derives (.tail l) ts f rest ∧ f lhs = e := by
  obtain ⟨t, mid, form, rhs, mid', rfl, hform, hrhs, hmore⟩ | ⟨-, rfl, rfl⟩ :=
    reads_parseMore.mp h
  · have hlt := hrhs.bound
    obtain ⟨s, ht, hs⟩ := Token.joiner?_eq_some_iff.mp hform
    obtain ⟨used, rfl, d, hd, hbind, rfl⟩ := derives_of_parseOperand l mid hrhs
    obtain ⟨f, ⟨used', rfl, d', hd', hbind', rfl⟩, rfl⟩ := derives_of_parseMore l _ mid' hmore
    exact ⟨_, ⟨t :: (used ++ used'), by simp, .more s form hs d d',
      by simp [ht, hd, hd', Derivation.tokens], ⟨hbind, hbind'⟩, rfl⟩, rfl⟩
  · exact ⟨_, ⟨[], rfl, .stop, rfl, trivial, rfl⟩, rfl⟩
termination_by (ts.length, 0)

theorem derives_of_parseOperand (l : Level) (ts : List PlacedToken) {e : Expr}
    {rest : List PlacedToken} (h : Reads (parseOperand l ts) e rest) :
    Derives (.operand l) ts e rest := by
  match hl : l.tighter with
  | some l' =>
    have hdepth := Level.depth_tighter hl
    rw [parseOperand_of_tighter hl] at h
    obtain ⟨used, hts, d, hd, hbind, he⟩ := derives_of_parseLevel l' ts h
    exact ⟨used, hts, .tighter hl d, hd, hbind, he⟩
  | none =>
    rw [parseOperand_of_tightest hl] at h
    obtain ⟨used, hts, d, hd, hbind, he⟩ := derives_of_parseUnary ts h
    exact ⟨used, hts, .tightest hl d, hd, hbind, he⟩
termination_by (ts.length, 2 * l.depth + 4)

theorem derives_of_parseUnary (ts : List PlacedToken) {e : Expr} {rest : List PlacedToken}
    (h : Reads (parseUnary ts) e rest) : Derives .unary ts e rest := by
  obtain ⟨t, mid, sign, a, rfl, hsign, ha, rfl⟩ | ⟨-, hpower⟩ := reads_parseUnary.mp h
  · obtain ⟨sign, ht, rfl⟩ := Token.signed?_eq_some_iff.mp hsign
    obtain ⟨used, rfl, d, hd, hbind, rfl⟩ := derives_of_parseUnary mid ha
    exact ⟨t :: used, rfl, .signed sign d, by simp [ht, hd, Derivation.tokens], hbind, rfl⟩
  · obtain ⟨used, hts, d, hd, hbind, he⟩ := derives_of_parsePower ts hpower
    exact ⟨used, hts, .unsigned d, hd, hbind, he⟩
termination_by (ts.length, 3)

theorem derives_of_parsePower (ts : List PlacedToken) {e : Expr} {rest : List PlacedToken}
    (h : Reads (parsePower ts) e rest) : Derives .power ts e rest := by
  obtain ⟨base, mid, hbase, h⟩ := reads_parsePower.mp h
  obtain ⟨a, bangs, ha, hbangs, -, rfl⟩ := readsFactorials_iff.mp hbase
  have hlt : mid.length < ts.length := by
    have := ha.bound
    rw [List.length_append] at this
    omega
  obtain ⟨used, hts, d, hd, hbind, he⟩ := (derives_of_parsePrimary ts ha).factorials hbangs
  obtain ⟨t, mid', x, rfl, ht, hx, rfl⟩ | ⟨-, rfl, rfl⟩ := h
  · rw [List.length_cons] at hlt
    obtain ⟨used', rfl, d', hd', hbind', rfl⟩ := derives_of_parseUnary mid' hx
    refine ⟨used ++ t :: used', by simp [hts], .raised d d',
      by simp [ht, hd, hd', Derivation.tokens], ⟨hbind, hbind'⟩, ?_⟩
    rw [← he]
    rfl
  · exact ⟨used, hts, .bare d, hd, hbind, he⟩
termination_by (ts.length, 2)

theorem derives_of_parsePrimary (ts : List PlacedToken) {e : Expr} {rest : List PlacedToken}
    (h : Reads (parsePrimary ts) e rest) : Derives .primary ts e rest := by
  obtain ⟨d, line, mid, rfl⟩ | ⟨name, line, mid, rfl, hnext⟩ | ⟨name, line, line', mid, rfl⟩ |
    ⟨line, mid, rfl⟩ := shape_of_reads_parsePrimary h
  · obtain ⟨rfl, rfl⟩ := reads_parsePrimary_number.mp h
    exact ⟨[⟨.number d, line⟩], rfl, .number d, rfl, trivial, rfl⟩
  · obtain ⟨rfl, rfl⟩ := (reads_parsePrimary_identifier hnext).mp h
    exact ⟨[⟨.identifier name, line⟩], rfl, .identifier name, rfl, trivial, rfl⟩
  · obtain ⟨args, hargs, hcall⟩ := reads_parsePrimary_call.mp h
    obtain ⟨f, hf, harity, rfl⟩ := callNamed_eq_ok_iff.mp hcall
    obtain ⟨close, used, rfl, hden⟩ := derives_of_parseArguments mid hargs
    refine ⟨⟨.identifier name, line⟩ :: ⟨.symbol .leftParen, line'⟩ ::
      (used ++ [⟨.symbol .rightParen, close⟩]), by simp, ?_⟩
    simpa using hden.call hf harity
  · obtain ⟨close, he⟩ := reads_parsePrimary_group.mp h
    obtain ⟨used, rfl, hden⟩ := derives_of_parseLevel .comparison mid he
    refine ⟨⟨.symbol .leftParen, line⟩ :: (used ++ [⟨.symbol .rightParen, close⟩]), by simp, ?_⟩
    simpa using hden.group
termination_by (ts.length, 1)

theorem derives_of_parseArguments (ts : List PlacedToken) {args : List Expr}
    {rest : List PlacedToken} (h : Reads (parseArguments ts) args rest) :
    ∃ line, Derives .arguments ts args (⟨.symbol .rightParen, line⟩ :: rest) := by
  obtain ⟨line, rfl, rfl⟩ | ⟨-, hlist⟩ := reads_parseArguments.mp h
  · exact ⟨line, [], rfl, .noArguments, rfl, trivial, rfl⟩
  · obtain ⟨line, used, hts, d, hd, hbind, he⟩ := derives_of_parseArgumentList ts hlist
    exact ⟨line, used, hts, .someArguments d, hd, hbind, he⟩
termination_by (ts.length, 19)

theorem derives_of_parseArgumentList (ts : List PlacedToken) {args : List Expr}
    {rest : List PlacedToken} (h : Reads (parseArgumentList ts) args rest) :
    ∃ line, Derives .argumentList ts args (⟨.symbol .rightParen, line⟩ :: rest) := by
  obtain ⟨e, mid, he, h⟩ := reads_parseArgumentList.mp h
  have hlt := he.bound
  obtain ⟨used, rfl, d, hd, hbind, rfl⟩ := derives_of_parseLevel .comparison ts he
  obtain ⟨line, mid', es, rfl, hes, rfl⟩ | ⟨line, rfl, rfl⟩ := h
  · obtain ⟨line', used', rfl, d', hd', hbind', rfl⟩ := derives_of_parseArgumentList mid' hes
    exact ⟨line', used ++ ⟨.symbol .comma, line⟩ :: used', by simp, .next d d',
      by simp [hd, hd', Derivation.tokens], ⟨hbind, hbind'⟩, rfl⟩
  · exact ⟨line, used, rfl, .last d, hd, hbind, rfl⟩
termination_by (ts.length, 18)

end

/-! ## Statements and programs -/

/-- **What a statement is read from is its word.** -/
theorem statement_of_parseAssignment {ts rest : List PlacedToken} {e : Expr}
    (h : Reads (parseAssignment ts) e rest) :
    ∃ (s : Statement) (used : List PlacedToken), ts = used ++ rest ∧
      used.map (·.token) = s.tokens ∧ s.CallsBind ∧ s.meaning = e := by
  obtain ⟨target, mid, htarget, h⟩ := reads_parseAssignment.mp h
  obtain ⟨used, rfl, d, hd, hbind, rfl⟩ := derives_of_parseLevel _ _ htarget
  obtain ⟨line, mid', value, rfl, hvalue, rfl⟩ | ⟨-, rfl, rfl⟩ := h
  · obtain ⟨used', rfl, d', hd', hbind', rfl⟩ := derives_of_parseLevel _ _ hvalue
    exact ⟨.assignment d d', used ++ ⟨.symbol .equals, line⟩ :: used', by simp,
      by simp [hd, hd', Statement.tokens], ⟨hbind, hbind'⟩, rfl⟩
  · exact ⟨.expression d, used, rfl, hd.symm, hbind, rfl⟩

namespace Program

/-- The program without a statement. -/
def empty : Program :=
  ⟨0, [], nofun⟩

/-- A program after the end of one more line. -/
def afterNewLine (p : Program) : Program :=
  ⟨p.leading + 1, p.lines, p.separated⟩

/-- A program of one statement, whose line has not ended. -/
def single (s : Statement) : Program :=
  ⟨0, [(s, 0)], nofun⟩

/-- A program after a statement and the end of its line. -/
def afterStatement (s : Statement) (p : Program) : Program where
  leading := 0
  lines := (s, p.leading + 1) :: p.lines
  separated := by
    intro line hline
    match hlines : p.lines with
    | [] =>
      rw [hlines] at hline
      exact nomatch hline
    | next :: lines =>
      rw [hlines, List.dropLast_cons_cons] at hline
      obtain rfl | hline := List.mem_cons.mp hline
      · exact Nat.succ_pos _
      · exact p.separated line (hlines ▸ hline)

@[simp] theorem tokens_afterNewLine (p : Program) :
    p.afterNewLine.tokens = .newLine :: p.tokens := rfl

@[simp] theorem tokens_single (s : Statement) : (single s).tokens = s.tokens := by
  simp [single, tokens, lineTokens]

@[simp] theorem tokens_afterStatement (s : Statement) (p : Program) :
    (p.afterStatement s).tokens = s.tokens ++ .newLine :: p.tokens := by
  simp [afterStatement, tokens, lineTokens, List.replicate_succ]

end Program

/-- **The statements of a list of tokens are those of a program whose word they are.** -/
theorem program_of_parseStatements {ts : List PlacedToken} {es : List Expr}
    (h : parseStatements ts = .ok es) :
    ∃ p : Program, p.tokens = ts.map (·.token) ∧ p.CallsBind ∧ p.meanings = es := by
  induction hlength : ts.length using Nat.strongRecOn generalizing ts es with
  | ind n ih =>
    subst hlength
    cases ts with
    | nil =>
      rw [parseStatements] at h
      exact ⟨.empty, rfl, List.forall_mem_nil _, Except.ok.inj h⟩
    | cons t rest =>
      obtain ⟨k, line⟩ := t
      by_cases hk : k = .newLine
      · subst hk
        rw [parseStatements_newLine] at h
        obtain ⟨p, hp, hbind, hes⟩ := ih rest.length (Nat.lt_succ_self _) h rfl
        exact ⟨p.afterNewLine, by simp [hp], hbind, hes⟩
      · obtain ⟨e, rest', es', hread, hes, rfl⟩ :=
          (parseStatements_eq_ok_iff (by simp) (by simpa using hk)).mp h
        obtain ⟨mid, hassign, hend⟩ := reads_parseStatement.mp hread
        obtain ⟨s, used, hts, hused, hbind, rfl⟩ := statement_of_parseAssignment hassign
        obtain ⟨line', rfl⟩ | ⟨rfl, rfl⟩ := hend
        · obtain ⟨p, hp, hpbind, rfl⟩ := ih rest'.length hread.bound hes rfl
          exact ⟨p.afterStatement s, by simp [hts, hused, hp],
            List.forall_mem_cons.mpr ⟨hbind, hpbind⟩, rfl⟩
        · rw [parseStatements] at hes
          obtain rfl := Except.ok.inj hes
          exact ⟨.single s, by simp [hts, hused],
            List.forall_mem_cons.mpr ⟨hbind, List.forall_mem_nil _⟩, rfl⟩

end Abacus.Grammar
