import Abacus.Proofs.Grammar.Lines

/-!
# Proofs/Grammar/Failures — where the routines of the parser fail

A routine that fails takes the line of its fault from a token: the one that it did not expect, the
name of a function, an opening parenthesis.  Whichever that is, it stands on the first line of the
tokens that the routine was given, or is the end of that line (`Located`), and it is the end of the
line exactly when the fault names it.  For a routine stops at the end of a line: what it has read
holds none, so a routine that goes on where another stopped is still on the first line.
-/

namespace Abacus

/-- The fault is an end of a line where an expression should go on. -/
def ParseFault.AtNewLine : ParseFault → Prop
  | .unexpectedToken t => t = .newLine
  | .unexpectedInArguments t => t = .newLine
  | _ => False

/-- The fault of a token: that the line ends exactly if the token is its end, and never that the
tokens run out. -/
structure ParseFault.Suits (fault : ParseFault) (t : Token) : Prop where
  newLine_iff : t = .newLine ↔ fault.AtNewLine
  ne_endOfInput : fault ≠ .endOfInput

theorem Token.ne_newLine_of_joiner? {l : Level} {t : Token} {form : Infixed}
    (h : t.joiner? l = some form) : t ≠ .newLine := by
  obtain ⟨s, rfl, -⟩ := joiner?_eq_some_iff.mp h
  exact nofun

theorem Token.ne_newLine_of_signed? {t : Token} {f : Expr → Expr} (h : t.signed? = some f) :
    t ≠ .newLine := by
  obtain ⟨sign, rfl, -⟩ := signed?_eq_some_iff.mp h
  exact nofun

namespace Grammar

/-! ## The first line of tokens -/

/-- No token is the end of a line. -/
def OnOneLine (ts : List PlacedToken) : Prop :=
  ∀ t ∈ ts, t.token ≠ .newLine

theorem onOneLine_nil : OnOneLine [] :=
  List.forall_mem_nil _

theorem onOneLine_append {us ts : List PlacedToken} :
    OnOneLine (us ++ ts) ↔ OnOneLine us ∧ OnOneLine ts :=
  List.forall_mem_append

theorem onOneLine_iff_map {ts : List PlacedToken} :
    OnOneLine ts ↔ .newLine ∉ ts.map (·.token) := by
  simp [OnOneLine]

/-- **Tokens on one line, and then `rest`.** -/
def Consumes (ts rest : List PlacedToken) : Prop :=
  ∃ used, ts = used ++ rest ∧ OnOneLine used

theorem consumes_cons {t : PlacedToken} (ht : t.token ≠ .newLine) (rest : List PlacedToken) :
    Consumes (t :: rest) rest :=
  ⟨[t], rfl, List.forall_mem_singleton.mpr ht⟩

theorem consumes_symbol {t : PlacedToken} {s : Symbol} (ht : t.token = .symbol s)
    (rest : List PlacedToken) : Consumes (t :: rest) rest := by
  refine consumes_cons ?_ rest
  rw [ht]
  exact nofun

theorem Consumes.trans {ts mid rest : List PlacedToken} (h : Consumes ts mid)
    (h' : Consumes mid rest) : Consumes ts rest := by
  obtain ⟨used, rfl, hused⟩ := h
  obtain ⟨used', rfl, hused'⟩ := h'
  exact ⟨used ++ used', (List.append_assoc _ _ _).symm, onOneLine_append.mpr ⟨hused, hused'⟩⟩

theorem Derives.consumes {n : Nonterminal} {ts rest : List PlacedToken} {x : n.Meaning}
    (h : Derives n ts x rest) : Consumes ts rest := by
  obtain ⟨used, rfl, d, hd, -⟩ := h
  exact ⟨used, rfl, onOneLine_iff_map.mpr (hd ▸ d.newLine_notMem)⟩

/-! ## Failures on the first line -/

/-- **A failure that stands at a token of the first line, or at its end.**  The tokens run out only
if there is no end of a line. -/
inductive Located (ts : List PlacedToken) : Failure → Prop
  | outOfTokens : OnOneLine ts → Located ts .outOfTokens
  | atToken {u v : List PlacedToken} {t : PlacedToken} {fault : ParseFault} : ts = u ++ t :: v →
      OnOneLine u → fault.Suits t.token → Located ts (.at t.line fault)

theorem located_front {t : PlacedToken} {fault : ParseFault} (h : fault.Suits t.token)
    (ts : List PlacedToken) : Located (t :: ts) (.at t.line fault) :=
  .atToken (u := []) rfl onOneLine_nil h

theorem Consumes.located {ts rest : List PlacedToken} {failure : Failure} (h : Consumes ts rest)
    (hrest : Located rest failure) : Located ts failure := by
  obtain ⟨used, rfl, hused⟩ := h
  cases hrest with
  | outOfTokens hrest => exact .outOfTokens (onOneLine_append.mpr ⟨hused, hrest⟩)
  | @atToken u v t fault hsplit hu ht =>
    refine .atToken (u := used ++ u) (v := v) ?_ (onOneLine_append.mpr ⟨hused, hu⟩) ht
    rw [hsplit, List.append_assoc]

/-- **If the answer is a failure, it is located.** -/
def FailsWithin {α : Type} (ts : List PlacedToken) (p : Except Failure α) : Prop :=
  ∀ failure, p = .error failure → Located ts failure

section Answers

variable {α β : Type} {Q : List PlacedToken → Prop} {ts rest : List PlacedToken}

theorem FailsWithin.ok {x : α} : FailsWithin ts (.ok x) :=
  nofun

theorem FailsWithin.pure {x : α} : FailsWithin ts (pure x : Except Failure α) :=
  nofun

theorem FailsWithin.error {failure : Failure} (h : Located ts failure) :
    FailsWithin ts (.error failure : Except Failure α) := by
  rintro _ ⟨⟩
  exact h

theorem bind_eq_error_iff {p : Except Failure β} {f : β → Except Failure α} {failure : Failure} :
    (p >>= f) = .error failure ↔ p = .error failure ∨ ∃ y, p = .ok y ∧ f y = .error failure := by
  cases p with
  | error failure' =>
    constructor
    · exact fun h => .inl (congrArg Except.error (Except.error.inj h))
    · rintro (h | ⟨y, hy, -⟩)
      · exact congrArg Except.error (Except.error.inj h)
      · exact nomatch hy
  | ok y =>
    constructor
    · exact fun h => .inr ⟨y, rfl, h⟩
    · rintro (h | ⟨_, hy, h⟩)
      · exact nomatch h
      · obtain rfl := Except.ok.inj hy
        exact h

theorem FailsWithin.bind_value {p : Except Failure β} {f : β → Except Failure α}
    (hp : FailsWithin ts p) (hf : ∀ y, p = .ok y → FailsWithin ts (f y)) :
    FailsWithin ts (p >>= f) := by
  intro failure h
  obtain hfail | ⟨y, hy, hfail⟩ := bind_eq_error_iff.mp h
  · exact hp failure hfail
  · exact hf y hy failure hfail

theorem FailsWithin.bind {p : Except Failure (β × { rest : List PlacedToken // Q rest })}
    {f : β × { rest : List PlacedToken // Q rest } → Except Failure α} (hp : FailsWithin ts p)
    (hf : ∀ y rest (h : Reads p y rest), FailsWithin ts (f (y, ⟨rest, h.bound⟩))) :
    FailsWithin ts (p >>= f) :=
  hp.bind_value fun y hy => hf y.1 y.2.1 ⟨y.2.2, hy⟩

/-- What fails after some of the line was read fails on the line. -/
theorem FailsWithin.of_rest {p : Except Failure α} (hp : FailsWithin rest p)
    (h : Consumes ts rest) : FailsWithin ts p :=
  fun failure hfailure => h.located (hp failure hfailure)

end Answers

/-! ## Routines fail on the first line -/

theorem consumes_factorialsOf (e : Expr) (ts : List PlacedToken) :
    Consumes ts (factorialsOf e ts).2.1 := by
  obtain ⟨bangs, rest, rfl, hbangs, hrest⟩ := exists_bangs ts
  rw [(factorialsOf_append hrest bangs e hbangs).2]
  refine ⟨bangs, rfl, fun t ht => ?_⟩
  rw [hbangs t ht]
  exact nofun

theorem failsWithin_callNamed (name : String) (args : List Expr) (line : Nat)
    (ts : List PlacedToken) :
    FailsWithin (⟨.identifier name, line⟩ :: ts) (callNamed name args line) := by
  have hlocated {fault : ParseFault} (h : fault.Suits (.identifier name)) :
      Located (⟨.identifier name, line⟩ :: ts) (.at line fault) :=
    located_front (t := ⟨.identifier name, line⟩) h ts
  rw [callNamed]
  split
  · exact .error (hlocated ⟨iff_of_false nofun id, nofun⟩)
  · split
    · exact .ok
    · exact .error (hlocated ⟨iff_of_false nofun id, nofun⟩)

mutual

theorem failsWithin_parseLevel (l : Level) (ts : List PlacedToken) :
    FailsWithin ts (parseLevel l ts) := by
  rw [parseLevel]
  refine (failsWithin_parseOperand l ts).bind fun lhs rest hlhs => ?_
  have hlt := hlhs.bound
  refine FailsWithin.of_rest ?_ (derives_of_parseOperand l ts hlhs).consumes
  exact (failsWithin_parseMore l lhs rest).bind fun _ _ _ => .pure
termination_by (ts.length, 2 * l.depth + 5)

theorem failsWithin_parseMore (l : Level) (lhs : Expr) (ts : List PlacedToken) :
    FailsWithin ts (parseMore l lhs ts) := by
  match ts with
  | [] =>
    rw [parseMore]
    exact .ok
  | t :: rest =>
    rw [parseMore]
    split
    · exact .ok
    · next form hform =>
      refine FailsWithin.of_rest ?_ (consumes_cons (Token.ne_newLine_of_joiner? hform) rest)
      refine (failsWithin_parseOperand l rest).bind fun rhs rest' hrhs => ?_
      have hlt := hrhs.bound
      refine FailsWithin.of_rest ?_ (derives_of_parseOperand l rest hrhs).consumes
      exact (failsWithin_parseMore l _ rest').bind fun _ _ _ => .pure
termination_by (ts.length, 0)

theorem failsWithin_parseOperand (l : Level) (ts : List PlacedToken) :
    FailsWithin ts (parseOperand l ts) := by
  match hl : l.tighter with
  | some l' =>
    have hdepth := Level.depth_tighter hl
    rw [parseOperand_of_tighter hl]
    exact failsWithin_parseLevel l' ts
  | none =>
    rw [parseOperand_of_tightest hl]
    exact failsWithin_parseUnary ts
termination_by (ts.length, 2 * l.depth + 4)

theorem failsWithin_parseUnary (ts : List PlacedToken) : FailsWithin ts (parseUnary ts) := by
  match ts with
  | [] =>
    rw [parseUnary]
    exact .error (.outOfTokens onOneLine_nil)
  | t :: rest =>
    rw [parseUnary]
    split
    · next sign hsign =>
      refine FailsWithin.of_rest ?_ (consumes_cons (Token.ne_newLine_of_signed? hsign) rest)
      exact (failsWithin_parseUnary rest).bind fun _ _ _ => .pure
    · exact failsWithin_parsePower (t :: rest)
termination_by (ts.length, 3)

theorem failsWithin_parsePower (ts : List PlacedToken) : FailsWithin ts (parsePower ts) := by
  rw [parsePower]
  refine (failsWithin_parsePrimary ts).bind fun a rest ha => ?_
  have hlt := ha.bound
  have hle := (factorialsOf a rest).2.2
  have hbase : Consumes ts (factorialsOf a rest).2.1 :=
    (derives_of_parsePrimary ts ha).consumes.trans (consumes_factorialsOf a rest)
  obtain ⟨t, rest', hlt', hrest, ht, hafter⟩ | ⟨hafter, -⟩ :=
    after?_cases (.symbol .caret) (factorialsOf a rest).2.1
  · simp only [hafter]
    rw [hrest] at hbase
    refine FailsWithin.of_rest ?_ (hbase.trans (consumes_symbol ht rest'))
    exact (failsWithin_parseUnary rest').bind fun _ _ _ => .pure
  · simp only [hafter]
    exact .pure
termination_by (ts.length, 2)

theorem failsWithin_parsePrimary (ts : List PlacedToken) : FailsWithin ts (parsePrimary ts) := by
  rw [parsePrimary.eq_def]
  split
  · exact .error (.outOfTokens onOneLine_nil)
  · exact .ok
  · next name line line' rest =>
    refine FailsWithin.bind ?_ fun args rest' _ => ?_
    · have hname := consumes_cons (t := ⟨.identifier name, line⟩) nofun
        (⟨.symbol .leftParen, line'⟩ :: rest)
      have hopen := consumes_symbol (t := ⟨.symbol .leftParen, line'⟩) rfl rest
      exact (failsWithin_parseArguments rest).of_rest (hname.trans hopen)
    · exact (failsWithin_callNamed name args line _).bind_value fun _ _ => .pure
  · exact .ok
  · next line rest =>
    refine FailsWithin.bind ?_ fun e rest' _ => ?_
    · have hopen := consumes_symbol (t := ⟨.symbol .leftParen, line⟩) rfl rest
      exact (failsWithin_parseLevel .comparison rest).of_rest hopen
    · dsimp only
      split
      · exact .pure
      · refine .error (located_front (t := ⟨.symbol .leftParen, line⟩) ?_ rest)
        exact ⟨iff_of_false nofun id, nofun⟩
  · next t rest _ _ _ _ =>
    refine .error (located_front ?_ rest)
    exact ⟨Iff.rfl, nofun⟩
termination_by (ts.length, 1)

theorem failsWithin_parseArguments (ts : List PlacedToken) :
    FailsWithin ts (parseArguments ts) := by
  rw [parseArguments]
  split
  · exact .ok
  · exact failsWithin_parseArgumentList ts
termination_by (ts.length, 19)

theorem failsWithin_parseArgumentList (ts : List PlacedToken) :
    FailsWithin ts (parseArgumentList ts) := by
  rw [parseArgumentList]
  refine (failsWithin_parseLevel .comparison ts).bind fun e rest he => ?_
  have hlt := he.bound
  refine FailsWithin.of_rest ?_ (derives_of_parseLevel .comparison ts he).consumes
  obtain ⟨t, rest', hlt', rfl, ht, hafter⟩ | ⟨hafter, -⟩ := after?_cases (.symbol .comma) rest
  · simp only [hafter]
    refine FailsWithin.of_rest ?_ (consumes_symbol ht rest')
    exact (failsWithin_parseArgumentList rest').bind fun _ _ _ => .pure
  · simp only [hafter]
    split
    · exact .pure
    · split
      · refine .error (located_front ?_ _)
        exact ⟨Iff.rfl, nofun⟩
      · exact .error (.outOfTokens onOneLine_nil)
termination_by (ts.length, 18)

end

/-! ## Statements -/

theorem failsWithin_parseAssignment (ts : List PlacedToken) :
    FailsWithin ts (parseAssignment ts) := by
  rw [parseAssignment]
  refine (failsWithin_parseLevel .comparison ts).bind fun target rest htarget => ?_
  refine FailsWithin.of_rest ?_ (derives_of_parseLevel .comparison ts htarget).consumes
  obtain ⟨t, rest', hlt, rfl, ht, hafter⟩ | ⟨hafter, -⟩ := after?_cases (.symbol .equals) rest
  · simp only [hafter]
    refine FailsWithin.of_rest ?_ (consumes_symbol ht rest')
    exact (failsWithin_parseLevel .comparison rest').bind fun _ _ _ => .pure
  · simp only [hafter]
    exact .pure

/-- **A statement that is not read fails on its line, or at its end.** -/
theorem failsWithin_parseStatement (ts : List PlacedToken) :
    FailsWithin ts (parseStatement ts) := by
  rw [parseStatement]
  refine (failsWithin_parseAssignment ts).bind fun e rest he => ?_
  obtain ⟨s, used, rfl, hused, -⟩ := statement_of_parseAssignment he
  refine FailsWithin.of_rest ?_ ⟨used, rfl, onOneLine_iff_map.mpr (hused ▸ s.newLine_notMem)⟩
  obtain ⟨t, rest', hlt, rfl, -, hafter⟩ | ⟨hafter, hnext⟩ := after?_cases .newLine rest
  · simp only [hafter]
    exact .pure
  · simp only [hafter]
    split
    · exact .pure
    · refine .error (located_front ?_ _)
      exact ⟨iff_of_false (fun ht => hnext (congrArg some ht)) id, nofun⟩

/-! ## One line at a time -/

/-- **The word of a line**: nothing, or that of a statement whose calls bind. -/
def IsLine (word : List Token) : Prop :=
  word = [] ∨ ∃ s : Statement, s.CallsBind ∧ s.tokens = word

theorem endsStatement_nil : EndsStatement (([] : List PlacedToken).map (·.token)) :=
  nofun

theorem endsStatement_cons {t : PlacedToken} (ht : t.token = .newLine) (ts : List PlacedToken) :
    EndsStatement ((t :: ts).map (·.token)) := by
  rintro _ ⟨⟩
  exact ht

section Lines

variable {u rest : List PlacedToken}

theorem takeWhile_line (hu : OnOneLine u) (hrest : EndsStatement (rest.map (·.token))) :
    (u ++ rest).takeWhile (·.token ≠ .newLine) = u := by
  have hstop : rest.takeWhile (·.token ≠ .newLine) = [] := by
    match rest with
    | [] => rfl
    | t :: rest => exact List.takeWhile_cons_of_neg (by simp [hrest t.token rfl])
  rw [List.takeWhile_append_of_pos fun t ht => decide_eq_true (hu t ht), hstop, List.append_nil]

/-- **A statement is read off a line exactly if the line is the word of one**, and then the end of
the line is taken along. -/
theorem reads_parseStatement_line {rest' : List PlacedToken} {e : Expr} (hu : OnOneLine u)
    (hrest : EndsStatement (rest.map (·.token))) :
    Reads (parseStatement (u ++ rest)) e rest' ↔
      (∃ s : Statement, s.CallsBind ∧ s.tokens = u.map (·.token) ∧ s.meaning = e) ∧
        rest' = rest.tail := by
  constructor
  · intro h
    obtain ⟨mid, hassign, hend⟩ := reads_parseStatement.mp h
    obtain ⟨s, used, hsplit, hused, hbind, rfl⟩ := statement_of_parseAssignment hassign
    have hone : OnOneLine used := onOneLine_iff_map.mpr (hused ▸ s.newLine_notMem)
    have hmid : EndsStatement (mid.map (·.token)) ∧ mid.tail = rest' := by
      obtain ⟨line, rfl⟩ | ⟨rfl, rfl⟩ := hend
      · exact ⟨endsStatement_cons rfl _, rfl⟩
      · exact ⟨endsStatement_nil, rfl⟩
    -- both what was read and the line end at the first end of a line
    obtain rfl : u = used := by
      rw [← takeWhile_line hu hrest, hsplit, takeWhile_line hone hmid.1]
    obtain rfl := List.append_cancel_left hsplit
    exact ⟨⟨s, hbind, hused.symm, rfl⟩, hmid.2.symm⟩
  · rintro ⟨⟨s, hbind, hs, rfl⟩, rfl⟩
    refine reads_parseStatement.mpr ⟨rest, s.parsed hbind hs.symm hrest, ?_⟩
    match rest with
    | [] => exact .inr ⟨rfl, rfl⟩
    | ⟨k, line⟩ :: rest =>
      obtain rfl : k = .newLine := hrest k rfl
      exact .inl ⟨line, rfl⟩

theorem parseStatements_eq_error {ts : List PlacedToken} {failure : Failure} (hnil : ts ≠ [])
    (hnext : next? ts ≠ some .newLine) (h : parseStatements ts = .error failure) :
    parseStatement ts = .error failure ∨
      ∃ e rest, Reads (parseStatement ts) e rest ∧ parseStatements rest = .error failure := by
  match ts with
  | t :: ts =>
    rw [parseStatements] at h
    · obtain hfail | ⟨⟨e, rest, hlt⟩, hread, h⟩ := bind_eq_error_iff.mp h
      · exact .inl hfail
      · obtain hfail | ⟨es, -, h⟩ := bind_eq_error_iff.mp h
        · exact .inr ⟨e, rest, ⟨hlt, hread⟩, hfail⟩
        · cases h
    · rintro line rfl
      exact hnext rfl

theorem next?_append_ne (hu : OnOneLine u) (hnil : u ≠ []) : next? (u ++ rest) ≠ some .newLine := by
  match u with
  | t :: u => exact fun h => hu t List.mem_cons_self (Option.some.inj h)

/-- **One line**: if statements are not read, then the first line is one and the others are not
read, or it is not and the failure stands on it. -/
theorem failure_on_line {failure : Failure} (hu : OnOneLine u)
    (hrest : EndsStatement (rest.map (·.token)))
    (h : parseStatements (u ++ rest) = .error failure) :
    IsLine (u.map (·.token)) ∧ parseStatements rest.tail = .error failure ∨
      ¬ IsLine (u.map (·.token)) ∧ Located (u ++ rest) failure := by
  by_cases hnil : u = []
  · subst hnil
    refine .inl ⟨.inl rfl, ?_⟩
    match rest with
    | [] => exact h
    | ⟨k, line⟩ :: rest =>
      obtain rfl : k = .newLine := hrest k rfl
      rwa [List.nil_append, parseStatements_newLine] at h
  · obtain hfail | ⟨e, rest', hread, hfail⟩ := parseStatements_eq_error
      (List.append_ne_nil_of_left_ne_nil hnil rest) (next?_append_ne hu hnil) h
    · refine .inr ⟨?_, failsWithin_parseStatement _ _ hfail⟩
      rintro (hempty | ⟨s, hbind, hs⟩)
      · exact hnil (List.map_eq_nil_iff.mp hempty)
      · obtain ⟨_, hok⟩ := (reads_parseStatement_line hu hrest).mpr ⟨⟨s, hbind, hs, rfl⟩, rfl⟩
        exact nomatch hfail.symm.trans hok
    · obtain ⟨⟨s, hbind, hs, -⟩, rfl⟩ := (reads_parseStatement_line hu hrest).mp hread
      exact .inl ⟨.inr ⟨s, hbind, hs⟩, hfail⟩

/-- **A line alone is read exactly if it is one.** -/
theorem exists_parseStatements_iff (hu : OnOneLine u) :
    (∃ es, parseStatements u = .ok es) ↔ IsLine (u.map (·.token)) := by
  constructor
  · rintro ⟨es, h⟩
    by_cases hnil : u = []
    · exact .inl (List.map_eq_nil_iff.mpr hnil)
    · rw [← List.append_nil u] at h
      obtain ⟨e, rest, -, hread, -⟩ := (parseStatements_eq_ok_iff
        (List.append_ne_nil_of_left_ne_nil hnil []) (next?_append_ne hu hnil)).mp h
      obtain ⟨⟨s, hbind, hs, -⟩, -⟩ := (reads_parseStatement_line hu endsStatement_nil).mp hread
      exact .inr ⟨s, hbind, hs⟩
  · intro hline
    cases h : parseStatements u with
    | ok es => exact ⟨es, rfl⟩
    | error failure =>
      rw [← List.append_nil u] at h
      obtain ⟨-, hfail⟩ | ⟨hnot, -⟩ := failure_on_line hu endsStatement_nil h
      · rw [List.tail_nil, parseStatements] at hfail
        cases hfail
      · exact absurd hline hnot

end Lines

end Grammar

end Abacus
