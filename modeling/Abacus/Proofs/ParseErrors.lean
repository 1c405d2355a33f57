import Abacus.Proofs.Grammar.Failures
import Abacus.Proofs.Program
import Abacus.Proofs.Token.LongestMatch

/-!
# Proofs/ParseErrors — a parse error points at the first bad line

Of a text that has tokens, let `k` be the first line that is no program by itself.  If the text is
no program, the error is on line `k`, with one exception: the end of line `k` stands on line
`k + 1`, so that is the line of an error that names it (`parseProgram_error_line`).

The lines before `k` are read one after the other and fall away (`Grammar.failure_on_line`), and no
routine looks beyond the end of line `k`.  Only when the tokens run out is the line filled in
afterwards, and then there is no further line.
-/

namespace Abacus

open Grammar

/-! ## The tokens of a line -/

/-- Within a line, no lexeme is the end of one. -/
theorem Lexeme.scan?_within_line {a rest : List Char} {l : Lexeme} (ha : '\n' ∉ a)
    (h : scan? a = some (l, rest)) : '\n' ∉ rest ∧ l ≠ .newLine := by
  obtain ⟨p, w, rfl, -, hl⟩ := exists_of_scan? h
  obtain ⟨hw, hrest⟩ : '\n' ∉ w ∧ '\n' ∉ rest := by simpa using ha
  refine ⟨hrest, ?_⟩
  rintro rfl
  cases hl
  exact hw List.mem_cons_self

theorem Lexeme.lineAfter_of_ne {l : Lexeme} (hl : l ≠ .newLine) (line : Nat) :
    l.lineAfter line = line := by
  cases l with
  | newLine => exact absurd rfl hl
  | _ => rfl

theorem Lexeme.newLine_notMem_tokens {l : Lexeme} (hl : l ≠ .newLine) : .newLine ∉ l.tokens := by
  cases l with
  | newLine => exact absurd rfl hl
  | _ => simp [tokens]

/-- Tokens that stand on the given line, none of which is its end. -/
def StandOn (line : Nat) (ts : List PlacedToken) : Prop :=
  ∀ t ∈ ts, t.token ≠ .newLine ∧ t.line = line

theorem StandOn.onOneLine {line : Nat} {ts : List PlacedToken} (h : StandOn line ts) :
    OnOneLine ts :=
  fun t ht => (h t ht).1

/-- **The tokens of a line stand on it.** -/
theorem standOn_of_tokenizeFrom {line : Nat} {a : List Char} {u : List PlacedToken} (ha : '\n' ∉ a)
    (h : tokenizeFrom line a = .ok u) : StandOn line u := by
  cases hscan : Lexeme.scan? a with
  | none =>
    obtain ⟨-, rfl⟩ := (tokenizeFrom_eq_ok_of_none hscan).mp h
    exact List.forall_mem_nil _
  | some found =>
    obtain ⟨l, rest⟩ := found
    have hlt := Lexeme.length_lt_of_scan? hscan
    obtain ⟨hrest, hl⟩ := Lexeme.scan?_within_line ha hscan
    obtain ⟨-, u', hu', rfl⟩ := (tokenizeFrom_eq_ok_iff hscan).mp h
    rw [Lexeme.lineAfter_of_ne hl] at hu' ⊢
    refine List.forall_mem_append.mpr ⟨?_, standOn_of_tokenizeFrom hrest hu'⟩
    intro t ht
    obtain ⟨k, hk, rfl⟩ := List.mem_map.mp ht
    exact ⟨fun heq => Lexeme.newLine_notMem_tokens hl (heq ▸ hk), rfl⟩
termination_by a.length

/-- **The tokens of a line, and of what follows its end.** -/
theorem tokenizeFrom_append_line {line : Nat} {a b : List Char} {ts : List PlacedToken}
    (ha : '\n' ∉ a) (h : tokenizeFrom line (a ++ '\n' :: b) = .ok ts) :
    ∃ u v, tokenizeFrom line a = .ok u ∧ tokenizeFrom (line + 1) b = .ok v ∧
      ts = u ++ ⟨.newLine, line + 1⟩ :: v := by
  by_cases hnil : a = []
  · subst hnil
    have hscan : Lexeme.scan? ('\n' :: b) = some (.newLine, b) := rfl
    obtain ⟨-, v, hv, rfl⟩ := (tokenizeFrom_eq_ok_iff hscan).mp h
    exact ⟨[], v, tokenizeFrom_nil line, hv, rfl⟩
  · have happend := Lexeme.scan?_append_line hnil b
    cases hscan : Lexeme.scan? a with
    | none =>
      rw [hscan] at happend
      obtain ⟨hempty, -⟩ := (tokenizeFrom_eq_ok_of_none happend).mp h
      exact absurd hempty (by simp)
    | some found =>
      obtain ⟨l, rest⟩ := found
      have hlt := Lexeme.length_lt_of_scan? hscan
      obtain ⟨hrest, hl⟩ := Lexeme.scan?_within_line ha hscan
      rw [hscan] at happend
      obtain ⟨hallowed, ts', hts', rfl⟩ := (tokenizeFrom_eq_ok_iff happend).mp h
      rw [Lexeme.lineAfter_of_ne hl] at hts' ⊢
      obtain ⟨u, v, hu, hv, rfl⟩ := tokenizeFrom_append_line hrest hts'
      refine ⟨placed line l.tokens ++ u, v, ?_, hv, (List.append_assoc _ _ _).symm⟩
      refine (tokenizeFrom_eq_ok_iff hscan).mpr ⟨hallowed, u, ?_, ?_⟩
      · rwa [Lexeme.lineAfter_of_ne hl]
      · rw [Lexeme.lineAfter_of_ne hl]
termination_by a.length

/-! ## Lines that are programs -/

/-- **A text that is a program by itself.** -/
def IsProgram (text : List Char) : Prop :=
  ∃ es, parseProgram (String.ofList text) = .ok es

/-- **A line is a program exactly if its tokens are the word of a line**, wherever it stands. -/
theorem isProgram_iff_isLine {line : Nat} {a : List Char} {u : List PlacedToken} (ha : '\n' ∉ a)
    (h : tokenizeFrom line a = .ok u) : IsProgram a ↔ IsLine (u.map (·.token)) := by
  obtain ⟨ts, hts, hmap⟩ := tokenizes_of_tokenizeFrom h 1
  have htokens : tokenize (String.ofList a) = .ok ts := by
    rw [tokenize, String.toList_ofList, hts]
  rw [← hmap, ← exists_parseStatements_iff (standOn_of_tokenizeFrom ha hts).onOneLine]
  refine exists_congr fun es => parseProgram_eq_ok_iff.trans ?_
  constructor
  · rintro ⟨ts', hts', hes⟩
    obtain rfl := Except.ok.inj (htokens.symm.trans hts')
    exact hes
  · exact fun hes => ⟨ts, htokens, hes⟩

/-- **The first line of a text that is no program by itself**; lines are counted from `first`. -/
def FirstBadLine (first : Nat) (text : List Char) (k : Nat) : Prop :=
  ∃ before line after, text.splitOn '\n' = before ++ line :: after ∧
    (∀ l ∈ before, IsProgram l) ∧ ¬ IsProgram line ∧ k = first + before.length

/-! ## Reported lines -/

/-- **The failure is reported on line `k`**, or as the end of that line, or because the tokens have
run out on it. -/
inductive Reported (k : Nat) (ts : List PlacedToken) : Failure → Prop
  | onLine {fault : ParseFault} : ¬ fault.AtNewLine → fault ≠ .endOfInput →
      Reported k ts (.at k fault)
  | atEnd {fault : ParseFault} : fault.AtNewLine → ⟨.newLine, k + 1⟩ ∈ ts →
      Reported k ts (.at (k + 1) fault)
  | outOfTokens {t : PlacedToken} : ts.getLast? = some t → t.line = k → Reported k ts .outOfTokens

theorem Reported.append {k : Nat} {ts : List PlacedToken} {failure : Failure}
    (h : Reported k ts failure) (us : List PlacedToken) : Reported k (us ++ ts) failure := by
  cases h with
  | onLine hfault hinput => exact .onLine hfault hinput
  | atEnd hfault hmem => exact .atEnd hfault (List.mem_append_right us hmem)
  | outOfTokens hlast hline => exact .outOfTokens (by rw [List.getLast?_append, hlast]; rfl) hline

section Reports

variable {k : Nat} {u rest : List PlacedToken} {failure : Failure}

/-- **A failure on the last line is reported on it.** -/
theorem reported_of_last (hu : StandOn k u) (hnil : u ≠ []) (h : Located u failure) :
    Reported k u failure := by
  cases h with
  | outOfTokens _ =>
    exact .outOfTokens (List.getLast?_eq_getLast_of_ne_nil hnil) (hu _ (List.getLast_mem hnil)).2
  | @atToken u' v t fault hsplit _ hfault =>
    obtain ⟨hne, hline⟩ := hu t (by simp [hsplit])
    rw [hline]
    exact .onLine (fun hat => hne (hfault.newLine_iff.mpr hat)) hfault.ne_endOfInput

/-- **A failure on a line that ends is reported on it, or as its end.** -/
theorem reported_of_line (hu : StandOn k u)
    (h : Located (u ++ ⟨.newLine, k + 1⟩ :: rest) failure) :
    Reported k (u ++ ⟨.newLine, k + 1⟩ :: rest) failure := by
  have hend : ⟨.newLine, k + 1⟩ ∈ u ++ ⟨.newLine, k + 1⟩ :: rest := by simp
  cases h with
  | outOfTokens hone => exact absurd rfl (hone _ hend)
  | @atToken u' v t fault hsplit hu' hfault =>
    have hline := takeWhile_line hu.onOneLine
      (endsStatement_cons (t := ⟨.newLine, k + 1⟩) rfl rest)
    rw [hsplit] at hline
    -- the token is the first end of a line that there is, or stands before it
    by_cases ht : t.token = .newLine
    · obtain rfl : u' = u := (takeWhile_line hu' (endsStatement_cons ht v)).symm.trans hline
      obtain ⟨rfl, -⟩ := List.cons.inj (List.append_cancel_left hsplit)
      exact .atEnd (hfault.newLine_iff.mp rfl) hend
    · have hmem : t ∈ u := by
        rw [← hline, List.takeWhile_append_of_pos fun x hx => decide_eq_true (hu' x hx)]
        simp [ht]
      rw [(hu t hmem).2]
      exact .onLine (fun hat => ht (hfault.newLine_iff.mpr hat)) hfault.ne_endOfInput

end Reports

/-! ## The first bad line -/

theorem splitOn_append_line {a : List Char} (ha : '\n' ∉ a) (b : List Char) :
    (a ++ '\n' :: b).splitOn '\n' = a :: b.splitOn '\n' := by
  refine List.splitOnP_append_cons_of_forall_mem (fun c hc => beq_false_of_ne ?_) '\n' rfl b
  rintro rfl
  exact ha hc

theorem firstBadLine_self {first : Nat} {a text : List Char} {lines : List (List Char)}
    (htext : text.splitOn '\n' = a :: lines) (h : ¬ IsProgram a) : FirstBadLine first text first :=
  ⟨[], a, lines, htext, List.forall_mem_nil _, h, rfl⟩

theorem FirstBadLine.next {first k : Nat} {a b : List Char} (h : FirstBadLine (first + 1) b k)
    (ha : '\n' ∉ a) (hprogram : IsProgram a) : FirstBadLine first (a ++ '\n' :: b) k := by
  obtain ⟨before, line, after, hsplit, hbefore, hline, rfl⟩ := h
  refine ⟨a :: before, line, after, ?_, List.forall_mem_cons.mpr ⟨hprogram, hbefore⟩, hline, ?_⟩
  · rw [splitOn_append_line ha, hsplit, List.cons_append]
  · rw [List.length_cons]
    omega

/-- **A failure is reported on the first bad line.**  The induction is on the lines of the text: a
line that is a program falls away. -/
theorem exists_reported {first : Nat} {text : List Char} {ts : List PlacedToken}
    {failure : Failure} (htokens : tokenizeFrom first text = .ok ts)
    (h : parseStatements ts = .error failure) :
    ∃ k, FirstBadLine first text k ∧ Reported k ts failure := by
  by_cases hmem : '\n' ∈ text
  · obtain ⟨a, b, rfl, ha⟩ := List.eq_append_cons_of_mem hmem
    obtain ⟨u, v, hu, hv, rfl⟩ := tokenizeFrom_append_line ha htokens
    have hstand := standOn_of_tokenizeFrom ha hu
    obtain ⟨hline, hfail⟩ | ⟨hline, hlocated⟩ :=
      failure_on_line hstand.onOneLine (endsStatement_cons rfl v) h
    · obtain ⟨k, hk, hreported⟩ := exists_reported hv hfail
      refine ⟨k, hk.next ha ((isProgram_iff_isLine ha hu).mpr hline), ?_⟩
      rw [← List.singleton_append, ← List.append_assoc]
      exact hreported.append _
    · refine ⟨first, firstBadLine_self (splitOn_append_line ha b) ?_, ?_⟩
      · exact fun hprogram => hline ((isProgram_iff_isLine ha hu).mp hprogram)
      · exact reported_of_line hstand hlocated
  · have hstand := standOn_of_tokenizeFrom hmem htokens
    rw [← List.append_nil ts] at h
    obtain ⟨-, hfail⟩ | ⟨hline, hlocated⟩ := failure_on_line hstand.onOneLine endsStatement_nil h
    · rw [List.tail_nil, parseStatements] at hfail
      cases hfail
    · rw [List.append_nil] at hlocated
      have hnil : ts ≠ [] := by
        rintro rfl
        exact hline (.inl rfl)
      refine ⟨first, firstBadLine_self (List.splitOn_eq_singleton hmem) ?_, ?_⟩
      · exact fun hprogram => hline ((isProgram_iff_isLine hmem htokens).mp hprogram)
      · exact reported_of_last hstand hnil hlocated
termination_by text.length

theorem FirstBadLine.le {first k : Nat} {text : List Char} (h : FirstBadLine first text k) :
    first ≤ k := by
  obtain ⟨before, -, -, -, -, -, rfl⟩ := h
  exact Nat.le_add_right _ _

theorem exists_failure {source : String} {ts : List PlacedToken} {error : ParseError}
    (htokens : tokenize source = .ok ts) (herror : parseProgram source = .error error) :
    ∃ failure, parseStatements ts = .error failure ∧ failure.toError (lastLine ts) = error := by
  simp only [parseProgram, htokens] at herror
  cases h : parseStatements ts with
  | ok es =>
    rw [h] at herror
    cases herror
  | error failure =>
    rw [h] at herror
    exact ⟨failure, rfl, Except.error.inj herror⟩

/-- **A parse error points at the first bad line.**  If a text has tokens and is no program, the
error is on the first line `k` that is no program by itself, or on the next one, and that exactly if
the end of line `k` is what was not expected.  So no error is on line zero, and if the tokens have
run out, the error and the last of them are on line `k`. -/
theorem parseProgram_error_line {source : String} {ts : List PlacedToken} {error : ParseError}
    (htokens : tokenize source = .ok ts) (herror : parseProgram source = .error error) :
    ∃ k, FirstBadLine 1 source.toList k ∧ (error.line = k ∨ error.line = k + 1) ∧
      (error.line = k + 1 ↔ error.fault.AtNewLine) ∧
      (error.fault.AtNewLine → ⟨.newLine, k + 1⟩ ∈ ts) ∧
      error.line ≠ 0 ∧
      (error.fault = .endOfInput → error.line = k ∧ ∃ t, ts.getLast? = some t ∧ t.line = k) := by
  obtain ⟨failure, hfailure, rfl⟩ := exists_failure htokens herror
  obtain ⟨k, hk, hreported⟩ := exists_reported htokens hfailure
  have hpos : k ≠ 0 := Nat.ne_of_gt hk.le
  refine ⟨k, hk, ?_⟩
  cases hreported with
  | onLine hfault hinput =>
    exact ⟨.inl rfl, iff_of_false (Nat.succ_ne_self k).symm hfault, fun hat => absurd hat hfault,
      hpos, fun heq => absurd heq hinput⟩
  | atEnd hfault hmem =>
    refine ⟨.inr rfl, iff_of_true rfl hfault, fun _ => hmem, Nat.succ_ne_zero k, ?_⟩
    rintro rfl
    exact hfault.elim
  | @outOfTokens t hlast hline =>
    have hlastLine : lastLine ts = k := by
      rw [lastLine, hlast]
      exact hline
    rw [Failure.toError, hlastLine]
    exact ⟨.inl rfl, iff_of_false (Nat.succ_ne_self k).symm id, False.elim, hpos,
      fun _ => ⟨rfl, t, hlast, hline⟩⟩

/-- The tokens of a call whose arguments go on after the end of the line. -/
def openCallTokens : List PlacedToken :=
  [⟨.identifier "x", 1⟩, ⟨.symbol .equals, 1⟩, ⟨.number ⟨1, 0⟩, 1⟩, ⟨.newLine, 2⟩,
    ⟨.identifier "power", 2⟩, ⟨.symbol .leftParen, 2⟩, ⟨.identifier "x", 2⟩, ⟨.symbol .comma, 2⟩,
    ⟨.newLine, 3⟩, ⟨.number ⟨2, 0⟩, 3⟩, ⟨.symbol .rightParen, 3⟩]

theorem parseProgram_error_line_openCall :
    tokenize "x = 1\npower(x,\n2)" = .ok openCallTokens ∧
    parseProgram "x = 1\npower(x,\n2)" = .error ⟨3, .unexpectedToken .newLine⟩ ∧
    ∃ k, FirstBadLine 1 "x = 1\npower(x,\n2)".toList k ∧ (3 = k ∨ 3 = k + 1) ∧
      (3 = k + 1 ↔ (ParseFault.unexpectedToken .newLine).AtNewLine) ∧
      ((ParseFault.unexpectedToken .newLine).AtNewLine → ⟨.newLine, k + 1⟩ ∈ openCallTokens) ∧
      3 ≠ 0 ∧
      (ParseFault.unexpectedToken .newLine = .endOfInput → 3 = k ∧
        ∃ t, openCallTokens.getLast? = some t ∧ t.line = k) := by
  have htokens : tokenize "x = 1\npower(x,\n2)" = .ok openCallTokens := by cbv
  have herror : parseProgram "x = 1\npower(x,\n2)" = .error ⟨3, .unexpectedToken .newLine⟩ := by
    cbv
  exact ⟨htokens, herror, parseProgram_error_line htokens herror⟩

end Abacus
