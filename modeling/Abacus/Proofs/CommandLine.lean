import Abacus.CommandLine
import Abacus.Proofs.Decimal.Exact
import Abacus.Proofs.Expr.NormalForm
import Abacus.Proofs.Expr.Spelling
import Abacus.Proofs.Program

/-!
# Proofs/CommandLine — a run of the command line shows what running the program answers

The command line has a loop of its own over the statements of a program (`runAll`), which keeps
every answer; `runSource` keeps only the last value (`runStatements`).  The two agree on any
statements (`runStatements_eq`), and the loop on the first few of them gives the first few of its
answers (`runAll_take`); so each line is the text of an answer, and the run fails when and how the
program does.

With `--simplify` the loop goes through the statements in one session too, and each is simplified as
in a new one, because simplification leaves the session as it was (`runAll_simplifyIn`).

A line of the report is a line of the output: no text of a value or of a simplified statement has
the end of a line in it (`splitOn_output`).
-/

namespace Abacus

/-! ## Statement by statement -/

section Statements

variable {α : Type} {step : Expr → Evaluation α} {e : Expr} {es : List Expr} {s s' : Session}

theorem runAll_cons_error {error : EvalError} (h : step e s = (.error error, s')) :
    runAll step (e :: es) s = ([], some error, s') := by
  rw [runAll, h]

theorem runAll_cons_ok {x : α} (h : step e s = (.ok x, s')) :
    runAll step (e :: es) s = (x :: (runAll step es s').1, (runAll step es s').2) := by
  rw [runAll, h]

/-- Statements of which none fails have an answer each. -/
theorem length_runAll (h : (runAll step es s).2.1 = none) :
    (runAll step es s).1.length = es.length := by
  induction es generalizing s with
  | nil => rfl
  | cons e es ih =>
    rcases hrun : step e s with ⟨error | x, s'⟩
    · rw [runAll_cons_error hrun] at h
      cases h
    · rw [runAll_cons_ok hrun] at h ⊢
      exact congrArg (· + 1) (ih h)

/-- **A failure comes from the statement after those that have answers**, and what comes after it
makes no difference. -/
theorem runAll_of_error {error : EvalError} (h : (runAll step es s).2.1 = some error) :
    (runAll step es s).1.length < es.length ∧
      runAll step (es.take ((runAll step es s).1.length + 1)) s = runAll step es s := by
  induction es generalizing s with
  | nil => cases h
  | cons e es ih =>
    rcases hrun : step e s with ⟨error | x, s'⟩
    · rw [runAll_cons_error hrun]
      exact ⟨Nat.succ_pos _, runAll_cons_error hrun⟩
    · rw [runAll_cons_ok hrun] at h ⊢
      obtain ⟨hlength, htake⟩ := ih h
      refine ⟨Nat.succ_lt_succ hlength, ?_⟩
      rw [List.length_cons, List.take_succ_cons, runAll_cons_ok hrun, htake]

theorem length_runAll_le (step : Expr → Evaluation α) (es : List Expr) (s : Session) :
    (runAll step es s).1.length ≤ es.length := by
  cases herror : (runAll step es s).2.1 with
  | none => exact Nat.le_of_eq (length_runAll herror)
  | some error => exact Nat.le_of_lt (runAll_of_error herror).1

/-- **The statements up to one that has an answer** have the answers up to it. -/
theorem runAll_take {k : Nat} (h : k ≤ (runAll step es s).1.length) :
    (runAll step (es.take k) s).1 = (runAll step es s).1.take k ∧
      (runAll step (es.take k) s).2.1 = none := by
  induction es generalizing s k with
  | nil => exact ⟨by rw [List.take_nil, runAll, List.take_nil], by rw [List.take_nil, runAll]⟩
  | cons e es ih =>
    match k with
    | 0 => exact ⟨rfl, rfl⟩
    | k + 1 =>
      rcases hrun : step e s with ⟨error | x, s'⟩
      · rw [runAll_cons_error hrun] at h
        cases h
      · rw [runAll_cons_ok hrun] at h ⊢
        obtain ⟨hanswers, herror⟩ := ih (Nat.le_of_succ_le_succ h)
        rw [List.take_succ_cons, runAll_cons_ok hrun]
        exact ⟨congrArg (x :: ·) hanswers, herror⟩

/-- What holds of the answer to every statement, in whatever session it is given. -/
theorem forall_mem_runAll {P : α → Prop}
    (h : ∀ e ∈ es, ∀ s x s', step e s = (.ok x, s') → P x) : ∀ x ∈ (runAll step es s).1, P x := by
  induction es generalizing s with
  | nil => exact List.forall_mem_nil _
  | cons e es ih =>
    obtain ⟨he, hes⟩ := List.forall_mem_cons.mp h
    rcases hrun : step e s with ⟨error | x, s'⟩
    · rw [runAll_cons_error hrun]
      exact List.forall_mem_nil _
    · rw [runAll_cons_ok hrun]
      exact List.forall_mem_cons.mpr ⟨he s x s' hrun, ih hes⟩

/-- **Statements that leave the session as it was** are all answered in that session. -/
theorem runAll_of_forall {g : Expr → α} (h : ∀ e ∈ es, step e s = (.ok (g e), s)) :
    runAll step es s = (es.map g, none, s) := by
  induction es with
  | nil => rfl
  | cons e es ih =>
    obtain ⟨he, hes⟩ := List.forall_mem_cons.mp h
    rw [runAll_cons_ok he, ih hes, List.map_cons]

/-- And so is the first one after them that fails. -/
theorem runAll_append_error {g : Expr → α} {error : EvalError} {rest : List Expr}
    (h : ∀ e ∈ es, step e s = (.ok (g e), s)) (he : step e s = (.error error, s')) :
    runAll step (es ++ e :: rest) s = (es.map g, some error, s') := by
  induction es with
  | nil => exact runAll_cons_error he
  | cons e' es ih =>
    obtain ⟨he', hes⟩ := List.forall_mem_cons.mp h
    rw [List.cons_append, runAll_cons_ok he', ih hes, List.map_cons]

/-- What statements answer that have these values, and then may fail. -/
def answerOf (values : List Decimal) : Option EvalError → Except EvalError (Option Decimal)
  | none => .ok values.getLast?
  | some error => .error error

/-- **The answer of statements is the last of their values**, or the failure. -/
theorem runStatements_eq (es : List Expr) (s : Session) :
    runStatements es s = (answerOf (runAll Expr.eval es s).1 (runAll Expr.eval es s).2.1,
      (runAll Expr.eval es s).2.2) := by
  induction es generalizing s with
  | nil => rfl
  | cons e es ih =>
    match es with
    | [] =>
      rw [runStatements, Evaluation.bind_apply]
      rcases hrun : e.eval s with ⟨error | x, s'⟩
      · rw [runAll_cons_error hrun]
        rfl
      · rw [runAll_cons_ok hrun]
        rfl
    | e' :: es =>
      rw [runStatements_cons e (List.cons_ne_nil e' es), Evaluation.bind_apply]
      rcases hrun : e.eval s with ⟨error | x, s'⟩
      · rw [runAll_cons_error hrun]
        rfl
      · rw [runAll_cons_ok hrun]
        change runStatements (e' :: es) s' = _
        rw [ih s']
        cases herror : (runAll Expr.eval (e' :: es) s').2.1 with
        | some error => rfl
        | none =>
          -- there is another value after `x`, so `x` is not the last
          obtain ⟨y, ys, hvalues⟩ := List.exists_cons_of_length_eq_add_one (length_runAll herror)
          rw [hvalues, answerOf, answerOf, List.getLast?_cons_cons]

/-- The value of a statement is the answer of the statements up to it. -/
theorem runStatements_take {k : Nat} {x : Decimal} (h : (runAll Expr.eval es s).1[k]? = some x) :
    (runStatements (es.take (k + 1)) s).1 = .ok (some x) := by
  obtain ⟨hk, -⟩ := List.getElem?_eq_some_iff.mp h
  obtain ⟨hvalues, herror⟩ := runAll_take hk
  rw [runStatements_eq, herror, hvalues, answerOf, List.getLast?_take, if_neg (Nat.succ_ne_zero k),
    Nat.succ_sub_one, h, Option.some_or]

/-- **Statements are simplified one after the other as each of them alone**, up to the first one at
which the program stops. -/
theorem runAll_simplifyIn (es : List Expr) (s : Session) :
    ((∀ e ∈ es, ¬ (e.simplify s.env).Stops) →
      runAll Expr.simplifyIn es s = (es.map (Expr.simplify s.env), none, s)) ∧
    (∀ before e after, es = before ++ e :: after → (∀ e ∈ before, ¬ (e.simplify s.env).Stops) →
      (e.simplify s.env).Stops →
      runAll Expr.simplifyIn es s = (before.map (Expr.simplify s.env), some .stopped, s)) := by
  refine ⟨fun h => runAll_of_forall fun e he => Expr.simplifyIn_of_not_stops (h e he), ?_⟩
  rintro before e after rfl h hstops
  exact runAll_append_error (fun e he => Expr.simplifyIn_of_not_stops (h e he))
    (Expr.simplifyIn_of_stops hstops)

end Statements

/-! ## Lines -/

theorem Digits.newLine_not_mem_write (n : Nat) : '\n' ∉ Digits.write n := by
  intro h
  exact absurd (Digits.allDigits_write n _ h) (by decide)

namespace Decimal

section Forms

variable {digits : List Char}

theorem newLine_not_mem_writeWhole (h : '\n' ∉ digits) (zeros : Int) :
    '\n' ∉ writeWhole digits zeros := by
  rw [writeWhole]
  split
  · simp [h]
  · simp [h, Digits.newLine_not_mem_write]

theorem newLine_not_mem_writeScientific (h : '\n' ∉ digits) (places : Nat) :
    '\n' ∉ writeScientific digits places := by
  match digits, h with
  | [], _ => exact List.not_mem_nil
  | [d], h => simpa [writeScientific, Digits.newLine_not_mem_write] using h
  | d :: d' :: ds, h => simpa [writeScientific, Digits.newLine_not_mem_write] using h

theorem newLine_not_mem_writePoint (h : '\n' ∉ digits) (places : Nat) :
    '\n' ∉ writePoint digits places := by
  have htake : ∀ k, '\n' ∉ digits.take k := fun k hk => h (List.mem_of_mem_take hk)
  have hdrop : ∀ k, '\n' ∉ digits.drop k := fun k hk => h (List.mem_of_mem_drop hk)
  rw [writePoint]
  split
  · simp [h]
  · simp [htake, hdrop]

end Forms

/-- **The text of a decimal is on one line.** -/
theorem newLine_not_mem_write (d : Decimal) : '\n' ∉ d.write := by
  have hbody : '\n' ∉ writeMagnitude (Digits.write d.magnitude) d.scale := by
    have hdigits := Digits.newLine_not_mem_write d.magnitude
    rw [writeMagnitude]
    split
    · exact newLine_not_mem_writeWhole hdigits _
    · split
      · exact newLine_not_mem_writeScientific hdigits _
      · exact newLine_not_mem_writePoint hdigits _
  rw [write]
  split
  · decide
  · split
    · exact List.not_mem_cons_of_ne_of_not_mem (by decide) hbody
    · exact hbody

end Decimal

theorem IsIdentifier.newLine_not_mem {name : String} (h : IsIdentifier name) :
    '\n' ∉ name.toList := by
  obtain ⟨c, cs, hname, hc, hcs⟩ := h
  rw [hname]
  refine List.not_mem_cons_of_ne_of_not_mem (fun heq => ?_) fun hmem => ?_
  · exact absurd (heq ▸ hc) (by decide)
  · exact absurd (hcs _ hmem) (by decide)

theorem Operator.newLine_ne_symbol (op : Operator) : '\n' ≠ op.symbol := by
  cases op <;> decide

namespace Expr

theorem newLine_not_mem_joinCommas : ∀ {texts : List (List Char)},
    (∀ t ∈ texts, '\n' ∉ t) → '\n' ∉ joinCommas texts
  | [], _ => List.not_mem_nil
  | [t], h => h t List.mem_cons_self
  | t :: t' :: ts, h => by
    obtain ⟨ht, hts⟩ := List.forall_mem_cons.mp h
    have hrest := newLine_not_mem_joinCommas hts
    simp [joinCommas, ht, hrest]

/-- **The text of an expression is on one line**, if names are. -/
theorem newLine_not_mem_write {p : Decimal → Prop} {e : Expr} :
    e.Leaves p IsIdentifier → '\n' ∉ e.write := by
  induction e using Expr.induction with
  | number d =>
    intro _
    rw [write]
    split
    · simp [d.newLine_not_mem_write]
    · exact d.newLine_not_mem_write
  | var name =>
    intro h
    rw [write]
    exact IsIdentifier.newLine_not_mem h
  | unary op a iha =>
    intro h
    rw [write]
    simp [op.newLine_ne_symbol, iha h]
  | binary op a b iha ihb =>
    intro h
    rw [write]
    simp [op.newLine_ne_symbol, iha h.1, ihb h.2]
  | call f args ih =>
    intro h
    rw [Leaves, allLeaves_iff] at h
    have hargs : '\n' ∉ joinCommas (args.map write) :=
      newLine_not_mem_joinCommas (List.forall_mem_map.mpr fun a ha => ih a ha (h a ha))
    rw [write, writeAll_eq]
    simp [f.isIdentifier_name.newLine_not_mem, hargs]

end Expr

namespace CommandLine

variable {o : Options} {script : String} {random : StdGen}

/-! ## Reports -/

namespace Report

theorem toList_output (r : Report) :
    r.output.toList = ['\n'].intercalate (r.lines.map String.toList ++ [[]]) := by
  rw [output]
  induction r.lines with
  | nil => rfl
  | cons line lines ih =>
    rw [List.map_cons, String.join_cons, String.toList_append, String.toList_append, ih,
      List.map_cons, List.cons_append, List.intercalate_cons_of_ne_nil (by simp)]
    rfl

/-- **The lines of a report are the lines of its output**, if no line has the end of one in it. -/
theorem splitOn_output {r : Report} (h : ∀ line ∈ r.lines, '\n' ∉ line.toList) :
    r.output.toList.splitOn '\n' = r.lines.map String.toList ++ [[]] := by
  rw [toList_output]
  refine List.splitOn_intercalate _ ?_ (by simp)
  exact List.forall_mem_append.mpr ⟨List.forall_mem_map.mpr h,
    List.forall_mem_singleton.mpr List.not_mem_nil⟩

theorem output_eq_empty_iff {r : Report} : r.output = "" ↔ r.lines = [] := by
  rw [output]
  cases r.lines with
  | nil => exact iff_of_true rfl rfl
  | cons line lines => simp [String.join_cons]

end Report

/-- **The lines that statements show**: one for each, and the `k`-th is the text of the answer of
the statements up to the `k`-th. -/
structure Shows (es : List Expr) (s : Session) (lines : List String) : Prop where
  length_eq : lines.length = es.length
  line : ∀ k < es.length, ∃ x,
    (runStatements (es.take (k + 1)) s).1 = .ok (some x) ∧ lines[k]? = some x.text

/-- **The statements that have values show them**, whether another one fails or not. -/
theorem shows_runAll (es : List Expr) (s : Session) :
    Shows (es.take (runAll Expr.eval es s).1.length) s
      ((runAll Expr.eval es s).1.map Decimal.text) where
  length_eq := by
    rw [List.length_map, List.length_take, Nat.min_eq_left (length_runAll_le Expr.eval es s)]
  line k hk := by
    rw [List.length_take, Nat.min_eq_left (length_runAll_le Expr.eval es s)] at hk
    have hx := List.getElem?_eq_getElem hk
    refine ⟨_, ?_, by rw [List.getElem?_map, hx, Option.map_some]⟩
    rw [List.take_take, Nat.min_eq_left hk]
    exact runStatements_take hx

theorem report_eq {α : Type} (step : Expr → Evaluation α) (text : α → String) (es : List Expr)
    (s : Session) : report step text es s =
      ⟨(runAll step es s).1.map text, .ofFailure (runAll step es s).2.1⟩ :=
  rfl

/-- A run at a precision that may be asked for, of a text that is there. -/
theorem run_eq (hpos : 0 < o.precision) (hmax : o.precision ≤ Context.maxPrecision) :
    run o (some script) random = match parseProgram script with
      | .error error => fail error.message
      | .ok es => runProgram o.simplify es (.initial ⟨o.precision, .halfEven⟩ random) := by
  have hcontext : Context.ofPrecision? o.precision .halfEven = some ⟨o.precision, .halfEven⟩ :=
    if_pos ⟨hpos, hmax⟩
  cases hes : parseProgram script with
  | error error => simp only [run, hcontext, hes]
  | ok es => simp only [run, hcontext, hes]

/-- No line of a run has the end of a line in it. -/
theorem newLine_not_mem_lines (hpos : 0 < o.precision) (hmax : o.precision ≤ Context.maxPrecision) :
    ∀ line ∈ (run o (some script) random).lines, '\n' ∉ line.toList := by
  rw [run_eq hpos hmax]
  cases hes : parseProgram script with
  | error error => exact List.forall_mem_nil _
  | ok es =>
    dsimp only
    rw [runProgram]
    split
    · refine List.forall_mem_map.mpr (forall_mem_runAll fun e he s e' s' hrun => ?_)
      obtain rfl := Expr.eq_simplify_of_simplifyIn hrun
      have hprintable := Expr.printable_simplify s.env
        (Expr.printable_of_readable (readable_of_parseProgram hes e he))
      rw [Expr.text, String.toList_ofList]
      exact Expr.newLine_not_mem_write hprintable.2
    · refine List.forall_mem_map.mpr fun x _ => ?_
      rw [Decimal.text, String.toList_ofList]
      exact x.newLine_not_mem_write

/-- **A run shows the statements before the first one without a value**, which has this failure. -/
def ShowsBefore (script : String) (s : Session) (error : EvalError) (lines : List String) : Prop :=
  ∃ es n, parseProgram script = .ok es ∧ n < es.length ∧
    (runStatements (es.take (n + 1)) s).1 = .error error ∧ Shows (es.take n) s lines

/-- **What a run reports**, if running the script in `s` has this answer. -/
def Reports (r : Report) (script : String) (s : Session) :
    Except ProgramError (Option Decimal) → Prop
  | .ok v =>
    r.status = 0 ∧ r.error = none ∧ (∃ es, parseProgram script = .ok es ∧ Shows es s r.lines) ∧
      r.lines.getLast? = v.map Decimal.text ∧ (r.output = "" ↔ v = none)
  | .error (.parsing error) =>
    r.status = 1 ∧ r.error = some (ProgramError.parsing error).message ∧ r.output = ""
  | .error (.evaluation .stopped) =>
    r.status = 101 ∧ r.error = none ∧ ShowsBefore script s .stopped r.lines
  | .error (.evaluation error) =>
    r.status = 1 ∧ r.error = some (ProgramError.evaluation error).message ∧
      ShowsBefore script s error r.lines

/-- Statements that all have values are shown with them. -/
theorem reports_values {es : List Expr} {s : Session} (hes : parseProgram script = .ok es)
    (h : (runAll Expr.eval es s).2.1 = none) :
    Reports ⟨(runAll Expr.eval es s).1.map Decimal.text, .done⟩ script s
      (.ok (runAll Expr.eval es s).1.getLast?) := by
  have hshows := shows_runAll es s
  rw [length_runAll h, List.take_length] at hshows
  refine ⟨rfl, rfl, ⟨es, hes, hshows⟩, List.getLast?_map, ?_⟩
  rw [Report.output_eq_empty_iff, List.map_eq_nil_iff, List.getLast?_eq_none_iff]

/-- A statement that fails is the first that is not shown. -/
theorem reports_failure {es : List Expr} {s : Session} {error : EvalError}
    (hes : parseProgram script = .ok es) (h : (runAll Expr.eval es s).2.1 = some error) :
    Reports ⟨(runAll Expr.eval es s).1.map Decimal.text, .ofFailure (some error)⟩ script s
      (.error (.evaluation error)) := by
  have hbefore : ShowsBefore script s error ((runAll Expr.eval es s).1.map Decimal.text) := by
    obtain ⟨hlength, htake⟩ := runAll_of_error h
    refine ⟨es, _, hes, hlength, ?_, shows_runAll es s⟩
    rw [runStatements_eq, htake, h]
    rfl
  cases error with
  | stopped => exact ⟨rfl, rfl, hbefore⟩
  | _ => exact ⟨rfl, rfl, hbefore⟩

/-- **A run that evaluates reports what running the script answers.** -/
theorem reports_run (hpos : 0 < o.precision) (hmax : o.precision ≤ Context.maxPrecision)
    (hevaluate : o.simplify = false) :
    Reports (run o (some script) random) script (.initial ⟨o.precision, .halfEven⟩ random)
      (runSource script (.initial ⟨o.precision, .halfEven⟩ random)).1 := by
  generalize hs : Session.initial ⟨o.precision, .halfEven⟩ random = s
  rw [run_eq hpos hmax, hs]
  cases hes : parseProgram script with
  | error error =>
    rw [runSource, hes]
    exact ⟨rfl, rfl, rfl⟩
  | ok es =>
    have hrun : runProgram o.simplify es s = report Expr.eval Decimal.text es s := by
      rw [hevaluate]
      rfl
    rw [runSource_of_parseProgram hes, runStatements_eq]
    dsimp only
    rw [hrun, report_eq]
    cases herror : (runAll Expr.eval es s).2.1 with
    | none => exact reports_values hes herror
    | some error => exact reports_failure hes herror

theorem Reports.status_eq_zero_iff {r : Report} {s : Session}
    {answer : Except ProgramError (Option Decimal)} (h : Reports r script s answer) :
    r.status = 0 ↔ ∃ v, answer = .ok v := by
  rcases answer with (error | error) | v
  · exact iff_of_false (by simp [h.1]) (by simp)
  · cases error <;> exact iff_of_false (by simp [h.1]) (by simp)
  · exact iff_of_true h.1 ⟨v, rfl⟩

/-- **A run that simplifies** shows each statement simplified as if it were alone, up to the first
one at which the program stops. -/
theorem run_simplify (hpos : 0 < o.precision) (hmax : o.precision ≤ Context.maxPrecision)
    (hsimplify : o.simplify = true) {es : List Expr} (hes : parseProgram script = .ok es) :
    let env : Environment := .initial ⟨o.precision, .halfEven⟩
    ((∀ e ∈ es, ¬ (e.simplify env).Stops) →
      run o (some script) random = ⟨es.map fun e => (e.simplify env).text, .done⟩) ∧
    (∀ before e after, es = before ++ e :: after → (∀ e ∈ before, ¬ (e.simplify env).Stops) →
      (e.simplify env).Stops →
      run o (some script) random = ⟨before.map fun e => (e.simplify env).text, .stopped⟩) := by
  intro env
  obtain ⟨hall, hfirst⟩ := runAll_simplifyIn es (.initial ⟨o.precision, .halfEven⟩ random)
  have hrun : run o (some script) random =
      report Expr.simplifyIn Expr.text es (.initial ⟨o.precision, .halfEven⟩ random) := by
    rw [run_eq hpos hmax, hes, hsimplify]
    rfl
  rw [hrun, report_eq]
  refine ⟨fun h => ?_, fun before e after hsplit hbefore hstops => ?_⟩
  · rw [hall h]
    simp only [List.map_map]
    rfl
  · rw [hfirst before e after hsplit hbefore hstops]
    simp only [List.map_map]
    rfl

/-- **The command line agrees with the library.**  At any precision that may be asked for, without
`--simplify` a run ends well exactly when running the script in a new session has an answer, and
shows the values of the statements in order: all of them, or those before the first that fails,
whose error it reports, or those before the first that stops the program.  With `--simplify` it shows
the statements of a program simplified: one after the other in the session of the run, or each in a
new environment, which is the same; all of them, or those before the first that stops the program. -/
theorem run_agrees (o : Options) (script : String) (random : StdGen) (hpos : 0 < o.precision)
    (hmax : o.precision ≤ Context.maxPrecision) :
    let c : Context := ⟨o.precision, .halfEven⟩
    let s : Session := .initial c random
    let report := run o (some script) random
    report.output.toList.splitOn '\n' = report.lines.map String.toList ++ [[]] ∧
    (o.simplify = false →
      (report.status = 0 ↔ ∃ v, (runSource script s).1 = .ok v) ∧
      Reports report script s (runSource script s).1) ∧
    (o.simplify = true → ∀ es, parseProgram script = .ok es →
      ((∀ e ∈ es, ¬ (e.simplify (.initial c)).Stops) →
        report.status = 0 ∧ report.error = none ∧
        (∃ es', Expr.simplifyAllIn es s = (.ok es', s) ∧ report.lines = es'.map Expr.text) ∧
        report.lines = es.map fun e => (e.simplify (.initial c)).text) ∧
      (∀ before e after, es = before ++ e :: after →
        (∀ e ∈ before, ¬ (e.simplify (.initial c)).Stops) → (e.simplify (.initial c)).Stops →
        report.status = 101 ∧ report.error = none ∧
        report.lines = before.map fun e => (e.simplify (.initial c)).text)) := by
  intro c s report
  refine ⟨Report.splitOn_output (newLine_not_mem_lines hpos hmax), fun hevaluate => ?_,
    fun hsimplify es hes => ?_⟩
  · have h : Reports report script s (runSource script s).1 := reports_run hpos hmax hevaluate
    exact ⟨h.status_eq_zero_iff, h⟩
  · obtain ⟨hall, hfirst⟩ := run_simplify hpos hmax hsimplify hes
    refine ⟨fun h => ?_, fun before e after hsplit hbefore hstops => ?_⟩
    · have hreport : report = _ := hall h
      rw [hreport]
      refine ⟨rfl, rfl, ⟨_, Expr.simplifyAllIn_of_not_stops h, ?_⟩, rfl⟩
      rw [List.map_map]
      rfl
    · have hreport : report = _ := hfirst before e after hsplit hbefore hstops
      rw [hreport]
      exact ⟨rfl, rfl, rfl⟩

/-- A program whose second statement fails. -/
def lateFailure : String :=
  "x = 2\n1 / (x - 2)\nx"

/-- Its statements. -/
def lateFailureStatements : List Expr :=
  [.call .define [.var "x", .number ⟨2, 0⟩],
    .binary .divide (.number ⟨1, 0⟩) (.binary .minus (.var "x") (.number ⟨2, 0⟩)), .var "x"]

theorem parseProgram_lateFailure : parseProgram lateFailure = .ok lateFailureStatements :=
  parseProgram_eq_ok_iff.mpr ⟨[⟨.identifier "x", 1⟩, ⟨.symbol .equals, 1⟩, ⟨.number ⟨2, 0⟩, 1⟩,
    ⟨.newLine, 2⟩, ⟨.number ⟨1, 0⟩, 2⟩, ⟨.symbol .slash, 2⟩, ⟨.symbol .leftParen, 2⟩,
    ⟨.identifier "x", 2⟩, ⟨.symbol .minus, 2⟩, ⟨.number ⟨2, 0⟩, 2⟩, ⟨.symbol .rightParen, 2⟩,
    ⟨.newLine, 3⟩, ⟨.identifier "x", 3⟩], by cbv, by cbv⟩

/-- Evaluated, it shows one line and a division by zero; simplified, it shows three lines. -/
theorem run_agrees_lateFailure :
    (run ⟨lateFailure, false, false, 5⟩ (some lateFailure) (mkStdGen 0)).error =
      some "division by zero" ∧
    (∃ es n, parseProgram lateFailure = .ok es ∧ n < es.length ∧
      Shows (es.take n) (.initial ⟨5, .halfEven⟩ (mkStdGen 0))
        (run ⟨lateFailure, false, false, 5⟩ (some lateFailure) (mkStdGen 0)).lines) ∧
    (run ⟨lateFailure, false, true, 5⟩ (some lateFailure) (mkStdGen 0)).lines =
      ["define(x, 2)", "(1 / (x - 2))", "x"] := by
  have hanswer : (runSource lateFailure (.initial ⟨5, .halfEven⟩ (mkStdGen 0))).1 =
      .error (.evaluation .divisionByZero) := by
    rw [runSource_of_parseProgram parseProgram_lateFailure]
    rfl
  have hrun := (run_agrees ⟨lateFailure, false, false, 5⟩ lateFailure (mkStdGen 0) (by decide)
    (by decide)).2.1 rfl
  rw [hanswer] at hrun
  obtain ⟨-, -, herror, es, n, hes, hn, -, hshows⟩ := hrun
  have hgoes : ∀ e ∈ lateFailureStatements,
      ¬ (e.simplify (.initial ⟨5, .halfEven⟩)).Stops := by
    refine List.forall_mem_cons.mpr ⟨?_, List.forall_mem_cons.mpr ⟨?_,
      List.forall_mem_singleton.mpr ?_⟩⟩
    · change ¬ (Expr.call .define [.var "x", .number ⟨2, 0⟩]).Stops
      simp [Expr.StopsAt, Builtin.targets]
    · change ¬ (Expr.binary .divide (.number ⟨1, 0⟩)
        (.binary .minus (.var "x") (.number ⟨2, 0⟩))).Stops
      simp [Expr.StopsAt]
    · exact Expr.not_stops_var "x"
  have hsimplified := ((run_agrees ⟨lateFailure, false, true, 5⟩ lateFailure (mkStdGen 0)
    (by decide) (by decide)).2.2 rfl _ parseProgram_lateFailure).1 hgoes
  refine ⟨herror, ⟨es, n, hes, hn, hshows⟩, hsimplified.2.2.2.trans ?_⟩
  rfl

/-- A statement that takes ten to the greatest power there is a scale for, and multiplies it by one
after it was multiplied by ten. -/
def overlongProduct : String :=
  "1 * (10 * power(power(1e524288, 4194304), 4194304))"

/-- Its tree. -/
def overlongStatement : Expr :=
  .binary .times (.number .one) (.binary .times (.number ⟨10, 0⟩) (.call .power
    [.call .power [.number ⟨1, -524288⟩, .number ⟨4194304, 0⟩], .number ⟨4194304, 0⟩]))

theorem parseProgram_overlongProduct : parseProgram overlongProduct = .ok [overlongStatement] :=
  parseProgram_eq_ok_iff.mpr ⟨[⟨.number ⟨1, 0⟩, 1⟩, ⟨.symbol .star, 1⟩, ⟨.symbol .leftParen, 1⟩,
    ⟨.number ⟨10, 0⟩, 1⟩, ⟨.symbol .star, 1⟩, ⟨.identifier "power", 1⟩, ⟨.symbol .leftParen, 1⟩,
    ⟨.identifier "power", 1⟩, ⟨.symbol .leftParen, 1⟩, ⟨.number ⟨1, -524288⟩, 1⟩,
    ⟨.symbol .comma, 1⟩, ⟨.number ⟨4194304, 0⟩, 1⟩, ⟨.symbol .rightParen, 1⟩, ⟨.symbol .comma, 1⟩,
    ⟨.number ⟨4194304, 0⟩, 1⟩, ⟨.symbol .rightParen, 1⟩, ⟨.symbol .rightParen, 1⟩], by cbv, by cbv⟩

/-- A power of a power of ten is computed ahead of time, if its scale fits. -/
theorem foldCall_power (c : Context) {s : Int} (h : Decimal.ScaleFits (s * 4194304)) :
    Expr.foldCall c .power [.number ⟨1, s⟩, .number ⟨4194304, 0⟩] =
      .number ⟨1, s * 4194304⟩ := by
  have hpower : Decimal.power c ⟨1, s⟩ ⟨4194304, 0⟩ = .ok ⟨1, s * 4194304⟩ := by
    have hfits : Decimal.ScaleFits (s * |4194304|) := by simpa using h
    rw [Decimal.power_eq c ⟨1, s⟩ (n := 4194304) (by decide), if_pos hfits, if_pos (by decide),
      Decimal.exactPower, Integer.pow_eq, one_pow]
    rfl
  change Expr.literalOr _ (Decimal.power c _ _) = _
  rw [hpower, Expr.literalOr]

theorem simplify_overlongStatement (c : Context) :
    overlongStatement.simplify (.initial c) = Expr.oneTimesTen := by
  have hinner : Expr.simplify (.initial c)
      (.call .power [.number ⟨1, -524288⟩, .number ⟨4194304, 0⟩]) =
        .number ⟨1, -2199023255552⟩ := by
    rw [Expr.simplify_call (by decide)]
    exact foldCall_power c (by decide)
  have houter : Expr.simplify (.initial c) (.call .power
      [.call .power [.number ⟨1, -524288⟩, .number ⟨4194304, 0⟩], .number ⟨4194304, 0⟩]) =
        .number ⟨1, -9223372036854775808⟩ := by
    rw [Expr.simplify_call (by decide), Expr.simplifyAll, hinner]
    exact foldCall_power c (by decide)
  rw [overlongStatement, Expr.simplify, Expr.simplify, Expr.simplify, Expr.simplify, houter]
  rfl

/-- **A run that simplifies need not end well**: it stops at a product with a factor of one. -/
theorem not_run_simplify_overlongProduct :
    parseProgram overlongProduct = .ok [overlongStatement] ∧
    (run ⟨overlongProduct, false, true, 34⟩ (some overlongProduct) (mkStdGen 0)).status = 101 := by
  refine ⟨parseProgram_overlongProduct, ?_⟩
  have hstops : (overlongStatement.simplify (.initial ⟨34, .halfEven⟩)).Stops := by
    rw [simplify_overlongStatement]
    exact Expr.stops_oneTimesTen
  rw [(run_simplify (o := ⟨overlongProduct, false, true, 34⟩) (by decide) (by decide) rfl
    parseProgram_overlongProduct).2 [] _ [] rfl (List.forall_mem_nil _) hstops]
  rfl

end CommandLine

end Abacus
