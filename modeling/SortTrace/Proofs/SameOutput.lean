import SortTrace.Proofs.Instrumenting.Names
import SortTrace.Proofs.Instrumenting.SamePrograms

/-!
# What a source prints with its calls

Logging calls leave the printed text as it is: `captured_ofSource`. They are put after lines that
seem to write, whatever these lines are part of, so this holds only where each of these lines ends a
logical line. Inside brackets a call may become one more item of a list
(`captured_ofSource_brackets`).
-/

namespace SortTrace

open Script Source Scan

/-- **A source prints the same with its calls.** When every line that gets a call ends a logical
line, and both the source and the text with the calls are programs that run to their ends, they
capture the same text. -/
theorem captured_ofSource {source var : String} {P P' : List Stmt} {limits : Limits}
    {rounds rounds' : Nat} {breakpoints : List Nat} {room : Option Nat} {m m' : Machine}
    (hsource : Text.occurs Builtin.logState.name.toList source.toList = false)
    (hvar : isIdentifier var = true)
    (hclosed : ∀ before line after, Text.lines source = before ++ line :: after →
      isMutation line var = true → (closed? (before ++ [line])).isSome = true)
    (hread : parseProgram source #[] = .ok P)
    (hread' : parseProgram (Instrumented.ofSource source var).text
      (Instrumented.ofSource source var).origins.toArray = .ok P')
    (hrun : runProgram limits rounds P (Machine.start (Session.start .report breakpoints room))
      = .ok () m)
    (hrun' : runProgram limits rounds' P' (Machine.start (Session.start .report breakpoints room))
      = .ok () m') : m'.session.captured = m.session.captured := by
  obtain ⟨ts, htokens, hparse⟩ := tokenize_of_parseProgram hread
  have unlogged : Stmt.UnloggedBlock P := parseTokens_unlogged hsource htokens hparse
  have whole : Stmt.pruneBlock Stmt.onlyLogs P = P := pruneBlock_eq_self P unlogged.logs
  have same : Stmt.pruneBlock Stmt.onlyLogs P' = P :=
    (parseProgram_sameBlock hvar hclosed hread hread').trans whole
  have free : Stmt.anyBinds Builtin.logState.name P' = false := by
    rw [← anyBinds_prune (fun s hs => Stmt.binds_of_onlyLogs Builtin.logState.name hs) P', same]
    exact unlogged.binds
  rw [← same] at hrun
  exact (captured_prune free hrun' hrun).symm

/-- The text that a run has captured at its end. -/
def capturedAtEnd? : EStateM.Result Stop Machine Unit → Option String
  | .ok _ m => some m.session.captured
  | .error _ _ => none

theorem ok_of_capturedAtEnd? {r : EStateM.Result Stop Machine Unit} {text : String}
    (h : capturedAtEnd? r = some text) : ∃ m, r = .ok () m ∧ m.session.captured = text := by
  cases r with
  | ok u m => exact ⟨m, rfl, Option.some.inj h⟩
  | error e m => cases h

set_option maxRecDepth 2000 in
/-- A call inside the brackets of a list is one more item of it. -/
theorem captured_ofSource_brackets :
    let source := "arr = [1]\nx = [1,\n  # arr[ =\n]\nprint(x)\n"
    let s := Instrumented.ofSource source "arr"
    let start := Machine.start (Session.start .report [] none)
    Text.occurs Builtin.logState.name.toList source.toList = false ∧ isIdentifier "arr" = true ∧
      ∃ P P' m m', parseProgram source #[] = .ok P ∧
        parseProgram s.text s.origins.toArray = .ok P' ∧
        runProgram ⟨5, none⟩ 5 P start = .ok () m ∧ runProgram ⟨5, none⟩ 5 P' start = .ok () m' ∧
        m.session.captured = "[1]\n" ∧ m'.session.captured = "[1, None]\n" := by
  intro source s start
  have tokens : tokenize source #[] = .ok [⟨.name "arr", 1⟩, ⟨.mark Punct.assign, 1⟩,
      ⟨.mark Punct.lbracket, 1⟩, ⟨.int 1, 1⟩, ⟨.mark Punct.rbracket, 1⟩, ⟨.mark Layout.newline, 1⟩,
      ⟨.name "x", 2⟩, ⟨.mark Punct.assign, 2⟩, ⟨.mark Punct.lbracket, 2⟩, ⟨.int 1, 2⟩,
      ⟨.mark Punct.comma, 2⟩, ⟨.mark Punct.rbracket, 4⟩, ⟨.mark Layout.newline, 4⟩,
      ⟨.name "print", 5⟩, ⟨.mark Punct.lparen, 5⟩, ⟨.name "x", 5⟩, ⟨.mark Punct.rparen, 5⟩,
      ⟨.mark Layout.newline, 5⟩, ⟨.mark Layout.finish, 6⟩] := by decide +kernel
  have tokens' : tokenize s.text s.origins.toArray = .ok [⟨.name "arr", 1⟩, ⟨.mark Punct.assign, 1⟩,
      ⟨.mark Punct.lbracket, 1⟩, ⟨.int 1, 1⟩, ⟨.mark Punct.rbracket, 1⟩, ⟨.mark Layout.newline, 1⟩,
      ⟨.name "x", 2⟩, ⟨.mark Punct.assign, 2⟩, ⟨.mark Punct.lbracket, 2⟩, ⟨.int 1, 2⟩,
      ⟨.mark Punct.comma, 2⟩, ⟨.name "log_state", 3⟩, ⟨.mark Punct.lparen, 3⟩, ⟨.name "arr", 3⟩,
      ⟨.mark Punct.rparen, 3⟩, ⟨.mark Punct.rbracket, 4⟩, ⟨.mark Layout.newline, 4⟩,
      ⟨.name "print", 5⟩, ⟨.mark Punct.lparen, 5⟩, ⟨.name "x", 5⟩, ⟨.mark Punct.rparen, 5⟩,
      ⟨.mark Layout.newline, 5⟩, ⟨.mark Layout.finish, 6⟩] := by decide +kernel
  let program (items : List Expr) : List Stmt := [
    .assign 1 [.name "arr"] (.list [.literal (.int 1)]), .assign 2 [.name "x"] (.list items),
    .expr 5 (.call (.name "print") [.name "x"] [])]
  have reads : parseProgram source #[] = .ok (program [.literal (.int 1)]) :=
    (parseProgram_of_tokenize tokens).trans rfl
  have reads' : parseProgram s.text s.origins.toArray = .ok (program [.literal (.int 1),
      .call (.name Builtin.logState.name) [.name "arr"] []]) :=
    (parseProgram_of_tokenize tokens').trans rfl
  let call : Expr := .call (.name Builtin.logState.name) [.name "arr"] []
  have output : capturedAtEnd? (runProgram ⟨5, none⟩ 5 (program [.literal (.int 1)]) start)
      = some "[1]\n" := by
    decide +kernel
  have output' : capturedAtEnd? (runProgram ⟨5, none⟩ 5 (program [.literal (.int 1), call]) start)
      = some "[1, None]\n" := by
    decide +kernel
  obtain ⟨m, runs, printed⟩ := ok_of_capturedAtEnd? output
  obtain ⟨m', runs', printed'⟩ := ok_of_capturedAtEnd? output'
  exact ⟨by decide, by decide, _, _, m, m', reads, reads', runs, runs', printed, printed'⟩

/-- A call as the first statement of a branch. -/
theorem captured_ofSource_branch :
    let source := "arr = [1]\nif arr[0] == 1:\n    print(2)"
    let s := Instrumented.ofSource source "arr"
    let start := Machine.start (Session.start .report [] none)
    ∃ P P' m m', parseProgram source #[] = .ok P ∧
      parseProgram s.text s.origins.toArray = .ok P' ∧
      runProgram ⟨5, none⟩ 5 P start = .ok () m ∧ runProgram ⟨5, none⟩ 6 P' start = .ok () m' ∧
      m.session.captured = "2\n" ∧ m'.session.captured = m.session.captured := by
  intro source s start
  have tokens : tokenize source #[] = .ok [⟨.name "arr", 1⟩, ⟨.mark Punct.assign, 1⟩,
      ⟨.mark Punct.lbracket, 1⟩, ⟨.int 1, 1⟩, ⟨.mark Punct.rbracket, 1⟩, ⟨.mark Layout.newline, 1⟩,
      ⟨.mark Keyword.ifKw, 2⟩, ⟨.name "arr", 2⟩, ⟨.mark Punct.lbracket, 2⟩, ⟨.int 0, 2⟩,
      ⟨.mark Punct.rbracket, 2⟩, ⟨.mark Punct.eq, 2⟩, ⟨.int 1, 2⟩, ⟨.mark Punct.colon, 2⟩,
      ⟨.mark Layout.newline, 2⟩, ⟨.mark Layout.indent, 3⟩, ⟨.name "print", 3⟩,
      ⟨.mark Punct.lparen, 3⟩, ⟨.int 2, 3⟩, ⟨.mark Punct.rparen, 3⟩, ⟨.mark Layout.newline, 3⟩,
      ⟨.mark Layout.dedent, 3⟩, ⟨.mark Layout.finish, 3⟩] := by decide +kernel
  have tokens' : tokenize s.text s.origins.toArray = .ok [⟨.name "arr", 1⟩, ⟨.mark Punct.assign, 1⟩,
      ⟨.mark Punct.lbracket, 1⟩, ⟨.int 1, 1⟩, ⟨.mark Punct.rbracket, 1⟩, ⟨.mark Layout.newline, 1⟩,
      ⟨.mark Keyword.ifKw, 2⟩, ⟨.name "arr", 2⟩, ⟨.mark Punct.lbracket, 2⟩, ⟨.int 0, 2⟩,
      ⟨.mark Punct.rbracket, 2⟩, ⟨.mark Punct.eq, 2⟩, ⟨.int 1, 2⟩, ⟨.mark Punct.colon, 2⟩,
      ⟨.mark Layout.newline, 2⟩, ⟨.mark Layout.indent, 2⟩, ⟨.name "log_state", 2⟩,
      ⟨.mark Punct.lparen, 2⟩, ⟨.name "arr", 2⟩, ⟨.mark Punct.rparen, 2⟩, ⟨.mark Layout.newline, 2⟩,
      ⟨.name "print", 3⟩, ⟨.mark Punct.lparen, 3⟩, ⟨.int 2, 3⟩, ⟨.mark Punct.rparen, 3⟩,
      ⟨.mark Layout.newline, 3⟩, ⟨.mark Layout.dedent, 3⟩, ⟨.mark Layout.finish, 3⟩] := by
    decide +kernel
  let program (calls : List Stmt) : List Stmt := [
    .assign 1 [.name "arr"] (.list [.literal (.int 1)]),
    .branch 2 [(.compare (.index (.name "arr") (.literal (.int 0))) [(.eq, .literal (.int 1))],
      calls ++ [.expr 3 (.call (.name "print") [.literal (.int 2)] [])])] []]
  have reads : parseProgram source #[] = .ok (program []) :=
    (parseProgram_of_tokenize tokens).trans rfl
  have reads' : parseProgram s.text s.origins.toArray = .ok (program [.logCall 2 "arr"]) :=
    (parseProgram_of_tokenize tokens').trans rfl
  have lines : Text.lines source = ["arr = [1]", "if arr[0] == 1:", "    print(2)"] := by decide
  have closed : (closed? ["arr = [1]", "if arr[0] == 1:"]).isSome = true := by decide +kernel
  have output : capturedAtEnd? (runProgram ⟨5, none⟩ 5 (program []) start) = some "2\n" := by
    decide +kernel
  have output' : capturedAtEnd? (runProgram ⟨5, none⟩ 6 (program [.logCall 2 "arr"]) start)
      = some "2\n" := by
    decide +kernel
  obtain ⟨m, runs, printed⟩ := ok_of_capturedAtEnd? output
  obtain ⟨m', runs', -⟩ := ok_of_capturedAtEnd? output'
  refine ⟨_, _, m, m', reads, reads', runs, runs', printed, ?_⟩
  refine captured_ofSource (by decide) (by decide) (fun before line after hls hm => ?_) reads reads'
    runs runs'
  rw [lines] at hls
  obtain _ | ⟨_, _ | ⟨_, _ | ⟨_, _ | before⟩⟩⟩ := before <;> cases hls
  · exact absurd hm (by decide)
  · exact closed
  · exact absurd hm (by decide)

end SortTrace
