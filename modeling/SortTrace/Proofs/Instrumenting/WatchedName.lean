import SortTrace.Proofs.Instrumenting.Beside
import SortTrace.Proofs.Written.ReadBack

/-!
# The name of the watched list

The settings admit every name in ASCII. To the scanner such a name is a word, but the words of the
language are looked up among the keywords first, which the settings do not do. A name that is no
keyword is read as itself, and the call that is put after a line at the margin is read as a call
that logs the list. With a keyword for a name neither is so (`Script.watched_name_read`).
-/

namespace SortTrace.Script

open Scan Source Text

variable {var line : String} {k : Keyword}

namespace Scan

theorem wordLexeme_eq_name : wordLexeme var = .name var ↔ Keyword.ofText? var = none := by
  rw [wordLexeme]
  split <;> simp_all

/-- A name in ASCII is read as one word. -/
theorem tokenize_identifier (hvar : isIdentifier var = true) : tokenize var #[]
    = .ok (onLine 1 [wordLexeme var, .mark Layout.newline, .mark Layout.finish]) := by
  obtain ⟨c, cs, chars, hc, hcs⟩ := word_of_isIdentifier hvar
  have read : Reads 0 var.toList [wordLexeme var] [] := by
    have read : Reads 0 (c :: cs) _ [] := Reads.word hc (List.all_eq_true.mpr hcs) rfl
    rwa [← chars, String.ofList_toList] at read
  have word : (wordLexeme var).isLayout = false := by
    rw [wordLexeme]
    split <;> rfl
  have begins : c ∉ leads := by
    intro lead
    simp only [leads, List.mem_cons, List.not_mem_nil, or_false] at lead
    rcases lead with rfl | rfl | rfl | rfl | rfl | rfl <;> cases hc
  exact tokenize_of_reads ⟨c, cs, chars, begins⟩ ⟨[], _, rfl, word⟩ read (Nat.zero_le _)

/-- A line of a call has the words of the call, behind what its indentation opens. -/
theorem tokenize_callLine {text : String} {width : Nat} {u : Scan} (hvar : isIdentifier var = true)
    (hmargin : margin 0 text.toList = (width, callText var))
    (hindent : (start text.toList).indent #[] width = .ok u) :
    tokenize text #[] = .ok (u.tokens.reverse
      ++ (callTokens 1 (wordLexeme var) ++ lastTokens u.widths.length 1)) := by
  rw [← List.append_nil (callText var)] at hmargin
  have read := run_callText hvar (s := start text.toList) rfl rfl hmargin hindent
  obtain ⟨shifts, widths, rfl, -, -⟩ := indent_shifts hindent
  rw [tokenize, read, run_of_rest rfl]
  change Except.ok (Scan.finish _ _) = _
  rw [finish_eq, endLine, if_neg]
  · simp [push, logWords, callTokens, start, reportedLine]
  · exact Bool.not_eq_true _ ▸ atLayout_word rfl rfl

/-- After a line at the margin the call stands at the margin, or in a block of its own if that line
opens one. -/
theorem tokenize_logCall (hvar : isIdentifier var = true) (hline : indentation line = []) :
    tokenize (logCall line var) #[] = .ok (if opensBlock line
      then ⟨.mark Layout.indent, 1⟩ :: (callTokens 1 (wordLexeme var) ++ lastTokens 1 1)
      else callTokens 1 (wordLexeme var) ++ lastTokens 0 1) := by
  have chars := toList_logCall line var
  rw [hline, List.nil_append] at chars
  have stops : isMargin 'l' = false := rfl
  split
  · next opens =>
    rw [if_pos opens] at chars
    have hmargin : margin 0 (logCall line var).toList = (4, callText var) := by
      rw [chars]
      exact margin_blockIndentation stops
    have hindent (cs : List Char) : (start cs).indent #[] 4
        = .ok ({ start cs with widths := [4] }.push #[] (.mark Layout.indent)) := rfl
    exact tokenize_callLine hvar hmargin (hindent _)
  · next opens =>
    rw [if_neg opens, List.nil_append] at chars
    have hmargin : margin 0 (logCall line var).toList = (0, callText var) := by
      rw [chars]
      exact margin_stops stops
    exact tokenize_callLine hvar hmargin (indent_same rfl)

end Scan

/-- Behind an opened block there is no statement. -/
theorem parseTokens_indent {ts : List Token} {program : List Stmt} :
    parseTokens (⟨.mark Layout.indent, 1⟩ :: ts) ≠ .ok program :=
  nofun

theorem parseTokens_call : parseTokens (callTokens 1 (.name var) ++ lastTokens 0 1)
    = .ok [.logCall 1 var] :=
  rfl

/-- A keyword in parentheses is no name. -/
theorem parseTokens_call_keyword :
    parseTokens (callTokens 1 (.mark k) ++ lastTokens 0 1) ≠ .ok [.logCall 1 var] := by
  cases k <;> nofun

/-- A name that the settings admit is read as that name if and only if it is no keyword, and then
so is the call that logs it, after every line that begins at the margin and opens no block. -/
theorem watched_name_read (hvar : isIdentifier var = true) :
    (tokenize var #[] = .ok (onLine 1 [.name var, .mark Layout.newline, .mark Layout.finish]) ↔
      Keyword.ofText? var = none) ∧
    ∀ line, indentation line = [] → (parseProgram (logCall line var) #[] = .ok [.logCall 1 var] ↔
      Keyword.ofText? var = none ∧ opensBlock line = false) := by
  constructor
  · rw [tokenize_identifier hvar, ← wordLexeme_eq_name]
    simp [onLine]
  · intro line hline
    rw [parseProgram_of_tokenize (tokenize_logCall hvar hline)]
    cases opens : opensBlock line with
    | true => simpa using parseTokens_indent
    | false =>
      simp only [Bool.false_eq_true, if_false, and_true]
      cases keyword : Keyword.ofText? var with
      | none =>
        rw [wordLexeme_eq_name.mpr keyword]
        simpa using parseTokens_call
      | some k =>
        have word : wordLexeme var = .mark k := by rw [wordLexeme, keyword]
        rw [word]
        simpa using parseTokens_call_keyword

/-- A name with a keyword in it is none itself. -/
theorem watched_name_read_if_2 : isIdentifier "if_2" = true ∧
    tokenize "if_2" #[]
      = .ok (onLine 1 [.name "if_2", .mark Layout.newline, .mark Layout.finish]) ∧
    indentation "if_2[0] = 1" = [] ∧
    parseProgram (logCall "if_2[0] = 1" "if_2") #[] = .ok [.logCall 1 "if_2"] := by
  have admitted : isIdentifier "if_2" = true := by decide
  have margin : indentation "if_2[0] = 1" = [] := by decide
  obtain ⟨name, call⟩ := watched_name_read admitted
  exact ⟨admitted, name.mpr (by decide), margin, (call _ margin).mpr (by decide)⟩

/-- The settings admit a keyword, which is not read as a name. -/
theorem keyword_admitted : ¬ ∀ s : Settings, s.check = .ok () → tokenize s.watched #[]
    = .ok (onLine 1 [.name s.watched, .mark Layout.newline, .mark Layout.finish]) := by
  intro read
  have tokens := read { Settings.standard with watched := "if" } (by decide)
  rw [tokenize_identifier (by decide)] at tokens
  exact absurd tokens (by decide)

end SortTrace.Script
