import SortTrace.Script.Scan
import SortTrace.Source.Instrumented

/-!
# Lines of a text with calls

A text is read here as the lines before some place, each with its end, and the lines from there on
(`joined_append`). Up to the same place the text with the calls is made of the same lines and the
calls after them, and a line of it is reported as the line it came from (`reportedLine_kept`,
`reportedLine_call`).

The lines of the text with the calls are taken here with what is known of them, as one list
(`Interleaving`). The three lists that are built in one pass over a source are its columns
(`Instrumented.ofSource_eq`).
-/

namespace SortTrace.Text

/-! ## Occurrences -/

section Occurs

variable {c : Char} {part whole : List Char}

/-- A text occurs in another if it stands between two others. -/
theorem occurs_of_infix (h : part <:+: whole) : occurs part whole = true := by
  induction whole with
  | nil => rw [List.infix_nil.mp h]; rfl
  | cons c cs ih =>
    rw [occurs, Bool.or_eq_true]
    rcases List.infix_cons_iff.mp h with front | inside
    · exact .inl (List.isPrefixOf_iff_prefix.mpr front)
    · exact .inr (ih inside)

theorem mem_of_occurs (h : occurs part whole = true) (hc : c ∈ part) : c ∈ whole := by
  induction whole with
  | nil =>
    rw [occurs, List.isEmpty_iff] at h
    rwa [← h]
  | cons d whole ih =>
    rw [occurs, Bool.or_eq_true] at h
    rcases h with front | inside
    · exact (List.isPrefixOf_iff_prefix.mp front).subset hc
    · exact List.mem_cons_of_mem _ (ih inside)

/-- What occurs in a text has its characters from the text. -/
theorem occurs_of_not_mem (hc : c ∈ part) (h : c ∉ whole) : occurs part whole = false :=
  Bool.eq_false_iff.mpr fun found => h (mem_of_occurs found hc)

end Occurs

/-! ## Lines -/

variable {ls before after : List String} {line : String}

/-- The lines with newlines between them. -/
def joined (ls : List String) : List Char :=
  joinLines (ls.map String.toList)

/-- The lines with a newline behind each. -/
def ended (ls : List String) : List Char :=
  ls.flatMap fun line => line.toList ++ ['\n']

theorem joined_cons (h : ls ≠ []) :
    joined (line :: ls) = line.toList ++ '\n' :: joined ls := by
  cases ls with
  | nil => exact absurd rfl h
  | cons next ls => rfl

theorem joined_append (h : after ≠ []) :
    joined (before ++ after) = ended before ++ joined after := by
  induction before with
  | nil => rfl
  | cons line before ih =>
    have more : before ++ after ≠ [] := fun hnil => h (List.append_eq_nil_iff.mp hnil).2
    rw [List.cons_append, joined_cons more, ih, ended, ended, List.flatMap_cons]
    simp

theorem ended_append : ended (before ++ after) = ended before ++ ended after :=
  List.flatMap_append

/-- The newline behind the last line ends it. -/
theorem joined_newline (cs : List Char) (h : ls ≠ []) :
    joined ls ++ '\n' :: cs = ended ls ++ cs := by
  induction ls with
  | nil => exact absurd rfl h
  | cons line ls ih =>
    cases ls with
    | nil => simp [joined, joinLines, ended]
    | cons next ls =>
      have more : next :: ls ≠ [] := List.cons_ne_nil _ _
      rw [joined_cons more, List.append_assoc, List.cons_append, ih more, ended, ended,
        List.flatMap_cons]
      simp

theorem toList_unlines (ls : List String) : (unlines ls).toList = joined ls := by
  rw [unlines, String.toList_intercalate]
  induction ls with
  | nil => rfl
  | cons line ls ih =>
    cases ls with
    | nil => exact List.intercalate_singleton ..
    | cons next ls =>
      rw [joined_cons (List.cons_ne_nil _ _), ← ih, List.map_cons, List.map_cons,
        List.intercalate_cons_cons, List.append_assoc]
      rfl

theorem toList_lines (s : String) : s.toList = joined (lines s) := by
  have same : (lines s).map String.toList = splitLines s.toList := by
    rw [lines, List.map_map]
    have each : (splitLines s.toList).map (String.toList ∘ String.ofList)
        = (splitLines s.toList).map id :=
      List.map_congr_left fun cs _ => String.toList_ofList
    rwa [List.map_id] at each
  rw [joined, same, join_splitLines]

theorem splitLines_onLine (cs : List Char) : ∀ line ∈ splitLines cs, '\n' ∉ line := by
  induction cs with
  | nil => simp [splitLines]
  | cons c cs ih =>
    rw [splitLines]
    split
    · intro line hline
      rcases List.mem_cons.mp hline with rfl | hline
      · exact List.not_mem_nil
      · exact ih line hline
    · next hc =>
      cases hs : splitLines cs with
      | nil => exact absurd hs (splitLines_ne_nil cs)
      | cons first rest =>
        rw [hs] at ih
        intro line hline
        rcases List.mem_cons.mp hline with rfl | hline
        · intro hmem
          rcases List.mem_cons.mp hmem with heq | hmem
          · exact hc heq.symm
          · exact ih first (List.mem_cons_self ..) hmem
        · exact ih line (List.mem_cons_of_mem _ hline)

/-- Lines are what their joint text is cut into. -/
theorem lines_unlines (hne : ls ≠ []) (h : ∀ line ∈ ls, '\n' ∉ line.toList) :
    lines (unlines ls) = ls := by
  have first {cs : List Char} (hcs : '\n' ∉ cs) :
      splitLines cs = [cs] ∧ ∀ rest, splitLines (cs ++ '\n' :: rest) = cs :: splitLines rest := by
    induction cs with
    | nil => exact ⟨rfl, fun _ => rfl⟩
    | cons c cs ih =>
      rw [List.mem_cons, not_or] at hcs
      obtain ⟨alone, behind⟩ := ih hcs.2
      refine ⟨?_, fun rest => ?_⟩
      · rw [splitLines, if_neg (Ne.symm hcs.1), alone]
      · rw [List.cons_append, splitLines, if_neg (Ne.symm hcs.1), behind]
  have cut : splitLines (joined ls) = ls.map String.toList := by
    induction ls with
    | nil => exact absurd rfl hne
    | cons line ls ih =>
      obtain ⟨hline, hls⟩ := List.forall_mem_cons.mp h
      obtain ⟨alone, behind⟩ := first hline
      by_cases hne : ls = []
      · rw [hne]
        exact alone
      · rw [joined_cons hne, behind, ih hne hls, List.map_cons]
  rw [lines, toList_unlines, cut, List.map_map]
  exact (List.map_congr_left fun _ _ => String.ofList_toList).trans (List.map_id ls)

theorem lines_onLine {s : String} (h : line ∈ lines s) : '\n' ∉ line.toList := by
  obtain ⟨cs, hcs, rfl⟩ := List.mem_map.mp h
  rw [String.toList_ofList]
  exact splitLines_onLine _ cs hcs

theorem lines_ne_nil (s : String) : lines s ≠ [] := by
  intro h
  exact splitLines_ne_nil _ (List.map_eq_nil_iff.mp h)

theorem count_joined (h : ls ≠ []) (hls : ∀ line ∈ ls, '\n' ∉ line.toList) :
    (joined ls).count '\n' + 1 = ls.length := by
  induction ls with
  | nil => exact absurd rfl h
  | cons line ls ih =>
    have alone : line.toList.count '\n' = 0 := List.count_eq_zero.mpr (hls line (by simp))
    cases ls with
    | nil => exact congrArg (· + 1) alone
    | cons next ls =>
      have others := ih (List.cons_ne_nil _ _) fun l hl => hls l (List.mem_cons_of_mem _ hl)
      rw [joined_cons (List.cons_ne_nil _ _), List.count_append, List.count_cons_self,
        List.length_cons, alone, ← others]
      omega

end SortTrace.Text

namespace SortTrace.Source

open Script (reportedLine)

variable {var : String} {n : Nat} {before after chunk : List String} {line : String}

/-- Does the line of a number in a source write an item of the list `var`? -/
def writesLine (ls : List String) (var : String) (n : Nat) : Bool :=
  ls[n - 1]?.any fun line => isMutation line var

theorem writesLine_append :
    writesLine (before ++ line :: after) var (before.length + 1) = isMutation line var := by
  rw [writesLine, Nat.add_sub_cancel, List.getElem?_append_right (Nat.le_refl _), Nat.sub_self]
  rfl

theorem reportedLine_append {xs ys : List Nat} :
    reportedLine (xs ++ n :: ys).toArray (xs.length + 1) = n := by
  rw [reportedLine, Nat.add_sub_cancel, List.getElem?_toArray,
    List.getElem?_append_right (Nat.le_refl _), Nat.sub_self]
  rfl

/-! ## Lines with their origins -/

/-- A line of an instrumented source. -/
structure Line where
  text : String
  /-- The number of the source line it came from, from one. -/
  origin : Nat
  /-- Is it a logging call that was put in? -/
  injected : Bool
deriving DecidableEq

/-- Source lines with logging calls between them. -/
abbrev Interleaving : Type := List Line

namespace Interleaving

/-- Source lines with the logging calls after them, the first of which has the number `n`. -/
def ofLinesFrom (var : String) (n : Nat) : List String → Interleaving
  | [] => []
  | line :: rest =>
    let kept : Line := ⟨line, n, false⟩
    if isMutation line var then
      kept :: ⟨logCall line var, n, true⟩ :: ofLinesFrom var (n + 1) rest
    else kept :: ofLinesFrom var (n + 1) rest

/-- The lines. -/
def lines (s : Interleaving) : List String :=
  s.map Line.text

/-- The source line of each line. -/
def origins (s : Interleaving) : List Nat :=
  s.map Line.origin

/-- The positions of the calls that were put in, where the first line is at the position `first`. -/
def injectionsFrom (first : Nat) (s : Interleaving) : List Nat :=
  (s.zipIdx first).filterMap fun p => if p.1.injected then some p.2 else none

/-- The lines, their origins and the positions of the calls, each by themselves. -/
def columns (s : Interleaving) : Instrumented :=
  ⟨s.lines, s.origins, s.injectionsFrom 0⟩

theorem ofLinesFrom_append : ofLinesFrom var n (before ++ after)
    = ofLinesFrom var n before ++ ofLinesFrom var (n + before.length) after := by
  induction before generalizing n with
  | nil => rfl
  | cons line before ih =>
    have next : n + (before.length + 1) = n + 1 + before.length := by omega
    rw [List.cons_append, ofLinesFrom, ofLinesFrom, ih, List.length_cons, next]
    split <;> rfl

/-- A line with the call after it, if it writes. -/
theorem ofLinesFrom_cons : ofLinesFrom var n (line :: after)
    = ⟨line, n, false⟩ :: ((if isMutation line var then [⟨logCall line var, n, true⟩] else [])
      ++ ofLinesFrom var (n + 1) after) := by
  rw [ofLinesFrom]
  split <;> rfl

theorem lines_append {s t : Interleaving} : lines (s ++ t) = s.lines ++ t.lines :=
  List.map_append

theorem lines_quiet (h : ∀ line ∈ chunk, isMutation line var = false) :
    (ofLinesFrom var n chunk).lines = chunk := by
  induction chunk generalizing n with
  | nil => rfl
  | cons line chunk ih =>
    have others := ih (n := n + 1) fun l hl => h l (List.mem_cons_of_mem _ hl)
    rw [ofLinesFrom_cons, h line (List.mem_cons_self ..)]
    exact congrArg (line :: ·) others

theorem length_quiet (h : ∀ line ∈ chunk, isMutation line var = false) :
    (ofLinesFrom var n chunk).length = chunk.length := by
  have texts := congrArg List.length (lines_quiet (n := n) h)
  rwa [lines, List.length_map] at texts

theorem lines_written (h : isMutation line var = true) :
    (ofLinesFrom var n (before ++ [line])).lines
      = (ofLinesFrom var n before).lines ++ [line, logCall line var] := by
  rw [ofLinesFrom_append, ofLinesFrom_cons, if_pos h, lines_append]
  rfl

/-- A line of the source is reported as itself. -/
theorem reportedLine_kept :
    reportedLine (ofLinesFrom var 1 (before ++ line :: after)).origins.toArray
      ((ofLinesFrom var 1 before).length + 1) = before.length + 1 := by
  have place : (ofLinesFrom var 1 before).length
      = ((ofLinesFrom var 1 before).map Line.origin).length := by
    rw [List.length_map]
  rw [ofLinesFrom_append, ofLinesFrom_cons, origins, List.map_append, place, Nat.add_comm 1]
  exact reportedLine_append

/-- A call is reported as the line before it. -/
theorem reportedLine_call (h : isMutation line var = true) :
    reportedLine (ofLinesFrom var 1 (before ++ line :: after)).origins.toArray
      ((ofLinesFrom var 1 before).length + 1 + 1) = before.length + 1 := by
  have place : (ofLinesFrom var 1 before).length + 1
      = ((ofLinesFrom var 1 before).map Line.origin ++ [before.length + 1]).length := by
    rw [List.length_append, List.length_map]
    rfl
  rw [ofLinesFrom_append, ofLinesFrom_cons, if_pos h, origins, List.map_append, place,
    Nat.add_comm 1, List.map_cons, List.append_cons]
  exact reportedLine_append

end Interleaving

namespace Instrumented

open Interleaving

/-- One pass puts the columns of the lines behind what is there. -/
theorem interleave_eq (lines : Array String) (origins injections : Array Nat) (ls : List String) :
    interleave var n lines origins injections ls
      = ⟨lines.toList ++ (ofLinesFrom var n ls).lines,
        origins.toList ++ (ofLinesFrom var n ls).origins,
        injections.toList ++ (ofLinesFrom var n ls).injectionsFrom lines.size⟩ := by
  induction ls generalizing n lines origins injections with
  | nil => simp [interleave, ofLinesFrom, Interleaving.lines, Interleaving.origins, injectionsFrom]
  | cons line ls ih =>
    rw [interleave, ofLinesFrom]
    split <;> simp [ih, Interleaving.lines, Interleaving.origins, injectionsFrom]

/-- An instrumented source consists of the columns of its lines. -/
theorem ofSource_eq (source var : String) :
    ofSource source var = (ofLinesFrom var 1 (Text.lines source)).columns := by
  rw [ofSource, interleave_eq]
  rfl

/-- The text with the calls is read line by line. -/
theorem tokenize_ofSource (source var : String) :
    Script.tokenize (ofSource source var).text (ofSource source var).origins.toArray
      = ((Script.Scan.start (Text.joined (ofLinesFrom var 1 (Text.lines source)).lines)).run
          (ofLinesFrom var 1 (Text.lines source)).origins.toArray).map
        fun s => s.finish (ofLinesFrom var 1 (Text.lines source)).origins.toArray := by
  rw [ofSource_eq, Script.tokenize, text, Text.toList_unlines]
  rfl

end Instrumented

end SortTrace.Source
