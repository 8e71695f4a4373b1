import Mathlib.Data.List.TakeWhile
import Mathlib.Order.Bounds.Basic
import SortTrace.Proofs.Headings.Blocks
import SortTrace.Proofs.Headings.Scanned

/-!
# The functions that are listed

The functions of a source are listed by the look of its lines, without reading it as a program. Of a
source that is a program the list has the functions whose heading stands on one line, each by the
part of its name that is written in ASCII and with its first line (`mem_definitions_iff`), unless a
line inside a string literal looks like such a heading.
-/

namespace SortTrace

open Text Script Script.Scan

/-! ## Lines that seem to define a function -/

namespace Source

variable {ls : List (List Char)} {line rest : List Char} {found : List (String × Nat)}
  {name : String} {k m n : Nat}

/-- The places of the lines that seem to define a function of the name. -/
def namedAt (ls : List (List Char)) (name : String) : Set Nat :=
  {k | ∃ line, ls[k]? = some line ∧ definedName? line = some name}

theorem zero_mem_namedAt : 0 ∈ namedAt (line :: ls) name ↔ definedName? line = some name := by
  simp [namedAt]

theorem succ_mem_namedAt : k + 1 ∈ namedAt (line :: ls) name ↔ k ∈ namedAt ls name := by
  simp [namedAt]

/-- A line of another name does not matter. -/
theorem isLeast_namedAt_cons (h : definedName? line ≠ some name) :
    (∃ k, IsLeast (namedAt (line :: ls) name) k ∧ m = n + k) ↔
      ∃ k, IsLeast (namedAt ls name) k ∧ m = n + 1 + k := by
  constructor
  · rintro ⟨k, ⟨hk, least⟩, rfl⟩
    cases k with
    | zero => exact absurd (zero_mem_namedAt.mp hk) h
    | succ k =>
      refine ⟨k, ⟨succ_mem_namedAt.mp hk, fun j hj => ?_⟩, by omega⟩
      exact Nat.le_of_succ_le_succ (least (succ_mem_namedAt.mpr hj))
  · rintro ⟨k, ⟨hk, least⟩, rfl⟩
    refine ⟨k + 1, ⟨succ_mem_namedAt.mpr hk, fun j hj => ?_⟩, by omega⟩
    cases j with
    | zero => exact absurd (zero_mem_namedAt.mp hj) h
    | succ j => exact Nat.succ_le_succ (least (succ_mem_namedAt.mp hj))

/-- A name is listed with the first line that seems to define it, if it was not found before. -/
theorem mem_definitionsFrom : (name, m) ∈ definitionsFrom n found ls ↔ (name, m) ∈ found ∨
    (∀ p ∈ found, p.1 ≠ name) ∧ ∃ k, IsLeast (namedAt ls name) k ∧ m = n + k := by
  induction ls generalizing n found with
  | nil =>
    have nowhere : ¬ ∃ k, IsLeast (namedAt [] name) k ∧ m = n + k := by
      rintro ⟨k, ⟨⟨line, hline, -⟩, -⟩, -⟩
      cases hline
    simp [definitionsFrom, nowhere]
  | cons line ls ih =>
    rw [definitionsFrom]
    split
    · next other hline =>
      by_cases hname : other = name
      · subst hname
        have first : IsLeast (namedAt (line :: ls) other) 0 :=
          ⟨zero_mem_namedAt.mpr hline, fun _ _ => Nat.zero_le _⟩
        have here : (∃ k, IsLeast (namedAt (line :: ls) other) k ∧ m = n + k) ↔ m = n :=
          ⟨fun ⟨_, hk, hm⟩ => hm.trans (congrArg (n + ·) (hk.unique first)),
            fun hm => ⟨0, first, hm⟩⟩
        rw [here]
        split
        · next known =>
          obtain ⟨p, hp, same⟩ := List.any_eq_true.mp known
          have known : ¬ ∀ p ∈ found, p.1 ≠ other := fun h => h p hp (eq_of_beq same)
          simp only [ih, known, false_and]
        · next unknown =>
          have unknown : ∀ p ∈ found, p.1 ≠ other := fun p hp same =>
            unknown (List.any_eq_true.mpr ⟨p, hp, beq_iff_eq.mpr same⟩)
          have known : ¬ ∀ p ∈ found ++ [(other, n)], p.1 ≠ other := by simp
          rw [ih, and_iff_right unknown, List.mem_append, List.mem_singleton, Prod.mk.injEq]
          simp only [known, true_and, false_and, or_false]
      · rw [isLeast_namedAt_cons fun h => hname (Option.some.inj (hline.symm.trans h))]
        split
        · exact ih
        · rw [ih, List.forall_mem_append, List.forall_mem_singleton, List.mem_append,
            List.mem_singleton, Prod.mk.injEq]
          simp [hname, Ne.symm hname]
    · next hline =>
      rw [ih, isLeast_namedAt_cons (hline ▸ nofun)]

/-- The list has every name that a line seems to define, with the first such line. -/
theorem mem_definitions {text : List Char} : (name, n) ∈ definitions text ↔
    IsLeast ((· + 1) '' namedAt (splitLines text) name) n := by
  have mono : StrictMono fun k : Nat => k + 1 := fun _ _ => Nat.succ_lt_succ
  have listed : (name, n) ∈ definitions text ↔
      ∃ k, IsLeast (namedAt (splitLines text) name) k ∧ n = k + 1 := by
    rw [definitions, List.mem_mergeSort, mem_definitionsFrom]
    simp [Nat.add_comm]
  rw [listed]
  constructor
  · rintro ⟨k, least, rfl⟩
    exact mono.map_isLeast.mpr least
  · intro least
    obtain ⟨k, -, rfl⟩ := least.1
    exact ⟨k, mono.map_isLeast.mp least, rfl⟩

/-! ## Lines with headings -/

/-- The part of a name that is listed: the letters, digits and underscores of ASCII that it begins
with. -/
def listedName (name : String) : String :=
  String.ofList (name.toList.takeWhile isNameChar)

/-- On the line stand the word before a function, a space and the name, with nothing but blanks
before them and between them. The name begins with a character that is listed. -/
def HasHeading (line : List Char) (name : String) : Prop :=
  listedName name ≠ "" ∧ ∃ ws ws' behind,
    line = ws ++ 'd' :: 'e' :: 'f' :: ' ' :: (ws' ++ (name.toList ++ behind)) ∧
      (∀ w ∈ ws, Text.isBlank w = true) ∧ ∀ w ∈ ws', Text.isBlank w = true

theorem continuesWord_of_isNameChar {c : Char} (h : isNameChar c = true) :
    continuesWord c = true := by
  rcases Bool.or_eq_true_iff.mp h with alphanum | underscore
  · exact continuesWord_of_alphanum alphanum
  · rw [continuesWord, underscore, Bool.true_or, Bool.true_or]

/-- Characters that are listed go on with a word. -/
theorem takeWhile_word (c : Char) (cs : List Char) :
    (c :: cs.takeWhile continuesWord).takeWhile isNameChar = (c :: cs).takeWhile isNameChar := by
  have both : (fun x => decide (isNameChar x = true ∧ continuesWord x = true)) = isNameChar := by
    funext x
    exact Bool.eq_iff_iff.mpr
      (decide_eq_true_iff.trans ⟨And.left, fun hx => ⟨hx, continuesWord_of_isNameChar hx⟩⟩)
  rw [List.takeWhile_cons, List.takeWhile_cons, List.takeWhile_takeWhile, both]

/-- A line with a heading seems to define a function. -/
theorem HasHeading.isSome (h : HasHeading line name) : (definedName? line).isSome = true := by
  obtain ⟨listed, ws, ws', behind, rfl, hws, hws'⟩ := h
  cases hname : name.toList with
  | nil =>
    rw [listedName, hname] at listed
    exact absurd rfl listed
  | cons c cs =>
    have hc : isNameChar c = true := by
      by_contra other
      rw [listedName, hname, List.takeWhile_cons, if_neg other] at listed
      exact absurd rfl listed
    refine Option.isSome_iff_exists.mpr ⟨String.ofList ((c :: (cs ++ behind)).takeWhile isNameChar),
      definedName?_eq_some.mpr ⟨ws, ws', c, cs ++ behind, rfl, hws, hws', hc, ?_⟩⟩
    exact String.toList_ofList

end Source

/-! ## Lines that the scanner comes to -/

section Headings

open Source

variable {text : String} {line : List Char} {name : String} {heads : List (Nat × String)}
  {k : Nat} {s u : Scan}

/-- A line that is reached and seems to define a function has the heading of that function. -/
theorem exists_heading (hrun : (start text.toList).run #[] = .ok u) (hs : AtLine text.toList k s)
    (outline : Outline (u.finish #[]).reverse heads)
    (hline : (splitLines text.toList)[k]? = some line) (hname : definedName? line = some name) :
    ∃ y, (k + 1, y) ∈ heads ∧ listedName y = name ∧ HasHeading line y := by
  obtain ⟨ws, ws', c, cs, rfl, hws, hws', hc, hname⟩ := definedName?_eq_some.mp hname
  obtain ⟨tail, hrest, ends, onLine⟩ := hs.rest_eq hline
  have blanks : BlankOnLine ws := fun w hw => ⟨hws w hw, onLine w (by simp [hw])⟩
  have blanks' : BlankOnLine ws' := fun w hw => ⟨hws' w hw, onLine w (by simp [hw])⟩
  have before : s.rest = ws ++ 'd' :: 'e' :: 'f' :: ' ' :: (ws' ++ c :: (cs ++ tail)) := by
    simpa using hrest
  obtain ⟨l, newer, older, htokens, hword⟩ :=
    run_heading blanks blanks' hc before (run_of_comesTo hs.comes ▸ hrun)
  obtain ⟨more, hmore⟩ := finish_suffix u
  have whole : (u.finish #[]).reverse
      = more ++ newer ++ [⟨l, s.line⟩] ++ ⟨.mark Keyword.defKw, s.line⟩ :: older := by
    rw [← hmore, htokens]
    simp
  obtain ⟨y, m, last, hmem⟩ := outline.mem whole
  have read : l = .name y ∧ s.line = m := by simpa using last
  have stops : ∀ x ∈ tail.head?, continuesWord x = false := fun x hx => by
    rw [ends x hx]
    decide
  have spelled : y.toList = c :: cs.takeWhile continuesWord := by
    rw [hword y (by rw [read.1]; rfl), takeWhile_append_stop stops]
  have listed : listedName y = name := by
    rw [listedName, spelled, takeWhile_word, ← hname, String.ofList_toList]
  refine ⟨y, hs.line ▸ hmem, listed, ?_, ws, ws', cs.dropWhile continuesWord, ?_, hws, hws'⟩
  · rintro nothing
    rw [← listed, nothing, List.takeWhile_cons, if_pos hc] at hname
    cases hname
  · rw [spelled, List.cons_append, List.takeWhile_append_dropWhile]

/-- The lines with the headings that are listed by the name. -/
def headingLines (text : List Char) (heads : List (Nat × String)) (name : String) : Set Nat :=
  {n | ∃ k line y, n = k + 1 ∧ (splitLines text)[k]? = some line ∧ (n, y) ∈ heads ∧
    HasHeading line y ∧ listedName y = name}

/-- Of a source that is a program the functions are listed that have a heading on one line, each by
the part of its name that is written in ASCII and with the first line of such a heading, if no line
inside a string literal looks like a heading. -/
theorem mem_definitions_iff {program : List Stmt} (h : parseProgram text #[] = .ok program)
    (hstrings : ∀ (k : Nat) (line : List Char), (splitLines text.toList)[k]? = some line →
      definedName? line ≠ none → ¬ InsideString text.toList k) (n : Nat) :
    (name, n) ∈ definitions text.toList ↔
      IsLeast (headingLines text.toList (Stmt.headings program) name) n := by
  obtain ⟨ts, htokens, hparse⟩ := tokenize_of_parseProgram h
  have outline := outline_of_parseTokens htokens hparse
  obtain ⟨u, hrun, rfl⟩ := run_of_tokenize htokens
  have reached {k : Nat} {line : List Char} {name : String}
      (hline : (splitLines text.toList)[k]? = some line) (hname : definedName? line = some name) :
      ∃ y, (k + 1, y) ∈ Stmt.headings program ∧ listedName y = name ∧ HasHeading line y := by
    obtain ⟨inside, -⟩ := List.getElem?_eq_some_iff.mp hline
    obtain ⟨s, hs⟩ := exists_atLine hrun inside (hstrings k line hline (by rw [hname]; nofun))
    exact exists_heading hrun hs outline hline hname
  have same : (· + 1) '' namedAt (splitLines text.toList) name
      = headingLines text.toList (Stmt.headings program) name := by
    ext m
    constructor
    · rintro ⟨k, ⟨line, hline, hname⟩, rfl⟩
      obtain ⟨y, hy, listed, heading⟩ := reached hline hname
      exact ⟨k, line, y, rfl, hline, hy, heading, listed⟩
    · rintro ⟨k, line, y, rfl, hline, hy, heading, listed⟩
      obtain ⟨other, hother⟩ := Option.isSome_iff_exists.mp heading.isSome
      obtain ⟨z, hz, hlisted, -⟩ := reached hline hother
      -- A line has one heading only.
      obtain rfl := outline.unique (finish_apart hrun) hy hz
      exact ⟨k, ⟨line, hline, by rw [hother, ← hlisted, listed]⟩, rfl⟩
  rw [mem_definitions, same]

/-- Two functions that are listed by one name, with the line of the first. -/
theorem mem_definitions_accented :
    let text := "def n\u00e9():\n pass\ndef n():\n pass\n"
    let program : List Stmt := [.define 1 "n\u00e9" [] [.pass 2], .define 3 "n" [] [.pass 4]]
    parseProgram text #[] = .ok program ∧ StringsOnLine text ∧
      IsLeast (headingLines text.toList (Stmt.headings program) "n") 1 := by
  intro text program
  have tokens : tokenize text #[] = .ok [⟨.mark Keyword.defKw, 1⟩, ⟨.name "n\u00e9", 1⟩,
      ⟨.mark Punct.lparen, 1⟩, ⟨.mark Punct.rparen, 1⟩, ⟨.mark Punct.colon, 1⟩,
      ⟨.mark Layout.newline, 1⟩, ⟨.mark Layout.indent, 2⟩, ⟨.mark Keyword.passKw, 2⟩,
      ⟨.mark Layout.newline, 2⟩, ⟨.mark Layout.dedent, 3⟩, ⟨.mark Keyword.defKw, 3⟩,
      ⟨.name "n", 3⟩, ⟨.mark Punct.lparen, 3⟩, ⟨.mark Punct.rparen, 3⟩, ⟨.mark Punct.colon, 3⟩,
      ⟨.mark Layout.newline, 3⟩, ⟨.mark Layout.indent, 4⟩, ⟨.mark Keyword.passKw, 4⟩,
      ⟨.mark Layout.newline, 4⟩, ⟨.mark Layout.dedent, 5⟩, ⟨.mark Layout.finish, 5⟩] := by
    decide +kernel
  have reads : parseProgram text #[] = .ok program := (parseProgram_of_tokenize tokens).trans rfl
  have strings : StringsOnLine text := by decide +kernel
  exact ⟨reads, strings, (mem_definitions_iff reads (fun _ _ _ _ => not_insideString strings) 1).mp
    (by decide +kernel)⟩

/-- The list has the functions of the program and no others, each with its first line. -/
def ListsFunctions (text : String) (program : List Stmt) : Prop :=
  ∀ (name : String) (n : Nat), (name, n) ∈ definitions text.toList ↔
    IsLeast {m | (m, name) ∈ Stmt.headings program} n

/-- A line inside a string literal is taken for a heading, a heading with a tab is not, and a name
is cut at its first character outside ASCII. -/
theorem not_listsFunctions :
    (∃ program, parseProgram "s = \"\\\ndef f\"\n" #[] = .ok program ∧
      ¬ ListsFunctions "s = \"\\\ndef f\"\n" program) ∧
    (∃ program, parseProgram "def\tf():\n pass\n" #[] = .ok program ∧
      ¬ ListsFunctions "def\tf():\n pass\n" program) ∧
    ∃ program, parseProgram "def n\u00e9():\n pass\n" #[] = .ok program ∧
      ¬ ListsFunctions "def n\u00e9():\n pass\n" program := by
  have literal : tokenize "s = \"\\\ndef f\"\n" #[] = .ok [⟨.name "s", 1⟩, ⟨.mark Punct.assign, 1⟩,
      ⟨.str "def f", 2⟩, ⟨.mark Layout.newline, 2⟩, ⟨.mark Layout.finish, 3⟩] := by decide +kernel
  let function (name : String) : List Token := [⟨.mark Keyword.defKw, 1⟩, ⟨.name name, 1⟩,
    ⟨.mark Punct.lparen, 1⟩, ⟨.mark Punct.rparen, 1⟩, ⟨.mark Punct.colon, 1⟩,
    ⟨.mark Layout.newline, 1⟩, ⟨.mark Layout.indent, 2⟩, ⟨.mark Keyword.passKw, 2⟩,
    ⟨.mark Layout.newline, 2⟩, ⟨.mark Layout.dedent, 3⟩, ⟨.mark Layout.finish, 3⟩]
  have tab : tokenize "def\tf():\n pass\n" #[] = .ok (function "f") := by decide +kernel
  have accented : tokenize "def n\u00e9():\n pass\n" #[] = .ok (function "n\u00e9") := by
    decide +kernel
  refine ⟨⟨[.assign 1 [.name "s"] (.literal (.str "def f"))], ?_, fun lists => ?_⟩,
    ⟨[.define 1 "f" [] [.pass 2]], ?_, fun lists => ?_⟩,
    ⟨[.define 1 "n\u00e9" [] [.pass 2]], ?_, fun lists => ?_⟩⟩
  · exact (parseProgram_of_tokenize literal).trans rfl
  · have least := (lists "f" 2).mp (by decide +kernel)
    exact absurd least.1 (by decide)
  · exact (parseProgram_of_tokenize tab).trans rfl
  · have least : IsLeast {m | (m, "f") ∈ Stmt.headings [.define 1 "f" [] [.pass 2]]} 1 := by
      simp [Stmt.headings, Stmt.headingsOf, Stmt.inBlock, Stmt.inner, Stmt.heading?]
    exact absurd ((lists "f" 1).mpr least) (by decide +kernel)
  · exact (parseProgram_of_tokenize accented).trans rfl
  · have least := (lists "n" 1).mp (by decide +kernel)
    exact absurd least.1 (by decide)

end Headings

end SortTrace
