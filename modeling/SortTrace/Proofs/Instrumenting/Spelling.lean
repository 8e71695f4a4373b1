import SortTrace.Proofs.Instrumenting.Text
import SortTrace.Proofs.Instrumenting.Tokens

/-!
# How lexemes are spelled, and what stands between them

`Spells word l` says that the text `word`, no more and no less, is the lexeme `l`: a name or a
keyword, a number, a string with its quotes, an operator or a piece of punctuation. The functions
that cut a word off the text cut the same word off where it stands alone, and no word ends in a
newline (`Spells.ends`). `Skips` is what may stand between words: blanks, comments, line ends that a
backslash takes away, and other line ends where these are admitted.
-/

namespace SortTrace.Script

/-- The name that the lexeme is. -/
def Lexeme.name? : Lexeme → Option String
  | .name s => some s
  | _ => none

namespace Scan

open Text

/-- The lexeme of a word. -/
def wordLexeme (word : String) : Lexeme :=
  match Keyword.ofText? word with
  | some k => .mark k
  | none => .name word

/-- The text is the lexeme written out. -/
inductive Spells : List Char → Lexeme → Prop
  | word {c : Char} {cs : List Char} (hc : startsWord c = true)
    (hcs : ∀ x ∈ cs, continuesWord x = true) :
    Spells (c :: cs) (wordLexeme (String.ofList (c :: cs)))
  | number {map : Array Nat} {n : Nat} {c : Char} {cs : List Char} {real : Bool} {l : Lexeme}
    (hc : c.isDigit = true ∨ c = '.') (h : numberBody cs (c == '.') [c] = (c :: cs, real, []))
    (hl : numberLexeme map n (c :: cs) real = .ok l) : Spells (c :: cs) l
  | string {quote : Char} {cs content : List Char} {lines : Nat} (hq : quote = '"' ∨ quote = '\'')
    (h : stringBody quote cs [] 0 = some (content, lines, [])) :
    Spells (quote :: cs) (.str (String.ofList content))
  | sign {p : List Char × Lexeme} (h : p ∈ spellingsByLength) : Spells p.1 p.2

variable {map : Array Nat} {c quote : Char} {cs content : List Char} {l : Lexeme} {n : Nat}

/-! ## Words by themselves -/

theorem stringBody_alone {r : List Char × Nat × List Char}
    (h : stringBody quote cs content n = some r) :
    ∃ word, cs = word ++ r.2.2 ∧ stringBody quote word content n = some (r.1, r.2.1, []) ∧
      word.getLast? = some quote := by
  fun_induction stringBody quote cs content n with
  | case1 | case2 | case4 => cases h
  | case3 cs content n hquote =>
    cases h
    refine ⟨[quote], rfl, ?_, rfl⟩
    rw [stringBody.eq_def]
    simp only [hquote, if_true, if_false]
  | case12 c cs content n hnew hquote hslash ih =>
    obtain ⟨word, rfl, alone, last⟩ := ih h
    refine ⟨c :: word, rfl, ?_, by rw [List.getLast?_cons, last]; rfl⟩
    rw [stringBody.eq_def]
    simpa only [hnew, hquote, hslash, if_false] using alone
  | case5 | case6 | case7 | case8 | case9 | case10 | case11 =>
    rename_i ih
    obtain ⟨word, rfl, alone, last⟩ := ih h
    refine ⟨_ :: _ :: word, rfl, ?_, by rw [List.getLast?_cons, List.getLast?_cons, last]; rfl⟩
    simp_all [stringBody]

theorem numberBody_alone (cs : List Char) (real : Bool) (taken : List Char) :
    ∃ word, cs = word ++ (numberBody cs real taken).2.2 ∧
      (numberBody cs real taken).1 = taken.reverse ++ word ∧
      numberBody word real taken
        = ((numberBody cs real taken).1, (numberBody cs real taken).2.1, []) := by
  fun_induction numberBody cs real taken with
  | case1 real taken => exact ⟨[], rfl, (List.append_nil _).symm, rfl⟩
  | case2 c cs real taken hc ih =>
    obtain ⟨word, hword, hdigits, alone⟩ := ih
    refine ⟨c :: word, congrArg (c :: ·) hword, ?_, ?_⟩
    · rw [hdigits, List.reverse_cons, List.append_assoc]
      rfl
    · rw [numberBody.eq_def]
      simp only [hc, if_true]
      exact alone
  | case3 c cs real taken hdigit hc ih =>
    obtain ⟨word, hword, hdigits, alone⟩ := ih
    refine ⟨c :: word, congrArg (c :: ·) hword, ?_, ?_⟩
    · rw [hdigits, List.reverse_cons, List.append_assoc]
      rfl
    · rw [numberBody.eq_def]
      simp only [if_neg hdigit, if_pos hc]
      exact alone
  | case4 c real taken hdigit hpoint hexp d cs hd ih =>
    obtain ⟨word, hword, hdigits, alone⟩ := ih
    refine ⟨c :: d :: word, congrArg (c :: d :: ·) hword, ?_, ?_⟩
    · rw [hdigits, List.reverse_cons, List.reverse_cons, List.append_assoc, List.append_assoc]
      rfl
    · rw [numberBody.eq_def]
      simp only [hdigit, hpoint, hexp, hd, if_true, if_false]
      exact alone
  | case5 | case6 | case7 => exact ⟨[], rfl, (List.append_nil _).symm, rfl⟩

theorem spellings_ne_nil : ∀ p ∈ spellingsByLength, p.1 ≠ [] := by
  decide

theorem spellings_isLayout : ∀ p ∈ spellingsByLength, p.2.isLayout = false := by
  decide

theorem spellings_name? : ∀ p ∈ spellingsByLength, p.2.name? = none := by
  decide

theorem numberLexeme_isLayout {digits : List Char} {real : Bool}
    (h : numberLexeme map n digits real = .ok l) : l.isLayout = false := by
  unfold numberLexeme at h
  dsimp only at h
  split at h
  · split at h <;> cases h
    rfl
  · split at h <;> cases h
    rfl

theorem operator?_alone {rest : List Char} (h : operator? c cs = some (l, rest)) :
    ∃ word, c :: cs = word ++ rest ∧ Spells word l := by
  obtain ⟨p, more, hp, hmore, heq⟩ := operator?_spelling h
  obtain ⟨rfl, rfl⟩ := Prod.mk.inj heq
  have member := List.mem_of_find?_eq_some hp
  refine ⟨p.1, ?_, .sign member⟩
  obtain ⟨d, spelling, hd⟩ := List.exists_cons_of_ne_nil (spellings_ne_nil p member)
  rw [hd, List.cons_append] at hmore
  obtain ⟨-, rfl⟩ := List.cons.inj hmore
  rw [hd, List.length_cons, Nat.add_sub_cancel, List.drop_left, ← hmore, List.cons_append]

/-! ## What words are -/

namespace Spells

variable {word : List Char}

theorem isLayout (h : Spells word l) : l.isLayout = false := by
  cases h with
  | word =>
    rw [wordLexeme]
    split <;> rfl
  | number _ _ hl => exact numberLexeme_isLayout hl
  | string => rfl
  | sign h => exact spellings_isLayout _ h

/-- A word ends in a character that is no newline. -/
theorem ends (h : Spells word l) : ∃ last, word.getLast? = some last ∧ last ≠ '\n' := by
  have onLine {word : List Char} (hne : word ≠ []) (hword : '\n' ∉ word) :
      ∃ last, word.getLast? = some last ∧ last ≠ '\n' := by
    refine ⟨_, List.getLast?_eq_some_getLast hne, ?_⟩
    intro heq
    exact hword (heq ▸ List.getLast_mem hne)
  cases h with
  | word hc hcs =>
    refine onLine (List.cons_ne_nil _ _) fun h => ?_
    rcases List.mem_cons.mp h with rfl | h
    · cases hc
    · cases hcs _ h
  | @number _ _ c cs real _ hc h =>
    have none := (numberBody_splits cs (c == '.') [c]).count
    rw [h, List.count_nil, Nat.add_zero, List.count_eq_zero] at none
    refine onLine (List.cons_ne_nil _ _) fun h => ?_
    rcases List.mem_cons.mp h with rfl | h
    · simp at hc
    · exact none h
  | @string quote cs content lines hq h =>
    obtain ⟨word, hword, -, last⟩ := stringBody_alone h
    rw [List.append_nil] at hword
    refine ⟨quote, by rw [List.getLast?_cons, hword, last]; rfl, ?_⟩
    rcases hq with rfl | rfl <;> decide
  | sign h => exact onLine (spellings_ne_nil _ h) (spellings_onLine _ h)

end Spells

/-! ## Between words -/

/-- The text from `cs` up to `rest` holds no word. Line ends stand there only behind a backslash,
unless `lines` holds. -/
inductive Skips (lines : Prop) : List Char → List Char → Prop
  | refl (cs : List Char) : Skips lines cs cs
  | blank {c : Char} {cs rest : List Char} (hc : c = ' ' ∨ c = '\t' ∨ c = '\r' ∨ c = '\x0c')
    (h : Skips lines cs rest) : Skips lines (c :: cs) rest
  | comment {cs rest : List Char} (h : Skips lines (afterComment cs) rest) :
    Skips lines ('#' :: cs) rest
  | joined {cs next rest : List Char} (hc : continuation? cs = some next)
    (h : Skips lines next rest) : Skips lines ('\\' :: cs) rest
  | newline {cs rest : List Char} (hl : lines) (h : Skips lines cs rest) :
    Skips lines ('\n' :: cs) rest

namespace Skips

variable {lines lines' : Prop} {mid rest : List Char}

theorem trans (h : Skips lines cs mid) (h' : Skips lines mid rest) : Skips lines cs rest := by
  induction h with
  | refl => exact h'
  | blank hc _ ih => exact .blank hc (ih h')
  | comment _ ih => exact .comment (ih h')
  | joined hc _ ih => exact .joined hc (ih h')
  | newline hl _ ih => exact .newline hl (ih h')

theorem mono (h : Skips lines cs rest) (hl : lines → lines') : Skips lines' cs rest := by
  induction h with
  | refl cs => exact .refl cs
  | blank hc _ ih => exact .blank hc ih
  | comment _ ih => exact .comment ih
  | joined hc _ ih => exact .joined hc ih
  | newline h _ ih => exact .newline (hl h) ih

/-- The blanks at the start of a line. -/
theorem margin (width : Nat) (cs : List Char) : Skips lines cs (margin width cs).2 := by
  fun_induction Scan.margin width cs with
  | case1 width cs ih => exact .blank (by simp) ih
  | case2 width cs ih => exact .blank (by simp) ih
  | case3 width cs ih => exact .blank (by simp) ih
  | case4 width cs => exact .refl cs

end Skips

end Scan

end SortTrace.Script
