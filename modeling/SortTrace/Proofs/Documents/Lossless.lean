import Mathlib.Data.List.DropRight
import SortTrace.Proofs.Documents.Ascii
import SortTrace.Proofs.Documents.Reading
import SortTrace.Proofs.Literals

/-!
# Documents on one line are read back

What the reader makes of the line on which a document without doubles is written is the document
(`Report.Json.oneLine_lossless`). A part of a document is taken by its reader whatever follows that
cannot belong to a number (`Takes`), so that commas and brackets mark where it ends. Strings are
taken character by character: each has one escape or stands for itself.
-/

namespace SortTrace.Report.Json

open Decimal

/-! ## Characters and strings -/

variable {tail rest : List Char} {c : Char}

theorem hexValue?_hexDigit (n : Nat) : hexValue? (hexDigit n) = some (n % 16) := by
  have lt : n % 16 < 16 := Nat.mod_lt _ (by decide)
  have all : ∀ k < 16, hexValue? (Nat.digitChar k) = some k := by decide
  exact all _ lt

/-- The escape of a unit is read as the unit. -/
theorem readUnit_unitEscape {n : Nat} (hn : n < 0x10000) (tail : List Char) :
    readUnit ((unitEscape n).tail.tail ++ tail) = some (n, tail) := by
  have value : n / 4096 % 16 * 4096 + n / 256 % 16 * 256 + n / 16 % 16 * 16 + n % 16 = n := by
    omega
  simp only [unitEscape, List.tail_cons, List.cons_append, List.nil_append, readUnit,
    hexValue?_hexDigit, bind, Option.bind, pure, value]

/-- A unit that is no surrogate is a character. -/
theorem readUnits_one {n : Nat} (hn : n < 0x10000) (plain : n < 0xd800 ∨ 0xdfff < n)
    (tail : List Char) :
    readUnits ((unitEscape n).tail.tail ++ tail) = some (Char.ofNat n, tail) := by
  simp only [readUnits, readUnit_unitEscape hn, bind, Option.bind, pure, if_pos plain]

/-- A pair of surrogates is a character. -/
theorem readUnits_two {high low : Nat} (hh : 0xd800 ≤ high ∧ high < 0xdc00)
    (hl : 0xdc00 ≤ low ∧ low ≤ 0xdfff) (tail : List Char) :
    readUnits ((unitEscape high).tail.tail ++ (unitEscape low ++ tail))
      = some (Char.ofNat (0x10000 + (high - 0xd800) * 0x400 + (low - 0xdc00)), tail) := by
  have surrogate : ¬ (high < 0xd800 ∨ 0xdfff < high) := by omega
  have second : unitEscape low ++ tail = '\\' :: 'u' :: ((unitEscape low).tail.tail ++ tail) := rfl
  simp only [readUnits, readUnit_unitEscape (show high < 0x10000 by omega), second, bind,
    Option.bind, pure, if_neg surrogate, readUnit_unitEscape (show low < 0x10000 by omega),
    if_pos (show high < 0xdc00 ∧ 0xdc00 ≤ low ∧ low ≤ 0xdfff by omega)]

/-- A surrogate is no character. -/
theorem not_surrogate (c : Char) : c.toNat < 0xd800 ∨ 0xdfff < c.toNat := by
  rcases c.valid with low | ⟨high, -⟩
  · exact .inl low
  · exact .inr high

theorem readChar_unitEscape (n : Nat) (tail : List Char) :
    readChar (unitEscape n ++ tail) = readUnits ((unitEscape n).tail.tail ++ tail) := rfl

theorem readChar_requiredEscape {escape : List Char} (h : requiredEscape? c = some escape)
    (tail : List Char) : readChar (escape ++ tail) = some (c, tail) := by
  have control (hc : c.toNat < 0x20) : readChar (unitEscape c.toNat ++ tail) = some (c, tail) := by
    rw [readChar_unitEscape, readUnits_one (by omega) (not_surrogate c), Char.ofNat_toNat]
  simp only [requiredEscape?] at h
  split_ifs at h with _ _ _ _ _ _ _ hc <;> cases h <;> first | exact control hc | (subst c; rfl)

/-- A character is read back from its escape, or from itself. -/
theorem readChar_asciiChar (c : Char) (tail : List Char) :
    readChar (asciiChar c ++ tail) = some (c, tail) := by
  rw [asciiChar]
  split
  · next escape h => exact readChar_requiredEscape h tail
  · next h =>
    obtain ⟨quote, backslash, printable⟩ := plain_of_requiredEscape h
    simp only
    split_ifs with ascii basic
    · have plain : ¬ (c = '"' ∨ c.toNat < 0x20) := by
        rintro (rfl | control)
        · exact quote rfl
        · omega
      change readChar (c :: tail) = _
      rw [readChar, if_neg backslash, if_neg plain]
    · rw [readChar_unitEscape, readUnits_one basic (not_surrogate c), Char.ofNat_toNat]
    · have limit : c.toNat < 0x110000 := by
        rcases c.valid with low | ⟨-, high⟩
        · exact low.trans (by decide)
        · exact high
      have joined : 0x10000 + (0xd800 + (c.toNat - 0x10000) / 0x400 - 0xd800) * 0x400
          + (0xdc00 + (c.toNat - 0x10000) % 0x400 - 0xdc00) = c.toNat := by
        omega
      rw [List.append_assoc, readChar_unitEscape, readUnits_two (by omega) (by omega), joined,
        Char.ofNat_toNat]

theorem readChars_flatMap (tail : List Char) : ∀ (cs : List Char) {fuel : Nat}, cs.length < fuel →
    readChars fuel (cs.flatMap asciiChar ++ '"' :: tail) = some (cs, tail)
  | [], fuel + 1, _ => rfl
  | c :: cs, fuel + 1, hf => by
    have here := readChar_asciiChar c (cs.flatMap asciiChar ++ '"' :: tail)
    have others := readChars_flatMap tail cs (Nat.lt_of_succ_lt_succ hf)
    rw [List.flatMap_cons, List.append_assoc]
    generalize asciiChar c ++ (cs.flatMap asciiChar ++ '"' :: tail) = text at here ⊢
    unfold readChars
    split
    · next none => cases none
    · -- a quote is not read as a character
      cases here
    · next same _ => cases same; simp only [here, others, bind, Option.bind, pure]

theorem asciiChar_ne_nil (c : Char) : asciiChar c ≠ [] := by
  intro empty
  have nothing := readChar_asciiChar c []
  rw [empty] at nothing
  cases nothing

theorem length_le_flatMap (cs : List Char) : cs.length ≤ (cs.flatMap asciiChar).length := by
  induction cs with
  | nil => exact Nat.le_refl _
  | cons c cs ih =>
    have one := List.length_pos_of_ne_nil (asciiChar_ne_nil c)
    rw [List.flatMap_cons, List.length_append, List.length_cons]
    omega

/-- A string is read back behind its opening quote. -/
theorem readString_asciiString (s : String) (tail : List Char) :
    readString ((asciiString s).toList.tail ++ tail) = some (s, tail) := by
  have long := length_le_flatMap s.toList
  rw [toList_asciiString, List.tail_cons, List.append_assoc]
  change readString (s.toList.flatMap asciiChar ++ '"' :: tail) = _
  rw [readString, readChars_flatMap]
  · rw [Option.map_some, String.ofList_toList]
  · rw [List.length_append, List.length_cons]
    omega

/-! ## Parts of documents -/

/-- What follows cannot belong to a number. -/
def Ends (tail : List Char) : Prop :=
  ∀ c ∈ tail.head?, isNumberChar c = false

theorem Ends.nil : Ends [] := nofun

theorem Ends.cons (hc : isNumberChar c = false) (tail : List Char) : Ends (c :: tail) := by
  rintro _ ⟨⟩
  exact hc

/-- The reader takes the text for `a`, whatever follows that cannot belong to a number. -/
def Takes {α : Type} (part : Reader α) (text : List Char) (a : α) : Prop :=
  ∀ tail, Ends tail → part (text ++ tail) = some (a, tail)

/-! ## Numbers -/

/-- No number is written with a needless zero. -/
theorem head_toDigits (n : Nat) :
    (Nat.toDigits 10 n).head? = some '0' → Nat.toDigits 10 n = ['0'] := by
  induction n using Nat.strongRecOn with
  | ind n ih =>
    by_cases small : n < 10
    · have digit : ∀ k < 10, (Nat.toDigits 10 k).head? = some '0' → Nat.toDigits 10 k = ['0'] := by
        decide
      exact digit n small
    · intro zero
      have shorter : n / 10 < n := Nat.div_lt_self (by omega) (by decide)
      rw [Nat.toDigits_of_base_le (by decide) (Nat.le_of_not_lt small),
        List.head?_append_of_ne_nil _ Nat.toDigits_ne_nil] at zero
      -- the leading digits would be those of zero
      have value := Script.Scan.readNat?_toDigits (n / 10)
      rw [ih _ shorter zero] at value
      have := Option.some.inj (value.symm.trans (show readNat? ['0'] = some 0 by decide))
      omega

/-- A text of digits, or of digits behind a minus, is read as an integer. -/
theorem number?_digits {cs : List Char} {n : Nat}
    (h : (if cs.head? = some '-' then cs.tail else cs) = Nat.toDigits 10 n) :
    number? cs = (readInt? cs).map int := by
  have digits : (Nat.toDigits 10 n).takeWhile Char.isDigit = Nat.toDigits 10 n :=
    List.takeWhile_eq_self_iff.mpr (isDigit_toDigits n)
  have rest : (Nat.toDigits 10 n).dropWhile Char.isDigit = [] :=
    List.dropWhile_eq_nil_iff.mpr (isDigit_toDigits n)
  have whole : ¬ (Nat.toDigits 10 n = [] ∨
      ((Nat.toDigits 10 n).head? = some '0' ∧ Nat.toDigits 10 n ≠ ['0'])) := by
    rintro (empty | ⟨zero, more⟩)
    · exact Nat.toDigits_ne_nil empty
    · exact more (head_toDigits n zero)
  simp only [number?, h, digits, rest, if_neg whole, if_true]

/-- The text of an integer is read as that integer. -/
theorem number?_int (n : Int) : number? (toString n).toList = some (.int n) := by
  rw [Int.toString_eq_repr, Int.repr_eq_if]
  split
  · next natural =>
    have unsigned : (Nat.toDigits 10 n.toNat).head? ≠ some '-' := fun minus =>
      absurd (isDigit_toDigits _ _ (List.mem_of_mem_head? minus)) (by decide)
    rw [Nat.toList_repr, number?_digits (if_neg unsigned), Script.Scan.readInt?_toDigits,
      Option.map_some, Int.toNat_of_nonneg natural]
  · next negative =>
    have text : ("-" ++ (-n).toNat.repr).toList = '-' :: Nat.toDigits 10 (-n).toNat := by
      rw [String.toList_append, Nat.toList_repr]
      rfl
    have value : readInt? ('-' :: Nat.toDigits 10 (-n).toNat) = some n := by
      simp only [readInt?, takeSign, Script.Scan.readNat?_toDigits]
      change some (-((-n).toNat : Int)) = some n
      rw [Int.toNat_of_nonneg (by omega), Int.neg_neg]
    rw [text, number?_digits (n := (-n).toNat) rfl, value, Option.map_some]

theorem isNumberChar_int (n : Int) : ∀ c ∈ (toString n).toList, isNumberChar c = true := by
  have digit {c : Char} {k : Nat} (hc : c ∈ Nat.toDigits 10 k) : isNumberChar c = true := by
    simp [isNumberChar, isDigit_toDigits k c hc]
  rw [Int.toString_eq_repr, Int.repr_eq_if]
  split
  · rw [Nat.toList_repr]
    exact fun c hc => digit hc
  · rw [String.toList_append, Nat.toList_repr]
    exact List.forall_mem_cons.mpr ⟨by decide, fun c hc => digit hc⟩

/-- What starts like a number is read as one. -/
theorem readAtom_number {cs : List Char} (hc : isNumberChar c = true) :
    readAtom (c :: cs)
      = (number? ((c :: cs).takeWhile isNumberChar)).map
        (·, (c :: cs).dropWhile isNumberChar) := by
  unfold readAtom
  split
  · next same => cases same; exact absurd hc (by decide)
  · next same => cases same; exact absurd hc (by decide)
  · next same => cases same; exact absurd hc (by decide)
  · rfl

/-- Nothing of what follows is read as part of a number. -/
theorem Ends.take (h : Ends tail) : tail.takeWhile isNumberChar = [] ∧
    tail.dropWhile isNumberChar = tail := by
  cases tail with
  | nil => exact ⟨rfl, rfl⟩
  | cons c cs =>
    have hc : ¬ isNumberChar c = true := by simp [h c rfl]
    exact ⟨List.takeWhile_cons_of_neg hc, List.dropWhile_cons_of_neg hc⟩

/-! ## Brackets -/

theorem length_le_intercalate (texts : List (List Char)) :
    texts.length ≤ ([',', ' '].intercalate texts).length + 1 := by
  induction texts with
  | nil => exact Nat.zero_le _
  | cons t texts ih =>
    cases texts with
    | nil => simp
    | cons t' texts =>
      simp only [List.intercalate_cons_cons, List.length_append, List.length_cons] at ih ⊢
      omega

theorem length_le_of_mem {t : List Char} {texts : List (List Char)} (ht : t ∈ texts) :
    t.length ≤ ([',', ' '].intercalate texts).length := by
  induction texts with
  | nil => cases ht
  | cons t' texts ih =>
    cases texts with
    | nil => rw [List.mem_singleton.mp ht, List.intercalate_singleton]
    | cons t'' texts =>
      rw [List.intercalate_cons_cons, List.length_append, List.length_append]
      obtain rfl | ht := List.mem_cons.mp ht
      · omega
      · have later := ih ht
        omega

section

variable {α : Type} {part : Reader α} {closing : Char}

theorem readSeries_none {fuel : Nat} {cs : List Char} (h : part cs = none) :
    readSeries part closing fuel cs = none := by
  cases fuel with
  | zero => rfl
  | succ fuel => rw [readSeries, h]; rfl

/-- The bracket closes parts that the reader takes: blanks in front of a part are skipped, and no
part starts with the bracket or at the end of the text. -/
structure Closes (part : Reader α) (closing : Char) : Prop where
  bracket : closing = ']' ∨ closing = '\x7d'
  blanks : ∀ cs, part (skipBlanks cs) = part cs
  stops : ∀ cs, part (closing :: cs) = none
  empty : part [] = none

namespace Closes

variable (hp : Closes part closing)
include hp

theorem ends (tail : List Char) : Ends (closing :: tail) := by
  refine .cons ?_ tail
  obtain rfl | rfl := hp.bracket <;> decide

theorem skip (tail : List Char) : skipBlanks (closing :: tail) = closing :: tail := by
  obtain rfl | rfl := hp.bracket <;> rfl

theorem ne_comma : ',' ≠ closing := by
  obtain rfl | rfl := hp.bracket <;> decide

theorem blank (cs : List Char) : part (' ' :: cs) = part cs := by
  rw [← hp.blanks, ← hp.blanks cs]
  rfl

theorem readSeries_blank (fuel : Nat) (cs : List Char) :
    readSeries part closing fuel (' ' :: cs) = readSeries part closing fuel cs := by
  cases fuel with
  | zero => rfl
  | succ fuel => rw [readSeries, hp.blank, readSeries]

/-- Parts with a comma and a blank between neighbours are read one by one. -/
theorem readSeries_commas {text : α → List Char} {as : List α} (hne : as ≠ [])
    (h : ∀ a ∈ as, Takes part (text a) a) {fuel : Nat} (hf : as.length ≤ fuel) :
    readSeries part closing fuel ([',', ' '].intercalate (as.map text) ++ closing :: tail)
      = some (as, tail) := by
  induction as generalizing fuel with
  | nil => exact absurd rfl hne
  | cons a as ih =>
    obtain ⟨fuel, rfl⟩ := Nat.exists_eq_add_one_of_ne_zero (Nat.ne_zero_of_lt hf)
    obtain ⟨first, others⟩ := List.forall_mem_cons.mp h
    cases as with
    | nil =>
      rw [List.map_singleton, List.intercalate_singleton, readSeries, first _ (hp.ends tail)]
      simp only [bind, Option.bind, pure, hp.skip, if_true]
    | cons b as =>
      have rest := ih (List.cons_ne_nil b as) others (Nat.le_of_succ_le_succ hf)
      rw [← hp.readSeries_blank] at rest
      simp only [List.map_cons, List.intercalate_cons_cons, List.append_assoc, List.cons_append,
        List.nil_append] at rest ⊢
      have comma (cs : List Char) : skipBlanks (',' :: cs) = ',' :: cs := rfl
      rw [readSeries, first _ (.cons (by decide) _)]
      simp only [bind, Option.bind, pure, comma, if_neg hp.ne_comma, if_true, rest]

/-- What stands in brackets is a series if it can be read as one. -/
theorem readParts_series {cs : List Char} {as : List α}
    (h : readSeries part closing cs.length cs = some (as, tail)) :
    readParts part closing cs = some (as, tail) := by
  have part_some : part cs ≠ none := fun nothing =>
    nomatch (readSeries_none nothing).symm.trans h
  rw [readParts]
  cases hcs : skipBlanks cs with
  | nil => exact absurd (by rw [← hp.blanks, hcs, hp.empty]) part_some
  | cons c rest =>
    have inside : c ≠ closing := by
      rintro rfl
      exact part_some (by rw [← hp.blanks, hcs, hp.stops])
    simp only [if_neg inside, h]

/-- Parts in brackets are read one by one. -/
theorem readParts_commas {text : α → List Char} {as : List α}
    (h : ∀ a ∈ as, Takes part (text a) a) :
    readParts part closing ([',', ' '].intercalate (as.map text) ++ closing :: tail)
      = some (as, tail) := by
  by_cases hne : as = []
  · subst hne
    change readParts part closing (closing :: tail) = some ([], tail)
    rw [readParts, hp.skip]
    exact if_pos rfl
  · have fuel := length_le_intercalate (as.map text)
    rw [List.length_map] at fuel
    refine hp.readParts_series (hp.readSeries_commas hne h ?_)
    rw [List.length_append, List.length_cons]
    omega

end Closes

end

/-! ## Documents -/

/-- Blanks in front of blanks are skipped with them. -/
theorem skipBlanks_skipBlanks (cs : List Char) : skipBlanks (skipBlanks cs) = skipBlanks cs :=
  List.dropWhile_idempotent isBlank cs

theorem closes_readValue (depth : Nat) : Closes (readValue depth) ']' where
  bracket := .inl rfl
  blanks cs := by
    cases depth with
    | zero => rfl
    | succ depth => rw [readValue, readValue, skipBlanks_skipBlanks]
  stops cs := by
    cases depth with
    | zero => rfl
    | succ depth => rfl
  empty := by
    cases depth with
    | zero => rfl
    | succ depth => rfl

theorem closes_readMember (value : Reader Json) : Closes (readMember value) '\x7d' where
  bracket := .inr rfl
  blanks cs := by rw [readMember, readMember, skipBlanks_skipBlanks]
  stops _ := rfl
  empty := rfl

/-- The text of a member. -/
def memberText (m : String × Json) : String :=
  asciiString m.1 ++ ": " ++ m.2.oneLine

/-- The text of several parts in brackets. -/
def bracketed (opening closing : Char) (texts : List String) : List Char :=
  opening :: ([',', ' '].intercalate (texts.map String.toList) ++ [closing])

theorem bracketed_append {α : Type} (opening closing : Char) (text : α → String) (as : List α)
    (tail : List Char) :
    bracketed opening closing (as.map text) ++ tail = opening ::
      ([',', ' '].intercalate (as.map fun a => (text a).toList) ++ closing :: tail) := by
  rw [bracketed, List.map_map, List.cons_append, List.append_assoc]
  rfl

theorem oneLines_eq (ds : List Json) : oneLines ds = ds.map oneLine := by
  induction ds with
  | nil => rfl
  | cons d ds ih => rw [oneLines, ih, List.map_cons]

theorem oneLineMembers_eq (ms : List (String × Json)) : oneLineMembers ms = ms.map memberText := by
  induction ms with
  | nil => rfl
  | cons m ms ih => rw [oneLineMembers, ih, List.map_cons, memberText]

theorem toList_array (ds : List Json) :
    (array ds).oneLine.toList = bracketed '[' ']' (ds.map oneLine) := by
  rw [oneLine, String.toList_append, String.toList_append, String.toList_intercalate, oneLines_eq]
  rfl

theorem toList_object (ms : List (String × Json)) :
    (object ms).oneLine.toList = bracketed '\x7b' '\x7d' (ms.map memberText) := by
  rw [oneLine, String.toList_append, String.toList_append, String.toList_intercalate,
    oneLineMembers_eq]
  rfl

theorem length_array_pos (ds : List Json) : 0 < (array ds).oneLine.toList.length := by
  rw [toList_array]
  exact Nat.succ_pos _

theorem length_object_pos (ms : List (String × Json)) : 0 < (object ms).oneLine.toList.length := by
  rw [toList_object]
  exact Nat.succ_pos _

/-- Each part is shorter than the brackets with all of them. -/
theorem length_lt_bracketed {s : String} {texts : List String} (hs : s ∈ texts)
    (opening closing : Char) : s.toList.length < (bracketed opening closing texts).length := by
  have inside := length_le_of_mem (List.mem_map_of_mem hs : s.toList ∈ texts.map String.toList)
  rw [bracketed, List.length_cons, List.length_append]
  omega

/-- A member is read back if its document is. -/
theorem takes_member {value : Reader Json} {m : String × Json} (hv : Closes value ']')
    (hd : Takes value m.2.oneLine.toList m.2) :
    Takes (readMember value) (memberText m).toList m := by
  intro tail ht
  have text : (memberText m).toList ++ tail
      = '"' :: ((asciiString m.1).toList.tail ++ ':' :: ' ' :: (m.2.oneLine.toList ++ tail)) := by
    rw [memberText, String.toList_append, String.toList_append, toList_asciiString]
    simp
  have quote (cs : List Char) : skipBlanks ('"' :: cs) = '"' :: cs := rfl
  have colon (cs : List Char) : skipBlanks (':' :: cs) = ':' :: cs := rfl
  rw [text, readMember, quote]
  simp only [readString_asciiString, bind, Option.bind, pure, colon, hv.blank, hd tail ht]

theorem takes_null (depth : Nat) : Takes (readValue (depth + 1)) null.oneLine.toList .null :=
  fun _ _ => rfl

theorem takes_bool (b : Bool) (depth : Nat) :
    Takes (readValue (depth + 1)) (bool b).oneLine.toList (.bool b) := by
  cases b with
  | false => exact fun _ _ => rfl
  | true => exact fun _ _ => rfl

theorem readValue_string (depth : Nat) (cs : List Char) :
    readValue (depth + 1) ('"' :: cs) = (readString cs).map fun p => (str p.1, p.2) := rfl

theorem readValue_array (depth : Nat) (cs : List Char) :
    readValue (depth + 1) ('[' :: cs)
      = (readParts (readValue depth) ']' cs).map fun p => (array p.1, p.2) := rfl

theorem readValue_object (depth : Nat) (cs : List Char) :
    readValue (depth + 1) ('\x7b' :: cs)
      = (readParts (readMember (readValue depth)) '\x7d' cs).map
        fun p => (object p.1, p.2) := rfl

theorem takes_string (s : String) (depth : Nat) :
    Takes (readValue (depth + 1)) (asciiString s).toList (.str s) := by
  intro tail _
  have text : (asciiString s).toList ++ tail = '"' :: ((asciiString s).toList.tail ++ tail) := by
    rw [toList_asciiString]
    rfl
  rw [text, readValue_string, readString_asciiString, Option.map_some]

/-- What starts like a number is neither a string nor in brackets. -/
theorem readValue_number {depth : Nat} {cs : List Char} (hc : isNumberChar c = true) :
    readValue (depth + 1) (c :: cs) = readAtom (c :: cs) := by
  have start : ¬ isBlank c = true := by
    intro blank
    simp only [isBlank, Bool.or_eq_true, beq_iff_eq] at blank
    rcases blank with ((rfl | rfl) | rfl) | rfl <;> revert hc <;> decide
  have skip : skipBlanks (c :: cs) = c :: cs := List.dropWhile_cons_of_neg start
  rw [readValue, skip]
  split
  · next same => cases same; exact absurd hc (by decide)
  · next same => cases same; exact absurd hc (by decide)
  · next same => cases same; exact absurd hc (by decide)
  · rfl

theorem takes_int (n : Int) (depth : Nat) :
    Takes (readValue (depth + 1)) (toString n).toList (.int n) := by
  intro tail ht
  have chars := isNumberChar_int n
  have number : number? (toString n).toList = some (.int n) := number?_int n
  cases htext : (toString n).toList with
  | nil =>
    rw [htext] at number
    cases number
  | cons c cs =>
    rw [htext] at chars number
    have first := chars c List.mem_cons_self
    rw [List.cons_append, readValue_number first, readAtom_number first, ← List.cons_append,
      List.takeWhile_append_of_pos chars, List.dropWhile_append_of_pos chars, ht.take.1, ht.take.2,
      List.append_nil, number, Option.map_some]

theorem takes_array {ds : List Json} {depth : Nat}
    (h : ∀ d ∈ ds, Takes (readValue depth) d.oneLine.toList d) :
    Takes (readValue (depth + 1)) (array ds).oneLine.toList (.array ds) := by
  intro tail _
  rw [toList_array, bracketed_append, readValue_array, (closes_readValue depth).readParts_commas h,
    Option.map_some]

theorem takes_object {ms : List (String × Json)} {depth : Nat}
    (h : ∀ m ∈ ms, Takes (readMember (readValue depth)) (memberText m).toList m) :
    Takes (readValue (depth + 1)) (object ms).oneLine.toList (.object ms) := by
  intro tail _
  rw [toList_object, bracketed_append, readValue_object, (closes_readMember _).readParts_commas h,
    Option.map_some]

mutual

/-- A document without doubles is read back, whatever follows that cannot belong to a number. -/
theorem takes_oneLine : ∀ {d : Json} {depth : Nat}, d.FloatFree →
    d.oneLine.toList.length ≤ depth → Takes (readValue (depth + 1)) d.oneLine.toList d
  | .null, depth, _ => fun _ => takes_null depth
  | .bool b, depth, _ => fun _ => takes_bool b depth
  | .int n, depth, _ => fun _ => takes_int n depth
  | .str s, depth, _ => fun _ => takes_string s depth
  | .array items, depth, hd => fun hf => by
    have positive : depth ≠ 0 := Nat.ne_zero_of_lt (Nat.lt_of_lt_of_le (length_array_pos items) hf)
    obtain ⟨inner, rfl⟩ := Nat.exists_eq_add_one_of_ne_zero positive
    refine takes_array (takes_oneLines hd fun d hmem => ?_)
    have shorter := length_lt_bracketed (List.mem_map_of_mem (f := oneLine) hmem) '[' ']'
    rw [← toList_array] at shorter
    omega
  | .object members, depth, hd => fun hf => by
    have positive : depth ≠ 0 :=
      Nat.ne_zero_of_lt (Nat.lt_of_lt_of_le (length_object_pos members) hf)
    obtain ⟨inner, rfl⟩ := Nat.exists_eq_add_one_of_ne_zero positive
    refine takes_object (takes_oneLineMembers hd fun m hmem => ?_)
    have shorter := length_lt_bracketed (List.mem_map_of_mem (f := memberText) hmem) '\x7b' '\x7d'
    rw [← toList_object, memberText, String.toList_append, List.length_append] at shorter
    omega

theorem takes_oneLines : ∀ {items : List Json} {depth : Nat}, AllFloatFree items →
    (∀ d ∈ items, d.oneLine.toList.length ≤ depth) →
    ∀ d ∈ items, Takes (readValue (depth + 1)) d.oneLine.toList d
  | [], _, _, _ => nofun
  | d :: ds, depth, hd, hf => by
    obtain ⟨first, others⟩ := List.forall_mem_cons.mp hf
    exact List.forall_mem_cons.mpr ⟨takes_oneLine hd.1 first, takes_oneLines hd.2 others⟩

theorem takes_oneLineMembers : ∀ {members : List (String × Json)} {depth : Nat},
    MembersFloatFree members → (∀ m ∈ members, m.2.oneLine.toList.length ≤ depth) →
    ∀ m ∈ members, Takes (readMember (readValue (depth + 1))) (memberText m).toList m
  | [], _, _, _ => nofun
  | (key, d) :: ms, depth, hd, hf => by
    obtain ⟨first, others⟩ := List.forall_mem_cons.mp hf
    exact List.forall_mem_cons.mpr
      ⟨takes_member (closes_readValue _) (takes_oneLine hd.1 first),
        takes_oneLineMembers hd.2 others⟩

end

/-- **A document without doubles is written on one line in ASCII, and read back from it.** The
characters are those from the blank to the delete character, so that there is no newline. What the
reader makes of the line is the document, so that no other document is written the same. -/
theorem oneLine_lossless {d : Json} (hd : d.FloatFree) :
    (∀ c ∈ d.oneLine.toList, 0x20 ≤ c.toNat ∧ c.toNat ≤ 0x7f) ∧ Text.OneLine d.oneLine ∧
      read? d.oneLine = some d ∧ ∀ d' : Json, d'.FloatFree → d'.oneLine = d.oneLine → d' = d := by
  have reads {d : Json} (hd : d.FloatFree) : read? d.oneLine = some d := by
    have taken := takes_oneLine hd (Nat.le_refl _) [] .nil
    rw [List.append_nil] at taken
    rw [read?, taken]
    rfl
  refine ⟨ascii_oneLine hd, oneLine_oneLine d, reads hd, fun d' hd' same => ?_⟩
  exact Option.some.inj ((reads hd').symm.trans (same ▸ reads hd))

/-- Empty brackets, a quote, a newline, a character of one escaped unit and one of two. -/
theorem oneLine_lossless_nested :
    let d := object [("é", array [null, str "\"\n😀", int (-20), array [], object []])]
    d.FloatFree ∧ read? d.oneLine = some d ∧ d.oneLine =
      "\x7b\"\\u00e9\": [null, \"\\\"\\n\\ud83d\\ude00\", -20, [], \x7b\x7d]\x7d" := by
  intro d
  have free : d.FloatFree := by simp [d, FloatFree, AllFloatFree, MembersFloatFree]
  exact ⟨free, (oneLine_lossless free).2.2.1, by decide⟩

/-- Other texts of a document are read too, and a text with a comma too many is refused. -/
example : read? " [1 ,\t\"\\u00E9\\/\" ]\n" = some (array [int 1, str "é/"]) ∧
    read? "[1,]" = none :=
  ⟨rfl, rfl⟩

end SortTrace.Report.Json
