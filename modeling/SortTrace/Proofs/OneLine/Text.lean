import SortTrace.Report.Json
import SortTrace.Text.Quoted
import Mathlib.Tactic.SplitIfs

/-!
# Texts on one line

A text is on one line if it holds no newline (`Text.OneLine`). Numbers are written so, and quoted
texts and documents are, whatever they hold (`Json.oneLine_oneLine`), since a newline is escaped.
-/

namespace SortTrace

/-- The text holds no newline. -/
def Text.OneLine (s : String) : Prop :=
  '\n' ∉ s.toList

namespace Text

instance (s : String) : Decidable (OneLine s) :=
  inferInstanceAs (Decidable ('\n' ∉ s.toList))

variable {s t : String}

@[simp] theorem oneLine_append : OneLine (s ++ t) ↔ OneLine s ∧ OneLine t := by
  simp [OneLine]

@[simp] theorem oneLine_toString : OneLine (toString s) ↔ OneLine s := Iff.rfl

theorem oneLine_ofList {cs : List Char} : OneLine (String.ofList cs) ↔ '\n' ∉ cs := by
  rw [OneLine, String.toList_ofList]

namespace OneLine

theorem append (hs : OneLine s) (ht : OneLine t) : OneLine (s ++ t) :=
  oneLine_append.mpr ⟨hs, ht⟩

/-- A text that is written out. -/
theorem literal {cs : List Char} (h : cs.contains '\n' = false) : OneLine (String.ofList cs) :=
  oneLine_ofList.mpr (by simpa using h)

/-- A text between two that are written out. -/
theorem framed {before behind : List Char} (h : OneLine s)
    (hbefore : before.contains '\n' = false) (hbehind : behind.contains '\n' = false) :
    OneLine (String.ofList before ++ s ++ String.ofList behind) :=
  .append (.append (.literal hbefore) h) (.literal hbehind)

end OneLine

theorem mem_intercalate {c : Char} {sep : List Char} {parts : List (List Char)}
    (h : c ∈ sep.intercalate parts) : c ∈ sep ∨ ∃ part ∈ parts, c ∈ part := by
  induction parts with
  | nil => cases h
  | cons part parts ih =>
    cases parts with
    | nil => exact .inr ⟨part, List.mem_cons_self .., by simpa using h⟩
    | cons next parts =>
      rw [List.intercalate_cons_cons, List.append_assoc, List.mem_append, List.mem_append] at h
      rcases h with h | h | h
      · exact .inr ⟨part, List.mem_cons_self .., h⟩
      · exact .inl h
      · refine (ih h).imp_right ?_
        rintro ⟨part, hpart, hc⟩
        exact ⟨part, List.mem_cons_of_mem _ hpart, hc⟩

theorem oneLine_intercalate {separator : String} {parts : List String} (hs : OneLine separator)
    (h : ∀ s ∈ parts, OneLine s) : OneLine (separator.intercalate parts) := by
  rw [OneLine, String.toList_intercalate]
  intro found
  rcases mem_intercalate found with found | ⟨cs, hcs, found⟩
  · exact hs found
  · obtain ⟨s, hmem, rfl⟩ := List.mem_map.mp hcs
    exact h s hmem found

/-! ## Numbers -/

theorem newline_notMem_toDigits (n : Nat) : '\n' ∉ Nat.toDigits 10 n := fun h =>
  absurd (Nat.isDigit_of_mem_toDigits (by decide) (by decide) h) (by decide)

@[simp] theorem oneLine_nat (n : Nat) : OneLine (toString n) := by
  change OneLine (String.ofList (Nat.toDigits 10 n))
  exact oneLine_ofList.mpr (newline_notMem_toDigits n)

@[simp] theorem oneLine_int (n : Int) : OneLine (toString n) := by
  cases n with
  | ofNat n => exact oneLine_nat n
  | negSucc n => exact oneLine_append.mpr ⟨by decide, oneLine_nat (n + 1)⟩

/-! ## Quoted texts -/

theorem newline_notMem_quoteChar {quote : Char} (hq : quote ≠ '\n') (c : Char) :
    '\n' ∉ quoteChar quote c := by
  simp only [quoteChar]
  split_ifs with _ newline <;> simp_all [eq_comm]

theorem quoteFor_ne_newline (cs : List Char) : quoteFor cs ≠ '\n' := by
  rw [quoteFor]
  split <;> decide

/-- A quoted text is on one line, whatever it holds. -/
@[simp] theorem oneLine_quote (s : String) : OneLine (quote s) := by
  have edge : quoteFor s.toList ≠ '\n' := quoteFor_ne_newline s.toList
  rw [quote, oneLine_ofList, quoted]
  simp only [List.mem_append, List.mem_cons, List.mem_flatMap, List.not_mem_nil, or_false]
  rintro ((h | ⟨c, -, h⟩) | h)
  · exact edge h.symm
  · exact newline_notMem_quoteChar edge c h
  · exact edge h.symm

end Text

/-! ## Decimals -/

namespace Decimal

theorem newline_notMem_positional {digits : List Char} (h : '\n' ∉ digits) (exponent : Int) :
    '\n' ∉ positional digits exponent := by
  have taken (n : Nat) : '\n' ∉ digits.take n := fun found => h (List.mem_of_mem_take found)
  have dropped (n : Nat) : '\n' ∉ digits.drop n := fun found => h (List.mem_of_mem_drop found)
  rw [positional]
  split
  · simp [h]
  · simp only
    split
    · simp [taken, dropped]
    · simp [h]

theorem newline_notMem_scientific {digits : List Char} (h : '\n' ∉ digits) (width : Nat)
    (lead : Int) : '\n' ∉ scientific width digits lead := by
  have taken (n : Nat) : '\n' ∉ digits.take n := fun found => h (List.mem_of_mem_take found)
  have dropped (n : Nat) : '\n' ∉ digits.drop n := fun found => h (List.mem_of_mem_drop found)
  have shown : '\n' ∉ natDigits lead.natAbs := Text.newline_notMem_toDigits _
  have fraction : '\n' ∉ if (digits.drop 1).isEmpty then [] else '.' :: digits.drop 1 := by
    split
    · exact List.not_mem_nil
    · exact List.not_mem_cons_of_ne_of_not_mem (by decide) (dropped 1)
  have sign : '\n' ≠ if lead < 0 then '-' else '+' := by
    split <;> decide
  simp only [scientific, List.mem_append, not_or]
  exact ⟨⟨⟨⟨taken 1, fraction⟩, by simp [sign]⟩, by simp⟩, shown⟩

theorem oneLine_finite (l : Layout) (x : Float) : Text.OneLine (l.finite x) := by
  have sign : '\n' ∉ if signBit x then ['-'] else [] := by
    split <;> decide
  have digits (n : Nat) : '\n' ∉ natDigits n := Text.newline_notMem_toDigits n
  rw [Layout.finite]
  split
  · rw [Text.oneLine_ofList, List.mem_append, not_or]
    exact ⟨sign, by decide⟩
  · simp only [Text.oneLine_ofList, List.mem_append, not_or]
    refine ⟨sign, ?_⟩
    split
    · exact newline_notMem_positional (digits _) _
    · exact newline_notMem_scientific (digits _) _ _

@[simp] theorem oneLine_scriptText (x : Float) : Text.OneLine (scriptText x) := by
  rw [scriptText]
  split
  · decide
  split
  · split <;> decide
  · exact oneLine_finite _ x

end Decimal

/-! ## Documents -/

namespace Report.Json

open Text

theorem newline_notMem_unitEscape (n : Nat) : '\n' ∉ unitEscape n := by
  have digit (n : Nat) : '\n' ≠ hexDigit n := by
    have lt : n % 16 < 16 := Nat.mod_lt _ (by decide)
    have all : ∀ k < 16, '\n' ≠ Nat.digitChar k := by decide
    exact all _ lt
  simp [unitEscape, digit]

theorem newline_notMem_requiredEscape {c : Char} {escape : List Char}
    (h : requiredEscape? c = some escape) : '\n' ∉ escape := by
  have unit := newline_notMem_unitEscape c.toNat
  simp only [requiredEscape?] at h
  split_ifs at h <;> cases h <;> first | decide | exact unit

/-- A newline has to be escaped in a document. -/
theorem ne_newline_of_requiredEscape {c : Char} (h : requiredEscape? c = none) : c ≠ '\n' := by
  rintro rfl
  exact absurd h (by decide)

theorem newline_notMem_asciiChar (c : Char) : '\n' ∉ asciiChar c := by
  rw [asciiChar]
  split
  · next escape h => exact newline_notMem_requiredEscape h
  · next h =>
    have plain := ne_newline_of_requiredEscape h
    simp only
    split_ifs
    · simpa using plain.symm
    · exact newline_notMem_unitEscape _
    · simp [newline_notMem_unitEscape]

@[simp] theorem oneLine_asciiString (s : String) : OneLine (asciiString s) := by
  have chars : '\n' ∉ s.toList.flatMap asciiChar := by
    simp [newline_notMem_asciiChar]
  rw [asciiString, quoteWith, oneLine_ofList, List.cons_append, List.mem_cons, List.mem_append,
    not_or, not_or]
  exact ⟨by decide, chars, by decide⟩

@[simp] theorem oneLine_realText (x : Float) : OneLine (realText x) := by
  rw [realText]
  split
  · decide
  · exact Decimal.oneLine_finite _ x

mutual

/-- **A document on one line is on one line**, whatever texts it holds. -/
theorem oneLine_oneLine : ∀ d : Json, OneLine d.oneLine
  | .null => by decide
  | .bool b => by cases b <;> decide
  | .int n => oneLine_int n
  | .float x => oneLine_realText x
  | .str s => oneLine_asciiString s
  | .array items => by
    simp only [oneLine, oneLine_append]
    exact ⟨⟨by decide, oneLine_intercalate (by decide) (oneLine_oneLines items)⟩, by decide⟩
  | .object members => by
    simp only [oneLine, oneLine_append]
    exact ⟨⟨by decide, oneLine_intercalate (by decide) (oneLine_oneLineMembers members)⟩,
      by decide⟩

theorem oneLine_oneLines : ∀ (items : List Json), ∀ s ∈ oneLines items, OneLine s
  | [], _, h => nomatch h
  | d :: ds, s, h => by
    rcases List.mem_cons.mp h with rfl | h
    · exact oneLine_oneLine d
    · exact oneLine_oneLines ds s h

theorem oneLine_oneLineMembers : ∀ (members : List (String × Json)),
    ∀ s ∈ oneLineMembers members, OneLine s
  | [], _, h => nomatch h
  | (key, d) :: ms, s, h => by
    rcases List.mem_cons.mp h with rfl | h
    · simp only [oneLine_append]
      exact ⟨⟨oneLine_asciiString key, by decide⟩, oneLine_oneLine d⟩
    · exact oneLine_oneLineMembers ms s h

end

end Report.Json

end SortTrace
