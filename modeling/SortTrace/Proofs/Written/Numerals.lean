import Mathlib.Data.List.Infix
import SortTrace.Proofs.Written.ReadBack

/-!
# Numerals

A numeral is the written form of an integer, with or without underscores between its digits. The
scanner drops the underscores and reads the magnitude; the parser puts the sign of a negative number
in front of it again. Every integer is read back from each of its numerals except the least one of
64 bits (`Script.numerals_read`): its magnitude is not an integer of 64 bits, and the scanner
refuses it before the parser sees the sign.
-/

namespace SortTrace.Script

open Scan Datum

variable {n : Int64} {m : Nat} {c : Char} {cs tail : List Char} {text : String} {h : Heap}

/-- The text is the written form of the integer, but for underscores. An underscore comes after a
digit. -/
structure IsNumeral (n : Int64) (text : String) : Prop where
  digits : text.toList.filter (fun c => c != '_') = ((Value.int n).written .empty).toList
  behind : ∀ front, front ++ ['_'] <+: text.toList → ∃ c ∈ front, c.isDigit = true

instance (n : Int64) (text : String) : Decidable (IsNumeral n text) :=
  decidable_of_iff (text.toList.filter (fun c => c != '_') = ((Value.int n).written .empty).toList ∧
      ∀ front ∈ text.toList.inits, front ++ ['_'] <+: text.toList → front.any Char.isDigit = true)
    ⟨fun ⟨digits, behind⟩ => ⟨digits, fun front h => List.any_eq_true.mp
        (behind front ((List.mem_inits _ _).mpr ((List.prefix_append _ _).trans h)) h)⟩,
      fun ⟨digits, behind⟩ => ⟨digits, fun front _ h => List.any_eq_true.mpr (behind front h)⟩⟩

theorem toList_written (n : Int64) : ((Value.int n).written h).toList
    = if n < 0 then '-' :: Nat.toDigits 10 n.toInt.natAbs else Nat.toDigits 10 n.toInt.natAbs := by
  have negative : n < 0 ↔ ¬ 0 ≤ n.toInt := by
    rw [Int64.lt_iff_toInt_lt, not_le]
    rfl
  change (toString n.toInt).toList = _
  rw [Int.toString_eq_repr, Int.repr_eq_if]
  by_cases sign : 0 ≤ n.toInt
  · have magnitude : n.toInt.toNat = n.toInt.natAbs := by omega
    rw [if_pos sign, if_neg (fun h => negative.mp h sign), Nat.toList_repr, magnitude]
  · have magnitude : (-n.toInt).toNat = n.toInt.natAbs := by omega
    rw [if_neg sign, if_pos (negative.mpr sign), String.toList_append, Nat.toList_repr, magnitude]
    rfl

/-- The written form of an integer is one of its numerals. -/
theorem isNumeral_written (n : Int64) : IsNumeral n ((Value.int n).written h) := by
  have digits := areDigits_toDigits n.toInt.natAbs
  have plain : ((Value.int n).written h).toList.filter (fun c => c != '_')
      = ((Value.int n).written h).toList := by
    rw [toList_written]
    split
    · rw [List.filter_cons_of_pos rfl, digits.digits]
    · exact digits.digits
  refine ⟨plain, fun front hfront => ?_⟩
  have underscore : '_' ∈ ((Value.int n).written h).toList := hfront.subset (by simp)
  rw [← plain] at underscore
  cases (List.mem_filter.mp underscore).2

/-- A numeral is made of the digits of the magnitude, behind a sign if the number is negative. -/
theorem IsNumeral.areDigits (ht : IsNumeral n text) : ∃ cs, AreDigits n.toInt.natAbs cs ∧
    text.toList = if n < 0 then '-' :: cs else cs := by
  obtain ⟨digits, behind⟩ := ht
  rw [toList_written] at digits
  by_cases sign : n < 0
  · rw [if_pos sign] at digits
    cases chars : text.toList with
    | nil =>
      rw [chars] at digits
      cases digits
    | cons c cs =>
      have first : c ≠ '_' := by
        rintro rfl
        obtain ⟨d, hd, -⟩ := behind [] (by simp [chars])
        cases hd
      rw [chars, List.filter_cons_of_pos (by simpa using first),
        List.cons.injEq] at digits
      obtain ⟨rfl, digits⟩ := digits
      refine ⟨cs, ⟨digits, fun second => ?_⟩, by rw [if_pos sign]⟩
      obtain ⟨cs, rfl⟩ := List.head?_eq_some_iff.mp second
      obtain ⟨d, hd, digit⟩ := behind ['-'] (by simp [chars])
      rw [List.mem_singleton.mp hd] at digit
      cases digit
  · rw [if_neg sign] at digits
    refine ⟨text.toList, ⟨digits, fun first => ?_⟩, by rw [if_neg sign]⟩
    obtain ⟨cs, chars⟩ := List.head?_eq_some_iff.mp first
    obtain ⟨d, hd, -⟩ := behind [] (by simp [chars])
    cases hd

namespace Scan.AreDigits

/-- The digits of the magnitude, behind a sign if the number is negative, are read as the literal of
the number. -/
theorem reads_literal (hcs : AreDigits n.toInt.natAbs cs) (hn : n ≠ Int64.minValue)
    (ht : EndsNumber tail) :
    Reads 0 (if n < 0 then '-' :: cs else cs) (Literal.int n).lexemes tail := by
  have small : Small n.toInt := small_toInt hn
  have room : n.toInt.natAbs < 2 ^ 63 := small
  have lexemes := lexemes_ofInt small
  rw [Int64.ofInt_toInt] at lexemes
  have sign : n < 0 ↔ n.toInt < 0 := by
    rw [Int64.lt_iff_toInt_lt]
    rfl
  rw [lexemes]
  by_cases negative : n.toInt < 0
  · have magnitude : (-n.toInt).toNat = n.toInt.natAbs := by omega
    rw [if_pos (sign.mpr negative), if_pos negative, magnitude]
    exact hcs.minus.append (hcs.reads room ht)
  · have magnitude : n.toInt.toNat = n.toInt.natAbs := by omega
    rw [if_neg (fun h => negative (sign.mp h)), if_neg negative, magnitude]
    exact hcs.reads room ht

/-- The magnitude of the least integer of 64 bits is none of them. -/
theorem tokenize_minValue (hcs : AreDigits (2 ^ 63) cs) (chars : text.toList = '-' :: cs) :
    tokenize text #[] = .error .overflow := by
  have sign : Reads 0 ['-'] [.op .sub] (cs ++ []) := hcs.minus
  have read := sign #[] { start ('-' :: cs) with fresh := false } rfl (Nat.zero_le _)
    (by simp [start])
  rw [tokenize, chars, run_start (by decide), read,
    hcs.run_overflow (Nat.le_refl _) Delimited.nil.endsNumber rfl rfl]
  rfl

end Scan.AreDigits

/-- A numeral of any integer but the least one is read, up to the end of its line, as the literal of
the integer. A numeral of the least one is refused. -/
theorem numerals_read (ht : IsNumeral n text) :
    (n ≠ Int64.minValue → ∃ ts, tokenize text #[] = .ok (ts ++ ending) ∧
      parseTest ((ts ++ ending).length + 1) (ts ++ ending) = .ok (.literal (.int n), ending)) ∧
    (n = Int64.minValue → tokenize text #[] = .error .overflow) := by
  obtain ⟨cs, digits, chars⟩ := ht.areDigits
  constructor
  · intro hn
    have begins : ∃ c rest, text.toList = c :: rest ∧ c ∉ leads := by
      rw [chars]
      split
      · exact ⟨'-', cs, rfl, by decide⟩
      · obtain ⟨c, rest, rfl, digit, -⟩ := digits.eq_cons
        refine ⟨c, rest, rfl, ?_⟩
        have digit := digit_cases digit
        fin_cases digit <;> decide
    have read : Reads 0 text.toList (Literal.int n).lexemes [] := by
      rw [chars]
      exact digits.reads_literal hn nofun
    refine ⟨onLine 1 (Literal.int n).lexemes, ?_, ?_⟩
    · rw [ending, ← onLine_append]
      exact tokenize_of_reads begins (lexemes_end (.int n)) read (Nat.zero_le _)
    · refine parseTest_expr (d := .int n) (Nat.zero_le _) ?_
      rw [List.length_append, length_onLine]
      change _ < _ + 2 + 1
      exact Nat.lt_succ_of_lt (Nat.lt_succ_self _)
  · rintro rfl
    exact digits.tokenize_minValue chars

/-- A negative number with underscores, and the least integer. -/
theorem numerals_read_underscores :
    IsNumeral (-1234567) "-1_234__567" ∧
      (∃ ts, tokenize "-1_234__567" #[] = .ok (ts ++ ending) ∧
        parseTest ((ts ++ ending).length + 1) (ts ++ ending)
          = .ok (.literal (.int (-1234567)), ending)) ∧
      IsNumeral Int64.minValue ((Value.int Int64.minValue).written .empty) ∧
      tokenize ((Value.int Int64.minValue).written .empty) #[] = .error .overflow := by
  have numeral : IsNumeral (-1234567) "-1_234__567" := by decide +kernel
  exact ⟨numeral, (numerals_read numeral).1 (by decide), isNumeral_written _,
    (numerals_read (isNumeral_written _)).2 rfl⟩

/-- The least integer has a written form, and the language does not read it. -/
theorem least_integer_unread :
    ¬ ∀ n : Int64, ∃ ts, tokenize ((Value.int n).written .empty) #[] = .ok ts ∧
      parseExpr ts = .ok (.literal (.int n)) := by
  intro read
  obtain ⟨ts, tokens, -⟩ := read Int64.minValue
  have chars : ((Value.int Int64.minValue).written .empty).toList
      = '-' :: Nat.toDigits 10 (2 ^ 63) := toList_written Int64.minValue
  rw [(areDigits_toDigits (2 ^ 63)).tokenize_minValue chars] at tokens
  cases tokens

end SortTrace.Script
