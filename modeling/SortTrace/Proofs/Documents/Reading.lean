import SortTrace.Decimal.Reading
import SortTrace.Report.Json

/-!
# A reader of documents

What any reader of JSON makes of a text. Blanks may stand around every token, strings may use every
escape, and two escaped surrogates that belong together are one character. A number without fraction
and exponent is an integer. A text that is no document is refused, so are a surrogate on its own, a
control character in a string, a comma without a part behind it and a number with a needless zero.
-/

namespace SortTrace.Report.Json

open Decimal

/-- Reads something at the start of a text; gives it with what is left of the text. -/
abbrev Reader (α : Type) := List Char → Option (α × List Char)

/-- The blanks between tokens. -/
def isBlank (c : Char) : Bool :=
  c == ' ' || c == '\t' || c == '\n' || c == '\r'

/-- The text without the blanks it starts with. -/
def skipBlanks (cs : List Char) : List Char :=
  cs.dropWhile isBlank

/-! ## Strings -/

/-- The value of a hexadecimal digit. -/
def hexValue? (c : Char) : Option Nat :=
  if c.isDigit then some (c.toNat - 48)
  else if 'a' ≤ c ∧ c ≤ 'f' then some (c.toNat - 87)
  else if 'A' ≤ c ∧ c ≤ 'F' then some (c.toNat - 55)
  else none

/-- Four hexadecimal digits: a UTF-16 unit. -/
def readUnit : Reader Nat
  | a :: b :: c :: d :: rest => do
    let a ← hexValue? a
    let b ← hexValue? b
    let c ← hexValue? c
    let d ← hexValue? d
    pure (a * 4096 + b * 256 + c * 16 + d, rest)
  | _ => none

/-- The character of an escaped unit, or of a pair of them. -/
def readUnits : Reader Char := fun cs => do
  let (high, rest) ← readUnit cs
  if high < 0xd800 ∨ 0xdfff < high then pure (Char.ofNat high, rest)
  else match rest with
    | '\\' :: 'u' :: rest => do
      let (low, rest) ← readUnit rest
      if high < 0xdc00 ∧ 0xdc00 ≤ low ∧ low ≤ 0xdfff then
        pure (Char.ofNat (0x10000 + (high - 0xd800) * 0x400 + (low - 0xdc00)), rest)
      else none
    | _ => none

/-- What stands behind a backslash. -/
def readEscape : Reader Char
  | '"' :: rest => some ('"', rest)
  | '\\' :: rest => some ('\\', rest)
  | '/' :: rest => some ('/', rest)
  | 'b' :: rest => some ('\x08', rest)
  | 'f' :: rest => some ('\x0c', rest)
  | 'n' :: rest => some ('\n', rest)
  | 'r' :: rest => some ('\r', rest)
  | 't' :: rest => some ('\t', rest)
  | 'u' :: rest => readUnits rest
  | _ => none

/-- A character of a string. -/
def readChar : Reader Char
  | [] => none
  | c :: rest =>
    if c = '\\' then readEscape rest
    else if c = '"' ∨ c.toNat < 0x20 then none
    else some (c, rest)

/-- Characters up to the closing quote. -/
def readChars : (fuel : Nat) → Reader (List Char)
  | 0, _ => none
  | _ + 1, '"' :: rest => some ([], rest)
  | fuel + 1, cs => do
    let (c, rest) ← readChar cs
    let (others, rest) ← readChars fuel rest
    pure (c :: others, rest)

/-- A string behind its opening quote. Each character takes one of the text at least. -/
def readString : Reader String := fun cs =>
  (readChars cs.length cs).map fun p => (String.ofList p.1, p.2)

/-! ## Words and numbers -/

/-- The characters that numbers are made of. -/
def isNumberChar (c : Char) : Bool :=
  c.isDigit || c == '-' || c == '+' || c == '.' || c == 'e' || c == 'E'

/-- A number: an integer, unless it has a fraction or an exponent. -/
def number? (cs : List Char) : Option Json :=
  let unsigned := if cs.head? = some '-' then cs.tail else cs
  let whole := unsigned.takeWhile Char.isDigit
  let rest := unsigned.dropWhile Char.isDigit
  if whole = [] ∨ (whole.head? = some '0' ∧ whole ≠ ['0']) then none
  else if rest = [] then (readInt? cs).map int
  else if rest.head? = some '.' ∧ ¬ rest.tail.head?.any Char.isDigit then none
  else (readFloat? cs).map float

/-- A document that is neither a string nor in brackets. -/
def readAtom : Reader Json
  | 'n' :: 'u' :: 'l' :: 'l' :: rest => some (null, rest)
  | 't' :: 'r' :: 'u' :: 'e' :: rest => some (bool true, rest)
  | 'f' :: 'a' :: 'l' :: 's' :: 'e' :: rest => some (bool false, rest)
  | cs => (number? (cs.takeWhile isNumberChar)).map (·, cs.dropWhile isNumberChar)

/-! ## Brackets -/

section

variable {α : Type} (part : Reader α) (closing : Char)

/-- Parts with commas between them up to the closing bracket, at least one. -/
def readSeries : (fuel : Nat) → Reader (List α)
  | 0, _ => none
  | fuel + 1, cs => do
    let (a, rest) ← part cs
    match skipBlanks rest with
    | [] => none
    | c :: rest =>
      if c = closing then pure ([a], rest)
      else if c = ',' then do
        let (others, rest) ← readSeries fuel rest
        pure (a :: others, rest)
      else none

/-- The parts behind an opening bracket. Each takes one character of the text at least. -/
def readParts : Reader (List α) := fun cs =>
  match skipBlanks cs with
  | [] => none
  | c :: rest => if c = closing then some ([], rest) else readSeries part closing cs.length cs

end

/-- A key, a colon and what `value` reads. -/
def readMember (value : Reader Json) : Reader (String × Json) := fun cs =>
  match skipBlanks cs with
  | '"' :: rest => do
    let (key, rest) ← readString rest
    match skipBlanks rest with
    | ':' :: rest => do
      let (d, rest) ← value rest
      pure ((key, d), rest)
    | _ => none
  | _ => none

/-- A document with brackets inside each other to less than the given depth. -/
def readValue : (depth : Nat) → Reader Json
  | 0, _ => none
  | depth + 1, cs =>
    match skipBlanks cs with
    | '"' :: rest => (readString rest).map fun p => (str p.1, p.2)
    | '[' :: rest => (readParts (readValue depth) ']' rest).map fun p => (array p.1, p.2)
    | '\x7b' :: rest =>
      (readParts (readMember (readValue depth)) '\x7d' rest).map fun p => (object p.1, p.2)
    | rest => readAtom rest

/-- The document that a text is. A text has no more brackets than characters. -/
def read? (text : String) : Option Json :=
  match readValue (text.toList.length + 1) text.toList with
  | some (d, rest) => if skipBlanks rest = [] then some d else none
  | none => none

end SortTrace.Report.Json
