import SortTrace.Decimal.Layout

/-!
# JSON documents

A document and its two written forms. State lines use one line of ASCII with a blank after every
separator: `Json.oneLine`. A report is spread over lines with an indentation of two blanks per level
and keeps its characters as they are: `Json.spread`. Both write a number that is no integer by the
same rules and have `null` for those that JSON has no number for.
-/

namespace SortTrace.Report

open Decimal

/-- A JSON document. The members of an object are written in the order given. -/
inductive Json where
  | null
  | bool (b : Bool)
  | int (n : Int)
  | float (x : Float)
  | str (s : String)
  | array (items : List Json)
  | object (members : List (String × Json))
deriving Repr, Inhabited

namespace Json

/-- The members sorted by key, in the order of the code points; of members with one key the last
is kept. -/
def sortMembers (members : List (String × Json)) : List (String × Json) :=
  let latest := members.foldl (fun (kept : List (String × Json)) m =>
    m :: kept.filter fun k => k.1 != m.1) []
  latest.mergeSort fun a b => decide (a.1 ≤ b.1)

/-- A lowercase hexadecimal digit. -/
def hexDigit (n : Nat) : Char :=
  Nat.digitChar (n % 16)

/-- The escape of a UTF-16 unit. -/
def unitEscape (n : Nat) : List Char :=
  ['\\', 'u', hexDigit (n / 4096), hexDigit (n / 256), hexDigit (n / 16), hexDigit n]

/-- The escape that JSON requires of a character, if it requires one. -/
def requiredEscape? (c : Char) : Option (List Char) :=
  if c = '"' then some ['\\', '"']
  else if c = '\\' then some ['\\', '\\']
  else if c = '\x08' then some ['\\', 'b']
  else if c = '\x0c' then some ['\\', 'f']
  else if c = '\n' then some ['\\', 'n']
  else if c = '\r' then some ['\\', 'r']
  else if c = '\t' then some ['\\', 't']
  else if c.toNat < 0x20 then some (unitEscape c.toNat)
  else none

/-- A character in ASCII: beyond it, its one or two UTF-16 units are escaped. -/
def asciiChar (c : Char) : List Char :=
  match requiredEscape? c with
  | some e => e
  | none =>
    let n := c.toNat
    if n < 0x80 then [c]
    else if n < 0x10000 then unitEscape n
    else
      let high := 0xd800 + (n - 0x10000) / 0x400
      let low := 0xdc00 + (n - 0x10000) % 0x400
      unitEscape high ++ unitEscape low

/-- A character as it stands, unless JSON requires an escape. -/
def plainChar (c : Char) : List Char :=
  (requiredEscape? c).getD [c]

/-- A string in double quotes, with its characters written by `char`. -/
def quoteWith (char : Char → List Char) (s : String) : String :=
  String.ofList ('"' :: s.toList.flatMap char ++ ['"'])

/-- A string in ASCII. -/
def asciiString (s : String) : String :=
  quoteWith asciiChar s

/-- A double: a number if JSON has one for it. -/
def realText (x : Float) : String :=
  if x.isNaN || x.isInf then "null" else jsonLayout.finite x

mutual

/-- The document on one line of ASCII. -/
def oneLine : Json → String
  | null => "null"
  | bool b => if b then "true" else "false"
  | int n => toString n
  | float x => realText x
  | str s => asciiString s
  | array items => "[" ++ ", ".intercalate (oneLines items) ++ "]"
  | object members => "\x7b" ++ ", ".intercalate (oneLineMembers members) ++ "\x7d"

/-- The items of an array. -/
def oneLines : List Json → List String
  | [] => []
  | d :: ds => oneLine d :: oneLines ds

/-- The members of an object. -/
def oneLineMembers : List (String × Json) → List String
  | [] => []
  | (key, d) :: ms => (asciiString key ++ ": " ++ oneLine d) :: oneLineMembers ms

end

/-- A new line at the given level. -/
def newLine (level : Nat) : String :=
  String.ofList ('\n' :: List.replicate (2 * level) ' ')

/-- The parts of an array or an object inside its brackets, each on a line of its own. -/
def spreadParts (level : Nat) (opening closing : String) (parts : List String) : String :=
  if parts.isEmpty then opening ++ closing
  else
    opening ++ newLine (level + 1) ++ ("," ++ newLine (level + 1)).intercalate parts
      ++ newLine level ++ closing

mutual

/-- The document over several lines, at the given level. -/
def spreadAt (level : Nat) : Json → String
  | null => "null"
  | bool b => if b then "true" else "false"
  | int n => toString n
  | float x => realText x
  | str s => quoteWith plainChar s
  | array items => spreadParts level "[" "]" (spreadItems level items)
  | object members => spreadParts level "\x7b" "\x7d" (spreadMembers level members)

/-- The items of an array at the given level. -/
def spreadItems (level : Nat) : List Json → List String
  | [] => []
  | d :: ds => spreadAt (level + 1) d :: spreadItems level ds

/-- The members of an object at the given level. -/
def spreadMembers (level : Nat) : List (String × Json) → List String
  | [] => []
  | (key, d) :: ms =>
    (quoteWith plainChar key ++ ": " ++ spreadAt (level + 1) d) :: spreadMembers level ms

end

/-- The document over several lines. -/
def spread (d : Json) : String :=
  spreadAt 0 d

end Json

end SortTrace.Report
