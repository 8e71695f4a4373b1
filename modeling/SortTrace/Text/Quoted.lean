/-!
# Quoted text

The written form of a string value: single quotes, or double quotes when the text holds a single
quote and no double one. A backslash, a newline, a tab, a carriage return and the quote in use are
escaped by a backslash; every other character stands for itself.
-/

namespace SortTrace.Text

/-- The quote that encloses a text. -/
def quoteFor (cs : List Char) : Char :=
  if cs.contains '\'' && !cs.contains '"' then '"' else '\''

/-- One character between the given quotes. -/
def quoteChar (quote c : Char) : List Char :=
  if c = '\\' then ['\\', '\\']
  else if c = '\n' then ['\\', 'n']
  else if c = '\t' then ['\\', 't']
  else if c = '\r' then ['\\', 'r']
  else if c = quote then ['\\', c]
  else [c]

/-- A text with its quotes. -/
def quoted (cs : List Char) : List Char :=
  let quote := quoteFor cs
  quote :: cs.flatMap (quoteChar quote) ++ [quote]

/-- A string with its quotes. -/
def quote (s : String) : String :=
  String.ofList (quoted s.toList)

end SortTrace.Text
