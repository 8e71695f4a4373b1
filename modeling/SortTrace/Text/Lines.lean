/-!
# Lines

A source is cut at its newlines and nowhere else: a text with `n` newlines has `n + 1` lines, the
empty text has one empty line, and a carriage return belongs to the line it stands on.

`join_splitLines` puts the lines together again.
-/

namespace SortTrace.Text

/-- The lines of a text. -/
def splitLines : List Char → List (List Char)
  | [] => [[]]
  | c :: cs =>
    if c = '\n' then [] :: splitLines cs
    else match splitLines cs with
      | [] => [[c]]
      | line :: rest => (c :: line) :: rest

/-- The lines written one after the other with a newline between neighbours. -/
def joinLines : List (List Char) → List Char
  | [] => []
  | [line] => line
  | line :: rest => line ++ '\n' :: joinLines rest

theorem splitLines_ne_nil (cs : List Char) : splitLines cs ≠ [] := by
  cases cs with
  | nil => simp [splitLines]
  | cons c cs =>
    simp only [splitLines]
    split
    · simp
    · split <;> simp

/-- No character is lost: a text is its lines joined. -/
theorem join_splitLines (cs : List Char) : joinLines (splitLines cs) = cs := by
  induction cs with
  | nil => rfl
  | cons c cs ih =>
    simp only [splitLines]
    split
    next h =>
      cases hs : splitLines cs with
      | nil => exact absurd hs (splitLines_ne_nil cs)
      | cons line rest => rw [hs] at ih; simp [joinLines, h, ih]
    next =>
      cases hs : splitLines cs with
      | nil => exact absurd hs (splitLines_ne_nil cs)
      | cons line rest =>
        rw [hs] at ih
        cases rest with
        | nil => simpa [joinLines] using ih
        | cons => simpa [joinLines] using ih

/-- The lines of a text, as strings. -/
def lines (s : String) : List String :=
  (splitLines s.toList).map String.ofList

/-- Strings joined by newlines. -/
def unlines (ls : List String) : String :=
  "\n".intercalate ls

/-- Does `part` occur in `whole` as a run of neighbouring characters? -/
def occurs (part : List Char) : List Char → Bool
  | [] => part.isEmpty
  | c :: cs => part.isPrefixOf (c :: cs) || occurs part cs

end SortTrace.Text
