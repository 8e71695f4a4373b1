import SortTrace.Text.Blank
import SortTrace.Text.Lines

/-!
# What a source seems to be

The functions that a source seems to define and the sorting algorithm that it seems to implement.
Both are judged by the words in the text, without reading it as a program.
-/

namespace SortTrace.Source

/-- Can the character occur in the name of a listed function? Names are cut where it cannot. -/
def isNameChar (c : Char) : Bool :=
  c.isAlphanum || c == '_'

/-- The name of the function that a line seems to define. -/
def definedName? (line : List Char) : Option String :=
  match Text.trimLeft line with
  | 'd' :: 'e' :: 'f' :: ' ' :: rest =>
    let name := (Text.trimLeft rest).takeWhile isNameChar
    if name.isEmpty then none else some (String.ofList name)
  | _ => none

/-- The functions that lines seem to define with the line of the first definition of each, in the
order of these lines, when `found` are those before line `n`. -/
def definitionsFrom (n : Nat) (found : List (String × Nat)) :
    List (List Char) → List (String × Nat)
  | [] => found
  | line :: rest =>
    match definedName? line with
    | some name =>
      if found.any fun p => p.1 == name then definitionsFrom (n + 1) found rest
      else definitionsFrom (n + 1) (found ++ [(name, n)]) rest
    | none => definitionsFrom (n + 1) found rest

/-- The functions that a text seems to define with their lines, ordered by name. -/
def definitions (text : List Char) : List (String × Nat) :=
  (definitionsFrom 1 [] (Text.splitLines text)).mergeSort fun p q => !(q.1 < p.1)

/-- The sorting algorithms that are told apart. -/
inductive Algorithm where
  | quickSort | insertionSort | mergeSort | heapSort | bubbleSort | selectionSort | unknown
deriving DecidableEq, Repr, Inhabited

namespace Algorithm

/-- The name in a report. -/
def name : Algorithm → String
  | quickSort => "quickSort"
  | insertionSort => "insertionSort"
  | mergeSort => "mergeSort"
  | heapSort => "heapSort"
  | bubbleSort => "bubbleSort"
  | selectionSort => "selectionSort"
  | unknown => "unknown"

/-- The name for readers. -/
def label : Algorithm → String
  | quickSort => "Quick Sort"
  | insertionSort => "Insertion Sort"
  | mergeSort => "Merge Sort"
  | heapSort => "Heap Sort"
  | bubbleSort => "Bubble Sort"
  | selectionSort => "Selection Sort"
  | unknown => "Unknown"

end Algorithm

/-- The lowercase form of a character, as far as it has ASCII characters in it: besides the capitals
of ASCII these are the dotted capital I and the kelvin sign. -/
def lowerChar (c : Char) : List Char :=
  if c = '\u0130' then ['i', '\u0307']
  else if c = '\u212a' then ['k']
  else [c.toLower]

/-- Does a function seem to be a quicksort? -/
def isQuickName (name : String) : Bool :=
  Text.occurs "quick".toList name.toList || name == "qsort"

/-- The algorithm that a source seems to implement; the first that fits. -/
def detect (source : String) : Algorithm :=
  let text := source.toList.flatMap lowerChar
  let has (word : String) : Bool := Text.occurs word.toList text
  if has "partition" && (definitions text).any fun p => isQuickName p.1 then .quickSort
  else if has "while" && has "key" && !has "partition" then .insertionSort
  else if has "merge" && !has "partition" && !has "heapify" then .mergeSort
  else if has "heapify" && !has "partition" then .heapSort
  else if has "- i - 1" then .bubbleSort
  else if has "min_idx" || has "min_index" || has "minidx" then .selectionSort
  else .unknown

end SortTrace.Source
