import SortTrace.Proofs.Instrumenting.Origins
import SortTrace.Proofs.Scanning.Rescaled

/-!
# Depth of indentation

Blocks are told apart by whether a line stands deeper than another one and not by how deep it
stands, so that the leading blanks of all lines may be rescaled (`tokenize_reindent`).
-/

namespace SortTrace.Script

open Text Scan

/-- The line with `f w` leading blanks for the `w` that it has. -/
def reindentLine (f : Nat → Nat) (line : List Char) : List Char :=
  List.replicate (f (line.takeWhile fun c => c = ' ').length) ' ' ++ line.dropWhile fun c => c = ' '

/-- The text with the leading blanks of every line rescaled. -/
def reindent (f : Nat → Nat) (text : String) : String :=
  String.ofList (joinLines ((splitLines text.toList).map (reindentLine f)))

namespace Scan

variable {f : Nat → Nat} {line tail tail' : List Char}

theorem margin_replicate (w : Nat) : (margin 0 (List.replicate w ' ')).1 = w := by
  have wide (w width : Nat) : (margin width (List.replicate w ' ')).1 = width + w := by
    induction w generalizing width with
    | zero => rfl
    | succ w ih =>
      rw [List.replicate_succ, margin, ih]
      omega
  rw [wide, Nat.zero_add]

/-- Behind its leading blanks a line has no margin, if its margin is made of blanks. -/
theorem filled_dropWhile (hspaces : ∀ c ∈ line.takeWhile isMargin, c = ' ') :
    ∀ c ∈ (line.dropWhile fun c => c = ' ').head?, isMargin c = false := by
  induction line with
  | nil => exact nofun
  | cons c line ih =>
    by_cases hc : c = ' '
    · subst hc
      exact ih fun d hd => hspaces d (List.mem_cons_of_mem _ hd)
    · rw [List.dropWhile_cons_of_neg (by simpa using hc)]
      intro d hd
      obtain rfl : c = d := Option.some.inj hd
      rw [← Bool.not_eq_true]
      intro hmargin
      refine hc (hspaces c ?_)
      rw [List.takeWhile_cons_of_pos hmargin]
      exact List.mem_cons_self ..

theorem rescaled_reindentLine (hline : '\n' ∉ line)
    (hspaces : ∀ c ∈ line.takeWhile isMargin, c = ' ')
    (htails : LineEnds (Rescaled f) false tail tail') :
    Rescaled f (line ++ tail) (reindentLine f line ++ tail') := by
  generalize hw : (line.takeWhile fun c => c = ' ').length = w
  have blanks : line.takeWhile (fun c => c = ' ') = List.replicate w ' ' :=
    List.eq_replicate_iff.mpr ⟨hw, fun c hc =>
      of_decide_eq_true (List.all_eq_true.mp List.all_takeWhile c hc)⟩
  have parts : line = List.replicate w ' ' ++ line.dropWhile fun c => c = ' ' :=
    blanks ▸ List.takeWhile_append_dropWhile.symm
  have onLine : '\n' ∉ line.dropWhile fun c => c = ' ' :=
    fun hmem => hline ((List.dropWhile_suffix _).subset hmem)
  have isBlank (n : Nat) : ∀ c ∈ List.replicate n ' ', isMargin c = true := by
    intro c hc
    rw [List.eq_of_mem_replicate hc]
    rfl
  have width : (margin 0 (List.replicate (f w) ' ')).1 = f (margin 0 (List.replicate w ' ')).1 := by
    rw [margin_replicate, margin_replicate]
  have rescaled := Rescaled.line (isBlank w) (isBlank (f w)) width (filled_dropWhile hspaces) onLine
    htails
  rwa [← List.append_assoc, ← List.append_assoc, ← parts, ← hw] at rescaled

/-- The lines of a text and the rescaled lines make rescaled texts. -/
theorem rescaled_reindent {ls : List (List Char)} (hls : ∀ line ∈ ls, '\n' ∉ line)
    (hspaces : ∀ line ∈ ls, ∀ c ∈ line.takeWhile isMargin, c = ' ') :
    Rescaled f (joinLines ls) (joinLines (ls.map (reindentLine f))) := by
  induction ls with
  | nil => exact .nil
  | cons line ls ih =>
    obtain ⟨hline, hls⟩ := List.forall_mem_cons.mp hls
    obtain ⟨hspace, hspaces⟩ := List.forall_mem_cons.mp hspaces
    cases ls with
    | nil =>
      have alone : Rescaled f (line ++ []) (reindentLine f line ++ []) :=
        rescaled_reindentLine hline hspace (.none .nil)
      rwa [List.append_nil, List.append_nil] at alone
    | cons next ls =>
      exact rescaled_reindentLine hline hspace (.newline (ih hls hspaces))

end Scan

/-- Only the relative depth of the lines matters: where margins are made of blanks and no string
literal goes on over the end of a line, other widths that compare in the same way give the same
tokens, or the same error. -/
theorem tokenize_reindent {f : Nat → Nat} (hf : StrictMono f) (hf0 : f 0 = 0) {text : String}
    (hspaces : ∀ line ∈ splitLines text.toList, ∀ c ∈ line.takeWhile isMargin, c = ' ')
    (hstrings : StringsOnLine text) (map : Array Nat) :
    tokenize (reindent f text) map = tokenize text map := by
  refine tokenize_rescaled hf hf0 ?_ hstrings map
  have rescaled := rescaled_reindent (f := f) (splitLines_onLine text.toList) hspaces
  rwa [join_splitLines, ← String.toList_ofList (l := joinLines _)] at rescaled

/-- Blocks in blocks, of which two end at once, with a list that goes on over a line that stands
less deep, and with blank lines between. -/
theorem tokenize_reindent_squares :
    let text := "if x:\n if y:\n   z = [1,\n  'a']\n  \nu\n"
    let f := fun w : Nat => w * w
    (StrictMono f ∧ f 0 = 0 ∧
      (∀ line ∈ splitLines text.toList, ∀ c ∈ line.takeWhile isMargin, c = ' ') ∧
      StringsOnLine text) ∧
    reindent f text = "if x:\n if y:\n         z = [1,\n    'a']\n    \nu\n" ∧
    tokenize (reindent f text) #[] = tokenize text #[] := by
  intro text f
  have mono : StrictMono f := fun _ _ h => Nat.mul_self_lt_mul_self h
  have spaces : ∀ line ∈ splitLines text.toList, ∀ c ∈ line.takeWhile isMargin, c = ' ' := by
    have margins : ((splitLines text.toList).all fun line =>
        (line.takeWhile isMargin).all fun c => c == ' ') = true := by decide +kernel
    simpa only [List.all_eq_true, beq_iff_eq] using margins
  have strings : StringsOnLine text := by decide +kernel
  exact ⟨⟨mono, rfl, spaces, strings⟩, by decide +kernel,
    tokenize_reindent mono rfl spaces strings #[]⟩

end SortTrace.Script
