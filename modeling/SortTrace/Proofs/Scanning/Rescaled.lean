import SortTrace.Proofs.Scanning.OwnLines

/-!
# Margins of other widths

Where two texts differ in nothing but the margins of their lines, whose widths compare in the same
way, they have the same tokens, or the same error (`tokenize_rescaled`): the width of a margin is
only compared with other widths, and inside brackets and behind a backslash it is not even measured.
String literals that go on over the end of a line are the exception, since a margin is a part of
their content.
-/

namespace SortTrace.Script

open Text

namespace Scan

/-- The second text is the first one, line by line, with a margin of width `f w` for each margin of
width `w`. -/
inductive Rescaled (f : Nat → Nat) : List Char → List Char → Prop
  | nil : Rescaled f [] []
  | line {blanks blanks' line tail tail' : List Char}
    (hblanks : ∀ c ∈ blanks, isMargin c = true) (hblanks' : ∀ c ∈ blanks', isMargin c = true)
    (hwidth : (margin 0 blanks').1 = f (margin 0 blanks).1)
    (hfilled : ∀ c ∈ line.head?, isMargin c = false) (hline : '\n' ∉ line)
    (htails : LineEnds (Rescaled f) false tail tail') :
    Rescaled f (blanks ++ (line ++ tail)) (blanks' ++ (line ++ tail'))

/-- Inside a line the texts go on with the same line behind any blanks. -/
inductive ReadsOn (f : Nat → Nat) : List Char → List Char → Prop
  | line {blanks blanks' line tail tail' : List Char}
    (hblanks : ∀ c ∈ blanks, isMargin c = true) (hblanks' : ∀ c ∈ blanks', isMargin c = true)
    (hline : '\n' ∉ line) (htails : LineEnds (Rescaled f) false tail tail') :
    ReadsOn f (blanks ++ (line ++ tail)) (blanks' ++ (line ++ tail'))

variable {f : Nat → Nat} {quote c : Char}
  {cs cs' blanks line tail tail' content content' : List Char} {n n' : Nat} {s s' : Scan}

theorem ReadsOn.onLine (hline : '\n' ∉ line) (htails : LineEnds (Rescaled f) false tail tail') :
    ReadsOn f (line ++ tail) (line ++ tail') :=
  show ReadsOn f ([] ++ (line ++ tail)) ([] ++ (line ++ tail')) from
    .line nofun nofun hline htails

theorem ReadsOn.ends (htails : LineEnds (Rescaled f) false tail tail') : ReadsOn f tail tail' :=
  show ReadsOn f ([] ++ tail) ([] ++ tail') from .onLine nofun htails

theorem Rescaled.readsOn (h : Rescaled f cs cs') : ReadsOn f cs cs' := by
  cases h with
  | nil => exact .ends (.none .nil)
  | line hblanks hblanks' _ _ hline htails => exact .line hblanks hblanks' hline htails

theorem sameLine_rescaled (hline : '\n' ∉ line) (htails : LineEnds (Rescaled f) false tail tail') :
    SameLine (Rescaled f) (ReadsOn f) false line tail tail' where
  onLine := hline
  ends := htails
  noReturn := Bool.noConfusion
  rest := fun _ hrest => .onLine (fun h => hline (hrest.subset h)) htails
  comment := .ends htails.afterComment

/-! ## String literals -/

theorem stringBody_blanks (hquote : quote = '"' ∨ quote = '\'')
    (hblanks : ∀ c ∈ blanks, isMargin c = true) (cs : List Char) :
    stringBody quote (blanks ++ cs) content n
      = stringBody quote cs (blanks.reverse ++ content) n := by
  induction blanks generalizing content with
  | nil => rfl
  | cons c blanks ih =>
    obtain ⟨hc, hblanks⟩ := List.forall_mem_cons.mp hblanks
    have plain : c ≠ '\n' ∧ c ≠ quote ∧ c ≠ '\\' := by
      refine ⟨?_, ?_, ?_⟩
      · rintro rfl
        cases hc
      · rintro rfl
        rcases hquote with rfl | rfl <;> cases hc
      · rintro rfl
        cases hc
    rw [List.cons_append, stringBody_plain plain.1 plain.2.1 plain.2.2, ih hblanks,
      List.reverse_cons, List.append_assoc]
    rfl

/-- A literal without an end has none behind the line either, unless the next lines have one. -/
theorem stringBody_line_none (hquote : quote = '"' ∨ quote = '\'') (hline : '\n' ∉ line)
    (htails : LineEnds (Rescaled f) false tail tail')
    (hnext : ∀ more more', tail = '\n' :: more → Rescaled f more more' → ∀ content n content' n',
      stringBody quote more content n = none → stringBody quote more' content' n' = none)
    (h : stringBody quote (line ++ tail) content n = none) :
    stringBody quote (line ++ tail') content' n' = none := by
  have other : quote ≠ '\n' ∧ '\\' ≠ quote := by rcases hquote with rfl | rfl <;> decide
  induction line using body_induction quote generalizing content content' with
  | nil =>
    cases htails with
    | none => rfl
    | newline => exact stringBody_newline
  | newline cs => exact absurd (List.mem_cons_self ..) hline
  | close cs =>
    rw [List.cons_append, stringBody_close other.1] at h
    cases h
  | back =>
    cases htails with
    | none => exact stringBody_back other.2
    | newline hmore =>
      rw [List.singleton_append, stringBody_join other.2] at h ⊢
      exact hnext _ _ rfl hmore _ _ _ _ h
  | escape e cs ih =>
    have he : e ≠ '\n' := fun he => hline (he ▸ List.mem_cons_of_mem _ (List.mem_cons_self ..))
    obtain ⟨_, same⟩ := stringBody_escape other.2 he content
    obtain ⟨_, same'⟩ := stringBody_escape other.2 he content'
    rw [List.cons_append, List.cons_append, same] at h
    rw [List.cons_append, List.cons_append, same']
    exact ih (fun hmem => hline (List.mem_cons_of_mem _ (List.mem_cons_of_mem _ hmem))) h
  | plain c cs hnew hq hback ih =>
    rw [List.cons_append, stringBody_plain hnew hq hback] at h ⊢
    exact ih (fun hmem => hline (List.mem_cons_of_mem _ hmem)) h

/-- A literal without an end has none in the other text either. -/
theorem stringBody_none (hquote : quote = '"' ∨ quote = '\'') (hcs : ReadsOn f cs cs')
    (h : stringBody quote cs content n = none) : stringBody quote cs' content' n' = none := by
  induction hlength : cs.length using Nat.strong_induction_on
    generalizing cs cs' content n content' n' with
  | h length ih =>
    subst hlength
    cases hcs with
    | @line blanks blanks' line tail tail' hblanks hblanks' hline htails =>
      rw [stringBody_blanks hquote hblanks] at h
      rw [stringBody_blanks hquote hblanks']
      refine stringBody_line_none hquote hline htails ?_ h
      intro more more' htail hmore _ _ _ _ hnone
      have shorter : more.length < (blanks ++ (line ++ tail)).length := by
        rw [htail, List.length_append, List.length_append, List.length_cons]
        omega
      exact ih _ shorter hmore.readsOn hnone rfl

/-! ## Two scans -/

/-- The scans of rescaled texts, of which the first has no string literal ahead that goes on over
the end of a line. -/
def Rescales (f : Nat → Nat) (s s' : Scan) : Prop :=
  Abreast (Rescaled f) (ReadsOn f) 0 f [] s s' ∧ s.OwnLines

/-- Inside a line blanks are passed one by one. -/
theorem passes_blanks (hfresh : s.fresh = false) (hblanks : ∀ c ∈ blanks, isMargin c = true)
    (hrest : s.rest = blanks ++ cs) : ComesTo s { s with rest := cs } := by
  induction blanks generalizing s with
  | nil =>
    obtain rfl : s.rest = cs := hrest
    exact .refl
  | cons c blanks ih =>
    obtain ⟨hc, hblanks⟩ := List.forall_mem_cons.mp hblanks
    exact .head (goes_gap hfresh (.inl hc) hrest)
      (ih (s := { s with rest := blanks ++ cs }) hfresh hblanks rfl)

/-- A margin with nothing behind it is passed at once. -/
theorem passes_margin (hfresh : s.fresh = true) (hblanks : ∀ c ∈ s.rest, isMargin c = true) :
    ComesTo s { s with rest := [] } := by
  by_cases hend : s.rest = []
  · rw [← hend]
  · have nothing : ∀ c ∈ ([] : List Char).head?, isMargin c = false := nofun
    have passed := margin_filled hblanks nothing 0
    rw [List.append_nil] at passed
    refine .single ⟨hend, ?_⟩
    rw [step_fresh hfresh, passed]
    rfl

theorem filled_append (hfilled : ∀ c ∈ line.head?, isMargin c = false) (ht : Stops tail) :
    ∀ c ∈ (line ++ tail).head?, isMargin c = false := by
  cases line with
  | cons c line => exact hfilled
  | nil => exact ht.stop rfl rfl

/-- At the start of a line one step of either scan follows, or both texts end. -/
theorem matched_fresh (hf : StrictMono f) (hf0 : f 0 = 0) (h : Rescales f s s')
    (hfresh : s.fresh = true) : Matched 0 (Rescales f) (Tracks 0 f []) s s' := by
  obtain ⟨abreast, own⟩ := h
  have hfresh' := abreast.fresh.trans hfresh
  have rescaled := abreast.starts hfresh
  generalize hcs : s.rest = cs at rescaled
  generalize hcs' : s'.rest = cs' at rescaled
  cases rescaled with
  | nil => exact .ended .refl .refl hcs hcs' abreast.toTracks
  | @line blanks blanks' line tail tail' hblanks hblanks' hwidth hfilled hline htails =>
    have same := sameLine_rescaled hline htails
    by_cases hend : line ++ tail = []
    · obtain ⟨rfl, rfl⟩ := List.append_eq_nil_iff.mp hend
      cases htails
      rw [List.append_nil, List.append_nil] at hcs hcs'
      exact .ended (passes_margin hfresh (hcs ▸ hblanks)) (passes_margin hfresh' (hcs' ▸ hblanks'))
        rfl rfl (abreast.toTracks.skip 0 [] [])
    · have hend' : line ++ tail' ≠ [] := by
        intro hnil
        obtain ⟨rfl, rfl⟩ := List.append_eq_nil_iff.mp hnil
        cases htails
        exact hend rfl
      have hmargin : margin 0 s.rest = ((margin 0 blanks).1, line ++ tail) := by
        rw [hcs, margin_filled hblanks (filled_append hfilled htails.endsLine.stops)]
      have hmargin' : margin 0 s'.rest = ((margin 0 blanks').1, line ++ tail') := by
        rw [hcs', margin_filled hblanks' (filled_append hfilled htails.stops)]
      have hs : s.rest ≠ [] := hcs ▸ List.append_ne_nil_of_right_ne_nil _ hend
      have hs' : s'.rest ≠ [] := hcs' ▸ List.append_ne_nil_of_right_ne_nil _ hend'
      refine .step .refl .refl hs hs'
        (Answers.besides ?_ fun t ht => own.onward (.single ⟨hs, ht⟩))
      refine step_fresh_abreast hf hf0 (fun _ _ => Rescaled.readsOn) abreast.toTracks hfresh ?_ ?_
      · rw [hmargin, hmargin']
        exact hwidth
      · rw [hmargin, hmargin']
        refine same.lineAlike (fun _ _ => Rescaled.readsOn) fun ⟨u, hindent⟩ c rest heq hc => ?_
        subst heq
        refine same.behind.string hc (fun r hr => ?_)
          (stringBody_none hc (same.behind.rest rest List.suffix_rfl))
        exact lines_fresh own.here hfresh (congrArg Prod.snd hmargin) hc (hmargin ▸ hindent) hr

/-- Inside a line blanks are passed, and one step of either scan follows, or both texts end. -/
theorem matched_inside (h : Rescales f s s') (hfresh : s.fresh = false) :
    Matched 0 (Rescales f) (Tracks 0 f []) s s' := by
  obtain ⟨abreast, own⟩ := h
  have hfresh' := abreast.fresh.trans hfresh
  have readsOn := abreast.within hfresh
  generalize hcs : s.rest = cs at readsOn
  generalize hcs' : s'.rest = cs' at readsOn
  cases readsOn with
  | @line blanks blanks' line tail tail' hblanks hblanks' hline htails =>
    have same := sameLine_rescaled hline htails
    have passed := passes_blanks hfresh hblanks hcs
    have passed' := passes_blanks hfresh' hblanks' hcs'
    have own' := own.onward passed
    have tracks := abreast.toTracks.skip 0 (line ++ tail) (line ++ tail')
    cases line with
    | nil =>
      cases htails with
      | none => exact .ended passed passed' rfl rfl tracks
      | newline h =>
        refine .step passed passed' (List.cons_ne_nil _ _) (List.cons_ne_nil _ _)
          (Answers.besides ?_ fun t ht => own'.onward (.single ⟨List.cons_ne_nil _ _, ht⟩))
        exact step_within_abreast (fun _ _ => Rescaled.readsOn) tracks hfresh rfl rfl (.lineEnd h)
    | cons c line =>
      refine .step passed passed' (List.cons_ne_nil _ _) (List.cons_ne_nil _ _)
        (Answers.besides ?_ fun t ht => own'.onward (.single ⟨List.cons_ne_nil _ _, ht⟩))
      refine step_within_abreast (fun _ _ => Rescaled.readsOn) tracks hfresh rfl rfl ?_
      refine same.behind.piece (List.ne_of_not_mem_cons hline).symm (fun _ _ => Rescaled.readsOn)
        fun hc => ?_
      exact same.behind.string hc (fun r hr => lines_inside own'.here hfresh rfl hc hr)
        (stringBody_none hc (same.behind.rest line List.suffix_rfl))

/-- Rescaled texts are scanned alike. -/
theorem run_rescaled (hf : StrictMono f) (hf0 : f 0 = 0) (h : Rescaled f cs cs')
    (hown : (start cs).OwnLines) :
    Answers 0 (Tracks 0 f []) ((start cs).run #[]) ((start cs').run #[]) := by
  have first : Rescales f (start cs) (start cs') :=
    ⟨⟨.start f cs cs', fun _ => h, fun _ => h.readsOn⟩, hown⟩
  refine run_matched (fun s s' related => ?_) first
  cases hfresh : s.fresh with
  | true => exact matched_fresh hf hf0 related hfresh
  | false => exact matched_inside related hfresh

end Scan

open Scan

/-- Rescaled texts have the same tokens, or the same error. -/
theorem tokenize_rescaled {f : Nat → Nat} (hf : StrictMono f) (hf0 : f 0 = 0) {text text' : String}
    (h : Rescaled f text.toList text'.toList) (hstrings : StringsOnLine text) (map : Array Nat) :
    tokenize text' map = tokenize text map :=
  tokenize_of_tracks (run_rescaled hf hf0 h hstrings) map

end SortTrace.Script
