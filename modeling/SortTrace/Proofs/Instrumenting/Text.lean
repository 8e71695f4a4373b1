import Mathlib.Data.List.Find
import SortTrace.Script.Scan

/-!
# Pieces of text

The scanner cuts a text into pieces, each by a function of its own. Of every such function there are
two lemmas here: what it cuts off is a part of the text with so many newlines (`_splits`), and it
cuts off the same where the text goes on behind a newline (`_append`).
-/

namespace SortTrace.Script.Scan

open Text

/-- The text is empty or starts with a newline. -/
def EndsLine (cs : List Char) : Prop :=
  ∀ c ∈ cs.head?, c = '\n'

theorem EndsLine.nil : EndsLine [] := nofun

theorem EndsLine.newline (cs : List Char) : EndsLine ('\n' :: cs) := by
  intro c hc
  exact (Option.some.inj hc).symm

/-- The text is empty or starts with the end of a line, with or without a carriage return. -/
def Stops (cs : List Char) : Prop :=
  ∀ c ∈ cs.head?, c = '\n' ∨ c = '\r'

theorem EndsLine.stops {cs : List Char} (h : EndsLine cs) : Stops cs :=
  fun c hc => .inl (h c hc)

/-- The text `cs` is a piece with `n` newlines and then `rest`. -/
def Cuts (n : Nat) (cs rest : List Char) : Prop :=
  ∃ piece, cs = piece ++ rest ∧ piece.count '\n' = n

namespace Cuts

variable {n m : Nat} {c : Char} {cs mid rest : List Char}

theorem refl (cs : List Char) : Cuts 0 cs cs :=
  ⟨[], rfl, rfl⟩

theorem cons (hc : c ≠ '\n') (h : Cuts n cs rest) : Cuts n (c :: cs) rest := by
  obtain ⟨piece, rfl, hn⟩ := h
  exact ⟨c :: piece, rfl, by rw [List.count_cons_of_ne hc, hn]⟩

theorem newline (h : Cuts n cs rest) : Cuts (n + 1) ('\n' :: cs) rest := by
  obtain ⟨piece, rfl, hn⟩ := h
  exact ⟨'\n' :: piece, rfl, by rw [List.count_cons_self, hn]⟩

theorem trans (h : Cuts n cs mid) (h' : Cuts m mid rest) : Cuts (n + m) cs rest := by
  obtain ⟨piece, rfl, hn⟩ := h
  obtain ⟨piece', rfl, hm⟩ := h'
  exact ⟨piece ++ piece', (List.append_assoc ..).symm, by rw [List.count_append, hn, hm]⟩

theorem suffix (h : Cuts n cs rest) : rest <:+ cs := by
  obtain ⟨piece, rfl, -⟩ := h
  exact List.suffix_append _ _

theorem count (h : Cuts n cs rest) : cs.count '\n' = n + rest.count '\n' := by
  obtain ⟨piece, rfl, rfl⟩ := h
  exact List.count_append

end Cuts

variable {c quote : Char} {cs tail content : List Char} {n width : Nat}

/-! ## Runs of characters -/

theorem takeWhile_append_stop {p : Char → Bool} (ht : ∀ c ∈ tail.head?, p c = false) :
    (cs ++ tail).takeWhile p = cs.takeWhile p := by
  induction cs with
  | nil =>
    cases tail with
    | nil => rfl
    | cons c tail =>
      rw [List.nil_append, List.takeWhile_cons, ht c rfl]
      rfl
  | cons c cs ih => rw [List.cons_append, List.takeWhile_cons, List.takeWhile_cons, ih]

theorem dropWhile_append_stop {p : Char → Bool} (ht : ∀ c ∈ tail.head?, p c = false) :
    (cs ++ tail).dropWhile p = cs.dropWhile p ++ tail := by
  induction cs with
  | nil =>
    cases tail with
    | nil => rfl
    | cons c tail =>
      rw [List.nil_append, List.dropWhile_cons, ht c rfl]
      rfl
  | cons c cs ih =>
    rw [List.cons_append, List.dropWhile_cons, List.dropWhile_cons, ih]
    split <;> rfl

theorem EndsLine.stop {p : Char → Bool} (hp : p '\n' = false) (ht : EndsLine tail) :
    ∀ c ∈ tail.head?, p c = false := by
  intro c hc
  rw [ht c hc, hp]

theorem Stops.stop {p : Char → Bool} (hp : p '\n' = false) (hp' : p '\r' = false)
    (ht : Stops tail) : ∀ c ∈ tail.head?, p c = false := by
  intro c hc
  rcases ht c hc with rfl | rfl
  · exact hp
  · exact hp'

theorem dropWhile_splits {p : Char → Bool} (hp : p '\n' = false) (cs : List Char) :
    Cuts 0 cs (cs.dropWhile p) := by
  induction cs with
  | nil => exact .refl []
  | cons c cs ih =>
    rw [List.dropWhile_cons]
    split
    · next hc =>
      refine .cons ?_ ih
      rintro rfl
      rw [hp] at hc
      cases hc
    · exact .refl _

theorem afterComment_append (ht : EndsLine tail) :
    afterComment (cs ++ tail) = afterComment cs ++ tail :=
  dropWhile_append_stop (ht.stop rfl)

theorem afterComment_splits (cs : List Char) : Cuts 0 cs (afterComment cs) :=
  dropWhile_splits rfl cs

theorem margin_append (ht : Stops tail) :
    margin width (cs ++ tail) = ((margin width cs).1, (margin width cs).2 ++ tail) := by
  fun_induction margin width cs with
  | case1 width cs ih => rw [List.cons_append, margin, ih]
  | case2 width cs ih => rw [List.cons_append, margin, ih]
  | case3 width cs ih => rw [List.cons_append, margin, ih]
  | case4 width cs hspace htab hfeed =>
    cases cs with
    | nil =>
      cases tail with
      | nil => rfl
      | cons c tail => rcases ht c rfl with rfl | rfl <;> rfl
    | cons c cs =>
      rw [List.cons_append, margin]
      · exact fun _ h => hspace cs (congrArg (· :: cs) (List.cons.inj h).1)
      · exact fun _ h => htab cs (congrArg (· :: cs) (List.cons.inj h).1)
      · exact fun _ h => hfeed cs (congrArg (· :: cs) (List.cons.inj h).1)

theorem margin_splits (width : Nat) (cs : List Char) : Cuts 0 cs (margin width cs).2 := by
  fun_induction margin width cs with
  | case1 width cs ih => exact .cons (by decide) ih
  | case2 width cs ih => exact .cons (by decide) ih
  | case3 width cs ih => exact .cons (by decide) ih
  | case4 width cs => exact .refl cs

/-! ## Literals -/

theorem continuation?_append {rest : List Char} (h : continuation? cs = some rest) :
    continuation? (cs ++ tail) = some (rest ++ tail) := by
  unfold continuation? at h
  split at h
  · cases h
    rfl
  · cases h
    rfl
  · cases h

theorem continuation?_splits {rest : List Char} (h : continuation? cs = some rest) :
    Cuts 1 cs rest := by
  unfold continuation? at h
  split at h
  · cases h
    exact .newline (.refl _)
  · cases h
    exact .cons (by decide) (.newline (.refl _))
  · cases h

theorem stringBody_append {r : List Char × Nat × List Char}
    (h : stringBody quote cs content n = some r) :
    stringBody quote (cs ++ tail) content n = some (r.1, r.2.1, r.2.2 ++ tail) := by
  fun_induction stringBody quote cs content n with
  | case3 cs content n hquote =>
    cases h
    rw [List.cons_append, stringBody.eq_def]
    simp [hquote]
  | case12 c cs content n hnew hquote hslash ih =>
    rw [List.cons_append, stringBody.eq_def]
    simpa [hnew, hquote, hslash] using ih h
  | _ => simp_all [stringBody]

theorem stringBody_splits {r : List Char × Nat × List Char}
    (h : stringBody quote cs content n = some r) :
    n ≤ r.2.1 ∧ Cuts (r.2.1 - n) cs r.2.2 := by
  fun_induction stringBody quote cs content n with
  | case1 | case2 | case4 => cases h
  | case3 cs content n hquote =>
    cases h
    refine ⟨Nat.le_refl n, ?_⟩
    rw [Nat.sub_self]
    exact .cons hquote (.refl cs)
  | case5 _ _ _ _ _ ih | case6 _ _ _ _ _ _ ih | case7 _ _ _ _ _ _ _ ih
  | case8 _ _ _ _ _ _ _ _ ih =>
    obtain ⟨hle, hcuts⟩ := ih h
    exact ⟨hle, .cons (by decide) (.cons (by decide) hcuts)⟩
  | case9 content n e cs _ _ _ _ he _ _ ih =>
    obtain ⟨hle, hcuts⟩ := ih h
    refine ⟨hle, .cons (by decide) (.cons ?_ hcuts)⟩
    rintro rfl
    revert he
    decide
  | case10 content n cs _ _ _ _ _ _ _ ih =>
    obtain ⟨hle, hcuts⟩ := ih h
    have more : r.2.1 - n = r.2.1 - (n + 1) + 1 := by omega
    rw [more]
    exact ⟨by omega, .cons (by decide) (.newline hcuts)⟩
  | case11 content n e cs _ _ _ _ _ he _ _ ih =>
    obtain ⟨hle, hcuts⟩ := ih h
    exact ⟨hle, .cons (by decide) (.cons he hcuts)⟩
  | case12 c cs content n hnew hquote hslash ih =>
    obtain ⟨hle, hcuts⟩ := ih h
    exact ⟨hle, .cons hnew hcuts⟩

theorem numberBody_stop {real : Bool} {taken : List Char} (ht : Stops tail) :
    numberBody tail real taken = (taken.reverse, real, tail) := by
  cases tail with
  | nil => rfl
  | cons c tail =>
    rw [numberBody.eq_def]
    rcases ht c rfl with rfl | rfl <;> simp

theorem numberBody_append {real : Bool} {taken : List Char} (ht : Stops tail) :
    numberBody (cs ++ tail) real taken = ((numberBody cs real taken).1,
      (numberBody cs real taken).2.1, (numberBody cs real taken).2.2 ++ tail) := by
  fun_induction numberBody cs real taken with
  | case1 real taken => exact numberBody_stop ht
  | case2 c cs real taken hc ih =>
    rw [List.cons_append, numberBody.eq_def]
    simp only [hc, if_true]
    exact ih
  | case3 c cs real taken hdigit hc ih =>
    rw [List.cons_append, numberBody.eq_def]
    simp only [if_neg hdigit, if_pos hc]
    exact ih
  | case4 c real taken hdigit hpoint hexp d cs hd ih =>
    rw [List.cons_append, List.cons_append, numberBody.eq_def]
    simp only [hdigit, hpoint, hexp, hd, if_true, if_false]
    exact ih
  | case5 c real taken hdigit hpoint hexp d cs hd =>
    rw [List.cons_append, List.cons_append, numberBody.eq_def]
    simp only [hdigit, hpoint, hexp, hd, if_true, if_false]
  | case6 c real taken hdigit hpoint hexp =>
    rw [List.cons_append, List.nil_append, numberBody.eq_def]
    simp only [hdigit, hpoint, hexp, if_true, if_false]
    cases tail with
    | nil => rfl
    | cons d tail => rcases ht d rfl with rfl | rfl <;> rfl
  | case7 c cs real taken hdigit hpoint hexp =>
    rw [List.cons_append, numberBody.eq_def]
    simp only [hdigit, hpoint, hexp, if_false]

theorem numberBody_splits (cs : List Char) (real : Bool) (taken : List Char) :
    Cuts 0 cs (numberBody cs real taken).2.2 := by
  fun_induction numberBody cs real taken with
  | case1 | case5 | case6 | case7 => exact .refl _
  | case2 c cs real taken hc ih =>
    refine .cons ?_ ih
    rintro rfl
    revert hc
    decide
  | case3 c cs real taken _ hc ih =>
    refine .cons ?_ ih
    rw [hc.1]
    decide
  | case4 c real taken _ _ hc d cs hd ih =>
    refine .cons ?_ (.cons ?_ ih)
    · rcases hc with rfl | rfl <;> decide
    · rintro rfl
      revert hd
      decide

/-! ## Operators -/

theorem spellings_onLine : ∀ p ∈ spellingsByLength, '\n' ∉ p.1 := by
  decide

theorem spellings_noReturn : ∀ p ∈ spellingsByLength, '\r' ∉ p.1 := by
  decide

theorem isPrefixOf_append {xs : List Char} (hx : '\n' ∉ xs) (hx' : '\r' ∉ xs)
    (ht : Stops tail) :
    xs.isPrefixOf (cs ++ tail) = xs.isPrefixOf cs := by
  induction xs generalizing cs with
  | nil => rfl
  | cons x xs ih =>
    cases cs with
    | nil =>
      cases tail with
      | nil => rfl
      | cons c tail =>
        have differs : (x == c) = false := by
          rw [beq_eq_false_iff_ne]
          rintro rfl
          rcases ht x rfl with rfl | rfl
          · exact hx (List.mem_cons_self ..)
          · exact hx' (List.mem_cons_self ..)
        rw [List.nil_append, List.isPrefixOf_cons_cons, differs]
        rfl
    | cons c cs =>
      rw [List.cons_append, List.isPrefixOf_cons_cons, List.isPrefixOf_cons_cons,
        ih (fun h => hx (List.mem_cons_of_mem _ h)) fun h => hx' (List.mem_cons_of_mem _ h)]

/-- The spelling that an operator is found by. -/
theorem operator?_spelling {r : Lexeme × List Char} (h : operator? c cs = some r) :
    ∃ p more, spellingsByLength.find? (fun p => p.1.isPrefixOf (c :: cs)) = some p ∧
      p.1 ++ more = c :: cs ∧ r = (p.2, cs.drop (p.1.length - 1)) := by
  obtain ⟨p, hp, rfl⟩ := Option.map_eq_some_iff.1 h
  have front : p.1.isPrefixOf (c :: cs) = true :=
    List.find?_some (p := fun p : List Char × Lexeme => p.1.isPrefixOf (c :: cs)) hp
  obtain ⟨more, hmore⟩ := List.isPrefixOf_iff_prefix.mp front
  exact ⟨p, more, hp, hmore, rfl⟩

theorem operator?_append (ht : Stops tail) :
    operator? c (cs ++ tail) = (operator? c cs).map fun r => (r.1, r.2 ++ tail) := by
  have same : spellingsByLength.find? (fun p => p.1.isPrefixOf (c :: (cs ++ tail)))
      = spellingsByLength.find? (fun p => p.1.isPrefixOf (c :: cs)) :=
    List.find?_congr fun p hp => by
      rw [← List.cons_append,
        isPrefixOf_append (spellings_onLine p hp) (spellings_noReturn p hp) ht]
  cases h : operator? c cs with
  | none =>
    have nothing := Option.map_eq_none_iff.mp h
    rw [operator?, same, nothing]
    rfl
  | some r =>
    obtain ⟨p, more, hp, hmore, rfl⟩ := operator?_spelling h
    have within : p.1.length - 1 ≤ cs.length := by
      have whole := congrArg List.length hmore
      rw [List.length_append, List.length_cons] at whole
      omega
    rw [operator?, same, hp, Option.map_some, List.drop_append_of_le_length within]
    rfl

theorem operator?_splits {r : Lexeme × List Char} (h : operator? c cs = some r) :
    Cuts 0 cs r.2 := by
  obtain ⟨p, more, hp, hmore, rfl⟩ := operator?_spelling h
  refine ⟨cs.take (p.1.length - 1), (List.take_append_drop _ cs).symm, ?_⟩
  have onLine := spellings_onLine p (List.mem_of_find?_eq_some hp)
  rw [List.count_eq_zero]
  intro hmem
  generalize p.1 = spelling at hmore onLine hmem
  cases spelling with
  | nil => cases hmem
  | cons d spelling =>
    rw [List.cons_append] at hmore
    obtain ⟨-, rfl⟩ := List.cons.inj hmore
    rw [List.length_cons, Nat.add_sub_cancel, List.take_left] at hmem
    exact onLine (List.mem_cons_of_mem _ hmem)

end SortTrace.Script.Scan
