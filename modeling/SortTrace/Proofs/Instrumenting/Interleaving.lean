import Mathlib.Data.List.Sort
import SortTrace.Proofs.Instrumenting.Origins

/-!
# Sources and their calls, line by line

An instrumented source is its source with calls between the lines: `ofSource_interleaves`. The calls
are told by their positions, which increase, so that a search finds them (`searchFrom_iff`); every
line is told by its number, and the lines that the text has are the lines that are told of.
-/

namespace SortTrace.Source

variable {α : Type} {var source : String} {n i j : Nat} {ls : List String} {s : Interleaving}

namespace Instrumented

/-! ## The search for a position -/

theorem searchFrom_iff (ns : Array Nat) (x base size : Nat) (hns : ns.toList.Pairwise (· < ·))
    (hsize : base + size ≤ ns.size)
    (hbelow : ∀ k, k < base → ns[k]? ≠ some x) (habove : ∀ k, base + size ≤ k → ns[k]? ≠ some x) :
    searchFrom ns x base size = true ↔ x ∈ ns := by
  have increasing {a b p q : Nat} (hab : a < b) (hp : ns[a]? = some p) (hq : ns[b]? = some q) :
      p < q := by
    rw [← Array.getElem?_toList] at hp hq
    obtain ⟨ha, rfl⟩ := List.getElem?_eq_some_iff.mp hp
    obtain ⟨hb, rfl⟩ := List.getElem?_eq_some_iff.mp hq
    exact List.pairwise_iff_getElem.mp hns a b ha hb hab
  fun_induction searchFrom ns x base size with
  | case1 base size hmany half base' ih =>
    have hhalf : base + half < ns.size := by omega
    have middle : ns[base + half]? = some ns[base + half] := Array.getElem?_eq_getElem hhalf
    by_cases hx : x < ns[base + half]
    · have lower : base' = base := by simp [base', middle, hx]
      rw [lower] at ih ⊢
      refine ih (by omega) hbelow fun k hk heq => ?_
      -- what stands from the middle on is too large
      by_cases hmid : k = base + half
      · rw [hmid, middle] at heq
        exact absurd (Option.some.inj heq) (by omega)
      · have := increasing (show base + half < k by omega) middle heq
        omega
    · have upper : base' = base + half := by simp [base', middle, hx]
      rw [upper] at ih ⊢
      refine ih (by omega) (fun k hk heq => ?_) fun k hk => habove k (by omega)
      have := increasing hk heq middle
      omega
  | case2 base size hfew =>
    rw [beq_iff_eq, Array.mem_iff_getElem?]
    constructor
    · exact fun h => ⟨base, h⟩
    · rintro ⟨k, hk⟩
      have inside : base ≤ k ∧ k < base + size := by
        constructor
        · by_contra h
          exact hbelow k (by omega) hk
        · by_contra h
          exact habove k (by omega) hk
      obtain rfl : k = base := by omega
      exact hk

/-! ## Positions -/

/-- The items of a list but for those at some positions. -/
def without (positions : List Nat) (xs : List α) : List α :=
  (xs.zipIdx.filter fun p => !positions.contains p.2).map Prod.fst

end Instrumented

namespace Interleaving

open Instrumented (without)

theorem mem_injections : i ∈ s.injectionsFrom 0 ↔ ∃ l, s[i]? = some l ∧ l.injected = true := by
  rw [injectionsFrom, List.mem_filterMap]
  constructor
  · rintro ⟨⟨l, k⟩, hmem, heq⟩
    rw [List.mem_zipIdx_iff_getElem?] at hmem
    cases hl : l.injected with
    | false => simp [hl] at heq
    | true =>
      simp only [hl, if_true, Option.some.injEq] at heq
      exact ⟨l, heq ▸ hmem, hl⟩
  · rintro ⟨l, hl, hinjected⟩
    exact ⟨(l, i), List.mem_zipIdx_iff_getElem?.mpr hl, by simp [hinjected]⟩

theorem pairwise_injections (s : Interleaving) : (s.injectionsFrom 0).Pairwise (· < ·) := by
  have positions : s.injectionsFrom 0
      = (s.zipIdx.filter fun p => p.1.injected).map Prod.snd := by
    rw [injectionsFrom, ← List.filterMap_eq_map, List.filterMap_filter]
    rfl
  have part : (s.injectionsFrom 0).Sublist (List.range' 0 s.length) := by
    rw [positions, ← List.zipIdx_map_snd 0 s]
    exact List.filter_sublist.map _
  exact List.Pairwise.sublist part List.pairwise_lt_range'

/-- What is left of the lines is what stands on those that were not put in. -/
theorem without_injections (f : Line → α) :
    without (s.injectionsFrom 0) (s.map f) = (s.filter fun l => !l.injected).map f := by
  have placed : ∀ p ∈ s.zipIdx, (!(s.injectionsFrom 0).contains p.2) = !p.1.injected := by
    intro p hp
    have hp := List.mem_zipIdx_iff_getElem?.mp hp
    rw [Bool.not_inj_iff, Bool.eq_iff_iff, List.contains_iff_mem, mem_injections, hp]
    simp
  have unplaced : (s.zipIdx.filter fun p => !p.1.injected).map Prod.fst
      = s.filter fun l => !l.injected := by
    conv_rhs => rw [← List.zipIdx_map_fst 0 s, List.filter_map]
    rfl
  rw [without, List.zipIdx_map, List.filter_map, List.map_map, ← unplaced, List.map_map,
    ← List.filter_congr placed]
  rfl

/-! ## Lines and their calls -/

/-- What stands on the lines that were not put in is the source. -/
theorem kept_ofLinesFrom : (ofLinesFrom var n ls).filter (fun l => !l.injected)
    = (ls.zipIdx n).map fun p => ⟨p.1, p.2, false⟩ := by
  induction ls generalizing n with
  | nil => rfl
  | cons line ls ih =>
    rw [ofLinesFrom_cons, List.zipIdx_cons, List.map_cons, ← ih, List.filter_cons_of_pos rfl,
      List.filter_append]
    split <;> rfl

/-- A line that writes has its call behind it. -/
theorem call_behind {l : Line} (hl : (ofLinesFrom var n ls)[i]? = some l)
    (hkept : l.injected = false) (hwrites : isMutation l.text var = true) :
    (ofLinesFrom var n ls)[i + 1]? = some ⟨logCall l.text var, l.origin, true⟩ := by
  induction ls generalizing n i with
  | nil => cases hl
  | cons line ls ih =>
    rw [ofLinesFrom] at hl ⊢
    split at hl
    · next writes =>
      rw [if_pos writes]
      rcases i with _ | _ | i
      · obtain rfl := Option.some.inj hl
        rfl
      · obtain rfl := Option.some.inj hl
        cases hkept
      · exact ih hl
    · next quiet =>
      rw [if_neg quiet]
      rcases i with _ | i
      · obtain rfl := Option.some.inj hl
        exact absurd hwrites quiet
      · exact ih hl

/-- A line that was put in is the call for the line before it, which writes. -/
theorem call_of_injected {l : Line} (hl : (ofLinesFrom var n ls)[j]? = some l)
    (hinjected : l.injected = true) :
    ∃ i k, j = i + 1 ∧ (ofLinesFrom var n ls)[i]? = some k ∧ k.injected = false ∧
      isMutation k.text var = true ∧ l = ⟨logCall k.text var, k.origin, true⟩ := by
  induction ls generalizing n j with
  | nil => cases hl
  | cons line ls ih =>
    rw [ofLinesFrom] at hl ⊢
    split at hl
    · next writes =>
      rw [if_pos writes]
      rcases j with _ | _ | j
      · obtain rfl := Option.some.inj hl
        cases hinjected
      · exact ⟨0, ⟨line, n, false⟩, rfl, rfl, rfl, writes, (Option.some.inj hl).symm⟩
      · obtain ⟨i, k, rfl, hk, rest⟩ := ih hl
        exact ⟨i + 2, k, rfl, hk, rest⟩
    · next quiet =>
      rw [if_neg quiet]
      rcases j with _ | j
      · obtain rfl := Option.some.inj hl
        cases hinjected
      · obtain ⟨i, k, rfl, hk, rest⟩ := ih hl
        exact ⟨i + 1, k, rfl, hk, rest⟩

/-- No line has a newline in it. The name of the list has none if it occurs in a line. -/
theorem onLine_ofLinesFrom (h : ∀ line ∈ ls, '\n' ∉ line.toList) :
    ∀ line ∈ (ofLinesFrom var n ls).lines, '\n' ∉ line.toList := by
  have call {line : String} (hline : '\n' ∉ line.toList) (writes : isMutation line var = true) :
      '\n' ∉ (logCall line var).toList := by
    have name : '\n' ∉ var.toList := by
      intro hmem
      rw [isMutation, Bool.and_eq_true, Bool.and_eq_true] at writes
      refine hline (Text.mem_of_occurs writes.1.1 ?_)
      rw [String.toList_append]
      exact List.mem_append_left _ hmem
    have blanks : '\n' ∉ indentation line := fun hmem =>
      hline ((List.takeWhile_sublist _).subset hmem)
    have deeper : '\n' ∉ (if opensBlock line then blockIndentation else "").toList := by
      split <;> decide
    simp only [logCall, String.toList_append, List.mem_append, String.toList_ofList, not_or]
    exact ⟨⟨⟨⟨⟨blanks, deeper⟩, by decide⟩, by decide⟩, name⟩, by decide⟩
  induction ls generalizing n with
  | nil => exact nofun
  | cons line ls ih =>
    obtain ⟨hline, hls⟩ := List.forall_mem_cons.mp h
    rw [ofLinesFrom_cons]
    split
    · next writes =>
      exact List.forall_mem_cons.mpr
        ⟨hline, List.forall_mem_cons.mpr ⟨call hline writes, ih hls⟩⟩
    · exact List.forall_mem_cons.mpr ⟨hline, ih hls⟩

end Interleaving

/-! ## The whole source -/

namespace Instrumented

open Interleaving

/-- The instrumented source `s` is the source with calls between its lines. -/
structure Interleaves (source var : String) (s : Instrumented) : Prop where
  /-- Without the lines that were put in it is the source. -/
  kept : without s.injections s.lines = Text.lines source
  increasing : s.injections.Pairwise (· < ·)
  /-- Behind a line that writes, a line was put in. -/
  follows {i : Nat} {line : String} (kept : i ∉ s.injections) (hline : s.lines[i]? = some line)
    (writes : isMutation line var = true) : i + 1 ∈ s.injections
  /-- A line that was put in is the call for the line before it, which writes. -/
  call {j : Nat} (h : j ∈ s.injections) : ∃ i line, j = i + 1 ∧ i ∉ s.injections ∧
    s.lines[i]? = some line ∧ isMutation line var = true ∧
      s.lines[j]? = some (logCall line var) ∧ s.origins[j]? = s.origins[i]?
  origins_length : s.origins.length = s.lines.length
  /-- The lines of the source are numbered from one. -/
  kept_origins : without s.injections s.origins = List.range' 1 (Text.lines source).length
  /-- Lines that were put in are told by their numbers, from one. -/
  isInjected_iff (m : Nat) : s.isInjected m = true ↔ ∃ i ∈ s.injections, m = i + 1
  originOf?_zero : s.originOf? 0 = none
  originOf?_succ (i : Nat) : s.originOf? (i + 1) = s.origins[i]?
  /-- There are numbers for all lines and for no others. -/
  isSome_originOf? (m : Nat) : (s.originOf? m).isSome = true ↔ 1 ≤ m ∧ m ≤ s.lines.length
  /-- The text is cut at its newlines into the lines. -/
  lines_text : Text.lines s.text = s.lines
  /-- The lines of the text, which are counted by its newlines, are those that have an origin. -/
  count_text : s.text.toList.count '\n' + 1 = s.origins.length

/-- **An instrumented source is its source with a call after every line that writes.** -/
theorem ofSource_interleaves (source var : String) :
    Interleaves source var (ofSource source var) := by
  rw [ofSource_eq]
  let s := ofLinesFrom var 1 (Text.lines source)
  change Interleaves source var s.columns
  have nonempty : s.lines ≠ [] := by
    obtain ⟨line, ls, hls⟩ := List.exists_cons_of_ne_nil (Text.lines_ne_nil source)
    rw [show s = ofLinesFrom var 1 (line :: ls) from congrArg _ hls, ofLinesFrom_cons]
    exact List.cons_ne_nil _ _
  have onLine : ∀ line ∈ s.lines, '\n' ∉ line.toList :=
    onLine_ofLinesFrom fun _ hline => Text.lines_onLine hline
  have lengths : s.origins.length = s.lines.length := by
    rw [Interleaving.origins, Interleaving.lines, List.length_map, List.length_map]
  have zero : s.columns.originOf? 0 = none := rfl
  have succ (i : Nat) : s.columns.originOf? (i + 1) = s.origins[i]? := rfl
  refine
    { kept := ?kept
      increasing := pairwise_injections s
      follows := ?follows
      call := ?call
      origins_length := lengths
      kept_origins := ?kept_origins
      isInjected_iff := ?isInjected_iff
      originOf?_zero := zero
      originOf?_succ := succ
      isSome_originOf? := ?isSome_originOf
      lines_text := Text.lines_unlines nonempty onLine
      count_text := ?count_text }
  case kept =>
    change without (s.injectionsFrom 0) (s.map Line.text) = _
    rw [without_injections, kept_ofLinesFrom, List.map_map]
    exact List.zipIdx_map_fst 1 _
  case follows =>
    intro i line hkept hline writes
    obtain ⟨l, hl, rfl⟩ := Option.map_eq_some_iff.mp (List.getElem?_map.symm.trans hline)
    have plain : l.injected = false := by
      by_contra h
      exact hkept (mem_injections.mpr ⟨l, hl, by simpa using h⟩)
    exact mem_injections.mpr ⟨_, call_behind hl plain writes, rfl⟩
  case call =>
    intro j hj
    obtain ⟨l, hl, hinjected⟩ := mem_injections.mp hj
    obtain ⟨i, k, rfl, hk, plain, writes, rfl⟩ := call_of_injected hl hinjected
    change s[i]? = some k at hk
    have at_line {α : Type} (f : Line → α) : (s.map f)[i]? = some (f k) := by
      rw [List.getElem?_map, hk]
      rfl
    have at_call {α : Type} (f : Line → α) :
        (s.map f)[i + 1]? = some (f ⟨logCall k.text var, k.origin, true⟩) := by
      rw [List.getElem?_map, hl]
      rfl
    refine ⟨i, k.text, rfl, ?_, at_line Line.text, writes, at_call Line.text,
      (at_call Line.origin).trans (at_line Line.origin).symm⟩
    intro hi
    obtain ⟨l, hi, called⟩ := mem_injections.mp hi
    obtain rfl := Option.some.inj (hi.symm.trans hk)
    rw [plain] at called
    cases called
  case kept_origins =>
    change without (s.injectionsFrom 0) (s.map Line.origin) = _
    rw [without_injections, kept_ofLinesFrom, List.map_map]
    exact List.zipIdx_map_snd 1 _
  case isInjected_iff =>
    intro m
    let positions := s.injectionsFrom 0
    have search := searchFrom_iff positions.toArray (m - 1) 0 positions.toArray.size
      (pairwise_injections s) (by omega) (fun k hk => absurd hk (Nat.not_lt_zero k))
      (fun k hk hx => by rw [Array.getElem?_eq_none (by omega)] at hx; cases hx)
    change (m != 0 && searchFrom positions.toArray (m - 1) 0 positions.toArray.size) = true ↔
      ∃ i ∈ positions, m = i + 1
    rw [Bool.and_eq_true, search, bne_iff_ne, List.mem_toArray]
    constructor
    · exact fun h => ⟨m - 1, h.2, by have := h.1; omega⟩
    · rintro ⟨i, hi, rfl⟩
      exact ⟨Nat.succ_ne_zero i, hi⟩
  case isSome_originOf =>
    intro m
    cases m with
    | zero => simp [zero]
    | succ i =>
      rw [succ, isSome_getElem?, lengths]
      exact ⟨fun h => ⟨Nat.succ_pos i, h⟩, And.right⟩
  case count_text =>
    change (Text.unlines s.lines).toList.count '\n' + 1 = s.origins.length
    rw [Text.toList_unlines, lengths]
    exact Text.count_joined nonempty onLine

end Instrumented

end SortTrace.Source
