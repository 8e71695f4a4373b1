import SortTrace.Proofs.Instrumenting.LogLine
import SortTrace.Proofs.OneLine.Text

/-!
# Documents in ASCII

A document without doubles is written on one line with the characters from the blank to the delete
character only: each string writes what is beyond ASCII, and the control characters, as escapes.
-/

namespace SortTrace.Report.Json

theorem isDigit_toDigits (n : Nat) : ∀ c ∈ Nat.toDigits 10 n, c.isDigit = true :=
  fun _ hc => Nat.isDigit_of_mem_toDigits (by decide) (by decide) hc

/-- The text consists of printable ASCII characters and the delete character. -/
def Ascii (cs : List Char) : Prop :=
  ∀ c ∈ cs, 0x20 ≤ c.toNat ∧ c.toNat ≤ 0x7f

instance (cs : List Char) : Decidable (Ascii cs) :=
  decidable_of_iff (cs.all fun c => Nat.ble 0x20 c.toNat && Nat.ble c.toNat 0x7f) (by simp [Ascii])

namespace Ascii

variable {cs ds : List Char}

theorem nil : Ascii [] := nofun

theorem append (hc : Ascii cs) (hd : Ascii ds) : Ascii (cs ++ ds) :=
  List.forall_mem_append.mpr ⟨hc, hd⟩

theorem cons {c : Char} (hc : 0x20 ≤ c.toNat ∧ c.toNat ≤ 0x7f) (hd : Ascii ds) :
    Ascii (c :: ds) :=
  List.forall_mem_cons.mpr ⟨hc, hd⟩

theorem toDigits (n : Nat) : Ascii (Nat.toDigits 10 n) := fun c hc => by
  have bounds := Script.Scan.digit_bounds (isDigit_toDigits n c hc)
  omega

theorem int (n : Int) : Ascii (toString n).toList := by
  rw [Int.toString_eq_repr, Int.repr_eq_if]
  split
  · rw [Nat.toList_repr]
    exact .toDigits _
  · rw [String.toList_append, Nat.toList_repr]
    exact .cons (by decide) (.toDigits _)

theorem commas {texts : List String} (h : ∀ s ∈ texts, Ascii s.toList) :
    Ascii (", ".intercalate texts).toList := by
  rw [String.toList_intercalate]
  intro c hc
  rcases Text.mem_intercalate hc with hc | ⟨cs, hcs, hc⟩
  · have separator : Ascii ", ".toList := by decide
    exact separator c hc
  · obtain ⟨s, hs, rfl⟩ := List.mem_map.mp hcs
    exact h s hs c hc

end Ascii

theorem ascii_unitEscape (n : Nat) : Ascii (unitEscape n) := by
  have digit (n : Nat) : 0x20 ≤ (hexDigit n).toNat ∧ (hexDigit n).toNat ≤ 0x7f := by
    have lt : n % 16 < 16 := Nat.mod_lt _ (by decide)
    have all : ∀ k < 16, 0x20 ≤ (Nat.digitChar k).toNat ∧ (Nat.digitChar k).toNat ≤ 0x7f := by
      decide
    exact all _ lt
  exact .cons (by decide) (.cons (by decide)
    (.cons (digit _) (.cons (digit _) (.cons (digit _) (.cons (digit _) .nil)))))

theorem ascii_requiredEscape {c : Char} {escape : List Char}
    (h : requiredEscape? c = some escape) : Ascii escape := by
  have unit := ascii_unitEscape c.toNat
  simp only [requiredEscape?] at h
  split_ifs at h <;> cases h <;> first | exact unit | decide

/-- A character that needs no escape stands for itself in a string. -/
theorem plain_of_requiredEscape {c : Char} (h : requiredEscape? c = none) :
    c ≠ '"' ∧ c ≠ '\\' ∧ 0x20 ≤ c.toNat := by
  simp only [requiredEscape?] at h
  split_ifs at h with quote backslash _ _ _ _ _ control
  exact ⟨quote, backslash, Nat.le_of_not_lt control⟩

theorem ascii_asciiChar (c : Char) : Ascii (asciiChar c) := by
  rw [asciiChar]
  split
  · next escape h => exact ascii_requiredEscape h
  · next h =>
    have low := (plain_of_requiredEscape h).2.2
    simp only
    split_ifs with plain
    · exact .cons ⟨low, Nat.le_of_lt_succ plain⟩ .nil
    · exact ascii_unitEscape _
    · exact .append (ascii_unitEscape _) (ascii_unitEscape _)

theorem toList_asciiString (s : String) :
    (asciiString s).toList = '"' :: (s.toList.flatMap asciiChar ++ ['"']) := by
  rw [asciiString, quoteWith, String.toList_ofList]
  rfl

theorem ascii_asciiString (s : String) : Ascii (asciiString s).toList := by
  rw [toList_asciiString]
  refine .cons (by decide) (.append (fun c hc => ?_) (.cons (by decide) .nil))
  obtain ⟨d, -, hc⟩ := List.mem_flatMap.mp hc
  exact ascii_asciiChar d c hc

/-! ## Documents without doubles -/

mutual

/-- There is no double in the document. -/
def FloatFree : Json → Prop
  | float _ => False
  | array items => AllFloatFree items
  | object members => MembersFloatFree members
  | _ => True

/-- There is no double in the documents. -/
def AllFloatFree : List Json → Prop
  | [] => True
  | d :: ds => FloatFree d ∧ AllFloatFree ds

/-- There is no double in the members. -/
def MembersFloatFree : List (String × Json) → Prop
  | [] => True
  | (_, d) :: ms => FloatFree d ∧ MembersFloatFree ms

end

mutual

theorem ascii_oneLine : ∀ {d : Json}, d.FloatFree → Ascii d.oneLine.toList
  | .null, _ => by decide
  | .bool b, _ => by cases b <;> decide
  | .int n, _ => .int n
  | .str s, _ => ascii_asciiString s
  | .array items, hd => by
    rw [oneLine, String.toList_append, String.toList_append]
    exact .append (.append (.cons (by decide) .nil) (.commas (ascii_oneLines hd)))
      (.cons (by decide) .nil)
  | .object members, hd => by
    rw [oneLine, String.toList_append, String.toList_append]
    exact .append (.append (.cons (by decide) .nil) (.commas (ascii_oneLineMembers hd)))
      (.cons (by decide) .nil)

theorem ascii_oneLines : ∀ {items : List Json}, AllFloatFree items →
    ∀ s ∈ oneLines items, Ascii s.toList
  | [], _, _, hs => nomatch hs
  | d :: ds, hd, s, hs => by
    obtain ⟨first, others⟩ := hd
    obtain rfl | hs := List.mem_cons.mp hs
    · exact ascii_oneLine first
    · exact ascii_oneLines others s hs

theorem ascii_oneLineMembers : ∀ {members : List (String × Json)}, MembersFloatFree members →
    ∀ s ∈ oneLineMembers members, Ascii s.toList
  | [], _, _, hs => nomatch hs
  | (key, d) :: ms, hd, s, hs => by
    obtain ⟨first, others⟩ := hd
    obtain rfl | hs := List.mem_cons.mp hs
    · rw [String.toList_append, String.toList_append]
      exact .append (.append (ascii_asciiString key) (.cons (by decide) (.cons (by decide) .nil)))
        (ascii_oneLine first)
    · exact ascii_oneLineMembers others s hs

end

end SortTrace.Report.Json
