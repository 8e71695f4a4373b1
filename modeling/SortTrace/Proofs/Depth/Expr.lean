import SortTrace.Proofs.Depth.Brackets
import SortTrace.Proofs.Depth.Tree

/-!
# How far expressions go down

Each way in which an expression contains others goes through one of three limits: brackets are
limited by the scanner, goals that read an expression of their own kind again by the nesting, and
chains of operators by their length together with the nesting. A subscript, a slice or a call that
stands behind an expression goes through none of them, so what is bounded is the rise of an
expression: its height without the steps to the objects of these (`parseGoal_rise`).
-/

namespace SortTrace.Script

open Parse
open Scan (depthAfter)

/-! ## Limits -/

/-- The levels that are left at a nesting. -/
def levels (nesting : Nat) : Nat :=
  maxNesting - nesting

theorem levels_succ {nesting : Nat} (h : nesting < maxNesting) :
    levels (nesting + 1) + 1 = levels nesting := by
  unfold levels
  omega

theorem chain_le {nesting chain : Nat} (h : nesting + chain ≤ maxNesting) :
    chain ≤ levels nesting := by
  unfold levels
  omega

/-- The most that a primary rises: with every bracket an expression starts again at its nesting. -/
def primaryLimit (nesting depth : Nat) : Nat :=
  (9 * levels nesting + 4) * (maxBrackets - depth)

/-- The most that an expression rises that is read at a nesting and behind open brackets. -/
def Goal.limit (nesting depth : Nat) : Goal → Nat
  | .test => primaryLimit nesting depth + 9 * levels nesting + 2
  | .inversion => primaryLimit nesting depth + 7 * levels nesting + 1
  | .factor => primaryLimit nesting depth + levels nesting

section Limits

variable {nesting depth : Nat}

theorem primaryLimit_inside (h : depth < maxBrackets) :
    Goal.test.limit nesting (depth + 1) + 2 = primaryLimit nesting depth := by
  have rest : maxBrackets - depth = maxBrackets - (depth + 1) + 1 := by omega
  rw [Goal.limit, primaryLimit, primaryLimit, rest, Nat.mul_succ]
  omega

theorem primaryLimit_succ (h : nesting < maxNesting) :
    primaryLimit (nesting + 1) depth ≤ primaryLimit nesting depth := by
  have fewer := levels_succ h
  exact Nat.mul_le_mul_right _ (by omega)

/-- A level further down there is room for one step less. -/
theorem Goal.limit_succ (goal : Goal) (h : nesting < maxNesting) :
    goal.limit (nesting + 1) depth + 1 ≤ goal.limit nesting depth := by
  have fewer := levels_succ h
  have lower : primaryLimit (nesting + 1) depth ≤ primaryLimit nesting depth := primaryLimit_succ h
  cases goal <;> simp only [Goal.limit] <;> omega

end Limits

/-! ## Primaries -/

section Primaries

variable {item : Parse Expr} {fuel depth k K : Nat}

/-- What is in brackets behind so many others is read like this. -/
abbrev Inside (item : Parse Expr) (depth k : Nat) : Prop :=
  Parse.Makes (Behind (depth + 1)) (fun e => e.rise ≤ k) item

theorem tuple_rise (items : List Expr) (h : ∀ e ∈ items, e.rise ≤ k) :
    (Expr.tuple items).rise ≤ k + 1 :=
  Expr.itemsReach_le h

theorem parenthesized_rise (h : Inside item depth k) :
    Parse.Leads (Behind (depth + 1)) (fun e => e.rise ≤ k + 1) (parenthesized item fuel)
      (Behind depth) := by
  refine .acceptIte (fun _ => .pure (Nat.zero_le _)) (h.bind fun first hfirst => ?_)
  refine .acceptIte (fun _ => .pure (Nat.le_succ_of_le hfirst)) (.after fun comma => ?_)
  have closed (es : List Expr) (hes : ∀ e ∈ es, e.rise ≤ k) :
      Parse.Leads (Behind (depth + 1)) (fun e : Expr => e.rise ≤ k + 1)
        (do expect Punct.rparen; pure (.tuple es)) (Behind depth) :=
    .bind .expectMark fun _ _ => .pure (tuple_rise es hes)
  have single : ∀ e ∈ [first], e.rise ≤ k := List.forall_mem_singleton.mpr hfirst
  split
  · exact (h.itemsUntil .rparen fuel [first] single).bind closed
  · exact (Parse.Leads.pure single).bind closed

instance moreStrings_keeps : ∀ (fuel : Nat) (text : String),
    Parse.Keeps (Behind depth) (moreStrings fuel text)
  | 0, _ => (Parse.Leads.pure trivial : Parse.Makes (Behind depth) (fun _ => True) _).keeps
  | fuel + 1, text => by
    refine (Parse.Leads.peekNext fun l => ?_ : Parse.Makes (Behind depth) (fun _ => True) _).keeps
    split
    · exact .take fun _ => (moreStrings_keeps fuel _).makes
    · exact .ofNext (.pure trivial)

/-- Arguments that do not rise above a limit. -/
def Arguments.Low (k : Nat) (a : Arguments) : Prop :=
  (∀ e ∈ a.positional, e.rise ≤ k) ∧ ∀ q ∈ a.keywords, q.2.rise ≤ k

theorem arguments_rise (h : Inside item depth k) : ∀ (fuel : Nat) (args : List Expr)
    (keywords : List (String × Expr)), (∀ e ∈ args, e.rise ≤ k) →
      (∀ q ∈ keywords, q.2.rise ≤ k) →
      Parse.Makes (Behind (depth + 1)) (Arguments.Low k) (arguments item fuel args keywords)
  | 0, _, _, hargs, hkeywords =>
    .pure ⟨all_reverse hargs, fun q hq => hkeywords q (List.mem_reverse.mp hq)⟩
  | fuel + 1, args, keywords, hargs, hkeywords => by
    have made {args : List Expr} {keywords : List (String × Expr)} (hargs : ∀ e ∈ args, e.rise ≤ k)
        (hkeywords : ∀ q ∈ keywords, q.2.rise ≤ k) :
        Parse.Makes (Behind (depth + 1)) (Arguments.Low k)
          (pure (Arguments.mk args.reverse keywords.reverse)) :=
      .pure ⟨all_reverse hargs, fun q hq => hkeywords q (List.mem_reverse.mp hq)⟩
    have again {a : List Expr × List (String × Expr)} (hargs : ∀ e ∈ a.1, e.rise ≤ k)
        (hkeywords : ∀ q ∈ a.2, q.2.rise ≤ k) :
        Parse.Makes (Behind (depth + 1)) (Arguments.Low k) (do
          if ← accept Punct.comma then arguments item fuel a.1 a.2
          else pure (Arguments.mk a.1.reverse a.2.reverse)) :=
      .after fun _ => .ite (fun _ => arguments_rise h fuel a.1 a.2 hargs hkeywords) fun _ =>
        made hargs hkeywords
    refine .after fun _ => .ite (fun _ => made hargs hkeywords) fun _ => ?_
    refine .peekNext fun first => .peekSecondNext fun second => ?_
    split
    · refine .takeFirst (.take fun _ => ?_)
      split
      · exact .failed _
      · exact h.bind fun e he => again (a := (args, (_, e) :: keywords)) hargs
          (List.forall_mem_cons.mpr ⟨he, hkeywords⟩)
    · refine .ofNextTwo (.ofNext ?_)
      split
      · exact h.bind fun e he => again (a := (e :: args, keywords))
          (List.forall_mem_cons.mpr ⟨he, hargs⟩) hkeywords
      · exact .failed _

theorem callArguments_rise (h : Inside item depth k) :
    Parse.Leads (Behind (depth + 1)) (Arguments.Low k) (callArguments item fuel) (Behind depth) :=
  (arguments_rise h fuel [] [] nofun nofun).bind fun _ ha => .bind .expectMark fun _ _ => .pure ha

/-- A bound of a slice. -/
theorem bound?_rise (h : Inside item depth k) (absent : List Punct) :
    Parse.Makes (Behind (depth + 1)) (fun b => ∀ e ∈ b, Expr.rise e ≤ k) (bound? item absent) := by
  refine .after fun _ => .ite (fun _ => .pure nofun) fun _ => h.map fun e he e' he' => ?_
  exact Option.mem_some.mp he' ▸ he

theorem slice_rise {object : Expr} {lower upper step : Option Expr} (ho : object.rise ≤ K)
    (hk : k + 1 ≤ K) (hl : ∀ e ∈ lower, e.rise ≤ k) (hu : ∀ e ∈ upper, e.rise ≤ k)
    (hs : ∀ e ∈ step, e.rise ≤ k) : (Expr.slice object lower upper step).rise ≤ K := by
  have hl := (Expr.boundReach_le hl).trans hk
  have hu := (Expr.boundReach_le hu).trans hk
  have hs := (Expr.boundReach_le hs).trans hk
  exact Nat.max_le.mpr ⟨ho, Nat.max_le.mpr ⟨hl, Nat.max_le.mpr ⟨hu, hs⟩⟩⟩

/-- The bounds of a slice behind its first one, which may be a tuple, up to the closing bracket. -/
theorem sliceBounds_rise (h : Inside item depth k) {object : Expr} (ho : object.rise ≤ K)
    (hk : k + 2 ≤ K) {lower : Option Expr} (hl : ∀ e ∈ lower, e.rise ≤ k + 1) :
    Parse.Leads (Behind (depth + 1)) (fun e => e.rise ≤ K) (do
      expect Punct.colon
      let upper ← bound? item [.colon, .rbracket]
      let step ← if ← accept Punct.colon then bound? item [.rbracket] else pure none
      expect Punct.rbracket
      pure (Expr.slice object lower upper step)) (Behind depth) := by
  refine .after fun _ => (bound?_rise h _).bind fun upper hu => .after fun colon => ?_
  have closed (step : Option Expr) (hs : ∀ e ∈ step, e.rise ≤ k) :
      Parse.Leads (Behind (depth + 1)) (fun e : Expr => e.rise ≤ K) (do
        expect Punct.rbracket
        pure (Expr.slice object lower upper step)) (Behind depth) :=
    .bind .expectMark fun _ _ => .pure (slice_rise ho hk hl
      (fun e he => Nat.le_succ_of_le (hu e he)) fun e he => Nat.le_succ_of_le (hs e he))
  split
  · exact (bound?_rise h _).bind closed
  · exact (Parse.Leads.pure (nofun : ∀ e ∈ (none : Option Expr), e.rise ≤ k)).bind closed

/-- A subscript or a slice does not rise above what it is applied to, or above what stands in its
brackets by more than two steps, one of them to a subscript and one into a tuple there. -/
theorem subscript_rise (h : Inside item depth k) {object : Expr} (ho : object.rise ≤ K)
    (hk : k + 2 ≤ K) :
    Parse.Leads (Behind (depth + 1)) (fun e => e.rise ≤ K) (subscript item fuel object)
      (Behind depth) := by
  have single : Parse.Makes (Behind (depth + 1)) (fun e => e.rise ≤ k + 1) (testList item fuel) :=
    h.testList (fun _ he => Nat.le_succ_of_le he) tuple_rise
  have present : Parse.Makes (Behind (depth + 1)) (fun b => ∀ e ∈ b, Expr.rise e ≤ k + 1)
      (some <$> testList item fuel) :=
    single.map fun e he e' he' => Option.mem_some.mp he' ▸ he
  have absent : Parse.Makes (Behind (depth + 1)) (fun b => ∀ e ∈ b, Expr.rise e ≤ k + 1)
      (pure none) := .pure nofun
  have index {i : Expr} (hi : i.rise ≤ k + 1) : (Expr.index object i).rise ≤ K :=
    Nat.max_le.mpr ⟨ho, Nat.le_trans (Nat.succ_le_succ hi) hk⟩
  refine .after fun colon => ?_
  split
  case' isTrue => refine absent.bind fun lower hlower => ?_
  case' isFalse => refine present.bind fun lower hlower => ?_
  all_goals
    cases lower with
    | none => exact sliceBounds_rise h ho hk hlower
    | some i =>
      exact .acceptIte (fun _ => .pure (index (hlower i rfl))) (sliceBounds_rise h ho hk hlower)

theorem call_rise {object : Expr} {a : Arguments} (ho : object.rise ≤ K) (hk : k + 1 ≤ K)
    (ha : a.Low k) : (Expr.call object a.positional a.keywords).rise ≤ K :=
  Nat.max_le.mpr ⟨ho, Nat.max_le.mpr
    ⟨(Expr.itemsReach_le ha.1).trans hk, (Expr.keywordsReach_le ha.2).trans hk⟩⟩

/-- What may follow an expression makes it rise no further than what is in brackets. -/
theorem trailers_rise (h : depth < maxBrackets → Inside item depth k ∧ k + 2 ≤ K) :
    ∀ (fuel : Nat) (e : Expr), e.rise ≤ K →
      Parse.Makes (Behind depth) (fun e => e.rise ≤ K) (trailers item fuel e)
  | 0, _, he => .pure he
  | fuel + 1, e, he => by
    refine .peekNext fun l => ?_
    split
    · refine .take fun opens => ?_
      obtain ⟨inside, hk⟩ := h (opens rfl)
      refine (callArguments_rise inside).bind fun a ha => ?_
      exact trailers_rise h fuel _ (call_rise he (Nat.le_of_succ_le hk) ha)
    · refine .take fun opens => ?_
      obtain ⟨inside, hk⟩ := h (opens rfl)
      exact (subscript_rise inside he hk).bind fun e' he' => trailers_rise h fuel e' he'
    · refine .take fun _ => .after fun method => .acceptIte (fun opens => ?_) (.fail _)
      obtain ⟨inside, hk⟩ := h (opens rfl)
      refine (callArguments_rise inside).bind fun a ha => ?_
      exact trailers_rise h fuel _ (call_rise he (Nat.le_of_succ_le hk) ha)
    · exact .ofNext (.pure he)

variable {parts : Parts} {nesting : Nat}

/-- An atom is a leaf, or a sequence in brackets. -/
theorem atom_rise
    (h : depth < maxBrackets → Inside (parts .test nesting) depth k ∧ k + 2 ≤ K) :
    Parse.Makes (Behind depth) (fun e => e.rise ≤ K) (atom parts fuel nesting) := by
  refine .peekNext fun l => ?_
  have literal (v : Literal) : (Expr.literal v).rise ≤ K := Nat.zero_le K
  cases l with
  | name s => exact .take fun _ => .pure (Nat.zero_le K)
  | int | float => exact .take fun _ => .pure (literal _)
  | str s => exact .take fun _ => .mapAny fun _ => literal _
  | op | augment => exact .ofNext .unexpected
  | mark m =>
    cases m with
    | keyword k =>
      cases k
      case trueKw | falseKw | noneKw => exact .take fun _ => .pure (literal _)
      all_goals exact .ofNext .unexpected
    | punct p =>
      cases p
      case lparen =>
        refine .take fun opens => ?_
        obtain ⟨inside, hk⟩ := h (opens rfl)
        exact (parenthesized_rise inside).weaken fun e he => he.trans (Nat.le_of_succ_le hk)
      case lbracket =>
        refine .take fun opens => ?_
        obtain ⟨inside, hk⟩ := h (opens rfl)
        refine (inside.itemsUntil .rbracket fuel [] nofun).bind fun es hes => ?_
        refine .bind .expectMark fun _ _ => .pure ?_
        exact (tuple_rise es hes).trans (Nat.le_of_succ_le hk)
      case lbrace => exact .take fun _ => .fail _
      all_goals exact .ofNext .unexpected
    | layout => exact .ofNext .unexpected

end Primaries

/-! ## Operators -/

section Ladder

variable {parts : Parts} {fuel nesting depth : Nat}
  (h : ∀ goal nesting depth,
    Parse.Makes (Behind depth) (fun e => e.rise ≤ Goal.limit nesting depth goal)
      (parts goal nesting))

include h

theorem primary_rise : Parse.Makes (Behind depth) (fun e => e.rise ≤ primaryLimit nesting depth)
    (primary parts fuel nesting) := by
  have inside (hd : depth < maxBrackets) :
      Inside (parts .test nesting) depth (Goal.test.limit nesting (depth + 1)) ∧
        Goal.test.limit nesting (depth + 1) + 2 ≤ primaryLimit nesting depth :=
    ⟨h .test nesting (depth + 1), Nat.le_of_eq (primaryLimit_inside hd)⟩
  exact (atom_rise inside).bind fun e he => trailers_rise inside fuel e he

/-- A part one level deeper leaves room for a step to it, where there is such a level. -/
theorem nested_rise (goal : Goal) :
    Parse.Makes (Behind depth)
      (fun e => 0 < levels nesting ∧ e.rise + 1 ≤ goal.limit nesting depth)
      (nested parts goal nesting) :=
  nested_makes fun hn => (h goal (nesting + 1) depth).weaken fun _ he =>
    ⟨Nat.sub_pos_of_lt hn, (Nat.succ_le_succ he).trans (goal.limit_succ hn)⟩

theorem power_rise : Parse.Makes (Behind depth)
    (fun e => e.rise ≤ Goal.factor.limit nesting depth) (power parts fuel nesting) := by
  refine (primary_rise h).bind fun base hbase => .peekNext fun l => ?_
  split
  · have exponent : Parse.Makes (Behind depth)
        (fun e => 0 < levels nesting ∧ e.rise + 1 ≤ Goal.factor.limit nesting depth)
        (nested parts .factor nesting) := nested_rise h .factor
    refine .take fun _ => exponent.map fun e he => ?_
    simp only [Expr.rise, Expr.reach, Goal.limit] at *
    omega
  · exact .ofNext (.pure (hbase.trans (Nat.le_add_right ..)))

omit h in
theorem applySign_rise (op : UnaryOp) (e : Expr) : (applySign op e).rise ≤ e.rise + 1 := by
  unfold applySign
  split
  · exact Nat.zero_le _
  · exact Nat.zero_le _
  · exact Nat.le_refl _

theorem factor_rise : Parse.Makes (Behind depth)
    (fun e => e.rise ≤ Goal.factor.limit nesting depth) (factor parts fuel nesting) := by
  refine .peekNext fun l => ?_
  cases hsign : sign? l with
  | none => exact .ofNext (power_rise h)
  | some op =>
    have plain : depthAfter l depth = depth := by
      unfold sign? at hsign
      split at hsign <;> first | rfl | cases hsign
    refine .take fun _ => ?_
    rw [plain]
    exact (nested_rise h .factor).map fun e he => (applySign_rise op e).trans he.2

omit h in
/-- A chain of operators rises with every link, and has no more of them than there are levels. -/
theorem operands_rise (ops : List BinOp) {operand : Parse Expr} {k : Nat}
    (ho : Parse.Makes (Behind depth) (fun e => e.rise ≤ k) operand) :
    ∀ (fuel chain : Nat) (left : Expr), chain ≤ levels nesting → left.rise ≤ k + chain →
      Parse.Makes (Behind depth) (fun e => e.rise ≤ k + levels nesting)
        (operands ops operand nesting fuel chain left)
  | 0, _, _, hchain, hleft => .pure (hleft.trans (Nat.add_le_add_left hchain k))
  | fuel + 1, chain, left, hchain, hleft => by
    have ended : Parse.Makes (Behind depth) (fun e : Expr => e.rise ≤ k + levels nesting)
        (pure left) := .pure (hleft.trans (Nat.add_le_add_left hchain k))
    refine .peekNext fun l => ?_
    split
    · next op =>
      refine .ite (fun _ => ?_) fun _ => .ofNext ended
      refine (checkNesting_makes (chain + 1)).bind fun _ hlevels => .take fun _ => ?_
      refine Parse.Leads.bind ho fun right hright => ?_
      refine operands_rise ops ho fuel (chain + 1) _ (chain_le hlevels) ?_
      simp only [Expr.rise, Expr.reach] at *
      omega
    · exact .ofNext ended

theorem binary_rise (operators : List (List BinOp)) : Parse.Makes (Behind depth)
    (fun e => e.rise ≤ Goal.factor.limit nesting depth + operators.length * levels nesting)
    (binary parts fuel nesting operators) := by
  induction operators with
  | nil => exact (factor_rise h).weaken fun _ he => Nat.le_add_right_of_le he
  | cons ops tighter operand =>
    refine (operand.bind fun left hleft =>
      operands_rise ops operand fuel 0 left (Nat.zero_le _) hleft).weaken fun e he => ?_
    rwa [List.length_cons, Nat.succ_mul, ← Nat.add_assoc]

omit h in
instance compareOp?_keeps : Parse.Keeps (Behind depth) compareOp? := by
  refine (Parse.Leads.peekNext fun l => ?_ : Parse.Makes (Behind depth) (fun _ => True) _).keeps
  -- two words are taken where the second one is looked at first
  have two {l l' : Lexeme} (op : CompareOp) {word : Keyword} (hl' : (l' == .mark word) = true)
      (hl : depthAfter l depth = depth) : Parse.Leads (NextTwo (Behind depth) l l')
        (fun _ : Option CompareOp => True) (do advance; advance; pure (some op))
        (Behind depth) := by
    obtain rfl := beq_iff_eq.mp hl'
    refine .takeFirst (.take fun _ => ?_)
    rw [hl]
    exact .pure trivial
  split
  case h_8 =>
    exact .peekSecondNext fun l' => .ite (fun hl' => two _ hl' rfl) fun _ =>
      .ofNextTwo (.ofNext (.pure trivial))
  case h_9 =>
    exact .peekSecondNext fun l' => .ite (fun hl' => two _ hl' rfl) fun _ =>
      .ofNextTwo (.take fun _ => .pure trivial)
  case h_10 => exact .ofNext (.pure trivial)
  all_goals exact .take fun _ => .pure trivial

omit h in
theorem links_rise {operand : Parse Expr} {k : Nat}
    (ho : Parse.Makes (Behind depth) (fun e => e.rise ≤ k) operand) :
    ∀ (fuel : Nat) (rest : List (CompareOp × Expr)), (∀ q ∈ rest, q.2.rise ≤ k) →
      Parse.Makes (Behind depth) (fun links => ∀ q ∈ links, Expr.rise q.2 ≤ k)
        (links operand fuel rest)
  | 0, _, hrest => .pure fun q hq => hrest q (List.mem_reverse.mp hq)
  | fuel + 1, rest, hrest => by
    refine .after fun op => ?_
    split
    · exact ho.bind fun e he => links_rise ho fuel _ (List.forall_mem_cons.mpr ⟨he, hrest⟩)
    · exact .pure fun q hq => hrest q (List.mem_reverse.mp hq)

theorem comparison_rise : Parse.Makes (Behind depth)
    (fun e => e.rise ≤ primaryLimit nesting depth + 7 * levels nesting + 1)
    (comparison parts fuel nesting) := by
  have operand : Parse.Makes (Behind depth)
      (fun e => e.rise ≤ primaryLimit nesting depth + 7 * levels nesting)
      (binary parts fuel nesting operatorLevels) :=
    (binary_rise h operatorLevels).weaken fun e he => he.trans (by
      have six : operatorLevels.length = 6 := rfl
      rw [six, Goal.limit]
      omega)
  have chain := links_rise operand fuel [] (List.forall_mem_nil _)
  refine operand.bind fun first hfirst => chain.bind fun rest hrest => .pure ?_
  split
  · exact Nat.le_succ_of_le hfirst
  · exact Nat.max_le.mpr ⟨Nat.succ_le_succ hfirst, Expr.linksReach_le hrest⟩

theorem inversion_rise : Parse.Makes (Behind depth)
    (fun e => e.rise ≤ Goal.inversion.limit nesting depth) (inversion parts fuel nesting) := by
  refine .after fun negated => .ite (fun _ => ?_) fun _ => comparison_rise h
  exact (nested_rise h .inversion).map fun e he => he.2

omit h in
/-- The same for connectives as for operators. -/
theorem connected_rise (word : Keyword) (op : BoolOp) {operand : Parse Expr} {k : Nat}
    (ho : Parse.Makes (Behind depth) (fun e => e.rise ≤ k) operand) :
    ∀ (fuel chain : Nat) (left : Expr), chain ≤ levels nesting → left.rise ≤ k + chain →
      Parse.Makes (Behind depth) (fun e => e.rise ≤ k + levels nesting)
        (connected word op operand nesting fuel chain left)
  | 0, _, _, hchain, hleft => .pure (hleft.trans (Nat.add_le_add_left hchain k))
  | fuel + 1, chain, left, hchain, hleft => by
    refine .after fun _ => .ite (fun _ => ?_) fun _ =>
      .pure (hleft.trans (Nat.add_le_add_left hchain k))
    refine (checkNesting_makes (chain + 1)).bind fun _ hlevels => ?_
    refine Parse.Leads.bind ho fun right hright => ?_
    refine connected_rise word op ho fuel (chain + 1) _ (chain_le hlevels) ?_
    simp only [Expr.rise, Expr.reach] at *
    omega

theorem conjunction_rise : Parse.Makes (Behind depth)
    (fun e => e.rise ≤ Goal.inversion.limit nesting depth + levels nesting)
    (conjunction parts fuel nesting) :=
  (inversion_rise h).bind fun left hleft =>
    connected_rise .andKw .and (inversion_rise h) fuel 0 left (Nat.zero_le _) hleft

theorem disjunction_rise : Parse.Makes (Behind depth)
    (fun e => e.rise ≤ Goal.inversion.limit nesting depth + levels nesting + levels nesting)
    (disjunction parts fuel nesting) :=
  (conjunction_rise h).bind fun left hleft =>
    connected_rise .orKw .or (conjunction_rise h) fuel 0 left (Nat.zero_le _) hleft

theorem conditional_rise : Parse.Makes (Behind depth)
    (fun e => e.rise ≤ Goal.test.limit nesting depth) (conditional parts fuel nesting) := by
  have operand : Parse.Makes (Behind depth)
      (fun e => e.rise + 1 ≤ Goal.test.limit nesting depth) (disjunction parts fuel nesting) :=
    (disjunction_rise h).weaken fun e he => by
      simp only [Goal.limit] at he ⊢
      omega
  refine operand.bind fun yes hyes => .after fun _ => .ite (fun _ => ?_) fun _ =>
    .pure (Nat.le_of_succ_le hyes)
  refine operand.bind fun condition hcondition => .after fun _ => ?_
  refine (nested_rise h .test).bind fun no hno => .pure ?_
  simp only [Expr.rise, Expr.reach] at *
  omega

end Ladder

/-! ## Expressions -/

/-- An expression rises no further than its limit, at every nesting and behind any number of open
brackets. -/
theorem parseGoal_rise : ∀ (fuel : Nat) (goal : Goal) (nesting depth : Nat),
    Parse.Makes (Behind depth) (fun e => e.rise ≤ goal.limit nesting depth)
      (parseGoal fuel goal nesting)
  | 0, _, _, _ => .fail _
  | fuel + 1, goal, nesting, depth => by
    cases goal with
    | test => exact conditional_rise (parseGoal_rise fuel)
    | inversion => exact inversion_rise (parseGoal_rise fuel)
    | factor => exact factor_rise (parseGoal_rise fuel)

end SortTrace.Script
