import Mathlib

/-!
# Conditional directives of the C preprocessor

A text with the directives `#if`, `#ifdef`, `#define` and `#endif` adds to the macros that are
defined. A comment counts as a space, and a line that is no directive changes nothing. What a macro
stands for plays no role, so that to define one once more has no effect. Not covered are spliced
lines, comments up to the end of a line, string literals, and conditions other than `defined`, `!`,
`&&` and `||`.
-/

namespace Preprocessor

abbrev Text := List Char

/-- The macros that are defined. -/
abbrev Macros := Text → Bool

/-! ## Comments -/

/-- Where a text stands with respect to comments. -/
inductive Place where
  | outside
  | slash
  | inside
  | star
  deriving DecidableEq, Repr

/-- The place behind a character, and what the character contributes. -/
def scan : Place → Char → Place × Text
  | .outside, c => if c = '/' then (.slash, []) else (.outside, [c])
  | .slash, c =>
    if c = '*' then (.inside, [' '])
    else if c = '/' then (.slash, ['/'])
    else (.outside, ['/', c])
  | .inside, c => if c = '*' then (.star, []) else (.inside, [])
  | .star, c =>
    if c = '/' then (.outside, []) else if c = '*' then (.star, []) else (.inside, [])

def uncomment : Place → Text → Text
  | place, [] => if place = .slash then ['/'] else []
  | place, c :: text => (scan place c).2 ++ uncomment (scan place c).1 text

/-- The place at the end of a text. -/
def after (place : Place) (text : Text) : Place :=
  text.foldl (fun place c => (scan place c).1) place

/-! ## Conditions -/

inductive Condition where
  | defined (name : Text)
  | not (c : Condition)
  | and (c d : Condition)
  | or (c d : Condition)
  deriving DecidableEq, Repr

def Condition.eval (macros : Macros) : Condition → Bool
  | .defined name => macros name
  | .not c => !c.eval macros
  | .and c d => c.eval macros && d.eval macros
  | .or c d => c.eval macros || d.eval macros

abbrev Reader (α : Type) := Text → Option (α × Text)

def isNameStart (c : Char) : Bool := c.isAlpha || c == '_'

def isNameChar (c : Char) : Bool := c.isAlphanum || c == '_'

/-- An identifier that can be the name of a macro. -/
def IsName (text : Text) : Prop :=
  text.head?.any isNameStart = true ∧ text.all isNameChar = true ∧ text ≠ "defined".toList

instance (text : Text) : Decidable (IsName text) := inferInstanceAs (Decidable (_ ∧ _ ∧ _))

def skipSpace (text : Text) : Text := text.dropWhile fun c => c == ' ' || c == '\t'

def name : Reader Text := fun text =>
  if IsName (text.takeWhile isNameChar) then
    some (text.takeWhile isNameChar, text.dropWhile isNameChar)
  else none

/-- What stands behind `defined`. -/
def operand : Reader Condition := fun text =>
  let text := skipSpace text
  if text.head? = some '(' then
    match name (skipSpace text.tail) with
    | none => none
    | some (n, rest) =>
      if (skipSpace rest).head? = some ')' then
        some (.defined n, skipSpace (skipSpace rest).tail)
      else none
  else (name text).map fun (n, rest) => (.defined n, skipSpace rest)

def primary : ℕ → Reader Condition
  | 0, _ => none
  | fuel + 1, text =>
    let text := skipSpace text
    if text.head? = some '!' then (primary fuel text.tail).map fun (c, rest) => (.not c, rest)
    else if text.takeWhile isNameChar = "defined".toList then operand (text.dropWhile isNameChar)
    else none

/-- Items with an operator between them. -/
def chain (item : Reader Condition) (operator : Text)
    (combine : Condition → Condition → Condition) : ℕ → Reader Condition
  | 0, _ => none
  | fuel + 1, text =>
    match item text with
    | none => none
    | some (c, rest) =>
      if operator.isPrefixOf rest then
        (chain item operator combine fuel (rest.drop operator.length)).map
          fun (d, rest) => (combine c d, rest)
      else some (c, rest)

def conjunction (fuel : ℕ) : Reader Condition := chain (primary fuel) ['&', '&'] .and fuel

def disjunction (fuel : ℕ) : Reader Condition := chain (conjunction fuel) ['|', '|'] .or fuel

def condition (text : Text) : Option Condition :=
  match disjunction (text.length + 1) text with
  | some (c, []) => some c
  | _ => none

/-! ## Lines -/

/-- A line; `#ifdef` is a condition too. -/
inductive Line where
  | text
  | condition (c : Condition)
  | define (name : Text)
  | endif
  deriving DecidableEq, Repr

/-- A name at the end of a line. -/
def lastName (text : Text) : Option Text :=
  match name (skipSpace text) with
  | none => none
  | some (n, rest) => if skipSpace rest = [] then some n else none

def directive (keyword rest : Text) : Option Line :=
  if keyword = "if".toList then (condition rest).map .condition
  else if keyword = "ifdef".toList then (lastName rest).map fun n => .condition (.defined n)
  else if keyword = "define".toList then (name (skipSpace rest)).map fun (n, _) => .define n
  else if keyword = "endif".toList then if skipSpace rest = [] then some .endif else none
  else none

def line (source : Text) : Option Line :=
  let text := skipSpace source
  if text.head? = some '#' then
    let text := skipSpace text.tail
    directive (text.takeWhile isNameChar) (text.dropWhile isNameChar)
  else some .text

/-! ## Runs -/

/-- The macros, and for each group that is open, the inner ones first, whether it is processed. -/
structure State where
  macros : Macros
  groups : List Bool

def State.active (s : State) : Bool := s.groups.all id

def define (macros : Macros) (name : Text) : Macros := fun x => macros x || decide (x = name)

def step (s : State) : Line → Option State
  | .text => some s
  | .condition c => some { s with groups := (s.active && c.eval s.macros) :: s.groups }
  | .define name => some (if s.active then { s with macros := define s.macros name } else s)
  | .endif =>
    match s.groups with
    | [] => none
    | _ :: groups => some { s with groups := groups }

/-- The macros behind a text; `none` if it has a line that is not understood, or if its groups are
not balanced. -/
def preprocess (text : Text) (macros : Macros) : Option Macros :=
  match ((uncomment .outside text).splitOn '\n').mapM line with
  | none => none
  | some lines =>
    match lines.foldlM step ⟨macros, []⟩ with
    | some ⟨macros, []⟩ => some macros
    | _ => none

/-! ## Groups -/

def defineAll (macros : Macros) (names : List Text) : Macros := names.foldl define macros

/-- The macros that are defined under a condition. -/
structure Guarded where
  condition : Condition
  names : List Text

def Guarded.lines (g : Guarded) : List Line :=
  .condition g.condition :: g.names.map .define ++ [.endif]

def Guarded.run (macros : Macros) (g : Guarded) : Macros :=
  if g.condition.eval macros then defineAll macros g.names else macros

/-- The names are defined if one of the triggers is. -/
structure Rule where
  triggers : List Text
  names : List Text

def Rule.run (macros : Macros) (r : Rule) : Macros :=
  if r.triggers.any macros then defineAll macros r.names else macros

section Runs

theorem defineAll_apply (macros : Macros) (names : List Text) (x : Text) :
    defineAll macros names x = true ↔ macros x = true ∨ x ∈ names := by
  induction names generalizing macros with
  | nil => simp [defineAll]
  | cons n names ih =>
      rw [defineAll, List.foldl_cons, ← defineAll, ih, define, List.mem_cons]
      simp only [Bool.or_eq_true, decide_eq_true_eq]
      exact or_assoc

theorem foldlM_define (macros : Macros) (names : List Text) (b : Bool) :
    (names.map Line.define).foldlM step ⟨macros, [b]⟩ =
      some ⟨if b then defineAll macros names else macros, [b]⟩ := by
  induction names generalizing macros with
  | nil => cases b <;> rfl
  | cons n names ih =>
      have hstep : step ⟨macros, [b]⟩ (.define n) =
          some ⟨if b then define macros n else macros, [b]⟩ := by
        cases b <;> rfl
      rw [List.map_cons, List.foldlM_cons, hstep]
      change (names.map Line.define).foldlM step _ = _
      rw [ih]
      cases b <;> rfl

theorem foldlM_group (macros : Macros) (g : Guarded) :
    g.lines.foldlM step ⟨macros, []⟩ = some ⟨g.run macros, []⟩ := by
  have hstep : step ⟨macros, []⟩ (.condition g.condition) =
      some ⟨macros, [g.condition.eval macros]⟩ := rfl
  rw [Guarded.lines, List.cons_append, List.foldlM_cons, hstep]
  change (g.names.map Line.define ++ [Line.endif]).foldlM step _ = _
  rw [List.foldlM_append, foldlM_define]
  rfl

/-- Groups that stand one behind the other, with a line between them. -/
theorem foldlM_groups (macros : Macros) (groups : List Guarded) :
    (groups.flatMap fun g => Line.text :: g.lines).foldlM step ⟨macros, []⟩ =
      some ⟨groups.foldl Guarded.run macros, []⟩ := by
  induction groups generalizing macros with
  | nil => rfl
  | cons g groups ih =>
      have htext : step ⟨macros, []⟩ .text = some ⟨macros, []⟩ := rfl
      rw [List.flatMap_cons, List.foldlM_append, List.foldlM_cons, htext]
      change (g.lines.foldlM step ⟨macros, []⟩ >>= _) = _
      rw [foldlM_group]
      exact ih (g.run macros)

/-- A group that asks whether one of the triggers is defined. -/
def Guarded.Follows (g : Guarded) (r : Rule) : Prop :=
  g.names = r.names ∧ ∀ macros, g.condition.eval macros = r.triggers.any macros

theorem foldl_groups {groups : List Guarded} {rules : List Rule}
    (h : List.Forall₂ Guarded.Follows groups rules) (macros : Macros) :
    groups.foldl Guarded.run macros = rules.foldl Rule.run macros := by
  induction h generalizing macros with
  | nil => rfl
  | @cons g r groups rules hfirst hrest ih =>
      obtain ⟨hnames, hcondition⟩ := hfirst
      have hrun : g.run macros = r.run macros := by
        rw [Guarded.run, Rule.run, hcondition, hnames]
      rw [List.foldl_cons, List.foldl_cons, hrun, ih]

theorem Rule.run_apply (r : Rule) (macros : Macros) (x : Text) : r.run macros x = true ↔
    macros x = true ∨ (∃ t ∈ r.triggers, macros t = true) ∧ x ∈ r.names := by
  rw [Rule.run, ← List.any_eq_true]
  split_ifs with hany
  · rw [defineAll_apply, and_iff_right hany]
  · rw [or_iff_left fun hboth => hany hboth.1]

/-- One pass over rules defines all that they call for, if a rule that defines a trigger of another
defines what the other defines. -/
theorem foldl_rules {rules : List Rule}
    (hclosed : ∀ r ∈ rules, ∀ r' ∈ rules, ∀ t ∈ r'.triggers, t ∈ r.names →
      ∀ x ∈ r'.names, x ∈ r.names) (macros : Macros) (x : Text) :
    rules.foldl Rule.run macros x = true ↔
      macros x = true ∨ ∃ r ∈ rules, (∃ t ∈ r.triggers, macros t = true) ∧ x ∈ r.names := by
  -- `done` are the rules that have been processed, and `now` the macros behind them.
  have hpass : ∀ (rest done : List Rule) (now : Macros), rules = done ++ rest →
      (∀ x, now x = true ↔ macros x = true ∨
        ∃ r ∈ done, (∃ t ∈ r.triggers, macros t = true) ∧ x ∈ r.names) →
      (rest.foldl Rule.run now x = true ↔ macros x = true ∨
        ∃ r ∈ rules, (∃ t ∈ r.triggers, macros t = true) ∧ x ∈ r.names) := by
    intro rest
    induction rest with
    | nil =>
        intro done now hsplit hnow
        rw [hsplit, List.append_nil]
        exact hnow x
    | cons r rest ih =>
        intro done now hsplit hnow
        have hr : r ∈ rules := by
          rw [hsplit]
          exact List.mem_append_right _ List.mem_cons_self
        have hdone : ∀ r' ∈ done, r' ∈ rules := fun r' hr' => by
          rw [hsplit]
          exact List.mem_append_left _ hr'
        rw [List.foldl_cons]
        refine ih (done ++ [r]) _ (by simp [hsplit]) fun y => ?_
        rw [r.run_apply, hnow y]
        constructor
        · rintro ((hy | ⟨r', hr', hy⟩) | ⟨⟨t, ht, hnowt⟩, hy⟩)
          · exact Or.inl hy
          · exact Or.inr ⟨r', List.mem_append_left _ hr', hy⟩
          · rcases (hnow t).1 hnowt with hmacros | ⟨r', hr', hfires, hmem⟩
            · exact Or.inr ⟨r, List.mem_append_right _ List.mem_cons_self, ⟨t, ht, hmacros⟩, hy⟩
            · exact Or.inr ⟨r', List.mem_append_left _ hr', hfires,
                hclosed r' (hdone r' hr') r hr t ht hmem y hy⟩
        · rintro (hy | ⟨r', hr', ⟨t, ht, hmacros⟩, hy⟩)
          · exact Or.inl (Or.inl hy)
          · rcases List.mem_append.1 hr' with hr' | hr'
            · exact Or.inl (Or.inr ⟨r', hr', ⟨t, ht, hmacros⟩, hy⟩)
            · rw [List.mem_singleton.1 hr'] at ht hy
              exact Or.inr ⟨⟨t, ht, (hnow t).2 (Or.inl hmacros)⟩, hy⟩
  exact hpass rules [] macros rfl (by simp)

end Runs

end Preprocessor
