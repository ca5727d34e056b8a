import Liblor.CliRegistry

/-!
# A long option and the loop

The round of a long option by the name in its argument, and the loop round by round, with as many
rounds as there are arguments.
-/

namespace Liblor.Cli

variable {D : Type} {convert : Converters D} {parser : Parser D} {i : ℤ}
  {next : List (Option Bytes)} {found : ℕ × LorCliOptionInternal}

section Long

variable {long : Bytes}

theorem longNameValid_spec {name : Bytes} (h : longNameValid name) :
    name ≠ [] ∧ 61 ∉ name ∧ name ≠ helpName := by
  unfold longNameValid at h
  cases name with
  | nil => cases h
  | cons first rest =>
      simp only [Bool.and_eq_true, bne_iff_ne, ne_eq, List.all_eq_true] at h
      refine ⟨List.cons_ne_nil _ _, ?_, h.2⟩
      intro hmem
      exact (h.1.2 61 hmem).1 rfl

/-- The first `=` ends the name. -/
theorem idxOf?_equals {name : Bytes} (h : 61 ∉ name) (value : Bytes) :
    (name ++ 61 :: value).idxOf? 61 = some name.length := by
  induction name with
  | nil => simp [List.idxOf?_cons]
  | cons first name ih =>
      rw [List.mem_cons, not_or] at h
      rw [List.cons_append, List.idxOf?_cons, ih h.2, beq_eq_false_iff_ne.2 (Ne.symm h.1)]
      simp

theorem turn_long (henabled : parser.optionsEnabled = true)
    (hnumeric : positionalNumeric convert parser (45 :: 45 :: long) = false)
    (hname : long ≠ [] ∧ long ≠ helpName) :
    turn convert parser i (some (45 :: 45 :: long)) next =
      longOption convert parser i (45 :: 45 :: long) next := by
  simp [turn, henabled, hnumeric, hname]

/-- `name=value` is neither empty nor `help`. -/
theorem attached_ne {value : Bytes} :
    long ++ 61 :: value ≠ [] ∧ long ++ 61 :: value ≠ helpName := by
  constructor
  · simp
  · intro heq
    have hmem : (61 : UInt8) ∈ helpName := by
      rw [← heq]
      simp
    revert hmem
    decide

theorem longOption_attached (hequals : 61 ∉ long) (hfound : parser.cli.findLong long = some found)
    (value : Bytes) (next : List (Option Bytes)) :
    longOption convert parser i (45 :: 45 :: (long ++ 61 :: value)) next =
      ⟨(applyOption convert parser found (some value) i (45 :: 45 :: (long ++ 61 :: value))).1,
        (applyOption convert parser found (some value) i (45 :: 45 :: (long ++ 61 :: value))).2,
        0⟩ := by
  simp only [longOption, List.drop_succ_cons, List.drop_zero, idxOf?_equals hequals,
    Option.getD_some, List.take_left, hfound, Option.map_some]
  simp

theorem longOption_bare (hequals : 61 ∉ long) (hfound : parser.cli.findLong long = some found)
    (hkind : found.2.kind.bare) (next : List (Option Bytes)) :
    longOption convert parser i (45 :: 45 :: long) next =
      ⟨(applyOption convert parser found none i (45 :: 45 :: long)).1,
        (applyOption convert parser found none i (45 :: 45 :: long)).2, 0⟩ := by
  simp [longOption, List.idxOf?_eq_none_iff.2 hequals, hfound, hkind]

end Long

section Loop

theorem parseLoop_fuel {fuel fuel' : ℕ} {args : List (Option Bytes)} (h : args.length ≤ fuel)
    (h' : args.length ≤ fuel') :
    parseLoop convert fuel parser i args = parseLoop convert fuel' parser i args := by
  induction fuel generalizing fuel' parser i args with
  | zero =>
      cases args with
      | nil => cases fuel' <;> rfl
      | cons token next => simp at h
  | succ fuel ih =>
      cases args with
      | nil => cases fuel' <;> rfl
      | cons token next =>
          cases fuel' with
          | zero => simp at h'
          | succ fuel' =>
              rw [List.length_cons] at h h'
              have hdrop : ∀ k, (next.drop k).length ≤ next.length := by
                intro k
                rw [List.length_drop]
                exact Nat.sub_le _ _
              simp only [parseLoop]
              split_ifs
              · rfl
              · apply ih ((hdrop _).trans _) ((hdrop _).trans _)
                · omega
                · omega

/-- The loop with as many rounds as there are arguments. -/
def parseFrom (convert : Converters D) (parser : Parser D) (i : ℤ) (args : List (Option Bytes)) :
    Outcome D := parseLoop convert args.length parser i args

theorem parseFrom_cons (token : Option Bytes) :
    parseFrom convert parser i (token :: next) =
      let turn := turn convert parser i token next
      let rest := next.drop turn.taken
      if turn.result.code ≠ .ok then ⟨turn.result, turn.parser, rest⟩
      else parseFrom convert turn.parser (i + 1 + turn.taken) rest := by
  rw [parseFrom, List.length_cons, parseLoop]
  dsimp only
  split_ifs
  · rfl
  · unfold parseFrom
    apply parseLoop_fuel
    · rw [List.length_drop]
      exact Nat.sub_le _ _
    · exact le_rfl

/-- The parser in front of the first argument. -/
def start (cli : LorCli) (memory : Memory D) (program : Option Bytes) : Parser D :=
  ⟨{ cli with
      parsed := true
      programName := if cli.programName = none then program else cli.programName },
    memory, 0, true⟩

theorem Registered.start {cli : LorCli} (h : Registered cli) (memory : Memory D)
    (program : Option Bytes) : Registered (Cli.start cli memory program).cli :=
  ⟨h.options, h.distinct, h.positionals, h.inOrder⟩

theorem parse_eq_parseFrom {cli : LorCli} (hfresh : Fresh cli) (memory : Memory D)
    (program : Option Bytes) (args : List (Option Bytes)) :
    parse convert cli memory (program :: args) =
      parseFrom convert (start cli memory program) 1 args := by
  unfold parse
  rw [hfresh.parsed, if_neg Bool.false_ne_true]
  apply parseLoop_fuel
  · exact Nat.le_succ _
  · exact le_rfl

end Loop

end Liblor.Cli
