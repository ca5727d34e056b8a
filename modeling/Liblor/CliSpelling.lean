import Liblor.CliPrefix
import Liblor.CliTurn

/-!
# The spellings of a value

A value can be given to an option in five ways. All of them extract it alike, except that `-s=`
drops the empty value behind its `=` and takes the next argument for it.
-/

namespace Liblor.CliArgv

open Cli

inductive Spelling where
  | longAttached
  | longDetached
  | shortEquals
  | shortDetached
  | shortAttached
  deriving DecidableEq, Repr

/-- `--l=V`, `--l V`, `-s=V`, `-s V` and `-sV`. -/
def Spelling.elements (spelling : Spelling) (short : UInt8) (long value : Bytes) :
    List (Option Bytes) :=
  match spelling with
  | longAttached => [some (45 :: 45 :: (long ++ 61 :: value))]
  | longDetached => [some (45 :: 45 :: long), some value]
  | shortEquals => [some (45 :: short :: 61 :: value)]
  | shortDetached => [some [45, short], some value]
  | shortAttached => [some (45 :: short :: value)]

/-- `-sV` spells neither the empty value nor one with `=` in front. -/
def Spelling.Allows (spelling : Spelling) (value : Bytes) : Prop :=
  spelling = .shortAttached → value ≠ [] ∧ value.head? ≠ some 61

variable {D : Type} {host : Host D} {session : Session D} {argv before suffix : List (Option Bytes)}
  {i : ℕ} {token value long : Bytes} {short : UInt8} {found : ℕ × LorCliOptionInternal}

theorem shortNameValid_spec {name : UInt8} (h : shortNameValid name) (hname : name ≠ 0) :
    name ≠ 104 ∧ name ≠ 45 := by
  simp only [shortNameValid, beq_eq_false_iff_ne.2 hname, Bool.false_or, Bool.and_eq_true,
    bne_iff_ne, ne_eq] at h
  exact ⟨h.1.1.1, h.1.1.2⟩

/-- No number is expected, and an option that takes a value has these names. -/
structure Ready (host : Host D) (session : Session D) (found : ℕ × LorCliOptionInternal)
    (short : UInt8) (long : Bytes) : Prop where
  numeric : ∀ token,
    positionalNumeric host.convert session.cli session.positionalIndex token = false
  kind : found.2.kind.bare = false
  findShort : session.cli.findShort short = some found
  findLong : session.cli.findLong long = some found
  shortName : short ≠ 104 ∧ short ≠ 45
  longName : long ≠ [] ∧ 61 ∉ long ∧ long ≠ helpName

/-- A round that gives the option the value behind a prefix, and leaves the suffix. -/
def Gives (host : Host D) (session : Session D) (found : ℕ × LorCliOptionInternal)
    (value : Bytes) (before args suffix : List (Option Bytes)) : Prop :=
  ∃ (token : Bytes) (taken : ℕ),
    turn host (before ++ args) session true before.length =
      some (((applyOption host session found (some value) before.length token).1,
        (applyOption host session found (some value) before.length token).2,
        before.length + taken), true) ∧
    args.drop (taken + 1) = suffix

theorem withNext_some {next : Option Bytes} (hnext : argv[i + 1]? = some next) :
    withNext host argv session found i token =
      some ((applyOption host session found next i token).1,
        (applyOption host session found next i token).2, i + 1) := by
  obtain ⟨hlt, -⟩ := List.getElem?_eq_some_iff.1 hnext
  rw [withNext, if_neg (Nat.not_le_of_lt hlt), hnext]
  rfl

theorem getElem?_behind (before args : List (Option Bytes)) (n : ℕ) :
    (before ++ args)[before.length + n]? = args[n]? := by
  rw [List.getElem?_append_right (Nat.le_add_right _ _), Nat.add_sub_cancel_left]

theorem drop_behind (before args : List (Option Bytes)) (n : ℕ) :
    (before ++ args).drop (before.length + n) = args.drop n := by
  rw [← List.drop_drop, List.drop_left]

namespace Ready

variable (ready : Ready host session found short long)

include ready

theorem turn_long {name : Bytes} (hget : argv[i]? = some (some (45 :: 45 :: name)))
    (hname : name ≠ [] ∧ name ≠ helpName) :
    turn host argv session true i =
      (longOption host argv session i (45 :: 45 :: name)).bind fun step => some (step, true) := by
  simp [turn, hget, ready.numeric, hname]

theorem turn_short {cursor : Bytes} (hget : argv[i]? = some (some (45 :: short :: cursor))) :
    turn host argv session true i =
      (shortOptions host argv i (45 :: short :: cursor) session (short :: cursor)).bind
        fun step => some (step, true) := by
  simp [turn, hget, ready.numeric, ready.shortName]

theorem gives_longAttached :
    Gives host session found value before (some (45 :: 45 :: (long ++ 61 :: value)) :: suffix)
      suffix := by
  refine ⟨45 :: 45 :: (long ++ 61 :: value), 0, ?_, rfl⟩
  rw [ready.turn_long (getElem?_behind before _ 0) attached_ne]
  simp only [longOption, List.drop_succ_cons, List.drop_zero, idxOf?_equals ready.longName.2.1,
    Option.getD_some, List.take_left, ready.findLong, Option.map_some]
  simp

theorem gives_longDetached :
    Gives host session found value before (some (45 :: 45 :: long) :: some value :: suffix)
      suffix := by
  refine ⟨45 :: 45 :: long, 1, ?_, rfl⟩
  rw [ready.turn_long (getElem?_behind before _ 0) ⟨ready.longName.1, ready.longName.2.2⟩]
  have hindex := List.idxOf?_eq_none_iff.2 ready.longName.2.1
  simp only [longOption, List.drop_succ_cons, List.drop_zero, hindex, Option.getD_none,
    List.take_length, ready.findLong, Option.map_none, ready.kind, true_and, if_true]
  rw [withNext_some (getElem?_behind before (_ :: some value :: suffix) 1)]
  rfl

/-- The value stands in the argument of the short option, behind a `=` that is skipped. -/
theorem gives_attached {cursor : Bytes}
    (hcursor : (if cursor.head? = some 61 then cursor.tail else cursor) = value)
    (hvalue : value ≠ []) :
    Gives host session found value before (some (45 :: short :: cursor) :: suffix) suffix := by
  refine ⟨45 :: short :: cursor, 0, ?_, rfl⟩
  rw [ready.turn_short (getElem?_behind before _ 0)]
  simp only [shortOptions, if_neg ready.shortName.1, ready.findShort, if_pos ready.kind, hcursor,
    if_pos hvalue]
  rfl

/-- Where nothing is left in the argument of the short option the next one is its value. -/
theorem turn_short_detached {cursor : Bytes}
    (hget : argv[i]? = some (some (45 :: short :: cursor)))
    (hcursor : (if cursor.head? = some 61 then cursor.tail else cursor) = []) :
    turn host argv session true i =
      (withNext host argv session found i (45 :: short :: cursor)).bind
        fun step => some (step, true) := by
  rw [ready.turn_short hget]
  simp only [shortOptions, if_neg ready.shortName.1, ready.findShort, if_pos ready.kind, hcursor]
  rfl

theorem gives_shortDetached :
    Gives host session found value before (some [45, short] :: some value :: suffix) suffix := by
  refine ⟨[45, short], 1, ?_, rfl⟩
  rw [ready.turn_short_detached (getElem?_behind before _ 0) (if_neg (by simp)),
    withNext_some (getElem?_behind before _ 1)]
  rfl

/-- Every spelling gives the value to the option, `-s=V` where it is not empty. -/
theorem gives (before suffix : List (Option Bytes)) (spelling : Spelling)
    (hallows : spelling.Allows value) (hequals : spelling = .shortEquals → value ≠ []) :
    Gives host session found value before (spelling.elements short long value ++ suffix)
      suffix := by
  cases spelling with
  | longAttached => exact ready.gives_longAttached
  | longDetached => exact ready.gives_longDetached
  | shortEquals => exact ready.gives_attached (if_pos rfl) (hequals rfl)
  | shortDetached => exact ready.gives_shortDetached
  | shortAttached => exact ready.gives_attached (if_neg (hallows rfl).2) (hallows rfl).1

/-- At the end of the arguments `-s=` has no value. -/
theorem equals_missing (before : List (Option Bytes)) (fuel : ℕ) :
    ∃ result session',
      parseLoop host (before ++ [some [45, short, 61]]) (fuel + 1) session true before.length =
        some (result, session') ∧ result.code = .missingValue := by
  have hturn : turn host (before ++ [some [45, short, 61]]) session true before.length = _ :=
    ready.turn_short_detached (getElem?_behind before _ 0) (if_pos rfl)
  rw [parseLoop, if_pos (by simp), hturn, withNext, if_pos (by simp)]
  exact ⟨_, _, rfl, rfl⟩

/-- Before another argument `-s=` takes that one for its value. -/
theorem equals_unread (before suffix : List (Option Bytes)) (next : Option Bytes) (fuel : ℕ) :
    (unread host (before ++ some [45, short, 61] :: next :: suffix) (fuel + 1) session true
      before.length).head? = some suffix := by
  have hturn : turn host (before ++ some [45, short, 61] :: next :: suffix) session true
      before.length = _ :=
    ready.turn_short_detached (getElem?_behind before _ 0) (if_pos rfl)
  rw [unread, hturn, withNext_some (getElem?_behind before (_ :: next :: suffix) 1)]
  dsimp only [Option.bind_some]
  rw [Nat.add_assoc, drop_behind]
  rfl

end Ready

theorem Gives.unread {args : List (Option Bytes)}
    (h : Gives host session found value before args suffix)
    (fuel : ℕ) :
    (unread host (before ++ args) (fuel + 1) session true before.length).head? = some suffix := by
  obtain ⟨token, taken, hturn, hdrop⟩ := h
  rw [CliArgv.unread, hturn]
  dsimp only
  rw [Nat.add_assoc, drop_behind, hdrop]
  rfl

theorem Gives.same {args args' : List (Option Bytes)} {fuel fuel' : ℕ}
    (h : Gives host session found value before args suffix)
    (h' : Gives host session found value before args' suffix)
    (hfuel : (before ++ args).length ≤ before.length + fuel)
    (hfuel' : (before ++ args').length ≤ before.length + fuel') :
    ∃ result result' session',
      parseLoop host (before ++ args) (fuel + 1) session true before.length =
        some (result, session') ∧
      parseLoop host (before ++ args') (fuel' + 1) session true before.length =
        some (result', session') ∧ result.code = result'.code ∧
      CliArgv.unread host (before ++ args) (fuel + 1) session true before.length =
        CliArgv.unread host (before ++ args') (fuel' + 1) session true before.length := by
  obtain ⟨token, taken, hturn, hdrop⟩ := h
  obtain ⟨token', taken', hturn', hdrop'⟩ := h'
  have hlt := turn_lt hturn
  have hlt' := turn_lt hturn'
  obtain ⟨hcode, hsession⟩ := applyOption_same host session found (some value) before.length
    before.length token token'
  have hrest : (before ++ args).drop (before.length + taken + 1) = suffix := by
    rw [Nat.add_assoc, drop_behind, hdrop]
  have hrest' : (before ++ args').drop (before.length + taken' + 1) = suffix := by
    rw [Nat.add_assoc, drop_behind, hdrop']
  rw [parseLoop, parseLoop, if_pos hlt, if_pos hlt', CliArgv.unread, CliArgv.unread, hturn, hturn']
  simp only [Option.bind_eq_bind, Option.bind_some, hrest, hrest', hcode, hsession]
  split_ifs
  · exact ⟨_, _, _, rfl, rfl, hcode, rfl⟩
  · obtain ⟨fuel, rfl⟩ : ∃ n, fuel = n + 1 := Nat.exists_eq_succ_of_ne_zero (by omega)
    obtain ⟨fuel', rfl⟩ : ∃ n, fuel' = n + 1 := Nat.exists_eq_succ_of_ne_zero (by omega)
    obtain ⟨last, last', session', hrun, hrun', hlast, hunread⟩ :=
      parseLoop_same fuel fuel'
        (applyOption host session found (some value) before.length token').2 true
        (hrest.trans hrest'.symm) (by omega) (by omega)
    exact ⟨last, last', session', hrun, hrun', hlast, by rw [hunread]⟩

/-! ## The missing value -/

theorem assignValue_code (kind : LorCliValueKind) (destination : ℕ) :
    (assignValue host session kind destination value).1 ≠ .missingValue := by
  cases hbare : kind.bare with
  | true =>
    rw [assignValue_bare host session hbare]
    simp
  | false =>
    obtain ⟨code, session', hassign, -, -, hcases⟩ :=
      assignValue_cases host session hbare destination value
    rw [hassign]
    rcases hcases with ⟨rfl, -, -⟩ | ⟨_, -, ⟨rfl, -⟩ | ⟨rfl, -, -⟩⟩
    · simp
    · simp
    · simp

theorem applyOption_some_code (i : ℤ) (token : Bytes) :
    (applyOption host session found (some value) i token).1.code ≠ .missingValue := by
  simp only [applyOption, if_pos (Option.some_ne_none value)]
  split_ifs
  · simp [optionResult, result]
  · simp [optionResult, result]
  · simp [optionResult, result]
  · exact assignValue_code _ _
  · simp [optionResult, result]

theorem finish_code (cli : LorCli) : (finish cli).code ≠ .missingValue := by
  unfold finish
  split
  · simp [optionResult, result]
  · split
    · simp [result]
    · simp [result]

theorem Gives.code {args : List (Option Bytes)} {fuel : ℕ}
    (h : Gives host session found value before args [])
    (hfuel : (before ++ args).length ≤ before.length + fuel) :
    ∃ result session',
      parseLoop host (before ++ args) (fuel + 1) session true before.length =
        some (result, session') ∧ result.code ≠ .missingValue := by
  obtain ⟨token, taken, hturn, hdrop⟩ := h
  have hlt := turn_lt hturn
  have hend : (before ++ args).drop (before.length + taken + 1) = [] := by
    rw [Nat.add_assoc, drop_behind, hdrop]
  have hge := List.drop_eq_nil_iff.1 hend
  rw [parseLoop, if_pos hlt, hturn]
  simp only [Option.bind_eq_bind, Option.bind_some]
  split_ifs
  · exact ⟨_, _, rfl, applyOption_some_code _ _⟩
  · obtain ⟨fuel, rfl⟩ : ∃ n, fuel = n + 1 := Nat.exists_eq_succ_of_ne_zero (by omega)
    rw [parseLoop, if_neg (by omega)]
    exact ⟨_, _, rfl, finish_code _⟩

/-! ## Agreement -/

/-- Two ways to go on behind the same arguments come to the same: the code, what each round leaves
unread, and what all destinations hold. -/
structure Agree (host : Host D) (cli : LorCli) (memory : Memory D) (before : List (Option Bytes))
    (session : Session D) (args args' : List (Option Bytes)) : Prop where
  answered : (parse host cli memory (before ++ args)).isSome = true
  code : (parse host cli memory (before ++ args)).map (fun answer => answer.1.code) =
    (parse host cli memory (before ++ args')).map fun answer => answer.1.code
  unread : unread host (before ++ args) ((before ++ args).length + 1) session true before.length =
    unread host (before ++ args') ((before ++ args').length + 1) session true before.length
  memory : (parse host cli memory (before ++ args)).map (fun answer => answer.2.memory) =
    (parse host cli memory (before ++ args')).map fun answer => answer.2.memory

section Prefix

variable {cli : LorCli} {memory : Memory D} {program : Option Bytes} {option : LorCliOptionInternal}

theorem parse_reads (hbuilt : Built cli)
    (hreads : Reads host (program :: before) ⟨started cli (program :: before), memory, 0, 0⟩ true 1
      session true)
    (args : List (Option Bytes)) :
    ∃ fuel, (program :: before ++ args).length ≤ (program :: before).length + fuel ∧
      parse host cli memory (program :: before ++ args) =
        parseLoop host (program :: before ++ args) (fuel + 1) session true
          (program :: before).length := by
  obtain ⟨fuel, hfuel, hrun⟩ :=
    parseLoop_reads hreads args (program :: before ++ args).length (Nat.le_add_left _ _)
  refine ⟨fuel, hfuel, ?_⟩
  rw [← hrun, parse, if_neg (by rw [hbuilt.fresh.parsed]; decide), programName_started]
  rfl

theorem Reads.ready (hbuilt : Built cli)
    (hreads : Reads host (program :: before) ⟨started cli (program :: before), memory, 0, 0⟩ true 1
      session true)
    (hpending : ∀ item, session.cli.positionals[session.positionalIndex]? = some item →
      item.kind ≠ .int ∧ item.kind ≠ .double)
    (hoption : option ∈ cli.options) (hshort : option.spec.shortName ≠ 0)
    (hlong : option.spec.longName = some long) (hkind : option.kind.bare = false) :
    ∃ found, Ready host session found option.spec.shortName long := by
  have hregistered : Registered (started cli (program :: before)) := by
    obtain ⟨hoptions, hdistinct, hpositionals, hinOrder⟩ := hbuilt.registered
    exact ⟨hoptions, hdistinct, hpositionals, hinOrder⟩
  have hok := hregistered.options option hoption
  obtain ⟨index, hindex⟩ := List.mem_iff_getElem?.1 hoption
  have hsession := hregistered.of_clear hreads.clear
  have hstarted : (started cli (program :: before)).options[index]? = some option := hindex
  obtain ⟨occurrences, hcounted⟩ := option_of_clear hreads.clear hstarted
  refine ⟨(index, { option with occurrences := occurrences }), ?_, hkind,
    hsession.findShort hcounted hshort, hsession.findLong hcounted hlong,
    shortNameValid_spec hok.short hshort, longNameValid_spec (hok.long long hlong)⟩
  intro token
  unfold positionalNumeric
  cases hitem : session.cli.positionals[session.positionalIndex]? with
  | none => rfl
  | some item =>
    dsimp only
    rw [if_neg (hpending item hitem).1, if_neg (hpending item hitem).2]

/-- All spellings of a value agree behind every prefix and before every suffix, whatever room the
lists find, just where the value is not empty. -/
theorem spellings_agree_iff (host : Host D) (hbuilt : Built cli) (memory : Memory D)
    (program : Option Bytes)
    (hreads : Reads host (program :: before) ⟨started cli (program :: before), memory, 0, 0⟩ true 1
      session true)
    (hpending : ∀ item, session.cli.positionals[session.positionalIndex]? = some item →
      item.kind ≠ .int ∧ item.kind ≠ .double)
    (hoption : option ∈ cli.options) (hshort : option.spec.shortName ≠ 0)
    (hlong : option.spec.longName = some long) (hkind : option.kind.bare = false)
    (value : Bytes) (suffix : List (Option Bytes)) :
    (∀ a b : Spelling, a.Allows value → b.Allows value →
      Agree host cli memory (program :: before) session
        (a.elements option.spec.shortName long value ++ suffix)
        (b.elements option.spec.shortName long value ++ suffix)) ↔ value ≠ [] := by
  obtain ⟨found, ready⟩ := hreads.ready hbuilt hpending hoption hshort hlong hkind
  constructor
  · rintro hagree rfl
    have hlongAllows : Spelling.longAttached.Allows [] := by
      rintro ⟨⟩
    have hshortAllows : Spelling.shortEquals.Allows [] := by
      rintro ⟨⟩
    obtain ⟨-, hcode, hunread, -⟩ := hagree _ _ hshortAllows hlongAllows
    have hgives := ready.gives (program :: before) suffix .longAttached hlongAllows (by rintro ⟨⟩)
    cases suffix with
    | nil =>
      obtain ⟨fuel, hfuel, hparse⟩ := parse_reads hbuilt hreads
        (Spelling.shortEquals.elements option.spec.shortName long [] ++ [])
      obtain ⟨fuel', hfuel', hparse'⟩ := parse_reads hbuilt hreads
        (Spelling.longAttached.elements option.spec.shortName long [] ++ [])
      obtain ⟨missing, _, hrun, hmissing⟩ := ready.equals_missing (program :: before) fuel
      obtain ⟨result, _, hrun', hresult⟩ := hgives.code hfuel'
      rw [hparse, hparse', hrun', Spelling.elements, List.append_nil, hrun] at hcode
      exact hresult ((Option.some.inj hcode).symm.trans hmissing)
    | cons next suffix =>
      have hheads := congrArg List.head? hunread
      rw [hgives.unread] at hheads
      have heq := (ready.equals_unread (program :: before) suffix next _).symm.trans hheads
      exact absurd (congrArg List.length (Option.some.inj heq)) (by simp)
  · intro hvalue a b ha hb
    have hgives := ready.gives (program :: before) suffix a ha fun _ => hvalue
    have hgives' := ready.gives (program :: before) suffix b hb fun _ => hvalue
    obtain ⟨fuel, hfuel, hparse⟩ := parse_reads hbuilt hreads
      (a.elements option.spec.shortName long value ++ suffix)
    obtain ⟨fuel', hfuel', hparse'⟩ := parse_reads hbuilt hreads
      (b.elements option.spec.shortName long value ++ suffix)
    obtain ⟨result, result', session', hrun, hrun', hcode, -⟩ := hgives.same hgives' hfuel hfuel'
    obtain ⟨-, -, -, -, -, -, hunread⟩ :=
      hgives.same hgives' (Nat.le_add_left _ _) (Nat.le_add_left _ _)
    rw [hrun] at hparse
    rw [hrun'] at hparse'
    refine ⟨?_, ?_, hunread, ?_⟩
    · rw [hparse]
      rfl
    · rw [hparse, hparse', Option.map_some, Option.map_some, hcode]
    · rw [hparse, hparse']
      rfl

end Prefix

/-! ## The option `output` -/

/-- `copy`, the program's name. -/
def program : Option Bytes := some [99, 111, 112, 121]

def outputOption : LorCliOption := ⟨111, some [111, 117, 116, 112, 117, 116], false, false⟩

/-- A parser with the option `output`, a string with its destination at 1. -/
def outputCli : LorCli := ⟨[⟨outputOption, .string, 1, 0⟩], [], none, false⟩

/-- Numbers are decimal, and no list finds room. -/
def outputHost : Host ℤ := ⟨⟨decimal, decimal⟩, fun _ => false⟩

theorem built_outputCli : Built outputCli :=
  .option (.init none) rfl (rfl : Cli.addOption _ outputOption .string 1 = _)

theorem spellings_agree_iff_output :
    Agree outputHost outputCli zeroMemory [program] ⟨started outputCli [program], zeroMemory, 0, 0⟩
      (Spelling.shortAttached.elements 111 [111, 117, 116, 112, 117, 116] [97])
      (Spelling.longDetached.elements 111 [111, 117, 116, 112, 117, 116] [97]) := by
  have hreads : Reads outputHost [program] ⟨started outputCli [program], zeroMemory, 0, 0⟩ true 1
      ⟨started outputCli [program], zeroMemory, 0, 0⟩ true := .done _ _
  have h := (spellings_agree_iff outputHost built_outputCli zeroMemory program hreads
    (by simp [started, outputCli]) (List.mem_singleton_self _) (by decide) rfl rfl [97] []).2
    (by decide) .shortAttached .longDetached (fun _ => by decide) (by rintro ⟨⟩)
  simp only [List.append_nil] at h
  exact h

/-- `-o=` at the end of the arguments misses its value, `--output=` gives the empty one. -/
theorem empty_value_missing :
    ¬ Agree outputHost outputCli zeroMemory [program]
      ⟨started outputCli [program], zeroMemory, 0, 0⟩
      (Spelling.shortEquals.elements 111 [111, 117, 116, 112, 117, 116] [])
      (Spelling.longAttached.elements 111 [111, 117, 116, 112, 117, 116] []) := by
  rintro ⟨-, hcode, -, -⟩
  revert hcode
  decide

end Liblor.CliArgv
