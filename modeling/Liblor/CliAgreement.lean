import Liblor.CliItems

/-!
# The two forms of the parser agree

A parser that walks along the remaining arguments, with lists that always grow, does what the one
with an index does on a machine where no list runs out of room.
-/

namespace Liblor.CliArgv

open Cli

variable {D : Type} {host : Host D} {session : Session D} {argv : List (Option Bytes)} {i : ℕ}

/-- The session between two arguments as the state of the parser without an index. -/
def Session.parser (session : Session D) (enabled : Bool) : Parser D :=
  ⟨session.cli, session.memory, session.positionalIndex, enabled⟩

theorem parser_cli (session : Session D) (enabled : Bool) :
    (session.parser enabled).cli = session.cli := rfl

/-- What a branch of the loop has made of the argument at an index. -/
def turnAt (i : ℕ) (enabled : Bool) (step : Step D) : Turn D :=
  ⟨step.1, step.2.1.parser enabled, step.2.2 - i⟩

theorem turnAt_same (i : ℕ) (enabled : Bool) (result : LorCliResult) (session : Session D) :
    turnAt i enabled (result, session, i) = ⟨result, session.parser enabled, 0⟩ := by
  unfold turnAt
  rw [Nat.sub_self]

section Agree

variable (hpush : ∀ n, host.push n = true) (session : Session D) (enabled : Bool)

include hpush in
theorem assignValue_agrees (kind : LorCliValueKind) (destination : ℕ) (text : Bytes) :
    ∃ code session', assignValue host session kind destination text = (code, session') ∧
      Cli.assignValue host.convert session.memory kind destination text =
        (code, session'.memory) ∧
      session'.cli = session.cli ∧ session'.positionalIndex = session.positionalIndex := by
  cases hbare : kind.bare with
  | true =>
    refine ⟨_, _, assignValue_bare host session hbare destination text, ?_, rfl, rfl⟩
    cases kind with
    | flag => rfl
    | count => rfl
    | _ => cases hbare
  | false =>
    obtain ⟨code, session', hassign, hcli, hindex, hcases⟩ :=
      assignValue_cases host session hbare destination text
    refine ⟨code, session', hassign, ?_, hcli, hindex⟩
    rw [Cli.assignValue_eq hbare]
    rcases hcases with ⟨rfl, hmemory, hnone⟩ | ⟨value, hvalue, ⟨rfl, hmemory⟩ | ⟨-, hfull, -⟩⟩
    · rw [hnone, hmemory]
    · rw [hvalue, hmemory]
    · rw [hpush] at hfull
      contradiction

include hpush in
theorem applyOption_agrees (found : ℕ × LorCliOptionInternal) (value : Option Bytes) (i : ℤ)
    (token : Bytes) :
    ∃ result session', applyOption host session found value i token = (result, session') ∧
      Cli.applyOption host.convert (session.parser enabled) found value i token =
        (result, session'.parser enabled) := by
  obtain ⟨index, option⟩ := found
  simp only [applyOption, Cli.applyOption, Session.parser]
  split_ifs with _ _ _ _ _ hmax
  · exact ⟨_, _, rfl, rfl⟩
  · exact ⟨_, _, rfl, rfl⟩
  · exact ⟨_, _, rfl, rfl⟩
  · exact ⟨_, _, rfl, rfl⟩
  · exact ⟨_, _, rfl, if_pos hmax⟩
  · exact ⟨_, _, rfl, if_neg hmax⟩
  cases value with
  | none => exact ⟨_, _, rfl, rfl⟩
  | some value =>
    obtain ⟨code, session', hassign, hassign', hcli, hindex⟩ :=
      assignValue_agrees hpush session option.kind option.destination value
    simp only [hassign, hassign']
    rw [← hcli, ← hindex]
    split_ifs
    · exact ⟨_, _, rfl, rfl⟩
    · exact ⟨_, _, rfl, rfl⟩

include hpush in
theorem consumePositional_agrees (token : Bytes) (i : ℤ) :
    ∃ result session', consumePositional host session token i = (result, session') ∧
      Cli.consumePositional host.convert (session.parser enabled) token i =
        (result, session'.parser enabled) := by
  simp only [consumePositional, Cli.consumePositional, Session.parser]
  cases session.cli.positionals[session.positionalIndex]? with
  | none => exact ⟨_, _, rfl, rfl⟩
  | some item =>
    obtain ⟨code, session', hassign, hassign', hcli, hindex⟩ :=
      assignValue_agrees hpush session item.kind item.destination token
    simp only [hassign, hassign']
    rw [← hcli, ← hindex]
    split_ifs
    · exact ⟨_, _, rfl, rfl⟩
    · exact ⟨_, _, rfl, rfl⟩
    · exact ⟨_, _, rfl, rfl⟩

include hpush in
theorem withNext_agrees (found : ℕ × LorCliOptionInternal) (token : Bytes) :
    ∃ step, withNext host argv session found i token = some step ∧ i ≤ step.2.2 ∧
      ((argv.drop (i + 1) = [] ∧
          turnAt i enabled step =
            ⟨optionResult .missingValue i token found.2, session.parser enabled, 0⟩) ∨
        ∃ value rest, argv.drop (i + 1) = value :: rest ∧
          turnAt i enabled step =
            ⟨(Cli.applyOption host.convert (session.parser enabled) found value i token).1,
              (Cli.applyOption host.convert (session.parser enabled) found value i token).2,
                1⟩) := by
  unfold withNext
  by_cases hend : i + 1 ≥ argv.length
  · rw [if_pos hend]
    refine ⟨_, rfl, Nat.le_refl i, Or.inl ⟨List.drop_eq_nil_of_le hend, ?_⟩⟩
    simp [turnAt]
  · rw [if_neg hend]
    have hlt : i + 1 < argv.length := Nat.lt_of_not_le hend
    obtain ⟨result, session', happly, happly'⟩ :=
      applyOption_agrees hpush session enabled found argv[i + 1] i token
    rw [List.getElem?_eq_getElem hlt]
    simp only [Option.bind_eq_bind, Option.bind_some, happly]
    refine ⟨_, rfl, Nat.le_succ i, Or.inr ⟨_, _, List.drop_eq_getElem_cons hlt, ?_⟩⟩
    rw [happly']
    simp [turnAt]

include hpush in
theorem longOption_agrees (token : Bytes) :
    ∃ step, longOption host argv session i token = some step ∧ i ≤ step.2.2 ∧
      Cli.longOption host.convert (session.parser enabled) i token (argv.drop (i + 1)) =
        turnAt i enabled step := by
  unfold longOption Cli.longOption
  dsimp only
  rw [parser_cli]
  cases session.cli.findLong _ with
  | none => exact ⟨_, rfl, Nat.le_refl i, (turnAt_same i enabled _ session).symm⟩
  | some found =>
    generalize Option.map (fun equals => List.drop (equals + 1) (List.drop 2 token))
      (List.idxOf? 61 (List.drop 2 token)) = value
    dsimp only
    by_cases hnext : value = none ∧ found.2.kind.bare = false
    · rw [if_pos hnext, if_pos hnext]
      obtain ⟨step, hstep, hle, hend | ⟨value, rest, hvalue, hturn⟩⟩ :=
        withNext_agrees hpush session enabled found token
      · exact ⟨step, hstep, hle, by rw [hend.1, hend.2]⟩
      · exact ⟨step, hstep, hle, by rw [hvalue, hturn]⟩
    · rw [if_neg hnext, if_neg hnext]
      obtain ⟨result, session', happly, happly'⟩ :=
        applyOption_agrees hpush session enabled found value i token
      rw [happly, happly']
      exact ⟨_, rfl, Nat.le_refl i, (turnAt_same i enabled _ session').symm⟩

include hpush in
theorem shortOptions_agrees (token cursor : Bytes) :
    ∃ step, shortOptions host argv i token session cursor = some step ∧ i ≤ step.2.2 ∧
      Cli.shortOptions host.convert i token (argv.drop (i + 1)) (session.parser enabled) cursor =
        turnAt i enabled step := by
  induction cursor generalizing session with
  | nil => exact ⟨_, rfl, Nat.le_refl i, (turnAt_same i enabled _ session).symm⟩
  | cons name cursor ih =>
    unfold shortOptions Cli.shortOptions
    by_cases hhelp : name = 104
    · rw [if_pos hhelp, if_pos hhelp]
      exact ⟨_, rfl, Nat.le_refl i, (turnAt_same i enabled _ session).symm⟩
    rw [if_neg hhelp, if_neg hhelp, parser_cli]
    cases session.cli.findShort name with
    | none => exact ⟨_, rfl, Nat.le_refl i, (turnAt_same i enabled _ session).symm⟩
    | some found =>
      dsimp only
      by_cases hbare : found.2.kind.bare = false
      · rw [if_pos hbare, if_pos hbare]
        by_cases hcursor : (if cursor.head? = some 61 then cursor.tail else cursor) ≠ []
        · rw [if_pos hcursor, if_pos hcursor]
          obtain ⟨result, session', happly, happly'⟩ :=
            applyOption_agrees hpush session enabled found _ i token
          rw [happly, happly']
          exact ⟨_, rfl, Nat.le_refl i, (turnAt_same i enabled _ session').symm⟩
        · rw [if_neg hcursor, if_neg hcursor]
          obtain ⟨step, hstep, hle, hend | ⟨value, rest, hvalue, hturn⟩⟩ :=
            withNext_agrees hpush session enabled found token
          · exact ⟨step, hstep, hle, by rw [hend.1, hend.2]⟩
          · exact ⟨step, hstep, hle, by rw [hvalue, hturn]⟩
      · rw [if_neg hbare, if_neg hbare]
        obtain ⟨result, session', happly, happly'⟩ :=
          applyOption_agrees hpush session enabled found none i token
        rw [happly, happly']
        dsimp only
        by_cases hcode : result.code ≠ .ok
        · rw [if_pos hcode, if_pos hcode]
          exact ⟨_, rfl, Nat.le_refl i, (turnAt_same i enabled _ session').symm⟩
        · rw [if_neg hcode, if_neg hcode]
          exact ih session'

include hpush in
theorem turn_agrees (hi : i < argv.length) :
    ∃ step enabled', turn host argv session enabled i = some (step, enabled') ∧ i ≤ step.2.2 ∧
      Cli.turn host.convert (session.parser enabled) i argv[i] (argv.drop (i + 1)) =
        turnAt i enabled' step := by
  unfold turn Cli.turn
  rw [List.getElem?_eq_getElem hi]
  simp only [Option.bind_eq_bind, Option.bind_some]
  cases argv[i] with
  | none => exact ⟨_, _, rfl, Nat.le_refl i, (turnAt_same i enabled _ session).symm⟩
  | some token =>
    obtain ⟨result, session', hconsume, hconsume'⟩ :=
      consumePositional_agrees hpush session enabled token i
    have hnumeric : Cli.positionalNumeric host.convert (session.parser enabled) token =
        positionalNumeric host.convert session.cli session.positionalIndex token := rfl
    have henabled : (session.parser enabled).optionsEnabled = enabled := rfl
    simp only [hconsume, hconsume', hnumeric, henabled]
    split_ifs
    · exact ⟨_, _, rfl, Nat.le_refl i, (turnAt_same i false _ session).symm⟩
    · exact ⟨_, _, rfl, Nat.le_refl i, (turnAt_same i enabled _ session).symm⟩
    · exact ⟨_, _, rfl, Nat.le_refl i, (turnAt_same i enabled _ session').symm⟩
    · obtain ⟨step, hstep, hle, hturn⟩ := longOption_agrees hpush session enabled token
      rw [hstep, hturn]
      exact ⟨_, _, rfl, hle, rfl⟩
    · obtain ⟨step, hstep, hle, hturn⟩ :=
        shortOptions_agrees hpush session enabled token token.tail
      rw [hstep, hturn]
      exact ⟨_, _, rfl, hle, rfl⟩
    · exact ⟨_, _, rfl, Nat.le_refl i, (turnAt_same i enabled _ session').symm⟩

end Agree

theorem parseLoop_agrees (hpush : ∀ n, host.push n = true) {fuel : ℕ} (session : Session D)
    (enabled : Bool) (hfuel : argv.length ≤ i + fuel) :
    ∃ result session' enabled' unread,
      parseLoop host argv (fuel + 1) session enabled i = some (result, session') ∧
      Cli.parseLoop host.convert fuel (session.parser enabled) i (argv.drop i) =
        ⟨result, session'.parser enabled', unread⟩ := by
  induction fuel generalizing session enabled i with
  | zero =>
    have hend : ¬i < argv.length := by omega
    rw [parseLoop, if_neg hend, List.drop_eq_nil_of_le (by omega)]
    exact ⟨_, _, _, _, rfl, rfl⟩
  | succ fuel ih =>
    rw [parseLoop]
    by_cases hend : i < argv.length
    · obtain ⟨⟨result, session₁, j⟩, enabled₁, hturn, hle, hturn'⟩ :=
        turn_agrees hpush session enabled hend
      unfold turnAt at hturn'
      dsimp only at hle hturn'
      rw [if_pos hend, hturn, List.drop_eq_getElem_cons hend, Cli.parseLoop, hturn']
      simp only [Option.bind_eq_bind, Option.bind_some]
      by_cases hcode : result.code ≠ .ok
      · rw [if_pos hcode, if_pos hcode]
        exact ⟨_, _, _, _, rfl, rfl⟩
      · rw [if_neg hcode, if_neg hcode]
        obtain ⟨result', session', enabled', unread, hrun, hrun'⟩ :=
          ih (i := j + 1) session₁ enabled₁ (by omega)
        have hindex : (i : ℤ) + 1 + ((j - i : ℕ) : ℤ) = ((j + 1 : ℕ) : ℤ) := by omega
        have hdrop : (argv.drop (i + 1)).drop (j - i) = argv.drop (j + 1) := by
          rw [List.drop_drop]
          congr 1
          omega
        rw [hindex, hdrop]
        exact ⟨result', session', enabled', unread, hrun, hrun'⟩
    · rw [if_neg hend, List.drop_eq_nil_of_le (by omega)]
      exact ⟨_, _, _, _, rfl, rfl⟩

/-- Where no list runs out of room the parser with an index returns what the other returns, and
leaves the same values and counts. -/
theorem parse_agrees (hpush : ∀ n, host.push n = true) (cli : LorCli) (memory : Memory D)
    (argv : List (Option Bytes)) :
    ∃ result session enabled unread, parse host cli memory argv = some (result, session) ∧
      Cli.parse host.convert cli memory argv = ⟨result, session.parser enabled, unread⟩ := by
  unfold parse Cli.parse
  by_cases hparsed : cli.parsed = true
  · rw [if_pos hparsed, if_pos hparsed]
    exact ⟨_, _, _, _, rfl, rfl⟩
  rw [if_neg hparsed, if_neg hparsed, programName_started]
  cases argv with
  | nil => exact ⟨_, _, _, _, rfl, rfl⟩
  | cons program args =>
    have hfuel : (program :: args).length ≤ 1 + (program :: args).length := by omega
    exact parseLoop_agrees hpush _ true hfuel

end Liblor.CliArgv
