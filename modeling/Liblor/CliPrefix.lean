import Liblor.CliRejected

/-!
# A prefix of a command line

What a round does to the session depends on the arguments from its own on and not on their index,
and where it is accepted not on the arguments behind those it reads. So a prefix that ends between
two arguments can be read on its own, whatever room the lists have found.
-/

namespace Liblor.CliArgv

open Cli

variable {D : Type} {host : Host D} {session session' : Session D} {enabled enabled' : Bool}
  {argv argv' : List (Option Bytes)} {i i' : ℕ} {token : Bytes} {found : ℕ × LorCliOptionInternal}

section Index

/-- The same step but for where its result says it was. -/
structure SameStep (i i' : ℕ) (step step' : Step D) : Prop where
  code : step.1.code = step'.1.code
  session : step.2.1 = step'.2.1
  taken : ∃ n, step.2.2 = i + n ∧ step'.2.2 = i' + n

theorem applyOption_same (host : Host D) (session : Session D) (found : ℕ × LorCliOptionInternal)
    (value : Option Bytes) (i i' : ℤ) (token token' : Bytes) :
    (applyOption host session found value i token).1.code =
        (applyOption host session found value i' token').1.code ∧
      (applyOption host session found value i token).2 =
        (applyOption host session found value i' token').2 := by
  unfold applyOption
  dsimp only
  split_ifs
  · exact ⟨rfl, rfl⟩
  · exact ⟨rfl, rfl⟩
  · exact ⟨rfl, rfl⟩
  · exact ⟨rfl, rfl⟩
  · exact ⟨rfl, rfl⟩
  · exact ⟨rfl, rfl⟩
  · cases value with
    | none => exact ⟨rfl, rfl⟩
    | some value =>
      dsimp only
      split_ifs
      · exact ⟨rfl, rfl⟩
      · exact ⟨rfl, rfl⟩

theorem consumePositional_same (host : Host D) (session : Session D) (token : Bytes) (i i' : ℤ) :
    (consumePositional host session token i).1.code =
        (consumePositional host session token i').1.code ∧
      (consumePositional host session token i).2 = (consumePositional host session token i').2 := by
  unfold consumePositional
  cases session.cli.positionals[session.positionalIndex]? with
  | none => exact ⟨rfl, rfl⟩
  | some item =>
    dsimp only
    split_ifs <;> exact ⟨rfl, rfl⟩

theorem applied_same (host : Host D) (session : Session D) (found : ℕ × LorCliOptionInternal)
    (value : Option Bytes) (token : Bytes) (n : ℕ) :
    SameStep i i'
      ((applyOption host session found value i token).1,
        (applyOption host session found value i token).2, i + n)
      ((applyOption host session found value i' token).1,
        (applyOption host session found value i' token).2, i' + n) := by
  obtain ⟨hcode, hsession⟩ := applyOption_same host session found value i i' token token
  exact ⟨hcode, hsession, n, rfl, rfl⟩

theorem rejected_same {result result' : LorCliResult} (hcode : result.code = result'.code) :
    SameStep i i' (result, session, i) (result', session, i') := ⟨hcode, rfl, 0, rfl, rfl⟩

theorem drop_succ_same (h : argv.drop i = argv'.drop i') :
    argv.drop (i + 1) = argv'.drop (i' + 1) := by
  rw [← List.drop_drop, h, List.drop_drop]

theorem withNext_same (h : argv.drop i = argv'.drop i') (found : ℕ × LorCliOptionInternal)
    (token : Bytes) :
    ∃ step step', withNext host argv session found i token = some step ∧
      withNext host argv' session found i' token = some step' ∧ SameStep i i' step step' := by
  have hnext := drop_succ_same h
  unfold withNext
  by_cases hend : i + 1 ≥ argv.length
  · have hend' : i' + 1 ≥ argv'.length := (drop_eq_nil rfl).1 (hnext ▸ (drop_eq_nil rfl).2 hend)
    rw [if_pos hend, if_pos hend']
    exact ⟨_, _, rfl, rfl, rejected_same rfl⟩
  · have hend' : ¬i' + 1 ≥ argv'.length := fun hge =>
      hend ((drop_eq_nil rfl).1 (hnext ▸ (drop_eq_nil rfl).2 hge))
    have hget : argv[i + 1]? = argv'[i' + 1]? := by
      rw [← List.head?_drop, hnext, List.head?_drop]
    rw [if_neg hend, if_neg hend', ← hget, List.getElem?_eq_getElem (by omega)]
    exact ⟨_, _, rfl, rfl, applied_same host session found _ token 1⟩

variable (host session) in
theorem longOption_same (h : argv.drop i = argv'.drop i') (token : Bytes) :
    ∃ step step', longOption host argv session i token = some step ∧
      longOption host argv' session i' token = some step' ∧ SameStep i i' step step' := by
  unfold longOption
  dsimp only
  cases session.cli.findLong _ with
  | none => exact ⟨_, _, rfl, rfl, rejected_same rfl⟩
  | some found =>
    dsimp only
    split_ifs
    · exact withNext_same h found token
    · exact ⟨_, _, rfl, rfl, applied_same host session found _ token 0⟩

variable (host session) in
theorem shortOptions_same (h : argv.drop i = argv'.drop i') (token cursor : Bytes) :
    ∃ step step', shortOptions host argv i token session cursor = some step ∧
      shortOptions host argv' i' token session cursor = some step' ∧ SameStep i i' step step' := by
  induction cursor generalizing session with
  | nil => exact ⟨_, _, rfl, rfl, rejected_same rfl⟩
  | cons name cursor ih =>
    unfold shortOptions
    by_cases hhelp : name = 104
    · rw [if_pos hhelp, if_pos hhelp]
      exact ⟨_, _, rfl, rfl, rejected_same rfl⟩
    rw [if_neg hhelp, if_neg hhelp]
    cases session.cli.findShort name with
    | none => exact ⟨_, _, rfl, rfl, rejected_same rfl⟩
    | some found =>
      dsimp only
      by_cases hbare : found.2.kind.bare = false
      · rw [if_pos hbare, if_pos hbare]
        by_cases hcursor : (if cursor.head? = some 61 then cursor.tail else cursor) ≠ []
        · rw [if_pos hcursor, if_pos hcursor]
          exact ⟨_, _, rfl, rfl, applied_same host session found _ token 0⟩
        · rw [if_neg hcursor, if_neg hcursor]
          exact withNext_same h found token
      · rw [if_neg hbare, if_neg hbare]
        obtain ⟨hcode, hsession⟩ := applyOption_same host session found none i i' token token
        rw [hcode, hsession]
        split_ifs
        · exact ⟨_, _, rfl, rfl, hcode, rfl, 0, rfl, rfl⟩
        · exact ih _

variable (host session enabled) in
/-- From the same arguments on a round does the same. -/
theorem turn_same (h : argv.drop i = argv'.drop i') (hi : i < argv.length) :
    ∃ step step' enabled', turn host argv session enabled i = some (step, enabled') ∧
      turn host argv' session enabled i' = some (step', enabled') ∧ SameStep i i' step step' := by
  have hget : argv[i]? = argv'[i']? := by
    rw [← List.head?_drop, h, List.head?_drop]
  unfold turn
  rw [← hget, List.getElem?_eq_getElem hi]
  simp only [Option.bind_eq_bind, Option.bind_some]
  cases argv[i] with
  | none => exact ⟨_, _, _, rfl, rfl, rejected_same rfl⟩
  | some token =>
    obtain ⟨hcode, hsession⟩ := consumePositional_same host session token i i'
    dsimp only
    split_ifs
    · exact ⟨_, _, _, rfl, rfl, rejected_same rfl⟩
    · exact ⟨_, _, _, rfl, rfl, rejected_same rfl⟩
    · exact ⟨_, _, _, rfl, rfl, hcode, hsession, 0, rfl, rfl⟩
    · obtain ⟨step, step', hstep, hstep', hsame⟩ := longOption_same host session h token
      rw [hstep, hstep']
      exact ⟨_, _, _, rfl, rfl, hsame⟩
    · obtain ⟨step, step', hstep, hstep', hsame⟩ :=
        shortOptions_same host session h token token.tail
      rw [hstep, hstep']
      exact ⟨_, _, _, rfl, rfl, hsame⟩
    · exact ⟨_, _, _, rfl, rfl, hcode, hsession, 0, rfl, rfl⟩

end Index

/-- What each round leaves unread, from the one at an index on. -/
def unread (host : Host D) (argv : List (Option Bytes)) :
    ℕ → Session D → Bool → ℕ → List (List (Option Bytes))
  | 0, _, _, _ => []
  | fuel + 1, session, enabled, i =>
    match turn host argv session enabled i with
    | none => []
    | some ((result, session, i), enabled) =>
      argv.drop (i + 1) ::
        if result.code ≠ .ok then [] else unread host argv fuel session enabled (i + 1)

theorem lt_length_iff (h : argv.drop i = argv'.drop i') : i < argv.length ↔ i' < argv'.length := by
  have hlength := congrArg List.length h
  rw [List.length_drop, List.length_drop] at hlength
  omega

theorem turn_end (hend : argv.length ≤ i) : turn host argv session enabled i = none := by
  unfold turn
  rw [List.getElem?_eq_none hend]
  rfl

theorem turn_lt {step : Step D} (h : turn host argv session enabled i = some (step, enabled')) :
    i < argv.length := by
  by_contra hend
  rw [turn_end (Nat.le_of_not_lt hend)] at h
  cases h

theorem le_index {step : Step D} (h : turn host argv session enabled i = some (step, enabled')) :
    i ≤ step.2.2 := by
  obtain ⟨step', -, enabled₁, hturn, -, -, -, n, hindex, -⟩ :=
    turn_same host session enabled (rfl : argv.drop i = argv.drop i) (turn_lt h)
  rw [h] at hturn
  cases hturn
  omega

/-- From the same arguments on two loops come to the same and leave the same unread. -/
theorem parseLoop_same (fuel fuel' : ℕ) (session : Session D) (enabled : Bool)
    (h : argv.drop i = argv'.drop i') (hfuel : argv.length ≤ i + fuel)
    (hfuel' : argv'.length ≤ i' + fuel') :
    ∃ result result' session', parseLoop host argv (fuel + 1) session enabled i =
        some (result, session') ∧
      parseLoop host argv' (fuel' + 1) session enabled i' = some (result', session') ∧
      result.code = result'.code ∧
      unread host argv (fuel + 1) session enabled i =
        unread host argv' (fuel' + 1) session enabled i' := by
  induction fuel generalizing fuel' session enabled i i' with
  | zero =>
    have hend : ¬i < argv.length := by omega
    have hend' := mt (lt_length_iff h).2 hend
    rw [parseLoop, parseLoop, if_neg hend, if_neg hend', unread, unread, turn_end (by omega),
      turn_end (by omega)]
    exact ⟨_, _, _, rfl, rfl, rfl, rfl⟩
  | succ fuel ih =>
    by_cases hend : i < argv.length
    · obtain ⟨fuel', rfl⟩ : ∃ n, fuel' = n + 1 :=
        Nat.exists_eq_succ_of_ne_zero (by have := (lt_length_iff h).1 hend; omega)
      obtain ⟨⟨result, session₁, j⟩, ⟨result', session₁', j'⟩, enabled₁, hturn, hturn', hsame⟩ :=
        turn_same host session enabled h hend
      obtain ⟨hcode, hsession, n, hj, hj'⟩ := hsame
      dsimp only at hcode hsession hj hj'
      subst hsession hj hj'
      have hdrop : argv.drop (i + n + 1) = argv'.drop (i' + n + 1) := by
        rw [Nat.add_assoc, ← List.drop_drop, h, List.drop_drop, ← Nat.add_assoc]
      rw [parseLoop, parseLoop, if_pos hend, if_pos ((lt_length_iff h).1 hend), unread, unread,
        hturn, hturn']
      simp only [Option.bind_eq_bind, Option.bind_some, hdrop, hcode]
      split_ifs
      · exact ⟨_, _, _, rfl, rfl, hcode, rfl⟩
      · obtain ⟨last, last', session', hrun, hrun', hlast, hunread⟩ :=
          ih fuel' session₁ enabled₁ hdrop (by omega) (by omega)
        exact ⟨last, last', session', hrun, hrun', hlast, by rw [hunread]⟩
    · have hend' := mt (lt_length_iff h).2 hend
      rw [parseLoop, parseLoop, if_neg hend, if_neg hend', unread, unread, turn_end (by omega),
        turn_end (by omega)]
      exact ⟨_, _, _, rfl, rfl, rfl, rfl⟩

section Local

theorem withNext_append {step : Step D}
    (h : withNext host argv session found i token = some step) (hok : step.1.code = .ok)
    (rest : List (Option Bytes)) :
    withNext host (argv ++ rest) session found i token = some step ∧ step.2.2 < argv.length := by
  unfold withNext at h ⊢
  by_cases hend : i + 1 ≥ argv.length
  · rw [if_pos hend] at h
    cases h
    cases hok
  · have hlt : i + 1 < argv.length := Nat.lt_of_not_le hend
    have hlt' : ¬i + 1 ≥ (argv ++ rest).length := by
      rw [List.length_append]
      omega
    rw [if_neg hend] at h
    rw [if_neg hlt', List.getElem?_append_left hlt, h]
    rw [List.getElem?_eq_getElem hlt] at h
    cases h
    exact ⟨rfl, hlt⟩

theorem longOption_append {step : Step D} (hi : i < argv.length)
    (h : longOption host argv session i token = some step) (hok : step.1.code = .ok)
    (rest : List (Option Bytes)) :
    longOption host (argv ++ rest) session i token = some step ∧ step.2.2 < argv.length := by
  unfold longOption at h ⊢
  dsimp only at h ⊢
  cases hfound : session.cli.findLong _ with
  | none =>
    rw [hfound] at h
    cases h
    cases hok
  | some found =>
    rw [hfound] at h
    dsimp only at h ⊢
    split_ifs at h ⊢
    · exact withNext_append h hok rest
    · cases h
      exact ⟨rfl, hi⟩

theorem shortOptions_append {step : Step D} {cursor : Bytes} (hi : i < argv.length)
    (h : shortOptions host argv i token session cursor = some step) (hok : step.1.code = .ok)
    (rest : List (Option Bytes)) :
    shortOptions host (argv ++ rest) i token session cursor = some step ∧
      step.2.2 < argv.length := by
  induction cursor generalizing session with
  | nil =>
    cases h
    exact ⟨rfl, hi⟩
  | cons name cursor ih =>
    unfold shortOptions at h ⊢
    by_cases hhelp : name = 104
    · rw [if_pos hhelp] at h
      cases h
      cases hok
    rw [if_neg hhelp] at h ⊢
    cases hfound : session.cli.findShort name with
    | none =>
      rw [hfound] at h
      cases h
      cases hok
    | some found =>
      rw [hfound] at h
      dsimp only at h ⊢
      by_cases hbare : found.2.kind.bare = false
      · rw [if_pos hbare] at h ⊢
        by_cases hcursor : (if cursor.head? = some 61 then cursor.tail else cursor) ≠ []
        · rw [if_pos hcursor] at h ⊢
          cases h
          exact ⟨rfl, hi⟩
        · rw [if_neg hcursor] at h ⊢
          exact withNext_append h hok rest
      · rw [if_neg hbare] at h ⊢
        by_cases hcode : (applyOption host session found none i token).1.code ≠ .ok
        · rw [if_pos hcode] at h ⊢
          cases h
          exact absurd hok hcode
        · rw [if_neg hcode] at h ⊢
          exact ih h

/-- A round that is accepted has not looked behind the arguments that there are. -/
theorem turn_append {step : Step D} (h : turn host argv session enabled i = some (step, enabled'))
    (hok : step.1.code = .ok) (rest : List (Option Bytes)) :
    turn host (argv ++ rest) session enabled i = some (step, enabled') ∧
      step.2.2 < argv.length := by
  have hi := turn_lt h
  unfold turn at h ⊢
  rw [List.getElem?_append_left hi]
  rw [List.getElem?_eq_getElem hi] at h ⊢
  simp only [Option.bind_eq_bind, Option.bind_some] at h ⊢
  cases htoken : argv[i] with
  | none =>
    rw [htoken] at h
    cases h
    cases hok
  | some token =>
    rw [htoken] at h
    dsimp only at h ⊢
    split_ifs at h ⊢
    · cases h
      exact ⟨rfl, hi⟩
    · cases h
      cases hok
    · cases h
      exact ⟨rfl, hi⟩
    · obtain ⟨step', hstep, hsome⟩ := Option.bind_eq_some_iff.1 h
      cases hsome
      obtain ⟨hstep', hlt⟩ := longOption_append hi hstep hok rest
      rw [hstep']
      exact ⟨rfl, hlt⟩
    · obtain ⟨step', hstep, hsome⟩ := Option.bind_eq_some_iff.1 h
      cases hsome
      obtain ⟨hstep', hlt⟩ := shortOptions_append hi hstep hok rest
      rw [hstep']
      exact ⟨rfl, hlt⟩
    · cases h
      exact ⟨rfl, hi⟩

end Local

/-- From an index on the rounds read just the arguments that there are, and all are accepted. -/
inductive Reads (host : Host D) (argv : List (Option Bytes)) :
    Session D → Bool → ℕ → Session D → Bool → Prop where
  | done (session : Session D) (enabled : Bool) :
      Reads host argv session enabled argv.length session enabled
  | round {session session' : Session D} {enabled enabled₁ enabled' : Bool} {i : ℕ} {step : Step D}
      (hturn : turn host argv session enabled i = some (step, enabled₁))
      (hok : step.1.code = .ok)
      (h : Reads host argv step.2.1 enabled₁ (step.2.2 + 1) session' enabled') :
      Reads host argv session enabled i session' enabled'

theorem turn_clear {step : Step D} (h : turn host argv session enabled i = some (step, enabled'))
    (hok : step.1.code = .ok) : step.2.1.cli.clear = session.cli.clear := by
  have hi := turn_lt h
  obtain ⟨step', enabled₁, hturn, hfollows, -⟩ :=
    turn_follows host session enabled (List.getElem?_eq_getElem hi)
  obtain ⟨rfl, rfl⟩ : step = step' ∧ enabled' = enabled₁ := by
    rw [h] at hturn
    cases hturn
    exact ⟨rfl, rfl⟩
  have hfits := fitsAll_readArgument session.cli.clear i host.convert session.positionalIndex
    enabled argv[i] (argv.drop (i + 1))
  cases hperformed : performAll host session _ with
  | mk outcome session₁ =>
    rw [hperformed] at hfollows
    cases outcome with
    | some result =>
      obtain ⟨hresult, hcode⟩ := hfollows.rejected result rfl
      exact absurd (hresult ▸ hok) hcode
    | none =>
      rw [hfollows.session]
      exact (performAll_accepted rfl hfits hperformed).1

theorem Reads.clear (h : Reads host argv session enabled i session' enabled') :
    session'.cli.clear = session.cli.clear := by
  induction h with
  | done session enabled => rfl
  | round hturn hok h ih => exact ih.trans (turn_clear hturn hok)

/-- Before any arguments that follow a prefix the loop is where the prefix has left it. -/
theorem parseLoop_reads (h : Reads host argv session enabled i session' enabled')
    (rest : List (Option Bytes)) (fuel : ℕ) (hfuel : (argv ++ rest).length ≤ i + fuel) :
    ∃ fuel', (argv ++ rest).length ≤ argv.length + fuel' ∧
      parseLoop host (argv ++ rest) (fuel + 1) session enabled i =
        parseLoop host (argv ++ rest) (fuel' + 1) session' enabled' argv.length := by
  induction h generalizing fuel with
  | done session enabled => exact ⟨fuel, hfuel, rfl⟩
  | round hturn hok h ih =>
    rename_i session session' enabled enabled₁ enabled' i step
    obtain ⟨hturn', hlt⟩ := turn_append hturn hok rest
    have hi := turn_lt hturn
    have hle := le_index hturn
    rw [List.length_append] at hfuel
    obtain ⟨fuel, rfl⟩ : ∃ n, fuel = n + 1 := Nat.exists_eq_succ_of_ne_zero (by omega)
    obtain ⟨fuel', hfuel', hrun⟩ := ih fuel (by rw [List.length_append]; omega)
    refine ⟨fuel', hfuel', ?_⟩
    rw [parseLoop, if_pos (by rw [List.length_append]; omega), hturn']
    simp only [Option.bind_eq_bind, Option.bind_some, if_neg (not_not.2 hok)]
    exact hrun

end Liblor.CliArgv
