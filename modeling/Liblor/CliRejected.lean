import Liblor.CliItems

/-!
# A rejected command line

The parser performs the occurrences of the command line in order: what it leaves behind is the
effect of those before the rejected one, and it reads no argument beyond the last.
-/

namespace Liblor.CliArgv

open Cli

variable {D : Type} {host : Host D} {session : Session D} {cli : LorCli}
    {argv : List (Option Bytes)}
  {i taken : ℕ} {token : Bytes}

/-- A branch of the loop does what performing the occurrences does. -/
structure Follows (step : Step D) (i : ℕ) (performed : Option LorCliResult × Session D)
    (taken : ℕ) : Prop where
  session : step.2.1 = performed.2
  accepted : performed.1 = none → step.1.code = .ok ∧ step.2.2 = i + taken
  rejected : ∀ result, performed.1 = some result → step.1 = result ∧ result.code ≠ .ok

theorem performAll_cons (item : Item) (rest : List Item) :
    performAll host session (item :: rest) =
      if (perform host session item).1.code ≠ .ok then
        (some (perform host session item).1, (perform host session item).2)
      else performAll host (perform host session item).2 rest := rfl

theorem follows_single {item : Item} {result : LorCliResult} {session' : Session D} {j : ℕ}
    (h : perform host session item = (result, session')) (hj : result.code = .ok → j = i + taken) :
    Follows (result, session', j) i (performAll host session [item]) taken := by
  rw [performAll_cons, h]
  by_cases hcode : result.code = .ok
  · rw [if_neg (not_not.2 hcode)]
    exact ⟨rfl, fun _ => ⟨hcode, hj hcode⟩, fun _ hsome => by cases hsome⟩
  · rw [if_pos hcode]
    refine ⟨rfl, fun hnone => (by cases hnone), ?_⟩
    rintro _ ⟨⟩
    exact ⟨rfl, hcode⟩

theorem follows_stop {result : LorCliResult} (hcode : result.code ≠ .ok) :
    Follows (result, session, i) i (performAll host session [.stop result]) taken :=
  follows_single rfl fun hok => absurd hok hcode

theorem drop_eq_nil {next : List (Option Bytes)} (hnext : argv.drop (i + 1) = next) :
    next = [] ↔ i + 1 ≥ argv.length := by
  rw [← hnext, List.drop_eq_nil_iff]

theorem perform_option {index : ℕ} {option : LorCliOptionInternal} {value : Option Bytes}
    (hoption : session.cli.options[index]? = some option) :
    perform host session (.option i token index value) =
      applyOption host session (index, option) value i token := by
  simp only [perform, hoption]

theorem withNext_follows {index : ℕ} {option : LorCliOptionInternal}
    (hoption : session.cli.options[index]? = some option) :
    ∃ step, withNext host argv session (index, option) i token = some step ∧
      Follows step i
        (performAll host session
          (nextItem (index, option.clear) i token (argv.drop (i + 1))).1)
        (nextItem (index, option.clear) i token (argv.drop (i + 1))).2 := by
  unfold withNext
  by_cases hend : i + 1 ≥ argv.length
  · rw [if_pos hend, (drop_eq_nil rfl).2 hend]
    exact ⟨_, rfl, follows_stop fun h => by cases h⟩
  · have hlt : i + 1 < argv.length := by omega
    rw [if_neg hend, List.getElem?_eq_getElem hlt, List.drop_eq_getElem_cons hlt]
    exact ⟨_, rfl, follows_single (perform_option hoption) fun _ => rfl⟩

variable (host session argv i token) in
theorem longOption_follows :
    ∃ step, longOption host argv session i token = some step ∧
      Follows step i
        (performAll host session (longItems session.cli.clear i token (argv.drop (i + 1))).1)
        (longItems session.cli.clear i token (argv.drop (i + 1))).2 := by
  unfold longOption longItems
  dsimp only
  rw [findLong_clear]
  cases hfound : session.cli.findLong _ with
  | none => exact ⟨_, rfl, follows_stop fun h => by cases h⟩
  | some found =>
    obtain ⟨index, option⟩ := found
    have hoption := findOption_getElem? hfound
    have hkind : option.clear.kind = option.kind := rfl
    simp only [Option.map_some, hkind]
    by_cases hnext : Option.map (fun equals => List.drop (equals + 1) (List.drop 2 token))
        (List.idxOf? 61 (List.drop 2 token)) = none ∧ option.kind.bare = false
    · rw [if_pos hnext, if_pos hnext]
      exact withNext_follows hoption
    · rw [if_neg hnext, if_neg hnext]
      exact ⟨_, rfl, follows_single (perform_option hoption) fun _ => rfl⟩

variable (host session argv i token) in
/-- Over a cluster the letters are performed one by one. -/
theorem shortOptions_follows (cursor : Bytes) {registry : LorCli}
    (hclear : session.cli.clear = registry) :
    ∃ step, shortOptions host argv i token session cursor = some step ∧
      Follows step i
        (performAll host session (clusterItems registry i token (argv.drop (i + 1)) cursor).1)
        (clusterItems registry i token (argv.drop (i + 1)) cursor).2 := by
  induction cursor generalizing session with
  | nil =>
    exact ⟨_, rfl, rfl, fun _ => ⟨rfl, rfl⟩, fun _ hsome => by cases hsome⟩
  | cons name cursor ih =>
    unfold shortOptions clusterItems
    by_cases hhelp : name = 104
    · rw [if_pos hhelp, if_pos hhelp]
      exact ⟨_, rfl, follows_stop fun h => by cases h⟩
    have hshort : registry.findShort name =
        (session.cli.findShort name).map fun found => (found.1, found.2.clear) := by
      rw [← hclear, findShort_clear]
    rw [if_neg hhelp, if_neg hhelp, hshort]
    cases hfound : session.cli.findShort name with
    | none => exact ⟨_, rfl, follows_stop fun h => by cases h⟩
    | some found =>
      obtain ⟨index, option⟩ := found
      have hoption := findOption_getElem? hfound
      have hkind : option.clear.kind = option.kind := rfl
      simp only [Option.map_some, hkind]
      cases hbare : option.kind.bare with
      | false =>
        rw [if_pos rfl, if_pos rfl]
        by_cases hcursor : (if cursor.head? = some 61 then cursor.tail else cursor) ≠ []
        · rw [if_pos hcursor, if_pos hcursor]
          exact ⟨_, rfl, follows_single (perform_option hoption) fun _ => rfl⟩
        · rw [if_neg hcursor, if_neg hcursor]
          exact withNext_follows hoption
      | true =>
        have hne : ¬true = false := by decide
        rw [if_neg hne, if_neg hne]
        dsimp only
        rw [performAll_cons, perform_option hoption]
        obtain ⟨result, session', happly, -, hfailed, hdone⟩ :=
          applyOption_cases host session index option none i token
        rw [happly]
        by_cases hcode : result.code = .ok
        · rw [if_neg (not_not.2 hcode), if_neg (not_not.2 hcode)]
          refine ih session' ?_
          rw [(hdone hcode).1, clear_occurred, hclear]
        · rw [if_pos hcode, if_pos hcode]
          refine ⟨_, rfl, rfl, fun hnone => (by cases hnone), ?_⟩
          rintro _ ⟨⟩
          exact ⟨rfl, hcode⟩

variable (host session) in
/-- A round of the loop does what performing the occurrences of its argument does. -/
theorem turn_follows {token : Option Bytes} (enabled : Bool) (htoken : argv[i]? = some token) :
    ∃ step enabled', turn host argv session enabled i = some (step, enabled') ∧
      let reading := readArgument host.convert session.cli.clear session.positionalIndex enabled i
        token (argv.drop (i + 1))
      Follows step i (performAll host session reading.items) reading.taken ∧
        (step.1.code = .ok → enabled' = reading.enabled) := by
  unfold turn readArgument
  simp only [htoken, Option.bind_eq_bind, Option.bind_some, positionalNumeric_clear]
  cases token with
  | none => exact ⟨_, _, rfl, follows_stop fun h => (by cases h), fun h => by cases h⟩
  | some token =>
    have hconsume : Follows ((consumePositional host session token i).1,
        (consumePositional host session token i).2, i) i
        (performAll host session [.positional i token session.positionalIndex]) 0 :=
      follows_single rfl fun _ => rfl
    simp only
    split_ifs with hseparator hhelp hnumeric hlong hshort
    · exact ⟨_, _, rfl, ⟨rfl, fun _ => ⟨rfl, rfl⟩, fun _ h => by cases h⟩, fun _ => rfl⟩
    · exact ⟨_, _, rfl, follows_stop fun h => (by cases h), fun h => by cases h⟩
    · exact ⟨_, _, rfl, hconsume, fun _ => rfl⟩
    · obtain ⟨step, hstep, hfollows⟩ := longOption_follows host session argv i token
      rw [hstep]
      exact ⟨_, _, rfl, hfollows, fun _ => rfl⟩
    · obtain ⟨step, hstep, hfollows⟩ :=
        shortOptions_follows host session argv i token token.tail rfl
      rw [hstep]
      exact ⟨_, _, rfl, hfollows, fun _ => rfl⟩
    · exact ⟨_, _, rfl, hconsume, fun _ => rfl⟩

/-! ## Runs -/

section Run

theorem performAll_append {done later : List Item} {session' : Session D}
    (h : performAll host session done = (none, session')) :
    performAll host session (done ++ later) = performAll host session' later := by
  induction done generalizing session with
  | nil =>
    cases h
    rfl
  | cons item done ih =>
    rw [List.cons_append, performAll_cons]
    rw [performAll_cons] at h
    split_ifs at h ⊢ with hcode
    · cases h
    · exact ih h

theorem performAll_append_rejected {done later : List Item} {session' : Session D}
    {result : LorCliResult} (h : performAll host session done = (some result, session')) :
    performAll host session (done ++ later) = (some result, session') := by
  induction done generalizing session with
  | nil => cases h
  | cons item done ih =>
    rw [List.cons_append, performAll_cons]
    rw [performAll_cons] at h
    split_ifs at h ⊢ with hcode
    · exact h
    · exact ih h

/-- Every positional among the occurrences is the one that is next; `final` is next after them. -/
def FitsAll (cli : LorCli) (final : ℕ) : ℕ → List Item → Prop
  | positionalIndex, [] => positionalIndex = final
  | positionalIndex, item :: rest =>
    item.Fits positionalIndex ∧ FitsAll cli final (item.next cli positionalIndex) rest

theorem FitsAll.append {final middle : ℕ} {items later : List Item} {positionalIndex : ℕ}
    (h : FitsAll cli middle positionalIndex items) (hlater : FitsAll cli final middle later) :
    FitsAll cli final positionalIndex (items ++ later) := by
  induction items generalizing positionalIndex with
  | nil =>
    obtain rfl : positionalIndex = middle := h
    exact hlater
  | cons item rest ih => exact ⟨h.1, ih h.2⟩

theorem FitsAll.of_append {final : ℕ} {items later : List Item} {positionalIndex : ℕ}
    (h : FitsAll cli final positionalIndex (items ++ later)) :
    ∃ middle, FitsAll cli middle positionalIndex items := by
  induction items generalizing positionalIndex with
  | nil => exact ⟨positionalIndex, rfl⟩
  | cons item rest ih =>
    obtain ⟨middle, hmiddle⟩ := ih h.2
    exact ⟨middle, h.1, hmiddle⟩

theorem fitsAll_next (found : ℕ × LorCliOptionInternal) (next : List (Option Bytes))
    (positionalIndex : ℕ) : FitsAll cli positionalIndex positionalIndex
      (nextItem found i token next).1 := by
  cases next with
  | nil => exact ⟨trivial, rfl⟩
  | cons value next => exact ⟨trivial, rfl⟩

theorem fitsAll_long (next : List (Option Bytes)) (positionalIndex : ℕ) :
    FitsAll cli positionalIndex positionalIndex (longItems cli i token next).1 := by
  unfold longItems
  dsimp only
  split
  · exact ⟨trivial, rfl⟩
  · split_ifs
    · exact fitsAll_next _ _ _
    · exact ⟨trivial, rfl⟩

theorem fitsAll_cluster (next : List (Option Bytes)) (positionalIndex : ℕ) (cursor : Bytes) :
    FitsAll cli positionalIndex positionalIndex (clusterItems cli i token next cursor).1 := by
  induction cursor with
  | nil => exact rfl
  | cons name cursor ih =>
    unfold clusterItems
    by_cases hhelp : name = 104
    · rw [if_pos hhelp]
      exact ⟨trivial, rfl⟩
    · rw [if_neg hhelp]
      cases cli.findShort name with
      | none => exact ⟨trivial, rfl⟩
      | some found =>
        dsimp only
        by_cases hbare : found.2.kind.bare = false
        · rw [if_pos hbare]
          by_cases hcursor : (if cursor.head? = some 61 then cursor.tail else cursor) ≠ []
          · rw [if_pos hcursor]
            exact ⟨trivial, rfl⟩
          · rw [if_neg hcursor]
            exact fitsAll_next _ _ _
        · rw [if_neg hbare]
          exact ⟨trivial, ih⟩

variable (cli i) in
theorem fitsAll_readArgument (convert : Converters D) (positionalIndex : ℕ) (enabled : Bool)
    (token : Option Bytes) (next : List (Option Bytes)) :
    FitsAll cli (readArgument convert cli positionalIndex enabled i token next).positionalIndex
      positionalIndex (readArgument convert cli positionalIndex enabled i token next).items := by
  unfold readArgument
  cases token with
  | none => exact ⟨trivial, rfl⟩
  | some token =>
    dsimp only
    split_ifs
    · exact rfl
    · exact ⟨trivial, rfl⟩
    · exact ⟨rfl, rfl⟩
    · exact fitsAll_long _ _
    · exact fitsAll_cluster _ _ _
    · exact ⟨rfl, rfl⟩

theorem next_clear {registry : LorCli} (hclear : session.cli.clear = registry) (item : Item)
    (positionalIndex : ℕ) :
    item.next session.cli positionalIndex = item.next registry positionalIndex := by
  cases item with
  | positional _ _ _ =>
    rw [← hclear]
    exact (advance_clear _ _).symm
  | option _ _ _ _ => rfl
  | stop _ => rfl

theorem performAll_accepted {registry : LorCli} {final : ℕ} {done : List Item}
    {session' : Session D} (hclear : session.cli.clear = registry)
    (hfits : FitsAll registry final session.positionalIndex done)
    (h : performAll host session done = (none, session')) :
    session'.cli.clear = registry ∧ session'.positionalIndex = final ∧
      (session'.cli, session'.memory) =
        done.foldl (Item.effect host.convert) (session.cli, session.memory) := by
  induction done generalizing session with
  | nil =>
    cases h
    exact ⟨hclear, hfits, rfl⟩
  | cons item done ih =>
    obtain ⟨result, session₁, hperform, hclear₁, -, hdone⟩ :=
      perform_cases host hfits.1
    rw [performAll_cons, hperform] at h
    split_ifs at h with hcode
    · cases h
    · obtain ⟨hindex, heffect⟩ := hdone (not_not.1 hcode)
      rw [next_clear hclear] at hindex
      have hspec := ih (hclear₁.trans hclear) (by rw [hindex]; exact hfits.2) h
      rw [List.foldl_cons, ← heffect]
      exact hspec

/-- Occurrences are accepted up to the one that is rejected, which changes nothing. -/
theorem performAll_rejected {registry : LorCli} {final : ℕ} {line : List Item}
    {session' : Session D} {result : LorCliResult} (hclear : session.cli.clear = registry)
    (hfits : FitsAll registry final session.positionalIndex line)
    (h : performAll host session line = (some result, session')) :
    ∃ done item later before, line = done ++ item :: later ∧
      performAll host session done = (none, before) ∧
      perform host before item = (result, session') ∧ result.code ≠ .ok ∧
      session'.cli = before.cli ∧ session'.memory = before.memory := by
  induction line generalizing session with
  | nil => cases h
  | cons item line ih =>
    obtain ⟨result₁, session₁, hperform, hclear₁, hfailed, hdone⟩ :=
      perform_cases host hfits.1
    rw [performAll_cons, hperform] at h
    split_ifs at h with hcode
    · cases h
      exact ⟨[], item, line, session, rfl, rfl, hperform, hcode, hfailed hcode⟩
    · have hindex := (hdone (not_not.1 hcode)).1
      rw [next_clear hclear] at hindex
      obtain ⟨done, item', later, before, rfl, hrun, hrest⟩ :=
        ih (hclear₁.trans hclear) (by rw [hindex]; exact hfits.2) h
      refine ⟨item :: done, item', later, before, rfl, ?_, hrest⟩
      rw [performAll_cons, hperform, if_neg hcode]
      exact hrun

theorem items_skip (convert : Converters D) (positionalIndex : ℕ) (enabled : Bool) (skip : ℕ)
    (args : List (Option Bytes)) :
    items convert cli positionalIndex enabled i skip args =
      items convert cli positionalIndex enabled (i + skip) 0 (args.drop skip) := by
  induction skip generalizing i args with
  | zero => rfl
  | succ skip ih =>
    cases args with
    | nil => rfl
    | cons token next =>
      rw [items, ih, List.drop_succ_cons]
      congr 1
      omega

theorem fitsAll_items (convert : Converters D) (enabled : Bool) (skip : ℕ)
    (args : List (Option Bytes)) (positionalIndex : ℕ) :
    ∃ final, FitsAll cli final positionalIndex
      (items convert cli positionalIndex enabled i skip args) := by
  induction args generalizing positionalIndex enabled i skip with
  | nil => exact ⟨positionalIndex, rfl⟩
  | cons token next ih =>
    cases skip with
    | zero =>
      obtain ⟨final, hfinal⟩ := ih (i := i + 1)
        (readArgument convert cli positionalIndex enabled i token next).enabled
        (readArgument convert cli positionalIndex enabled i token next).taken
        (readArgument convert cli positionalIndex enabled i token next).positionalIndex
      exact ⟨final,
        (fitsAll_readArgument cli i convert positionalIndex enabled token next).append hfinal⟩
    | succ skip => exact ih enabled skip positionalIndex

theorem fitsAll_commandLine (convert : Converters D) (cli : LorCli) (argv : List (Option Bytes)) :
    ∃ final, FitsAll (started cli argv).clear final 0 (commandLine convert cli argv) :=
  fitsAll_items convert true 0 argv.tail 0

theorem parseLoop_spec {fuel : ℕ} {registry : LorCli} (enabled : Bool)
    (hclear : session.cli.clear = registry) (hfuel : argv.length ≤ i + fuel) :
    ∃ result session', parseLoop host argv (fuel + 1) session enabled i =
        some (result, session') ∧
      (performAll host session (items host.convert registry session.positionalIndex enabled i 0
          (argv.drop i)) = (none, session') ∧ result = finish session'.cli ∨
        performAll host session (items host.convert registry session.positionalIndex enabled i 0
          (argv.drop i)) = (some result, session')) := by
  induction fuel generalizing session enabled i with
  | zero =>
    have hend : ¬i < argv.length := by omega
    rw [parseLoop, if_neg hend, List.drop_eq_nil_of_le (by omega)]
    exact ⟨_, _, rfl, Or.inl ⟨rfl, rfl⟩⟩
  | succ fuel ih =>
    rw [parseLoop]
    by_cases hend : i < argv.length
    · obtain ⟨⟨result, session₁, j⟩, enabled', hturn, hfollows, henabled⟩ :=
        turn_follows host session enabled (List.getElem?_eq_getElem hend)
      rw [if_pos hend, hturn, List.drop_eq_getElem_cons hend, items]
      rw [hclear] at hfollows henabled
      simp only [Option.bind_eq_bind, Option.bind_some]
      generalize hreading : readArgument host.convert registry session.positionalIndex enabled i
        argv[i] (argv.drop (i + 1)) = reading at hfollows henabled ⊢
      have hfits := fitsAll_readArgument registry i host.convert
        session.positionalIndex enabled argv[i] (argv.drop (i + 1))
      rw [hreading] at hfits
      cases hperformed : performAll host session reading.items with
      | mk outcome session₂ =>
        rw [hperformed] at hfollows
        obtain ⟨hsession, haccepted, hrejected⟩ := hfollows
        obtain rfl : session₁ = session₂ := hsession
        cases outcome with
        | some rejected =>
          obtain ⟨rfl, hcode⟩ := hrejected rejected rfl
          rw [if_pos hcode, performAll_append_rejected hperformed]
          exact ⟨_, _, rfl, Or.inr rfl⟩
        | none =>
          obtain ⟨hcode, hj⟩ := haccepted rfl
          obtain rfl := henabled hcode
          obtain rfl : j = i + reading.taken := hj
          obtain ⟨hclear₁, hindex, -⟩ := performAll_accepted hclear hfits hperformed
          have hrun := ih (i := i + reading.taken + 1) reading.enabled hclear₁ (by omega)
          rw [if_neg (not_not.2 hcode), performAll_append hperformed, items_skip, List.drop_drop,
            ← hindex]
          rw [show i + 1 + reading.taken = i + reading.taken + 1 by omega]
          exact hrun
    · rw [if_neg hend, List.drop_eq_nil_of_le (by omega)]
      exact ⟨_, _, rfl, Or.inl ⟨rfl, rfl⟩⟩

variable (host argv) in
/-- A parse performs the occurrences of its command line. -/
theorem parse_spec (hparsed : cli.parsed = false) (memory : Memory D) :
    ∃ result session', parse host cli memory argv = some (result, session') ∧
      (performAll host ⟨started cli argv, memory, 0, 0⟩ (commandLine host.convert cli argv) =
          (none, session') ∧ result = finish session'.cli ∨
        performAll host ⟨started cli argv, memory, 0, 0⟩ (commandLine host.convert cli argv) =
          (some result, session')) := by
  have hfalse : ¬cli.parsed = true := by
    rw [hparsed]
    decide
  unfold parse commandLine
  rw [if_neg hfalse, programName_started]
  cases argv with
  | nil => exact ⟨_, _, rfl, Or.inl ⟨rfl, rfl⟩⟩
  | cons program args =>
    have hfuel : (program :: args).length ≤ 1 + (program :: args).length := by omega
    exact parseLoop_spec true rfl hfuel

end Run

/-- Wherever a parse stops, it has read no argument beyond the last, its destinations and its counts
are the effect of the occurrences accepted so far, from left to right, and the one that it rejects
changes neither. -/
theorem rejection_keeps_accepted_effects (host : Host D) (hparsed : cli.parsed = false)
    (memory : Memory D) (argv : List (Option Bytes)) :
    ∃ result session accepted later before,
      parse host cli memory argv = some (result, session) ∧
      commandLine host.convert cli argv = accepted ++ later ∧
      performAll host ⟨started cli argv, memory, 0, 0⟩ accepted = (none, before) ∧
      (before.cli, before.memory) =
        accepted.foldl (Item.effect host.convert) (started cli argv, memory) ∧
      session.cli = before.cli ∧ session.memory = before.memory ∧
      (later = [] ∧ result = finish session.cli ∨
        ∃ rejected rest, later = rejected :: rest ∧
          perform host before rejected = (result, session) ∧ result.code ≠ .ok) := by
  obtain ⟨final, hfits⟩ := fitsAll_commandLine host.convert cli argv
  obtain ⟨result, session, hparse, ⟨hline, hresult⟩ | hline⟩ :=
    parse_spec host argv hparsed memory
  · have heffect := (performAll_accepted rfl hfits hline).2.2
    exact ⟨result, session, _, [], session, hparse, (List.append_nil _).symm, hline, heffect, rfl,
      rfl, Or.inl ⟨rfl, hresult⟩⟩
  · obtain ⟨accepted, item, rest, before, happend, hrun, hperform, hcode, hcli, hmemory⟩ :=
      performAll_rejected rfl hfits hline
    rw [happend] at hfits
    obtain ⟨middle, hfits⟩ := hfits.of_append
    have heffect := (performAll_accepted rfl hfits hrun).2.2
    exact ⟨result, session, accepted, item :: rest, before, hparse, happend, hrun, heffect, hcli,
      hmemory, Or.inr ⟨item, rest, rfl, hperform, hcode⟩⟩

/-- A flag `-v` and a list of numbers `-n`, which finds room once. -/
def tallyCli : LorCli :=
  ⟨[⟨⟨118, none, false, false⟩, .flag, 1, 0⟩, ⟨⟨110, none, false, true⟩, .ints, 2, 0⟩], [], none,
    false⟩

def scarceHost : Host ℤ := ⟨⟨decimal, decimal⟩, fun pushes => pushes == 0⟩

/-- `-vn1 -vn2`: the second `-v` is rejected. -/
def tallyArgv : List (Option Bytes) := [none, some [45, 118, 110, 49], some [45, 118, 110, 50]]

theorem rejection_keeps_accepted_effects_tally : ∃ result session accepted later,
    parse scarceHost tallyCli zeroMemory tallyArgv = some (result, session) ∧
      result.code = .duplicateOption ∧
      commandLine scarceHost.convert tallyCli tallyArgv = accepted ++ later ∧
      (session.cli, session.memory) =
        accepted.foldl (Item.effect scarceHost.convert)
          (started tallyCli tallyArgv, zeroMemory) := by
  have hparsed : tallyCli.parsed = false := rfl
  obtain ⟨result, session, accepted, later, before, hparse, hline, -, heffect, hcli, hmemory, -⟩ :=
    rejection_keeps_accepted_effects scarceHost hparsed zeroMemory tallyArgv
  have hcode : (parse scarceHost tallyCli zeroMemory tallyArgv).map (fun answer => answer.1.code) =
      some .duplicateOption := by decide
  rw [hparse] at hcode
  rw [← hcli, ← hmemory] at heffect
  exact ⟨result, session, accepted, later, hparse, Option.some.inj hcode, hline, heffect⟩

end Liblor.CliArgv
