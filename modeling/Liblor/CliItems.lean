import Liblor.CliSource

/-!
# The occurrences of a command line

`items` reads an argument vector as a list of occurrences of options and positionals, by the names
and kinds of a registry alone. The parser performs them from left to right up to the first that is
rejected. `effect` is what an accepted occurrence does.
-/

namespace Liblor.CliArgv

open Cli

variable {D : Type} {host : Host D} {session : Session D} {cli : LorCli}
    {argv : List (Option Bytes)}

/-- An occurrence with the index and text of its argument. What stands for no option is a `stop`. -/
inductive Item where
  | option (i : ℕ) (token : Bytes) (index : ℕ) (value : Option Bytes)
  | positional (i : ℕ) (token : Bytes) (index : ℕ)
  | stop (result : LorCliResult)
  deriving DecidableEq, Repr

def nextItem (found : ℕ × LorCliOptionInternal) (i : ℕ) (token : Bytes)
    (next : List (Option Bytes)) : List Item × ℕ :=
  match next with
  | [] => ([.stop (optionResult .missingValue i token found.2)], 0)
  | value :: _ => ([.option i token found.1 value], 1)

def longItems (cli : LorCli) (i : ℕ) (token : Bytes) (next : List (Option Bytes)) : List Item × ℕ :=
  let name := token.drop 2
  let equals := name.idxOf? 61
  match cli.findLong (name.take (equals.getD name.length)) with
  | none => ([.stop (result .unknownOption i token none)], 0)
  | some found =>
    let value := equals.map fun equals => name.drop (equals + 1)
    if value = none ∧ found.2.kind.bare = false then nextItem found i token next
    else ([.option i token found.1 value], 0)

def clusterItems (cli : LorCli) (i : ℕ) (token : Bytes) (next : List (Option Bytes)) :
    Bytes → List Item × ℕ
  | [] => ([], 0)
  | name :: cursor =>
    if name = 104 then ([.stop (result .helpRequested i token (some helpName))], 0)
    else
      match cli.findShort name with
      | none => ([.stop (result .unknownOption i token none)], 0)
      | some found =>
        if found.2.kind.bare = false then
          let cursor := if cursor.head? = some 61 then cursor.tail else cursor
          if cursor ≠ [] then ([.option i token found.1 (some cursor)], 0)
          else nextItem found i token next
        else
          let (items, taken) := clusterItems cli i token next cursor
          (.option i token found.1 none :: items, taken)

/-- The positional that follows after one was consumed. -/
def advance (cli : LorCli) (positionalIndex : ℕ) : ℕ :=
  match cli.positionals[positionalIndex]? with
  | none => positionalIndex
  | some item => if item.kind ≠ .positionals then positionalIndex + 1 else positionalIndex

/-- What an argument stands for: its occurrences, how many of the following arguments it takes, the
positional that is next, and whether options stay enabled. -/
structure Reading where
  items : List Item
  taken : ℕ
  positionalIndex : ℕ
  enabled : Bool

def readArgument (convert : Converters D) (cli : LorCli) (positionalIndex : ℕ) (enabled : Bool)
    (i : ℕ) (token : Option Bytes) (next : List (Option Bytes)) : Reading :=
  match token with
  | none => ⟨[.stop (result .invalidState i [] none)], 0, positionalIndex, enabled⟩
  | some token =>
    let positional : Reading :=
      ⟨[.positional i token positionalIndex], 0, advance cli positionalIndex, enabled⟩
    if enabled ∧ token = [45, 45] then ⟨[], 0, positionalIndex, false⟩
    else if enabled ∧ (token = [45, 104] ∨ token = 45 :: 45 :: helpName) then
      ⟨[.stop (result .helpRequested i token (some helpName))], 0, positionalIndex, enabled⟩
    else if enabled ∧ token.head? = some 45 ∧ token.tail ≠ [] ∧
        positionalNumeric convert cli positionalIndex token then positional
    else if enabled ∧ token.head? = some 45 ∧ token.tail.head? = some 45 then
      let (items, taken) := longItems cli i token next
      ⟨items, taken, positionalIndex, enabled⟩
    else if enabled ∧ token.head? = some 45 ∧ token.tail ≠ [] then
      let (items, taken) := clusterItems cli i token next token.tail
      ⟨items, taken, positionalIndex, enabled⟩
    else positional

/-- The occurrences in the arguments from index `i` on, of which the first `skip` were values. -/
def items (convert : Converters D) (cli : LorCli) :
    ℕ → Bool → ℕ → ℕ → List (Option Bytes) → List Item
  | _, _, _, _, [] => []
  | positionalIndex, enabled, i, skip + 1, _ :: next =>
    items convert cli positionalIndex enabled (i + 1) skip next
  | positionalIndex, enabled, i, 0, token :: next =>
    let reading := readArgument convert cli positionalIndex enabled i token next
    reading.items ++ items convert cli reading.positionalIndex reading.enabled (i + 1)
      reading.taken next

/-- The registry once the parse has begun. -/
def started (cli : LorCli) (argv : List (Option Bytes)) : LorCli :=
  { cli with
    parsed := true
    programName := if cli.programName = none then argv.head?.join else cli.programName }

theorem programName_started (cli : LorCli) (argv : List (Option Bytes)) :
    programName cli argv = some (started cli argv).programName := by
  unfold programName started
  cases argv with
  | nil =>
    rw [if_neg fun h => absurd h.2 (Nat.lt_irrefl 0)]
    cases cli.programName with
    | none => rfl
    | some name => rfl
  | cons program args =>
    cases cli.programName with
    | none => simp
    | some name => simp

def commandLine (convert : Converters D) (cli : LorCli) (argv : List (Option Bytes)) : List Item :=
  items convert (started cli argv).clear 0 true 1 0 argv.tail

/-! ## Performing occurrences -/

def perform (host : Host D) (session : Session D) : Item → LorCliResult × Session D
  | .option i token index value =>
    match session.cli.options[index]? with
    | none => (result .unknownOption i token none, session)
    | some option => applyOption host session (index, option) value i token
  | .positional i token _ => consumePositional host session token i
  | .stop result => (result, session)

/-- What became of a list of occurrences: the result of the first that was rejected. -/
def performAll (host : Host D) : Session D → List Item → Option LorCliResult × Session D
  | session, [] => (none, session)
  | session, item :: rest =>
    let (result, session) := perform host session item
    if result.code ≠ .ok then (some result, session) else performAll host session rest

def deposited (convert : Converters D) (memory : Memory D) (kind : LorCliValueKind)
    (destination : ℕ) (text : Bytes) : Memory D :=
  match deposit convert kind (memory kind.storage destination) text with
  | some value => memory.write kind.storage destination value
  | none => memory

/-- An accepted occurrence is counted and its text is deposited. -/
def Item.effect (convert : Converters D) (state : LorCli × Memory D) : Item → LorCli × Memory D
  | option _ _ index value =>
    match state.1.options[index]? with
    | none => state
    | some found => (occurred state.1 index,
        deposited convert state.2 found.kind found.destination (value.getD []))
  | positional _ token index =>
    match state.1.positionals[index]? with
    | none => state
    | some item => (consumed state.1 index,
        deposited convert state.2 item.kind item.destination token)
  | stop _ => state

/-! ## What performing keeps -/

section Perform

variable (session) in
theorem push_cases (host : Host D) (storage : Storage) (destination : ℕ)
    (values : storage.Data D) :
    ∃ code session', session.push host storage destination values = (code, session') ∧
      session'.cli = session.cli ∧ session'.positionalIndex = session.positionalIndex ∧
      (code = .ok ∧ session'.memory = session.memory.write storage destination values ∨
        code = .outOfMemory ∧ host.push session.pushes = false ∧
          session'.memory = session.memory) := by
  unfold Session.push
  dsimp only
  cases hroom : host.push session.pushes with
  | true => exact ⟨_, _, rfl, rfl, rfl, Or.inl ⟨rfl, rfl⟩⟩
  | false => exact ⟨_, _, rfl, rfl, rfl, Or.inr ⟨rfl, rfl, rfl⟩⟩

variable (host session) in
theorem assignValue_bare {kind : LorCliValueKind} (hkind : kind.bare = true) (destination : ℕ)
    (text : Bytes) :
    assignValue host session kind destination text = (.invalidState, session) := by
  cases kind with
  | flag => rfl
  | count => rfl
  | _ => cases hkind

variable (host session) in
/-- A text is no value of its kind, or it is deposited, or the list of its values does not grow. -/
theorem assignValue_cases {kind : LorCliValueKind} (hkind : kind.bare = false) (destination : ℕ)
    (text : Bytes) :
    ∃ code session', assignValue host session kind destination text = (code, session') ∧
      session'.cli = session.cli ∧ session'.positionalIndex = session.positionalIndex ∧
      (code = .invalidValue ∧ session'.memory = session.memory ∧
          deposit host.convert kind (session.memory kind.storage destination) text = none ∨
        ∃ value, deposit host.convert kind (session.memory kind.storage destination) text =
            some value ∧
          (code = .ok ∧ session'.memory = session.memory.write kind.storage destination value ∨
            code = .outOfMemory ∧ host.push session.pushes = false ∧
              session'.memory = session.memory)) := by
  cases kind with
  | flag => cases hkind
  | count => cases hkind
  | string => exact ⟨_, _, rfl, rfl, rfl, Or.inr ⟨_, rfl, Or.inl ⟨rfl, rfl⟩⟩⟩
  | strings =>
    obtain ⟨code, session', hpush, hcli, hindex, hcases⟩ := push_cases session host .views _ _
    exact ⟨code, session', hpush, hcli, hindex, Or.inr ⟨_, rfl, hcases⟩⟩
  | positionals =>
    obtain ⟨code, session', hpush, hcli, hindex, hcases⟩ := push_cases session host .views _ _
    exact ⟨code, session', hpush, hcli, hindex, Or.inr ⟨_, rfl, hcases⟩⟩
  | int =>
    simp only [assignValue, deposit]
    cases parseInt host.convert text with
    | none => exact ⟨_, _, rfl, rfl, rfl, Or.inl ⟨rfl, rfl, rfl⟩⟩
    | some value => exact ⟨_, _, rfl, rfl, rfl, Or.inr ⟨_, rfl, Or.inl ⟨rfl, rfl⟩⟩⟩
  | double =>
    simp only [assignValue, deposit]
    cases parseDouble host.convert text with
    | none => exact ⟨_, _, rfl, rfl, rfl, Or.inl ⟨rfl, rfl, rfl⟩⟩
    | some value => exact ⟨_, _, rfl, rfl, rfl, Or.inr ⟨_, rfl, Or.inl ⟨rfl, rfl⟩⟩⟩
  | ints =>
    simp only [assignValue, deposit]
    cases parseInt host.convert text with
    | none => exact ⟨_, _, rfl, rfl, rfl, Or.inl ⟨rfl, rfl, rfl⟩⟩
    | some value =>
      obtain ⟨code, session', hpush, hcli, hindex, hcases⟩ := push_cases session host .int64s _ _
      exact ⟨code, session', hpush, hcli, hindex, Or.inr ⟨_, rfl, hcases⟩⟩
  | doubles =>
    simp only [assignValue, deposit]
    cases parseDouble host.convert text with
    | none => exact ⟨_, _, rfl, rfl, rfl, Or.inl ⟨rfl, rfl, rfl⟩⟩
    | some value =>
      obtain ⟨code, session', hpush, hcli, hindex, hcases⟩ := push_cases session host .doubles _ _
      exact ⟨code, session', hpush, hcli, hindex, Or.inr ⟨_, rfl, hcases⟩⟩

variable (host session) in
theorem assignValue_eq {kind : LorCliValueKind} (hkind : kind.bare = false) (destination : ℕ)
    (text : Bytes) :
    ∃ code session', assignValue host session kind destination text = (code, session') ∧
      session'.cli = session.cli ∧ session'.positionalIndex = session.positionalIndex ∧
      (code ≠ .ok → session'.memory = session.memory) ∧
      (code = .ok → session'.memory =
        deposited host.convert session.memory kind destination text) := by
  obtain ⟨code, session', hassign, hcli, hindex, hcases⟩ :=
    assignValue_cases host session hkind destination text
  refine ⟨code, session', hassign, hcli, hindex, ?_⟩
  unfold deposited
  rcases hcases with ⟨rfl, hmemory, -⟩ | ⟨value, hvalue, ⟨rfl, hmemory⟩ | ⟨rfl, -, hmemory⟩⟩
  · exact ⟨fun _ => hmemory, fun h => by cases h⟩
  · rw [hvalue]
    exact ⟨fun h => absurd rfl h, fun _ => hmemory⟩
  · exact ⟨fun _ => hmemory, fun h => by cases h⟩

theorem bare_eq_false {kind : LorCliValueKind} (hflag : kind ≠ .flag) (hcount : kind ≠ .count) :
    kind.bare = false := by
  cases kind with
  | flag => exact absurd rfl hflag
  | count => exact absurd rfl hcount
  | _ => rfl

variable (host session) in
/-- An option is counted and its text deposited, or nothing happens but an attempt to push. -/
theorem applyOption_cases (index : ℕ) (option : LorCliOptionInternal) (value : Option Bytes)
    (i : ℤ) (token : Bytes) :
    ∃ result session', applyOption host session (index, option) value i token = (result, session') ∧
      session'.positionalIndex = session.positionalIndex ∧
      (result.code ≠ .ok → session'.cli = session.cli ∧ session'.memory = session.memory) ∧
      (result.code = .ok → session'.cli = occurred session.cli index ∧
        session'.memory = deposited host.convert session.memory option.kind option.destination
          (value.getD [])) := by
  obtain ⟨spec, kind, destination, occurrences⟩ := option
  have hrejected : ∀ code : LorCliCode, code ≠ .ok → ∀ text : Bytes,
      ∃ result session',
        (optionResult code i text ⟨spec, kind, destination, occurrences⟩, session) =
        (result, session') ∧ session'.positionalIndex = session.positionalIndex ∧
        (result.code ≠ .ok → session'.cli = session.cli ∧ session'.memory = session.memory) ∧
        (result.code = .ok → session'.cli = occurred session.cli index ∧
          session'.memory = deposited host.convert session.memory kind destination
            (value.getD [])) := by
    intro code hcode text
    exact ⟨_, _, rfl, rfl, fun _ => ⟨rfl, rfl⟩, fun h => absurd h hcode⟩
  unfold applyOption
  dsimp only
  by_cases hduplicate : occurrences ≠ 0 ∧ spec.repeatable = false
  · rw [if_pos hduplicate]
    exact hrejected _ (by decide) _
  rw [if_neg hduplicate]
  by_cases hflag : kind = .flag
  · subst hflag
    rw [if_pos rfl]
    by_cases hvalue : value ≠ none
    · rw [if_pos hvalue]
      exact hrejected _ (by decide) _
    · rw [if_neg hvalue]
      exact ⟨_, _, rfl, rfl, fun h => absurd rfl h, fun _ => ⟨rfl, rfl⟩⟩
  rw [if_neg hflag]
  by_cases hcount : kind = .count
  · subst hcount
    rw [if_pos rfl]
    by_cases hvalue : value ≠ none
    · rw [if_pos hvalue]
      exact hrejected _ (by decide) _
    rw [if_neg hvalue]
    by_cases hfull : (session.memory .size destination).toNat = sizeMax
    · rw [if_pos hfull]
      exact hrejected _ (by decide) _
    · rw [if_neg hfull]
      refine ⟨_, _, rfl, rfl, fun h => absurd rfl h, fun _ => ⟨rfl, ?_⟩⟩
      simp only [deposited, deposit, if_neg hfull]
      rfl
  rw [if_neg hcount]
  cases value with
  | none => exact hrejected _ (by decide) _
  | some text =>
    have hbare := bare_eq_false hflag hcount
    obtain ⟨code, session', hassign, hcli, hindex, hfailed, hdone⟩ :=
      assignValue_eq host session hbare destination text
    simp only [hassign]
    by_cases hcode : code = .ok
    · rw [if_neg (not_not.2 hcode)]
      exact ⟨_, _, rfl, hindex, fun h => absurd rfl h, fun _ => ⟨by rw [← hcli], hdone hcode⟩⟩
    · rw [if_pos hcode]
      exact ⟨_, _, rfl, hindex, fun _ => ⟨hcli, hfailed hcode⟩, fun h => absurd h hcode⟩

variable (host session) in
theorem consumePositional_cases (token : Bytes) (i : ℤ) :
    ∃ result session', consumePositional host session token i = (result, session') ∧
      (result.code ≠ .ok → session'.cli = session.cli ∧ session'.memory = session.memory) ∧
      (result.code = .ok → session'.positionalIndex = advance session.cli session.positionalIndex ∧
        ∃ item, session.cli.positionals[session.positionalIndex]? = some item ∧
          session'.cli = consumed session.cli session.positionalIndex ∧
          session'.memory =
            deposited host.convert session.memory item.kind item.destination token) := by
  unfold consumePositional
  cases hitem : session.cli.positionals[session.positionalIndex]? with
  | none => exact ⟨_, _, rfl, fun _ => ⟨rfl, rfl⟩, fun h => by cases h⟩
  | some item =>
    cases hbare : item.kind.bare with
    | true =>
      simp only [assignValue_bare host session hbare]
      exact ⟨_, _, rfl, fun _ => ⟨rfl, rfl⟩, fun h => by cases h⟩
    | false =>
      obtain ⟨code, session', hassign, hcli, hindex, hfailed, hdone⟩ :=
        assignValue_eq host session hbare item.destination token
      simp only [hassign]
      by_cases hcode : code = .ok
      · rw [if_neg (not_not.2 hcode)]
        refine ⟨_, _, rfl, fun h => absurd rfl h, fun _ => ⟨?_, item, rfl, ?_, ?_⟩⟩
        · simp only [advance, hitem]
          split_ifs <;> simp only [hindex]
        · split_ifs <;> simp only [hcli, hindex]
        · split_ifs <;> exact hdone hcode
      · rw [if_pos hcode]
        exact ⟨_, _, rfl, fun _ => ⟨hcli, hfailed hcode⟩, fun h => absurd h hcode⟩

end Perform

section Clear

theorem clear_occurred (cli : LorCli) (index : ℕ) : (occurred cli index).clear = cli.clear := by
  have hclear : ((⟨cli, zeroMemory, 0, true⟩ : Parser ℤ).occurred index).cli.clear = cli.clear :=
    occurred_clear
  exact hclear

theorem clear_consumed (cli : LorCli) (index : ℕ) : (consumed cli index).clear = cli.clear := by
  simp only [LorCli.clear, consumed]
  congr 1
  apply List.ext_getElem?
  intro j
  simp only [List.getElem?_map, List.getElem?_modify]
  cases cli.positionals[j]? with
  | none => rfl
  | some item =>
    by_cases hj : index = j
    · simp [hj, LorCliPositionalInternal.clear]
    · simp [hj]

theorem advance_clear (cli : LorCli) (positionalIndex : ℕ) :
    advance cli.clear positionalIndex = advance cli positionalIndex := by
  unfold advance
  simp only [LorCli.clear, List.getElem?_map]
  cases cli.positionals[positionalIndex]? with
  | none => rfl
  | some item => rfl

theorem positionalNumeric_clear (convert : Converters D) (cli : LorCli) (positionalIndex : ℕ)
    (token : Bytes) : positionalNumeric convert cli.clear positionalIndex token =
      positionalNumeric convert cli positionalIndex token := by
  unfold positionalNumeric
  simp only [LorCli.clear, List.getElem?_map]
  cases cli.positionals[positionalIndex]? with
  | none => rfl
  | some item => rfl

theorem findOption_clear {test : LorCliOptionInternal → Bool}
    (htest : ∀ option, test option.clear = test option) :
    cli.clear.findOption test = (cli.findOption test).map fun found =>
      (found.1, found.2.clear) := by
  have hindex : cli.clear.options.findIdx? test = cli.options.findIdx? test := by
    simp only [LorCli.clear, List.findIdx?_map]
    congr 1
    funext option
    exact htest option
  unfold LorCli.findOption
  rw [hindex]
  cases cli.options.findIdx? test with
  | none => rfl
  | some index =>
    simp only [LorCli.clear, List.getElem?_map, Option.bind_eq_bind, Option.bind_some]
    cases cli.options[index]? with
    | none => rfl
    | some option => rfl

theorem findLong_clear (name : Bytes) :
    cli.clear.findLong name = (cli.findLong name).map fun found => (found.1, found.2.clear) :=
  findOption_clear fun _ => rfl

theorem findShort_clear (name : UInt8) :
    cli.clear.findShort name = (cli.findShort name).map fun found => (found.1, found.2.clear) :=
  findOption_clear fun _ => rfl

theorem findOption_getElem? {test : LorCliOptionInternal → Bool} {index : ℕ}
    {option : LorCliOptionInternal} (h : cli.findOption test = some (index, option)) :
    cli.options[index]? = some option := by
  simp only [LorCli.findOption, Option.bind_eq_bind, Option.bind_eq_some_iff, Option.pure_def,
    Option.some.injEq, Prod.mk.injEq] at h
  obtain ⟨index', -, option', hoption, rfl, rfl⟩ := h
  exact hoption

end Clear

/-- The positional that is next after an accepted occurrence. -/
def Item.next (cli : LorCli) (positionalIndex : ℕ) : Item → ℕ
  | positional _ _ _ => advance cli positionalIndex
  | _ => positionalIndex

/-- An occurrence that names the positional which is next. -/
def Item.Fits (positionalIndex : ℕ) : Item → Prop
  | positional _ _ index => index = positionalIndex
  | _ => True

variable (host) in
/-- Accepted, an occurrence has its effect; rejected, it has none. -/
theorem perform_cases {item : Item} (hfits : item.Fits session.positionalIndex) :
    ∃ result session', perform host session item = (result, session') ∧
      session'.cli.clear = session.cli.clear ∧
      (result.code ≠ .ok → session'.cli = session.cli ∧ session'.memory = session.memory) ∧
      (result.code = .ok →
        session'.positionalIndex = item.next session.cli session.positionalIndex ∧
        (session'.cli, session'.memory) =
          item.effect host.convert (session.cli, session.memory)) := by
  cases item with
  | stop result => exact ⟨_, _, rfl, rfl, fun _ => ⟨rfl, rfl⟩, fun _ => ⟨rfl, rfl⟩⟩
  | option i token index value =>
    simp only [perform, Item.effect]
    cases session.cli.options[index]? with
    | none => exact ⟨_, _, rfl, rfl, fun _ => ⟨rfl, rfl⟩, fun h => by cases h⟩
    | some found =>
      obtain ⟨result, session', happly, hindex, hfailed, hdone⟩ :=
        applyOption_cases host session index found value i token
      refine ⟨result, session', happly, ?_, hfailed, fun h => ⟨hindex, ?_⟩⟩
      · by_cases hcode : result.code = .ok
        · rw [(hdone hcode).1, clear_occurred]
        · rw [(hfailed hcode).1]
      · exact Prod.ext (hdone h).1 (hdone h).2
  | positional i token index =>
    obtain rfl : index = session.positionalIndex := hfits
    obtain ⟨result, session', hconsume, hfailed, hdone⟩ :=
      consumePositional_cases host session token i
    refine ⟨result, session', hconsume, ?_, hfailed, fun h => ?_⟩
    · by_cases hcode : result.code = .ok
      · obtain ⟨-, _, -, hcli, -⟩ := hdone hcode
        rw [hcli, clear_consumed]
      · rw [(hfailed hcode).1]
    · obtain ⟨hnext, item, hitem, hcli, hmemory⟩ := hdone h
      refine ⟨hnext, ?_⟩
      simp only [Item.effect, hitem]
      exact Prod.ext hcli hmemory

end Liblor.CliArgv
