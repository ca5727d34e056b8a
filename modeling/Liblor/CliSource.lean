import Liblor.CliContents

/-!
# The command-line parser on an argument vector

`lor_cli_parse` with its index into `argv` and with lists that may fail to grow. A read of `argv`
beyond its end gives `none`, as does a loop that has not stopped, so a parse that answers stays
inside the vector and ends. Whether a list finds room is for each of its growths up to the machine.
-/

namespace Liblor.CliArgv

open Cli

variable {D : Type}

/-- The converters of the C library, and whether the so manieth value finds room in its list. -/
structure Host (D : Type) where
  convert : Converters D
  push : ℕ → Bool

/-- The state of `lor_cli_parse` besides its index and `options_enabled`. -/
structure Session (D : Type) where
  cli : LorCli
  memory : Memory D
  positionalIndex : ℕ
  pushes : ℕ

def Session.write (session : Session D) (storage : Storage) (destination : ℕ)
    (value : storage.Data D) : Session D :=
  { session with memory := session.memory.write storage destination value }

/-- `lor_array_push` on a list. -/
def Session.push (host : Host D) (session : Session D) (storage : Storage) (destination : ℕ)
    (values : storage.Data D) : LorCliCode × Session D :=
  let tried := { session with pushes := session.pushes + 1 }
  if host.push session.pushes then (.ok, tried.write storage destination values)
  else (.outOfMemory, tried)

def assignValue (host : Host D) (session : Session D) (kind : LorCliValueKind) (destination : ℕ)
    (text : Bytes) : LorCliCode × Session D :=
  match kind with
  | .string => (.ok, session.write .view destination text)
  | .int =>
    match parseInt host.convert text with
    | some value => (.ok, session.write .int64 destination value)
    | none => (.invalidValue, session)
  | .double =>
    match parseDouble host.convert text with
    | some value => (.ok, session.write .double destination value)
    | none => (.invalidValue, session)
  | .strings => session.push host .views destination (session.memory .views destination ++ [text])
  | .ints =>
    match parseInt host.convert text with
    | some value =>
      session.push host .int64s destination (session.memory .int64s destination ++ [value])
    | none => (.invalidValue, session)
  | .doubles =>
    match parseDouble host.convert text with
    | some value =>
      session.push host .doubles destination (session.memory .doubles destination ++ [value])
    | none => (.invalidValue, session)
  | .positionals =>
    session.push host .views destination (session.memory .views destination ++ [text])
  | .flag => (.invalidState, session)
  | .count => (.invalidState, session)

def occurred (cli : LorCli) (index : ℕ) : LorCli :=
  { cli with options := cli.options.modify index fun option =>
      { option with occurrences := option.occurrences + 1 } }

def consumed (cli : LorCli) (index : ℕ) : LorCli :=
  { cli with positionals := cli.positionals.modify index fun item =>
      { item with occurrences := item.occurrences + 1 } }

def applyOption (host : Host D) (session : Session D) (found : ℕ × LorCliOptionInternal)
    (value : Option Bytes) (argvIndex : ℤ) (token : Bytes) : LorCliResult × Session D :=
  let (index, option) := found
  if option.occurrences ≠ 0 ∧ option.spec.repeatable = false then
    (optionResult .duplicateOption argvIndex token option, session)
  else if option.kind = .flag then
    if value ≠ none then (optionResult .unexpectedValue argvIndex token option, session)
    else
      let session := session.write .bool option.destination true
      (optionResult .ok argvIndex token option,
        { session with cli := occurred session.cli index })
  else if option.kind = .count then
    if value ≠ none then (optionResult .unexpectedValue argvIndex token option, session)
    else
      let count := session.memory .size option.destination
      if count.toNat = sizeMax then (optionResult .invalidValue argvIndex token option, session)
      else
        let session := session.write .size option.destination (count + 1)
        (optionResult .ok argvIndex token option,
          { session with cli := occurred session.cli index })
  else
    match value with
    | none => (optionResult .missingValue argvIndex token option, session)
    | some value =>
      let (code, session) := assignValue host session option.kind option.destination value
      if code ≠ .ok then (optionResult code argvIndex value option, session)
      else (optionResult .ok argvIndex token option,
        { session with cli := occurred session.cli index })

def positionalNumeric (convert : Converters D) (cli : LorCli) (positionalIndex : ℕ)
    (token : Bytes) : Bool :=
  match cli.positionals[positionalIndex]? with
  | none => false
  | some item =>
    if item.kind = .int then (parseInt convert token).isSome
    else if item.kind = .double then (parseDouble convert token).isSome
    else false

def consumePositional (host : Host D) (session : Session D) (token : Bytes) (argvIndex : ℤ) :
    LorCliResult × Session D :=
  match session.cli.positionals[session.positionalIndex]? with
  | none => (result .unexpectedPositional argvIndex token none, session)
  | some item =>
    let (code, session) := assignValue host session item.kind item.destination token
    if code ≠ .ok then (result code argvIndex token item.spec.name, session)
    else
      let session := { session with cli := consumed session.cli session.positionalIndex }
      let session := if item.kind ≠ .positionals then
        { session with positionalIndex := session.positionalIndex + 1 } else session
      (result .ok argvIndex token item.spec.name, session)

/-! ## The loop -/

/-- What a branch of the loop makes of an argument: its result, the session, and the index of the
last argument it has read. -/
abbrev Step (D : Type) : Type := LorCliResult × Session D × ℕ

/-- `argv[++i]` behind its check against `argc`. -/
def withNext (host : Host D) (argv : List (Option Bytes)) (session : Session D)
    (found : ℕ × LorCliOptionInternal) (i : ℕ) (token : Bytes) : Option (Step D) :=
  if i + 1 ≥ argv.length then some (optionResult .missingValue i token found.2, session, i)
  else do
    let value ← argv[i + 1]?
    let (result, session) := applyOption host session found value i token
    return (result, session, i + 1)

def longOption (host : Host D) (argv : List (Option Bytes)) (session : Session D) (i : ℕ)
    (token : Bytes) : Option (Step D) :=
  let name := token.drop 2
  let equals := name.idxOf? 61
  let size := equals.getD name.length
  match session.cli.findLong (name.take size) with
  | none => some (result .unknownOption i token none, session, i)
  | some found =>
    let value := equals.map fun equals => name.drop (equals + 1)
    if value = none ∧ found.2.kind.bare = false then withNext host argv session found i token
    else
      let (result, session) := applyOption host session found value i token
      some (result, session, i)

/-- The loop over the letters of a cluster. -/
def shortOptions (host : Host D) (argv : List (Option Bytes)) (i : ℕ) (token : Bytes) :
    Session D → Bytes → Option (Step D)
  | session, [] => some (result .ok i token none, session, i)
  | session, name :: cursor =>
    if name = 104 then some (result .helpRequested i token (some helpName), session, i)
    else
      match session.cli.findShort name with
      | none => some (result .unknownOption i token none, session, i)
      | some found =>
        if found.2.kind.bare = false then
          let cursor := if cursor.head? = some 61 then cursor.tail else cursor
          if cursor ≠ [] then
            let (result, session) := applyOption host session found (some cursor) i token
            some (result, session, i)
          else withNext host argv session found i token
        else
          let (result, session) := applyOption host session found none i token
          if result.code ≠ .ok then some (result, session, i)
          else shortOptions host argv i token session cursor

/-- One round of the loop, and whether options are enabled after it. -/
def turn (host : Host D) (argv : List (Option Bytes)) (session : Session D) (enabled : Bool)
    (i : ℕ) : Option (Step D × Bool) := do
  let token ← argv[i]?
  match token with
  | none => return ((result .invalidState i [] none, session, i), enabled)
  | some token =>
    if enabled ∧ token = [45, 45] then return ((result .ok i token none, session, i), false)
    else if enabled ∧ (token = [45, 104] ∨ token = 45 :: 45 :: helpName) then
      return ((result .helpRequested i token (some helpName), session, i), enabled)
    else if enabled ∧ token.head? = some 45 ∧ token.tail ≠ [] ∧
        positionalNumeric host.convert session.cli session.positionalIndex token then
      let (result, session) := consumePositional host session token i
      return ((result, session, i), enabled)
    else if enabled ∧ token.head? = some 45 ∧ token.tail.head? = some 45 then
      let step ← longOption host argv session i token
      return (step, enabled)
    else if enabled ∧ token.head? = some 45 ∧ token.tail ≠ [] then
      let step ← shortOptions host argv i token session token.tail
      return (step, enabled)
    else
      let (result, session) := consumePositional host session token i
      return ((result, session, i), enabled)

def parseLoop (host : Host D) (argv : List (Option Bytes)) :
    ℕ → Session D → Bool → ℕ → Option (LorCliResult × Session D)
  | 0, _, _, _ => none
  | fuel + 1, session, enabled, i =>
    if i < argv.length then do
      let ((result, session, i), enabled) ← turn host argv session enabled i
      if result.code ≠ .ok then return (result, session)
      else parseLoop host argv fuel session enabled (i + 1)
    else some (finish session.cli, session)

/-- The program name of the parser or, if it has none, the first argument. -/
def programName (cli : LorCli) (argv : List (Option Bytes)) : Option (Option Bytes) :=
  if cli.programName = none ∧ argv.length > 0 then argv[0]? else some cli.programName

/-- `lor_cli_parse`; `argc` is the length of `argv`. -/
def parse (host : Host D) (cli : LorCli) (memory : Memory D) (argv : List (Option Bytes)) :
    Option (LorCliResult × Session D) :=
  if cli.parsed then some (result .invalidState (-1) [] none, ⟨cli, memory, 0, 0⟩)
  else do
    let name ← programName cli argv
    let cli := { cli with parsed := true, programName := name }
    parseLoop host argv (argv.length + 1) ⟨cli, memory, 0, 0⟩ true
      (if argv.length > 0 then 1 else 0)

end Liblor.CliArgv
