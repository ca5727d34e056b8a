import Liblor.Machine

/-!
# The command-line parser of `cli.c`

The registry of a parser, the memory of its destinations and the loop of `lor_cli_parse`. A C string
is the list of its bytes. The converters `strtoll` and `strtod` are parameters, the numbers of the
second any type `D`; allocations succeed. What only the help text uses is left out of the registry.
-/

namespace Liblor.Cli

inductive LorCliCode where
  | ok
  | helpRequested
  | invalidState
  | unknownOption
  | missingValue
  | unexpectedValue
  | invalidValue
  | duplicateOption
  | missingRequiredOption
  | missingPositional
  | unexpectedPositional
  | outOfMemory
  deriving DecidableEq, Repr

structure LorCliResult where
  code : LorCliCode
  argvIndex : ℤ
  token : Bytes
  name : Option Bytes
  shortName : UInt8
  deriving DecidableEq, Repr

inductive LorCliValueKind where
  | flag
  | count
  | string
  | int
  | double
  | strings
  | ints
  | doubles
  | positionals
  deriving DecidableEq, Repr

/-- The C types that destinations point to. -/
inductive Storage where
  | bool
  | size
  | view
  | int64
  | double
  | views
  | int64s
  | doubles
  deriving DecidableEq, Repr

/-- What a destination of a type holds: of a view its bytes, of an array its elements. -/
abbrev Storage.Data (D : Type) : Storage → Type
  | bool => Bool
  | size => UInt64
  | view => Bytes
  | int64 => ℤ
  | double => D
  | views => List Bytes
  | int64s => List ℤ
  | doubles => List D

abbrev LorCliValueKind.storage : LorCliValueKind → Storage
  | flag => .bool
  | count => .size
  | string => .view
  | int => .int64
  | double => .double
  | strings => .views
  | ints => .int64s
  | doubles => .doubles
  | positionals => .views

/-- The destinations by type and address. -/
def Memory (D : Type) : Type := (storage : Storage) → ℕ → storage.Data D

def Memory.write {D : Type} (memory : Memory D) (storage : Storage) (destination : ℕ)
    (value : storage.Data D) : Memory D :=
  Function.update memory storage (Function.update (memory storage) destination value)

structure LorCliOption where
  shortName : UInt8
  longName : Option Bytes
  required : Bool
  repeatable : Bool
  deriving DecidableEq, Repr

structure LorCliOptionInternal where
  spec : LorCliOption
  kind : LorCliValueKind
  destination : ℕ
  occurrences : ℕ
  deriving DecidableEq, Repr

structure LorCliPositional where
  name : Option Bytes
  required : Bool
  deriving DecidableEq, Repr

structure LorCliPositionalInternal where
  spec : LorCliPositional
  kind : LorCliValueKind
  destination : ℕ
  occurrences : ℕ
  deriving DecidableEq, Repr

structure LorCli where
  options : List LorCliOptionInternal
  positionals : List LorCliPositionalInternal
  programName : Option Bytes
  parsed : Bool
  deriving DecidableEq, Repr

def init (programName : Option Bytes) : LorCli := ⟨[], [], programName, false⟩

/-! ## Registration -/

/-- `isspace` in the C locale. -/
def isSpace (byte : UInt8) : Bool := byte == 32 || (9 ≤ byte && byte ≤ 13)

/-- The bytes of `help`. -/
def helpName : Bytes := [104, 101, 108, 112]

def longNameValid (name : Bytes) : Bool :=
  match name with
  | [] => false
  | first :: _ => first != 45 && name.all (fun byte => byte != 61 && !isSpace byte) &&
    name != helpName

def shortNameValid (name : UInt8) : Bool :=
  name == 0 || (name != 104 && name != 45 && name != 61 && !isSpace name)

/-- The first option that satisfies a test, with its index. -/
def LorCli.findOption (cli : LorCli) (test : LorCliOptionInternal → Bool) :
    Option (ℕ × LorCliOptionInternal) := do
  let index ← cli.options.findIdx? test
  let option ← cli.options[index]?
  return (index, option)

def LorCli.findShort (cli : LorCli) (name : UInt8) : Option (ℕ × LorCliOptionInternal) :=
  cli.findOption fun option => option.spec.shortName == name

def LorCli.findLong (cli : LorCli) (name : Bytes) : Option (ℕ × LorCliOptionInternal) :=
  cli.findOption fun option => option.spec.longName == some name

def optionConflicts (cli : LorCli) (option : LorCliOption) : Bool :=
  (option.shortName != 0 && (cli.findShort option.shortName).isSome) ||
    match option.longName with
    | none => false
    | some name => (cli.findLong name).isSome

/-- `lor_cli__add_option`; a destination zero is `NULL`. -/
def addOption (cli : LorCli) (option : LorCliOption) (kind : LorCliValueKind) (destination : ℕ) :
    Status × LorCli :=
  if destination = 0 ∨ cli.parsed ∨ (option.shortName = 0 ∧ option.longName = none) ∨
      shortNameValid option.shortName = false ∨ option.longName.any (!longNameValid ·) ∨
      optionConflicts cli option then
    (.invalidArgument, cli)
  else
    let option := if kind = .count then { option with repeatable := true } else option
    let option := if kind = .strings ∨ kind = .ints ∨ kind = .doubles then
      { option with repeatable := true } else option
    (.ok, { cli with options := cli.options ++ [⟨option, kind, destination, 0⟩] })

def hasRest (cli : LorCli) : Bool :=
  match cli.positionals.getLast? with
  | some last => last.kind == .positionals
  | none => false

def addPositional (cli : LorCli) (positional : LorCliPositional) (kind : LorCliValueKind)
    (destination : ℕ) : Status × LorCli :=
  if destination = 0 ∨ cli.parsed ∨ positional.name = none ∨ positional.name = some [] ∨
      hasRest cli then
    (.invalidArgument, cli)
  else if positional.required ∧ cli.positionals.getLast?.any (!·.spec.required) then
    (.invalidArgument, cli)
  else (.ok, { cli with positionals := cli.positionals ++ [⟨positional, kind, destination, 0⟩] })

/-- The kinds of the functions that register options. -/
def LorCliValueKind.isOption (kind : LorCliValueKind) : Bool := kind != .positionals

/-- The kinds of the functions that register single positionals. -/
def LorCliValueKind.isScalar (kind : LorCliValueKind) : Bool :=
  kind == .string || kind == .int || kind == .double

def addPositionals (cli : LorCli) (name : Option Bytes) (destination : ℕ) : Status × LorCli :=
  addPositional cli ⟨name, false⟩ .positionals destination

/-! ## Values -/

/-- What a converter leaves behind: the value, where it stopped, and whether it set `ERANGE`. -/
structure Conversion (α : Type) where
  value : α
  stop : ℕ
  range : Bool

structure Converters (D : Type) where
  strtoll : Bytes → Conversion ℤ
  strtod : Bytes → Conversion D

def int64Min : ℤ := -2 ^ 63

def int64Max : ℤ := 2 ^ 63 - 1

variable {D : Type}

def parseInt (convert : Converters D) (text : Bytes) : Option ℤ :=
  if text = [] then none
  else
    let conversion := convert.strtoll text
    if conversion.range ∨ conversion.stop = 0 ∨ conversion.stop ≠ text.length then none
    else if conversion.value < int64Min ∨ conversion.value > int64Max then none
    else some conversion.value

def parseDouble (convert : Converters D) (text : Bytes) : Option D :=
  if text = [] then none
  else
    let conversion := convert.strtod text
    if conversion.range ∨ conversion.stop = 0 ∨ conversion.stop ≠ text.length then none
    else some conversion.value

def assignValue (convert : Converters D) (memory : Memory D) (kind : LorCliValueKind)
    (destination : ℕ) (text : Bytes) : LorCliCode × Memory D :=
  match kind with
  | .string => (.ok, memory.write .view destination text)
  | .int =>
    match parseInt convert text with
    | some value => (.ok, memory.write .int64 destination value)
    | none => (.invalidValue, memory)
  | .double =>
    match parseDouble convert text with
    | some value => (.ok, memory.write .double destination value)
    | none => (.invalidValue, memory)
  | .strings => (.ok, memory.write .views destination (memory .views destination ++ [text]))
  | .ints =>
    match parseInt convert text with
    | some value => (.ok, memory.write .int64s destination (memory .int64s destination ++ [value]))
    | none => (.invalidValue, memory)
  | .doubles =>
    match parseDouble convert text with
    | some value =>
      (.ok, memory.write .doubles destination (memory .doubles destination ++ [value]))
    | none => (.invalidValue, memory)
  | .positionals => (.ok, memory.write .views destination (memory .views destination ++ [text]))
  | .flag => (.invalidState, memory)
  | .count => (.invalidState, memory)

/-! ## Parsing -/

def result (code : LorCliCode) (argvIndex : ℤ) (token : Bytes) (name : Option Bytes) :
    LorCliResult := ⟨code, argvIndex, token, name, 0⟩

def optionResult (code : LorCliCode) (argvIndex : ℤ) (token : Bytes)
    (option : LorCliOptionInternal) : LorCliResult :=
  { result code argvIndex token option.spec.longName with shortName := option.spec.shortName }

/-- The state of `lor_cli_parse` between two arguments. -/
structure Parser (D : Type) where
  cli : LorCli
  memory : Memory D
  positionalIndex : ℕ
  optionsEnabled : Bool

/-- Count an occurrence of the option at this index. -/
def Parser.occurred (parser : Parser D) (index : ℕ) : Parser D :=
  { parser with cli := { parser.cli with
      options := parser.cli.options.modify index fun option =>
        { option with occurrences := option.occurrences + 1 } } }

def applyOption (convert : Converters D) (parser : Parser D)
    (found : ℕ × LorCliOptionInternal) (value : Option Bytes) (argvIndex : ℤ) (token : Bytes) :
    LorCliResult × Parser D :=
  let (index, option) := found
  if option.occurrences ≠ 0 ∧ option.spec.repeatable = false then
    (optionResult .duplicateOption argvIndex token option, parser)
  else if option.kind = .flag then
    if value ≠ none then (optionResult .unexpectedValue argvIndex token option, parser)
    else
      let parser := { parser with memory := parser.memory.write .bool option.destination true }
      (optionResult .ok argvIndex token option, parser.occurred index)
  else if option.kind = .count then
    if value ≠ none then (optionResult .unexpectedValue argvIndex token option, parser)
    else
      let count := parser.memory .size option.destination
      if count.toNat = sizeMax then (optionResult .invalidValue argvIndex token option, parser)
      else
        let parser := { parser with
          memory := parser.memory.write .size option.destination (count + 1) }
        (optionResult .ok argvIndex token option, parser.occurred index)
  else
    match value with
    | none => (optionResult .missingValue argvIndex token option, parser)
    | some value =>
      let (code, memory) :=
        assignValue convert parser.memory option.kind option.destination value
      if code ≠ .ok then
        (optionResult code argvIndex value option, { parser with memory := memory })
      else (optionResult .ok argvIndex token option,
        { parser with memory := memory }.occurred index)

def positionalNumeric (convert : Converters D) (parser : Parser D) (token : Bytes) : Bool :=
  match parser.cli.positionals[parser.positionalIndex]? with
  | none => false
  | some item =>
    if item.kind = .int then (parseInt convert token).isSome
    else if item.kind = .double then (parseDouble convert token).isSome
    else false

def consumePositional (convert : Converters D) (parser : Parser D) (token : Bytes)
    (argvIndex : ℤ) : LorCliResult × Parser D :=
  match parser.cli.positionals[parser.positionalIndex]? with
  | none => (result .unexpectedPositional argvIndex token none, parser)
  | some item =>
    let (code, memory) := assignValue convert parser.memory item.kind item.destination token
    let parser := { parser with memory := memory }
    if code ≠ .ok then (result code argvIndex token item.spec.name, parser)
    else
      let index := parser.positionalIndex
      let parser := { parser with cli := { parser.cli with
        positionals := parser.cli.positionals.modify index fun item =>
          { item with occurrences := item.occurrences + 1 } } }
      let parser := if item.kind ≠ .positionals then
        { parser with positionalIndex := index + 1 } else parser
      (result .ok argvIndex token item.spec.name, parser)

/-- What one round of the loop makes of an argument: a result, after which it returns unless that is
`ok`, the parser, and how many of the following arguments it has read. -/
structure Turn (D : Type) where
  result : LorCliResult
  parser : Parser D
  taken : ℕ

def LorCliValueKind.bare (kind : LorCliValueKind) : Bool := kind == .flag || kind == .count

/-- The branch of `--name`, `--name=value` and `--name value`. -/
def longOption (convert : Converters D) (parser : Parser D) (i : ℤ) (token : Bytes)
    (next : List (Option Bytes)) : Turn D :=
  let name := token.drop 2
  let equals := name.idxOf? 61
  let size := equals.getD name.length
  match parser.cli.findLong (name.take size) with
  | none => ⟨result .unknownOption i token none, parser, 0⟩
  | some found =>
    let value := equals.map fun equals => name.drop (equals + 1)
    if value = none ∧ found.2.kind.bare = false then
      match next with
      | [] => ⟨optionResult .missingValue i token found.2, parser, 0⟩
      | value :: _ =>
        let (result, parser) := applyOption convert parser found value i token
        ⟨result, parser, 1⟩
    else
      let (result, parser) := applyOption convert parser found value i token
      ⟨result, parser, 0⟩

/-- The loop over the bytes of `-abc`, `-o=value` and `-ovalue`. -/
def shortOptions (convert : Converters D) (i : ℤ) (token : Bytes) (next : List (Option Bytes)) :
    Parser D → Bytes → Turn D
  | parser, [] => ⟨result .ok i token none, parser, 0⟩
  | parser, name :: cursor =>
    if name = 104 then ⟨result .helpRequested i token (some helpName), parser, 0⟩
    else
      match parser.cli.findShort name with
      | none => ⟨result .unknownOption i token none, parser, 0⟩
      | some found =>
        if found.2.kind.bare = false then
          let cursor := if cursor.head? = some 61 then cursor.tail else cursor
          if cursor ≠ [] then
            let (result, parser) := applyOption convert parser found (some cursor) i token
            ⟨result, parser, 0⟩
          else
            match next with
            | [] => ⟨optionResult .missingValue i token found.2, parser, 0⟩
            | value :: _ =>
              let (result, parser) := applyOption convert parser found value i token
              ⟨result, parser, 1⟩
        else
          let (result, parser) := applyOption convert parser found none i token
          if result.code ≠ .ok then ⟨result, parser, 0⟩
          else shortOptions convert i token next parser cursor

def turn (convert : Converters D) (parser : Parser D) (i : ℤ) (token : Option Bytes)
    (next : List (Option Bytes)) : Turn D :=
  match token with
  | none => ⟨result .invalidState i [] none, parser, 0⟩
  | some token =>
    if parser.optionsEnabled ∧ token = [45, 45] then
      ⟨result .ok i token none, { parser with optionsEnabled := false }, 0⟩
    else if parser.optionsEnabled ∧ (token = [45, 104] ∨ token = 45 :: 45 :: helpName) then
      ⟨result .helpRequested i token (some helpName), parser, 0⟩
    else if parser.optionsEnabled ∧ token.head? = some 45 ∧ token.tail ≠ [] ∧
        positionalNumeric convert parser token then
      let (result, parser) := consumePositional convert parser token i
      ⟨result, parser, 0⟩
    else if parser.optionsEnabled ∧ token.head? = some 45 ∧ token.tail.head? = some 45 then
      longOption convert parser i token next
    else if parser.optionsEnabled ∧ token.head? = some 45 ∧ token.tail ≠ [] then
      shortOptions convert i token next parser token.tail
    else
      let (result, parser) := consumePositional convert parser token i
      ⟨result, parser, 0⟩

def finish (cli : LorCli) : LorCliResult :=
  match cli.options.find? fun option => option.spec.required && option.occurrences == 0 with
  | some option => optionResult .missingRequiredOption (-1) [] option
  | none =>
    match cli.positionals.find? fun item => item.spec.required && item.occurrences == 0 with
    | some item => result .missingPositional (-1) [] item.spec.name
    | none => result .ok (-1) [] none

/-- How a parse ends, and the arguments that it has not read. -/
structure Outcome (D : Type) where
  result : LorCliResult
  parser : Parser D
  unread : List (Option Bytes)

/-- The loop of `lor_cli_parse`; every round reads at least one argument. -/
def parseLoop (convert : Converters D) : ℕ → Parser D → ℤ → List (Option Bytes) → Outcome D
  | _, parser, _, [] => ⟨finish parser.cli, parser, []⟩
  | 0, parser, i, token :: next => ⟨result .invalidState i [] none, parser, token :: next⟩
  | fuel + 1, parser, i, token :: next =>
    let turn := turn convert parser i token next
    let rest := next.drop turn.taken
    if turn.result.code ≠ .ok then ⟨turn.result, turn.parser, rest⟩
    else parseLoop convert fuel turn.parser (i + 1 + turn.taken) rest

/-- `lor_cli_parse` of an argument vector. -/
def parse (convert : Converters D) (cli : LorCli) (memory : Memory D)
    (argv : List (Option Bytes)) : Outcome D :=
  if cli.parsed then ⟨result .invalidState (-1) [] none, ⟨cli, memory, 0, true⟩, argv⟩
  else
    let programName := if cli.programName = none then argv.head?.join else cli.programName
    let cli := { cli with parsed := true, programName := programName }
    parseLoop convert argv.length ⟨cli, memory, 0, true⟩ 1 argv.tail

/-! ## A machine to run command lines on -/

/-- What the converters of the C library make of decimal integers. -/
def decimal (text : Bytes) : Conversion ℤ :=
  let negative := text.head? == some 45
  let digits := (if negative then text.tail else text).takeWhile fun byte => 48 ≤ byte && byte ≤ 57
  let size := digits.foldl (fun size byte => 10 * size + (byte.toNat - 48 : ℤ)) 0
  { value := if negative then -size else size
    stop := if digits = [] then 0 else digits.length + negative.toNat
    range := false }

def zeroMemory : Memory ℤ
  | .bool, _ => false
  | .size, _ => 0
  | .view, _ => []
  | .int64, _ => 0
  | .double, _ => 0
  | .views, _ => []
  | .int64s, _ => []
  | .doubles, _ => []

end Liblor.Cli
