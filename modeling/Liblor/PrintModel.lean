import Liblor.StringModel
import Liblor.RandomModel

/-!
# Printing values of `print.c`

The validator and the writer of tagged values. A stream counts the calls that write to it, and a
device decides for each of them whether all of its bytes arrive. Memory is given as what an address
holds for each of the types it may be read with; a record of the library that a value carries lies
at the address of its member of the union.
-/

namespace Liblor.Print

open OwnedString

/-- The bytes of an ASCII text. -/
def ascii (text : String) : Bytes := text.toList.map fun c => UInt8.ofNat c.toNat

/-- `unknown` is a tag that the enumeration does not name. -/
inductive LorTypeKind where
  | other
  | bool
  | char
  | signedChar
  | unsignedChar
  | short
  | unsignedShort
  | int
  | unsignedInt
  | long
  | unsignedLong
  | longLong
  | unsignedLongLong
  | float
  | double
  | longDouble
  | cstring
  | pointer
  | stringView
  | arenaConfig
  | arena
  | arenaMark
  | scratch
  | mmap
  | leakStats
  | random
  | unknown (tag : ℕ)
  deriving DecidableEq, Repr

/-! ## Memory and the C library -/

/-- The enumeration `LorArenaBackend` has the tags zero and one. -/
structure LorArenaConfig where
  backend : ℕ
  blockSize : ℕ
  reserveSize : ℕ
  commitSize : ℕ

/-- The backend of an arena and what `lor_arena_used`, `lor_arena_capacity` and
`lor_arena_committed` answer for it. -/
structure LorArena where
  backend : ℕ
  used : ℕ
  capacity : ℕ
  committed : ℕ

structure LorArenaMark where
  block : ℕ
  used : ℕ

structure LorScratch where
  arena : ℕ
  mark : LorArenaMark

structure LorMmap where
  data : ℕ
  size : ℕ

structure LorLeakStats where
  heapCount : ℕ
  heapBytes : ℕ
  arenaCount : ℕ
  mmapCount : ℕ
  mmapBytes : ℕ

/-- What lies at an address, by the type that it is read with. An integer type is read as its value
and a floating type as the `double` it converts to. -/
structure Memory (D : Type) where
  byte : ℕ → UInt8
  strlen : ℕ → ℕ
  bool : ℕ → Bool
  integer : LorTypeKind → ℕ → ℤ
  floating : LorTypeKind → ℕ → D
  pointer : ℕ → ℕ
  view : ℕ → LorStringView
  arenaConfig : ℕ → LorArenaConfig
  arena : ℕ → LorArena
  arenaMark : ℕ → LorArenaMark
  scratch : ℕ → LorScratch
  mmap : ℕ → LorMmap
  leakStats : ℕ → LorLeakStats
  random : ℕ → LorRandom

/-- The sizes of the types, what the locale prints, and the conversions `%g` and `%p`. -/
structure Library (D : Type) where
  sizeof : LorTypeKind → ℕ
  isprint : UInt8 → Bool
  floating : D → Bytes
  pointer : ℕ → Bytes

def decimal (value : ℤ) : Bytes :=
  if value < 0 then 45 :: ascii (toString value.natAbs) else ascii (toString value.natAbs)

/-- A digit of `%x`. -/
def hexDigit (value : UInt8) : UInt8 := if value < 10 then 48 + value else 87 + value

def viewBytes {D : Type} (memory : Memory D) (view : LorStringView) : Bytes :=
  (List.range view.size).map fun i => memory.byte (view.data + i)

def svFromCstr {D : Type} (memory : Memory D) (text : ℕ) : LorStringView :=
  if text = 0 then ⟨0, 0⟩ else ⟨text, memory.strlen text⟩

/-! ## Streams -/

structure Stream where
  written : Bytes
  calls : ℕ
  deriving DecidableEq, Repr

/-- Whether a call is answered with success or, after so many of its bytes, with an error. -/
abbrev Device := ℕ → Option ℕ

/-- A device that accepts all writes. -/
def Device.Accepts (device : Device) : Prop := ∀ call, device call = none

abbrev Writer := Stream → Status × Stream

/-- `fputc`, `fputs`, `fwrite` and `fprintf`. -/
def put (device : Device) (text : Bytes) : Writer := fun out =>
  match device out.calls with
  | none => (.ok, ⟨out.written ++ text, out.calls + 1⟩)
  | some count => (.systemError, ⟨out.written ++ text.take count, out.calls + 1⟩)

def done : Writer := fun out => (.ok, out)

def refuse : Writer := fun out => (.invalidArgument, out)

/-- Go on unless there was an error. -/
def Writer.next (first second : Writer) : Writer := fun out =>
  let (status, out) := first out
  if status ≠ .ok then (status, out) else second out

variable {D : Type}

def writeView (memory : Memory D) (device : Device) (view : LorStringView) : Writer :=
  if !svIsValid view then refuse
  else if view.size = 0 then done
  else put device (viewBytes memory view)

def escaped (isprint : UInt8 → Bool) (byte : UInt8) : Bytes :=
  if byte = 92 then [92, 92]
  else if byte = 34 then [92, 34]
  else if byte = 10 then [92, 110]
  else if byte = 13 then [92, 114]
  else if byte = 9 then [92, 116]
  else if isprint byte then [byte]
  else [92, 120, hexDigit (byte / 16), hexDigit (byte % 16)]

def writeEscaped (isprint : UInt8 → Bool) (device : Device) : Bytes → Writer
  | [] => done
  | byte :: bytes => (put device (escaped isprint byte)).next (writeEscaped isprint device bytes)

def writeQuotedView (library : Library D) (memory : Memory D) (device : Device)
    (view : LorStringView) : Writer :=
  if !svIsValid view then refuse
  else (put device [34]).next <|
    (writeEscaped library.isprint device (viewBytes memory view)).next (put device [34])

def arenaBackendName (backend : ℕ) : Bytes :=
  if backend = 0 then ascii "heap" else if backend = 1 then ascii "virtual" else ascii "unknown"

/-! ## Values -/

/-- A callback is given the stream and the address of the value. -/
abbrev LorPrintCustomFn := ℕ → Writer

structure LorPrintCustom where
  value : ℕ
  function : Option LorPrintCustomFn

structure LorPrintSequence where
  data : ℕ
  count : ℕ
  elementSize : ℕ
  elementKind : LorTypeKind
  elementFunction : Option LorPrintCustomFn

structure LorPrintMap where
  data : ℕ
  count : ℕ
  entrySize : ℕ
  keyOffset : ℕ
  keySize : ℕ
  keyKind : LorTypeKind
  keyFunction : Option LorPrintCustomFn
  valueOffset : ℕ
  valueSize : ℕ
  valueKind : LorTypeKind
  valueFunction : Option LorPrintCustomFn

/-- A tag of `LorPrintKind` with the member of the union that it stands for. The records of the
library are given by the address of the member, and an address zero is `NULL`. -/
inductive LorPrintValue (D : Type) where
  | bool (boolean : ℤ)
  | char (character : UInt8)
  | signed (value : ℤ)
  | unsigned (value : ℕ)
  | floating (value : D)
  | cstring (text : ℕ)
  | stringView (view : LorStringView)
  | pointer (value : ℕ)
  | arenaConfig (place : ℕ)
  | arena (place : ℕ)
  | arenaMark (place : ℕ)
  | scratch (place : ℕ)
  | mmap (place : ℕ)
  | leakStats (place : ℕ)
  | random (place : ℕ)
  | array (sequence : LorPrintSequence)
  | set (sequence : LorPrintSequence)
  | map (map : LorPrintMap)
  | custom (custom : LorPrintCustom)
  | ending (view : LorStringView)
  | unknown (tag : ℕ)

structure LorPrintConfig where
  separator : LorStringView
  ending : LorStringView

/-! ## Validation -/

def typeSizeValid (library : Library D) (kind : LorTypeKind) (size : ℕ) : Bool :=
  match kind with
  | .other => false
  | .unknown _ => false
  | kind => size == library.sizeof kind

def typedValueValid (library : Library D) (memory : Memory D) (value size : ℕ) (kind : LorTypeKind)
    (function : Option LorPrintCustomFn) : Bool :=
  if value = 0 then false
  else if function.isSome then true
  else if !typeSizeValid library kind size then false
  else if kind = .stringView then svIsValid (memory.view value)
  else true

def sequenceValid (library : Library D) (memory : Memory D) (sequence : LorPrintSequence) : Bool :=
  if (sequence.data = 0 ∧ sequence.count ≠ 0) ∨ sequence.elementSize = 0 ∨
      sequence.count > sizeMax / sequence.elementSize then false
  else
    (List.range sequence.count).all fun i =>
      typedValueValid library memory (sequence.data + i * sequence.elementSize)
        sequence.elementSize sequence.elementKind sequence.elementFunction

def mapValid (library : Library D) (memory : Memory D) (map : LorPrintMap) : Bool :=
  if (map.data = 0 ∧ map.count ≠ 0) ∨ map.entrySize = 0 ∨ map.count > sizeMax / map.entrySize ∨
      map.keyOffset > map.entrySize ∨ map.keySize > map.entrySize - map.keyOffset ∨
      map.valueOffset > map.entrySize ∨ map.valueSize > map.entrySize - map.valueOffset then false
  else
    (List.range map.count).all fun i =>
      let entry := map.data + i * map.entrySize
      typedValueValid library memory (entry + map.keyOffset) map.keySize map.keyKind
          map.keyFunction &&
        typedValueValid library memory (entry + map.valueOffset) map.valueSize map.valueKind
          map.valueFunction

def valueValid (library : Library D) (memory : Memory D) : LorPrintValue D → Bool
  | .stringView view => svIsValid view
  | .ending view => svIsValid view
  | .custom custom => custom.function.isSome
  | .array sequence => sequenceValid library memory sequence
  | .set sequence => sequenceValid library memory sequence
  | .map map => mapValid library memory map
  | .unknown _ => false
  | _ => true

/-! ## Writing -/

/-- What the conversions write of an object, but for strings. -/
def arenaConfigText (config : LorArenaConfig) : Bytes :=
  ascii "LorArenaConfig(backend=" ++ arenaBackendName config.backend ++ ascii ", block_size=" ++
    decimal config.blockSize ++ ascii ", reserve_size=" ++ decimal config.reserveSize ++
    ascii ", commit_size=" ++ decimal config.commitSize ++ ascii ")"

def arenaText (arena : LorArena) : Bytes :=
  ascii "LorArena(backend=" ++ arenaBackendName arena.backend ++ ascii ", used=" ++
    decimal arena.used ++ ascii ", capacity=" ++ decimal arena.capacity ++ ascii ", committed=" ++
    decimal arena.committed ++ ascii ")"

def arenaMarkText (library : Library D) (mark : LorArenaMark) : Bytes :=
  ascii "LorArenaMark(block=" ++ library.pointer mark.block ++ ascii ", used=" ++
    decimal mark.used ++ ascii ")"

def scratchText (library : Library D) (scratch : LorScratch) : Bytes :=
  ascii "LorScratch(arena=" ++ library.pointer scratch.arena ++ ascii ", mark_used=" ++
    decimal scratch.mark.used ++ ascii ")"

def mmapText (library : Library D) (map : LorMmap) : Bytes :=
  ascii "LorMmap(data=" ++ library.pointer map.data ++ ascii ", size=" ++ decimal map.size ++
    ascii ")"

def leakStatsText (stats : LorLeakStats) : Bytes :=
  ascii "LorLeakStats(heap_count=" ++ decimal stats.heapCount ++ ascii ", heap_bytes=" ++
    decimal stats.heapBytes ++ ascii ", arena_count=" ++ decimal stats.arenaCount ++
    ascii ", mmap_count=" ++ decimal stats.mmapCount ++ ascii ", mmap_bytes=" ++
    decimal stats.mmapBytes ++ ascii ")"

def randomText (random : LorRandom) : Bytes :=
  ascii "LorRandom(state=" ++ decimal random.state.toNat ++ ascii ", increment=" ++
    decimal random.increment.toNat ++ ascii ")"

def writeTypedValue (library : Library D) (memory : Memory D) (device : Device) (value size : ℕ)
    (kind : LorTypeKind) (function : Option LorPrintCustomFn) (nested : Bool) : Writer :=
  match function with
  | some function => function value
  | none =>
    if !typeSizeValid library kind size then refuse
    else
      match kind with
      | .bool => put device (ascii (if memory.bool value then "true" else "false"))
      | .char => put device [memory.byte value]
      | .float => put device (library.floating (memory.floating kind value))
      | .double => put device (library.floating (memory.floating kind value))
      | .longDouble => put device (library.floating (memory.floating kind value))
      | .cstring =>
        let text := memory.pointer value
        if text = 0 then put device (ascii "(null)")
        else if nested then writeQuotedView library memory device (svFromCstr memory text)
        else put device (viewBytes memory (svFromCstr memory text))
      | .pointer => put device (library.pointer (memory.pointer value))
      | .stringView =>
        let view := memory.view value
        if nested then writeQuotedView library memory device view
        else writeView memory device view
      | .arenaConfig => put device (arenaConfigText (memory.arenaConfig value))
      | .arena => put device (arenaText (memory.arena value))
      | .arenaMark => put device (arenaMarkText library (memory.arenaMark value))
      | .scratch => put device (scratchText library (memory.scratch value))
      | .mmap => put device (mmapText library (memory.mmap value))
      | .leakStats => put device (leakStatsText (memory.leakStats value))
      | .random => put device (randomText (memory.random value))
      | .other => refuse
      | .unknown _ => refuse
      -- the integers, each with the conversion of its own type
      | kind => put device (decimal (memory.integer kind value))

/-- The loop over the `n` items from the `i`-th on, with `, ` between two of them. -/
def writeItems (device : Device) (item : ℕ → Writer) : ℕ → ℕ → Writer
  | 0, _ => done
  | n + 1, i =>
    Writer.next (if i ≠ 0 then put device (ascii ", ") else done)
      ((item i).next (writeItems device item n (i + 1)))

def writeSequence (library : Library D) (memory : Memory D) (device : Device)
    (sequence : LorPrintSequence) (isSet : Bool) : Writer :=
  if sequence.count = 0 then put device (ascii (if isSet then "set()" else "[]"))
  else
    let element := fun i =>
      writeTypedValue library memory device (sequence.data + i * sequence.elementSize)
        sequence.elementSize sequence.elementKind sequence.elementFunction true
    (put device [if isSet then 123 else 91]).next <|
      (writeItems device element sequence.count 0).next (put device [if isSet then 125 else 93])

def writeMap (library : Library D) (memory : Memory D) (device : Device) (map : LorPrintMap) :
    Writer :=
  let item := fun i =>
    let entry := map.data + i * map.entrySize
    (writeTypedValue library memory device (entry + map.keyOffset) map.keySize map.keyKind
      map.keyFunction true).next <|
      (put device (ascii ": ")).next
        (writeTypedValue library memory device (entry + map.valueOffset) map.valueSize
          map.valueKind map.valueFunction true)
  (put device [123]).next ((writeItems device item map.count 0).next (put device [125]))

def writeValue (library : Library D) (memory : Memory D) (device : Device) :
    LorPrintValue D → Writer
  | .bool boolean => put device (ascii (if boolean ≠ 0 then "true" else "false"))
  | .char character => put device [character]
  | .signed value => put device (decimal value)
  | .unsigned value => put device (decimal value)
  | .floating value => put device (library.floating value)
  | .cstring text =>
    put device (if text ≠ 0 then viewBytes memory (svFromCstr memory text) else ascii "(null)")
  | .stringView view => writeView memory device view
  | .pointer value => put device (library.pointer value)
  | .arenaConfig place => record place .arenaConfig
  | .arena place => record place .arena
  | .arenaMark place => record place .arenaMark
  | .scratch place => record place .scratch
  | .mmap place => record place .mmap
  | .leakStats place => record place .leakStats
  | .random place => record place .random
  | .array sequence => writeSequence library memory device sequence false
  | .set sequence => writeSequence library memory device sequence true
  | .map map => writeMap library memory device map
  | .custom custom =>
    match custom.function with
    | some function => function custom.value
    | none => refuse
  | .ending _ => done
  | .unknown _ => refuse
where
  record (place : ℕ) (kind : LorTypeKind) : Writer :=
    writeTypedValue library memory device place (library.sizeof kind) kind none false

/-- The loop that checks the values and finds the ending. -/
def findEnding (library : Library D) (memory : Memory D) :
    LorStringView → List (LorPrintValue D) → Option LorStringView
  | ending, [] => some ending
  | ending, value :: values =>
    if !valueValid library memory value then none
    else
      match value with
      | .ending view => findEnding library memory view values
      | _ => findEnding library memory ending values

/-- The loop that writes the values after `printed` of them. -/
def writeValues (library : Library D) (memory : Memory D) (device : Device)
    (separator : LorStringView) : ℕ → List (LorPrintValue D) → Writer
  | _, [] => done
  | printed, value :: values =>
    match value with
    | .ending _ => writeValues library memory device separator printed values
    | value =>
      Writer.next (if printed ≠ 0 then writeView memory device separator else done)
        ((writeValue library memory device value).next
          (writeValues library memory device separator (printed + 1) values))

/-- `lor_fprint_values`. A stream `none` is `NULL`, and values `none` are `NULL` with a count. -/
def fprintValues (library : Library D) (memory : Memory D) (device : Device) (out : Option Stream)
    (config : LorPrintConfig) (values : Option (List (LorPrintValue D))) :
    Status × Option Stream :=
  match out, values with
  | some stream, some values =>
    if !svIsValid config.separator || !svIsValid config.ending then (.invalidArgument, out)
    else
      match findEnding library memory config.ending values with
      | none => (.invalidArgument, out)
      | some ending =>
        let (status, stream) := ((writeValues library memory device config.separator 0 values).next
          (writeView memory device ending)) stream
        (status, some stream)
  | _, _ => (.invalidArgument, out)

end Liblor.Print
