import Liblor.LittleEndian
import Liblor.Machine

/-!
# The trace recorder of `trace.c`

Each thread records into a buffer of its own, record behind record; a flush writes the records as
JSON into the file that all threads share. `used` is the length of the buffer. A call of the
standard input and output library either writes all its bytes or fails after some of them.

Counters of calls and of events are natural numbers: they stay below `2 ^ 64` for any run that can
be made.
-/

namespace Liblor.Trace

def ascii (text : String) : Bytes := text.toList.map fun c => UInt8.ofNat c.toNat

def uint32Max : ℕ := 2 ^ 32 - 1

/-- `LorTraceBufferMode`, with the values outside the enumeration that a C program can pass. -/
inductive BufferMode where
  | flush
  | drop
  | other (value : ℕ)
  deriving DecidableEq, Repr

structure Config where
  bufferSize : ℕ
  bufferMode : BufferMode
  processName : Option Bytes
  bufferSize_le : bufferSize ≤ sizeMax

def defaultBufferSize : ℕ := 1024 * 1024

def minBufferSize : ℕ := 1024

inductive RecordType where
  | beginZone
  | endZone
  | instant
  | counter
  | autoBeginZone
  deriving DecidableEq, Repr

def RecordType.code : RecordType → UInt8
  | .beginZone => 1
  | .endZone => 2
  | .instant => 3
  | .counter => 4
  | .autoBeginZone => 5

/-- What is recorded about an event. -/
structure Record where
  type : RecordType
  name : Bytes
  value : UInt64
  timestampNs : UInt64
  deriving DecidableEq, Repr

structure Header where
  timestampNs : UInt64
  value : UInt64
  nameSize : UInt32
  type : UInt8
  deriving DecidableEq, Repr

def headerSize : ℕ := 24

def Header.encode (header : Header) : Bytes :=
  LittleEndian.encode 8 header.timestampNs.toNat ++ LittleEndian.encode 8 header.value.toNat ++
    LittleEndian.encode 4 header.nameSize.toNat ++ [header.type, 0, 0, 0]

/-- The header that the first bytes are. -/
def Header.decode (bytes : Bytes) : Header where
  timestampNs := UInt64.ofNat (LittleEndian.decode (bytes.take 8))
  value := UInt64.ofNat (LittleEndian.decode ((bytes.drop 8).take 8))
  nameSize := UInt32.ofNat (LittleEndian.decode ((bytes.drop 16).take 4))
  type := bytes.getD 20 0

/-- What the target and its libraries do: the number of bytes after which a call of the input and
output library fails, for those calls that fail, and the name that `lor_trace__auto_name` finds for
a function address. -/
structure Os where
  fault : ℕ → Option ℕ
  autoName : UInt64 → Bytes

structure File where
  bytes : Bytes
  calls : ℕ
  deriving DecidableEq, Repr

structure TraceImpl where
  file : File
  originNs : UInt64
  processId : ℕ
  nextThreadId : ℕ
  activeThreads : ℕ
  bufferSize : ℕ
  bufferMode : BufferMode
  firstEvent : Bool
  failed : Bool
  closed : Bool
  deriving DecidableEq, Repr

structure ThreadImpl where
  buffer : Bytes
  capacity : ℕ
  depth : ℕ
  suppressedDepth : ℕ
  reservedEnds : ℕ
  threadId : ℕ
  recordedEvents : ℕ
  droppedEvents : ℕ
  deriving DecidableEq, Repr

/-- A function that writes: its result and the trace after it. -/
abbrev Write := TraceImpl → Bool × TraceImpl

/-- The conjunction of writes, which stops at the first that fails. -/
def all : List Write → Write
  | [], trace => (true, trace)
  | write :: rest, trace =>
    match write trace with
    | (false, trace) => (false, trace)
    | (true, trace) => all rest trace

section Writers

variable (os : Os)

/-- One call of `fwrite`, `fputc` or `fprintf`, with the error check behind it. -/
def output (data : Bytes) : Write := fun trace =>
  match os.fault trace.file.calls with
  | none => (true, { trace with file := ⟨trace.file.bytes ++ data, trace.file.calls + 1⟩ })
  | some n =>
    (false, { trace with
      file := ⟨trace.file.bytes ++ data.take n, trace.file.calls + 1⟩, failed := true })

/-- One call of `fflush` or `fclose`: whether it succeeds. -/
def sync : Write := fun trace =>
  ((os.fault trace.file.calls).isNone,
    { trace with file := ⟨trace.file.bytes, trace.file.calls + 1⟩ })

def writeBytes (data : Bytes) : Write := fun trace =>
  if data.length = 0 then (true, trace) else output os data trace

def writeLiteral (text : String) : Write := writeBytes os (ascii text)

def writeChar (value : UInt8) : Write := output os [value]

def hex (digit : UInt8) : UInt8 := (ascii "0123456789abcdef").getD digit.toNat 0

/-- What `lor_trace__write_json_string` writes for one byte of the text. -/
def writeJsonByte (byte : UInt8) : Write :=
  if byte = 34 then writeLiteral os "\\\""
  else if byte = 92 then writeLiteral os "\\\\"
  else if byte = 8 then writeLiteral os "\\b"
  else if byte = 12 then writeLiteral os "\\f"
  else if byte = 10 then writeLiteral os "\\n"
  else if byte = 13 then writeLiteral os "\\r"
  else if byte = 9 then writeLiteral os "\\t"
  else if byte < 32 then
    writeBytes os (ascii "\\u00" ++ [hex (byte >>> 4), hex (byte &&& 15)])
  else writeChar os byte

def writeJsonString (text : Bytes) : Write :=
  all (writeChar os 34 :: text.map (writeJsonByte os) ++ [writeChar os 34])

/-- The decimal digits of `"%" PRIu64`. -/
def decimal (n : ℕ) : Bytes :=
  if n = 0 then [48] else (Nat.digits 10 n).reverse.map fun d => UInt8.ofNat (48 + d)

/-- The text of `"%" PRId64`. -/
def signedDecimal (z : ℤ) : Bytes :=
  if z < 0 then 45 :: decimal z.natAbs else decimal z.natAbs

/-- The text of `".%03u"` for a number below 1000. -/
def fraction (n : ℕ) : Bytes :=
  [46, UInt8.ofNat (48 + n / 100), UInt8.ofNat (48 + n / 10 % 10), UInt8.ofNat (48 + n % 10)]

def writeU64 (value : ℕ) : Write := output os (decimal value)

def writeI64 (value : ℤ) : Write := output os (signedDecimal value)

def writeTimestamp (nanoseconds : ℕ) : Write :=
  let microseconds := nanoseconds / 1000
  let remainder := nanoseconds % 1000
  all [writeU64 os microseconds, fun trace =>
    if remainder = 0 then (true, trace) else output os (fraction remainder) trace]

def eventSeparator : Write := fun trace =>
  if trace.firstEvent then (true, { trace with firstEvent := false })
  else writeLiteral os ",\n" trace

def writeMetadataLocked (metadataName : String) (threadId : ℕ) (value : Bytes) : Write :=
  fun trace => all [
    eventSeparator os,
    writeLiteral os "\x7b\"name\":",
    writeJsonString os (ascii metadataName),
    writeLiteral os ",\"ph\":\"M\",\"pid\":",
    writeU64 os trace.processId,
    writeLiteral os ",\"tid\":",
    writeU64 os threadId,
    writeLiteral os ",\"args\":\x7b\"name\":",
    writeJsonString os value,
    writeLiteral os "\x7d\x7d"] trace

/-- The event of an `END` record, which has no name. -/
def writeEnd (threadId : ℕ) (header : Header) : Write := fun trace => all [
  eventSeparator os,
  writeLiteral os "\x7b\"ph\":\"E\",\"pid\":",
  writeU64 os trace.processId,
  writeLiteral os ",\"tid\":",
  writeU64 os threadId,
  writeLiteral os ",\"ts\":",
  writeTimestamp os header.timestampNs.toNat,
  writeChar os 125] trace

/-- The event of any other record. -/
def writeNamed (threadId : ℕ) (header : Header) (name : Bytes) (category phase : String) : Write :=
  fun trace => all ([
    eventSeparator os,
    writeLiteral os "\x7b\"name\":",
    writeJsonString os name,
    writeLiteral os ",\"cat\":",
    writeJsonString os (ascii category),
    writeLiteral os ",\"ph\":",
    writeJsonString os (ascii phase),
    writeLiteral os ",\"pid\":",
    writeU64 os trace.processId,
    writeLiteral os ",\"tid\":",
    writeU64 os threadId,
    writeLiteral os ",\"ts\":",
    writeTimestamp os header.timestampNs.toNat] ++
    (if header.type = RecordType.instant.code then [writeLiteral os ",\"s\":\"t\""] else []) ++
    (if header.type = RecordType.counter.code then
      [writeLiteral os ",\"args\":\x7b\"value\":", writeI64 os header.value.toInt64.toInt,
        writeChar os 125] else []) ++
    [writeChar os 125]) trace

def writeRecordLocked (threadId : ℕ) (header : Header) (name : Bytes) : Write :=
  if header.type = RecordType.beginZone.code then writeNamed os threadId header name "lor" "B"
  else if header.type = RecordType.endZone.code then writeEnd os threadId header
  else if header.type = RecordType.instant.code then writeNamed os threadId header name "lor" "i"
  else if header.type = RecordType.counter.code then writeNamed os threadId header name "lor" "C"
  else if header.type = RecordType.autoBeginZone.code then
    writeNamed os threadId header (os.autoName header.value) "lor.auto" "B"
  else fun trace => (false, { trace with failed := true })

/-- The loop of `lor_trace__thread_flush_internal` over the bytes from `offset` on. A round takes at
least a header, so that their number bounds the rounds. -/
def flushLoop (threadId : ℕ) : ℕ → Bytes → TraceImpl → TraceImpl
  | 0, _, trace => trace
  | fuel + 1, bytes, trace =>
    if bytes.length = 0 then trace
    else if bytes.length < headerSize then { trace with failed := true }
    else
      let header := Header.decode bytes
      let rest := bytes.drop headerSize
      if header.nameSize.toNat > rest.length then { trace with failed := true }
      else
        match writeRecordLocked os threadId header (rest.take header.nameSize.toNat) trace with
        | (false, trace) => trace
        | (true, trace) => flushLoop threadId fuel (rest.drop header.nameSize.toNat) trace

end Writers

end Liblor.Trace
