import Liblor.TraceModel

/-!
# Recording, flushing and finishing

The functions of `trace.c` on a thread recorder. A function that appends returns the record it has
appended, `none` standing for the failure of `lor_trace__append`.
-/

namespace Liblor.Trace

structure Recorded where
  record : Option Record
  trace : TraceImpl
  thread : ThreadImpl

section Flush

variable (os : Os)

/-- The stream flush behind the records. -/
def flushStreamLocked (flushStream : Bool) (trace : TraceImpl) : TraceImpl :=
  if trace.failed = false ∧ flushStream then
    match sync os trace with
    | (true, trace) => trace
    | (false, trace) => { trace with failed := true }
  else trace

def flushInternal (trace : TraceImpl) (thread : ThreadImpl) (flushStream : Bool) :
    Status × TraceImpl × ThreadImpl :=
  if thread.buffer.length = 0 then
    if flushStream = false then (.ok, trace, thread)
    else if trace.closed ∨ trace.failed then (.systemError, { trace with failed := true }, thread)
    else
      match sync os trace with
      | (true, trace) => (.ok, trace, thread)
      | (false, trace) => (.systemError, { trace with failed := true }, thread)
  else if trace.closed ∨ trace.failed then (.systemError, { trace with failed := true }, thread)
  else
    let trace := flushLoop os thread.threadId thread.buffer.length thread.buffer trace
    let trace := flushStreamLocked os flushStream trace
    if trace.failed then (.systemError, trace, thread)
    else (.ok, trace, { thread with buffer := [] })

def spaceAvailable (thread : ThreadImpl) (recordSize reservedEndsAfter : ℕ) : Bool :=
  if reservedEndsAfter > (sizeMax - recordSize) / headerSize then false
  else decide
    (recordSize + reservedEndsAfter * headerSize ≤ thread.capacity - thread.buffer.length)

def ensureSpace (trace : TraceImpl) (thread : ThreadImpl) (recordSize reservedEndsAfter : ℕ) :
    Bool × TraceImpl × ThreadImpl :=
  if spaceAvailable thread recordSize reservedEndsAfter then (true, trace, thread)
  else if trace.bufferMode ≠ .flush then (false, trace, thread)
  else
    match flushInternal os trace thread false with
    | (.ok, trace, thread) => (spaceAvailable thread recordSize reservedEndsAfter, trace, thread)
    | (_, trace, thread) => (false, trace, thread)

def timestamp (trace : TraceImpl) (now : UInt64) : UInt64 :=
  if now ≥ trace.originNs then now - trace.originNs else 0

def append (now : UInt64) (trace : TraceImpl) (thread : ThreadImpl) (type : RecordType)
    (name : Bytes) (value : UInt64) (reservedEndsAfter : ℕ) : Recorded :=
  if name.length > uint32Max ∨ name.length > sizeMax - headerSize then ⟨none, trace, thread⟩
  else
    match ensureSpace os trace thread (headerSize + name.length) reservedEndsAfter with
    | (false, trace, thread) => ⟨none, trace, thread⟩
    | (true, trace, thread) =>
      let header : Header := ⟨timestamp trace now, value, UInt32.ofNat name.length, type.code⟩
      ⟨some ⟨type, name, value, header.timestampNs⟩, trace, { thread with
        buffer := thread.buffer ++ header.encode ++ name
        recordedEvents := thread.recordedEvents + 1 }⟩

def beginValue (now : UInt64) (trace : TraceImpl) (thread : ThreadImpl) (type : RecordType)
    (name : Bytes) (value : UInt64) : Recorded :=
  let thread := { thread with depth := thread.depth + 1 }
  if thread.suppressedDepth ≠ 0 then
    ⟨none, trace, { thread with
      suppressedDepth := thread.suppressedDepth + 1, droppedEvents := thread.droppedEvents + 1 }⟩
  else if thread.reservedEnds = sizeMax then
    ⟨none, trace, { thread with
      suppressedDepth := 1, droppedEvents := thread.droppedEvents + 1 }⟩
  else
    match append os now trace thread type name value (thread.reservedEnds + 1) with
    | ⟨none, trace, thread⟩ => ⟨none, trace, { thread with
        suppressedDepth := 1, droppedEvents := thread.droppedEvents + 1 }⟩
    | ⟨some record, trace, thread⟩ =>
      ⟨some record, trace, { thread with reservedEnds := thread.reservedEnds + 1 }⟩

def endImpl (now : UInt64) (trace : TraceImpl) (thread : ThreadImpl) : Recorded :=
  if thread.depth = 0 then
    ⟨none, trace, { thread with droppedEvents := thread.droppedEvents + 1 }⟩
  else
    let thread := { thread with depth := thread.depth - 1 }
    if thread.suppressedDepth ≠ 0 then
      ⟨none, trace, { thread with
        suppressedDepth := thread.suppressedDepth - 1
        droppedEvents := thread.droppedEvents + 1 }⟩
    else if thread.reservedEnds = 0 then
      ⟨none, trace, { thread with droppedEvents := thread.droppedEvents + 1 }⟩
    else
      match append os now trace thread .endZone [] 0 (thread.reservedEnds - 1) with
      | ⟨none, trace, thread⟩ => ⟨none, trace, { thread with
          droppedEvents := thread.droppedEvents + 1
          reservedEnds := thread.reservedEnds - 1 }⟩
      | ⟨some record, trace, thread⟩ =>
        ⟨some record, trace, { thread with reservedEnds := thread.reservedEnds - 1 }⟩

/-- The common body of `lor_trace_instant` and `lor_trace_counter`. -/
def pointValue (now : UInt64) (trace : TraceImpl) (thread : ThreadImpl) (type : RecordType)
    (name : Bytes) (value : UInt64) : Recorded :=
  if thread.suppressedDepth ≠ 0 then
    ⟨none, trace, { thread with droppedEvents := thread.droppedEvents + 1 }⟩
  else
    match append os now trace thread type name value thread.reservedEnds with
    | ⟨none, trace, thread⟩ =>
      ⟨none, trace, { thread with droppedEvents := thread.droppedEvents + 1 }⟩
    | ⟨some record, trace, thread⟩ => ⟨some record, trace, thread⟩

end Flush

/-- The recording functions with their arguments; `none` is a `NULL` name. A function entered under
automatic instrumentation is given by its address, and leaving it is an `endZone`. -/
inductive EventCall where
  | beginZone (name : Option Bytes)
  | endZone
  | instant (name : Option Bytes)
  | counter (name : Option Bytes) (value : Int64)
  | enterFunction (address : UInt64)
  deriving DecidableEq, Repr

def EventCall.isValid : EventCall → Bool
  | .beginZone name => name.isSome
  | .endZone => true
  | .instant name => name.isSome
  | .counter name _ => name.isSome
  | .enterFunction _ => true

section Api

variable (os : Os)

def EventCall.perform (now : UInt64) (trace : TraceImpl) (thread : ThreadImpl) :
    EventCall → Recorded
  | .beginZone (some name) => beginValue os now trace thread .beginZone name 0
  | .endZone => endImpl os now trace thread
  | .instant (some name) => pointValue os now trace thread .instant name 0
  | .counter (some name) value =>
    pointValue os now trace thread .counter name value.toUInt64
  | .enterFunction address => beginValue os now trace thread .autoBeginZone [] address
  | _ => ⟨none, trace, thread⟩

def threadFlush (trace : TraceImpl) (thread : ThreadImpl) : Status × TraceImpl × ThreadImpl :=
  flushInternal os trace thread true

/-- The loop of `lor_trace_thread_finish` that ends the open zones: the records it appends and the
objects after it. Each round lowers `reserved_ends`, which bounds their number. -/
def closeLoop (now : ℕ → UInt64) :
    ℕ → TraceImpl → ThreadImpl → List Record × TraceImpl × ThreadImpl
  | 0, trace, thread => ([], trace, thread)
  | fuel + 1, trace, thread =>
    if thread.reservedEnds = 0 then ([], trace, thread)
    else
      let appended := append os (now fuel) trace thread .endZone [] 0 (thread.reservedEnds - 1)
      let thread := appended.thread
      let thread := { thread with
        droppedEvents :=
          if appended.record.isNone then thread.droppedEvents + 1 else thread.droppedEvents
        reservedEnds := thread.reservedEnds - 1
        depth := if thread.depth ≠ 0 then thread.depth - 1 else thread.depth }
      match closeLoop now fuel appended.trace thread with
      | (records, trace, thread) => (appended.record.toList ++ records, trace, thread)

/-- `lor_trace_thread_finish` up to its second critical section. -/
def threadFinish (now : ℕ → UInt64) (trace : TraceImpl) (thread : ThreadImpl) :
    Status × List Record × TraceImpl × ThreadImpl :=
  let unbalanced := thread.depth ≠ 0
  let thread := { thread with
    depth := thread.depth - thread.suppressedDepth, suppressedDepth := 0 }
  match closeLoop os now thread.reservedEnds trace thread with
  | (records, trace, thread) =>
    match flushInternal os trace { thread with depth := 0 } true with
    | (status, trace, thread) =>
      (if status ≠ .ok then status else if unbalanced then .invalidArgument else .ok,
        records, trace, thread)

/-- The second critical section of `lor_trace_thread_finish`. -/
def threadRelease (trace : TraceImpl) : TraceImpl :=
  if trace.activeThreads ≠ 0 then { trace with activeThreads := trace.activeThreads - 1 }
  else trace

/-- `lor_trace_thread_init` on an empty handle; `allocated` is whether its memory was granted. -/
def threadInit (trace : TraceImpl) (allocated : Bool) (name : Option Bytes) :
    Status × TraceImpl × Option ThreadImpl :=
  if allocated = false then (.outOfMemory, trace, none)
  else if trace.closed ∨ trace.failed then (.systemError, trace, none)
  else
    let threadId := trace.nextThreadId
    let trace := { trace with nextThreadId := trace.nextThreadId + 1 }
    let thread : ThreadImpl := ⟨[], trace.bufferSize, 0, 0, 0, threadId, 0, 0⟩
    match name with
    | none => (.ok, { trace with activeThreads := trace.activeThreads + 1 }, some thread)
    | some name =>
      match writeMetadataLocked os "thread_name" threadId name trace with
      | (false, trace) => (.systemError, trace, none)
      | (true, trace) => (.ok, { trace with activeThreads := trace.activeThreads + 1 }, some thread)

/-- `lor_trace_finish`: every write is tried, whatever has failed before it. -/
def finish (trace : TraceImpl) : Status × TraceImpl :=
  if trace.activeThreads ≠ 0 then (.invalidArgument, trace)
  else
    let failed := trace.failed
    match writeLiteral os "\n]\n" trace with
    | (written, trace) =>
      match sync os trace with
      | (flushed, trace) =>
        match sync os trace with
        | (closed, trace) =>
          (if failed = false ∧ written ∧ flushed ∧ closed then .ok else .systemError,
            { trace with closed := true })

structure InitOs where
  calloc : Bool
  clock : Bool
  openFile : Bool
  originNs : UInt64
  processId : ℕ

/-- `lor_trace_init_file` on an empty handle with a path. -/
def initFile (init : InitOs) (config : Config) : Status × Option TraceImpl :=
  if config.bufferMode ≠ .flush ∧ config.bufferMode ≠ .drop then (.invalidArgument, none)
  else
    let bufferSize := if config.bufferSize ≠ 0 then config.bufferSize else defaultBufferSize
    if bufferSize < minBufferSize then (.invalidArgument, none)
    else if init.calloc = false then (.outOfMemory, none)
    else if init.clock = false ∨ init.openFile = false then (.systemError, none)
    else
      let trace : TraceImpl :=
        { file := ⟨[], 0⟩
          originNs := init.originNs
          processId := init.processId
          nextThreadId := 1
          activeThreads := 0
          bufferSize := bufferSize
          bufferMode := config.bufferMode
          firstEvent := true
          failed := false
          closed := false }
      match writeLiteral os "[\n" trace with
      | (false, _) => (.systemError, none)
      | (true, trace) =>
        match config.processName with
        | none => (.ok, some trace)
        | some name =>
          match writeMetadataLocked os "process_name" 0 name trace with
          | (false, _) => (.systemError, none)
          | (true, trace) => (.ok, some trace)

end Api

end Liblor.Trace
