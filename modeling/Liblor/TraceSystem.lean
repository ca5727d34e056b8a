import Liblor.NestedZones
import Liblor.TraceRecorder
import Liblor.Transition

/-!
# Threads that record into one trace

A step is a call of the interface. A call has at most one critical section, and what it does outside
of it concerns its own recorder only, so that the calls of different threads can be taken in the
order of their sections; `lor_trace_thread_finish`, which has two, is two steps. Each recorder comes
with the calls made on it and the records it has appended.
-/

namespace Liblor.Trace

open NestedZones Transition

inductive Phase where
  | recording
  | releasing
  | finished
  deriving DecidableEq, Repr

/-- A recorder with its name, the calls with valid arguments, the records appended for them, each
with the index of its call, and the records appended by `lor_trace_thread_finish`. -/
structure Thread where
  impl : ThreadImpl
  name : Option Bytes
  calls : List EventCall
  log : List (ℕ × Record)
  closing : List Record
  phase : Phase
  deriving DecidableEq, Repr

/-- All records that the thread has appended. -/
def Thread.records (thread : Thread) : List Record := thread.log.map Prod.snd ++ thread.closing

/-- The handle of the trace is emptied when `lor_trace_finish` returns the result. -/
structure State where
  trace : TraceImpl
  threads : List Thread
  result : Option Status
  deriving DecidableEq, Repr

inductive Event where
  | threadInit (allocated : Bool) (name : Option Bytes)
  | event (i : ℕ) (call : EventCall) (now : UInt64)
  | threadFlush (i : ℕ)
  | threadFinish (i : ℕ) (now : ℕ → UInt64)
  | threadRelease (i : ℕ)
  | finish

section Steps

variable (os : Os)

/-- The thread after a recording function. -/
def Thread.event (trace : TraceImpl) (thread : Thread) (call : EventCall) (now : UInt64) : Thread :=
  let recorded := call.perform os now trace thread.impl
  { thread with
    impl := recorded.thread
    calls := thread.calls ++ if call.isValid then [call] else []
    log := thread.log ++ recorded.record.toList.map fun record => (thread.calls.length, record) }

/-- The thread after the first section of `lor_trace_thread_finish`. -/
def Thread.finish (trace : TraceImpl) (thread : Thread) (now : ℕ → UInt64) : Thread :=
  match Trace.threadFinish os now trace thread.impl with
  | (_, records, _, impl) => { thread with impl := impl, closing := records, phase := .releasing }

def State.threadInit (s : State) (allocated : Bool) (name : Option Bytes) : State :=
  match Trace.threadInit os s.trace allocated name with
  | (_, trace, none) => { s with trace := trace }
  | (_, trace, some impl) =>
    { s with trace := trace, threads := s.threads ++ [⟨impl, name, [], [], [], .recording⟩] }

def State.event (s : State) (i : ℕ) (thread : Thread) (call : EventCall) (now : UInt64) : State :=
  { s with
    trace := (call.perform os now s.trace thread.impl).trace
    threads := s.threads.set i (thread.event os s.trace call now) }

def State.threadFlush (s : State) (i : ℕ) (thread : Thread) : State :=
  match Trace.threadFlush os s.trace thread.impl with
  | (_, trace, impl) =>
    { s with trace := trace, threads := s.threads.set i { thread with impl := impl } }

def State.threadFinish (s : State) (i : ℕ) (thread : Thread) (now : ℕ → UInt64) : State :=
  { s with
    trace := (Trace.threadFinish os now s.trace thread.impl).2.2.1
    threads := s.threads.set i (thread.finish os s.trace now) }

def State.threadRelease (s : State) (i : ℕ) (thread : Thread) : State :=
  { s with
    trace := Trace.threadRelease s.trace
    threads := s.threads.set i { thread with phase := .finished } }

def State.finish (s : State) : State :=
  match Trace.finish os s.trace with
  | (status, trace) =>
    { s with trace := trace, result := if trace.closed then some status else none }

inductive Step : State → Event → State → Prop where
  | threadInit {s : State} (hopen : s.result = none) (allocated : Bool) (name : Option Bytes) :
      Step s (.threadInit allocated name) (s.threadInit os allocated name)
  | event {s : State} {i : ℕ} {thread : Thread} (hopen : s.result = none)
      (h : s.threads[i]? = some thread) (hphase : thread.phase = .recording) (call : EventCall)
      (now : UInt64) : Step s (.event i call now) (s.event os i thread call now)
  | threadFlush {s : State} {i : ℕ} {thread : Thread} (hopen : s.result = none)
      (h : s.threads[i]? = some thread) (hphase : thread.phase = .recording) :
      Step s (.threadFlush i) (s.threadFlush os i thread)
  | threadFinish {s : State} {i : ℕ} {thread : Thread} (hopen : s.result = none)
      (h : s.threads[i]? = some thread) (hphase : thread.phase = .recording) (now : ℕ → UInt64) :
      Step s (.threadFinish i now) (s.threadFinish os i thread now)
  | threadRelease {s : State} {i : ℕ} {thread : Thread} (hopen : s.result = none)
      (h : s.threads[i]? = some thread) (hphase : thread.phase = .releasing) :
      Step s (.threadRelease i) (s.threadRelease i thread)
  | finish {s : State} (hopen : s.result = none) : Step s .finish (s.finish os)

/-- The runs on a trace that `lor_trace_init_file` has set up. -/
def system (init : InitOs) (config : Config) : System State Event where
  start s := ∃ trace, initFile os init config = (.ok, some trace) ∧ s = ⟨trace, [], none⟩
  step := Step os

end Steps

end Liblor.Trace
