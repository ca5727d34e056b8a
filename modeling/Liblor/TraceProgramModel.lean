import Liblor.HeapObjects
import Liblor.TraceSystem

/-!
# The recorders of a program

A program has variables of the types `LorTrace` and `LorTraceThread`, and threads that each have
`lor_trace__auto_thread` and `lor_trace__auto_enabled` of their own. A recorder is used by the
thread that owns its variable only. On the heap are the trace and its file, by the number of the
trace, and the recorder and its buffer, by the number of the recorder.

A call is a step, except for `lor_trace_thread_init`, which allocates before its critical section,
and `lor_trace_thread_finish`, which has two sections. `lor_trace_finish` too does something outside
its section, and `lor_trace_init_file` has none: they are steps because no other call may use a
`LorTrace` while it is being opened or finished. An access is put down for every object that a
function can reach, whether it comes to it or not.
-/

namespace Liblor.Trace.Program

open HeapObjects Transition

inductive Object where
  | trace (n : ℕ)
  | file (n : ℕ)
  | recorder (m : ℕ)
  | buffer (m : ℕ)
  deriving DecidableEq, Repr

structure Opened where
  os : Os
  init : InitOs
  config : Config
  impl : TraceImpl

/-- A `LorTraceThread` with the call that is being made on it: the number of the recorder, that of
its trace and what is in its memory. -/
inductive Handle where
  | null
  | initializing (m n : ℕ) (name : Option Bytes)
  | attached (m n : ℕ) (thread : ThreadImpl)
  | finishing (m n : ℕ) (thread : ThreadImpl) (status : Status)
  deriving DecidableEq, Repr

structure Variable where
  owner : ℕ
  handle : Handle
  deriving DecidableEq, Repr

/-- The variables of a thread; `autoThread` is the number of a `LorTraceThread`. -/
structure Worker where
  autoThread : Option ℕ
  autoEnabled : Bool
  deriving DecidableEq, Repr

/-- `opened` are the traces that there have been, `made` is the number of the recorders. -/
structure State where
  heap : Heap Object
  traces : List (Option ℕ)
  opened : List Opened
  recorders : List Variable
  made : ℕ
  workers : List Worker

abbrev Effect := Option (ℕ × Trace.Event)

namespace State

def trace (s : State) (t : ℕ) : Option (ℕ × Opened) :=
  s.traces[t]?.join.bind fun n => s.opened[n]?.map fun opened => (n, opened)

def recorder (s : State) (r : ℕ) : Option (ℕ × ℕ × ThreadImpl × Opened) :=
  match s.recorders[r]? with
  | some ⟨_, .attached m n thread⟩ => s.opened[n]?.map fun opened => (m, n, thread, opened)
  | _ => none

def setTrace (s : State) (n : ℕ) (impl : TraceImpl) : State :=
  { s with opened := s.opened.modify n fun opened => { opened with impl := impl } }

def setHandle (s : State) (r : ℕ) (handle : Handle) : State :=
  { s with recorders := s.recorders.modify r fun v => { v with handle := handle } }

end State

def touch (m n : ℕ) (heap : Heap Object) : Heap Object :=
  (((heap.access (.recorder m)).access (.buffer m)).access (.trace n)).access (.file n)

/-! ## Traces -/

/-- What `lor_trace_init_file` does on the heap where it fails with this status. -/
def initFailed (init : InitOs) (status : Status) (n : ℕ) (heap : Heap Object) : Heap Object :=
  if status ≠ .systemError then heap
  else
    let heap := heap.allocate (.trace n)
    if init.clock = false ∨ init.openFile = false then heap.release (.trace n)
    else ((heap.allocate (.file n)).release (.file n)).release (.trace n)

def initFile (os : Os) (init : InitOs) (config : Config) (path : Bool) (t : ℕ) (s : State) :
    Status × State :=
  if s.traces[t]? ≠ some none ∨ path = false then (.invalidArgument, s)
  else
    let n := s.opened.length
    match Trace.initFile os init config with
    | (status, none) => (status, { s with heap := initFailed init status n s.heap })
    | (status, some impl) =>
      (status, { s with
        heap := (s.heap.allocate (.trace n)).allocate (.file n)
        traces := s.traces.set t (some n)
        opened := s.opened ++ [⟨os, init, config, impl⟩] })

/-- `lor_trace_finish`. It reads the variable before the lock is taken and frees behind it. -/
def finish (t : ℕ) (s : State) : Status × State × Effect :=
  match s.trace t with
  | none => (.invalidArgument, s, none)
  | some (n, opened) =>
    let heap := s.heap.access (.trace n)
    match Trace.finish opened.os opened.impl with
    | (status, impl) =>
      let s := s.setTrace n impl
      if opened.impl.activeThreads ≠ 0 then (status, { s with heap := heap }, some (n, .finish))
      else
        (status, { s with
          heap := ((heap.access (.file n)).release (.file n)).release (.trace n)
          traces := s.traces.set t none }, some (n, .finish))

/-! ## Recorders -/

/-- `lor_trace_thread_init` up to its critical section. The status is `none` if it goes on. -/
def threadInit (calloc malloc : Bool) (name : Option Bytes) (r t : ℕ) (s : State) :
    Option Status × State :=
  match s.recorders[r]?.map Variable.handle, s.trace t with
  | some .null, some (n, _) =>
    if calloc = false then (some .outOfMemory, s)
    else
      let heap := (s.heap.allocate (.recorder s.made)).access (.trace n)
      if malloc = false then
        (some .outOfMemory, { s with
          heap := heap.release (.recorder s.made), made := s.made + 1 })
      else
        (none, { s.setHandle r (.initializing s.made n name) with
          heap := heap.allocate (.buffer s.made), made := s.made + 1 })
  | _, _ => (some .invalidArgument, s)

def threadInitEnd (m n : ℕ) (name : Option Bytes) (opened : Opened) (r : ℕ) (s : State) :
    Status × State × Effect :=
  let heap := (s.heap.access (.trace n)).access (.file n)
  match Trace.threadInit opened.os opened.impl true name with
  | (status, impl, none) =>
    (status, { (s.setTrace n impl).setHandle r .null with
      heap := (heap.release (.buffer m)).release (.recorder m) }, some (n, .threadInit true name))
  | (status, impl, some thread) =>
    (status, { (s.setTrace n impl).setHandle r (.attached m n thread) with heap := heap },
      some (n, .threadInit true name))

def event (call : EventCall) (now : UInt64) (r : ℕ) (s : State) : State × Effect :=
  match s.recorder r with
  | none => (s, none)
  | some (m, n, thread, opened) =>
    let recorded := call.perform opened.os now opened.impl thread
    ({ (s.setTrace n recorded.trace).setHandle r (.attached m n recorded.thread) with
      heap := touch m n s.heap }, some (n, .event (thread.threadId - 1) call now))

def threadFlush (r : ℕ) (s : State) : Status × State × Effect :=
  match s.recorder r with
  | none => (.invalidArgument, s, none)
  | some (m, n, thread, opened) =>
    match Trace.threadFlush opened.os opened.impl thread with
    | (status, impl, thread') =>
      (status, { (s.setTrace n impl).setHandle r (.attached m n thread') with
        heap := touch m n s.heap }, some (n, .threadFlush (thread.threadId - 1)))

structure ThreadStats where
  recordedEvents : ℕ
  droppedEvents : ℕ
  openZones : ℕ
  bufferedBytes : ℕ
  bufferCapacity : ℕ
  deriving DecidableEq, Repr

def threadStats (r : ℕ) (s : State) : ThreadStats × State :=
  match s.recorder r with
  | none => (⟨0, 0, 0, 0, 0⟩, s)
  | some (m, _, thread, _) =>
    (⟨thread.recordedEvents, thread.droppedEvents, thread.depth, thread.buffer.length,
      thread.capacity⟩, { s with heap := s.heap.access (.recorder m) })

def Worker.finish (r : ℕ) (worker : Worker) : Worker :=
  if worker.autoThread = some r then ⟨none, false⟩ else worker

/-- `lor_trace_thread_finish` up to its second critical section. The status is `none` if it goes
on. -/
def threadFinish (now : ℕ → UInt64) (w r : ℕ) (s : State) : Option Status × State × Effect :=
  match s.recorder r with
  | none => (some .invalidArgument, s, none)
  | some (m, n, thread, opened) =>
    match Trace.threadFinish opened.os now opened.impl thread with
    | (status, _, impl, thread') =>
      (none, { (s.setTrace n impl).setHandle r (.finishing m n thread' status) with
        heap := touch m n s.heap
        workers := s.workers.modify w (Worker.finish r) },
        some (n, .threadFinish (thread.threadId - 1) now))

def threadRelease (m n : ℕ) (thread : ThreadImpl) (opened : Opened) (r : ℕ) (s : State) :
    State × Effect :=
  let heap := (s.heap.access (.recorder m)).access (.trace n)
  ({ (s.setTrace n (Trace.threadRelease opened.impl)).setHandle r .null with
    heap := (heap.release (.buffer m)).release (.recorder m) },
    some (n, .threadRelease (thread.threadId - 1)))

/-! ## Automatic instrumentation -/

/-- `lor_trace_auto_bind` where automatic instrumentation is supported or not. -/
def autoBind (supported : Bool) (w r : ℕ) (s : State) : Status × State :=
  if supported = false then (.systemError, s)
  else if s.recorder r = none ∨ ∃ worker ∈ s.workers[w]?, ∃ r' ∈ worker.autoThread, r' ≠ r then
    (.invalidArgument, s)
  else (.ok, { s with workers := s.workers.modify w fun _ => ⟨some r, true⟩ })

/-- `lor_trace_auto_unbind`, `lor_trace_auto_enable` and `lor_trace_auto_disable`. -/
inductive AutoCall where
  | unbind
  | enable
  | disable
  deriving DecidableEq, Repr

def Worker.auto (worker : Worker) : AutoCall → Worker
  | .unbind => ⟨none, false⟩
  | .enable => if worker.autoThread.isSome then { worker with autoEnabled := true } else worker
  | .disable => { worker with autoEnabled := false }

def auto (call : AutoCall) (w : ℕ) (s : State) : State :=
  { s with workers := s.workers.modify w fun worker => worker.auto call }

def Worker.isEnabled (worker : Worker) : Bool := worker.autoThread.isSome && worker.autoEnabled

/-- `__cyg_profile_func_enter` and `__cyg_profile_func_exit`. They do not look whether the variable
holds a recorder. -/
def profile (call : EventCall) (now : UInt64) (w : ℕ) (s : State) : State × Effect :=
  match s.workers[w]? with
  | some ⟨some r, true⟩ =>
    if (s.recorder r).isNone then ({ s with heap := { s.heap with broken := true } }, none)
    else event call now r s
  | _ => (s, none)

/-! ## Runs -/

/-- Calls with what they return, where it is not the end of another call. -/
inductive Event where
  | initFile (t : ℕ) (status : Status)
  | finish (t : ℕ) (status : Status)
  | threadInit (w r t : ℕ) (status : Option Status)
  | threadInitEnd (r : ℕ) (status : Status)
  | event (w r : ℕ) (call : EventCall)
  | threadFlush (w r : ℕ) (status : Status)
  | threadStats (w r : ℕ) (stats : ThreadStats)
  | threadFinish (w r : ℕ) (status : Option Status)
  | threadRelease (r : ℕ) (status : Status)
  | autoBind (w r : ℕ) (status : Status)
  | auto (w : ℕ) (call : AutoCall)
  | autoIsEnabled (w : ℕ) (answer : Bool)
  | enter (w : ℕ) (function : UInt64)
  | exit (w : ℕ)

/-- The thread `w` may use the variable `r`: it owns it and is in no call on it. -/
def Usable (s : State) (w r : ℕ) : Prop :=
  ∃ handle, s.recorders[r]? = some ⟨w, handle⟩ ∧
    (handle = .null ∨ ∃ m n thread, handle = .attached m n thread)

def Unawaited (s : State) (n : ℕ) : Prop :=
  ∀ v ∈ s.recorders, ∀ m name, v.handle ≠ .initializing m n name

/-- The rules for the program: a recorder is used by its owner only, and a `LorTrace` that is being
opened or finished by no other call. For calls that are steps the second leaves the condition that a
trace is not finished while a recorder of it is being initialized. -/
inductive Step (supported : Bool) : State → Event × Effect → State → Prop where
  | initFile {s : State} (os : Os) (init : InitOs) (config : Config) (path : Bool) (t : ℕ) :
      Step supported s (.initFile t (initFile os init config path t s).1, none)
        (initFile os init config path t s).2
  | finish {s : State} (t : ℕ) (hrule : ∀ n opened, s.trace t = some (n, opened) → Unawaited s n) :
      Step supported s (.finish t (finish t s).1, (finish t s).2.2) (finish t s).2.1
  | threadInit {s : State} {w r : ℕ} (husable : Usable s w r) (calloc malloc : Bool)
      (name : Option Bytes) (t : ℕ) :
      Step supported s (.threadInit w r t (threadInit calloc malloc name r t s).1, none)
        (threadInit calloc malloc name r t s).2
  | threadInitEnd {s : State} {r w m n : ℕ} {name : Option Bytes} {opened : Opened}
      (hhandle : s.recorders[r]? = some ⟨w, .initializing m n name⟩)
      (hopened : s.opened[n]? = some opened) :
      Step supported s (.threadInitEnd r (threadInitEnd m n name opened r s).1,
        (threadInitEnd m n name opened r s).2.2) (threadInitEnd m n name opened r s).2.1
  | event {s : State} {w r : ℕ} (husable : Usable s w r) (call : EventCall) (now : UInt64) :
      Step supported s (.event w r call, (event call now r s).2) (event call now r s).1
  | threadFlush {s : State} {w r : ℕ} (husable : Usable s w r) :
      Step supported s (.threadFlush w r (threadFlush r s).1, (threadFlush r s).2.2)
        (threadFlush r s).2.1
  | threadStats {s : State} {w r : ℕ} (husable : Usable s w r) :
      Step supported s (.threadStats w r (threadStats r s).1, none) (threadStats r s).2
  | threadFinish {s : State} {w r : ℕ} (husable : Usable s w r) (now : ℕ → UInt64) :
      Step supported s (.threadFinish w r (threadFinish now w r s).1, (threadFinish now w r s).2.2)
        (threadFinish now w r s).2.1
  | threadRelease {s : State} {r w m n : ℕ} {thread : ThreadImpl} {status : Status}
      {opened : Opened} (hhandle : s.recorders[r]? = some ⟨w, .finishing m n thread status⟩)
      (hopened : s.opened[n]? = some opened) :
      Step supported s (.threadRelease r status, (threadRelease m n thread opened r s).2)
        (threadRelease m n thread opened r s).1
  | autoBind {s : State} {w r : ℕ} (husable : Usable s w r) :
      Step supported s (.autoBind w r (autoBind supported w r s).1, none)
        (autoBind supported w r s).2
  | auto {s : State} (w : ℕ) (call : AutoCall) :
      Step supported s (.auto w call, none) (auto call w s)
  | autoIsEnabled {s : State} {w : ℕ} {worker : Worker} (hworker : s.workers[w]? = some worker) :
      Step supported s (.autoIsEnabled w worker.isEnabled, none) s
  | enter {s : State} (hsupported : supported = true) (w : ℕ) (function now : UInt64) :
      Step supported s (.enter w function, (profile (.enterFunction function) now w s).2)
        (profile (.enterFunction function) now w s).1
  | exit {s : State} (hsupported : supported = true) (w : ℕ) (now : UInt64) :
      Step supported s (.exit w, (profile .endZone now w s).2) (profile .endZone now w s).1

/-- Any numbers of variables and of threads. Nothing is initialized. -/
structure Initial (s : State) : Prop where
  heap : s.heap = .empty
  traces : ∀ handle ∈ s.traces, handle = none
  opened : s.opened = []
  recorders : ∀ v ∈ s.recorders, v.handle = .null
  workers : ∀ worker ∈ s.workers, worker = ⟨none, false⟩

def system (supported : Bool) : System State (Event × Effect) where
  start := Initial
  step := Step supported

def history (n : ℕ) (labels : List (Event × Effect)) : List Trace.Event :=
  labels.filterMap fun label => label.2.bind fun effect =>
    if effect.1 = n then some effect.2 else none

end Liblor.Trace.Program
