import Liblor.Growth
import Liblor.HeapObjects
import Liblor.Transition

/-!
# The task group of `concurrency.c`

One thread owns the handle of a group and makes the calls on it; each task has a thread of its own.
What a call of the owner does between two joins is one step, since a task reads nothing of the group
but `cancelled`. The objects on the heap are the groups and their arrays of threads, by the number
of the group, and for each task the `LorConcurrencyTaskStart` that its thread is given and the
`LorConcurrencyThreadImpl` behind its handle.
-/

namespace Liblor.TaskGroup

open HeapObjects Transition

def ptrdiffMax : ℕ := 2 ^ 63 - 1

def threadSize : ℕ := 8

inductive Object where
  | group (n : ℕ)
  | threads (n : ℕ)
  | start (i : ℕ)
  | thread (i : ℕ)
  deriving DecidableEq, Repr

/-- `LorConcurrencyTaskGroupImpl` with the `count` handles in its array. A handle is `NULL` or the
number of a task. -/
structure Group where
  threads : List (Option ℕ)
  capacity : ℕ
  cancelled : Bool
  accepting : Bool
  waited : Bool
  deriving DecidableEq, Repr

inductive Phase where
  | created
  | running
  | exited
  deriving DecidableEq, Repr

structure Task where
  group : ℕ
  phase : Phase
  deriving DecidableEq, Repr

/-- Where the owner is: in the loop of `lor_task_group_wait`, before the handle `i` and with this
result, the call being `lor_task_group_deinit` or not. -/
inductive Owner where
  | idle
  | waiting (i : ℕ) (result : Status) (deinit : Bool)
  deriving DecidableEq, Repr

/-- The handle is `NULL` or holds a group, whose number is that of the groups made before it. The
tasks are those that there have ever been. -/
structure State where
  heap : Heap Object
  handle : Option (ℕ × Group)
  made : ℕ
  tasks : List Task
  owner : Owner

structure SpawnOs where
  realloc : ℕ → Bool
  mallocStart : Bool
  callocThread : Bool
  pthreadCreate : Bool

def SpawnOs.Legal (os : SpawnOs) : Prop := ∀ size, os.realloc size = true → size ≤ ptrdiffMax

def State.setPhase (s : State) (i : ℕ) (phase : Phase) : State :=
  { s with tasks := s.tasks.modify i fun task => { task with phase := phase } }

/-! ## The calls of the owner -/

def freshGroup : Group := ⟨[], 0, false, true, false⟩

def init (calloc : Bool) (s : State) : Status × State :=
  if s.handle.isSome then (.invalidArgument, s)
  else if calloc = false then (.outOfMemory, s)
  else
    (.ok, { s with
      heap := s.heap.allocate (.group s.made)
      handle := some (s.made, freshGroup)
      made := s.made + 1 })

/-- `lor_concurrency__task_group_reserve`: the status, the group and the heap. `none` means that the
loop has not stopped. -/
def reserve (os : SpawnOs) (n : ℕ) (group : Group) (heap : Heap Object) (capacity : ℕ) :
    Option (Status × Group × Heap Object) :=
  if capacity ≤ group.capacity then some (.ok, group, heap)
  else if capacity > sizeMax / threadSize then some (.overflow, group, heap)
  else
    (growthLoop capacity 64 (if group.capacity = 0 then 4 else group.capacity)).map fun grown =>
      if os.realloc (grown * threadSize % 2 ^ 64) = false then (.outOfMemory, group, heap)
      else
        let heap := if group.capacity = 0 then heap else heap.release (.threads n)
        (.ok, { group with capacity := grown }, heap.allocate (.threads n))

/-- `lor_thread_start` for the task `i` on an empty handle: the status and the heap. -/
def threadStart (os : SpawnOs) (i : ℕ) (heap : Heap Object) : Status × Heap Object :=
  if os.callocThread = false then (.outOfMemory, heap)
  else
    let heap := heap.allocate (.thread i)
    if os.pthreadCreate = false then (.systemError, heap.release (.thread i)) else (.ok, heap)

/-- `lor_task_group_spawn` behind the growing of the array. -/
def spawnReserved (os : SpawnOs) (n : ℕ) (group : Group) (s : State) : Status × State :=
  let i := s.tasks.length
  if os.mallocStart = false then (.outOfMemory, { s with handle := some (n, group) })
  else
    match threadStart os i (s.heap.allocate (.start i)) with
    | (.ok, heap) =>
      (.ok, { s with
        heap := heap.access (.threads n)
        handle := some (n, { group with threads := group.threads ++ [some i] })
        tasks := s.tasks ++ [⟨n, .created⟩] })
    | (status, heap) =>
      (status, { s with heap := heap.release (.start i), handle := some (n, group) })

def spawn (os : SpawnOs) (function : Bool) (s : State) : Option (Status × State) :=
  match s.handle with
  | none => some (.invalidArgument, s)
  | some (n, group) =>
    if function = false then some (.invalidArgument, s)
    else
      let heap := s.heap.access (.group n)
      if group.accepting = false ∨ group.cancelled then some (.closed, { s with heap := heap })
      else
        (reserve os n group heap (group.threads.length + 1)).map fun (status, group, heap) =>
          let s := { s with heap := heap }
          if status ≠ .ok then (status, s) else spawnReserved os n group s

def cancel (s : State) : State :=
  match s.handle with
  | none => s
  | some (n, group) =>
    { s with
      heap := s.heap.access (.group n)
      handle := some (n, { group with accepting := false, cancelled := true }) }

def cancelled (s : State) : Bool × State :=
  match s.handle with
  | none => (true, s)
  | some (n, group) => (group.cancelled, { s with heap := s.heap.access (.group n) })

def free (n : ℕ) (group : Group) (s : State) : State :=
  if group.waited = false then s
  else
    let heap := if group.capacity = 0 then s.heap else s.heap.release (.threads n)
    { s with heap := heap.release (.group n), handle := none }

/-- `lor_task_group_wait` up to its loop, called by `lor_task_group_deinit` or not, which returns
nothing. The status is `none` if it goes on to the loop. -/
def waitBegin (deinit : Bool) (s : State) : Option Status × State :=
  let s := if deinit then cancel s else s
  match s.handle with
  | none => (some (if deinit then .ok else .invalidArgument), s)
  | some (n, group) =>
    let group := { group with accepting := false }
    let s := { s with heap := s.heap.access (.group n), handle := some (n, group) }
    if group.waited then (some .ok, if deinit then free n group s else s)
    else (none, { s with owner := .waiting 0 .ok deinit })

/-- A round of the loop, in which `lor_thread_join` succeeds or not. -/
def joinRound (joined : Bool) (n : ℕ) (group : Group) (i : ℕ) (result : Status) (deinit : Bool)
    (s : State) : State :=
  let heap := (s.heap.access (.group n)).access (.threads n)
  match group.threads.getD i none with
  | none => { s with heap := heap, owner := .waiting (i + 1) result deinit }
  | some t =>
    let heap := heap.access (.thread t)
    if joined then
      { s with
        heap := heap.release (.thread t)
        handle := some (n, { group with threads := group.threads.set i none })
        owner := .waiting (i + 1) result deinit }
    else
      { s with
        heap := heap
        owner := .waiting (i + 1) (if result = .ok then .systemError else result) deinit }

/-- `lor_task_group_wait` behind its loop, and what follows in `lor_task_group_deinit`. -/
def waitEnd (n : ℕ) (group : Group) (deinit : Bool) (s : State) : State :=
  let group := { group with waited := group.threads.all Option.isNone }
  let heap := s.heap.access (.group n)
  let s := { s with
    heap := if group.threads.isEmpty then heap else heap.access (.threads n)
    handle := some (n, group)
    owner := .idle }
  if deinit then free n group s else s

/-! ## The tasks -/

/-- The start of a thread: the entry functions read both of its objects and free the one. -/
def taskStart (i : ℕ) (s : State) : State :=
  { s.setPhase i .running with
    heap := ((s.heap.access (.thread i)).access (.start i)).release (.start i) }

/-- `lor_task_cancelled` in a task of the group `n`. Another group behind the handle would mean that
this one has been freed. -/
def taskPoll (n : ℕ) (s : State) : Bool × State :=
  (s.handle.any fun (m, group) => m == n && group.cancelled,
    { s with heap := s.heap.access (.group n) })

def taskExit (i : ℕ) (s : State) : State :=
  { s.setPhase i .exited with heap := s.heap.access (.thread i) }

/-! ## Runs -/

/-- Calls with what they return: of a wait `none` while it is going on. -/
inductive Event where
  | init (calloc : Bool) (status : Status)
  | spawn (os : SpawnOs) (function : Bool) (status : Status)
  | cancel
  | cancelled (answer : Bool)
  | wait (deinit : Bool) (status : Option Status)
  | join (joined : Bool)
  | waited (deinit : Bool) (status : Status)
  | start (i : ℕ)
  | poll (i : ℕ) (answer : Bool)
  | exit (i : ℕ)

/-- `pthread_join` succeeds only if the thread has terminated. -/
def Joinable (s : State) (group : Group) (i : ℕ) : Prop :=
  ∀ t, group.threads[i]? = some (some t) → ∃ n, s.tasks[t]? = some ⟨n, .exited⟩

inductive Step : State → Event → State → Prop where
  | init {s : State} (calloc : Bool) (hidle : s.owner = .idle) :
      Step s (.init calloc (init calloc s).1) (init calloc s).2
  | spawn {s s' : State} {os : SpawnOs} {function : Bool} {status : Status}
      (hidle : s.owner = .idle) (hlegal : os.Legal) (h : spawn os function s = some (status, s')) :
      Step s (.spawn os function status) s'
  | cancel {s : State} (hidle : s.owner = .idle) : Step s .cancel (cancel s)
  | cancelled {s : State} (hidle : s.owner = .idle) :
      Step s (.cancelled (cancelled s).1) (cancelled s).2
  | wait {s : State} (deinit : Bool) (hidle : s.owner = .idle) :
      Step s (.wait deinit (waitBegin deinit s).1) (waitBegin deinit s).2
  | join {s : State} {n i : ℕ} {result : Status} {deinit joined : Bool} {group : Group}
      (howner : s.owner = .waiting i result deinit) (hhandle : s.handle = some (n, group))
      (hlt : i < group.threads.length) (hjoin : joined = true → Joinable s group i) :
      Step s (.join joined) (joinRound joined n group i result deinit s)
  | waited {s : State} {n i : ℕ} {result : Status} {deinit : Bool} {group : Group}
      (howner : s.owner = .waiting i result deinit) (hhandle : s.handle = some (n, group))
      (hge : group.threads.length ≤ i) :
      Step s (.waited deinit result) (waitEnd n group deinit s)
  | start {s : State} {i n : ℕ} (h : s.tasks[i]? = some ⟨n, .created⟩) :
      Step s (.start i) (taskStart i s)
  | poll {s : State} {i n : ℕ} (h : s.tasks[i]? = some ⟨n, .running⟩) :
      Step s (.poll i (taskPoll n s).1) (taskPoll n s).2
  | exit {s : State} {i n : ℕ} (h : s.tasks[i]? = some ⟨n, .running⟩) :
      Step s (.exit i) (taskExit i s)

def system : System State Event where
  start s := s = ⟨.empty, none, 0, [], .idle⟩
  step := Step

end Liblor.TaskGroup
