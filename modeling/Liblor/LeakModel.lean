import Liblor.ArenaModel
import Liblor.DoublyLinked

/-!
# Leak checking in `memory.c`

The functions of a build with `LOR_LEAKCHECK`. Pointers are addresses, zero is `NULL`. The call
sites that a record also carries are left out: only the printed report reads them. What the
system answers to an allocation is an argument of the function that asks for it. A loop over the
records gets as many steps as records are allocated, and answers nothing if it is not done by then.
Of mapping a file the branch for systems other than Windows is modelled.
-/

namespace Liblor.Leak

inductive LorLeakKind where
  | heap
  | arena
  | mmap
  deriving DecidableEq, Repr

/-- A record without its links. -/
structure LorLeakRecord where
  kind : LorLeakKind
  ptr : ℕ
  size : ℕ
  deriving DecidableEq, Repr

/-- `lor_memory__leaks` with the records in memory, and the addresses at which a record is
allocated. -/
structure Table where
  leaks : DoublyLinked.Store LorLeakRecord
  allocated : List ℕ

def insert (table : Table) (record : ℕ) (value : LorLeakRecord) : Table :=
  { table with leaks := table.leaks.pushFront record value }

def remove (table : Table) (record : ℕ) : Table where
  leaks := table.leaks.unlink record
  allocated := table.allocated.erase record

def isFor (ptr : ℕ) (kind : LorLeakKind) (record : LorLeakRecord) : Bool :=
  record.ptr == ptr && record.kind == kind

def find (table : Table) (ptr : ℕ) (kind : LorLeakKind) : Option ℕ :=
  table.leaks.search (isFor ptr kind) table.allocated.length table.leaks.head

/-- `node` is where the system puts the record. -/
def track (table : Table) (kind : LorLeakKind) (ptr size node : ℕ) : Table :=
  if ptr = 0 then table
  else if node = 0 then table
  else insert { table with allocated := node :: table.allocated } node ⟨kind, ptr, size⟩

def untrack (table : Table) (kind : LorLeakKind) (ptr : ℕ) : Option Table :=
  match find table ptr kind with
  | none => none
  | some record => if record ≠ 0 then some (remove table record) else some table

structure LorLeakStats where
  heapCount : ℕ
  heapBytes : ℕ
  arenaCount : ℕ
  mmapCount : ℕ
  mmapBytes : ℕ
  deriving DecidableEq, Repr

/-- The body of the loop of `lor_leakcheck_stats`. -/
def countRecord (stats : LorLeakStats) (record : LorLeakRecord) : LorLeakStats :=
  match record.kind with
  | .heap => { stats with
      heapCount := stats.heapCount + 1
      heapBytes := stats.heapBytes + record.size }
  | .arena => { stats with arenaCount := stats.arenaCount + 1 }
  | .mmap => { stats with
      mmapCount := stats.mmapCount + 1
      mmapBytes := stats.mmapBytes + record.size }

def leakcheckStats (table : Table) : Option LorLeakStats :=
  table.leaks.fold countRecord table.allocated.length table.leaks.head ⟨0, 0, 0, 0, 0⟩

def LorLeakStats.total (stats : LorLeakStats) : ℕ :=
  stats.heapCount + stats.arenaCount + stats.mmapCount

def leakcheckCount (table : Table) : Option ℕ := (leakcheckStats table).map LorLeakStats.total

/-- The record table, what the system has handed out and not got back, and the arena objects in
memory that are not `LOR_ARENA_INIT`. An arena whose object went away with its storage, and that
was never deinitialized, is kept with the last address of the object. -/
structure World where
  table : Table
  heap : List (ℕ × ℕ)
  maps : List (ℕ × ℕ)
  arenas : List (ℕ × Arena.LorArena)
  lost : List ℕ

def start : World := ⟨⟨⟨0, fun _ => ⟨0, 0, ⟨.heap, 0, 0⟩⟩⟩, []⟩, [], [], [], []⟩

section Memory

variable (arenaSize : ℕ)

def blockSize (world : World) (ptr : ℕ) : ℕ := (world.heap.lookup ptr).getD 0

/-- The arena object starts in the bytes from an address on. -/
def Inside (place size arena : ℕ) : Prop := place ≤ arena ∧ arena < place + size

instance (place size arena : ℕ) : Decidable (Inside place size arena) :=
  inferInstanceAs (Decidable (_ ∧ _))

/-- The storage of some arena objects goes away. -/
def abandon (world : World) (gone : ℕ → Bool) : World :=
  { world with
    arenas := world.arenas.filter fun x => !gone x.1
    lost := (world.arenas.filter fun x => gone x.1).map Prod.fst ++ world.lost }

/-- The arena object lies in what a reallocation keeps of the block. -/
def Kept (world : World) (ptr size arena : ℕ) : Prop :=
  ptr ≤ arena ∧ arena + arenaSize ≤ ptr + min (blockSize world ptr) size

instance (world : World) (ptr size arena : ℕ) : Decidable (Kept arenaSize world ptr size arena) :=
  inferInstanceAs (Decidable (_ ∧ _))

/-- Where the object lies after the block at `ptr` became one of `size` bytes at `answer`. -/
def carried (world : World) (ptr size answer arena : ℕ) : ℕ :=
  if Kept arenaSize world ptr size arena then answer + (arena - ptr) else arena

def rawMalloc (world : World) (size answer : ℕ) : World :=
  if answer = 0 then world else { world with heap := (answer, size) :: world.heap }

def rawFree (world : World) (ptr : ℕ) : World :=
  { abandon world fun arena => Inside ptr (blockSize world ptr) arena with
    heap := world.heap.erase (ptr, blockSize world ptr) }

def rawRealloc (world : World) (ptr size answer : ℕ) : World :=
  if answer = 0 then world
  else
    let kept := abandon world fun arena =>
      Inside ptr (blockSize world ptr) arena ∧ ¬Kept arenaSize world ptr size arena
    { kept with
      heap := (answer, size) :: world.heap.erase (ptr, blockSize world ptr)
      arenas := kept.arenas.map fun x => (carried arenaSize world ptr size answer x.1, x.2) }

end Memory

section Heap

variable (arenaSize : ℕ)

def mallocDebug (world : World) (size answer node : ℕ) : ℕ × World :=
  if size = 0 then (0, world)
  else
    let world := rawMalloc world size answer
    (answer, { world with table := track world.table .heap answer size node })

def callocDebug (world : World) (count elemSize answer node : ℕ) : ℕ × World :=
  if count = 0 ∨ elemSize = 0 ∨ Arena.mulOverflowsSize count elemSize then (0, world)
  else
    let world := rawMalloc world (count * elemSize) answer
    (answer, { world with table := track world.table .heap answer (count * elemSize) node })

def freeDebug (world : World) (ptr : ℕ) : Option World :=
  if ptr = 0 then some world
  else
    match untrack world.table .heap ptr with
    | none => none
    | some table => some (rawFree { world with table := table } ptr)

def reallocDebug (world : World) (ptr size answer node : ℕ) : Option (ℕ × World) :=
  if ptr = 0 then some (mallocDebug world size answer node)
  else if size = 0 then (freeDebug world ptr).map fun world => (0, world)
  else
    match find world.table ptr .heap with
    | none => none
    | some record =>
      let world := rawRealloc arenaSize world ptr size answer
      if answer = 0 then some (0, world)
      else if record ≠ 0 then
        let leaks := world.table.leaks.setValue record
          { (world.table.leaks.cell record).value with ptr := answer, size := size }
        some (answer, { world with table := { world.table with leaks := leaks } })
      else some (answer, { world with table := track world.table .heap answer size node })

/-- `text` is the string without its terminator; `none` is `NULL`. -/
def strdupDebug (world : World) (text : Option Bytes) (answer node : ℕ) : ℕ × World :=
  match text with
  | none => (0, world)
  | some text =>
    if text.length = sizeMax then (0, world)
    else mallocDebug world (text.length + 1) answer node

end Heap

section Arenas

variable (platform : Arena.Platform)

/-- The arena object at an address. -/
def arenaAt (world : World) (arena : ℕ) : Arena.LorArena :=
  (world.arenas.lookup arena).getD Arena.arenaInit

def setArena (world : World) (arena : ℕ) (value : Arena.LorArena) : World :=
  let others := world.arenas.eraseP fun x => x.1 == arena
  { world with arenas := if value = Arena.arenaInit then others else (arena, value) :: others }

def initInternal (world : World) (arena : ℕ) (config : Arena.Config) (trackLeakcheck : Bool)
    (node : ℕ) : Bool × World :=
  if arena = 0 then (false, world)
  else
    match Arena.initInternal platform (arenaAt world arena) config with
    | (false, value) => (false, setArena world arena value)
    | (true, value) =>
      let world := setArena world arena value
      if trackLeakcheck then
        (true, { world with table := track world.table .arena arena 0 node })
      else (true, world)

def arenaInitConfig (world : World) (arena : ℕ) (config : Arena.Config) (node : ℕ) :
    Bool × World :=
  initInternal platform world arena config true node

/-- The blocks of an arena are released, with the other arena objects that lie in them. -/
def freeBlocks (world : World) (arena : ℕ) : World :=
  abandon world fun other => other ≠ arena ∧
    ∃ block ∈ (arenaAt world arena).blocks, Inside block.address block.allocationSize other

def arenaDeinit (world : World) (arena : ℕ) : Option World :=
  if arena = 0 then some world
  else
    let value := Arena.deinit (arenaAt world arena)
    let world := freeBlocks world arena
    match untrack world.table .arena arena with
    | none => none
    | some table => some (setArena { world with table := table } arena value)

/-- The arena has its configuration. -/
def allocReady (os : Arena.Os) (world : World) (arena size alignment : ℕ) : Option ℕ × World :=
  match Arena.allocReady platform os (arenaAt world arena) size alignment with
  | (result, value) => (result, setArena world arena value)

def allocAligned (os : Arena.Os) (world : World) (arena size alignment node : ℕ) :
    Option ℕ × World :=
  if arena = 0 ∨ size = 0 ∨ Arena.isPowerOfTwo alignment = false then (none, world)
  else if (arenaAt world arena).blockSize = 0 ∧ (arenaAt world arena).reserveSize = 0 then
    match initInternal platform world arena ⟨.heap, 0, 0, 0⟩ true node with
    | (false, world) => (none, world)
    | (true, world) => allocReady platform os world arena size alignment
  else allocReady platform os world arena size alignment

def arenaAlloc (os : Arena.Os) (world : World) (arena size node : ℕ) : Option ℕ × World :=
  allocAligned platform os world arena size platform.maxAlignment node

def arenaAllocZero (os : Arena.Os) (world : World) (arena size node : ℕ) : Option ℕ × World :=
  allocAligned platform os world arena size platform.maxAlignment node

def arenaAllocArray (os : Arena.Os) (world : World) (arena count elemSize node : ℕ) :
    Option ℕ × World :=
  if count = 0 ∨ elemSize = 0 ∨ Arena.mulOverflowsSize count elemSize then (none, world)
  else arenaAlloc platform os world arena (count * elemSize) node

def arenaAllocArrayZero (os : Arena.Os) (world : World) (arena count elemSize node : ℕ) :
    Option ℕ × World :=
  if count = 0 ∨ elemSize = 0 ∨ Arena.mulOverflowsSize count elemSize then (none, world)
  else arenaAllocZero platform os world arena (count * elemSize) node

def arenaStrdup (os : Arena.Os) (world : World) (arena : ℕ) (text : Option Bytes) (node : ℕ) :
    Option ℕ × World :=
  match text with
  | none => (none, world)
  | some text =>
    if text.length = sizeMax then (none, world)
    else allocAligned platform os world arena (text.length + 1) platform.maxAlignment node

def arenaRequest (os : Arena.Os) (world : World) (arena : ℕ) (request : Arena.Request)
    (node : ℕ) : Option ℕ × World :=
  match request with
  | .alloc size => arenaAlloc platform os world arena size node
  | .allocZero size => arenaAllocZero platform os world arena size node
  | .allocArray count elemSize => arenaAllocArray platform os world arena count elemSize node
  | .allocArrayZero count elemSize =>
    arenaAllocArrayZero platform os world arena count elemSize node
  | .strdup text => arenaStrdup platform os world arena text node

end Arenas

section Maps

structure LorMmap where
  data : ℕ
  size : ℕ
  deriving DecidableEq, Repr

/-- `LorMmapMode`, with the values outside the enumeration that a C program can pass. -/
inductive LorMmapMode where
  | read
  | copy
  | shared
  | other (value : ℕ)
  deriving DecidableEq, Repr

/-- What the system answers while a file is mapped: whether it opens, the size that `fstat` gives
and the address that `mmap` gives, where these do not fail. -/
structure MmapOs where
  opens : Bool
  fstat : Option ℤ
  mmap : Option ℕ
  deriving DecidableEq, Repr

def mmapModeValid : LorMmapMode → Bool
  | .read => true
  | .copy => true
  | .shared => true
  | .other _ => false

def mmapFileAt (world : World) (path : Option Bytes) (mode : LorMmapMode) (os : MmapOs)
    (node : ℕ) : LorMmap × World :=
  if path = none ∨ mmapModeValid mode = false then (⟨0, 0⟩, world)
  else if os.opens = false then (⟨0, 0⟩, world)
  else
    match os.fstat with
    | none => (⟨0, 0⟩, world)
    | some stSize =>
      if stSize ≤ 0 then (⟨0, 0⟩, world)
      else if stSize.toNat > sizeMax then (⟨0, 0⟩, world)
      else
        match os.mmap with
        | none => (⟨0, 0⟩, world)
        | some data =>
          (⟨data, stSize.toNat⟩, { world with
            maps := (data, stSize.toNat) :: world.maps
            table := track world.table .mmap data stSize.toNat node })

/-- The mapping of the caller and the world after the call. -/
def mmapUnmap (world : World) (map : Option LorMmap) : Option (Option LorMmap × World) :=
  match map with
  | none => some (none, world)
  | some map =>
    if map.data = 0 then some (some map, world)
    else
      match untrack world.table .mmap map.data with
      | none => none
      | some table =>
        some (some ⟨0, 0⟩, { abandon world fun arena => Inside map.data map.size arena with
          table := table
          maps := world.maps.erase (map.data, map.size) })

end Maps

/-- A call of the program, with what the system answers during it. `leave` is none: storage of the
program's own, such as that of a function which returns, goes away with the arena objects in it. -/
inductive Call where
  | malloc (size answer node : ℕ)
  | calloc (count elemSize answer node : ℕ)
  | realloc (ptr size answer node : ℕ)
  | free (ptr : ℕ)
  | strdup (text : Option Bytes) (answer node : ℕ)
  | arenaInit (arena : ℕ) (config : Arena.Config) (node : ℕ)
  | arenaAlloc (os : Arena.Os) (arena : ℕ) (request : Arena.Request) (node : ℕ)
  | arenaDeinit (arena : ℕ)
  | mmapFile (path : Option Bytes) (mode : LorMmapMode) (os : MmapOs) (node : ℕ)
  | mmapUnmap (map : Option LorMmap)
  | leave (place size : ℕ)

/-- The world after a call; `none` if a loop of the call does not end. -/
def step (platform : Arena.Platform) (arenaSize : ℕ) (world : World) : Call → Option World
  | .malloc size answer node => some (mallocDebug world size answer node).2
  | .calloc count elemSize answer node => some (callocDebug world count elemSize answer node).2
  | .realloc ptr size answer node =>
    (reallocDebug arenaSize world ptr size answer node).map Prod.snd
  | .free ptr => freeDebug world ptr
  | .strdup text answer node => some (strdupDebug world text answer node).2
  | .arenaInit arena config node => some (arenaInitConfig platform world arena config node).2
  | .arenaAlloc os arena request node => some (arenaRequest platform os world arena request node).2
  | .arenaDeinit arena => arenaDeinit world arena
  | .mmapFile path mode os node => some (mmapFileAt world path mode os node).2
  | .mmapUnmap map => (mmapUnmap world map).map Prod.snd
  | .leave place size => some (abandon world fun arena => Inside place size arena)

end Liblor.Leak
