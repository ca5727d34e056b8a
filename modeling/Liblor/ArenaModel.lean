import Liblor.Machine

/-!
# The arena of `memory.c`

A block is given by its header fields and by the address that the system returned for it; the bytes
behind it are not modelled, an allocation is an address. The chain of blocks is a list with the
newest block first. `none` is the `NULL` that an allocation returns.
-/

namespace Liblor.Arena

/-- What the target fixes: `LOR_ARENA_MAX_ALIGNMENT`, `offsetof(LorArenaBlock, data)` and
`lor_page_size()`. -/
structure Platform where
  maxAlignment : ℕ
  dataOffset : ℕ
  pageSize : ℕ
  maxAlignment_pow : ∃ k, maxAlignment = 2 ^ k
  slack_le : dataOffset + maxAlignment ≤ sizeMax
  pageSize_le : pageSize ≤ sizeMax

/-- What the system answers while one function runs: to `malloc`, to reserving address space and to
committing a range. -/
structure Os where
  malloc : ℕ → Option ℕ
  reserveRaw : ℕ → Option ℕ
  commitRaw : ℕ → ℕ → Bool

/-- `LorArenaBackend`, with the values outside the enumeration that a C program can pass. -/
inductive Backend where
  | heap
  | virtual
  | other (value : ℕ)
  deriving DecidableEq, Repr

structure Config where
  backend : Backend
  blockSize : ℕ
  reserveSize : ℕ
  commitSize : ℕ
  deriving DecidableEq, Repr

structure Block where
  address : ℕ
  capacity : ℕ
  committed : ℕ
  used : ℕ
  allocationSize : ℕ
  deriving DecidableEq, Repr

structure LorArena where
  blocks : List Block
  backend : Backend
  blockSize : ℕ
  reserveSize : ℕ
  commitSize : ℕ
  deriving DecidableEq, Repr

structure Mark where
  block : Option ℕ
  used : ℕ
  deriving DecidableEq, Repr

/-- `LOR_ARENA_INIT`. -/
def arenaInit : LorArena := ⟨[], .heap, 0, 0, 0⟩

/-- `LOR_ARENA_MARK_INIT`. -/
def markInit : Mark := ⟨none, 0⟩

def defaultBlockSize : ℕ := 64 * 2 ^ 10

def defaultReserveSize : ℕ := 64 * 2 ^ 20

def defaultCommitSize : ℕ := 64 * 2 ^ 10

def addOverflowsSize (a b : ℕ) : Bool := decide (a > sizeMax - b)

def mulOverflowsSize (a b : ℕ) : Bool := b != 0 && decide (a > sizeMax / b)

def isPowerOfTwo (value : ℕ) : Bool := value != 0 && (value &&& (value - 1)) == 0

/-- `(value + mask) & ~mask`, where the bits that are cleared are subtracted. -/
def alignUp (value alignment : ℕ) : ℕ :=
  value + (alignment - 1) - ((value + (alignment - 1)) &&& (alignment - 1))

def alignForward (value alignment : ℕ) : Option ℕ :=
  if value > uintptrMax - (alignment - 1) then none else some (alignUp value alignment)

section Platform

variable (platform : Platform)

def pageAlign (size : ℕ) : ℕ :=
  if platform.pageSize = 0 then size
  else if addOverflowsSize size (platform.pageSize - 1) then 0
  else alignUp size platform.pageSize

def blockData (block : Block) : Option ℕ :=
  alignForward (block.address + platform.dataOffset) platform.maxAlignment

def blockHeaderSlack : ℕ := platform.dataOffset + platform.maxAlignment - 1

def heapBlockNew (os : Os) (capacity : ℕ) : Option Block :=
  let slack := blockHeaderSlack platform
  if addOverflowsSize capacity slack then none
  else
    let allocationSize := capacity + slack
    match os.malloc allocationSize with
    | none => none
    | some address => some ⟨address, capacity, capacity, 0, allocationSize⟩

/-- The reservation that a virtual block asks for; zero when it does not fit `size_t`. -/
def virtualReserve (reserveSize minReserve : ℕ) : ℕ :=
  pageAlign platform (if reserveSize < minReserve then minReserve else reserveSize)

/-- The bytes that a virtual block commits at once. -/
def virtualCommit (reserveSize commitSize minReserve : ℕ) : ℕ :=
  let slack := blockHeaderSlack platform
  let commitSize := if commitSize < slack then slack else commitSize
  let commitSize :=
    if commitSize < minReserve ∧ minReserve < defaultCommitSize then minReserve else commitSize
  let commitSize := pageAlign platform commitSize
  if commitSize > reserveSize then reserveSize else commitSize

def virtualBlockNew (os : Os) (reserveSize commitSize minCapacity : ℕ) : Option Block :=
  let slack := blockHeaderSlack platform
  if addOverflowsSize minCapacity slack then none
  else
    let minReserve := minCapacity + slack
    let reserveSize := virtualReserve platform reserveSize minReserve
    if reserveSize = 0 then none
    else
      let commitSize := virtualCommit platform reserveSize commitSize minReserve
      match os.reserveRaw reserveSize with
      | none => none
      | some address =>
        if commitSize ≠ 0 ∧ os.commitRaw address commitSize = false then none
        else
          let block : Block := ⟨address, 0, commitSize, 0, reserveSize⟩
          match blockData platform block with
          | none => none
          | some data => some { block with capacity := reserveSize - (data - address) }

/-- The block with enough committed bytes; `none` where the source returns zero. -/
def blockEnsureCommitted (os : Os) (block : Block) (neededUsed commitSize : ℕ) : Option Block :=
  match blockData platform block with
  | none => none
  | some data =>
    if neededUsed > block.capacity then none
    else
      let dataOffset := data - block.address
      if addOverflowsSize dataOffset neededUsed then none
      else
        let neededTotal := dataOffset + neededUsed
        if neededTotal ≤ block.committed then some block
        else if commitSize ≠ 0 ∧ addOverflowsSize neededTotal (commitSize - 1) then none
        else
          let newCommitted := if commitSize ≠ 0 then alignUp neededTotal commitSize else neededTotal
          let newCommitted :=
            if newCommitted > block.allocationSize then block.allocationSize else newCommitted
          if os.commitRaw (block.address + block.committed) (newCommitted - block.committed) then
            some { block with committed := newCommitted }
          else none

/-- The address of the allocation and the block after it. A call that returns `NULL` leaves the
block as it was. -/
def blockAlloc (os : Os) (arena : LorArena) (block : Block) (size alignment : ℕ) :
    Option (ℕ × Block) :=
  match blockData platform block with
  | none => none
  | some data =>
    if block.used > block.capacity then none
    else
      let current := data + block.used
      match alignForward current alignment with
      | none => none
      | some aligned =>
        let padding := aligned - current
        if padding > block.capacity - block.used then none
        else if size > block.capacity - block.used - padding then none
        else
          let newUsed := block.used + padding + size
          if arena.backend = .virtual then
            match blockEnsureCommitted platform os block newUsed arena.commitSize with
            | none => none
            | some block => some (aligned, { block with used := newUsed })
          else some (aligned, { block with used := newUsed })

def blockNew (os : Os) (arena : LorArena) (minCapacity : ℕ) : Option Block :=
  if arena.backend = .virtual then
    virtualBlockNew platform os arena.reserveSize arena.commitSize minCapacity
  else if arena.blockSize < minCapacity then heapBlockNew platform os minCapacity
  else heapBlockNew platform os arena.blockSize

/-- The fields that a configuration asks for; a zero asks for the default. -/
def configured (config : Config) : LorArena where
  blocks := []
  backend := config.backend
  blockSize := if config.blockSize ≠ 0 then config.blockSize else defaultBlockSize
  reserveSize := if config.reserveSize ≠ 0 then config.reserveSize else defaultReserveSize
  commitSize := if config.commitSize ≠ 0 then config.commitSize else defaultCommitSize

/-- The result code and the arena. -/
def initInternal (arena : LorArena) (config : Config) : Bool × LorArena :=
  if arena ≠ arenaInit then (false, arena)
  else
    let arena := configured config
    if arena.backend ≠ .heap ∧ arena.backend ≠ .virtual then (false, arenaInit)
    else if arena.backend = .virtual then
      let arena := { arena with
        reserveSize := pageAlign platform arena.reserveSize
        commitSize := pageAlign platform arena.commitSize }
      if arena.reserveSize = 0 ∨ arena.commitSize = 0 then (false, arenaInit) else (true, arena)
    else (true, arena)

def initConfig (arena : LorArena) (config : Config) : Bool × LorArena :=
  initInternal platform arena config

end Platform

/-- Every block is released. -/
def deinit (_arena : LorArena) : LorArena := arenaInit

def clearUsed (block : Block) : Block := { block with used := 0 }

def reset (arena : LorArena) : LorArena :=
  { arena with blocks := arena.blocks.map clearUsed }

def mark (arena : LorArena) : Mark :=
  match arena.blocks with
  | [] => ⟨none, 0⟩
  | block :: _ => ⟨some block.address, block.used⟩

def hasBlock (arena : LorArena) (target : ℕ) : Bool :=
  arena.blocks.any fun block => block.address == target

/-- The arena after `lor_arena_rewind`; where an assertion fails the source goes on to return. -/
def rewind (arena : LorArena) (mark : Mark) : LorArena :=
  match mark.block with
  | none => { arena with blocks := arena.blocks.map clearUsed }
  | some target =>
    if hasBlock arena target = false then arena
    else
      match arena.blocks.dropWhile fun block => block.address != target with
      | [] => { arena with blocks := [] }
      | block :: older =>
        if mark.used > block.used then { arena with blocks := block :: older }
        else { arena with blocks := { block with used := mark.used } :: older }

section Platform

variable (platform : Platform)

/-- The second half of `lor_arena__alloc_aligned`: the newest block has no room. -/
def allocFresh (os : Os) (arena : LorArena) (size alignment : ℕ) : Option ℕ × LorArena :=
  if alignment > 1 ∧ addOverflowsSize size (alignment - 1) then (none, arena)
  else
    let minCapacity := if alignment > 1 then size + (alignment - 1) else size
    match blockNew platform os arena minCapacity with
    | none => (none, arena)
    | some block =>
      match blockAlloc platform os arena block size alignment with
      | none => (none, { arena with blocks := block :: arena.blocks })
      | some (p, block) => (some p, { arena with blocks := block :: arena.blocks })

/-- `lor_arena__alloc_aligned` once the arena is initialized. -/
def allocReady (os : Os) (arena : LorArena) (size alignment : ℕ) : Option ℕ × LorArena :=
  match arena.blocks with
  | [] => allocFresh platform os arena size alignment
  | block :: older =>
    match blockAlloc platform os arena block size alignment with
    | some (p, block) => (some p, { arena with blocks := block :: older })
    | none => allocFresh platform os arena size alignment

def allocAligned (os : Os) (arena : LorArena) (size alignment : ℕ) : Option ℕ × LorArena :=
  if size = 0 ∨ isPowerOfTwo alignment = false then (none, arena)
  else if arena.blockSize = 0 ∧ arena.reserveSize = 0 then
    match initInternal platform arena ⟨.heap, 0, 0, 0⟩ with
    | (false, arena) => (none, arena)
    | (true, arena) => allocReady platform os arena size alignment
  else allocReady platform os arena size alignment

def alloc (os : Os) (arena : LorArena) (size : ℕ) : Option ℕ × LorArena :=
  allocAligned platform os arena size platform.maxAlignment

def allocZero (os : Os) (arena : LorArena) (size : ℕ) : Option ℕ × LorArena :=
  allocAligned platform os arena size platform.maxAlignment

def allocArray (os : Os) (arena : LorArena) (count elemSize : ℕ) : Option ℕ × LorArena :=
  if count = 0 ∨ elemSize = 0 ∨ mulOverflowsSize count elemSize then (none, arena)
  else alloc platform os arena (count * elemSize)

def allocArrayZero (os : Os) (arena : LorArena) (count elemSize : ℕ) : Option ℕ × LorArena :=
  if count = 0 ∨ elemSize = 0 ∨ mulOverflowsSize count elemSize then (none, arena)
  else allocZero platform os arena (count * elemSize)

/-- `text` is the string without its terminator; `none` is `NULL`. -/
def strdup (os : Os) (arena : LorArena) (text : Option Bytes) : Option ℕ × LorArena :=
  match text with
  | none => (none, arena)
  | some text =>
    if text.length = sizeMax then (none, arena)
    else allocAligned platform os arena (text.length + 1) platform.maxAlignment

end Platform

inductive Request where
  | alloc (size : ℕ)
  | allocZero (size : ℕ)
  | allocArray (count elemSize : ℕ)
  | allocArrayZero (count elemSize : ℕ)
  | strdup (text : Option Bytes)
  deriving DecidableEq, Repr

def request (platform : Platform) (os : Os) (arena : LorArena) : Request → Option ℕ × LorArena
  | .alloc size => alloc platform os arena size
  | .allocZero size => allocZero platform os arena size
  | .allocArray count elemSize => allocArray platform os arena count elemSize
  | .allocArrayZero count elemSize => allocArrayZero platform os arena count elemSize
  | .strdup text => strdup platform os arena text

/-- The number of bytes that a request hands out when it succeeds. -/
def Request.size : Request → ℕ
  | .alloc size => size
  | .allocZero size => size
  | .allocArray count elemSize => count * elemSize
  | .allocArrayZero count elemSize => count * elemSize
  | .strdup none => 0
  | .strdup (some text) => text.length + 1

def capacity (arena : LorArena) : ℕ := (arena.blocks.map Block.capacity).sum

def used (arena : LorArena) : ℕ := (arena.blocks.map Block.used).sum

end Liblor.Arena
