import Liblor.ArenaSafety
import Liblor.RegionHeap

/-!
# The arena of `memory.c`, pointer by pointer

Here a block is its address: the header fields are words in memory, and the chain of blocks is what
following the `next` pointers finds. Every load, store and release is checked, so a call that would
touch memory that is not the arena's own has no result. The loops count down a number of steps that
they may take; one that runs out has no result either.
-/

namespace Liblor.Arena.Pointers

open BumpStack RegionHeap Transition

/-- `LorArena`. -/
structure Handle where
  blocks : Option ℕ
  backend : Backend
  blockSize : ℕ
  reserveSize : ℕ
  commitSize : ℕ
  deriving DecidableEq, Repr

def handleInit : Handle := ⟨none, .heap, 0, 0, 0⟩

/-! ## The fields of a `LorArenaBlock` -/

def nextField (block : ℕ) : ℕ := block + 8 * 0

def capacityField (block : ℕ) : ℕ := block + 8 * 1

def committedField (block : ℕ) : ℕ := block + 8 * 2

def usedField (block : ℕ) : ℕ := block + 8 * 3

def allocationSizeField (block : ℕ) : ℕ := block + 8 * 4

def headerSize : ℕ := 40

def pointer (word : ℕ) : Option ℕ := if word = 0 then none else some word

def loadNext (block : ℕ) : Action (Option ℕ) := do
  return pointer (← loadWord (nextField block))

def storeNext (block : ℕ) (next : Option ℕ) : Action Unit :=
  storeWord (nextField block) (next.getD 0)

section Source

variable (platform : Platform) (os : Os)

def blockData (block : ℕ) : Option ℕ :=
  alignForward (block + platform.dataOffset) platform.maxAlignment

def commitRaw (p size : ℕ) : Action Bool := do
  if os.commitRaw p size then
    openUp p size
    return true
  else return false

def releaseRaw (p size : ℕ) : Action Unit := release fun r => r.base == p && r.size == size

def rawFree (p : ℕ) : Action Unit := release fun r => r.base == p

/-- The assignments with which both kinds of block begin. -/
def writeHeader (block capacity committed allocationSize : ℕ) : Action Unit := do
  storeNext block none
  storeWord (capacityField block) capacity
  storeWord (committedField block) committed
  storeWord (usedField block) 0
  storeWord (allocationSizeField block) allocationSize

def heapBlockNew (capacity : ℕ) : Action (Option ℕ) :=
  let slack := blockHeaderSlack platform
  if addOverflowsSize capacity slack then return none
  else
    let allocationSize := capacity + slack
    match os.malloc allocationSize with
    | none => return none
    | some block => do
      hold ⟨block, allocationSize, allocationSize⟩
      writeHeader block capacity capacity allocationSize
      return some block

def virtualBlockNew (reserveSize commitSize minCapacity : ℕ) : Action (Option ℕ) :=
  let slack := blockHeaderSlack platform
  if addOverflowsSize minCapacity slack then return none
  else
    let minReserve := minCapacity + slack
    let reserveSize := virtualReserve platform reserveSize minReserve
    if reserveSize = 0 then return none
    else
      let commitSize := virtualCommit platform reserveSize commitSize minReserve
      match os.reserveRaw reserveSize with
      | none => return none
      | some block => do
        hold ⟨block, reserveSize, 0⟩
        let committed ← (if commitSize ≠ 0 then commitRaw os block commitSize else pure true)
        if committed = false then
          releaseRaw block reserveSize
          return none
        else
          writeHeader block 0 commitSize reserveSize
          match blockData platform block with
          | none => do
            releaseRaw block reserveSize
            return none
          | some data => do
            storeWord (capacityField block) (reserveSize - (data - block))
            return some block

def blockFree (arena : Handle) (block : ℕ) : Action Unit :=
  if arena.backend = .virtual then do
    releaseRaw block (← loadWord (allocationSizeField block))
  else rawFree block

def blockEnsureCommitted (block neededUsed commitSize : ℕ) : Action Bool :=
  match blockData platform block with
  | none => return false
  | some data => do
    let capacity ← loadWord (capacityField block)
    if neededUsed > capacity then return false
    else
      let dataOffset := data - block
      if addOverflowsSize dataOffset neededUsed then return false
      else
        let neededTotal := dataOffset + neededUsed
        let committed ← loadWord (committedField block)
        if neededTotal ≤ committed then return true
        else if commitSize ≠ 0 ∧ addOverflowsSize neededTotal (commitSize - 1) then return false
        else
          let newCommitted := if commitSize ≠ 0 then alignUp neededTotal commitSize else neededTotal
          let allocationSize ← loadWord (allocationSizeField block)
          let newCommitted := if newCommitted > allocationSize then allocationSize else newCommitted
          let ok ← commitRaw os (block + committed) (newCommitted - committed)
          if ok = false then return false
          else
            storeWord (committedField block) newCommitted
            return true

def blockAlloc (arena : Handle) (block size alignment : ℕ) : Action (Option ℕ) :=
  match blockData platform block with
  | none => return none
  | some data => do
    let used ← loadWord (usedField block)
    let capacity ← loadWord (capacityField block)
    if used > capacity then return none
    else
      let current := data + used
      match alignForward current alignment with
      | none => return none
      | some aligned =>
        let padding := aligned - current
        if padding > capacity - used then return none
        else if size > capacity - used - padding then return none
        else do
          let newUsed := used + padding + size
          let committed ←
            (if arena.backend = .virtual then
              blockEnsureCommitted platform os block newUsed arena.commitSize
            else pure true)
          if committed = false then return none
          else
            storeWord (usedField block) newUsed
            return some aligned

def blockNew (arena : Handle) (minCapacity : ℕ) : Action (Option ℕ) :=
  if arena.backend = .virtual then
    virtualBlockNew platform os arena.reserveSize arena.commitSize minCapacity
  else if arena.blockSize < minCapacity then heapBlockNew platform os minCapacity
  else heapBlockNew platform os arena.blockSize

def configured (config : Config) : Handle where
  blocks := none
  backend := config.backend
  blockSize := if config.blockSize ≠ 0 then config.blockSize else defaultBlockSize
  reserveSize := if config.reserveSize ≠ 0 then config.reserveSize else defaultReserveSize
  commitSize := if config.commitSize ≠ 0 then config.commitSize else defaultCommitSize

def initInternal (arena : Handle) (config : Config) : Bool × Handle :=
  if arena ≠ handleInit then (false, arena)
  else
    let arena := configured config
    if arena.backend ≠ .heap ∧ arena.backend ≠ .virtual then (false, handleInit)
    else if arena.backend = .virtual then
      let arena := { arena with
        reserveSize := pageAlign platform arena.reserveSize
        commitSize := pageAlign platform arena.commitSize }
      if arena.reserveSize = 0 ∨ arena.commitSize = 0 then (false, handleInit) else (true, arena)
    else (true, arena)

end Source

/-! ## The loops over the chain -/

def deinitLoop (arena : Handle) : ℕ → Option ℕ → Action Unit
  | 0, _ => failure
  | _ + 1, none => return ()
  | fuel + 1, some block => do
    let next ← loadNext block
    blockFree arena block
    deinitLoop arena fuel next

def deinit (fuel : ℕ) (arena : Handle) : Action Handle := do
  deinitLoop arena fuel arena.blocks
  return handleInit

def resetLoop : ℕ → Option ℕ → Action Unit
  | 0, _ => failure
  | _ + 1, none => return ()
  | fuel + 1, some block => do
    storeWord (usedField block) 0
    resetLoop fuel (← loadNext block)

def reset (fuel : ℕ) (arena : Handle) : Action Unit := resetLoop fuel arena.blocks

def mark (arena : Handle) : Action Mark :=
  match arena.blocks with
  | none => return ⟨none, 0⟩
  | some block => do
    return ⟨some block, ← loadWord (usedField block)⟩

def hasBlockLoop (target : ℕ) : ℕ → Option ℕ → Action Bool
  | 0, _ => failure
  | _ + 1, none => return false
  | fuel + 1, some block => do
    if block = target then return true
    else hasBlockLoop target fuel (← loadNext block)

def rewindLoop (target : ℕ) : ℕ → Handle → Action Handle
  | 0, _ => failure
  | fuel + 1, arena =>
    match arena.blocks with
    | none => return arena
    | some block =>
      if block = target then return arena
      else do
        let next ← loadNext block
        blockFree { arena with blocks := next } block
        rewindLoop target fuel { arena with blocks := next }

/-- Where an assertion fails the source goes on to return. -/
def rewind (fuel : ℕ) (arena : Handle) (mark : Mark) : Action Handle :=
  match mark.block with
  | none => do
    resetLoop fuel arena.blocks
    return arena
  | some target => do
    let found ← hasBlockLoop target fuel arena.blocks
    if found = false then return arena
    else
      let arena ← rewindLoop target fuel arena
      match arena.blocks with
      | none => failure
      | some block => do
        let used ← loadWord (usedField block)
        if mark.used > used then return arena
        else
          storeWord (usedField block) mark.used
          return arena

/-- `lor_arena_used` and, with another field, `lor_arena_capacity`. -/
def sumLoop (field : ℕ → ℕ) : ℕ → Option ℕ → ℕ → Action ℕ
  | 0, _, _ => failure
  | _ + 1, none, total => return total
  | fuel + 1, some block, total => do
    let value ← loadWord (field block)
    sumLoop field fuel (← loadNext block) (total + value)

def used (fuel : ℕ) (arena : Handle) : Action ℕ := sumLoop usedField fuel arena.blocks 0

def capacity (fuel : ℕ) (arena : Handle) : Action ℕ := sumLoop capacityField fuel arena.blocks 0

/-! ## Allocation -/

section Source

variable (platform : Platform) (os : Os)

def allocFresh (arena : Handle) (size alignment : ℕ) : Action (Option ℕ × Handle) :=
  if alignment > 1 ∧ addOverflowsSize size (alignment - 1) then return (none, arena)
  else do
    let minCapacity := if alignment > 1 then size + (alignment - 1) else size
    match ← blockNew platform os arena minCapacity with
    | none => return (none, arena)
    | some block =>
      storeNext block arena.blocks
      let arena := { arena with blocks := some block }
      return (← blockAlloc platform os arena block size alignment, arena)

def allocReady (arena : Handle) (size alignment : ℕ) : Action (Option ℕ × Handle) :=
  match arena.blocks with
  | none => allocFresh platform os arena size alignment
  | some block => do
    match ← blockAlloc platform os arena block size alignment with
    | some p => return (some p, arena)
    | none => allocFresh platform os arena size alignment

def allocAligned (arena : Handle) (size alignment : ℕ) : Action (Option ℕ × Handle) :=
  if size = 0 ∨ isPowerOfTwo alignment = false then return (none, arena)
  else if arena.blockSize = 0 ∧ arena.reserveSize = 0 then
    match initInternal platform arena ⟨.heap, 0, 0, 0⟩ with
    | (false, arena) => return (none, arena)
    | (true, arena) => allocReady platform os arena size alignment
  else allocReady platform os arena size alignment

/-- An allocation that is then filled with these bytes. -/
def allocFilled (arena : Handle) (size : ℕ) (bytes : Bytes) : Action (Option ℕ × Handle) := do
  match ← allocAligned platform os arena size platform.maxAlignment with
  | (none, arena) => return (none, arena)
  | (some p, arena) =>
    storeBytes p bytes
    return (some p, arena)

def alloc (arena : Handle) (size : ℕ) : Action (Option ℕ × Handle) :=
  allocAligned platform os arena size platform.maxAlignment

def allocZero (arena : Handle) (size : ℕ) : Action (Option ℕ × Handle) :=
  allocFilled platform os arena size (List.replicate size 0)

def allocArray (arena : Handle) (count elemSize : ℕ) : Action (Option ℕ × Handle) :=
  if count = 0 ∨ elemSize = 0 ∨ mulOverflowsSize count elemSize then return (none, arena)
  else alloc platform os arena (count * elemSize)

def allocArrayZero (arena : Handle) (count elemSize : ℕ) : Action (Option ℕ × Handle) :=
  if count = 0 ∨ elemSize = 0 ∨ mulOverflowsSize count elemSize then return (none, arena)
  else allocZero platform os arena (count * elemSize)

def strdup (arena : Handle) (text : Option Bytes) : Action (Option ℕ × Handle) :=
  match text with
  | none => return (none, arena)
  | some text =>
    if text.length = sizeMax then return (none, arena)
    else allocFilled platform os arena (text.length + 1) (text ++ [0])

def request (arena : Handle) : Request → Action (Option ℕ × Handle)
  | .alloc size => alloc platform os arena size
  | .allocZero size => allocZero platform os arena size
  | .allocArray count elemSize => allocArray platform os arena count elemSize
  | .allocArrayZero count elemSize => allocArrayZero platform os arena count elemSize
  | .strdup text => strdup platform os arena text

end Source

/-- What a new allocation is known to hold. -/
def contents : Request → Option Bytes
  | .alloc _ => none
  | .allocZero size => some (List.replicate size 0)
  | .allocArray _ _ => none
  | .allocArrayZero count elemSize => some (List.replicate (count * elemSize) 0)
  | .strdup text => text.map fun text => text ++ [0]

end Liblor.Arena.Pointers
