import Liblor.Growth
import Liblor.MemoryBlock

/-!
# The dynamic array of `array.c`

An array handle is `NULL` or points behind a header to the elements. The record `LorArray` holds the
header fields and the memory of the elements, initialized or not; `none : Option LorArray` is the
`NULL` handle. A source argument is an address, zero being `NULL`, and `around` is what the memory
outside the elements holds during the call.
-/

namespace Liblor.DynArray

open MemoryBlock

structure LorArray where
  block : Block UInt8
  size : ℕ
  capacity : ℕ
  elementSize : ℕ
  deriving DecidableEq, Repr

/-- What the allocator answers during one call: to a request for a copy, to the reallocation of the
array, and what it leaves in new memory. -/
structure Os where
  malloc : ℕ → Option ℕ
  realloc : ℕ → Option ℕ
  fresh : ℕ → UInt8

def headerSize : ℕ := 32

def size : Option LorArray → ℕ
  | some array => array.size
  | none => 0

def capacity : Option LorArray → ℕ
  | some array => array.capacity
  | none => 0

def elementSize : Option LorArray → ℕ
  | some array => array.elementSize
  | none => 0

def LorArray.base (array : LorArray) : ℕ := array.block.base

def validElementSize (array : Option LorArray) (elementSize : ℕ) : Bool :=
  elementSize != 0 &&
    match array with
    | none => true
    | some array => array.elementSize == elementSize

def growthCapacity (current required : ℕ) : Option ℕ :=
  growthLoop required 64 (if current < 8 then 8 else current)

/-- The result code of the source, and the offset where that is positive. -/
def sourceOffset (array : Option LorArray) (source byteCount : ℕ) : ℤ × ℕ :=
  match array with
  | none => (0, 0)
  | some array =>
    if source = 0 then (0, 0)
    else if array.capacity > sizeMax / array.elementSize then (-1, 0)
    else
      let initializedBytes := array.size * array.elementSize
      let allocatedBytes := array.capacity * array.elementSize
      if allocatedBytes > uintptrMax - array.base then (0, 0)
      else
        let allocationEnd := array.base + allocatedBytes
        if source < array.base ∨ source > allocationEnd then (0, 0)
        else
          let result := source - array.base
          if result > initializedBytes then (-1, 0)
          else if byteCount > initializedBytes - result then (-1, 0)
          else (1, result)

/-- The array in the memory that a reallocation to `n` elements returned. -/
def relocated (os : Os) (array : Option LorArray) (elementSize address n : ℕ) : LorArray :=
  match array with
  | none => ⟨Block.moved ⟨0, []⟩ (address + headerSize) (n * elementSize) os.fresh, 0, n,
    elementSize⟩
  | some array => { array with
      block := array.block.moved (address + headerSize) (n * elementSize) os.fresh, capacity := n }

def reserveRaw (os : Os) (array : Option LorArray) (elementSize required : ℕ) :
    Option (Status × Option LorArray) :=
  if !validElementSize array elementSize then some (.invalidArgument, array)
  else if required ≤ capacity array then some (.ok, array)
  else do
    let newCapacity ← growthCapacity (capacity array) required
    if newCapacity > (sizeMax - headerSize) / elementSize then return (.overflow, array)
    match os.realloc (headerSize + newCapacity * elementSize) with
    | none => return (.outOfMemory, array)
    | some address => return (.ok, some (relocated os array elementSize address newCapacity))

def resizeRaw (os : Os) (array : Option LorArray) (elementSize newSize : ℕ) :
    Option (Status × Option LorArray) :=
  if !validElementSize array elementSize then some (.invalidArgument, array)
  else
    let oldSize := size array
    if newSize > oldSize then do
      let (status, array) ← reserveRaw os array elementSize newSize
      if status ≠ .ok then return (status, array)
      return (.ok, array.map fun array => { array with
        block := array.block.write (oldSize * elementSize)
          (List.replicate ((newSize - oldSize) * elementSize) 0)
        size := newSize })
    else some (.ok, array.map fun array => { array with size := newSize })

def appendRaw (os : Os) (around : ℕ → UInt8) (array : Option LorArray)
    (elementSize elements count : ℕ) : Option (Status × Option LorArray) :=
  if elements = 0 ∧ count ≠ 0 then some (.invalidArgument, array)
  else if !validElementSize array elementSize then some (.invalidArgument, array)
  else if count = 0 then some (.ok, array)
  else if count > sizeMax / elementSize then some (.overflow, array)
  else
    let oldSize := size array
    if count > sizeMax - oldSize then some (.overflow, array)
    else
      let byteCount := count * elementSize
      let (aliased, offset) := sourceOffset array elements byteCount
      if aliased < 0 then some (.invalidArgument, array)
      else do
        let newSize := oldSize + count
        let (status, array) ← reserveRaw os array elementSize newSize
        if status ≠ .ok then return (status, array)
        return (.ok, array.map fun array =>
          let elements := if aliased > 0 then array.base + offset else elements
          { array with
            block := array.block.write (oldSize * elementSize)
              (array.block.read around elements byteCount)
            size := newSize })

/-- The source of an `append_array`: `NULL`, the same handle, or another array's header fields. -/
inductive SourceArray where
  | null
  | self
  | other (address size elementSize : ℕ)
  deriving DecidableEq, Repr

namespace SourceArray

def address (array : Option LorArray) : SourceArray → ℕ
  | null => 0
  | self => (array.map LorArray.base).getD 0
  | other address _ _ => address

def size (array : Option LorArray) : SourceArray → ℕ
  | null => 0
  | self => DynArray.size array
  | other _ size _ => size

def elementSize (array : Option LorArray) : SourceArray → ℕ
  | null => 0
  | self => DynArray.elementSize array
  | other _ _ elementSize => elementSize

end SourceArray

def appendArrayRaw (os : Os) (around : ℕ → UInt8) (array : Option LorArray) (elementSize : ℕ)
    (source : SourceArray) (sourceElementSize : ℕ) : Option (Status × Option LorArray) :=
  if elementSize = 0 ∨ sourceElementSize ≠ elementSize then some (.invalidArgument, array)
  else if source.address array ≠ 0 ∧ source.elementSize array ≠ sourceElementSize then
    some (.invalidArgument, array)
  else appendRaw os around array elementSize (source.address array) (source.size array)

/-- Move the elements from `index` on to make room for `byteCount` bytes. -/
def shiftTail (around : ℕ → UInt8) (array : LorArray) (oldSize index byteCount : ℕ) : LorArray :=
  let destination := index * array.elementSize
  let tailCount := oldSize - index
  if tailCount ≠ 0 then { array with
    block := array.block.write (destination + byteCount)
      (array.block.read around (array.base + destination) (tailCount * array.elementSize)) }
  else array

/-- The end of `lor_array_insert_raw`; `copy` holds the source where it was an alias. -/
def insertPrepared (os : Os) (around : ℕ → UInt8) (array : Option LorArray)
    (elementSize index elements count : ℕ) (copy : Option Bytes) :
    Option (Status × Option LorArray) := do
  let oldSize := size array
  let byteCount := count * elementSize
  let (status, array) ← reserveRaw os array elementSize (oldSize + count)
  if status ≠ .ok then return (status, array)
  return (.ok, array.map fun array =>
    let array := shiftTail around array oldSize index byteCount
    { array with
      block := array.block.write (index * elementSize)
        (copy.getD (array.block.read around elements byteCount))
      size := oldSize + count })

def insertRaw (os : Os) (around : ℕ → UInt8) (array : Option LorArray)
    (elementSize index elements count : ℕ) : Option (Status × Option LorArray) :=
  if elements = 0 ∧ count ≠ 0 then some (.invalidArgument, array)
  else if !validElementSize array elementSize then some (.invalidArgument, array)
  else
    let oldSize := size array
    if index > oldSize then some (.invalidArgument, array)
    else if count = 0 then some (.ok, array)
    else if count > sizeMax / elementSize then some (.overflow, array)
    else if count > sizeMax - oldSize then some (.overflow, array)
    else
      let byteCount := count * elementSize
      let (aliased, offset) := sourceOffset array elements byteCount
      if aliased < 0 then some (.invalidArgument, array)
      else if aliased > 0 then
        match os.malloc byteCount with
        | none => some (.outOfMemory, array)
        | some _ =>
          insertPrepared os around array elementSize index elements count
            (array.map fun array => array.block.read around (array.base + offset) byteCount)
      else insertPrepared os around array elementSize index elements count none

def shrinkToFitRaw (os : Os) (array : Option LorArray) (elementSize : ℕ) :
    Status × Option LorArray :=
  if !validElementSize array elementSize then (.invalidArgument, array)
  else
    match array with
    | none => (.ok, none)
    | some array =>
      if array.size = array.capacity then (.ok, some array)
      else if array.size = 0 then (.ok, none)
      else if array.size > (sizeMax - headerSize) / elementSize then (.overflow, some array)
      else
        match os.realloc (headerSize + array.size * elementSize) with
        | none => (.outOfMemory, some array)
        | some address => (.ok, some (relocated os (some array) elementSize address array.size))

def clear (array : Option LorArray) : Option LorArray :=
  array.map fun array => { array with size := 0 }

/-- The bytes of the element at `index`. -/
def LorArray.element (array : LorArray) (index : ℕ) : Bytes :=
  (array.block.cells.drop (index * array.elementSize)).take array.elementSize

/-- What a removal stores through `out_element`, if that is not `NULL`. -/
def outElement (out : Bool) (array : LorArray) (index : ℕ) : Option Bytes :=
  if out then some (array.element index) else none

def pop (array : Option LorArray) (out : Bool) : Bool × Option Bytes × Option LorArray :=
  match array with
  | none => (false, none, none)
  | some array =>
    if array.size = 0 then (false, none, some array)
    else
      let index := array.size - 1
      (true, outElement out array index, some { array with size := index })

/-- Move `count` elements from one index to another. -/
def LorArray.moveElements (array : LorArray) (destination source count : ℕ) : LorArray :=
  { array with
    block := array.block.write (destination * array.elementSize)
      ((array.block.cells.drop (source * array.elementSize)).take (count * array.elementSize)) }

def remove (array : Option LorArray) (index : ℕ) (out : Bool) :
    Bool × Option Bytes × Option LorArray :=
  match array with
  | none => (false, none, none)
  | some array =>
    if index ≥ array.size then (false, none, some array)
    else
      let remaining := array.size - index - 1
      let moved := if remaining ≠ 0 then array.moveElements index (index + 1) remaining else array
      (true, outElement out array index, some { moved with size := array.size - 1 })

def removeRange (array : Option LorArray) (index count : ℕ) : Bool × Option LorArray :=
  match array with
  | none => (false, none)
  | some array =>
    if index > array.size ∨ count > array.size - index then (false, some array)
    else if count = 0 then (true, some array)
    else
      let remaining := array.size - index - count
      let moved := if remaining ≠ 0 then array.moveElements index (index + count) remaining
        else array
      (true, some { moved with size := array.size - count })

def removeUnordered (array : Option LorArray) (index : ℕ) (out : Bool) :
    Bool × Option Bytes × Option LorArray :=
  match array with
  | none => (false, none, none)
  | some array =>
    if index ≥ array.size then (false, none, some array)
    else
      let last := array.size - 1
      let moved := if index ≠ last then array.moveElements index last 1 else array
      (true, outElement out array index, some { moved with size := last })

def deinit (_array : Option LorArray) : Option LorArray := none

end Liblor.DynArray
