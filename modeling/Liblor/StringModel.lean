import Liblor.Growth
import Liblor.MemoryBlock

/-!
# The owned string of `string.c`

A string handle is `NULL` or points behind a header to the content bytes and a `NUL` after them. The
record `LorString` holds the header fields and the memory behind them, one cell more than the
capacity. A call gets the handle through a pointer that is not `NULL`. A view is an address and a
size; `around` is what the memory outside the string holds during the call.
-/

namespace Liblor.OwnedString

open MemoryBlock

structure LorString where
  block : Block UInt8
  size : ℕ
  capacity : ℕ
  deriving DecidableEq, Repr

structure LorStringView where
  data : ℕ
  size : ℕ
  deriving DecidableEq, Repr

/-- What the allocator answers during one call, and what it leaves in new memory. -/
structure Os where
  realloc : ℕ → Option ℕ
  fresh : ℕ → UInt8

/-- `offsetof(LorStringHeader, data)`. -/
def headerSize : ℕ := 16

def LorString.base (string : LorString) : ℕ := string.block.base

def size : Option LorString → ℕ
  | some string => string.size
  | none => 0

def capacity : Option LorString → ℕ
  | some string => string.capacity
  | none => 0

/-- What an address holds during a call. -/
def memory (string : Option LorString) (around : ℕ → UInt8) : ℕ → UInt8 :=
  match string with
  | some string => string.block.load around
  | none => around

/-- `none` means that no `NUL` was met. -/
def strlen (memory : ℕ → UInt8) (text : ℕ) : ℕ → Option ℕ
  | 0 => none
  | fuel + 1 =>
    if memory text = 0 then some 0 else (strlen memory (text + 1) fuel).map (· + 1)

def svFromParts (data size : ℕ) : LorStringView :=
  if data = 0 ∧ size ≠ 0 then ⟨0, 0⟩ else ⟨data, size⟩

def svFromCstr (memory : ℕ → UInt8) (text : ℕ) : Option LorStringView :=
  if text = 0 then some ⟨0, 0⟩
  else (strlen memory text (uintptrMax + 1 - text)).map (svFromParts text)

def svIsValid (view : LorStringView) : Bool := view.data != 0 || view.size == 0

/-- The result code of the source, and the offset where that is positive. -/
def viewOffset (string : Option LorString) (view : LorStringView) : ℤ × ℕ :=
  match string with
  | none => (0, 0)
  | some string =>
    if view.data = 0 then (0, 0)
    else if string.size > uintptrMax - string.base then (0, 0)
    else
      let stringEnd := string.base + string.size
      if view.data < string.base ∨ view.data > stringEnd then (0, 0)
      else
        let result := view.data - string.base
        if view.size > string.size - result then (-1, 0) else (1, result)

def growthCapacity (current required : ℕ) : Option (Status × ℕ) :=
  if required = sizeMax then some (.overflow, 0)
  else do
    let result ← growthLoop required 64 (if current < 16 then 16 else current)
    if result = sizeMax then return (.overflow, 0)
    return (.ok, result)

/-- The string in the memory that a reallocation returned, with its terminator stored anew. -/
def relocated (os : Os) (string : Option LorString) (address newCapacity : ℕ) : LorString :=
  let block := ((string.map LorString.block).getD ⟨0, []⟩).moved (address + headerSize)
    (newCapacity + 1) os.fresh
  ⟨block.write (size string) [0], size string, newCapacity⟩

def reserve (os : Os) (string : Option LorString) (required : ℕ) :
    Option (Status × Option LorString) :=
  let currentCapacity := capacity string
  if required ≤ currentCapacity then some (.ok, string)
  else do
    let (status, newCapacity) ← growthCapacity currentCapacity required
    if status ≠ .ok then return (status, string)
    if newCapacity > sizeMax - headerSize - 1 then return (.overflow, string)
    match os.realloc (headerSize + newCapacity + 1) with
    | none => return (.outOfMemory, string)
    | some address => return (.ok, some (relocated os string address newCapacity))

def assign (os : Os) (around : ℕ → UInt8) (string : Option LorString) (view : LorStringView) :
    Option (Status × Option LorString) :=
  if !svIsValid view then some (.invalidArgument, string)
  else
    let (aliased, offset) := viewOffset string view
    if aliased < 0 then some (.invalidArgument, string)
    else do
      let (status, string) ← reserve os string view.size
      if status ≠ .ok then return (status, string)
      return (.ok, string.map fun string =>
        let data := if aliased > 0 then string.base + offset else view.data
        let block := if view.size ≠ 0 then
          string.block.write 0 (string.block.read around data view.size) else string.block
        { string with block := block.write view.size [0], size := view.size })

def assignCstr (os : Os) (around : ℕ → UInt8) (string : Option LorString) (text : ℕ) :
    Option (Status × Option LorString) :=
  if text = 0 then some (.invalidArgument, string)
  else do
    let view ← svFromCstr (memory string around) text
    assign os around string view

def append (os : Os) (around : ℕ → UInt8) (string : Option LorString) (view : LorStringView) :
    Option (Status × Option LorString) :=
  if !svIsValid view then some (.invalidArgument, string)
  else if view.size = 0 then some (.ok, string)
  else
    let oldSize := size string
    if view.size > sizeMax - oldSize then some (.overflow, string)
    else
      let (aliased, offset) := viewOffset string view
      if aliased < 0 then some (.invalidArgument, string)
      else do
        let newSize := oldSize + view.size
        let (status, string) ← reserve os string newSize
        if status ≠ .ok then return (status, string)
        return (.ok, string.map fun string =>
          let data := if aliased > 0 then string.base + offset else view.data
          let block := string.block.write oldSize (string.block.read around data view.size)
          { string with block := block.write newSize [0], size := newSize })

def appendCstr (os : Os) (around : ℕ → UInt8) (string : Option LorString) (text : ℕ) :
    Option (Status × Option LorString) :=
  if text = 0 then some (.invalidArgument, string)
  else do
    let view ← svFromCstr (memory string around) text
    append os around string view

/-- The byte is a local variable of the call, at this address. -/
def appendChar (os : Os) (around : ℕ → UInt8) (string : Option LorString) (value : UInt8)
    (address : ℕ) : Option (Status × Option LorString) :=
  append os (Function.update around address value) string (svFromParts address 1)

def clear (string : Option LorString) : Option LorString :=
  string.map fun string => { string with block := string.block.write 0 [0], size := 0 }

def deinit (_string : Option LorString) : Option LorString := none

end Liblor.OwnedString
