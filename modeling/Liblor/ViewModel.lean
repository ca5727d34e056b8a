import Liblor.SizeArithmetic
import Liblor.StringModel

/-!
# Views of `string.c`

The view operations that read bytes or compute sizes. `memory` is `none` at an address that may not
be read, and a `size_t` subtraction answers `none` where it would wrap around, so an operation that
answers `some` reads nothing out of bounds and computes every size exactly. An out pointer is not
`NULL`; what the code stores through it is part of the answer.
-/

namespace Liblor.StringView

open OwnedString

abbrev Memory := ℕ → Option UInt8

/-- `LOR_STRING_VIEW_INIT`. -/
def viewInit : LorStringView := ⟨0, 0⟩

def asciiSpace (value : UInt8) : Bool :=
  value == 0x20 || value == 0x09 || value == 0x0A || value == 0x0D || value == 0x0C ||
    value == 0x0B

def svOffset (view : LorStringView) (offset : ℕ) : ℕ :=
  if view.data ≠ 0 then view.data + offset else 0

def svSlice (view : LorStringView) (offset size : ℕ) : Option LorStringView :=
  if !svIsValid view then some viewInit
  else do
    let offset := if offset > view.size then view.size else offset
    let room ← subSize view.size offset
    let size := if size > room then room else size
    return svFromParts (svOffset view offset) size

def svTakeLeft (view : LorStringView) (size : ℕ) : Option LorStringView := svSlice view 0 size

def svTakeRight (view : LorStringView) (size : ℕ) : Option LorStringView :=
  if !svIsValid view then some viewInit
  else do
    let size := if size > view.size then view.size else size
    let offset ← subSize view.size size
    svSlice view offset size

/-- The first `n` bytes from `offset` on are left to look at. -/
def trimLeftLoop (memory : Memory) (data : ℕ) : ℕ → ℕ → Option ℕ
  | 0, offset => some offset
  | n + 1, offset => do
    let value ← memory (data + offset)
    if asciiSpace value then trimLeftLoop memory data n (offset + 1) else return offset

def svTrimLeft (memory : Memory) (view : LorStringView) : Option LorStringView :=
  if !svIsValid view then some viewInit
  else do
    let offset ← trimLeftLoop memory view.data view.size 0
    let size ← subSize view.size offset
    svSlice view offset size

def trimRightLoop (memory : Memory) (data : ℕ) : ℕ → Option ℕ
  | 0 => some 0
  | size + 1 => do
    let value ← memory (data + size)
    if asciiSpace value then trimRightLoop memory data size else return size + 1

def svTrimRight (memory : Memory) (view : LorStringView) : Option LorStringView :=
  if !svIsValid view then some viewInit
  else do
    let size ← trimRightLoop memory view.data view.size
    svSlice view 0 size

def svTrim (memory : Memory) (view : LorStringView) : Option LorStringView := do
  let view ← svTrimLeft memory view
  svTrimRight memory view

/-- The result and what is left in the view. -/
def svChopLeft (view : LorStringView) (size : ℕ) : Option (LorStringView × LorStringView) :=
  if !svIsValid view then some (viewInit, view)
  else do
    let result ← svTakeLeft view size
    let left ← subSize view.size result.size
    let view ← svSlice view result.size left
    return (result, view)

def svChopRight (view : LorStringView) (size : ℕ) : Option (LorStringView × LorStringView) :=
  if !svIsValid view then some (viewInit, view)
  else do
    let result ← svTakeRight view size
    let left ← subSize view.size result.size
    return (result, { view with size := left })

/-- The `n` bytes from `address` on. -/
def readBytes (memory : Memory) : ℕ → ℕ → Option Bytes
  | _, 0 => some []
  | address, n + 1 => do
    let value ← memory address
    let rest ← readBytes memory (address + 1) n
    return value :: rest

/-- `memcmp(a, b, n) == 0`; both ranges are read as a whole. -/
def memcmpEqual (memory : Memory) (a b n : ℕ) : Option Bool := do
  let left ← readBytes memory a n
  let right ← readBytes memory b n
  return left == right

/-- `n` positions from `i` on are left to try. -/
def findLoop (memory : Memory) (view needle : LorStringView) : ℕ → ℕ → Option (Option ℕ)
  | 0, _ => some none
  | n + 1, i => do
    let value ← memory (view.data + i)
    let first ← memory needle.data
    let same ← if value == first then
      memcmpEqual memory (view.data + i) needle.data needle.size else some false
    if same then return some i else findLoop memory view needle n (i + 1)

/-- The index where the needle is found; the inner `none` is the result zero. -/
def svFind (memory : Memory) (view needle : LorStringView) : Option (Option ℕ) :=
  if !svIsValid view || !svIsValid needle || needle.size > view.size then some none
  else if needle.size = 0 then some (some 0)
  else do
    let limit ← subSize view.size needle.size
    findLoop memory view needle (limit + 1) 0

/-- The result, the bytes before the delimiter and those after it. -/
def svSplit (memory : Memory) (view delimiter : LorStringView) :
    Option (Bool × LorStringView × LorStringView) := do
  let found ← if delimiter.size ≠ 0 then svFind memory view delimiter else some none
  match found with
  | some index =>
    let before ← svTakeLeft view index
    let behind ← subSize view.size index
    let left ← subSize behind delimiter.size
    let after ← svSlice view (index + delimiter.size) left
    return (true, before, after)
  | none => return (false, view, viewInit)

/-- The result, what is left in the view, and the part. -/
def svChop (memory : Memory) (view delimiter : LorStringView) :
    Option (Bool × LorStringView × LorStringView) :=
  if !svIsValid view || !svIsValid delimiter || delimiter.size == 0 then
    some (false, view, viewInit)
  else do
    let (found, before, after) ← svSplit memory view delimiter
    if found then return (true, after, before)
    let view ← svSlice view view.size 0
    return (false, view, before)

/-- The parameter `delimiter` is an object of its own, at `slot`. -/
def svChopChar (memory : Memory) (slot : ℕ) (view : LorStringView) (delimiter : UInt8) :
    Option (Bool × LorStringView × LorStringView) :=
  svChop (Function.update memory slot (some delimiter)) view (svFromParts slot 1)

def svSplitChar (memory : Memory) (slot : ℕ) (view : LorStringView) (delimiter : UInt8) :
    Option (Bool × LorStringView × LorStringView) :=
  svSplit (Function.update memory slot (some delimiter)) view (svFromParts slot 1)

end Liblor.StringView
