import Mathlib

/-!
# Sizes, bytes and status codes

The library is modelled on a 64-bit target. A `size_t` or an address is a natural number; where the
code guards against overflow the model compares with `sizeMax` exactly as the code does.
-/

namespace Liblor

abbrev Bytes := List UInt8

/-- `SIZE_MAX`. -/
def sizeMax : ℕ := 2 ^ 64 - 1

/-- `UINTPTR_MAX`. -/
def uintptrMax : ℕ := 2 ^ 64 - 1

/-- `LorStatus`. -/
inductive Status where
  | ok
  | invalidArgument
  | outOfMemory
  | overflow
  | systemError
  | timedOut
  | closed
  deriving DecidableEq, Repr

end Liblor
