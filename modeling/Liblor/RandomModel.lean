import Liblor.Machine

/-!
# The generator of `random.c`

The PCG32 generator with the machine's own words. A generator is passed through a pointer that is
not `NULL`; the functions return the state that they leave behind it.
-/

namespace Liblor

structure LorRandom where
  state : UInt64
  increment : UInt64
  deriving DecidableEq, Repr

namespace LorRandom

/-- `LOR_RANDOM__PCG_MULTIPLIER`. -/
def pcgMultiplier : UInt64 := 6364136223846793005

/-- What `lor_random_u32` makes of the state that it found. -/
def permuted (oldState : UInt64) : UInt32 :=
  let xorshifted := (((oldState >>> 18) ^^^ oldState) >>> 27).toUInt32
  let rotation := (oldState >>> 59).toUInt32
  (xorshifted >>> rotation) ||| (xorshifted <<< ((0 - rotation) &&& 31))

def u32 (random : LorRandom) : UInt32 × LorRandom :=
  let oldState := random.state
  (permuted oldState, { random with state := oldState * pcgMultiplier + random.increment })

def seed (random : LorRandom) (seed stream : UInt64) : LorRandom :=
  let random := { random with state := 0, increment := (stream <<< 1) ||| 1 }
  let random := (u32 random).2
  let random := { random with state := random.state + seed }
  (u32 random).2

def u64 (random : LorRandom) : UInt64 × LorRandom :=
  let (high, random) := u32 random
  let (low, random) := u32 random
  ((high.toUInt64 <<< 32) ||| low.toUInt64, random)

/-- The loop of `lor_random_bounded_u32`; `none` means that it has not stopped. -/
def boundedLoop (bound threshold : UInt32) : ℕ → LorRandom → Option (UInt32 × LorRandom)
  | 0, _ => none
  | fuel + 1, random =>
    let (value, random) := u32 random
    if value ≥ threshold then some (value % bound, random)
    else boundedLoop bound threshold fuel random

def boundedU32 (random : LorRandom) (bound : UInt32) (fuel : ℕ) : Option (UInt32 × LorRandom) :=
  if bound = 0 then some (0, random)
  else boundedLoop bound ((0 - bound) % bound) fuel random

end LorRandom

end Liblor
