import Liblor.Growth

/-!
# Arithmetic on `size_t`

A result is defined only where it does not wrap around, so that a computation which answers has used
the mathematical value of every expression on its way.
-/

namespace Liblor

variable {a b : ℕ}

def addSize (a b : ℕ) : Option ℕ := if a + b ≤ sizeMax then some (a + b) else none

def subSize (a b : ℕ) : Option ℕ := if b ≤ a then some (a - b) else none

def mulSize (a b : ℕ) : Option ℕ := if a * b ≤ sizeMax then some (a * b) else none

theorem addSize_eq (h : a + b ≤ sizeMax) : addSize a b = some (a + b) := if_pos h

theorem subSize_eq (h : b ≤ a) : subSize a b = some (a - b) := if_pos h

theorem mulSize_eq (h : a * b ≤ sizeMax) : mulSize a b = some (a * b) := if_pos h

/-- The loop of `growthLoop` with the doubling on `size_t`. -/
def doublingLoop (required : ℕ) : ℕ → ℕ → Option ℕ
  | 0, _ => none
  | fuel + 1, result =>
    if result < required then
      if result > sizeMax / 2 then some required
      else do
        let doubled ← mulSize result 2
        doublingLoop required fuel doubled
    else some result

theorem doublingLoop_eq (required fuel result : ℕ) :
    doublingLoop required fuel result = growthLoop required fuel result := by
  induction fuel generalizing result with
  | zero => rfl
  | succ fuel ih =>
    unfold doublingLoop growthLoop
    by_cases hlt : result < required
    · rw [if_pos hlt, if_pos hlt]
      by_cases hbig : result > sizeMax / 2
      · rw [if_pos hbig, if_pos hbig]
      · rw [if_neg hbig, if_neg hbig, mulSize_eq (by omega), Option.bind_eq_bind, Option.bind_some,
          ih]
    · rw [if_neg hlt, if_neg hlt]

/-- What a reserve call decides before it asks for memory. -/
inductive Sizing where
  | kept
  | overflow
  | grown (capacity allocationSize : ℕ)
  deriving DecidableEq, Repr

/-- The capacity suffices, and the allocation has the mathematical size. -/
inductive Sizing.Exact (current required : ℕ) (bytes : ℕ → ℕ) : Sizing → Prop where
  | kept (h : required ≤ current) : Exact current required bytes .kept
  | overflow (h : current < required) : Exact current required bytes .overflow
  | grown {capacity : ℕ} (h : required ≤ capacity) (hcurrent : current < required)
      (hbytes : bytes capacity ≤ sizeMax) :
      Exact current required bytes (.grown capacity (bytes capacity))

end Liblor
