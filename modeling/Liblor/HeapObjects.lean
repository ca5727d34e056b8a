import Mathlib.Data.Finset.Basic

/-!
# Objects on a heap

The objects that are allocated, by name. An access to any other object breaks the heap, and so does
releasing one; a broken heap stays broken.
-/

namespace HeapObjects

variable {α : Type*} [DecidableEq α]

structure Heap (α : Type*) where
  live : Finset α
  broken : Bool

namespace Heap

def empty : Heap α := ⟨∅, false⟩

def allocate (h : Heap α) (a : α) : Heap α := { h with live := insert a h.live }

def access (h : Heap α) (a : α) : Heap α := if a ∈ h.live then h else { h with broken := true }

def release (h : Heap α) (a : α) : Heap α :=
  if a ∈ h.live then { h with live := h.live.erase a } else { h with broken := true }

variable {h : Heap α} {a b : α}

theorem access_eq (ha : a ∈ h.live) : h.access a = h := if_pos ha

theorem release_eq (ha : a ∈ h.live) : h.release a = { h with live := h.live.erase a } := if_pos ha

@[simp] theorem mem_allocate : b ∈ (h.allocate a).live ↔ b = a ∨ b ∈ h.live := Finset.mem_insert

@[simp] theorem broken_allocate : (h.allocate a).broken = h.broken := rfl

/-- An object that is released as soon as it is allocated leaves no trace. -/
theorem release_allocate (ha : a ∉ h.live) : (h.allocate a).release a = h := by
  rw [release_eq (Finset.mem_insert_self a h.live)]
  change ({ h with live := (insert a h.live).erase a } : Heap α) = h
  rw [Finset.erase_insert ha]

end Heap

end HeapObjects
