import Mathlib

/-!
# Ring buffers

A queue in an array of slots: `count` values from slot `first` on, modulo the number of slots.
-/

universe u

structure RingBuffer (α : Type u) where
  slots : List α
  first : ℕ
  count : ℕ

namespace RingBuffer

variable {α : Type u} [Inhabited α] (r : RingBuffer α)

def slot (i : ℕ) : α := r.slots.getD ((r.first + i) % r.slots.length) default

/-- The queued values, the oldest first. -/
def contents : List α := (List.range r.count).map r.slot

def push (value : α) : RingBuffer α :=
  { r with
    slots := r.slots.set ((r.first + r.count) % r.slots.length) value
    count := r.count + 1 }

def pop : RingBuffer α := { r with first := (r.first + 1) % r.slots.length, count := r.count - 1 }

@[simp] theorem length_contents : r.contents.length = r.count := by simp [contents]

theorem contents_eq_nil : r.contents = [] ↔ r.count = 0 := by
  rw [← List.length_eq_zero_iff, length_contents]

omit [Inhabited α] in
theorem index_ne {i j n : ℕ} (first : ℕ) (hi : i < j) (hj : j < n) :
    (first + i) % n ≠ (first + j) % n := by
  intro heq
  have hmod : i ≡ j [MOD n] := Nat.ModEq.add_left_cancel' first heq
  have heq : i = j := hmod.eq_of_lt_of_lt (Nat.lt_trans hi hj) hj
  omega

theorem slot_push {i : ℕ} (value : α) (hi : i < r.count) (hroom : r.count < r.slots.length) :
    (r.push value).slot i = r.slot i := by
  have hne := index_ne r.first hi hroom
  simp only [slot, push, List.length_set, List.getD_eq_getElem?_getD]
  rw [List.getElem?_set_ne (Ne.symm hne)]

theorem slot_push_last (value : α) (hroom : r.count < r.slots.length) :
    (r.push value).slot r.count = value := by
  have hlt : (r.first + r.count) % r.slots.length < r.slots.length := Nat.mod_lt _ (by omega)
  simp [slot, push, List.getD_eq_getElem?_getD, hlt]

theorem contents_push (value : α) (hroom : r.count < r.slots.length) :
    (r.push value).contents = r.contents ++ [value] := by
  unfold contents
  change (List.range (r.count + 1)).map (r.push value).slot = _
  rw [List.range_succ, List.map_append, List.map_singleton, r.slot_push_last value hroom]
  congr 1
  apply List.map_congr_left
  intro i hi
  exact r.slot_push value (List.mem_range.1 hi) hroom

theorem contents_pop (hpos : 0 < r.count) : r.contents = r.slot 0 :: r.pop.contents := by
  obtain ⟨n, hn⟩ := Nat.exists_eq_succ_of_ne_zero (Nat.ne_of_gt hpos)
  unfold contents
  rw [hn, List.range_succ_eq_map, List.map_cons, List.map_map]
  congr 1
  change _ = (List.range (r.count - 1)).map r.pop.slot
  rw [hn, Nat.succ_sub_one]
  apply List.map_congr_left
  intro i _
  simp only [Function.comp_apply, slot, pop]
  rw [Nat.mod_add_mod, Nat.succ_eq_add_one, Nat.add_assoc, Nat.add_comm i 1]

end RingBuffer
