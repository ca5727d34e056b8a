import Mathlib

/-!
# A block of memory and the memory around it

The cells of one block are a list that starts at an integer address; `around` is what every other
address holds. Reading looks at an address without knowing on which side of the boundary it lies,
so a range that aliases the block reads the block's own cells, and one that does not reads what is
around it. `slots` cuts the front of a list of cells into elements of one width.
-/

namespace MemoryBlock

variable {α : Type*}

structure Block (α : Type*) where
  base : ℕ
  cells : List α
  deriving DecidableEq, Repr

namespace Block

def load (block : Block α) (around : ℕ → α) (p : ℕ) : α :=
  if block.base ≤ p then (block.cells[p - block.base]?).getD (around p) else around p

def read (block : Block α) (around : ℕ → α) (p n : ℕ) : List α :=
  (List.range n).map fun i => block.load around (p + i)

/-- Store `data` in the cells from `offset` on. -/
def write (block : Block α) (offset : ℕ) (data : List α) : Block α :=
  { block with
    cells := block.cells.take offset ++ data ++ block.cells.drop (offset + data.length) }

/-- Reallocation: the cells that fit are kept, new ones hold anything. -/
def moved (block : Block α) (base n : ℕ) (fresh : ℕ → α) : Block α where
  base := base
  cells := (block.cells ++ (List.range (n - block.cells.length)).map fresh).take n

/-- The ranges `[p, p + m)` and `[q, q + n)` do not meet. -/
def Apart (p m q n : ℕ) : Prop := p + m ≤ q ∨ q + n ≤ p

instance (p m q n : ℕ) : Decidable (Apart p m q n) := inferInstanceAs (Decidable (_ ∨ _))

end Block

def readAround (around : ℕ → α) (p n : ℕ) : List α := (List.range n).map fun i => around (p + i)

/-- The first `n` elements of `width` cells each. -/
def slots (width n : ℕ) (cells : List α) : List (List α) :=
  (List.range n).map fun i => (cells.drop (i * width)).take width

section Read

variable {block : Block α} {around : ℕ → α} {p n offset : ℕ}

@[simp] theorem length_read : (block.read around p n).length = n := by
  simp only [Block.read, List.length_map, List.length_range]

@[simp] theorem length_readAround : (readAround around p n).length = n := by
  simp only [readAround, List.length_map, List.length_range]

theorem read_inside (around : ℕ → α) (h : offset + n ≤ block.cells.length) :
    block.read around (block.base + offset) n = (block.cells.drop offset).take n := by
  apply List.ext_getElem
  · rw [length_read, List.length_take, List.length_drop]
    omega
  · intro i hi _
    rw [length_read] at hi
    have hlt : offset + i < block.cells.length := by omega
    have hcell : block.base + offset + i - block.base = offset + i := by omega
    simp only [Block.read, Block.load, List.getElem_map, List.getElem_range, hcell,
      List.getElem?_eq_getElem hlt, Option.getD_some, List.getElem_take, List.getElem_drop]
    rw [if_pos (by omega)]

theorem load_apart (h : Block.Apart p 1 block.base block.cells.length) :
    block.load around p = around p := by
  unfold Block.Apart at h
  unfold Block.load
  split_ifs with hle
  · rw [List.getElem?_eq_none (by omega)]
    rfl
  · rfl

theorem Apart.subrange {q m k : ℕ} (h : Block.Apart p n q m) (hk : offset + k ≤ n) :
    Block.Apart (p + offset) k q m := by
  unfold Block.Apart at h ⊢
  omega

theorem read_apart (h : Block.Apart p n block.base block.cells.length) :
    block.read around p n = readAround around p n := by
  apply List.map_congr_left
  intro i hi
  have hi := List.mem_range.1 hi
  exact load_apart (Apart.subrange h hi)

end Read

section Write

variable {block : Block α} {around : ℕ → α} {offset n : ℕ} {data : List α}

@[simp] theorem base_write : (block.write offset data).base = block.base := rfl

theorem length_write (h : offset + data.length ≤ block.cells.length) :
    (block.write offset data).cells.length = block.cells.length := by
  simp only [Block.write, List.length_append, List.length_take, List.length_drop]
  omega

theorem take_write (hn : n ≤ offset) (h : offset ≤ block.cells.length) :
    (block.write offset data).cells.take n = block.cells.take n := by
  rw [Block.write, List.append_assoc, List.take_append_of_le_length, List.take_take,
    Nat.min_eq_left hn]
  rw [List.length_take]
  omega

theorem drop_write (data : List α) (h : offset ≤ block.cells.length) :
    (block.write offset data).cells.drop offset =
      data ++ block.cells.drop (offset + data.length) := by
  have hlen : (block.cells.take offset).length = offset := by
    rw [List.length_take]
    omega
  rw [Block.write, List.append_assoc]
  nth_rewrite 1 [← hlen]
  rw [List.drop_left]

theorem take_write_end (h : offset ≤ block.cells.length) (hn : n = offset + data.length) :
    (block.write offset data).cells.take n = block.cells.take offset ++ data := by
  have hlen : (block.cells.take offset ++ data).length = n := by
    rw [List.length_append, List.length_take]
    omega
  rw [Block.write, ← hlen, List.take_left]

end Write

section Moved

variable {block : Block α} {base n : ℕ} {fresh : ℕ → α}

@[simp] theorem base_moved : (block.moved base n fresh).base = base := rfl

@[simp] theorem length_moved : (block.moved base n fresh).cells.length = n := by
  simp only [Block.moved, List.length_take, List.length_append, List.length_map, List.length_range]
  omega

theorem take_moved (base : ℕ) (fresh : ℕ → α) {k : ℕ} (hk : k ≤ n) (h : k ≤ block.cells.length) :
    (block.moved base n fresh).cells.take k = block.cells.take k := by
  rw [Block.moved, List.take_take, Nat.min_eq_left hk, List.take_append_of_le_length h]

end Moved

section Slots

variable {width m n : ℕ} {cells : List α}

@[simp] theorem length_slots : (slots width n cells).length = n := by
  simp only [slots, List.length_map, List.length_range]

@[simp] theorem slots_zero : slots width 0 cells = [] := rfl

theorem getElem?_slots {i : ℕ} (hi : i < n) :
    (slots width n cells)[i]? = some ((cells.drop (i * width)).take width) := by
  simp only [slots, List.getElem?_map, List.getElem?_range hi, Option.map_some]

theorem slots_add (m n : ℕ) :
    slots width (m + n) cells = slots width m cells ++ slots width n (cells.drop (m * width)) := by
  rw [slots, List.range_add, List.map_append, List.map_map]
  congr 1
  apply List.map_congr_left
  intro i _
  simp only [Function.comp_apply, List.drop_drop, Nat.add_mul]

/-- Only the cells of the elements count. -/
theorem slots_take {k : ℕ} (hk : n * width ≤ k) :
    slots width n (cells.take k) = slots width n cells := by
  apply List.map_congr_left
  intro i hi
  have hle : (i + 1) * width ≤ n * width := Nat.mul_le_mul_right _ (List.mem_range.1 hi)
  rw [Nat.succ_mul] at hle
  rw [List.drop_take, List.take_take, Nat.min_eq_left (by omega)]

theorem slots_congr {cells' : List α} (h : cells.take (n * width) = cells'.take (n * width)) :
    slots width n cells = slots width n cells' := by
  rw [← slots_take (Nat.le_refl _), h, slots_take (Nat.le_refl _)]

theorem slots_append (hlen : n * width ≤ cells.length) (rest : List α) :
    slots width n (cells ++ rest) = slots width n cells := by
  rw [← slots_take (Nat.le_refl _), List.take_append_of_le_length hlen, slots_take (Nat.le_refl _)]

theorem take_slots (h : m ≤ n) : (slots width n cells).take m = slots width m cells := by
  rw [slots, ← List.map_take, List.take_range, Nat.min_eq_left h]
  rfl

theorem drop_slots (m : ℕ) :
    (slots width n cells).drop m = slots width (n - m) (cells.drop (m * width)) := by
  rcases Nat.le_total m n with h | h
  · obtain ⟨k, rfl⟩ := Nat.exists_eq_add_of_le h
    have hlen : (slots width m cells).length = m := length_slots
    rw [slots_add, Nat.add_sub_cancel_left]
    nth_rewrite 1 [← hlen]
    rw [List.drop_left]
  · rw [Nat.sub_eq_zero_of_le h, slots_zero, List.drop_of_length_le]
    rw [length_slots]
    exact h

theorem slots_replicate (a : α) : ∀ n, slots width n (List.replicate (n * width) a) =
    List.replicate n (List.replicate width a) := by
  intro n
  apply List.ext_getElem
  · rw [length_slots, List.length_replicate]
  · intro i hi _
    rw [length_slots] at hi
    have hle : (i + 1) * width ≤ n * width := Nat.mul_le_mul_right _ hi
    rw [Nat.succ_mul] at hle
    simp only [slots, List.getElem_map, List.getElem_range, List.getElem_replicate,
      List.drop_replicate, List.take_replicate]
    congr 1
    omega

theorem slots_write {block : Block α} {data : List α} {i : ℕ} (hdata : data.length = n * width)
    (hfits : (i + n) * width ≤ block.cells.length) (k : ℕ) :
    slots width (i + n + k) (block.write (i * width) data).cells =
      slots width i block.cells ++ slots width n data ++
        slots width k (block.cells.drop ((i + n) * width)) := by
  rw [Nat.add_mul] at hfits
  have hdrop := drop_write data (show i * width ≤ block.cells.length by omega)
  have hfront : slots width i (block.write (i * width) data).cells = slots width i block.cells :=
    slots_congr (take_write (Nat.le_refl _) (by omega))
  rw [Nat.add_assoc, slots_add, slots_add, hdrop, hfront, List.append_assoc,
    slots_append (by omega), ← hdata, List.drop_left, hdata, Nat.add_mul]

end Slots

end MemoryBlock
