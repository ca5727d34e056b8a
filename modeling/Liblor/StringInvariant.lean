import Liblor.StringModel

/-!
# What the string functions do

`Inv` says that the memory of a string has room for its capacity and a terminator behind the
contents. `Denotes` says which bytes a view stands for, in terms of the contents alone.
-/

namespace Liblor.OwnedString

open MemoryBlock

structure Inv (string : LorString) : Prop where
  cells : string.block.cells.length = string.capacity + 1
  size_le : string.size ≤ string.capacity
  terminated : string.block.cells[string.size]? = some 0
  header : headerSize ≤ string.base
  placed : string.base + string.capacity + 1 ≤ uintptrMax

def contents : Option LorString → Bytes
  | none => []
  | some string => string.block.cells.take string.size

/-- A block lies inside the address space. -/
def Os.Legal (os : Os) : Prop :=
  ∀ n address, os.realloc n = some address → address + n ≤ uintptrMax

/-- The range meets neither the allocation of the string nor the one that a reallocation returns. -/
structure Outside (os : Os) (handle : Option LorString) (p n : ℕ) : Prop where
  held : ∀ string, handle = some string → Block.Apart p n (string.base - headerSize)
    (headerSize + string.capacity + 1)
  returned : ∀ size address, os.realloc size = some address → Block.Apart p n address size

variable {os : Os} {around : ℕ → UInt8} {string moved : LorString} {handle : Option LorString}
  {view : LorStringView} {required p n : ℕ}

theorem Outside.apart (h : Outside os (some string) p n) (hinv : Inv string) :
    Block.Apart p n string.base string.block.cells.length := by
  have hheld := h.held string rfl
  have hheader := hinv.header
  have hcells := hinv.cells
  unfold Block.Apart at hheld ⊢
  omega

theorem length_contents (hinv : ∀ string, handle = some string → Inv string) :
    (contents handle).length = size handle := by
  cases handle with
  | none => rfl
  | some string =>
      have hcells := (hinv string rfl).cells
      have hsize := (hinv string rfl).size_le
      rw [contents, List.length_take, hcells]
      change min string.size _ = string.size
      omega

theorem Inv.read_contents (h : Inv string) (around : ℕ → UInt8) {offset : ℕ}
    (hle : offset + n ≤ string.size) :
    string.block.read around (string.base + offset) n =
      ((contents (some string)).drop offset).take n := by
  have hcells := h.cells
  have hsize := h.size_le
  rw [contents, List.drop_take, List.take_take, Nat.min_eq_left (by omega)]
  exact read_inside around (by omega)

/-- Storing a terminator behind the first `n` bytes makes them the contents. -/
theorem terminated_spec (block : Block UInt8) {capacity : ℕ}
    (hcells : block.cells.length = capacity + 1) (hn : n ≤ capacity)
    (hheader : headerSize ≤ block.base) (hplaced : block.base + capacity + 1 ≤ uintptrMax) :
    Inv ⟨block.write n [0], n, capacity⟩ ∧
      contents (some ⟨block.write n [0], n, capacity⟩) = block.cells.take n := by
  have hlen : (block.write n [(0 : UInt8)]).cells.length = capacity + 1 := by
    rw [length_write, hcells]
    rw [List.length_singleton]
    omega
  have hdrop := drop_write [(0 : UInt8)] (by omega : n ≤ block.cells.length)
  constructor
  · refine ⟨hlen, hn, ?_, hheader, hplaced⟩
    change (block.write n [(0 : UInt8)]).cells[n]? = some 0
    rw [← Nat.add_zero n, ← List.getElem?_drop, Nat.add_zero, hdrop]
    rfl
  · exact take_write (Nat.le_refl _) (by omega)

/-! ## Capacity -/

/-- `moved` is the string of the handle, or a new one, with room for `required` bytes. -/
structure Grown (os : Os) (handle : Option LorString) (required : ℕ) (moved : LorString) :
    Prop where
  inv : Inv moved
  size : moved.size = size handle
  room : required ≤ moved.capacity
  contents : contents (some moved) = contents handle
  apart : ∀ p n, Outside os handle p n → Block.Apart p n moved.base moved.block.cells.length

theorem Grown.refl (h : Inv string) (hroom : required ≤ string.capacity) :
    Grown os (some string) required string where
  inv := h
  size := rfl
  room := hroom
  contents := rfl
  apart _ _ hout := hout.apart h

theorem growthCapacity_cases (current required : ℕ) :
    (∃ c, growthCapacity current required = some (.overflow, c)) ∨
      ∃ c, growthCapacity current required = some (.ok, c) ∧ required ≤ c ∧ current ≤ c := by
  have hstart : 8 ≤ if current < 16 then 16 else current := by split_ifs <;> omega
  obtain ⟨c, hc, hreq, hcur⟩ := growthLoop_stops hstart required
  unfold growthCapacity
  by_cases hmax : required = sizeMax
  · rw [if_pos hmax]
    exact Or.inl ⟨0, rfl⟩
  · rw [if_neg hmax]
    simp only [hc, Option.bind_eq_bind, Option.bind_some]
    by_cases hover : c = sizeMax
    · rw [if_pos hover]
      exact Or.inl ⟨0, rfl⟩
    · rw [if_neg hover]
      exact Or.inr ⟨c, rfl, hreq, by split_ifs at hcur <;> omega⟩

theorem relocated_grown (hlegal : os.Legal) (hinv : ∀ string, handle = some string → Inv string)
    {address : ℕ} (hsize : size handle ≤ n) (hroom : required ≤ n)
    (hos : os.realloc (headerSize + n + 1) = some address) :
    Grown os handle required (relocated os handle address n) := by
  have hplaced := hlegal _ _ hos
  have hspec := terminated_spec (((handle.map LorString.block).getD ⟨0, []⟩).moved
    (address + headerSize) (n + 1) os.fresh) length_moved hsize (Nat.le_add_left _ _)
    (by rw [base_moved]; omega)
  refine ⟨hspec.1, rfl, hroom, ?_, ?_⟩
  · rw [relocated, hspec.2]
    cases handle with
    | none => rfl
    | some string =>
        have hcells := (hinv string rfl).cells
        have hle := (hinv string rfl).size_le
        change string.size ≤ n at hsize
        exact take_moved _ _ (by omega : string.size ≤ n + 1)
          (by omega : string.size ≤ string.block.cells.length)
  · intro p k hout
    have hreturned := hout.returned _ _ hos
    have hcells : (relocated os handle address n).block.cells.length = n + 1 := hspec.1.cells
    rw [hcells]
    change Block.Apart p k (address + headerSize) (n + 1)
    unfold Block.Apart at hreturned ⊢
    omega

theorem reserve_cases (hlegal : os.Legal) (hinv : ∀ string, handle = some string → Inv string)
    (required : ℕ) :
    ∃ status handle', reserve os handle required = some (status, handle') ∧
      (status ≠ .ok ∧ handle' = handle ∨
        status = .ok ∧ required ≤ capacity handle ∧ handle' = handle ∨
        status = .ok ∧ ∃ moved, handle' = some moved ∧ Grown os handle required moved) := by
  unfold reserve
  dsimp only
  by_cases hroom : required ≤ capacity handle
  · rw [if_pos hroom]
    exact ⟨_, _, rfl, Or.inr (Or.inl ⟨rfl, hroom, rfl⟩)⟩
  rw [if_neg hroom]
  obtain ⟨c, hc⟩ | ⟨c, hc, hreq, hcur⟩ := growthCapacity_cases (capacity handle) required
  · rw [hc]
    exact ⟨_, _, rfl, Or.inl ⟨by simp, rfl⟩⟩
  simp only [hc, Option.bind_eq_bind, Option.bind_some, ne_eq, not_true_eq_false, if_false]
  by_cases hover : c > sizeMax - headerSize - 1
  · rw [if_pos hover]
    exact ⟨_, _, rfl, Or.inl ⟨by simp, rfl⟩⟩
  rw [if_neg hover]
  cases hos : os.realloc (headerSize + c + 1) with
  | none => exact ⟨_, _, rfl, Or.inl ⟨by simp, rfl⟩⟩
  | some address =>
      refine ⟨_, _, rfl, Or.inr (Or.inr ⟨rfl, _, rfl, ?_⟩)⟩
      apply relocated_grown hlegal hinv _ hreq hos
      cases handle with
      | none => exact Nat.zero_le _
      | some string => exact (hinv string rfl).size_le.trans hcur

end Liblor.OwnedString
