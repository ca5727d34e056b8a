import Liblor.ArrayModel

/-!
# What the array functions do

`Inv` says that the memory of an array has room for its capacity, and `elements` cuts the
initialized part of it into the elements. Each function that may grow an array is described once, by
all its outcomes.
-/

namespace Liblor.DynArray

open MemoryBlock

structure Inv (array : LorArray) : Prop where
  elementSize_pos : 0 < array.elementSize
  cells : array.block.cells.length = array.capacity * array.elementSize
  size_le : array.size ≤ array.capacity
  header : headerSize ≤ array.base
  placed : array.base + array.capacity * array.elementSize ≤ uintptrMax

def elements : Option LorArray → List Bytes
  | none => []
  | some array => slots array.elementSize array.size array.block.cells

def Os.Legal (os : Os) : Prop :=
  ∀ n address, os.realloc n = some address → address + n ≤ uintptrMax

/-- The range meets neither the allocation of the array nor the one that a reallocation returns. -/
structure Outside (os : Os) (handle : Option LorArray) (p n : ℕ) : Prop where
  held : ∀ array, handle = some array → Block.Apart p n (array.base - headerSize)
    (headerSize + array.capacity * array.elementSize)
  returned : ∀ size address, os.realloc size = some address → Block.Apart p n address size

variable {os : Os} {around : ℕ → UInt8} {array moved : LorArray} {handle : Option LorArray}
  {width required : ℕ}

theorem validElementSize_some {n : ℕ} (h : validElementSize (some array) n = true) :
    array.elementSize = n := by
  simp only [validElementSize, Bool.and_eq_true, beq_iff_eq] at h
  exact h.2

theorem validElementSize_pos {n : ℕ} (h : validElementSize handle n = true) : 0 < n := by
  simp only [validElementSize, Bool.and_eq_true, bne_iff_ne] at h
  omega

theorem Inv.fits (h : Inv array) {n : ℕ} (hn : n ≤ array.capacity) :
    n * array.elementSize ≤ array.block.cells.length := by
  rw [h.cells]
  exact Nat.mul_le_mul_right _ hn

theorem Outside.apart (h : Outside os (some array) width required) (hinv : Inv array) :
    Block.Apart width required array.base array.block.cells.length := by
  have hheld := h.held array rfl
  have hheader := hinv.header
  have hcells := hinv.cells
  unfold Block.Apart at hheld ⊢
  omega

/-! ## Capacity -/

/-- `moved` is the array of the handle, or a new one, with room for `required` elements. -/
structure Grown (os : Os) (handle : Option LorArray) (width required : ℕ) (moved : LorArray) :
    Prop where
  inv : Inv moved
  size : moved.size = size handle
  elementSize : moved.elementSize = width
  room : required ≤ moved.capacity
  elements : slots width (DynArray.size handle) moved.block.cells = elements handle
  kept : ∀ array, handle = some array → ∀ offset n, offset + n ≤ array.size * width →
    (moved.block.cells.drop offset).take n = (array.block.cells.drop offset).take n
  apart : ∀ p n, Outside os handle p n → Block.Apart p n moved.base moved.block.cells.length

theorem Grown.refl (h : Inv array) (hroom : required ≤ array.capacity) :
    Grown os (some array) array.elementSize required array where
  inv := h
  size := rfl
  elementSize := rfl
  room := hroom
  elements := rfl
  kept := by
    rintro _ ⟨⟩ offset n _
    rfl
  apart p n hout := hout.apart h

theorem growthCapacity_spec (current required : ℕ) :
    ∃ c, growthCapacity current required = some c ∧ required ≤ c ∧ current ≤ c := by
  have hstart : 8 ≤ if current < 8 then 8 else current := by split_ifs <;> omega
  obtain ⟨c, hc, hreq, hcur⟩ := growthLoop_stops hstart required
  exact ⟨c, hc, hreq, by split_ifs at hcur <;> omega⟩

theorem relocated_grown (hlegal : os.Legal) (hinv : ∀ array, handle = some array → Inv array)
    (hvalid : validElementSize handle width = true) {n address : ℕ} (hsize : size handle ≤ n)
    (hroom : required ≤ n) (hos : os.realloc (headerSize + n * width) = some address) :
    Grown os handle width required (relocated os handle width address n) := by
  have hplaced := hlegal _ _ hos
  have happart : ∀ p k, Outside os handle p k →
      Block.Apart p k (address + headerSize) (n * width) := by
    intro p k hout
    have hreturned := hout.returned _ _ hos
    unfold Block.Apart at hreturned ⊢
    omega
  cases handle with
  | none =>
      refine ⟨⟨validElementSize_pos hvalid, ?_, Nat.zero_le _, Nat.le_add_left _ _, ?_⟩, rfl, rfl,
        hroom, rfl, by simp, ?_⟩
      · exact length_moved
      · change address + headerSize + n * width ≤ uintptrMax
        omega
      · intro p k hout
        change Block.Apart p k (address + headerSize) (Block.moved _ _ _ _).cells.length
        rw [length_moved]
        exact happart p k hout
  | some array =>
      obtain rfl := validElementSize_some hvalid
      have h := hinv array rfl
      change array.size ≤ n at hsize
      have hfit : array.size * array.elementSize ≤ n * array.elementSize :=
        Nat.mul_le_mul_right _ hsize
      have hcells := h.fits h.size_le
      have htake := take_moved (address + headerSize) os.fresh hfit hcells
      refine ⟨⟨h.elementSize_pos, length_moved, hsize, Nat.le_add_left _ _, ?_⟩, rfl, rfl, hroom,
        slots_congr htake, ?_, ?_⟩
      · change address + headerSize + n * array.elementSize ≤ uintptrMax
        omega
      · rintro _ ⟨⟩ offset k hle
        have hk : offset + k ≤ n * array.elementSize := by omega
        have hk' := take_moved (address + headerSize) os.fresh hk
          (by omega : offset + k ≤ array.block.cells.length)
        have hdrop := congrArg (List.drop offset) hk'
        rw [List.drop_take, List.drop_take, Nat.add_sub_cancel_left] at hdrop
        exact hdrop
      · intro p k hout
        change Block.Apart p k (address + headerSize) (Block.moved _ _ _ _).cells.length
        rw [length_moved]
        exact happart p k hout

/-- Everything that `lor_array_reserve_raw` can do to a handle. -/
theorem reserveRaw_cases (hlegal : os.Legal) (hinv : ∀ array, handle = some array → Inv array)
    (width required : ℕ) :
    ∃ status handle', reserveRaw os handle width required = some (status, handle') ∧
      (status ≠ .ok ∧ handle' = handle ∧
          (validElementSize handle width = true → status ≠ .invalidArgument) ∨
        status = .ok ∧ required ≤ capacity handle ∧ handle' = handle ∨
        status = .ok ∧ ∃ moved, handle' = some moved ∧ Grown os handle width required moved) := by
  unfold reserveRaw
  split_ifs with hvalid hroom
  · refine ⟨_, _, rfl, Or.inl ⟨by simp, rfl, ?_⟩⟩
    intro htrue
    rw [htrue] at hvalid
    cases hvalid
  · exact ⟨_, _, rfl, Or.inr (Or.inl ⟨rfl, hroom, rfl⟩)⟩
  have hvalid' : validElementSize handle width = true := by simpa using hvalid
  obtain ⟨c, hc, hreq, hcur⟩ := growthCapacity_spec (capacity handle) required
  simp only [hc, Option.bind_eq_bind, Option.bind_some]
  split_ifs with hover
  · exact ⟨_, _, rfl, Or.inl ⟨by simp, rfl, by simp⟩⟩
  cases hos : os.realloc (headerSize + c * width) with
  | none => exact ⟨_, _, rfl, Or.inl ⟨by simp, rfl, by simp⟩⟩
  | some address =>
      refine ⟨_, _, rfl, Or.inr (Or.inr ⟨rfl, _, rfl, ?_⟩)⟩
      apply relocated_grown hlegal hinv hvalid' _ hreq hos
      cases handle with
      | none => exact Nat.zero_le _
      | some array => exact (hinv array rfl).size_le.trans hcur

theorem reserveRaw_grown (hlegal : os.Legal) (hinv : ∀ array, handle = some array → Inv array)
    (hvalid : validElementSize handle width = true) {required : ℕ} (hpos : 0 < required) :
    (∃ status, reserveRaw os handle width required = some (status, handle) ∧ status ≠ .ok ∧
        status ≠ .invalidArgument) ∨
      ∃ moved, reserveRaw os handle width required = some (.ok, some moved) ∧
        Grown os handle width required moved := by
  obtain ⟨status, handle', heq, ⟨hbad, rfl, hnot⟩ | ⟨rfl, hroom, rfl⟩
    | ⟨rfl, moved, rfl, hgrown⟩⟩ :=
    reserveRaw_cases hlegal hinv width required
  · exact Or.inl ⟨status, heq, hbad, hnot hvalid⟩
  · cases handle' with
    | none =>
        change required ≤ 0 at hroom
        omega
    | some array =>
        obtain rfl := validElementSize_some hvalid
        exact Or.inr ⟨array, heq, Grown.refl (hinv array rfl) hroom⟩
  · exact Or.inr ⟨moved, heq, hgrown⟩

theorem Inv.store (h : Inv array) {data : Bytes} {i n newSize : ℕ}
    (hdata : data.length = n * array.elementSize) (hfits : i + n ≤ array.capacity)
    (hsize : newSize ≤ array.capacity) :
    Inv { array with
      block := array.block.write (i * array.elementSize) data, size := newSize } := by
  refine ⟨h.elementSize_pos, ?_, hsize, h.header, h.placed⟩
  have hle := h.fits hfits
  rw [Nat.add_mul, ← hdata] at hle
  change (array.block.write (i * array.elementSize) data).cells.length = _
  rw [length_write hle, h.cells]

/-! ## Source arguments -/

def sourceBytes (handle : Option LorArray) (around : ℕ → UInt8) (p n : ℕ) : Bytes :=
  match handle with
  | none => readAround around p n
  | some array => array.block.read around p n

/-- The range lies in the initialized elements, at any offset in bytes. -/
def Inside (handle : Option LorArray) (p n : ℕ) : Prop :=
  ∃ array offset, handle = some array ∧ p = array.base + offset ∧
    offset + n ≤ array.size * array.elementSize

theorem Inv.content_le (h : Inv array) :
    array.size * array.elementSize ≤ array.capacity * array.elementSize :=
  Nat.mul_le_mul_right _ h.size_le

theorem Inv.capacity_fits (h : Inv array) : ¬ array.capacity > sizeMax / array.elementSize := by
  have hplaced := h.placed
  rw [gt_iff_lt, not_lt, Nat.le_div_iff_mul_le h.elementSize_pos]
  unfold uintptrMax at hplaced
  unfold sizeMax
  omega

theorem sourceOffset_inside (h : Inv array) {offset n : ℕ}
    (hle : offset + n ≤ array.size * array.elementSize) :
    sourceOffset (some array) (array.base + offset) n = (1, offset) := by
  have hheader := h.header
  have hcontent := h.content_le
  have hplaced := h.placed
  have hfits := h.capacity_fits
  unfold headerSize at hheader
  simp only [sourceOffset]
  rw [if_neg (by omega), if_neg hfits, if_neg (by omega), if_neg (by omega), if_neg (by omega),
    if_neg (by omega), Nat.add_sub_cancel_left]

/-- What the classification answers for a range outside the allocation: it is an alias of nothing,
unless it starts at the first byte behind the allocation. -/
theorem sourceOffset_outside (h : Inv array) {p n : ℕ} (hn : n ≠ 0) (happart : Block.Apart p n
    (array.base - headerSize) (headerSize + array.capacity * array.elementSize)) :
    (p ≠ array.base + array.capacity * array.elementSize →
        sourceOffset (some array) p n = (0, 0)) ∧
      (p = array.base + array.capacity * array.elementSize →
        sourceOffset (some array) p n = (-1, 0)) := by
  have hheader := h.header
  have hcontent := h.content_le
  have hplaced := h.placed
  have hfits := h.capacity_fits
  unfold Block.Apart at happart
  unfold headerSize at hheader happart
  constructor
  · intro hne
    simp only [sourceOffset]
    split_ifs <;> first | rfl | omega
  · rintro rfl
    simp only [sourceOffset]
    rw [if_neg (by omega), if_neg hfits, if_neg (by omega), if_neg (by omega)]
    split_ifs <;> first | rfl | omega

/-- A range that is outside and not adjacent, or inside, is classified as what it is. -/
theorem sourceOffset_cases (os : Os) (around : ℕ → UInt8)
    (hinv : ∀ array, handle = some array → Inv array) {p n : ℕ}
    (hn : n ≠ 0)
    (hsource : (Outside os handle p n ∧ ∀ array, handle = some array →
      p ≠ array.base + array.capacity * array.elementSize) ∨ Inside handle p n) :
    (sourceOffset handle p n = (0, 0) ∧ Outside os handle p n ∧
        sourceBytes handle around p n = readAround around p n) ∨
      ∃ array offset, handle = some array ∧ sourceOffset handle p n = (1, offset) ∧
        offset + n ≤ array.size * array.elementSize ∧
        sourceBytes handle around p n = (array.block.cells.drop offset).take n := by
  obtain ⟨hout, hne⟩ | ⟨array, offset, rfl, rfl, hle⟩ := hsource
  · left
    cases handle with
    | none => exact ⟨rfl, hout, rfl⟩
    | some array =>
        have h := hinv array rfl
        exact ⟨(sourceOffset_outside h hn (hout.held array rfl)).1 (hne array rfl), hout,
          read_apart (hout.apart h)⟩
  · right
    have h := hinv array rfl
    have hfits := h.fits h.size_le
    exact ⟨array, offset, rfl, sourceOffset_inside h hle, hle, read_inside around (by omega)⟩

theorem Grown.read_outside (h : Grown os handle width required moved) {p n : ℕ}
    (hout : Outside os handle p n) : moved.block.read around p n = readAround around p n :=
  read_apart (h.apart p n hout)

theorem Grown.read_inside (h : Grown os (some array) width required moved)
    (hwidth : array.elementSize = width) {offset n : ℕ}
    (hle : offset + n ≤ array.size * array.elementSize) :
    moved.block.read around (moved.base + offset) n = (array.block.cells.drop offset).take n := by
  subst hwidth
  have hsize : moved.size = array.size := h.size
  have hfits := h.inv.fits h.inv.size_le
  rw [h.elementSize, hsize] at hfits
  rw [← h.kept array rfl offset n hle]
  exact MemoryBlock.read_inside around (by omega)

/-! ## Storing the source -/

theorem Grown.append (h : Grown os handle width required moved) {data : Bytes} {count : ℕ}
    (hdata : data.length = count * width) (hrequired : required = DynArray.size handle + count) :
    let stored : LorArray := { moved with
      block := moved.block.write (DynArray.size handle * width) data, size := required }
    Inv stored ∧ DynArray.elements (some stored) =
      DynArray.elements handle ++ slots width count data := by
  intro stored
  have hwidth := h.elementSize
  have hroom := h.room
  subst hwidth
  have hstore := h.inv.store hdata (by omega : DynArray.size handle + count ≤ moved.capacity) hroom
  refine ⟨hstore, ?_⟩
  have hslots :=
    slots_write hdata (h.inv.fits (by omega : DynArray.size handle + count ≤ moved.capacity)) 0
  rw [Nat.add_zero, slots_zero, List.append_nil, h.elements] at hslots
  change slots moved.elementSize required _ = _
  rw [hrequired]
  exact hslots

end Liblor.DynArray
