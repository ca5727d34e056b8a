import Liblor.ArrayInvariant

/-!
# The array functions as list operations

What each function does to the elements, as an operation on lists: growing ones fail and leave the
handle as it was, or succeed with the elements changed as a list would be.
-/

namespace Liblor.DynArray

open MemoryBlock

variable {os : Os} {around : ℕ → UInt8} {array moved : LorArray} {handle : Option LorArray}
  {width required : ℕ}

theorem length_elements (handle : Option LorArray) : (elements handle).length = size handle := by
  cases handle with
  | none => rfl
  | some array => exact length_slots

theorem elements_truncate (array : LorArray) {n : ℕ} (h : n ≤ array.size) :
    elements (some { array with size := n }) = (elements (some array)).take n := by
  change slots array.elementSize n array.block.cells = _
  rw [← take_slots h]
  rfl

theorem Inv.truncate (h : Inv array) {n : ℕ} (hn : n ≤ array.size) :
    Inv { array with size := n } :=
  ⟨h.elementSize_pos, h.cells, hn.trans h.size_le, h.header, h.placed⟩

/-! ## Resizing -/

/-- The elements after a successful resize. -/
def resized (width newSize : ℕ) (xs : List Bytes) : List Bytes :=
  xs.take newSize ++ List.replicate (newSize - xs.length) (List.replicate width 0)

/-- What a call that may grow the array can lead to: a failure that changes nothing, or these
elements. -/
def Yields (handle : Option LorArray) (xs : List Bytes) (result : Status × Option LorArray) :
    Prop :=
  result.1 ≠ .ok ∧ result.2 = handle ∨
    result.1 = .ok ∧ (∀ array, result.2 = some array → Inv array) ∧ elements result.2 = xs

theorem Yields.fail {status : Status} (h : status ≠ .ok) (xs : List Bytes) :
    Yields handle xs (status, handle) := Or.inl ⟨h, rfl⟩

theorem reserveRaw_yields (hlegal : os.Legal) (hinv : ∀ array, handle = some array → Inv array)
    (width required : ℕ) :
    ∃ result, reserveRaw os handle width required = some result ∧
      Yields handle (elements handle) result := by
  obtain ⟨status, handle', heq, ⟨hbad, rfl, -⟩ | ⟨rfl, -, rfl⟩ | ⟨rfl, moved, rfl, hgrown⟩⟩ :=
    reserveRaw_cases hlegal hinv width required
  · exact ⟨_, heq, Yields.fail hbad _⟩
  · exact ⟨_, heq, Or.inr ⟨rfl, hinv, rfl⟩⟩
  · refine ⟨_, heq, Or.inr ⟨rfl, by rintro _ ⟨⟩; exact hgrown.inv, ?_⟩⟩
    rw [← hgrown.elements, ← hgrown.size, ← hgrown.elementSize]
    rfl

theorem resizeRaw_yields (hlegal : os.Legal) (hinv : ∀ array, handle = some array → Inv array)
    (newSize : ℕ) :
    ∃ result, resizeRaw os handle width newSize = some result ∧
      Yields handle (resized width newSize (elements handle)) result := by
  unfold resizeRaw
  dsimp only
  split_ifs with hvalid hgrow
  · exact ⟨_, rfl, Yields.fail (by simp) _⟩
  · have hvalid' : validElementSize handle width = true := by simpa using hvalid
    obtain ⟨status, heq, hbad, -⟩ | ⟨moved, heq, hgrown⟩ :=
      reserveRaw_grown hlegal hinv hvalid' (Nat.zero_lt_of_lt hgrow)
    · simp only [heq, Option.bind_eq_bind, Option.bind_some, if_pos hbad]
      exact ⟨_, rfl, Yields.fail hbad _⟩
    · simp only [heq, Option.bind_eq_bind, Option.bind_some, ne_eq, not_true_eq_false, if_false]
      have hlen : (List.replicate ((newSize - size handle) * width) (0 : UInt8)).length =
          (newSize - size handle) * width := List.length_replicate
      obtain ⟨hstored, hxs⟩ := hgrown.append hlen (by omega : newSize = _ + (newSize - size handle))
      refine ⟨_, rfl, Or.inr ⟨rfl, by rintro _ ⟨⟩; exact hstored, ?_⟩⟩
      rw [slots_replicate] at hxs
      rw [resized, length_elements, List.take_of_length_le (by rw [length_elements]; omega)]
      exact hxs
  · refine ⟨_, rfl, Or.inr ⟨rfl, ?_, ?_⟩⟩
    · intro array harray
      obtain ⟨old, rfl, rfl⟩ := Option.map_eq_some_iff.1 harray
      exact (hinv old rfl).truncate (Nat.not_lt.1 hgrow)
    · have hle : newSize ≤ size handle := Nat.not_lt.1 hgrow
      have hnone : newSize - (elements handle).length = 0 := by
        rw [length_elements]
        omega
      rw [resized, hnone, List.replicate_zero, List.append_nil]
      cases handle with
      | none => simp [elements]
      | some array => exact elements_truncate array hle

theorem shrinkToFitRaw_yields (hlegal : os.Legal)
    (hinv : ∀ array, handle = some array → Inv array) :
    Yields handle (elements handle) (shrinkToFitRaw os handle width) := by
  unfold shrinkToFitRaw
  split_ifs with hvalid
  · exact Yields.fail (by simp) _
  cases handle with
  | none => exact Or.inr ⟨rfl, by simp, rfl⟩
  | some array =>
      have h := hinv array rfl
      have hwidth : array.elementSize = width := validElementSize_some (by simpa using hvalid)
      subst hwidth
      dsimp only
      split_ifs with hfull hempty hover
      · exact Or.inr ⟨rfl, hinv, rfl⟩
      · refine Or.inr ⟨rfl, by simp, ?_⟩
        simp only [elements, hempty, slots_zero]
      · exact Yields.fail (by simp) _
      · cases hos : os.realloc (headerSize + array.size * array.elementSize) with
        | none => exact Yields.fail (by simp) _
        | some address =>
            have hplaced := hlegal _ _ hos
            refine Or.inr ⟨rfl, ?_, ?_⟩
            · rintro _ ⟨⟩
              refine ⟨h.elementSize_pos, length_moved, Nat.le_refl _, Nat.le_add_left _ _, ?_⟩
              change address + headerSize + array.size * array.elementSize ≤ uintptrMax
              omega
            · exact slots_congr (take_moved _ _ (Nat.le_refl _) (h.fits h.size_le))

/-! ## Appending and inserting -/

/-- Where a source of `count` elements may lie: outside the allocation and not right behind it, or
inside the initialized elements. Nothing is asked of a source that is not read. -/
def SourceOk (os : Os) (handle : Option LorArray) (p count width : ℕ) : Prop :=
  p ≠ 0 → count ≠ 0 → count * width ≤ sizeMax →
    (Outside os handle p (count * width) ∧ ∀ array, handle = some array →
      p ≠ array.base + array.capacity * array.elementSize) ∨ Inside handle p (count * width)

theorem mul_le_sizeMax {count : ℕ} (hwidth : 0 < width) (h : ¬ count > sizeMax / width) :
    count * width ≤ sizeMax := (Nat.le_div_iff_mul_le hwidth).1 (Nat.not_lt.1 h)

theorem length_sourceBytes (handle : Option LorArray) (around : ℕ → UInt8) (p n : ℕ) :
    (sourceBytes handle around p n).length = n := by
  cases handle with
  | none => exact length_readAround
  | some array => exact length_read

/-- The elements behind a source argument. -/
def sourceElements (handle : Option LorArray) (around : ℕ → UInt8) (p count width : ℕ) :
    List Bytes := slots width count (sourceBytes handle around p (count * width))

/-- The checks that an append or an insert of some element passes before it looks at its source. -/
structure Checked (handle : Option LorArray) (width p count : ℕ) : Prop where
  nonnull : ¬(p = 0 ∧ count ≠ 0)
  valid : validElementSize handle width = true
  count_ne : count ≠ 0
  bytes_le : ¬ count > sizeMax / width
  size_le : ¬ count > sizeMax - size handle

theorem Checked.bytes_ne {p count : ℕ} (h : Checked handle width p count) : count * width ≠ 0 :=
  Nat.mul_ne_zero h.count_ne (validElementSize_pos h.valid).ne'

theorem Checked.source {p count : ℕ} (h : Checked handle width p count)
    (hsource : SourceOk os handle p count width) :
    (Outside os handle p (count * width) ∧ ∀ array, handle = some array →
      p ≠ array.base + array.capacity * array.elementSize) ∨ Inside handle p (count * width) :=
  hsource (fun hp => h.nonnull ⟨hp, h.count_ne⟩) h.count_ne
    (mul_le_sizeMax (validElementSize_pos h.valid) h.bytes_le)

theorem appendRaw_checked {p count : ℕ} (h : Checked handle width p count) :
    appendRaw os around handle width p count =
      if (sourceOffset handle p (count * width)).1 < 0 then some (.invalidArgument, handle)
      else (reserveRaw os handle width (size handle + count)).bind fun (status, moved) =>
        if status ≠ .ok then some (status, moved)
        else some (.ok, moved.map fun array => { array with
          block := array.block.write (size handle * width) (array.block.read around
            (if (sourceOffset handle p (count * width)).1 > 0 then
              array.base + (sourceOffset handle p (count * width)).2 else p) (count * width))
          size := size handle + count }) := by
  have hvalid := h.valid
  unfold appendRaw
  rw [if_neg h.nonnull, if_neg (by simp [hvalid]), if_neg h.count_ne, if_neg h.bytes_le]
  dsimp only
  rw [if_neg h.size_le]
  rfl

theorem appendRaw_unchecked (hinv : ∀ array, handle = some array → Inv array) {p count : ℕ}
    (h : ¬ Checked handle width p count) :
    ∃ result, appendRaw os around handle width p count = some result ∧
      Yields handle (elements handle ++ sourceElements handle around p count width) result := by
  by_cases hnull : p = 0 ∧ count ≠ 0
  · exact ⟨_, if_pos hnull, Yields.fail (by simp) _⟩
  by_cases hvalid : validElementSize handle width = true
  · by_cases hzero : count = 0
    · subst hzero
      refine ⟨(.ok, handle), ?_, Or.inr ⟨rfl, hinv, ?_⟩⟩
      · rw [appendRaw, if_neg hnull, if_neg (by simp [hvalid]), if_pos rfl]
      · rw [sourceElements, slots_zero, List.append_nil]
    by_cases hover : count > sizeMax / width
    · refine ⟨(.overflow, handle), ?_, Yields.fail (by simp) _⟩
      rw [appendRaw, if_neg hnull, if_neg (by simp [hvalid]), if_neg hzero, if_pos hover]
    by_cases hsum : count > sizeMax - size handle
    · refine ⟨(.overflow, handle), ?_, Yields.fail (by simp) _⟩
      rw [appendRaw, if_neg hnull, if_neg (by simp [hvalid]), if_neg hzero, if_neg hover]
      exact if_pos hsum
    · exact absurd ⟨hnull, hvalid, hzero, hover, hsum⟩ h
  · refine ⟨(.invalidArgument, handle), ?_, Yields.fail (by simp) _⟩
    rw [appendRaw, if_neg hnull, if_pos (by simpa using hvalid)]

/-- Past the checks, a source that is where it may be is never rejected. -/
theorem appendRaw_accepts (around : ℕ → UInt8) (hlegal : os.Legal)
    (hinv : ∀ array, handle = some array → Inv array) {p count : ℕ}
    (h : Checked handle width p count) (hsource : SourceOk os handle p count width) :
    ∃ result, appendRaw os around handle width p count = some result ∧
      result.1 ≠ .invalidArgument ∧
      Yields handle (elements handle ++ sourceElements handle around p count width) result := by
  have hcases := sourceOffset_cases os around hinv h.bytes_ne (h.source hsource)
  have hnonneg : ¬ (sourceOffset handle p (count * width)).1 < 0 := by
    obtain ⟨hclass, -⟩ | ⟨array, offset, -, hclass, -⟩ := hcases <;> simp [hclass]
  rw [appendRaw_checked h, if_neg hnonneg]
  obtain ⟨status, heq, hbad, hnot⟩ | ⟨moved, heq, hgrown⟩ :=
    reserveRaw_grown hlegal hinv h.valid (by have := h.count_ne; omega : 0 < size handle + count)
  · rw [heq, Option.bind_some]
    dsimp only
    rw [if_pos hbad]
    exact ⟨_, rfl, hnot, Yields.fail hbad _⟩
  · rw [heq, Option.bind_some]
    dsimp only
    rw [if_neg (by simp)]
    have hread : moved.block.read around (if (sourceOffset handle p (count * width)).1 > 0 then
        moved.base + (sourceOffset handle p (count * width)).2 else p) (count * width) =
          sourceBytes handle around p (count * width) := by
      obtain ⟨hclass, hout, hbytes⟩ | ⟨array, offset, rfl, hclass, hle, hbytes⟩ := hcases
      · rw [hclass, hbytes, if_neg (lt_irrefl _)]
        exact hgrown.read_outside hout
      · rw [hclass, hbytes, if_pos zero_lt_one]
        exact hgrown.read_inside (validElementSize_some h.valid) hle
    have hdone := hgrown.append (length_sourceBytes handle around p (count * width)) rfl
    refine ⟨_, rfl, by simp, Or.inr ⟨rfl, ?_, ?_⟩⟩
    · rw [Option.map_some, hread]
      rintro _ ⟨⟩
      exact hdone.1
    · rw [Option.map_some, hread]
      exact hdone.2

theorem appendRaw_yields (around : ℕ → UInt8) (hlegal : os.Legal)
    (hinv : ∀ array, handle = some array → Inv array) {p count : ℕ}
    (hsource : SourceOk os handle p count width) :
    ∃ result, appendRaw os around handle width p count = some result ∧
      Yields handle (elements handle ++ sourceElements handle around p count width) result := by
  by_cases h : Checked handle width p count
  · obtain ⟨result, heq, -, hyields⟩ := appendRaw_accepts around hlegal hinv h hsource
    exact ⟨result, heq, hyields⟩
  · exact appendRaw_unchecked hinv h

theorem appendArrayRaw_yields (around : ℕ → UInt8) (hlegal : os.Legal)
    (hinv : ∀ array, handle = some array → Inv array) (source : SourceArray)
    (sourceElementSize : ℕ)
    (hsource : SourceOk os handle (source.address handle) (source.size handle) width) :
    ∃ result, appendArrayRaw os around handle width source sourceElementSize = some result ∧
      Yields handle (elements handle ++
        sourceElements handle around (source.address handle) (source.size handle) width)
          result := by
  unfold appendArrayRaw
  split_ifs
  · exact ⟨_, rfl, Yields.fail (by simp) _⟩
  · exact ⟨_, rfl, Yields.fail (by simp) _⟩
  · exact appendRaw_yields around hlegal hinv hsource

/-- Making room leaves the elements before `index` where they are and moves the others. -/
theorem shiftTail_spec (around : ℕ → UInt8) (h : Inv array) {oldSize index count : ℕ}
    (hindex : index ≤ oldSize)
    (hfits : oldSize + count ≤ array.capacity) :
    ∃ block, shiftTail around array oldSize index (count * array.elementSize) =
        { array with block := block } ∧ block.base = array.block.base ∧
      block.cells.length = array.block.cells.length ∧
      slots array.elementSize index block.cells = slots array.elementSize index array.block.cells ∧
      slots array.elementSize (oldSize - index)
          (block.cells.drop ((index + count) * array.elementSize)) =
        slots array.elementSize (oldSize - index)
          (array.block.cells.drop (index * array.elementSize)) := by
  unfold shiftTail
  dsimp only
  by_cases htail : oldSize - index = 0
  · rw [if_neg (not_not.2 htail), htail]
    exact ⟨array.block, rfl, rfl, rfl, rfl, rfl⟩
  rw [if_pos htail]
  have hend : index * array.elementSize + (oldSize - index) * array.elementSize =
      oldSize * array.elementSize := by
    rw [← Nat.add_mul, Nat.add_sub_cancel' hindex]
  have hroom := h.fits hfits
  rw [Nat.add_mul] at hroom
  have hread := MemoryBlock.read_inside around
    (show index * array.elementSize + (oldSize - index) * array.elementSize ≤
      array.block.cells.length by omega)
  have hlen : (array.block.read around (array.base + index * array.elementSize)
      ((oldSize - index) * array.elementSize)).length =
        (oldSize - index) * array.elementSize := length_read
  rw [← Nat.add_mul]
  have hstart : (index + count) * array.elementSize + (oldSize - index) * array.elementSize =
      oldSize * array.elementSize + count * array.elementSize := by
    rw [← Nat.add_mul, ← Nat.add_mul]
    congr 1
    omega
  refine ⟨_, rfl, rfl, length_write (by rw [hlen]; omega), ?_, ?_⟩
  · apply slots_congr
    apply take_write
    · exact Nat.mul_le_mul_right _ (Nat.le_add_right _ _)
    · omega
  · rw [drop_write _ (by omega), slots_append (Nat.le_of_eq hlen.symm)]
    change slots _ _ (array.block.read around (array.block.base + _) _) = _
    rw [hread, slots_take (Nat.le_refl _)]

/-- The array after room has been made at `index` and `data` has been stored there. -/
theorem Grown.insert (around : ℕ → UInt8) (h : Grown os handle width required moved) {data : Bytes}
    {index count : ℕ} (hdata : data.length = count * width) (hindex : index ≤ DynArray.size handle)
    (hrequired : required = DynArray.size handle + count) :
    let shifted := shiftTail around moved (DynArray.size handle) index (count * width)
    let stored : LorArray := { shifted with
      block := shifted.block.write (index * width) data, size := required }
    shifted.block.base = moved.block.base ∧
      shifted.block.cells.length = moved.block.cells.length ∧ Inv stored ∧
      DynArray.elements (some stored) = (DynArray.elements handle).take index ++
        slots width count data ++ (DynArray.elements handle).drop index := by
  intro shifted stored
  have hwidth := h.elementSize
  have hroom := h.room
  have hinv := h.inv
  subst hwidth
  obtain ⟨block, hshift, hbase, hlen, hfront, hback⟩ :=
    shiftTail_spec around hinv hindex (hrequired ▸ hroom)
  have hshifted : shifted = { moved with block := block } := hshift
  have hinv' : Inv { moved with block := block } := by
    have hheader := hinv.header
    have hplaced := hinv.placed
    unfold LorArray.base at hheader hplaced
    rw [← hbase] at hheader hplaced
    exact ⟨hinv.elementSize_pos, hlen.trans hinv.cells, hinv.size_le, hheader, hplaced⟩
  have hstore := hinv'.store hdata (by omega : index + count ≤ moved.capacity) hroom
  refine ⟨by rw [hshifted, hbase], by rw [hshifted, hlen], ?_, ?_⟩
  · simp only [stored, hshifted]
    exact hstore
  · have hslots := slots_write hdata
      (hinv'.fits (by omega : index + count ≤ moved.capacity)) (DynArray.size handle - index)
    have hcount : index + count + (DynArray.size handle - index) = required := by omega
    rw [hcount, hfront, hback, ← take_slots hindex, ← drop_slots, h.elements] at hslots
    simp only [stored, hshifted]
    exact hslots

theorem insertRaw_checked {p count index : ℕ} (h : Checked handle width p count)
    (hindex : index ≤ size handle) :
    insertRaw os around handle width index p count =
      if (sourceOffset handle p (count * width)).1 < 0 then some (.invalidArgument, handle)
      else if (sourceOffset handle p (count * width)).1 > 0 then
        match os.malloc (count * width) with
        | none => some (.outOfMemory, handle)
        | some _ => insertPrepared os around handle width index p count
            (handle.map fun array => array.block.read around
              (array.base + (sourceOffset handle p (count * width)).2) (count * width))
      else insertPrepared os around handle width index p count none := by
  have hvalid := h.valid
  unfold insertRaw
  rw [if_neg h.nonnull, if_neg (by simp [hvalid])]
  dsimp only
  rw [if_neg (Nat.not_lt.2 hindex), if_neg h.count_ne, if_neg h.bytes_le]
  exact if_neg h.size_le

/-- The elements after `ys` has been inserted before `index`. -/
def inserted (index : ℕ) (ys xs : List Bytes) : List Bytes := xs.take index ++ ys ++ xs.drop index

theorem insertRaw_unchecked (hinv : ∀ array, handle = some array → Inv array)
    {p count index : ℕ} (h : ¬ (Checked handle width p count ∧ index ≤ size handle)) :
    ∃ result, insertRaw os around handle width index p count = some result ∧
      Yields handle (inserted index (sourceElements handle around p count width) (elements handle))
        result := by
  by_cases hnull : p = 0 ∧ count ≠ 0
  · exact ⟨_, if_pos hnull, Yields.fail (by simp) _⟩
  by_cases hvalid : validElementSize handle width = true
  · have hvalid' : ¬ (!validElementSize handle width) = true := by simp [hvalid]
    by_cases hindex : index > size handle
    · refine ⟨(.invalidArgument, handle), ?_, Yields.fail (by simp) _⟩
      rw [insertRaw, if_neg hnull, if_neg hvalid']
      exact if_pos hindex
    by_cases hzero : count = 0
    · subst hzero
      refine ⟨(.ok, handle), ?_, Or.inr ⟨rfl, hinv, ?_⟩⟩
      · rw [insertRaw, if_neg hnull, if_neg hvalid']
        dsimp only
        rw [if_neg hindex, if_pos rfl]
      · rw [inserted, sourceElements, slots_zero, List.append_nil, List.take_append_drop]
    by_cases hover : count > sizeMax / width
    · refine ⟨(.overflow, handle), ?_, Yields.fail (by simp) _⟩
      rw [insertRaw, if_neg hnull, if_neg hvalid']
      dsimp only
      rw [if_neg hindex, if_neg hzero, if_pos hover]
    by_cases hsum : count > sizeMax - size handle
    · refine ⟨(.overflow, handle), ?_, Yields.fail (by simp) _⟩
      rw [insertRaw, if_neg hnull, if_neg hvalid']
      dsimp only
      rw [if_neg hindex, if_neg hzero, if_neg hover, if_pos hsum]
    · exact absurd ⟨⟨hnull, hvalid, hzero, hover, hsum⟩, Nat.not_lt.1 hindex⟩ h
  · refine ⟨(.invalidArgument, handle), ?_, Yields.fail (by simp) _⟩
    rw [insertRaw, if_neg hnull, if_pos (by simpa using hvalid)]

/-- The end of an insert, for a copy or an argument that still holds `data` when it is read. -/
theorem insertPrepared_yields (around : ℕ → UInt8) (hlegal : os.Legal)
    (hinv : ∀ array, handle = some array → Inv array) {p count index : ℕ}
    (h : Checked handle width p count) (hindex : index ≤ size handle) (copy : Option Bytes)
    {data : Bytes} (hdata : data.length = count * width)
    (hcopy : ∀ moved, Grown os handle width (size handle + count) moved →
      copy.getD ((shiftTail around moved (size handle) index (count * width)).block.read around p
        (count * width)) = data) :
    ∃ result, insertPrepared os around handle width index p count copy = some result ∧
      result.1 ≠ .invalidArgument ∧
      Yields handle (inserted index (slots width count data) (elements handle)) result := by
  obtain ⟨status, heq, hbad, hnot⟩ | ⟨moved, heq, hgrown⟩ :=
    reserveRaw_grown hlegal hinv h.valid (by have := h.count_ne; omega : 0 < size handle + count)
  · refine ⟨(status, handle), ?_, hnot, Yields.fail hbad _⟩
    rw [insertPrepared, heq]
    exact if_pos hbad
  · obtain ⟨-, -, hstored, hxs⟩ := hgrown.insert around hdata hindex rfl
    refine ⟨(.ok, some { shiftTail around moved (size handle) index (count * width) with
      block := (shiftTail around moved (size handle) index (count * width)).block.write
        (index * width) data
      size := size handle + count }), ?_, by simp, Or.inr ⟨rfl, ?_, hxs⟩⟩
    · rw [insertPrepared, heq, ← hcopy moved hgrown]
      rfl
    · rintro _ ⟨⟩
      exact hstored

theorem insertRaw_accepts (around : ℕ → UInt8) (hlegal : os.Legal)
    (hinv : ∀ array, handle = some array → Inv array) {p count index : ℕ}
    (h : Checked handle width p count) (hindex : index ≤ size handle)
    (hsource : SourceOk os handle p count width) :
    ∃ result, insertRaw os around handle width index p count = some result ∧
      result.1 ≠ .invalidArgument ∧
      Yields handle (inserted index (sourceElements handle around p count width) (elements handle))
        result := by
  have hlength := length_sourceBytes handle around p (count * width)
  rw [insertRaw_checked h hindex]
  obtain ⟨hclass, hout, hbytes⟩ | ⟨array, offset, rfl, hclass, hle, hbytes⟩ :=
    sourceOffset_cases os around hinv h.bytes_ne (h.source hsource)
  · rw [hclass, if_neg (lt_irrefl _), if_neg (lt_irrefl _)]
    apply insertPrepared_yields around hlegal hinv h hindex none hlength
    intro moved hgrown
    obtain ⟨hbase, hlen, -⟩ := hgrown.insert around hlength hindex rfl
    rw [hbytes, Option.getD_none]
    apply read_apart
    rw [hbase, hlen]
    exact hgrown.apart p _ hout
  · rw [hclass, if_neg (by simp), if_pos zero_lt_one]
    cases hos : os.malloc (count * width) with
    | none => exact ⟨_, rfl, by simp, Yields.fail (by simp) _⟩
    | some address =>
        have hfits := (hinv array rfl).fits (hinv array rfl).size_le
        apply insertPrepared_yields around hlegal hinv h hindex (some (array.block.read around
          (array.base + offset) (count * width))) hlength
        intro moved _
        rw [hbytes, Option.getD_some]
        exact MemoryBlock.read_inside around (by omega)

theorem insertRaw_yields (around : ℕ → UInt8) (hlegal : os.Legal)
    (hinv : ∀ array, handle = some array → Inv array) {p count index : ℕ}
    (hsource : SourceOk os handle p count width) :
    ∃ result, insertRaw os around handle width index p count = some result ∧
      Yields handle (inserted index (sourceElements handle around p count width) (elements handle))
        result := by
  by_cases h : Checked handle width p count ∧ index ≤ size handle
  · obtain ⟨result, heq, -, hyields⟩ := insertRaw_accepts around hlegal hinv h.1 h.2 hsource
    exact ⟨result, heq, hyields⟩
  · exact insertRaw_unchecked hinv h

end Liblor.DynArray
