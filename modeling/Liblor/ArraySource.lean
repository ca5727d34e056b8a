import Liblor.ArrayRun

/-!
# Sources outside an array

The alias test counts the address right behind the allocation as part of it. A source that the
allocator happened to place there is rejected; every other source outside the allocation is copied.
-/

namespace Liblor.DynArray

open MemoryBlock Transition

/-- The call does not reject its arguments, and where it succeeds the elements are `xs`. -/
def Accepted (xs : List Bytes) (call : Option (Status × Option LorArray)) : Prop :=
  ∃ status handle, call = some (status, handle) ∧ status ≠ .invalidArgument ∧
    (status = .ok → elements handle = xs)

variable {os : Os} {around : ℕ → UInt8} {array : LorArray} {handle : Option LorArray}
  {width p count index : ℕ}

theorem Yields.accepted {xs : List Bytes} {result : Status × Option LorArray}
    (h : Yields handle xs result) (hnot : result.1 ≠ .invalidArgument) :
    Accepted xs (some result) := by
  refine ⟨result.1, result.2, rfl, hnot, fun hok => ?_⟩
  obtain ⟨hbad, -⟩ | ⟨-, -, hxs⟩ := h
  · exact absurd hok hbad
  · exact hxs

/-- A call that may be made with a source outside the allocation of an array. -/
structure OutsideCall (os : Os) (array : LorArray) (p count : ℕ) : Prop where
  legal : os.Legal
  nonnull : p ≠ 0
  bytes_le : count * array.elementSize ≤ sizeMax
  size_le : array.size + count ≤ sizeMax
  outside : Outside os (some array) p (count * array.elementSize)

theorem Inv.validElementSize_eq (hinv : Inv array) :
    validElementSize (some array) array.elementSize = true := by
  have hpos := hinv.elementSize_pos
  simp only [validElementSize, beq_self_eq_true, Bool.and_true, bne_iff_ne]
  omega

theorem OutsideCall.checked (h : OutsideCall os array p count) (hinv : Inv array)
    (hcount : count ≠ 0) : Checked (some array) array.elementSize p count := by
  have hpos := hinv.elementSize_pos
  have hsize := h.size_le
  refine ⟨fun hnull => h.nonnull hnull.1, ?_, hcount, ?_, ?_⟩
  · exact hinv.validElementSize_eq
  · rw [not_lt, Nat.le_div_iff_mul_le hpos]
    exact h.bytes_le
  · change ¬ count > sizeMax - array.size
    omega

theorem OutsideCall.sourceOk (h : OutsideCall os array p count)
    (hne : p ≠ array.base + array.capacity * array.elementSize) :
    SourceOk os (some array) p count array.elementSize :=
  fun _ _ _ => Or.inl ⟨h.outside, by rintro _ ⟨⟩; exact hne⟩

theorem OutsideCall.sourceElements_eq (h : OutsideCall os array p count) (hinv : Inv array) :
    sourceElements (some array) around p count array.elementSize =
      slots array.elementSize count (readAround around p (count * array.elementSize)) := by
  rw [sourceElements, sourceBytes, read_apart (h.outside.apart hinv)]

/-- A source right behind the allocation is taken for one that straddles its end. -/
theorem OutsideCall.rejected (h : OutsideCall os array p count) (hinv : Inv array)
    (hcount : count ≠ 0) (hp : p = array.base + array.capacity * array.elementSize) :
    appendRaw os around (some array) array.elementSize p count =
        some (.invalidArgument, some array) ∧
      ∀ index ≤ array.size, insertRaw os around (some array) array.elementSize index p count =
        some (.invalidArgument, some array) := by
  have hchecked := h.checked hinv hcount
  have hclass := (sourceOffset_outside hinv hchecked.bytes_ne (h.outside.held array rfl)).2 hp
  constructor
  · rw [appendRaw_checked hchecked, hclass]
    rfl
  · intro index hindex
    rw [insertRaw_checked hchecked hindex, hclass]
    rfl

theorem not_accepted_invalidArgument {xs : List Bytes} :
    ¬ Accepted xs (some (.invalidArgument, handle)) := by
  rintro ⟨status, handle', heq, hnot, -⟩
  cases heq
  exact hnot rfl

theorem append_accepted_iff (h : OutsideCall os array p count) (hinv : Inv array) :
    Accepted (elements (some array) ++
        slots array.elementSize count (readAround around p (count * array.elementSize)))
      (appendRaw os around (some array) array.elementSize p count) ↔
    (count = 0 ∨ p ≠ array.base + array.capacity * array.elementSize) := by
  have hinv' : ∀ a, some array = some a → Inv a := by rintro _ ⟨⟩; exact hinv
  rw [← h.sourceElements_eq hinv]
  constructor
  · intro haccepted
    by_contra! hbad
    rw [(h.rejected hinv hbad.1 hbad.2).1] at haccepted
    exact not_accepted_invalidArgument haccepted
  · intro hcase
    by_cases hcount : count = 0
    · subst hcount
      refine ⟨.ok, some array, ?_, by simp, fun _ => ?_⟩
      · rw [appendRaw, if_neg (by simp), if_neg (by simp [hinv.validElementSize_eq]), if_pos rfl]
      · rw [sourceElements, slots_zero, List.append_nil]
    · obtain ⟨result, heq, hnot, hyields⟩ := appendRaw_accepts around h.legal hinv'
        (h.checked hinv hcount) (h.sourceOk (hcase.resolve_left hcount))
      rw [heq]
      exact hyields.accepted hnot

theorem insert_accepted_iff (h : OutsideCall os array p count) (hinv : Inv array)
    (hindex : index ≤ array.size) :
    Accepted (inserted index
        (slots array.elementSize count (readAround around p (count * array.elementSize)))
        (elements (some array)))
      (insertRaw os around (some array) array.elementSize index p count) ↔
    (count = 0 ∨ p ≠ array.base + array.capacity * array.elementSize) := by
  have hinv' : ∀ a, some array = some a → Inv a := by rintro _ ⟨⟩; exact hinv
  rw [← h.sourceElements_eq hinv]
  constructor
  · intro haccepted
    by_contra! hbad
    rw [(h.rejected hinv hbad.1 hbad.2).2 index hindex] at haccepted
    exact not_accepted_invalidArgument haccepted
  · intro hcase
    by_cases hcount : count = 0
    · subst hcount
      refine ⟨.ok, some array, ?_, by simp, fun _ => ?_⟩
      · rw [insertRaw, if_neg (by simp), if_neg (by simp [hinv.validElementSize_eq])]
        have hindex' : ¬ index > size (some array) := Nat.not_lt.2 hindex
        dsimp only
        rw [if_neg hindex', if_pos rfl]
      · rw [inserted, sourceElements, slots_zero, List.append_nil, List.take_append_drop]
    · obtain ⟨result, heq, hnot, hyields⟩ := insertRaw_accepts around h.legal hinv'
        (h.checked hinv hcount) hindex (h.sourceOk (hcase.resolve_left hcount))
      rw [heq]
      exact hyields.accepted hnot

/-- A source outside the allocation of a reachable array is accepted, by an append and by an insert
at any index, exactly where it does not begin right behind it; a source inside the initialized
elements is always recognized. -/
theorem outside_source_accepted_iff (around : ℕ → UInt8) {edits : List Edit}
    (h : Run system edits (some array)) (hcall : OutsideCall os array p count) :
    (Accepted (elements (some array) ++
        slots array.elementSize count (readAround around p (count * array.elementSize)))
      (appendRaw os around (some array) array.elementSize p count) ↔
        (count = 0 ∨ p ≠ array.base + array.capacity * array.elementSize)) ∧
    (∀ index ≤ array.size, Accepted (inserted index
        (slots array.elementSize count (readAround around p (count * array.elementSize)))
        (elements (some array)))
      (insertRaw os around (some array) array.elementSize index p count) ↔
        (count = 0 ∨ p ≠ array.base + array.capacity * array.elementSize)) ∧
    ∀ offset n, offset + n ≤ array.size * array.elementSize →
      sourceOffset (some array) (array.base + offset) n = (1, offset) := by
  have hinv := (run_invariant h).1 array rfl
  refine ⟨append_accepted_iff hcall hinv, ?_, ?_⟩
  · intro index hindex
    exact insert_accepted_iff hcall hinv hindex
  · intro offset n hle
    exact sourceOffset_inside hinv hle

/-- An allocator that has nothing left. -/
def exhausted : Os := ⟨fun _ => none, fun _ => none, fun _ => 0⟩

/-- A reserved array of eight bytes at 4128, and a byte at 4136. -/
theorem adjacent_source_rejected : ∃ edits array, Run system edits (some array) ∧
    OutsideCall exhausted array 4136 1 ∧
    appendRaw exhausted (fun _ => 7) (some array) array.elementSize 4136 1 =
      some (.invalidArgument, some array) ∧
    insertRaw exhausted (fun _ => 7) (some array) array.elementSize 0 4136 1 =
      some (.invalidArgument, some array) := by
  have h₀ : Run system [] none := .start rfl
  have h₁ := h₀.step ⟨.reserve (osAt 4096) 1 8, _, osAt_legal _, rfl, rfl⟩
  refine ⟨_, _, h₁, ⟨by rintro n a ⟨⟩, by decide, by decide, by decide, ?_, ?_⟩, rfl, rfl⟩
  · rintro _ ⟨⟩
    decide
  · rintro size address ⟨⟩

/-- The same array and a byte one address further on. -/
theorem outside_source_accepted_iff_gap : ∃ edits array, Run system edits (some array) ∧
    Accepted [[7]] (appendRaw exhausted (fun _ => 7) (some array) array.elementSize 4137 1) := by
  have h₀ : Run system [] none := .start rfl
  have h₁ := h₀.step ⟨.reserve (osAt 4096) 1 8, _, osAt_legal _, rfl, rfl⟩
  refine ⟨_, _, h₁, ((outside_source_accepted_iff (fun _ => 7) h₁
    ⟨by rintro n a ⟨⟩, by decide, by decide, by decide, ?_, ?_⟩).1).2 (Or.inr (by decide))⟩
  · rintro _ ⟨⟩
    decide
  · rintro size address ⟨⟩

end Liblor.DynArray
