import Liblor.ArrayOperations
import Liblor.DenseList
import Liblor.Transition

/-!
# Runs of an array

A run starts at the `NULL` handle and makes any calls in any order. The list operations of the
successful ones are read off the run, and the elements are what they make of the empty list.
-/

namespace Liblor.DynArray

open DenseList MemoryBlock Transition

inductive Op where
  | reserve (os : Os) (elementSize required : ℕ)
  | resize (os : Os) (elementSize newSize : ℕ)
  | append (os : Os) (around : ℕ → UInt8) (elementSize elements count : ℕ)
  | appendArray (os : Os) (around : ℕ → UInt8) (elementSize : ℕ) (source : SourceArray)
      (sourceElementSize : ℕ)
  | insert (os : Os) (around : ℕ → UInt8) (elementSize index elements count : ℕ)
  | shrinkToFit (os : Os) (elementSize : ℕ)
  | clear
  | pop (out : Bool)
  | remove (index : ℕ) (out : Bool)
  | removeRange (index count : ℕ)
  | removeUnordered (index : ℕ) (out : Bool)
  | deinit

inductive Result where
  | status (status : Status)
  | removed (code : Bool) (out : Option Bytes)
  | done
  deriving DecidableEq

def step (handle : Option LorArray) : Op → Option (Result × Option LorArray)
  | .reserve os elementSize required =>
    (reserveRaw os handle elementSize required).map fun (status, handle) =>
      (.status status, handle)
  | .resize os elementSize newSize =>
    (resizeRaw os handle elementSize newSize).map fun (status, handle) => (.status status, handle)
  | .append os around elementSize elements count =>
    (appendRaw os around handle elementSize elements count).map fun (status, handle) =>
      (.status status, handle)
  | .appendArray os around elementSize source sourceElementSize =>
    (appendArrayRaw os around handle elementSize source sourceElementSize).map
      fun (status, handle) => (.status status, handle)
  | .insert os around elementSize index elements count =>
    (insertRaw os around handle elementSize index elements count).map fun (status, handle) =>
      (.status status, handle)
  | .shrinkToFit os elementSize =>
    let (status, handle) := shrinkToFitRaw os handle elementSize
    some (.status status, handle)
  | .clear => some (.done, clear handle)
  | .pop out =>
    let (code, element, handle) := pop handle out
    some (.removed code element, handle)
  | .remove index out =>
    let (code, element, handle) := remove handle index out
    some (.removed code element, handle)
  | .removeRange index count =>
    let (code, handle) := removeRange handle index count
    some (.removed code none, handle)
  | .removeUnordered index out =>
    let (code, element, handle) := removeUnordered handle index out
    some (.removed code element, handle)
  | .deinit => some (.done, deinit handle)

/-- What the caller and the allocator promise: blocks in the address space, and sources that are
either no part of the array's memory, or wholly part of its elements. -/
def Op.Legal (handle : Option LorArray) : Op → Prop
  | .reserve os _ _ => os.Legal
  | .resize os _ _ => os.Legal
  | .append os _ elementSize elements count =>
    os.Legal ∧ SourceOk os handle elements count elementSize
  | .appendArray os _ elementSize source _ =>
    os.Legal ∧ SourceOk os handle (source.address handle) (source.size handle) elementSize
  | .insert os _ elementSize _ elements count =>
    os.Legal ∧ SourceOk os handle elements count elementSize
  | .shrinkToFit os _ => os.Legal
  | _ => True

/-- An operation on a list of elements. -/
inductive Edit where
  | keep
  | resize (width newSize : ℕ)
  | append (ys : List Bytes)
  | insert (index : ℕ) (ys : List Bytes)
  | clear
  | pop
  | remove (index : ℕ)
  | removeRange (index count : ℕ)
  | removeUnordered (index : ℕ)

def Edit.apply (xs : List Bytes) : Edit → List Bytes
  | .keep => xs
  | .resize width newSize => resized width newSize xs
  | .append ys => xs ++ ys
  | .insert index ys => inserted index ys xs
  | .clear => []
  | .pop => xs.dropLast
  | .remove index => xs.eraseIdx index
  | .removeRange index count => xs.take index ++ xs.drop (index + count)
  | .removeUnordered index => swapRemove xs index

/-- What a successful call asks of a list. -/
def Op.edit (handle : Option LorArray) : Op → Edit
  | .reserve _ _ _ => .keep
  | .resize _ elementSize newSize => .resize elementSize newSize
  | .append _ around elementSize elements count =>
    .append (sourceElements handle around elements count elementSize)
  | .appendArray _ around elementSize source _ =>
    .append (sourceElements handle around (source.address handle) (source.size handle) elementSize)
  | .insert _ around elementSize index elements count =>
    .insert index (sourceElements handle around elements count elementSize)
  | .shrinkToFit _ _ => .keep
  | .clear => .clear
  | .pop _ => .pop
  | .remove index _ => .remove index
  | .removeRange index count => .removeRange index count
  | .removeUnordered index _ => .removeUnordered index
  | .deinit => .clear

/-- The element that a removal hands out, if it is asked to. -/
def Op.handsOut (xs : List Bytes) : Op → Option Bytes
  | .pop true => xs.getLast?
  | .remove index true => xs[index]?
  | .removeUnordered index true => xs[index]?
  | _ => none

namespace Result

/-- A status other than `LOR_STATUS_OK`, or a zero. -/
def Failed : Result → Prop
  | status s => s ≠ .ok
  | removed code _ => code = false
  | done => False

instance : DecidablePred Failed := fun result => by
  cases result <;> unfold Failed <;> infer_instance

def out : Result → Option Bytes
  | removed _ out => out
  | _ => none

end Result

/-- Calls, labelled with the list operation that they perform. -/
def system : System (Option LorArray) Edit where
  start handle := handle = none
  step handle edit handle' := ∃ op result, op.Legal handle ∧
    step handle op = some (result, handle') ∧ edit = if result.Failed then .keep else op.edit handle

/-- The list after these operations. -/
def contents (edits : List Edit) : List Bytes := edits.foldl Edit.apply []

/-- One call as a list operation: it fails and changes nothing, or the elements are edited. -/
structure Simulates (handle : Option LorArray) (op : Op) (result : Result)
    (handle' : Option LorArray) : Prop where
  inv : ∀ array, handle' = some array → Inv array
  elements : elements handle' = (if result.Failed then Edit.keep else op.edit handle).apply
    (elements handle)
  unchanged : result.Failed → handle' = handle
  out : result.out = op.handsOut (DynArray.elements handle)

variable {array : LorArray} {handle : Option LorArray}

theorem contents_concat (edits : List Edit) (edit : Edit) :
    contents (edits ++ [edit]) = edit.apply (contents edits) := by
  rw [contents, List.foldl_append]
  rfl

/-- A growing call as a list operation. -/
theorem Yields.simulates {op : Op} {result : Status × Option LorArray}
    (hinv : ∀ array, handle = some array → Inv array)
    (h : Yields handle ((op.edit handle).apply (elements handle)) result)
    (hout : op.handsOut (elements handle) = none) :
    Simulates handle op (.status result.1) result.2 := by
  obtain ⟨hbad, hsame⟩ | ⟨hok, hinv', hxs⟩ := h
  · have hfailed : (Result.status result.1).Failed := hbad
    refine ⟨by rwa [hsame], ?_, fun _ => hsame, hout.symm⟩
    rw [if_pos hfailed, hsame]
    rfl
  · have hdone : ¬ (Result.status result.1).Failed := fun h => h hok
    refine ⟨hinv', ?_, fun h => absurd h hdone, hout.symm⟩
    rw [if_neg hdone, hxs]

/-! ## Removal -/

theorem element_eq {i : ℕ} (hi : i < array.size) :
    (elements (some array))[i]? = some (array.element i) := getElem?_slots hi

theorem elements_getElem?_none {i : ℕ} (hi : size handle ≤ i) : (elements handle)[i]? = none := by
  rw [List.getElem?_eq_none_iff, length_elements]
  exact hi

theorem Inv.moveElements (h : Inv array) {destination source count newSize : ℕ}
    (hle : source + count ≤ array.size) (hdest : destination ≤ source)
    (hsize : newSize ≤ array.capacity) (k : ℕ) :
    Inv { array.moveElements destination source count with size := newSize } ∧
      slots array.elementSize (destination + count + k)
          (array.moveElements destination source count).block.cells =
        slots array.elementSize destination array.block.cells ++
          slots array.elementSize count (array.block.cells.drop (source * array.elementSize)) ++
          slots array.elementSize k
            (array.block.cells.drop ((destination + count) * array.elementSize)) := by
  have hroom := h.fits (hle.trans h.size_le)
  rw [Nat.add_mul] at hroom
  have hlen : ((array.block.cells.drop (source * array.elementSize)).take
      (count * array.elementSize)).length = count * array.elementSize := by
    rw [List.length_take, List.length_drop]
    omega
  have hcapacity := h.size_le
  constructor
  · exact h.store hlen (by omega) hsize
  · have hslots := slots_write hlen
      (h.fits (by omega : destination + count ≤ array.capacity)) k
    rw [slots_take (Nat.le_refl _)] at hslots
    exact hslots

theorem Inv.cut (h : Inv array) {index count : ℕ} (hle : index + count ≤ array.size) :
    let remaining := array.size - index - count
    let moved := if remaining ≠ 0 then array.moveElements index (index + count) remaining else array
    Inv { moved with size := array.size - count } ∧
      elements (some { moved with size := array.size - count }) =
        (elements (some array)).take index ++ (elements (some array)).drop (index + count) := by
  intro remaining moved
  have hcapacity := h.size_le
  have hfront : (elements (some array)).take index =
      slots array.elementSize index array.block.cells := take_slots (by omega)
  have hback : (elements (some array)).drop (index + count) =
      slots array.elementSize (array.size - (index + count))
        (array.block.cells.drop ((index + count) * array.elementSize)) := drop_slots _
  by_cases hzero : remaining = 0
  · have hmoved : moved = array := if_neg (not_not.2 hzero)
    rw [hmoved]
    refine ⟨h.truncate (Nat.sub_le _ _), ?_⟩
    rw [elements_truncate array (Nat.sub_le _ _),
      List.drop_of_length_le (by rw [length_elements]; change array.size ≤ _; omega),
      List.append_nil]
    congr 1
    omega
  · have hmoved : moved = array.moveElements index (index + count) remaining := if_pos hzero
    rw [hmoved]
    obtain ⟨hinv, hslots⟩ := h.moveElements (by omega : index + count + remaining ≤ array.size)
      (Nat.le_add_right index count) (by omega : array.size - count ≤ array.capacity) 0
    refine ⟨hinv, ?_⟩
    rw [Nat.add_zero, slots_zero, List.append_nil, ← hfront] at hslots
    have hcount : array.size - (index + count) = remaining := by omega
    rw [hcount] at hback
    rw [← hback] at hslots
    have hsize : array.size - count = index + remaining := by omega
    rw [hsize]
    exact hslots

theorem elements_eq_concat {n : ℕ} (hsize : array.size = n + 1) :
    elements (some array) = slots array.elementSize n array.block.cells ++ [array.element n] := by
  change slots array.elementSize array.size array.block.cells = _
  rw [hsize, slots_add]
  simp only [LorArray.element, slots, List.range_one, List.map_singleton, Nat.zero_mul,
    List.drop_zero]

theorem Simulates.refused {op : Op} (hinv : ∀ array, handle = some array → Inv array)
    (hout : op.handsOut (DynArray.elements handle) = none) :
    Simulates handle op (.removed false none) handle :=
  ⟨hinv, rfl, fun _ => rfl, hout.symm⟩

theorem Simulates.removed {op : Op} {out : Option Bytes} {array' : LorArray} (hinv : Inv array')
    (hxs : DynArray.elements (some array') = (op.edit handle).apply (DynArray.elements handle))
    (hout : out = op.handsOut (DynArray.elements handle)) :
    Simulates handle op (.removed true out) (some array') := by
  have hdone : ¬ (Result.removed true out).Failed := by simp [Result.Failed]
  refine ⟨by rintro _ ⟨⟩; exact hinv, ?_, fun h => absurd h hdone, hout⟩
  rw [if_neg hdone, hxs]

theorem outElement_eq (out : Bool) {i : ℕ} (hi : i < array.size) :
    outElement out array i = if out then (elements (some array))[i]? else none := by
  rw [element_eq hi, outElement]

theorem pop_simulates (hinv : ∀ array, handle = some array → Inv array) (out : Bool) :
    Simulates handle (.pop out) (.removed (pop handle out).1 (pop handle out).2.1)
      (pop handle out).2.2 := by
  cases handle with
  | none => exact .refused hinv (by cases out <;> rfl)
  | some array =>
      by_cases hzero : array.size = 0
      · have hnil : elements (some array) = [] := by
          change slots array.elementSize array.size array.block.cells = []
          rw [hzero, slots_zero]
        rw [pop, if_pos hzero]
        apply Simulates.refused hinv
        rw [hnil]
        cases out <;> rfl
      · have hsucc : array.size = array.size - 1 + 1 := by omega
        rw [pop, if_neg hzero]
        apply Simulates.removed ((hinv array rfl).truncate (Nat.sub_le _ _))
        · change _ = (elements (some array)).dropLast
          rw [elements_truncate array (Nat.sub_le _ _), List.dropLast_eq_take, length_elements]
          rfl
        · cases out with
          | false => rfl
          | true =>
              change some (array.element (array.size - 1)) = (elements (some array)).getLast?
              rw [elements_eq_concat hsucc, List.getLast?_concat]

theorem removeRange_simulates (hinv : ∀ array, handle = some array → Inv array)
    (index count : ℕ) :
    Simulates handle (.removeRange index count) (.removed (removeRange handle index count).1 none)
      (removeRange handle index count).2 := by
  cases handle with
  | none => exact .refused hinv rfl
  | some array =>
      by_cases hbad : index > array.size ∨ count > array.size - index
      · rw [removeRange, if_pos hbad]
        exact .refused hinv rfl
      by_cases hzero : count = 0
      · rw [removeRange, if_neg hbad, if_pos hzero]
        apply Simulates.removed (hinv array rfl) _ rfl
        subst hzero
        exact (List.take_append_drop index _).symm
      · rw [removeRange, if_neg hbad, if_neg hzero]
        obtain ⟨hcut, hxs⟩ := (hinv array rfl).cut (by omega : index + count ≤ array.size)
        exact .removed hcut hxs rfl

theorem remove_simulates (hinv : ∀ array, handle = some array → Inv array) (index : ℕ)
    (out : Bool) :
    Simulates handle (.remove index out)
      (.removed (remove handle index out).1 (remove handle index out).2.1)
      (remove handle index out).2.2 := by
  cases handle with
  | none => exact .refused hinv (by cases out <;> rfl)
  | some array =>
      by_cases hbad : index ≥ array.size
      · rw [remove, if_pos hbad]
        apply Simulates.refused hinv
        have hnone : size (some array) ≤ index := hbad
        cases out with
        | false => rfl
        | true => exact elements_getElem?_none hnone
      · rw [remove, if_neg hbad]
        obtain ⟨hcut, hxs⟩ := (hinv array rfl).cut (by omega : index + 1 ≤ array.size)
        apply Simulates.removed hcut
        · rw [hxs]
          exact (List.eraseIdx_eq_take_drop_succ _ _).symm
        · rw [outElement_eq out (by omega)]
          cases out <;> rfl

theorem removeUnordered_simulates (hinv : ∀ array, handle = some array → Inv array) (index : ℕ)
    (out : Bool) :
    Simulates handle (.removeUnordered index out)
      (.removed (removeUnordered handle index out).1 (removeUnordered handle index out).2.1)
      (removeUnordered handle index out).2.2 := by
  cases handle with
  | none => exact .refused hinv (by cases out <;> rfl)
  | some array =>
      by_cases hbad : index ≥ array.size
      · rw [removeUnordered, if_pos hbad]
        apply Simulates.refused hinv
        have hnone : size (some array) ≤ index := hbad
        cases out with
        | false => rfl
        | true => exact elements_getElem?_none hnone
      have h := hinv array rfl
      have hcapacity := h.size_le
      have hsucc : array.size = array.size - 1 + 1 := by omega
      have hout : outElement out array index =
          (Op.removeUnordered index out).handsOut (elements (some array)) := by
        rw [outElement_eq out (by omega)]
        cases out <;> rfl
      have hedit : swapRemove (elements (some array)) index =
          (slots array.elementSize (array.size - 1) array.block.cells).set index
            (array.element (array.size - 1)) := by
        rw [elements_eq_concat hsucc, swapRemove_concat]
      rw [removeUnordered, if_neg hbad]
      dsimp only
      by_cases hlast : index = array.size - 1
      · rw [if_neg (not_not.2 hlast)]
        apply Simulates.removed (h.truncate (Nat.sub_le _ _)) _ hout
        change _ = swapRemove (elements (some array)) index
        rw [hedit, List.set_eq_of_length_le (by rw [length_slots]; omega)]
        rfl
      · rw [if_pos hlast]
        obtain ⟨hmoved, hslots⟩ := h.moveElements
          (by omega : array.size - 1 + 1 ≤ array.size) (by omega : index ≤ array.size - 1)
          (by omega : array.size - 1 ≤ array.capacity) (array.size - 1 - index - 1)
        apply Simulates.removed hmoved _ hout
        change slots array.elementSize (array.size - 1) _ = swapRemove (elements (some array)) index
        have hcount : index + 1 + (array.size - 1 - index - 1) = array.size - 1 := by omega
        have hrest : array.size - 1 - (index + 1) = array.size - 1 - index - 1 := by omega
        rw [hcount] at hslots
        rw [hedit, hslots, List.set_eq_take_append_cons_drop, if_pos (by rw [length_slots]; omega),
          take_slots (by omega), drop_slots, hrest]
        simp only [LorArray.element, slots, List.range_one, List.map_singleton, Nat.zero_mul,
          List.drop_zero, List.append_assoc, List.singleton_append]

/-! ## Every call -/

theorem step_simulates (hinv : ∀ array, handle = some array → Inv array) {op : Op}
    (hop : op.Legal handle) :
    ∃ result handle', step handle op = some (result, handle') ∧
      Simulates handle op result handle' := by
  cases op with
  | reserve os elementSize required =>
      obtain ⟨result, heq, hyields⟩ := reserveRaw_yields hop hinv elementSize required
      exact ⟨_, _, by rw [step, heq]; rfl, hyields.simulates hinv rfl⟩
  | resize os elementSize newSize =>
      obtain ⟨result, heq, hyields⟩ := resizeRaw_yields hop hinv newSize
      exact ⟨_, _, by rw [step, heq]; rfl, Yields.simulates hinv hyields rfl⟩
  | append os around elementSize elements count =>
      obtain ⟨result, heq, hyields⟩ := appendRaw_yields around hop.1 hinv hop.2
      exact ⟨_, _, by rw [step, heq]; rfl, Yields.simulates hinv hyields rfl⟩
  | appendArray os around elementSize source sourceElementSize =>
      obtain ⟨result, heq, hyields⟩ := appendArrayRaw_yields around hop.1 hinv source
        sourceElementSize hop.2
      exact ⟨_, _, by rw [step, heq]; rfl, Yields.simulates hinv hyields rfl⟩
  | insert os around elementSize index elements count =>
      obtain ⟨result, heq, hyields⟩ := insertRaw_yields around hop.1 hinv hop.2
      exact ⟨_, _, by rw [step, heq]; rfl, Yields.simulates hinv hyields rfl⟩
  | shrinkToFit os elementSize =>
      exact ⟨_, _, rfl, Yields.simulates hinv (shrinkToFitRaw_yields hop hinv) rfl⟩
  | clear =>
      refine ⟨_, _, rfl, ?_, ?_, fun h => h.elim, rfl⟩
      · intro array harray
        obtain ⟨old, hold, rfl⟩ := Option.map_eq_some_iff.1 harray
        exact (hinv old hold).truncate (Nat.zero_le _)
      · cases handle <;> rfl
  | pop out => exact ⟨_, _, rfl, pop_simulates hinv out⟩
  | remove index out => exact ⟨_, _, rfl, remove_simulates hinv index out⟩
  | removeRange index count => exact ⟨_, _, rfl, removeRange_simulates hinv index count⟩
  | removeUnordered index out => exact ⟨_, _, rfl, removeUnordered_simulates hinv index out⟩
  | deinit => exact ⟨_, _, rfl, by simp [deinit], rfl, fun h => h.elim, rfl⟩

theorem run_invariant {edits : List Edit} (h : Run system edits handle) :
    (∀ array, handle = some array → Inv array) ∧ elements handle = contents edits := by
  induction h with
  | start h =>
      subst h
      exact ⟨by simp, rfl⟩
  | step _ hstep ih =>
      obtain ⟨op, result, hop, heq, rfl⟩ := hstep
      obtain ⟨result', handle', heq', hsim⟩ := step_simulates ih.1 hop
      rw [heq] at heq'
      cases heq'
      refine ⟨hsim.inv, ?_⟩
      rw [contents_concat, ← ih.2]
      exact hsim.elements

/-- An allocator with one answer. -/
def osAt (address : ℕ) : Os where
  malloc _ := some address
  realloc n := if address + n ≤ uintptrMax then some address else none
  fresh _ := 170

theorem osAt_legal (address : ℕ) : (osAt address).Legal := by
  intro n a h
  simp only [osAt, Option.ite_none_right_eq_some, Option.some.injEq] at h
  omega

end Liblor.DynArray
