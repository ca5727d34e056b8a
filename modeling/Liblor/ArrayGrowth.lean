import Liblor.ArrayRun
import Liblor.GrowthCost

/-!
# The cost of growing an array

How often the calls of a run reallocate an array and how many elements that moves. Giving memory
back with `lor_array_shrink_to_fit` or `lor_array_deinit` is left out of these runs: an array that
is shrunk grows again.
-/

namespace Liblor.DynArray

open GeometricGrowth Transition

variable {os : Os} {around : ℕ → UInt8} {handle handle' : Option LorArray} {width required : ℕ}
  {status : Status}

/-- An allocator whose objects are at most half of the address space. -/
def Os.Bounded (os : Os) : Prop := ∀ n address, os.realloc n = some address → n ≤ sizeMax / 2

def Op.asked (handle : Option LorArray) : Op → ℕ
  | .reserve _ _ required => required
  | .resize _ _ newSize => newSize
  | .append _ _ _ _ count => size handle + count
  | .appendArray _ _ _ source _ => size handle + source.size handle
  | .insert _ _ _ _ _ count => size handle + count
  | _ => 0

/-- A legal call that does not give memory back. -/
def Op.Growing (handle : Option LorArray) (op : Op) : Prop :=
  op.Legal handle ∧
    match op with
    | .reserve os _ _ => os.Bounded
    | .resize os _ _ => os.Bounded
    | .append os _ _ _ _ => os.Bounded
    | .appendArray os _ _ _ _ => os.Bounded
    | .insert os _ _ _ _ _ => os.Bounded
    | .shrinkToFit _ _ => False
    | .deinit => False
    | _ => True

def next (handle : Option LorArray) (op : Op) : Option (Option LorArray) :=
  (step handle op).map Prod.snd

abbrev Reserved (handle : Option LorArray) (required : ℕ) (handle' : Option LorArray) : Prop :=
  GrowsTo 8 (capacity handle) required (capacity handle')

section Reserved

theorem reserveRaw_reserved (hbounded : os.Bounded)
    (h : reserveRaw os handle width required = some (status, handle')) :
    Reserved handle required handle' := by
  unfold reserveRaw at h
  split_ifs at h with hvalid hroom
  · cases h
    exact .same _ _ _
  · cases h
    exact .same _ _ _
  · have hwidth : 0 < width := validElementSize_pos (by simpa using hvalid)
    obtain ⟨c, hc, -, -⟩ := growthCapacity_spec (capacity handle) required
    simp only [hc, Option.bind_eq_bind, Option.bind_some] at h
    split_ifs at h
    · cases h
      exact .same _ _ _
    · cases hos : os.realloc (headerSize + c * width) with
      | none =>
        rw [hos] at h
        cases h
        exact .same _ _ _
      | some address =>
        rw [hos] at h
        cases h
        have hcapacity : capacity (some (relocated os handle width address c)) = c := by
          cases handle <;> rfl
        have hle := hbounded _ _ hos
        have hc' : c ≤ c * width := Nat.le_mul_of_pos_right c hwidth
        refine Or.inr ⟨Nat.not_le.1 hroom, ?_, ?_⟩
        · rw [hcapacity]
          exact hc
        · rw [hcapacity]
          omega

theorem Reserved.refused {status : Status} {result : Status × Option LorArray}
    (h : some (status, handle) = some result) : Reserved handle required result.2 := by
  cases h
  exact .same _ _ _

theorem Reserved.store {change : LorArray → LorArray} {result : Status × Option LorArray}
    (hbounded : os.Bounded) (h : ((reserveRaw os handle width required).bind fun answer =>
      if answer.1 ≠ .ok then some answer else some (.ok, answer.2.map change)) = some result)
    (hchange : ∀ array, (change array).capacity = array.capacity) :
    Reserved handle required result.2 := by
  cases hreserve : reserveRaw os handle width required with
  | none =>
    rw [hreserve] at h
    cases h
  | some answer =>
    obtain ⟨status, array⟩ := answer
    have hreserved := reserveRaw_reserved hbounded hreserve
    simp only [hreserve, Option.bind_some] at h
    split_ifs at h
    · cases h
      exact hreserved
    · cases h
      have hcapacity : capacity (array.map change) = capacity array := by
        cases array with
        | none => rfl
        | some array => exact hchange array
      unfold Reserved
      rw [hcapacity]
      exact hreserved

theorem appendRaw_reserved {elements count : ℕ} {result : Status × Option LorArray}
    (hbounded : os.Bounded) (h : appendRaw os around handle width elements count = some result) :
    Reserved handle (size handle + count) result.2 := by
  unfold appendRaw at h
  dsimp only at h
  split_ifs at h
  · exact .refused h
  · exact .refused h
  · exact .refused h
  · exact .refused h
  · exact .refused h
  · exact .refused h
  · exact .store hbounded h fun _ => rfl
  · exact .store hbounded h fun _ => rfl

theorem appendArrayRaw_reserved {source : SourceArray} {sourceWidth : ℕ}
    {result : Status × Option LorArray} (hbounded : os.Bounded)
    (h : appendArrayRaw os around handle width source sourceWidth = some result) :
    Reserved handle (size handle + source.size handle) result.2 := by
  unfold appendArrayRaw at h
  split_ifs at h
  · exact .refused h
  · exact .refused h
  · exact appendRaw_reserved hbounded h

theorem shiftTail_capacity (array : LorArray) (oldSize index byteCount : ℕ) :
    (shiftTail around array oldSize index byteCount).capacity = array.capacity := by
  unfold shiftTail
  dsimp only
  split_ifs <;> rfl

theorem insertPrepared_reserved {index elements count : ℕ} {copy : Option Bytes}
    {result : Status × Option LorArray} (hbounded : os.Bounded)
    (h : insertPrepared os around handle width index elements count copy = some result) :
    Reserved handle (size handle + count) result.2 :=
  .store hbounded h fun array => shiftTail_capacity array _ _ _

theorem insertRaw_reserved {index elements count : ℕ} {result : Status × Option LorArray}
    (hbounded : os.Bounded)
    (h : insertRaw os around handle width index elements count = some result) :
    Reserved handle (size handle + count) result.2 := by
  unfold insertRaw at h
  dsimp only at h
  split_ifs at h
  · exact .refused h
  · exact .refused h
  · exact .refused h
  · exact .refused h
  · exact .refused h
  · exact .refused h
  · exact .refused h
  · cases hmalloc : os.malloc (count * width) with
    | none =>
      rw [hmalloc] at h
      exact .refused h
    | some address =>
      rw [hmalloc] at h
      exact insertPrepared_reserved hbounded h
  · exact insertPrepared_reserved hbounded h

theorem resizeRaw_reserved {newSize : ℕ} {result : Status × Option LorArray}
    (hbounded : os.Bounded) (h : resizeRaw os handle width newSize = some result) :
    Reserved handle newSize result.2 := by
  unfold resizeRaw at h
  split_ifs at h with hvalid
  · cases h
    exact .same _ _ _
  · dsimp only at h
    split_ifs at h
    · exact .store hbounded h fun _ => rfl
    · cases h
      refine Or.inl ?_
      cases handle <;> rfl

theorem remove_capacity (index : ℕ) (out : Bool) :
    capacity (remove handle index out).2.2 = capacity handle := by
  cases handle with
  | none => rfl
  | some array =>
    unfold remove
    dsimp only
    split_ifs <;> rfl

theorem removeRange_capacity (index count : ℕ) :
    capacity (removeRange handle index count).2 = capacity handle := by
  cases handle with
  | none => rfl
  | some array =>
    unfold removeRange
    dsimp only
    split_ifs <;> rfl

theorem removeUnordered_capacity (index : ℕ) (out : Bool) :
    capacity (removeUnordered handle index out).2.2 = capacity handle := by
  cases handle with
  | none => rfl
  | some array =>
    unfold removeUnordered
    dsimp only
    split_ifs <;> rfl

theorem pop_capacity (out : Bool) : capacity (pop handle out).2.2 = capacity handle := by
  cases handle with
  | none => rfl
  | some array =>
    unfold pop
    dsimp only
    split_ifs <;> rfl

theorem next_reserved {op : Op} (hop : op.Growing handle) (h : next handle op = some handle') :
    Reserved handle (op.asked handle) handle' := by
  obtain ⟨⟨result, handle'⟩, hstep, rfl⟩ := Option.map_eq_some_iff.1 h
  obtain ⟨-, hbounded⟩ := hop
  cases op with
  | reserve os width required =>
    obtain ⟨⟨status, handle''⟩, hcall, hresult⟩ := Option.map_eq_some_iff.1 hstep
    cases hresult
    exact reserveRaw_reserved hbounded hcall
  | resize os width newSize =>
    obtain ⟨answer, hcall, hresult⟩ := Option.map_eq_some_iff.1 hstep
    cases hresult
    exact resizeRaw_reserved hbounded hcall
  | append os around width elements count =>
    obtain ⟨answer, hcall, hresult⟩ := Option.map_eq_some_iff.1 hstep
    cases hresult
    exact appendRaw_reserved hbounded hcall
  | appendArray os around width source sourceWidth =>
    obtain ⟨answer, hcall, hresult⟩ := Option.map_eq_some_iff.1 hstep
    cases hresult
    exact appendArrayRaw_reserved hbounded hcall
  | insert os around width index elements count =>
    obtain ⟨answer, hcall, hresult⟩ := Option.map_eq_some_iff.1 hstep
    cases hresult
    exact insertRaw_reserved hbounded hcall
  | shrinkToFit os width => exact hbounded.elim
  | clear =>
    cases hstep
    refine Or.inl ?_
    cases handle <;> rfl
  | pop out =>
    cases hstep
    exact Or.inl (pop_capacity out)
  | remove index out =>
    cases hstep
    exact Or.inl (remove_capacity index out)
  | removeRange index count =>
    cases hstep
    exact Or.inl (removeRange_capacity index count)
  | removeUnordered index out =>
    cases hstep
    exact Or.inl (removeUnordered_capacity index out)
  | deinit => exact hbounded.elim

end Reserved

/-- The elements moved by the reallocations of a run, their number and the largest size. -/
def reallocations (ops : List Op) : Tally :=
  count next size capacity (fun handle op => op.asked handle) ⟨0, 0, 0⟩ none ops

theorem next_inv {op : Op} (hinv : ∀ array, handle = some array → Inv array)
    (hop : op.Growing handle) (h : next handle op = some handle') :
    ∀ array, handle' = some array → Inv array := by
  obtain ⟨result, handle'', hstep, hsim⟩ := step_simulates hinv hop.1
  unfold next at h
  rw [hstep] at h
  cases h
  exact hsim.inv

theorem size_le_capacity (hinv : ∀ array, handle = some array → Inv array) :
    size handle ≤ capacity handle := by
  cases handle with
  | none => exact le_rfl
  | some array => exact (hinv array rfl).size_le

/-- In every run of calls that do not give memory back, all reallocations together move at most
twice as many elements as a call has asked for, whether it was refused or not. By the second
reallocation more than eight have been asked for, by the third more than sixteen, and so on. -/
theorem reallocations_bounded {ops : List Op} (hops : EachStep next Op.Growing none ops) :
    (reallocations ops).moved ≤ 2 * (reallocations ops).peak ∧
      (2 ≤ (reallocations ops).moves →
        8 * 2 ^ ((reallocations ops).moves - 2) < (reallocations ops).peak) := by
  have hstart : ∀ array, none = some array → Inv array := fun _ h => (by cases h)
  exact growth_bounds (I := fun handle => ∀ array, handle = some array → Inv array) (by decide)
    (fun _ _ _ hinv hop h => next_inv hinv hop h) (fun _ hinv => size_le_capacity hinv)
    (fun _ _ _ hop h => next_reserved hop h) hstart rfl hops

def smallOs : Os where
  malloc n := if n ≤ 1000 then some 4096 else none
  realloc n := if n ≤ 1000 then some 4096 else none
  fresh _ := 170

def resizes : List Op := [.resize smallOs 1 8, .resize smallOs 1 9, .resize smallOs 1 17]

theorem reallocations_bounded_resizes : reallocations resizes = ⟨17, 3, 17⟩ ∧
    (reallocations resizes).moved ≤ 2 * (reallocations resizes).peak ∧
    8 * 2 ^ ((reallocations resizes).moves - 2) < (reallocations resizes).peak := by
  have hbounded : smallOs.Legal ∧ smallOs.Bounded := by
    constructor
    · intro n address h
      simp only [smallOs, Option.ite_none_right_eq_some, Option.some.injEq] at h
      have hmax : 4096 + 1000 ≤ uintptrMax := by decide
      omega
    · intro n address h
      simp only [smallOs, Option.ite_none_right_eq_some, Option.some.injEq] at h
      have hmax : 1000 ≤ sizeMax / 2 := by decide
      omega
  have hops : EachStep next Op.Growing none resizes :=
    ⟨hbounded, fun _ _ => ⟨hbounded, fun _ _ => ⟨hbounded, fun _ _ => trivial⟩⟩⟩
  have htally : reallocations resizes = ⟨17, 3, 17⟩ := by decide
  obtain ⟨hmoved, hmoves⟩ := reallocations_bounded hops
  refine ⟨htally, hmoved, hmoves ?_⟩
  rw [htally]
  decide

end Liblor.DynArray
