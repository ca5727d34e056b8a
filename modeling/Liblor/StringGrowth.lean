import Liblor.StringRun
import Liblor.GrowthCost

/-!
# The cost of growing a string

How often the calls of a run reallocate a string before `lor_string_deinit`, and how many bytes that
moves.
-/

namespace Liblor.OwnedString

open GeometricGrowth Transition

variable {os : Os} {around : ℕ → UInt8} {handle handle' : Option LorString} {required : ℕ}
  {status : Status} {view : LorStringView}

/-- An allocator whose objects are at most half of the address space. -/
def Os.Bounded (os : Os) : Prop := ∀ n address, os.realloc n = some address → n ≤ sizeMax / 2

def textSize (handle : Option LorString) (around : ℕ → UInt8) (text : ℕ) : ℕ :=
  ((svFromCstr (memory handle around) text).map LorStringView.size).getD 0

/-- The number of bytes that a call needs room for. -/
def Op.asked (handle : Option LorString) : Op → ℕ
  | .reserve _ capacity => capacity
  | .assign _ _ view => view.size
  | .assignCstr _ around text => textSize handle around text
  | .append _ _ view => size handle + view.size
  | .appendCstr _ around text => size handle + textSize handle around text
  | .appendChar _ _ _ _ => size handle + 1
  | .clear => 0
  | .deinit => 0

/-- A permitted call that does not give the memory back. -/
def Op.Growing (handle : Option LorString) (op : Op) : Prop :=
  (∃ asked, Asks handle op asked) ∧
    match op with
    | .reserve os _ => os.Bounded
    | .assign os _ _ => os.Bounded
    | .assignCstr os _ _ => os.Bounded
    | .append os _ _ => os.Bounded
    | .appendCstr os _ _ => os.Bounded
    | .appendChar os _ _ _ => os.Bounded
    | .clear => True
    | .deinit => False

def next (handle : Option LorString) (op : Op) : Option (Option LorString) :=
  (step handle op).map Prod.snd

/-- The bytes moved by the reallocations of a run, their number and the largest size. -/
def reallocations (ops : List Op) : Tally :=
  count next size capacity (fun handle op => op.asked handle) ⟨0, 0, 0⟩ none ops

abbrev Reserved (handle : Option LorString) (required : ℕ) (handle' : Option LorString) : Prop :=
  GrowsTo 16 (capacity handle) required (capacity handle')

section Reserved

theorem growthCapacity_ok {current c : ℕ} (h : growthCapacity current required = some (.ok, c)) :
    growthLoop required 64 (if current < 16 then 16 else current) = some c := by
  unfold growthCapacity at h
  by_cases hmax : required = sizeMax
  · rw [if_pos hmax] at h
    cases h
  · rw [if_neg hmax, Option.bind_eq_bind, Option.bind_eq_some_iff] at h
    obtain ⟨result, hloop, hresult⟩ := h
    by_cases hlast : result = sizeMax
    · rw [if_pos hlast] at hresult
      cases hresult
    · rw [if_neg hlast] at hresult
      cases hresult
      exact hloop

theorem reserve_reserved (hbounded : os.Bounded)
    (h : reserve os handle required = some (status, handle')) :
    Reserved handle required handle' := by
  unfold reserve at h
  dsimp only at h
  by_cases hroom : required ≤ capacity handle
  · rw [if_pos hroom] at h
    cases h
    exact Or.inl rfl
  rw [if_neg hroom, Option.bind_eq_bind, Option.bind_eq_some_iff] at h
  obtain ⟨⟨answer, c⟩, hgrowth, h⟩ := h
  dsimp only at h
  split_ifs at h with hanswer hlarge
  · cases h
    exact Or.inl rfl
  · cases h
    exact Or.inl rfl
  · obtain rfl : answer = .ok := not_not.1 hanswer
    cases hos : os.realloc (headerSize + c + 1) with
    | none =>
      rw [hos] at h
      cases h
      exact Or.inl rfl
    | some address =>
      rw [hos] at h
      cases h
      have hle := hbounded _ _ hos
      have hcapacity : capacity (some (relocated os handle address c)) = c := rfl
      refine Or.inr ⟨Nat.not_le.1 hroom, ?_, ?_⟩
      · rw [hcapacity]
        exact growthCapacity_ok hgrowth
      · rw [hcapacity]
        omega

theorem Reserved.refused {status : Status} {result : Status × Option LorString}
    (h : some (status, handle) = some result) : Reserved handle required result.2 := by
  cases h
  exact .same _ _ _

theorem Reserved.store {change : LorString → LorString} {result : Status × Option LorString}
    (hbounded : os.Bounded) (h : ((reserve os handle required).bind fun answer =>
      if answer.1 ≠ .ok then some answer else some (.ok, answer.2.map change)) = some result)
    (hchange : ∀ string, (change string).capacity = string.capacity) :
    Reserved handle required result.2 := by
  rw [Option.bind_eq_some_iff] at h
  obtain ⟨⟨answer, string⟩, hreserve, h⟩ := h
  have hreserved := reserve_reserved hbounded hreserve
  split_ifs at h
  · cases h
    exact hreserved
  · cases h
    have hcapacity : capacity (string.map change) = capacity string := by
      cases string with
      | none => rfl
      | some string => exact hchange string
    unfold Reserved
    rw [hcapacity]
    exact hreserved

theorem assign_reserved {result : Status × Option LorString} (hbounded : os.Bounded)
    (h : assign os around handle view = some result) : Reserved handle view.size result.2 := by
  unfold assign at h
  dsimp only at h
  split_ifs at h
  · exact .refused h
  · exact .refused h
  all_goals exact .store hbounded h fun _ => rfl

theorem append_reserved {result : Status × Option LorString} (hbounded : os.Bounded)
    (h : append os around handle view = some result) :
    Reserved handle (size handle + view.size) result.2 := by
  unfold append at h
  dsimp only at h
  split_ifs at h
  · exact .refused h
  · exact .refused h
  · exact .refused h
  · exact .refused h
  all_goals exact .store hbounded h fun _ => rfl

theorem next_reserved {op : Op} (hop : op.Growing handle) (h : next handle op = some handle') :
    Reserved handle (op.asked handle) handle' := by
  obtain ⟨⟨status, handle'⟩, hstep, rfl⟩ := Option.map_eq_some_iff.1 h
  obtain ⟨⟨asked, hasks⟩, hbounded⟩ := hop
  cases op with
  | reserve os capacity => exact reserve_reserved hbounded hstep
  | assign os around view => exact assign_reserved hbounded hstep
  | assignCstr os around text =>
    change assignCstr os around handle text = some (status, handle') at hstep
    unfold assignCstr at hstep
    split_ifs at hstep
    · cases hstep
      exact Or.inl rfl
    · rw [Option.bind_eq_bind, Option.bind_eq_some_iff] at hstep
      obtain ⟨view, hview, hcall⟩ := hstep
      have hasked : Op.asked handle (.assignCstr os around text) = view.size := by
        rw [Op.asked, textSize, hview]
        rfl
      rw [hasked]
      exact assign_reserved hbounded hcall
  | append os around view => exact append_reserved hbounded hstep
  | appendCstr os around text =>
    change appendCstr os around handle text = some (status, handle') at hstep
    unfold appendCstr at hstep
    split_ifs at hstep
    · cases hstep
      exact Or.inl rfl
    · rw [Option.bind_eq_bind, Option.bind_eq_some_iff] at hstep
      obtain ⟨view, hview, hcall⟩ := hstep
      have hasked : Op.asked handle (.appendCstr os around text) = size handle + view.size := by
        rw [Op.asked, textSize, hview]
        rfl
      rw [hasked]
      exact append_reserved hbounded hcall
  | appendChar os around value address =>
    have hreserved := append_reserved hbounded hstep
    cases hasks with
    | appendChar hos around haddress =>
      have hview : svFromParts address 1 = ⟨address, 1⟩ := if_neg fun h => haddress h.1
      rw [hview] at hreserved
      exact hreserved
  | clear =>
    cases hstep
    refine Or.inl ?_
    cases handle <;> rfl
  | deinit => exact hbounded.elim

end Reserved

theorem next_inv {op : Op} (hinv : ∀ string, handle = some string → Inv string)
    (hop : op.Growing handle) (h : next handle op = some handle') :
    ∀ string, handle' = some string → Inv string := by
  obtain ⟨asked, hasks⟩ := hop.1
  obtain ⟨result, hstep, hyields⟩ := step_yields hinv hasks
  unfold next at h
  rw [hstep] at h
  cases h
  obtain ⟨-, hkept⟩ | ⟨-, hinv', -⟩ := hyields
  · rw [hkept]
    exact hinv
  · exact hinv'

theorem size_le_capacity (hinv : ∀ string, handle = some string → Inv string) :
    size handle ≤ capacity handle := by
  cases handle with
  | none => exact le_rfl
  | some string => exact (hinv string rfl).size_le

/-- In every run of calls on a string before it is given back, all reallocations together move at
most twice as many bytes as a call has asked for, whether it was refused or not. By the second
reallocation more than sixteen have been asked for, by the third more than 32, and so on. -/
theorem moves_bounded {ops : List Op} (hops : EachStep next Op.Growing none ops) :
    (reallocations ops).moved ≤ 2 * (reallocations ops).peak ∧
      (2 ≤ (reallocations ops).moves →
        16 * 2 ^ ((reallocations ops).moves - 2) < (reallocations ops).peak) := by
  have hstart : ∀ string, none = some string → Inv string := fun _ h => (by cases h)
  exact growth_bounds (I := fun handle => ∀ string, handle = some string → Inv string) (by decide)
    (fun _ _ _ hinv hop h => next_inv hinv hop h) (fun _ hinv => size_le_capacity hinv)
    (fun _ _ _ hop h => next_reserved hop h) hstart rfl hops

def smallOs : Os where
  realloc n := if n ≤ 1000 then some 4096 else none
  fresh _ := 170

def sixteen : Op := .append smallOs (fun _ => 7) ⟨8192, 16⟩

theorem sixteen_growing
    (h : ∀ string, handle = some string → string.base = 4112 ∧ string.capacity ≤ 64) :
    Op.Growing handle sixteen := by
  have hmax : 4096 + 1000 ≤ uintptrMax ∧ 1000 ≤ sizeMax / 2 := by decide
  have hreturned : ∀ n address, smallOs.realloc n = some address → n ≤ 1000 ∧ address = 4096 := by
    intro n address hos
    simp only [smallOs, Option.ite_none_right_eq_some, Option.some.injEq] at hos
    exact ⟨hos.1, hos.2.symm⟩
  have hdata : (8192 : ℕ) ≠ 0 := by decide
  refine ⟨⟨_, .append ?_ (.outside hdata ⟨?_, ?_⟩)⟩, ?_⟩
  · intro n address hos
    have hvalues := hreturned n address hos
    omega
  · intro string hstring
    obtain ⟨hbase, hcapacity⟩ := h string hstring
    refine Or.inr ?_
    change string.base - 16 + (16 + string.capacity + 1) ≤ 8192
    omega
  · intro n address hos
    have hvalues := hreturned n address hos
    refine Or.inr ?_
    change address + n ≤ 8192
    omega
  · intro n address hos
    have hvalues := hreturned n address hos
    omega

theorem moves_bounded_sixteens : reallocations [sixteen, sixteen, sixteen] = ⟨48, 3, 48⟩ ∧
    48 ≤ 2 * 48 ∧ 16 * 2 ^ (3 - 2) < 48 := by
  have hops : EachStep next Op.Growing none [sixteen, sixteen, sixteen] := by
    refine ⟨sixteen_growing fun _ h => (by cases h), fun first hfirst => ?_⟩
    cases hfirst
    refine ⟨sixteen_growing ?_, fun second hsecond => ?_⟩
    · rintro _ ⟨⟩
      exact ⟨rfl, by decide⟩
    cases hsecond
    refine ⟨sixteen_growing ?_, fun _ _ => trivial⟩
    rintro _ ⟨⟩
    exact ⟨rfl, by decide⟩
  have htally : reallocations [sixteen, sixteen, sixteen] = ⟨48, 3, 48⟩ := by decide
  obtain ⟨hmoved, hmoves⟩ := moves_bounded hops
  rw [htally] at hmoved hmoves
  exact ⟨htally, hmoved, hmoves (by decide)⟩

end Liblor.OwnedString
