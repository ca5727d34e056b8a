import Liblor.PrintRendered

/-!
# Validation before printing

The validator accepts what is described within its bounds and can be written. All values are checked
before the first is written, so that a call prints everything or is refused before it prints
anything.
-/

namespace Liblor.Print

open OwnedString PrefixCode

variable {D : Type} {library : Library D} {memory : Memory D} {device : Device}

section Valid

theorem typedValueValid_iff {value size : ℕ} {kind : LorTypeKind} (hvalue : value ≠ 0) :
    typedValueValid library memory value size kind none = true ↔
      TypedWritable library memory value size kind := by
  have hnone : ¬(none : Option LorPrintCustomFn).isSome = true := Bool.false_ne_true
  unfold typedValueValid TypedWritable
  rw [if_neg hvalue, if_neg hnone]
  cases typeSizeValid library kind size with
  | false => exact iff_of_false Bool.false_ne_true fun h => Bool.false_ne_true h.1
  | true =>
    have hnot : ¬(!true) = true := Bool.false_ne_true
    rw [if_neg hnot]
    by_cases hkind : kind = .stringView
    · rw [if_pos hkind]
      exact ⟨fun h => ⟨rfl, fun _ => h⟩, fun h => h.2 hkind⟩
    · rw [if_neg hkind]
      exact ⟨fun _ => ⟨rfl, fun h => absurd h hkind⟩, fun _ => rfl⟩

theorem sequenceValid_iff {sequence : LorPrintSequence} (hplain : sequence.elementFunction = none) :
    sequenceValid library memory sequence = true ↔
      Described.SequenceDescribed sequence ∧ SequenceWritable library memory sequence := by
  unfold sequenceValid Described.SequenceDescribed SequenceWritable
  rw [hplain]
  by_cases hbad : (sequence.data = 0 ∧ sequence.count ≠ 0) ∨ sequence.elementSize = 0 ∨
      sequence.count > sizeMax / sequence.elementSize
  · rw [if_pos hbad]
    refine iff_of_false Bool.false_ne_true fun h => ?_
    obtain ⟨⟨hdata, hsize, hcount⟩, -⟩ := h
    rcases hbad with ⟨hzero, hne⟩ | hzero | hlarge
    · exact hne (hdata hzero)
    · exact hsize hzero
    · exact absurd hcount (Nat.not_le.2 hlarge)
  · rw [if_neg hbad, List.all_eq_true]
    simp only [not_or, not_and, not_not, gt_iff_lt, not_lt] at hbad
    have hplace : ∀ i < sequence.count, sequence.data + i * sequence.elementSize ≠ 0 := by
      intro i hi hzero
      have hdata : sequence.data = 0 := Nat.eq_zero_of_add_eq_zero_right hzero
      rw [hbad.1 hdata] at hi
      exact Nat.not_lt_zero i hi
    constructor
    · intro hall
      exact ⟨hbad, fun i hi => (typedValueValid_iff (hplace i hi)).1 (hall i (List.mem_range.2 hi))⟩
    · intro h i hi
      have hlt := List.mem_range.1 hi
      exact (typedValueValid_iff (hplace i hlt)).2 (h.2 i hlt)

theorem mapValid_iff {map : LorPrintMap} (hplain : Plain (D := D) (.map map)) :
    mapValid library memory map = true ↔
      Described (D := D) (.map map) ∧ MapWritable library memory map := by
  obtain ⟨hkey, hvalue⟩ := hplain
  simp only [mapValid, Described, MapWritable]
  rw [hkey, hvalue]
  by_cases hbad : (map.data = 0 ∧ map.count ≠ 0) ∨ map.entrySize = 0 ∨
      map.count > sizeMax / map.entrySize ∨ map.keyOffset > map.entrySize ∨
      map.keySize > map.entrySize - map.keyOffset ∨ map.valueOffset > map.entrySize ∨
      map.valueSize > map.entrySize - map.valueOffset
  · rw [if_pos hbad]
    refine iff_of_false Bool.false_ne_true fun h => ?_
    obtain ⟨⟨hdata, hsize, hcount, ⟨hk, hks⟩, hv, hvs⟩, -⟩ := h
    rcases hbad with ⟨hzero, hne⟩ | hzero | hlarge | hlarge | hlarge | hlarge | hlarge
    · exact hne (hdata hzero)
    · exact hsize hzero
    · omega
    · omega
    · omega
    · omega
    · omega
  · rw [if_neg hbad, List.all_eq_true]
    simp only [not_or, not_and, not_not, gt_iff_lt, not_lt] at hbad
    obtain ⟨hdata, hsize, hcount, hk, hks, hv, hvs⟩ := hbad
    have hplace : ∀ i < map.count, ∀ offset, map.data + i * map.entrySize + offset ≠ 0 := by
      intro i hi offset hzero
      have hentry := Nat.eq_zero_of_add_eq_zero_right hzero
      rw [hdata (Nat.eq_zero_of_add_eq_zero_right hentry)] at hi
      exact Nat.not_lt_zero i hi
    constructor
    · intro hall
      refine ⟨⟨hdata, hsize, hcount, ⟨hk, hks⟩, hv, hvs⟩, fun i hi => ?_⟩
      have hentry := hall i (List.mem_range.2 hi)
      rw [Bool.and_eq_true] at hentry
      exact ⟨(typedValueValid_iff (hplace i hi _)).1 hentry.1,
        (typedValueValid_iff (hplace i hi _)).1 hentry.2⟩
    · rintro ⟨-, hall⟩ i hi
      have hlt := List.mem_range.1 hi
      rw [Bool.and_eq_true]
      exact ⟨(typedValueValid_iff (hplace i hlt _)).2 (hall i hlt).1,
        (typedValueValid_iff (hplace i hlt _)).2 (hall i hlt).2⟩

/-- The validator accepts what is described and writable. -/
theorem valueValid_iff {value : LorPrintValue D} (hplain : Plain value) :
    valueValid library memory value = true ↔ Described value ∧ Writable library memory value := by
  cases value with
  | stringView view => exact ⟨fun h => ⟨trivial, h⟩, fun h => h.2⟩
  | ending view => exact ⟨fun h => ⟨h, trivial⟩, fun h => h.1⟩
  | array sequence => exact sequenceValid_iff hplain
  | set sequence => exact sequenceValid_iff hplain
  | map map => exact mapValid_iff hplain
  | custom custom =>
    obtain ⟨place, function⟩ := custom
    obtain rfl : function = none := hplain
    exact iff_of_false Bool.false_ne_true fun h => h.2
  | unknown tag => exact iff_of_false Bool.false_ne_true fun h => h.2
  | _ => exact iff_of_true rfl ⟨trivial, trivial⟩

/-- A value is writable exactly where the writer succeeds on a device that accepts all. -/
theorem writable_iff {value : LorPrintValue D} (hplain : Plain value) :
    Writable library memory value ↔ ∀ device : Device, device.Accepts → ∀ out,
      (writeValue library memory device value out).1 = .ok := by
  constructor
  · intro hwritable device haccepts out
    obtain ⟨out', hwrite, -⟩ :=
      (renders_value hplain).written hwritable haccepts out
    rw [hwrite]
  · intro hok
    by_contra hnot
    have haccepts : Device.Accepts fun _ => none := fun _ => rfl
    have hrefused := (renders_value hplain).refused hnot haccepts ⟨[], 0⟩
    rw [hok _ haccepts ⟨[], 0⟩] at hrefused
    cases hrefused

end Valid

section Loops

variable {separator : LorStringView}

theorem findEnding_cons (ending : LorStringView) (value : LorPrintValue D)
    (values : List (LorPrintValue D)) :
    findEnding library memory ending (value :: values) =
      if valueValid library memory value = true then
        findEnding library memory (value.endingView.getD ending) values
      else none := by
  cases hvalid : valueValid library memory value with
  | false => cases value <;> simp [findEnding, hvalid]
  | true => cases value <;> simp [findEnding, hvalid, LorPrintValue.endingView]

theorem findEnding_eq (values : List (LorPrintValue D)) (ending : LorStringView) :
    findEnding library memory ending values =
      if ∀ value ∈ values, valueValid library memory value = true then
        some ((values.filterMap (·.endingView)).getLast?.getD ending)
      else none := by
  induction values generalizing ending with
  | nil => exact (if_pos fun _ hmem => by cases hmem).symm
  | cons value values ih =>
    rw [findEnding_cons, ih]
    by_cases hvalue : valueValid library memory value = true
    · rw [if_pos hvalue]
      by_cases hrest : ∀ value ∈ values, valueValid library memory value = true
      · have hall : ∀ value' ∈ value :: values, valueValid library memory value' = true :=
          List.forall_mem_cons.2 ⟨hvalue, hrest⟩
        rw [if_pos hrest, if_pos hall]
        cases hending : value.endingView with
        | none => rw [List.filterMap_cons_none hending, Option.getD_none]
        | some view =>
          rw [List.filterMap_cons_some hending, List.getLast?_cons, Option.getD_some,
            Option.getD_some]
      · have hnot : ¬∀ value' ∈ value :: values, valueValid library memory value' = true :=
          fun hall => hrest (List.forall_mem_cons.1 hall).2
        rw [if_neg hrest, if_neg hnot]
    · have hnot : ¬∀ value' ∈ value :: values, valueValid library memory value' = true :=
        fun hall => hvalue (List.forall_mem_cons.1 hall).1
      rw [if_neg hvalue, if_neg hnot]

theorem writeValues_ending {value : LorPrintValue D} {view : LorStringView}
    (h : value.endingView = some view) (printed : ℕ) (values : List (LorPrintValue D)) :
    writeValues library memory device separator printed (value :: values) =
      writeValues library memory device separator printed values := by
  cases value <;> first | rfl | cases h

theorem writeValues_value {value : LorPrintValue D} (h : value.endingView = none) (printed : ℕ)
    (values : List (LorPrintValue D)) :
    writeValues library memory device separator printed (value :: values) =
      Writer.next (if printed ≠ 0 then writeView memory device separator else done)
        ((writeValue library memory device value).next
          (writeValues library memory device separator (printed + 1) values)) := by
  cases value <;> first | rfl | cases h

theorem filter_ending {value : LorPrintValue D} {view : LorStringView}
    (h : value.endingView = some view) (values : List (LorPrintValue D)) :
    (value :: values).filter (·.endingView.isNone) = values.filter (·.endingView.isNone) := by
  refine List.filter_cons_of_neg ?_
  rw [h]
  exact Bool.false_ne_true

theorem filter_value {value : LorPrintValue D} (h : value.endingView = none)
    (values : List (LorPrintValue D)) :
    (value :: values).filter (·.endingView.isNone) =
      value :: values.filter (·.endingView.isNone) := by
  refine List.filter_cons_of_pos ?_
  rw [h]
  rfl

theorem writable_ending {value : LorPrintValue D} {view : LorStringView}
    (h : value.endingView = some view) : Writable library memory value := by
  cases value <;> trivial

theorem renders_no_values (printed : ℕ) :
    Renders device (writeValues library memory device separator printed [])
      (∀ value ∈ [], Writable library memory value) [] := by
  refine renders_done.congr (iff_of_true trivial fun _ hmem => ?_) fun _ => rfl
  cases hmem

theorem Renders.ending {value : LorPrintValue D} {view : LorStringView}
    (hending : value.endingView = some view) {printed : ℕ} {values : List (LorPrintValue D)}
    {text : Bytes} (h : Renders device (writeValues library memory device separator printed values)
      (∀ value ∈ values, Writable library memory value) text) :
    Renders device (writeValues library memory device separator printed (value :: values))
      (∀ value' ∈ value :: values, Writable library memory value') text := by
  rw [writeValues_ending hending]
  refine h.congr ?_ fun _ => rfl
  exact ⟨fun h => List.forall_mem_cons.2 ⟨writable_ending hending, h⟩,
    fun h => (List.forall_mem_cons.1 h).2⟩

theorem renders_values_following (hseparator : svIsValid separator = true)
    (values : List (LorPrintValue D)) (hplain : ∀ value ∈ values, Plain value) {printed : ℕ}
    (hprinted : printed ≠ 0) :
    Renders device (writeValues library memory device separator printed values)
      (∀ value ∈ values, Writable library memory value)
      (following (viewBytes memory separator) [] (valueText library memory)
        (values.filter (·.endingView.isNone))) := by
  induction values generalizing printed with
  | nil => exact renders_no_values _
  | cons value values ih =>
    obtain ⟨hvalue, hrest⟩ := List.forall_mem_cons.1 hplain
    cases hending : value.endingView with
    | some view =>
      rw [filter_ending hending]
      exact (ih hrest hprinted).ending hending
    | none =>
      rw [writeValues_value hending, filter_value hending, if_pos hprinted, following,
        List.append_assoc]
      refine ((renders_view memory device separator).next ((renders_value hvalue).next
        (ih hrest (Nat.succ_ne_zero printed)))).congr ?_ fun _ => rfl
      exact ⟨fun h => List.forall_mem_cons.2 h.2,
        fun h => ⟨hseparator, List.forall_mem_cons.1 h⟩⟩

variable (library memory device) in
/-- The values are written one after the other with separators in between. -/
theorem renders_values (hseparator : svIsValid separator = true) (values : List (LorPrintValue D))
    (hplain : ∀ value ∈ values, Plain value) :
    Renders device (writeValues library memory device separator 0 values)
      (∀ value ∈ values, Writable library memory value)
      ((viewBytes memory separator).intercalate
        ((values.filter (·.endingView.isNone)).map (valueText library memory))) := by
  induction values with
  | nil => exact renders_no_values _
  | cons value values ih =>
    obtain ⟨hvalue, hrest⟩ := List.forall_mem_cons.1 hplain
    cases hending : value.endingView with
    | some view =>
      rw [filter_ending hending]
      exact (ih hrest).ending hending
    | none =>
      have htext := intercalate_following (viewBytes memory separator) []
        (valueText library memory) value (values.filter (·.endingView.isNone))
      rw [List.append_nil] at htext
      rw [writeValues_value hending, filter_value hending, htext, if_neg (not_not.2 rfl)]
      refine (renders_done.next ((renders_value hvalue).next
        (renders_values_following hseparator values hrest one_ne_zero))).congr ?_ fun _ => rfl
      exact ⟨fun h => List.forall_mem_cons.2 h.2,
        fun h => ⟨trivial, List.forall_mem_cons.1 h⟩⟩

theorem lastEnding_valid {ending : LorStringView} (hending : svIsValid ending = true)
    {values : List (LorPrintValue D)}
    (hvalid : ∀ value ∈ values, valueValid library memory value = true) :
    svIsValid ((values.filterMap (·.endingView)).getLast?.getD ending) = true := by
  cases hlast : (values.filterMap (·.endingView)).getLast? with
  | none => exact hending
  | some view =>
    obtain ⟨value, hmem, hview⟩ := List.mem_filterMap.1 (List.mem_of_getLast? hlast)
    have hvalue := hvalid value hmem
    cases value with
    | ending view' =>
      cases hview
      exact hvalue
    | _ => cases hview

end Loops

/-- The validator accepts exactly the values that are described within their bounds and that the
writer can write. A call is refused before it has written anything, or it prints every value. -/
theorem printing_validates_first (library : Library D) (memory : Memory D) (device : Device)
    (out : Option Stream) (config : LorPrintConfig) (values : Option (List (LorPrintValue D)))
    (hplain : ∀ list, values = some list → ∀ value ∈ list, Plain value) :
    (∀ value : LorPrintValue D, Plain value →
      (valueValid library memory value = true ↔ Described value ∧
        ∀ device : Device, device.Accepts → ∀ out,
          (writeValue library memory device value out).1 = .ok)) ∧
    (fprintValues library memory device out config values = (.invalidArgument, out) ∧
        (out = none ∨ values = none ∨ svIsValid config.separator = false ∨
          svIsValid config.ending = false ∨
          ∃ list, values = some list ∧ ∃ value ∈ list, valueValid library memory value = false) ∨
      ∃ stream list, out = some stream ∧ values = some list ∧
        svIsValid config.separator = true ∧ svIsValid config.ending = true ∧
        (∀ value ∈ list, valueValid library memory value = true) ∧
        ((fprintValues library memory device out config values).1 = .ok ∨
          (fprintValues library memory device out config values).1 = .systemError) ∧
        (device.Accepts → ∃ stream',
          fprintValues library memory device out config values = (.ok, some stream') ∧
          stream'.written = stream.written ++ printedText library memory config list)) := by
  refine ⟨fun value hvalue => ?_, ?_⟩
  · rw [valueValid_iff hvalue, writable_iff hvalue]
  · cases out with
    | none => exact Or.inl ⟨rfl, Or.inl rfl⟩
    | some stream =>
      cases values with
      | none => exact Or.inl ⟨rfl, Or.inr (Or.inl rfl)⟩
      | some list =>
        unfold fprintValues
        dsimp only
        by_cases hviews : (!svIsValid config.separator || !svIsValid config.ending) = true
        · rw [if_pos hviews]
          rw [Bool.or_eq_true, Bool.not_eq_true', Bool.not_eq_true'] at hviews
          rcases hviews with hseparator | hending
          · exact Or.inl ⟨rfl, Or.inr (Or.inr (Or.inl hseparator))⟩
          · exact Or.inl ⟨rfl, Or.inr (Or.inr (Or.inr (Or.inl hending)))⟩
        · rw [if_neg hviews, findEnding_eq]
          by_cases hvalid : ∀ value ∈ list, valueValid library memory value = true
          · rw [if_pos hvalid]
            rw [Bool.or_eq_true, not_or, Bool.not_eq_true', Bool.not_eq_true', Bool.not_eq_false,
              Bool.not_eq_false] at hviews
            have hwritable : ∀ value ∈ list, Writable library memory value :=
              fun value hmem => ((valueValid_iff (hplain list rfl value hmem)).1
                (hvalid value hmem)).2
            have hrenders := (renders_values library memory device hviews.1 list
              (hplain list rfl)).next (renders_view memory device
                ((list.filterMap (·.endingView)).getLast?.getD config.ending))
            have hcondition := And.intro hwritable (lastEnding_valid hviews.2 hvalid)
            refine Or.inr ⟨stream, list, rfl, rfl, hviews.1, hviews.2, hvalid,
              hrenders.failed hcondition stream, fun haccepts => ?_⟩
            obtain ⟨stream', hwrite, htext⟩ := hrenders.written hcondition haccepts stream
            exact ⟨stream', congrArg (fun answer => (answer.1, some answer.2)) hwrite, htext⟩
          · rw [if_neg hvalid]
            simp only [not_forall, Bool.not_eq_true] at hvalid
            obtain ⟨value, hmem, hinvalid⟩ := hvalid
            exact Or.inl ⟨rfl, Or.inr (Or.inr (Or.inr (Or.inr
              ⟨list, rfl, value, hmem, hinvalid⟩)))⟩

/-- A machine on which every type takes a word and a word holds its number; all bytes are blanks. -/
def wordMemory : Memory ℤ where
  byte _ := 32
  strlen _ := 0
  bool place := place / 8 != 0
  integer _ place := place / 8
  floating _ place := place / 8
  pointer place := place / 8
  view place := ⟨place, place / 8⟩
  arenaConfig _ := ⟨0, 0, 0, 0⟩
  arena _ := ⟨0, 0, 0, 0⟩
  arenaMark _ := ⟨0, 0⟩
  scratch _ := ⟨0, ⟨0, 0⟩⟩
  mmap _ := ⟨0, 0⟩
  leakStats _ := ⟨0, 0, 0, 0, 0⟩
  random _ := ⟨0, 0⟩

/-- `isprint` in the C locale. -/
def asciiPrint (byte : UInt8) : Bool := 32 ≤ byte && byte ≤ 126

def wordLibrary : Library ℤ := ⟨fun _ => 8, asciiPrint, decimal, fun place => decimal place⟩

def openDevice : Device := fun _ => none

/-- An array of two numbers, the ending, and a truth value. -/
def wordValues : List (LorPrintValue ℤ) :=
  [.array ⟨8, 2, 8, .long, none⟩, .ending ⟨1, 2⟩, .bool 1]

theorem printing_validates_first_words : ∃ stream',
    fprintValues wordLibrary wordMemory openDevice (some ⟨[], 0⟩) ⟨⟨1, 1⟩, ⟨1, 1⟩⟩
        (some wordValues) = (.ok, some stream') ∧
      stream'.written = ascii "[1, 2] true  " := by
  have hplain : ∀ list, some wordValues = some list → ∀ value ∈ list, Plain value := by
    intro list hlist value hmem
    cases hlist
    simp only [wordValues, List.mem_cons, List.not_mem_nil, or_false] at hmem
    rcases hmem with rfl | rfl | rfl
    · exact rfl
    · trivial
    · trivial
  obtain ⟨-, ⟨hrefused, -⟩ | ⟨stream, list, hstream, hlist, -, -, -, -, hprinted⟩⟩ :=
    printing_validates_first wordLibrary wordMemory openDevice (some ⟨[], 0⟩) ⟨⟨1, 1⟩, ⟨1, 1⟩⟩
      (some wordValues) hplain
  · have hok : (fprintValues wordLibrary wordMemory openDevice (some ⟨[], 0⟩) ⟨⟨1, 1⟩, ⟨1, 1⟩⟩
        (some wordValues)).1 = .ok := by decide
    rw [hrefused] at hok
    cases hok
  · cases hstream
    cases hlist
    obtain ⟨stream', hcall, hwritten⟩ := hprinted fun _ => rfl
    refine ⟨stream', hcall, hwritten.trans ?_⟩
    decide

/-- The writer can write an empty array of elements without a size, which the validator refuses. -/
theorem sizeless_array_refused :
    (∀ out,
      (writeValue wordLibrary wordMemory openDevice (.array ⟨0, 0, 0, .int, none⟩) out).1 = .ok) ∧
      valueValid wordLibrary wordMemory (.array ⟨0, 0, 0, .int, none⟩) = false ∧
      fprintValues wordLibrary wordMemory openDevice (some ⟨[], 0⟩) ⟨⟨1, 1⟩, ⟨1, 1⟩⟩
        (some [.array ⟨0, 0, 0, .int, none⟩]) = (.invalidArgument, some ⟨[], 0⟩) :=
  ⟨fun _ => rfl, rfl, rfl⟩

end Liblor.Print
