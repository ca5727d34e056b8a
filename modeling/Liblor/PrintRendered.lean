import Liblor.PrintModel
import Liblor.PrefixCode

/-!
# What is printed

The text of a value and the condition on which it is written. A writer `Renders` a text on a
condition: where the device accepts all writes it leaves exactly this text behind if the condition
holds, and refuses its argument otherwise.
-/

namespace Liblor.Print

open OwnedString PrefixCode

variable {D : Type} {library : Library D} {memory : Memory D} {device : Device}

/-! ## Texts -/

def quotedText (isprint : UInt8 → Bool) (bytes : Bytes) : Bytes :=
  34 :: bytes.flatMap (escaped isprint) ++ [34]

def stringText (library : Library D) (bytes : Bytes) (nested : Bool) : Bytes :=
  if nested then quotedText library.isprint bytes else bytes

/-- The text of the object at an address. -/
def typedText (library : Library D) (memory : Memory D) (value : ℕ) (kind : LorTypeKind)
    (nested : Bool) : Bytes :=
  match kind with
  | .bool => ascii (if memory.bool value then "true" else "false")
  | .char => [memory.byte value]
  | .float => library.floating (memory.floating kind value)
  | .double => library.floating (memory.floating kind value)
  | .longDouble => library.floating (memory.floating kind value)
  | .cstring =>
    let text := memory.pointer value
    if text = 0 then ascii "(null)"
    else stringText library (viewBytes memory (svFromCstr memory text)) nested
  | .pointer => library.pointer (memory.pointer value)
  | .stringView => stringText library (viewBytes memory (memory.view value)) nested
  | .arenaConfig => arenaConfigText (memory.arenaConfig value)
  | .arena => arenaText (memory.arena value)
  | .arenaMark => arenaMarkText library (memory.arenaMark value)
  | .scratch => scratchText library (memory.scratch value)
  | .mmap => mmapText library (memory.mmap value)
  | .leakStats => leakStatsText (memory.leakStats value)
  | .random => randomText (memory.random value)
  | .other => []
  | .unknown _ => []
  | kind => decimal (memory.integer kind value)

def sequenceText (library : Library D) (memory : Memory D) (sequence : LorPrintSequence)
    (isSet : Bool) : Bytes :=
  if sequence.count = 0 then ascii (if isSet then "set()" else "[]")
  else
    [if isSet then 123 else 91] ++
      (ascii ", ").intercalate ((List.range sequence.count).map fun i =>
        typedText library memory (sequence.data + i * sequence.elementSize) sequence.elementKind
          true) ++
      [if isSet then 125 else 93]

def entryText (library : Library D) (memory : Memory D) (map : LorPrintMap) (i : ℕ) : Bytes :=
  let entry := map.data + i * map.entrySize
  typedText library memory (entry + map.keyOffset) map.keyKind true ++ ascii ": " ++
    typedText library memory (entry + map.valueOffset) map.valueKind true

def mapText (library : Library D) (memory : Memory D) (map : LorPrintMap) : Bytes :=
  [123] ++
    (ascii ", ").intercalate ((List.range map.count).map (entryText library memory map)) ++ [125]

def valueText (library : Library D) (memory : Memory D) : LorPrintValue D → Bytes
  | .bool boolean => ascii (if boolean ≠ 0 then "true" else "false")
  | .char character => [character]
  | .signed value => decimal value
  | .unsigned value => decimal value
  | .floating value => library.floating value
  | .cstring text =>
    if text ≠ 0 then viewBytes memory (svFromCstr memory text) else ascii "(null)"
  | .stringView view => viewBytes memory view
  | .pointer value => library.pointer value
  | .arenaConfig place => arenaConfigText (memory.arenaConfig place)
  | .arena place => arenaText (memory.arena place)
  | .arenaMark place => arenaMarkText library (memory.arenaMark place)
  | .scratch place => scratchText library (memory.scratch place)
  | .mmap place => mmapText library (memory.mmap place)
  | .leakStats place => leakStatsText (memory.leakStats place)
  | .random place => randomText (memory.random place)
  | .array sequence => sequenceText library memory sequence false
  | .set sequence => sequenceText library memory sequence true
  | .map map => mapText library memory map
  | .custom _ => []
  | .ending _ => []
  | .unknown _ => []

def LorPrintValue.endingView : LorPrintValue D → Option LorStringView
  | ending view => some view
  | _ => none

/-- The values but for the markers of endings, joined by the separator, and the last ending. -/
def printedText (library : Library D) (memory : Memory D) (config : LorPrintConfig)
    (values : List (LorPrintValue D)) : Bytes :=
  (viewBytes memory config.separator).intercalate
      ((values.filter (·.endingView.isNone)).map (valueText library memory)) ++
    viewBytes memory ((values.filterMap (·.endingView)).getLast?.getD config.ending)

/-! ## Conditions -/

/-- The writer knows the type, and a view is valid. -/
def TypedWritable (library : Library D) (memory : Memory D) (value size : ℕ) (kind : LorTypeKind) :
    Prop :=
  typeSizeValid library kind size ∧ (kind = .stringView → svIsValid (memory.view value))

def SequenceWritable (library : Library D) (memory : Memory D) (sequence : LorPrintSequence) :
    Prop :=
  ∀ i < sequence.count, TypedWritable library memory (sequence.data + i * sequence.elementSize)
    sequence.elementSize sequence.elementKind

def MapWritable (library : Library D) (memory : Memory D) (map : LorPrintMap) : Prop :=
  ∀ i < map.count,
    TypedWritable library memory (map.data + i * map.entrySize + map.keyOffset) map.keySize
        map.keyKind ∧
      TypedWritable library memory (map.data + i * map.entrySize + map.valueOffset) map.valueSize
        map.valueKind

/-- The writer writes the value. -/
def Writable (library : Library D) (memory : Memory D) : LorPrintValue D → Prop
  | .stringView view => svIsValid view
  | .array sequence => SequenceWritable library memory sequence
  | .set sequence => SequenceWritable library memory sequence
  | .map map => MapWritable library memory map
  | .custom _ => False
  | .unknown _ => False
  | _ => True

/-- The descriptor of a container stays within its objects, and an ending is a view. -/
def Described : LorPrintValue D → Prop
  | .array sequence => SequenceDescribed sequence
  | .set sequence => SequenceDescribed sequence
  | .map map => (map.data = 0 → map.count = 0) ∧ map.entrySize ≠ 0 ∧
      map.count ≤ sizeMax / map.entrySize ∧
      (map.keyOffset ≤ map.entrySize ∧ map.keySize ≤ map.entrySize - map.keyOffset) ∧
      (map.valueOffset ≤ map.entrySize ∧ map.valueSize ≤ map.entrySize - map.valueOffset)
  | .ending view => svIsValid view
  | _ => True
where
  SequenceDescribed (sequence : LorPrintSequence) : Prop :=
    (sequence.data = 0 → sequence.count = 0) ∧ sequence.elementSize ≠ 0 ∧
      sequence.count ≤ sizeMax / sequence.elementSize

/-- No function of the program prints a part of the value. -/
def Plain : LorPrintValue D → Prop
  | .custom custom => custom.function = none
  | .array sequence => sequence.elementFunction = none
  | .set sequence => sequence.elementFunction = none
  | .map map => map.keyFunction = none ∧ map.valueFunction = none
  | _ => True

/-! ## Writers -/

structure Renders (device : Device) (writer : Writer) (condition : Prop) (text : Bytes) : Prop where
  written : condition → device.Accepts → ∀ out, ∃ out',
    writer out = (.ok, out') ∧ out'.written = out.written ++ text
  refused : ¬condition → device.Accepts → ∀ out, (writer out).1 = .invalidArgument
  failed : condition → ∀ out, (writer out).1 = .ok ∨ (writer out).1 = .systemError

section Renders

theorem renders_put (text : Bytes) : Renders device (put device text) True text where
  written := by
    intro _ haccepts out
    refine ⟨⟨out.written ++ text, out.calls + 1⟩, ?_, rfl⟩
    unfold put
    rw [haccepts]
  refused := fun h => absurd trivial h
  failed := by
    intro _ out
    unfold put
    cases device out.calls with
    | none => exact Or.inl rfl
    | some count => exact Or.inr rfl

theorem renders_done : Renders device done True [] where
  written := fun _ _ out => ⟨out, rfl, (List.append_nil _).symm⟩
  refused := fun h => absurd trivial h
  failed := fun _ _ => Or.inl rfl

theorem renders_refuse (text : Bytes) : Renders device refuse False text where
  written := fun h => h.elim
  refused := fun _ _ _ => rfl
  failed := fun h => h.elim

variable {writer first second : Writer} {p q : Prop} {text text' : Bytes}

theorem Renders.congr (h : Renders device writer p text) (hiff : p ↔ q)
    (htext : q → text = text') : Renders device writer q text' where
  written := by
    intro hq haccepts out
    rw [← htext hq]
    exact h.written (hiff.2 hq) haccepts out
  refused := fun hq => h.refused fun hp => hq (hiff.1 hp)
  failed := fun hq => h.failed (hiff.2 hq)

theorem Renders.next (h : Renders device first p text) (h' : Renders device second q text') :
    Renders device (first.next second) (p ∧ q) (text ++ text') where
  written := by
    rintro ⟨hp, hq⟩ haccepts out
    obtain ⟨out₁, hfirst, hwritten⟩ := h.written hp haccepts out
    obtain ⟨out₂, hsecond, hwritten'⟩ := h'.written hq haccepts out₁
    refine ⟨out₂, ?_, ?_⟩
    · simp only [Writer.next, hfirst, hsecond, ne_eq, not_true_eq_false, if_false]
    · rw [hwritten', hwritten, List.append_assoc]
  refused := by
    intro hnot haccepts out
    unfold Writer.next
    by_cases hp : p
    · obtain ⟨out₁, hfirst, -⟩ := h.written hp haccepts out
      have hq : ¬q := fun hq => hnot ⟨hp, hq⟩
      simp only [hfirst, ne_eq, not_true_eq_false, if_false]
      exact h'.refused hq haccepts out₁
    · have hfirst := h.refused hp haccepts out
      have hne : (first out).1 ≠ .ok := by
        rw [hfirst]
        decide
      dsimp only
      rw [if_pos hne]
      exact hfirst
  failed := by
    rintro ⟨hp, hq⟩ out
    unfold Writer.next
    dsimp only
    rcases h.failed hp out with hok | herror
    · rw [if_neg (not_not.2 hok)]
      exact h'.failed hq _
    · have hne : (first out).1 ≠ .ok := by
        rw [herror]
        decide
      rw [if_pos hne]
      exact Or.inr herror

theorem viewBytes_empty {view : LorStringView} (h : view.size = 0) :
    viewBytes memory view = [] := by
  rw [viewBytes, h]
  rfl

variable (memory device) in
theorem renders_view (view : LorStringView) :
    Renders device (writeView memory device view) (svIsValid view) (viewBytes memory view) := by
  unfold writeView
  cases hvalid : svIsValid view with
  | false =>
    exact (renders_refuse []).congr (iff_of_false id Bool.false_ne_true) fun h => by cases h
  | true =>
    have hnot : ¬(!true) = true := Bool.false_ne_true
    rw [if_neg hnot]
    by_cases hsize : view.size = 0
    · rw [if_pos hsize, viewBytes_empty hsize]
      exact renders_done.congr (iff_of_true trivial rfl) fun _ => rfl
    · rw [if_neg hsize]
      exact (renders_put _).congr (iff_of_true trivial rfl) fun _ => rfl

variable (device) in
theorem renders_escaped (isprint : UInt8 → Bool) (bytes : Bytes) :
    Renders device (writeEscaped isprint device bytes) True (bytes.flatMap (escaped isprint)) := by
  induction bytes with
  | nil => exact renders_done
  | cons byte bytes ih =>
    rw [List.flatMap_cons]
    exact ((renders_put _).next ih).congr (and_self_iff) fun _ => rfl

variable (library memory device) in
theorem renders_quoted (view : LorStringView) :
    Renders device (writeQuotedView library memory device view) (svIsValid view)
      (quotedText library.isprint (viewBytes memory view)) := by
  unfold writeQuotedView
  cases hvalid : svIsValid view with
  | false =>
    exact (renders_refuse []).congr (iff_of_false id Bool.false_ne_true) fun h => by cases h
  | true =>
    have hnot : ¬(!true) = true := Bool.false_ne_true
    rw [if_neg hnot]
    have hbody := renders_escaped device library.isprint (viewBytes memory view)
    exact ((renders_put [34]).next (hbody.next (renders_put [34]))).congr
      (iff_of_true ⟨trivial, trivial, trivial⟩ rfl) fun _ => rfl

variable (memory) in
theorem svFromCstr_valid {text : ℕ} (h : text ≠ 0) : svIsValid (svFromCstr memory text) = true := by
  unfold svFromCstr svIsValid
  rw [if_neg h, bne_iff_ne.2 h]
  rfl

variable (library memory device) in
theorem renders_typed (value size : ℕ) (kind : LorTypeKind) (nested : Bool) :
    Renders device (writeTypedValue library memory device value size kind none nested)
      (TypedWritable library memory value size kind)
        (typedText library memory value kind nested) := by
  have hput : ∀ {text : Bytes}, kind ≠ .stringView → typeSizeValid library kind size = true →
      Renders device (put device text) (TypedWritable library memory value size kind) text :=
    fun hkind hsize => (renders_put _).congr
      (iff_of_true trivial ⟨hsize, fun h => absurd h hkind⟩) fun _ => rfl
  unfold writeTypedValue
  dsimp only
  cases hsize : typeSizeValid library kind size with
  | false =>
    refine (renders_refuse _).congr (iff_of_false id fun h => ?_) fun _ => rfl
    have htrue := h.1
    rw [hsize] at htrue
    cases htrue
  | true =>
    have hnot : ¬(!true) = true := Bool.false_ne_true
    rw [if_neg hnot]
    cases kind with
    | other => cases hsize
    | unknown tag => cases hsize
    | cstring =>
      simp only [typedText]
      by_cases htext : memory.pointer value = 0
      · rw [if_pos htext, if_pos htext]
        exact hput (by decide) hsize
      · rw [if_neg htext, if_neg htext]
        cases nested with
        | false => exact hput (by decide) hsize
        | true =>
          have hvalid := svFromCstr_valid memory htext
          refine (renders_quoted library memory device _).congr
            (iff_of_true hvalid ⟨hsize, fun h => ?_⟩) fun _ => rfl
          cases h
    | stringView =>
      have hiff : svIsValid (memory.view value) = true ↔
          TypedWritable library memory value size .stringView :=
        ⟨fun hvalid => ⟨hsize, fun _ => hvalid⟩, fun h => h.2 rfl⟩
      cases nested with
      | false => exact (renders_view memory device _).congr hiff fun _ => rfl
      | true => exact (renders_quoted library memory device _).congr hiff fun _ => rfl
    | _ => exact hput (by decide) hsize

/-! ## Containers -/

variable {item : ℕ → Writer} {accepted : ℕ → Prop} {itemText : ℕ → Bytes}

theorem renders_following (hitem : ∀ i, Renders device (item i) (accepted i) (itemText i)) (n i : ℕ)
    (hi : i ≠ 0) :
    Renders device (writeItems device item n i) (∀ j, i ≤ j → j < i + n → accepted j)
      (following (ascii ", ") [] itemText (List.range' i n)) := by
  induction n generalizing i with
  | zero =>
    refine renders_done.congr (iff_of_true trivial fun j hle hlt => ?_) fun _ => rfl
    omega
  | succ n ih =>
    rw [List.range'_succ, following, List.append_assoc]
    unfold writeItems
    rw [if_pos hi]
    refine ((renders_put _).next ((hitem i).next (ih (i + 1) (Nat.succ_ne_zero i)))).congr ?_
      fun _ => rfl
    constructor
    · rintro ⟨-, hfirst, hrest⟩ j hle hlt
      rcases Nat.eq_or_lt_of_le hle with rfl | hgt
      · exact hfirst
      · exact hrest j hgt (by omega)
    · intro hall
      exact ⟨trivial, hall i le_rfl (by omega), fun j hle hlt => hall j (by omega) (by omega)⟩

theorem renders_items (hitem : ∀ i, Renders device (item i) (accepted i) (itemText i)) (n : ℕ) :
    Renders device (writeItems device item n 0) (∀ i < n, accepted i)
      ((ascii ", ").intercalate ((List.range n).map itemText)) := by
  cases n with
  | zero =>
    refine renders_done.congr (iff_of_true trivial fun i hlt => ?_) fun _ => rfl
    omega
  | succ n =>
    have htext := intercalate_following (ascii ", ") [] itemText 0 (List.range' 1 n)
    have hrange : List.range (n + 1) = 0 :: List.range' 1 n := by
      rw [List.range_eq_range', List.range'_succ]
    rw [List.append_nil, ← hrange] at htext
    rw [htext]
    unfold writeItems
    rw [if_neg (not_not.2 rfl)]
    refine (renders_done.next ((hitem 0).next (renders_following hitem n 1 one_ne_zero))).congr ?_
      fun _ => rfl
    constructor
    · rintro ⟨-, hfirst, hrest⟩ i hlt
      rcases Nat.eq_zero_or_pos i with rfl | hpos
      · exact hfirst
      · exact hrest i hpos (by omega)
    · intro hall
      exact ⟨trivial, hall 0 (by omega), fun j _ hlt => hall j (by omega)⟩

theorem renders_sequence {sequence : LorPrintSequence} (hplain : sequence.elementFunction = none)
    (isSet : Bool) :
    Renders device (writeSequence library memory device sequence isSet)
      (SequenceWritable library memory sequence) (sequenceText library memory sequence isSet) := by
  unfold writeSequence sequenceText
  by_cases hcount : sequence.count = 0
  · rw [if_pos hcount, if_pos hcount]
    refine (renders_put _).congr (iff_of_true trivial fun i hi => ?_) fun _ => rfl
    omega
  · rw [if_neg hcount, if_neg hcount, hplain, List.append_assoc]
    have helements := renders_items (fun i => renders_typed library memory device
      (sequence.data + i * sequence.elementSize) sequence.elementSize sequence.elementKind true)
      sequence.count
    refine ((renders_put _).next (helements.next (renders_put _))).congr ?_ fun _ => rfl
    exact ⟨fun h => h.2.1, fun h => ⟨trivial, h, trivial⟩⟩

theorem renders_map {map : LorPrintMap} (hkey : map.keyFunction = none)
    (hvalue : map.valueFunction = none) :
    Renders device (writeMap library memory device map) (MapWritable library memory map)
      (mapText library memory map) := by
  have hentry : ∀ i, Renders device
      ((writeTypedValue library memory device (map.data + i * map.entrySize + map.keyOffset)
          map.keySize map.keyKind none true).next <|
        (put device (ascii ": ")).next
          (writeTypedValue library memory device (map.data + i * map.entrySize + map.valueOffset)
            map.valueSize map.valueKind none true))
      (TypedWritable library memory (map.data + i * map.entrySize + map.keyOffset) map.keySize
          map.keyKind ∧
        TypedWritable library memory (map.data + i * map.entrySize + map.valueOffset) map.valueSize
          map.valueKind)
      (entryText library memory map i) := by
    intro i
    refine ((renders_typed library memory device _ _ _ _).next
      ((renders_put _).next (renders_typed library memory device _ _ _ _))).congr ?_ fun _ => ?_
    · exact ⟨fun h => ⟨h.1, h.2.2⟩, fun h => ⟨h.1, trivial, h.2⟩⟩
    · exact (List.append_assoc _ _ _).symm
  unfold writeMap mapText
  rw [hkey, hvalue, List.append_assoc]
  refine ((renders_put _).next ((renders_items hentry map.count).next (renders_put _))).congr ?_
    fun _ => rfl
  exact ⟨fun h => h.2.1, fun h => ⟨trivial, h, trivial⟩⟩

theorem renders_value {value : LorPrintValue D} (hplain : Plain value) :
    Renders device (writeValue library memory device value) (Writable library memory value)
      (valueText library memory value) := by
  have hrecord : ∀ {kind : LorTypeKind} (place : ℕ), kind ≠ .stringView →
      typeSizeValid library kind (library.sizeof kind) = true →
      Renders device (writeValue.record library memory device place kind) True
        (typedText library memory place kind false) :=
    fun place hkind hsize => (renders_typed library memory device place _ _ false).congr
      (iff_of_true ⟨hsize, fun h => absurd h hkind⟩ trivial) fun _ => rfl
  have hsize : ∀ {kind : LorTypeKind}, (library.sizeof kind == library.sizeof kind) = true :=
    beq_self_eq_true _
  cases value with
  | stringView view => exact renders_view memory device view
  | arenaConfig place => exact hrecord place (by decide) hsize
  | arena place => exact hrecord place (by decide) hsize
  | arenaMark place => exact hrecord place (by decide) hsize
  | scratch place => exact hrecord place (by decide) hsize
  | mmap place => exact hrecord place (by decide) hsize
  | leakStats place => exact hrecord place (by decide) hsize
  | random place => exact hrecord place (by decide) hsize
  | array sequence => exact renders_sequence hplain false
  | set sequence => exact renders_sequence hplain true
  | map map => exact renders_map hplain.1 hplain.2
  | custom custom =>
    obtain ⟨place, function⟩ := custom
    obtain rfl : function = none := hplain
    exact renders_refuse []
  | ending view => exact renders_done
  | unknown tag => exact renders_refuse []
  | _ => exact renders_put _

end Renders

end Liblor.Print
