import Liblor.StringInvariant
import Liblor.Transition

/-!
# Runs of a string

A run starts at the `NULL` handle and makes any calls in any order, with views of foreign bytes and
of the string's own contents. The byte list operations of the successful ones are read off the run,
and the contents are what they make of the empty list.
-/

namespace Liblor.OwnedString

open MemoryBlock Transition

/-- Where the bytes of an argument come from: they are given, or they are a part of the list that
the operation is performed on. A C string inside the contents ends at their first `NUL`. -/
inductive Source where
  | bytes (ys : Bytes)
  | slice (offset size : ℕ)
  | cstr (offset : ℕ)

def Source.of (xs : Bytes) : Source → Bytes
  | .bytes ys => ys
  | .slice offset size => (xs.drop offset).take size
  | .cstr offset => (xs.drop offset).takeWhile (· ≠ 0)

/-- The views that a caller may pass, and the bytes that they stand for. -/
inductive Denotes (os : Os) (handle : Option LorString) (around : ℕ → UInt8) :
    LorStringView → Source → Prop where
  | empty (data : ℕ) : Denotes os handle around ⟨data, 0⟩ (.bytes [])
  | outside {view : LorStringView} (hdata : view.data ≠ 0)
      (h : Outside os handle view.data view.size) :
      Denotes os handle around view (.bytes (readAround around view.data view.size))
  | inside {string : LorString} {offset n : ℕ} (h : handle = some string)
      (hle : offset + n ≤ string.size) :
      Denotes os handle around ⟨string.base + offset, n⟩ (.slice offset n)

/-- The C strings that a caller may pass. -/
inductive DenotesText (os : Os) (handle : Option LorString) (around : ℕ → UInt8) :
    ℕ → Source → Prop where
  | null : DenotesText os handle around 0 (.bytes [])
  | outside {text n : ℕ} (htext : text ≠ 0) (hne : ∀ i < n, around (text + i) ≠ 0)
      (hzero : around (text + n) = 0) (hplaced : text + n ≤ uintptrMax)
      (h : Outside os handle text (n + 1)) :
      DenotesText os handle around text (.bytes (readAround around text n))
  | inside {string : LorString} {offset : ℕ} (h : handle = some string)
      (hle : offset ≤ string.size) :
      DenotesText os handle around (string.base + offset) (.cstr offset)

inductive Op where
  | reserve (os : Os) (capacity : ℕ)
  | assign (os : Os) (around : ℕ → UInt8) (view : LorStringView)
  | assignCstr (os : Os) (around : ℕ → UInt8) (text : ℕ)
  | append (os : Os) (around : ℕ → UInt8) (view : LorStringView)
  | appendCstr (os : Os) (around : ℕ → UInt8) (text : ℕ)
  | appendChar (os : Os) (around : ℕ → UInt8) (value : UInt8) (address : ℕ)
  | clear
  | deinit

/-- A call that returns nothing counts as one that returns `LOR_STATUS_OK`. -/
def step (handle : Option LorString) : Op → Option (Status × Option LorString)
  | .reserve os capacity => OwnedString.reserve os handle capacity
  | .assign os around view => OwnedString.assign os around handle view
  | .assignCstr os around text => OwnedString.assignCstr os around handle text
  | .append os around view => OwnedString.append os around handle view
  | .appendCstr os around text => OwnedString.appendCstr os around handle text
  | .appendChar os around value address => OwnedString.appendChar os around handle value address
  | .clear => some (.ok, OwnedString.clear handle)
  | .deinit => some (.ok, OwnedString.deinit handle)

inductive Edit where
  | keep
  | assign (source : Source)
  | append (source : Source)

def Edit.apply (xs : Bytes) : Edit → Bytes
  | .keep => xs
  | .assign source => source.of xs
  | .append source => xs ++ source.of xs

/-- The list operation that a permitted call asks for. -/
inductive Asks (handle : Option LorString) : Op → Edit → Prop where
  | reserve {os : Os} (hos : os.Legal) (capacity : ℕ) : Asks handle (.reserve os capacity) .keep
  | assign {os : Os} {around : ℕ → UInt8} {view : LorStringView} {source : Source}
      (hos : os.Legal) (h : Denotes os handle around view source) :
      Asks handle (.assign os around view) (.assign source)
  | assignCstr {os : Os} {around : ℕ → UInt8} {text : ℕ} {source : Source}
      (hos : os.Legal) (h : DenotesText os handle around text source) :
      Asks handle (.assignCstr os around text) (.assign source)
  | append {os : Os} {around : ℕ → UInt8} {view : LorStringView} {source : Source}
      (hos : os.Legal) (h : Denotes os handle around view source) :
      Asks handle (.append os around view) (.append source)
  | appendCstr {os : Os} {around : ℕ → UInt8} {text : ℕ} {source : Source}
      (hos : os.Legal) (h : DenotesText os handle around text source) :
      Asks handle (.appendCstr os around text) (.append source)
  | appendChar {os : Os} {value : UInt8} {address : ℕ} (hos : os.Legal) (around : ℕ → UInt8)
      (haddress : address ≠ 0) (h : Outside os handle address 1) :
      Asks handle (.appendChar os around value address) (.append (.bytes [value]))
  | clear : Asks handle .clear (.assign (.bytes []))
  | deinit : Asks handle .deinit (.assign (.bytes []))

/-- Calls, labelled with the list operation that they perform. -/
def system : System (Option LorString) Edit where
  start handle := handle = none
  step handle edit handle' := ∃ op asked status, Asks handle op asked ∧
    step handle op = some (status, handle') ∧ edit = if status = .ok then asked else .keep

def bytesAfter (edits : List Edit) : Bytes := edits.foldl Edit.apply []

theorem bytesAfter_concat (edits : List Edit) (edit : Edit) :
    bytesAfter (edits ++ [edit]) = edit.apply (bytesAfter edits) := by
  rw [bytesAfter, List.foldl_append]
  rfl

variable {os : Os} {around : ℕ → UInt8} {string moved : LorString} {handle : Option LorString}
  {view : LorStringView} {source : Source} {required text p n : ℕ}

/-- What a call leads to: a failure that changes nothing, or these contents. -/
def Yields (handle : Option LorString) (ys : Bytes) (result : Status × Option LorString) : Prop :=
  result.1 ≠ .ok ∧ result.2 = handle ∨
    result.1 = .ok ∧ (∀ string, result.2 = some string → Inv string) ∧ contents result.2 = ys

theorem Yields.fail {status : Status} (h : status ≠ .ok) (ys : Bytes) :
    Yields handle ys (status, handle) := Or.inl ⟨h, rfl⟩

/-! ## Views -/

theorem Outside.subrange (h : Outside os handle p n) {k : ℕ} (hk : k ≤ n) :
    Outside os handle p k where
  held string hs := Apart.subrange (h.held string hs) (by omega : 0 + k ≤ n)
  returned size address ha := Apart.subrange (h.returned size address ha) (by omega : 0 + k ≤ n)

theorem viewOffset_inside (h : Inv string) {offset : ℕ} (hle : offset + n ≤ string.size) :
    viewOffset (some string) ⟨string.base + offset, n⟩ = (1, offset) := by
  have hheader := h.header
  have hsize := h.size_le
  have hplaced := h.placed
  unfold headerSize at hheader
  simp only [viewOffset]
  rw [if_neg (by omega), if_neg (by omega), if_neg (by omega), if_neg (by omega),
    Nat.add_sub_cancel_left]

/-- The terminator belongs to the allocation, so that no foreign byte is where the contents end. -/
theorem viewOffset_outside (h : Inv string) (hn : view.size ≠ 0)
    (happart : Block.Apart view.data view.size (string.base - headerSize)
      (headerSize + string.capacity + 1)) : viewOffset (some string) view = (0, 0) := by
  have hheader := h.header
  have hsize := h.size_le
  unfold Block.Apart at happart
  simp only [viewOffset]
  split_ifs <;> first | rfl | omega

theorem viewOffset_empty (handle : Option LorString) (data : ℕ) :
    ¬ (viewOffset handle ⟨data, 0⟩).1 < 0 := by
  cases handle with
  | none => simp [viewOffset]
  | some string =>
      simp only [viewOffset]
      split_ifs <;> simp_all

theorem length_of (h : Denotes os handle around view source)
    (hinv : ∀ string, handle = some string → Inv string) :
    (source.of (contents handle)).length = view.size := by
  cases h with
  | empty data => rfl
  | outside hdata h => exact length_readAround
  | inside h hle =>
      rw [Source.of, List.length_take, List.length_drop, length_contents hinv, h]
      simp only [size]
      omega

theorem Denotes.valid (h : Denotes os handle around view source)
    (hinv : ∀ string, handle = some string → Inv string) : svIsValid view = true := by
  cases h with
  | empty data => simp [svIsValid]
  | outside hdata h => simp [svIsValid, hdata]
  | inside h hle =>
      have hheader := (hinv _ h).header
      unfold headerSize at hheader
      simp only [svIsValid, Bool.or_eq_true, bne_iff_ne]
      left
      omega

/-- A permitted view is never rejected, and after the string has grown it is read where its bytes
are then. -/
theorem Denotes.read_grown (h : Denotes os handle around view source)
    (hinv : ∀ string, handle = some string → Inv string) :
    ¬ (viewOffset handle view).1 < 0 ∧ ∀ required moved, Grown os handle required moved →
      moved.block.read around
        (if (viewOffset handle view).1 > 0 then moved.base + (viewOffset handle view).2
          else view.data) view.size = source.of (contents handle) := by
  cases h with
  | empty data => exact ⟨viewOffset_empty handle data, fun _ _ _ => rfl⟩
  | outside hdata h =>
      by_cases hn : view.size = 0
      · obtain ⟨data, n⟩ := view
        subst hn
        exact ⟨viewOffset_empty handle data, fun _ _ _ => rfl⟩
      have hclass : viewOffset handle view = (0, 0) := by
        cases handle with
        | none => rfl
        | some string => exact viewOffset_outside (hinv string rfl) hn (h.held string rfl)
      rw [hclass]
      refine ⟨by simp, fun required moved hgrown => ?_⟩
      rw [if_neg (by simp)]
      exact read_apart (hgrown.apart _ _ h)
  | inside h hle =>
      subst h
      rw [viewOffset_inside (hinv _ rfl) hle]
      refine ⟨by simp, fun required moved hgrown => ?_⟩
      rw [if_pos (by simp), Source.of, ← hgrown.contents]
      apply hgrown.inv.read_contents
      rw [hgrown.size]
      exact hle

/-! ## The functions -/

/-- Storing the contents anew behind the first `k` bytes of them. -/
theorem Grown.store (h : Grown os handle required moved) {k newSize : ℕ} {data : Bytes}
    (hk : k ≤ OwnedString.size handle) (hsize : newSize = k + data.length)
    (hroom : newSize ≤ required) :
    let block := moved.block.write k data
    let stored : LorString := { moved with block := block.write newSize [0], size := newSize }
    Inv stored ∧ OwnedString.contents (some stored) =
      (OwnedString.contents handle).take k ++ data := by
  intro block stored
  have hcells := h.inv.cells
  have hcapacity := h.inv.size_le
  have hplaced := h.inv.placed
  have hmoved := h.room
  have hkeep := h.size
  have hlen : block.cells.length = moved.capacity + 1 := by
    rw [length_write (by rw [hcells]; omega), hcells]
  have hspec :=
    terminated_spec block hlen (by omega : newSize ≤ moved.capacity) h.inv.header hplaced
  refine ⟨hspec.1, hspec.2.trans ?_⟩
  have hfront : (OwnedString.contents handle).take k = moved.block.cells.take k := by
    rw [← h.contents, OwnedString.contents, List.take_take, Nat.min_eq_left (by omega)]
  rw [hfront]
  exact take_write_end (by omega) hsize

theorem reserve_yields (hlegal : os.Legal) (hinv : ∀ string, handle = some string → Inv string)
    (required : ℕ) :
    ∃ result, reserve os handle required = some result ∧
      Yields handle (contents handle) result := by
  obtain ⟨status, handle', heq, ⟨hbad, rfl⟩ | ⟨rfl, -, rfl⟩ | ⟨rfl, moved, rfl, hgrown⟩⟩ :=
    reserve_cases hlegal hinv required
  · exact ⟨_, heq, Yields.fail hbad _⟩
  · exact ⟨_, heq, Or.inr ⟨rfl, hinv, rfl⟩⟩
  · exact ⟨_, heq, Or.inr ⟨rfl, by rintro _ ⟨⟩; exact hgrown.inv, hgrown.contents⟩⟩

theorem reserve_grown (hlegal : os.Legal) (hinv : ∀ string, handle = some string → Inv string)
    (required : ℕ) :
    (∃ status, reserve os handle required = some (status, handle) ∧ status ≠ .ok) ∨
      (reserve os handle required = some (.ok, none) ∧ handle = none ∧ required = 0) ∨
      ∃ moved, reserve os handle required = some (.ok, some moved) ∧
        Grown os handle required moved := by
  obtain ⟨status, handle', heq, ⟨hbad, rfl⟩ | ⟨rfl, hroom, rfl⟩ | ⟨rfl, moved, rfl, hgrown⟩⟩ :=
    reserve_cases hlegal hinv required
  · exact Or.inl ⟨status, heq, hbad⟩
  · cases handle' with
    | none => exact Or.inr (Or.inl ⟨heq, rfl, Nat.le_zero.1 hroom⟩)
    | some string => exact Or.inr (Or.inr ⟨string, heq, Grown.refl (hinv string rfl) hroom⟩)
  · exact Or.inr (Or.inr ⟨moved, heq, hgrown⟩)

theorem assign_yields (hlegal : os.Legal) (hinv : ∀ string, handle = some string → Inv string)
    (h : Denotes os handle around view source) :
    ∃ result, assign os around handle view = some result ∧
      Yields handle (source.of (contents handle)) result := by
  obtain ⟨hnonneg, hread⟩ := h.read_grown hinv
  have hlen := length_of h hinv
  unfold assign
  rw [if_neg (by simp [h.valid hinv])]
  dsimp only
  rw [if_neg hnonneg]
  obtain ⟨status, heq, hbad⟩ | ⟨heq, rfl, hzero⟩ | ⟨moved, heq, hgrown⟩ :=
    reserve_grown hlegal hinv view.size
  · simp only [heq, Option.bind_eq_bind, Option.bind_some, if_pos hbad]
    exact ⟨_, rfl, Yields.fail hbad _⟩
  · simp only [heq, Option.bind_eq_bind, Option.bind_some, ne_eq, not_true_eq_false, if_false]
    refine ⟨_, rfl, Or.inr ⟨rfl, by simp, ?_⟩⟩
    rw [hzero] at hlen
    exact (List.length_eq_zero_iff.1 hlen).symm
  · simp only [heq, Option.bind_eq_bind, Option.bind_some, ne_eq, not_true_eq_false, if_false,
      Option.map_some]
    have hread := hread _ _ hgrown
    have hblock : (if view.size = 0 then moved.block else moved.block.write 0
        (source.of (contents handle))) = moved.block.write 0 (source.of (contents handle)) := by
      by_cases hzero : view.size = 0
      · rw [hzero] at hlen
        rw [if_pos hzero, List.length_eq_zero_iff.1 hlen, Block.write]
        simp
      · rw [if_neg hzero]
    obtain ⟨hstored, hcontents⟩ := hgrown.store (Nat.zero_le _)
      (by omega : view.size = 0 + (source.of (contents handle)).length) (Nat.le_refl _)
    refine ⟨_, rfl, Or.inr ⟨rfl, ?_, ?_⟩⟩
    · rintro _ ⟨⟩
      rw [hread, ite_not, hblock]
      exact hstored
    · rw [hread, ite_not, hblock]
      exact hcontents

theorem append_yields (hlegal : os.Legal) (hinv : ∀ string, handle = some string → Inv string)
    (h : Denotes os handle around view source) :
    ∃ result, append os around handle view = some result ∧
      Yields handle (contents handle ++ source.of (contents handle)) result := by
  obtain ⟨hnonneg, hread⟩ := h.read_grown hinv
  have hlen := length_of h hinv
  unfold append
  rw [if_neg (by simp [h.valid hinv])]
  by_cases hzero : view.size = 0
  · rw [if_pos hzero]
    rw [hzero] at hlen
    refine ⟨_, rfl, Or.inr ⟨rfl, hinv, ?_⟩⟩
    rw [List.length_eq_zero_iff.1 hlen, List.append_nil]
  rw [if_neg hzero]
  dsimp only
  by_cases hover : view.size > sizeMax - size handle
  · rw [if_pos hover]
    exact ⟨_, rfl, Yields.fail (by simp) _⟩
  rw [if_neg hover, if_neg hnonneg]
  obtain ⟨status, heq, hbad⟩ | ⟨-, rfl, hnone⟩ | ⟨moved, heq, hgrown⟩ :=
    reserve_grown hlegal hinv (size handle + view.size)
  · simp only [heq, Option.bind_eq_bind, Option.bind_some, if_pos hbad]
    exact ⟨_, rfl, Yields.fail hbad _⟩
  · omega
  · simp only [heq, Option.bind_eq_bind, Option.bind_some, ne_eq, not_true_eq_false, if_false,
      Option.map_some]
    have hread := hread _ _ hgrown
    obtain ⟨hstored, hcontents⟩ := hgrown.store (Nat.le_refl _)
      (by omega : size handle + view.size = size handle + (source.of (contents handle)).length)
      (Nat.le_refl _)
    rw [← length_contents hinv, List.take_length, length_contents hinv] at hcontents
    refine ⟨_, rfl, Or.inr ⟨rfl, ?_, ?_⟩⟩
    · rintro _ ⟨⟩
      rw [hread]
      exact hstored
    · rw [hread]
      exact hcontents

theorem clear_yields (hinv : ∀ string, handle = some string → Inv string) :
    Yields handle [] (.ok, clear handle) := by
  cases handle with
  | none => exact Or.inr ⟨rfl, by simp [clear], rfl⟩
  | some string =>
      have h := hinv string rfl
      have hspec := terminated_spec string.block h.cells (Nat.zero_le _) h.header h.placed
      exact Or.inr ⟨rfl, by rintro _ ⟨⟩; exact hspec.1, hspec.2⟩

/-! ## C strings -/

theorem strlen_eq {memory : ℕ → UInt8} (xs : Bytes) {fuel : ℕ}
    (hxs : ∀ i, i < xs.length → xs[i]? = some (memory (text + i)))
    (hzero : memory (text + xs.length) = 0) (hfuel : xs.length < fuel) :
    strlen memory text fuel = some (xs.takeWhile (· ≠ 0)).length := by
  induction xs generalizing text fuel with
  | nil =>
      obtain ⟨fuel, rfl⟩ : ∃ k, fuel = k + 1 := ⟨fuel - 1, by omega⟩
      rw [List.length_nil, Nat.add_zero] at hzero
      rw [strlen, if_pos hzero]
      rfl
  | cons x xs ih =>
      obtain ⟨fuel, rfl⟩ : ∃ k, fuel = k + 1 := ⟨fuel - 1, by omega⟩
      have hfirst : x = memory text := Option.some.inj (hxs 0 (Nat.succ_pos _))
      by_cases hx : x = 0
      · rw [strlen, if_pos (hfirst ▸ hx), List.takeWhile_cons_of_neg (by simpa using hx)]
        rfl
      · have hrest : strlen memory (text + 1) fuel = some (xs.takeWhile (· ≠ 0)).length := by
          apply ih
          · intro i hi
            have hnext := hxs (i + 1) (Nat.succ_lt_succ hi)
            rwa [List.getElem?_cons_succ, Nat.add_comm i 1, ← Nat.add_assoc] at hnext
          · rw [Nat.add_assoc, Nat.add_comm 1]
            exact hzero
          · exact Nat.lt_of_succ_lt_succ hfuel
        rw [strlen, if_neg (hfirst ▸ hx), hrest, List.takeWhile_cons_of_pos (by simpa using hx)]
        rfl

theorem Inv.memory_inside (h : Inv string) (around : ℕ → UInt8) {i : ℕ} (hi : i ≤ string.capacity) :
    string.block.cells[i]? = some (memory (some string) around (string.base + i)) := by
  have hlt : i < string.block.cells.length := by
    rw [h.cells]
    omega
  have hcell : string.block.base + i - string.block.base = i := by omega
  change _ = some (string.block.load around (string.block.base + i))
  rw [Block.load, if_pos (by omega), hcell, List.getElem?_eq_getElem hlt]
  rfl

/-- A C string that the caller may pass is a view that the caller may pass. -/
theorem DenotesText.asView (h : DenotesText os handle around text source)
    (hinv : ∀ string, handle = some string → Inv string) (htext : text ≠ 0) :
    ∃ view source', svFromCstr (memory handle around) text = some view ∧
      Denotes os handle around view source' ∧
      source'.of (contents handle) = source.of (contents handle) := by
  cases h with
  | null => exact absurd rfl htext
  | @outside _ n _ hne hzero hplaced h =>
      have hmemory : ∀ i, i ≤ n → memory handle around (text + i) = around (text + i) := by
        intro i hi
        cases handle with
        | none => rfl
        | some string => exact load_apart (Apart.subrange (h.apart (hinv string rfl)) (by omega))
      have hlen : strlen (memory handle around) text (uintptrMax + 1 - text) = some n := by
        have hall : ∀ x ∈ readAround around text n, decide (x ≠ 0) = true := by
          intro x hx
          obtain ⟨i, hi, rfl⟩ := List.mem_map.1 hx
          exact decide_eq_true (hne i (List.mem_range.1 hi))
        rw [strlen_eq (readAround around text n), List.takeWhile_eq_self_iff.2 hall,
          length_readAround]
        · intro i hi
          rw [length_readAround] at hi
          rw [hmemory i hi.le, readAround, List.getElem?_map, List.getElem?_range hi]
          rfl
        · rw [length_readAround, hmemory n (Nat.le_refl n)]
          exact hzero
        · rw [length_readAround]
          omega
      refine ⟨⟨text, n⟩, _, ?_, .outside htext (h.subrange (Nat.le_succ n)), rfl⟩
      rw [svFromCstr, if_neg htext, hlen, Option.map_some, svFromParts, if_neg (by tauto)]
  | @inside string offset hs hle =>
      subst hs
      have h := hinv string rfl
      have hsize := h.size_le
      have hplaced := h.placed
      have hlength := length_contents hinv
      let rest := (contents (some string)).drop offset
      have hrest : rest.length = string.size - offset := by
        rw [List.length_drop, hlength]
        rfl
      have hlen : strlen (memory (some string) around) (string.base + offset)
          (uintptrMax + 1 - (string.base + offset)) =
            some (rest.takeWhile (· ≠ 0)).length := by
        apply strlen_eq rest
        · intro i hi
          have hcell := h.memory_inside around (by omega : offset + i ≤ string.capacity)
          rw [← Nat.add_assoc] at hcell
          rw [← hcell, List.getElem?_drop, contents, List.getElem?_take, if_pos (by omega)]
        · have hcell := h.memory_inside around hsize
          rw [h.terminated] at hcell
          have hend : string.base + offset + rest.length = string.base + string.size := by omega
          rw [hend]
          exact (Option.some.inj hcell).symm
        · omega
      have hprefix := List.takeWhile_prefix (p := fun b : UInt8 => b ≠ 0) (l := rest)
      have hshort := hprefix.length_le
      refine ⟨⟨string.base + offset, (rest.takeWhile (· ≠ 0)).length⟩,
        .slice offset (rest.takeWhile (· ≠ 0)).length, ?_, .inside rfl (by omega), ?_⟩
      · rw [svFromCstr, if_neg htext, hlen, Option.map_some, svFromParts, if_neg (by tauto)]
      · exact (List.prefix_iff_eq_take.1 hprefix).symm

theorem assignCstr_yields (hlegal : os.Legal)
    (hinv : ∀ string, handle = some string → Inv string)
    (h : DenotesText os handle around text source) :
    ∃ result, assignCstr os around handle text = some result ∧
      Yields handle (source.of (contents handle)) result := by
  unfold assignCstr
  by_cases htext : text = 0
  · rw [if_pos htext]
    exact ⟨_, rfl, Yields.fail (by simp) _⟩
  · obtain ⟨view, source', hview, hdenotes, hof⟩ := h.asView hinv htext
    rw [if_neg htext, hview, Option.bind_eq_bind, Option.bind_some, ← hof]
    exact assign_yields hlegal hinv hdenotes

theorem appendCstr_yields (hlegal : os.Legal)
    (hinv : ∀ string, handle = some string → Inv string)
    (h : DenotesText os handle around text source) :
    ∃ result, appendCstr os around handle text = some result ∧
      Yields handle (contents handle ++ source.of (contents handle)) result := by
  unfold appendCstr
  by_cases htext : text = 0
  · rw [if_pos htext]
    exact ⟨_, rfl, Yields.fail (by simp) _⟩
  · obtain ⟨view, source', hview, hdenotes, hof⟩ := h.asView hinv htext
    rw [if_neg htext, hview, Option.bind_eq_bind, Option.bind_some, ← hof]
    exact append_yields hlegal hinv hdenotes

theorem appendChar_yields (hlegal : os.Legal)
    (hinv : ∀ string, handle = some string → Inv string) (around : ℕ → UInt8) (value : UInt8)
    {address : ℕ} (haddress : address ≠ 0) (h : Outside os handle address 1) :
    ∃ result, appendChar os around handle value address = some result ∧
      Yields handle (contents handle ++ [value]) result := by
  have hdenotes : Denotes os handle (Function.update around address value)
      (svFromParts address 1) (.bytes [value]) := by
    have hview : svFromParts address 1 = ⟨address, 1⟩ := if_neg (by tauto)
    have hbyte : readAround (Function.update around address value) address 1 = [value] := by
      simp [readAround]
    rw [hview, ← hbyte]
    exact .outside haddress h
  exact append_yields hlegal hinv hdenotes

/-! ## Every call -/

/-- A call that is permitted fails and changes nothing, or does to the contents what it asks. -/
theorem step_yields (hinv : ∀ string, handle = some string → Inv string) {op : Op} {asked : Edit}
    (h : Asks handle op asked) :
    ∃ result, step handle op = some result ∧
      Yields handle (asked.apply (contents handle)) result := by
  cases h with
  | reserve hos capacity => exact reserve_yields hos hinv capacity
  | assign hos h => exact assign_yields hos hinv h
  | assignCstr hos h => exact assignCstr_yields hos hinv h
  | append hos h => exact append_yields hos hinv h
  | appendCstr hos h => exact appendCstr_yields hos hinv h
  | appendChar hos around haddress h => exact appendChar_yields hos hinv around _ haddress h
  | clear => exact ⟨_, rfl, clear_yields hinv⟩
  | deinit => exact ⟨_, rfl, Or.inr ⟨rfl, by simp [deinit], rfl⟩⟩

theorem run_invariant {edits : List Edit} (h : Run system edits handle) :
    (∀ string, handle = some string → Inv string) ∧ contents handle = bytesAfter edits := by
  induction h with
  | start h =>
      subst h
      exact ⟨by simp, rfl⟩
  | step _ hstep ih =>
      obtain ⟨op, asked, status, hasks, heq, rfl⟩ := hstep
      obtain ⟨result, heq', hyields⟩ := step_yields ih.1 hasks
      rw [heq] at heq'
      cases heq'
      rw [bytesAfter_concat, ← ih.2]
      obtain ⟨hbad, rfl⟩ | ⟨hok, hinv, hcontents⟩ := hyields
      · rw [if_neg hbad]
        exact ⟨ih.1, rfl⟩
      · rw [if_pos hok]
        exact ⟨hinv, hcontents⟩

def osAt (address : ℕ) : Os where
  realloc n := if address + n ≤ uintptrMax then some address else none
  fresh _ := 170

theorem osAt_legal (address : ℕ) : (osAt address).Legal := by
  intro n a h
  simp only [osAt, Option.ite_none_right_eq_some, Option.some.injEq] at h
  omega

end Liblor.OwnedString
