import Liblor.MapReserve

/-!
# Pointer arguments

What the entry and key arguments of an operation may point to, what is read through them, and the
alias test of the source on their integer addresses.
-/

namespace Liblor.Map

open DenseList

variable {env : Env} {map : LorMap}

/-- `count` bytes may be read through the pointer: it is a pointer to memory outside the map or
into its initialized entries. -/
def Source.Readable (source : Source) (map : LorMap) (count : ℕ) : Prop :=
  match source with
  | .null => False
  | .outside _ _ => True
  | .inside offset => offset + count ≤ map.size * map.entrySize

/-- An entry argument: an object of its own, or an object inside the initialized entries. -/
def Source.Legal (source : Source) (map : LorMap) : Prop := source.Readable map map.entrySize

/-- What may be passed with a handle: `NULL`, or a pointer that `count` bytes may be read through.
-/
def Source.Valid (source : Source) (map : Option LorMap) (count : ℕ) : Prop :=
  match source, map with
  | .inside _, none => False
  | .inside offset, some map => offset + count ≤ map.size * map.entrySize
  | _, _ => True

theorem Source.Valid.readable {source : Source} {count : ℕ} (h : source.Valid (some map) count)
    (hne : source ≠ .null) : source.Readable map count := by
  cases source with
  | null => exact absurd rfl hne
  | outside address memory => trivial
  | inside offset => exact h

theorem Source.Valid.readable_of_none {source : Source} {count : ℕ} (h : source.Valid none count)
    (hne : source ≠ .null) (map : LorMap) (n : ℕ) : source.Readable map n := by
  cases source with
  | null => exact absurd rfl hne
  | outside address memory => trivial
  | inside offset => exact h.elim

theorem matchesLayout_some {entrySize keySize : ℕ}
    (h : matchesLayout (some map) entrySize keySize = true) :
    map.entrySize = entrySize ∧ map.keySize = keySize := by
  simp only [matchesLayout, Bool.and_eq_true, beq_iff_eq] at h
  exact h.2

theorem Inv.length_image (h : Inv env map) : map.image.length = map.size * map.entrySize := by
  have hlen : ∀ b ∈ map.entries.map Entry.bytes, b.length = map.entrySize := by
    intro b hb
    obtain ⟨e, he, rfl⟩ := List.mem_map.mp hb
    have := keySize_pos h.layout
    rw [Entry.bytes, List.length_append, (h.keys e he).1, h.values e he]
    omega
  rw [LorMap.image, length_flatten hlen, List.length_map, LorMap.size]

namespace Source

variable {source : Source}

theorem Readable.length_read (h : Inv env map) {n : ℕ} (hs : source.Readable map n) :
    (source.read map n).length = n := by
  cases source with
  | null => exact hs.elim
  | outside address memory => simp [read]
  | inside offset =>
      change offset + n ≤ map.size * map.entrySize at hs
      simp only [read, List.length_take, List.length_drop, h.length_image]
      omega

theorem Readable.mono {m n : ℕ} (hs : source.Readable map n) (hmn : m ≤ n) :
    source.Readable map m := by
  cases source with
  | null => exact hs
  | outside address memory => trivial
  | inside offset => exact (Nat.add_le_add_left hmn offset).trans hs

theorem Legal.length_read (h : Inv env map) (hs : source.Legal map) {n : ℕ}
    (hn : n ≤ map.entrySize) : (source.read map n).length = n :=
  Readable.length_read h (Readable.mono hs hn)

theorem take_read {m n : ℕ} (hmn : m ≤ n) : (source.read map n).take m = source.read map m := by
  cases source with
  | null => simp [read]
  | outside address memory => simp [read, ← List.map_take, List.take_range, Nat.min_eq_left hmn]
  | inside offset => simp [read, List.take_take, Nat.min_eq_left hmn]

theorem entry_key_bytes (h : Inv env map) :
    (source.entry map).key.bytes = source.read map map.keySize :=
  take_read (keySize_pos h.layout).2

theorem entry_value :
    (source.entry map).value = (source.read map map.entrySize).drop map.keySize := rfl

theorem Legal.entryOk (h : Inv env map) (hs : source.Legal map)
    (hkey : keyValid env map.config (source.read map map.keySize) = true) :
    EntryOk env map (source.entry map) where
  key := by
    rw [entry_key_bytes h]
    exact ⟨hs.length_read h (keySize_pos h.layout).2, hkey⟩
  value := by
    rw [entry_value, List.length_drop, hs.length_read h le_rfl]

end Source

theorem Inv.initialized_fits (h : Inv env map) :
    map.size * map.entrySize ≤ map.capacity * map.entrySize ∧ 0 < map.entrySize ∧
      ¬ map.size > sizeMax / map.entrySize ∧
      ¬ map.size * map.entrySize > uintptrMax - map.base := by
  have hpos := keySize_pos h.layout
  have hfit : map.size * map.entrySize ≤ map.capacity * map.entrySize :=
    Nat.mul_le_mul_right _ h.size_le
  have hplaced := h.placed
  refine ⟨hfit, by omega, ?_, by omega⟩
  rw [gt_iff_lt, not_lt, Nat.le_div_iff_mul_le (by omega)]
  simp only [sizeMax, uintptrMax] at *
  omega

theorem entryAlias_inside (h : Inv env map) {offset : ℕ}
    (hs : (Source.inside offset).Legal map) : entryAlias map (.inside offset) = 1 := by
  change offset + map.entrySize ≤ map.size * map.entrySize at hs
  obtain ⟨-, -, hsize, hroom⟩ := h.initialized_fits
  have hrange : ¬ ((Source.inside offset).address map < map.base ∨
      (Source.inside offset).address map > map.base + map.size * map.entrySize) := by
    simp only [Source.address]
    omega
  have hwhole : ¬ ((Source.inside offset).address map - map.base > map.size * map.entrySize ∨
      map.entrySize > map.size * map.entrySize -
        ((Source.inside offset).address map - map.base)) := by
    simp only [Source.address]
    omega
  simp only [entryAlias, if_neg hsize, if_neg hroom, if_neg hrange, if_neg hwhole]

/-- An entry argument that is not an alias reads the same whatever happens to the map. -/
theorem entryAfter_of_entryAlias_zero (h : Inv env map) {source : Source} (hs : source.Legal map)
    (hzero : entryAlias map source = 0) {moved : LorMap} (hks : moved.keySize = map.keySize)
    (hes : moved.entrySize = map.entrySize) :
    source.entryAfter env map moved = source.entry map := by
  cases source with
  | null => exact hs.elim
  | outside address memory =>
      simp only [Source.entryAfter, Source.entry, Source.read, hks, hes]
  | inside offset =>
      rw [entryAlias_inside h hs] at hzero
      cases hzero

end Liblor.Map
