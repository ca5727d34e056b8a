import Liblor.SizeArithmetic
import Liblor.ArrayInvariant
import Liblor.StringInvariant
import Liblor.MapReserve

/-!
# Growth arithmetic never wraps

The sizes that the reserve operations of arrays, strings and maps compute, on `size_t` and for a
header of any size, and what the operations do with them.
-/

namespace Liblor

variable {header current required : ℕ}

namespace DynArray

variable {os : Os} {array : Option LorArray} {elementSize : ℕ}

def reserveSizes (header elementSize current required : ℕ) : Option Sizing :=
  if required ≤ current then some .kept
  else do
    let newCapacity ← doublingLoop required 64 (if current < 8 then 8 else current)
    let room ← subSize sizeMax header
    if newCapacity > room / elementSize then return .overflow
    let bytes ← mulSize newCapacity elementSize
    let allocationSize ← addSize header bytes
    return .grown newCapacity allocationSize

theorem reserveSizes_exact (hheader : header ≤ sizeMax) (hpos : elementSize ≠ 0) :
    ∃ sizing, reserveSizes header elementSize current required = some sizing ∧
      sizing.Exact current required fun capacity => header + capacity * elementSize := by
  unfold reserveSizes
  by_cases hroom : required ≤ current
  · rw [if_pos hroom]
    exact ⟨_, rfl, .kept hroom⟩
  · rw [if_neg hroom]
    obtain ⟨c, hc, hreq, -⟩ := growthCapacity_spec current required
    have hloop : doublingLoop required 64 (if current < 8 then 8 else current) = some c := by
      rw [doublingLoop_eq]
      exact hc
    simp only [hloop, subSize_eq hheader, Option.bind_eq_bind, Option.bind_some]
    by_cases hover : c > (sizeMax - header) / elementSize
    · rw [if_pos hover]
      exact ⟨_, rfl, .overflow (by omega)⟩
    · have hbytes : c * elementSize ≤ sizeMax - header :=
        (Nat.le_div_iff_mul_le (Nat.pos_of_ne_zero hpos)).1 (by omega)
      rw [if_neg hover, mulSize_eq (by omega), Option.bind_some, addSize_eq (by omega)]
      exact ⟨_, rfl, .grown hreq (by omega) (by omega)⟩

example : reserveSizes 32 1 (2 ^ 63) (2 ^ 63 + 1) = some (.grown (2 ^ 63 + 1) (2 ^ 63 + 33)) := by
  decide +kernel

/-- What `lor_array_reserve_raw` does with the sizes. -/
def afterSizing (os : Os) (array : Option LorArray) (elementSize : ℕ) :
    Sizing → Status × Option LorArray
  | .kept => (.ok, array)
  | .overflow => (.overflow, array)
  | .grown capacity allocationSize =>
    match os.realloc allocationSize with
    | none => (.outOfMemory, array)
    | some address => (.ok, some (relocated os array elementSize address capacity))

theorem reserveRaw_eq_afterSizing (hvalid : validElementSize array elementSize = true) :
    reserveRaw os array elementSize required =
      (reserveSizes headerSize elementSize (capacity array) required).map
        (afterSizing os array elementSize) := by
  unfold reserveRaw reserveSizes
  rw [hvalid, Bool.not_true, if_neg Bool.false_ne_true]
  by_cases hroom : required ≤ capacity array
  · rw [if_pos hroom, if_pos hroom]
    rfl
  · have hpos := validElementSize_pos hvalid
    obtain ⟨c, hc, -, -⟩ := growthCapacity_spec (capacity array) required
    have hloop : doublingLoop required 64 (if capacity array < 8 then 8 else capacity array) =
        some c := by
      rw [doublingLoop_eq]
      exact hc
    have hheader : headerSize ≤ sizeMax := by decide
    rw [if_neg hroom, if_neg hroom]
    simp only [hc, hloop, subSize_eq hheader, Option.bind_eq_bind, Option.bind_some]
    by_cases hover : c > (sizeMax - headerSize) / elementSize
    · rw [if_pos hover, if_pos hover]
      rfl
    · have hbytes : c * elementSize ≤ sizeMax - headerSize :=
        (Nat.le_div_iff_mul_le hpos).1 (by omega)
      rw [if_neg hover, if_neg hover, mulSize_eq (by omega), Option.bind_some,
        addSize_eq (by omega)]
      simp only [Option.bind_some, Option.pure_def, Option.map_some, afterSizing]
      cases os.realloc (headerSize + c * elementSize) with
      | none => rfl
      | some address => rfl

end DynArray

namespace OwnedString

variable {os : Os} {string : Option LorString}

def reserveSizes (header current required : ℕ) : Option Sizing :=
  if required ≤ current then some .kept
  else if required = sizeMax then some .overflow
  else do
    let newCapacity ← doublingLoop required 64 (if current < 16 then 16 else current)
    if newCapacity = sizeMax then return .overflow
    let behind ← subSize sizeMax header
    let room ← subSize behind 1
    if newCapacity > room then return .overflow
    let bytes ← addSize header newCapacity
    let allocationSize ← addSize bytes 1
    return .grown newCapacity allocationSize

theorem doublingLoop_sixteen (current required : ℕ) :
    ∃ c, growthLoop required 64 (if current < 16 then 16 else current) = some c ∧ required ≤ c := by
  have hstart : 8 ≤ if current < 16 then 16 else current := by split_ifs <;> omega
  obtain ⟨c, hc, hreq, -⟩ := growthLoop_stops hstart required
  exact ⟨c, hc, hreq⟩

theorem reserveSizes_exact (hheader : header < sizeMax) :
    ∃ sizing, reserveSizes header current required = some sizing ∧
      sizing.Exact current required fun capacity => header + capacity + 1 := by
  unfold reserveSizes
  by_cases hroom : required ≤ current
  · rw [if_pos hroom]
    exact ⟨_, rfl, .kept hroom⟩
  rw [if_neg hroom]
  by_cases hmax : required = sizeMax
  · rw [if_pos hmax]
    exact ⟨_, rfl, .overflow (by omega)⟩
  rw [if_neg hmax]
  obtain ⟨c, hc, hreq⟩ := doublingLoop_sixteen current required
  simp only [doublingLoop_eq, hc, Option.bind_eq_bind, Option.bind_some]
  by_cases hfull : c = sizeMax
  · rw [if_pos hfull]
    exact ⟨_, rfl, .overflow (by omega)⟩
  rw [if_neg hfull, subSize_eq hheader.le, Option.bind_some, subSize_eq (by omega),
    Option.bind_some]
  by_cases hover : c > sizeMax - header - 1
  · rw [if_pos hover]
    exact ⟨_, rfl, .overflow (by omega)⟩
  · rw [if_neg hover, addSize_eq (by omega), Option.bind_some, addSize_eq (by omega)]
    exact ⟨_, rfl, .grown hreq (by omega) (by omega)⟩

/-- What `lor_string_reserve` does with the sizes. -/
def afterSizing (os : Os) (string : Option LorString) : Sizing → Status × Option LorString
  | .kept => (.ok, string)
  | .overflow => (.overflow, string)
  | .grown capacity allocationSize =>
    match os.realloc allocationSize with
    | none => (.outOfMemory, string)
    | some address => (.ok, some (relocated os string address capacity))

theorem reserve_eq_afterSizing :
    reserve os string required =
      (reserveSizes headerSize (capacity string) required).map (afterSizing os string) := by
  unfold reserve reserveSizes growthCapacity
  by_cases hroom : required ≤ capacity string
  · rw [if_pos hroom, if_pos hroom]
    rfl
  rw [if_neg hroom, if_neg hroom]
  by_cases hmax : required = sizeMax
  · rw [if_pos hmax, if_pos hmax]
    rfl
  rw [if_neg hmax, if_neg hmax]
  obtain ⟨c, hc, -⟩ := doublingLoop_sixteen (capacity string) required
  simp only [doublingLoop_eq, hc, Option.bind_eq_bind, Option.bind_some]
  by_cases hfull : c = sizeMax
  · rw [if_pos hfull, if_pos hfull]
    rfl
  have hheader : headerSize ≤ sizeMax := by decide
  have hone : 1 ≤ sizeMax - headerSize := by decide
  rw [if_neg hfull, if_neg hfull, subSize_eq hheader, Option.bind_some, subSize_eq hone,
    Option.bind_some]
  simp only [Option.pure_def, Option.bind_some, ne_eq, not_true_eq_false, if_false]
  by_cases hover : c > sizeMax - headerSize - 1
  · rw [if_pos hover, if_pos hover]
    rfl
  · rw [if_neg hover, if_neg hover, addSize_eq (by omega), Option.bind_some, addSize_eq (by omega)]
    simp only [Option.bind_some, Option.map_some, afterSizing]
    cases os.realloc (headerSize + c + 1) with
    | none => rfl
    | some address => rfl

end OwnedString

namespace Map

variable {env : Env} {world : World} {map : Option LorMap} {entrySize keySize : ℕ}

/-- `lor_map__bucket_capacity` on `size_t`. -/
def bucketDoublingLoop (required : ℕ) : ℕ → ℕ → Option (Status × ℕ)
  | 0, _ => none
  | fuel + 1, result =>
    if result < required then
      if result > sizeMax / 2 then some (.overflow, 0)
      else do
        let doubled ← mulSize result 2
        bucketDoublingLoop required fuel doubled
    else some (.ok, result)

def bucketSizes (requiredEntries : ℕ) : Option (Status × ℕ) :=
  if requiredEntries = 0 then some (.ok, 0)
  else if requiredEntries > sizeMax / 4 then some (.overflow, 0)
  else do
    let sum ← addSize requiredEntries (requiredEntries / 3)
    let required ← addSize sum 1
    bucketDoublingLoop required 64 8

inductive MapSizing where
  | kept
  | overflow
  | grown (capacity bucketCapacity bucketBytes allocationSize : ℕ)
  deriving DecidableEq, Repr

def reserveSizes (header entrySize current required : ℕ) : Option MapSizing :=
  if required ≤ current then some .kept
  else do
    let newCapacity ← doublingLoop required 64 (if current < 8 then 8 else current)
    let room ← subSize sizeMax header
    if newCapacity > room / entrySize then return .overflow
    let (status, newBucketCapacity) ← bucketSizes newCapacity
    if status ≠ .ok then return .overflow
    if newBucketCapacity > sizeMax / 8 then return .overflow
    let bucketBytes ← mulSize newBucketCapacity 8
    let bytes ← mulSize newCapacity entrySize
    let allocationSize ← addSize header bytes
    return .grown newCapacity newBucketCapacity bucketBytes allocationSize

/-- Besides, the buckets are a power of two that exceeds four thirds of the capacity. -/
inductive MapSizing.Exact (header entrySize current required : ℕ) : MapSizing → Prop
  | kept (h : required ≤ current) : Exact header entrySize current required .kept
  | overflow (h : current < required) : Exact header entrySize current required .overflow
  | grown {capacity buckets : ℕ} (h : required ≤ capacity) (hcurrent : current < required)
      (hbytes : header + capacity * entrySize ≤ sizeMax) (hpower : ∃ k, buckets = 2 ^ k)
      (hload : 4 * capacity < 3 * buckets) (hbuckets : buckets * 8 ≤ sizeMax) :
      Exact header entrySize current required
        (.grown capacity buckets (buckets * 8) (header + capacity * entrySize))

theorem bucketDoublingLoop_eq (required fuel result : ℕ) :
    bucketDoublingLoop required fuel result = bucketCapacityLoop required fuel result := by
  induction fuel generalizing result with
  | zero => rfl
  | succ fuel ih =>
    unfold bucketDoublingLoop bucketCapacityLoop
    by_cases hlt : result < required
    · rw [if_pos hlt, if_pos hlt]
      by_cases hbig : result > sizeMax / 2
      · rw [if_pos hbig, if_pos hbig]
      · rw [if_neg hbig, if_neg hbig, mulSize_eq (by omega), Option.bind_eq_bind, Option.bind_some,
          ih]
    · rw [if_neg hlt, if_neg hlt]

theorem bucketSizes_eq (n : ℕ) : bucketSizes n = bucketCapacity n := by
  unfold bucketSizes bucketCapacity
  by_cases hzero : n = 0
  · rw [if_pos hzero, if_pos hzero]
  · rw [if_neg hzero, if_neg hzero]
    by_cases hbig : n > sizeMax / 4
    · rw [if_pos hbig, if_pos hbig]
    · have hmax : 8 ≤ sizeMax := by decide
      rw [if_neg hbig, if_neg hbig, addSize_eq (by omega), Option.bind_eq_bind, Option.bind_some,
        addSize_eq (by omega), Option.bind_some, bucketDoublingLoop_eq]

theorem bucketCapacityLoop_status (required fuel result : ℕ) {status : Status} {c : ℕ}
    (h : bucketCapacityLoop required fuel result = some (status, c)) :
    status = .ok ∨ status = .overflow := by
  induction fuel generalizing result with
  | zero => cases h
  | succ fuel ih =>
    unfold bucketCapacityLoop at h
    split_ifs at h with hlt hbig
    · cases h
      exact Or.inr rfl
    · exact ih _ h
    · cases h
      exact Or.inl rfl

/-- Either the call fails with an overflow, or the buckets are as `lor_map__bucket_capacity` says.
-/
theorem bucketCapacity_cases {n : ℕ} (hn : 0 < n) :
    (∃ c, bucketCapacity n = some (.overflow, c)) ∨
      ∃ c, bucketCapacity n = some (.ok, c) ∧ (∃ k, c = 2 ^ k) ∧ 4 * n < 3 * c := by
  obtain ⟨status, c, hc, hspec⟩ := bucketCapacity_spec hn
  have hstatus : status = .ok ∨ status = .overflow := by
    unfold bucketCapacity at hc
    split_ifs at hc with hzero hbig
    · omega
    · cases hc
      exact Or.inr rfl
    · exact bucketCapacityLoop_status _ _ _ hc
  rcases hstatus with rfl | rfl
  · obtain ⟨hpow, hlt, -⟩ := hspec rfl
    exact Or.inr ⟨c, hc, hpow, by omega⟩
  · exact Or.inl ⟨c, hc⟩

theorem reserveSizes_exact (hheader : header ≤ sizeMax) (hpos : entrySize ≠ 0) :
    ∃ sizing, reserveSizes header entrySize current required = some sizing ∧
      sizing.Exact header entrySize current required := by
  unfold reserveSizes
  by_cases hroom : required ≤ current
  · rw [if_pos hroom]
    exact ⟨_, rfl, .kept hroom⟩
  rw [if_neg hroom]
  have hlt : current < required := by omega
  obtain ⟨c, hc, hreq, -, hc8⟩ := entryCapacity_spec current required
  rw [entryCapacity, entryCapacityLoop_eq] at hc
  simp only [doublingLoop_eq, hc, subSize_eq hheader, Option.bind_eq_bind, Option.bind_some]
  by_cases hover : c > (sizeMax - header) / entrySize
  · rw [if_pos hover]
    exact ⟨_, rfl, .overflow hlt⟩
  rw [if_neg hover, bucketSizes_eq]
  have hbytes : c * entrySize ≤ sizeMax - header :=
    (Nat.le_div_iff_mul_le (Nat.pos_of_ne_zero hpos)).1 (by omega)
  obtain ⟨n, hn⟩ | ⟨n, hn, hpow, hload⟩ := bucketCapacity_cases (n := c) (by omega)
  · rw [hn]
    exact ⟨_, rfl, .overflow hlt⟩
  rw [hn]
  simp only [Option.bind_some, ne_eq, not_true_eq_false, if_false]
  by_cases hbuckets : n > sizeMax / 8
  · rw [if_pos hbuckets]
    exact ⟨_, rfl, .overflow hlt⟩
  · rw [if_neg hbuckets, mulSize_eq (by omega), Option.bind_some, mulSize_eq (by omega),
      Option.bind_some, addSize_eq (by omega)]
    exact ⟨_, rfl, .grown hreq hlt (by omega) hpow hload (by omega)⟩

/-- What `lor_map_reserve_raw` does with the sizes. -/
def afterSizing (env : Env) (world : World) (map : Option LorMap) (entrySize keySize : ℕ) :
    MapSizing → Option (Status × Option LorMap × World)
  | .kept => some (.ok, map, world)
  | .overflow => some (.overflow, map, world)
  | .grown capacity bucketCapacity bucketBytes allocationSize =>
    match world.malloc env bucketBytes with
    | (none, world) => some (.outOfMemory, map, world)
    | (some _, world) =>
      match reserveHeader env world map entrySize keySize with
      | (none, world) => some (.outOfMemory, map, world)
      | (some header, world) =>
        match world.malloc env allocationSize with
        | (none, world) => some (.outOfMemory, map, world)
        | (some address, world) => do
          let moved ← fillBuckets env
            { header with base := address + headerSize, capacity } bucketCapacity
          return (.ok, some moved, world)

theorem reserveRaw_eq_afterSizing (hmatch : matchesLayout map entrySize keySize = true) :
    reserveRaw env world map entrySize keySize required =
      (reserveSizes headerSize entrySize (capacity map) required).bind
        (afterSizing env world map entrySize keySize) := by
  unfold reserveRaw reserveSizes
  rw [hmatch, Bool.not_true, if_neg Bool.false_ne_true]
  by_cases hroom : required ≤ capacity map
  · rw [if_pos hroom, if_pos hroom]
    rfl
  have hpos : 0 < entrySize := by
    simp only [matchesLayout, Bool.and_eq_true] at hmatch
    have := keySize_pos hmatch.1
    omega
  have hheader : headerSize ≤ sizeMax := by decide
  rw [if_neg hroom, if_neg hroom]
  obtain ⟨c, hc, -, -, hc8⟩ := entryCapacity_spec (capacity map) required
  have hloop := hc
  rw [entryCapacity, entryCapacityLoop_eq] at hloop
  simp only [doublingLoop_eq, hc, hloop, subSize_eq hheader, Option.bind_eq_bind, Option.bind_some]
  by_cases hover : c > (sizeMax - headerSize) / entrySize
  · rw [if_pos hover, if_pos hover]
    rfl
  have hbytes : c * entrySize ≤ sizeMax - headerSize := (Nat.le_div_iff_mul_le hpos).1 (by omega)
  rw [if_neg hover, if_neg hover, bucketSizes_eq]
  obtain ⟨n, hn⟩ | ⟨n, hn, -, -⟩ := bucketCapacity_cases (n := c) (by omega)
  · rw [hn]
    rfl
  rw [hn]
  simp only [Option.bind_some, ne_eq, not_true_eq_false, if_false]
  by_cases hbuckets : n > sizeMax / 8
  · rw [if_pos hbuckets, if_pos hbuckets]
    rfl
  rw [if_neg hbuckets, if_neg hbuckets, mulSize_eq (by omega), Option.bind_some,
    mulSize_eq (by omega), Option.bind_some, addSize_eq (by omega)]
  simp only [Option.bind_some, Option.pure_def, afterSizing]
  cases hm : world.malloc env (n * 8) with
  | mk first world₁ =>
    cases first with
    | none => rfl
    | some _ =>
      simp only
      cases hh : reserveHeader env world₁ map entrySize keySize with
      | mk second world₂ =>
        cases second with
        | none => rfl
        | some _ =>
          simp only
          cases ha : world₂.malloc env (headerSize + c * entrySize) with
          | mk third world₃ =>
            cases third with
            | none => rfl
            | some _ => rfl

end Map

/-- The sizes of every reserve call are computed without wrapping around, for any header, and are
what the operation acts on: an overflow leaves the object as it was. -/
theorem growth_never_wraps :
    (∀ elementSize header current required : ℕ, header ≤ sizeMax → elementSize ≠ 0 →
      ∃ sizing, DynArray.reserveSizes header elementSize current required = some sizing ∧
        sizing.Exact current required fun capacity => header + capacity * elementSize) ∧
    (∀ header current required : ℕ, header < sizeMax →
      ∃ sizing, OwnedString.reserveSizes header current required = some sizing ∧
        sizing.Exact current required fun capacity => header + capacity + 1) ∧
    (∀ entrySize header current required : ℕ, header ≤ sizeMax → entrySize ≠ 0 →
      ∃ sizing, Map.reserveSizes header entrySize current required = some sizing ∧
        sizing.Exact header entrySize current required) ∧
    (∀ (os : DynArray.Os) (array : Option DynArray.LorArray) (elementSize required : ℕ),
      DynArray.validElementSize array elementSize = true →
      DynArray.reserveRaw os array elementSize required =
        (DynArray.reserveSizes DynArray.headerSize elementSize (DynArray.capacity array)
          required).map (DynArray.afterSizing os array elementSize)) ∧
    (∀ (os : OwnedString.Os) (string : Option OwnedString.LorString) (required : ℕ),
      OwnedString.reserve os string required =
        (OwnedString.reserveSizes OwnedString.headerSize (OwnedString.capacity string)
          required).map (OwnedString.afterSizing os string)) ∧
    ∀ (env : Map.Env) (world : Map.World) (map : Option Map.LorMap)
      (entrySize keySize required : ℕ), Map.matchesLayout map entrySize keySize = true →
      (∀ m, map = some m → Map.Inv env m) →
      Map.reserveRaw env world map entrySize keySize required =
        (Map.reserveSizes Map.headerSize entrySize (Map.capacity map) required).bind
          (Map.afterSizing env world map entrySize keySize) ∧
      (Map.reserveRaw env world map entrySize keySize required).isSome := by
  refine ⟨?_, ?_, ?_, ?_, ?_, ?_⟩
  · intro elementSize header current required hheader hpos
    exact DynArray.reserveSizes_exact hheader hpos
  · intro header current required hheader
    exact OwnedString.reserveSizes_exact hheader
  · intro entrySize header current required hheader hpos
    exact Map.reserveSizes_exact hheader hpos
  · intro os array elementSize required hvalid
    exact DynArray.reserveRaw_eq_afterSizing hvalid
  · intro os string required
    exact OwnedString.reserve_eq_afterSizing
  · intro env world map entrySize keySize required hmatch hinv
    refine ⟨Map.reserveRaw_eq_afterSizing hmatch, ?_⟩
    obtain ⟨status, map', world', hreserve, -⟩ :=
      Map.reserveRaw_cases world map entrySize keySize required hinv
    rw [hreserve]
    rfl

theorem growth_never_wraps_saturated :
    (∃ sizing, DynArray.reserveSizes 32 1 (2 ^ 63) (2 ^ 63 + 1) = some sizing ∧
      sizing.Exact (2 ^ 63) (2 ^ 63 + 1) fun capacity => 32 + capacity * 1) ∧
    (∃ sizing, OwnedString.reserveSizes 16 (2 ^ 63) (2 ^ 64 - 18) = some sizing ∧
      sizing.Exact (2 ^ 63) (2 ^ 64 - 18) fun capacity => 16 + capacity + 1) ∧
    ∃ sizing, Map.reserveSizes 96 16 (2 ^ 59) (2 ^ 59 + 1) = some sizing ∧
      sizing.Exact 96 16 (2 ^ 59) (2 ^ 59 + 1) := by
  obtain ⟨harray, hstring, hmap, -⟩ := growth_never_wraps
  exact ⟨harray 1 32 _ _ (by decide) (by decide), hstring 16 _ _ (by decide),
    hmap 16 96 _ _ (by decide) (by decide)⟩

end Liblor
