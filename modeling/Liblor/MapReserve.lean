import Liblor.Growth
import Liblor.MapInvariant

/-!
# Growing a map

The doubling loops of the source stop within `size_t`, and `reserveRaw` either leaves the handle as
it was or rebuilds the index over the same entries.
-/

namespace Liblor.Map

/-! ## Capacities -/

/-- Entries grow as arrays and strings do. -/
theorem entryCapacityLoop_eq (required fuel result : ℕ) :
    entryCapacityLoop required fuel result = growthLoop required fuel result := by
  induction fuel generalizing result with
  | zero => rfl
  | succ fuel ih => rw [entryCapacityLoop, growthLoop, ih]

theorem entryCapacity_spec (current required : ℕ) :
    ∃ c, entryCapacity current required = some c ∧ required ≤ c ∧ current ≤ c ∧ 8 ≤ c := by
  have hstart : 8 ≤ if current < 8 then 8 else current := by split_ifs <;> omega
  obtain ⟨c, hc, hreq, hcur⟩ := growthLoop_stops hstart required
  rw [← entryCapacityLoop_eq] at hc
  exact ⟨c, hc, hreq, by split_ifs at hcur <;> omega, hstart.trans hcur⟩

theorem bucketCapacityLoop_spec (required fuel result : ℕ) (hpow : ∃ k, result = 2 ^ k)
    (hle : result ≤ sizeMax) (hfuel : sizeMax / 2 < result * 2 ^ fuel) :
    ∃ status c, bucketCapacityLoop required (fuel + 1) result = some (status, c) ∧
      (status = .ok → (∃ k, c = 2 ^ k) ∧ required ≤ c ∧ c ≤ sizeMax) := by
  induction fuel generalizing result with
  | zero =>
      rw [Nat.pow_zero, Nat.mul_one] at hfuel
      by_cases hlt : result < required
      · exact ⟨.overflow, 0, by simp [bucketCapacityLoop, hlt, hfuel], by simp⟩
      · exact ⟨.ok, result, by simp [bucketCapacityLoop, hlt], fun _ => ⟨hpow, by omega, hle⟩⟩
  | succ fuel ih =>
      by_cases hlt : result < required
      · by_cases hbig : result > sizeMax / 2
        · exact ⟨.overflow, 0, by simp [bucketCapacityLoop, hlt, hbig], by simp⟩
        · obtain ⟨k, rfl⟩ := hpow
          obtain ⟨status, c, hc, hspec⟩ := ih (2 ^ k * 2) ⟨k + 1, by rw [Nat.pow_succ]⟩ (by omega)
            (by rw [Nat.pow_succ] at hfuel; rw [Nat.mul_assoc, Nat.mul_comm 2]; exact hfuel)
          exact ⟨status, c, by rw [bucketCapacityLoop, if_pos hlt, if_neg hbig, hc], hspec⟩
      · exact ⟨.ok, result, by simp [bucketCapacityLoop, hlt], fun _ => ⟨hpow, by omega, hle⟩⟩

theorem bucketCapacity_spec {n : ℕ} (hn : 0 < n) :
    ∃ status c, bucketCapacity n = some (status, c) ∧
      (status = .ok → (∃ k, c = 2 ^ k) ∧ n + n / 3 < c ∧ c ≤ sizeMax) := by
  have hne : n ≠ 0 := by omega
  by_cases hbig : n > sizeMax / 4
  · exact ⟨.overflow, 0, by rw [bucketCapacity, if_neg hne, if_pos hbig], by simp⟩
  · obtain ⟨status, c, hc, hspec⟩ := bucketCapacityLoop_spec (n + n / 3 + 1) 63 8 ⟨3, rfl⟩
      (by norm_num [sizeMax]) (by norm_num [sizeMax])
    exact ⟨status, c, by rw [bucketCapacity, if_neg hne, if_neg hbig, hc], hspec⟩

/-! ## Allocation -/

/-- No resource was created and no `drop` was called. -/
structure Quiet (world world' : World) : Prop where
  resources : world'.resources = world.resources
  drops : world'.drops = world.drops

theorem Quiet.refl (world : World) : Quiet world world := ⟨rfl, rfl⟩

theorem Quiet.trans {a b c : World} (hab : Quiet a b) (hbc : Quiet b c) : Quiet a c :=
  ⟨hbc.resources.trans hab.resources, hbc.drops.trans hab.drops⟩

theorem malloc_cases (env : Env) (world : World) (size : ℕ) :
    ∃ world', Quiet world world' ∧ (world.malloc env size = (none, world') ∨
      ∃ address, world.malloc env size = (some address, world') ∧
        address + size ≤ uintptrMax) := by
  refine ⟨{ world with mallocs := world.mallocs + 1 }, ⟨rfl, rfl⟩, ?_⟩
  unfold World.malloc
  cases hf : (env.malloc world.mallocs size).filter
      (fun address => decide (address + size ≤ uintptrMax)) with
  | none => exact Or.inl rfl
  | some address =>
      have hfits := (Option.filter_eq_some_iff.mp hf).2
      exact Or.inr ⟨address, rfl, by simpa using hfits⟩

/-- The header of a map that has no entries and no index yet. -/
structure Fresh (map : LorMap) (entrySize keySize : ℕ) (config : Config) : Prop where
  entries : map.entries = []
  capacity : map.capacity = 0
  buckets : map.buckets = []
  entrySize : map.entrySize = entrySize
  keySize : map.keySize = keySize
  config : map.config = config
  placed : map.base ≤ uintptrMax

theorem allocateHeader_cases (env : Env) (world : World) (entrySize keySize : ℕ)
    (config : Config) :
    ∃ world', Quiet world world' ∧
      (allocateHeader env world entrySize keySize config = (none, world') ∨
        ∃ header, allocateHeader env world entrySize keySize config = (some header, world') ∧
          Fresh header entrySize keySize config) := by
  obtain ⟨world', hquiet, hnone | ⟨address, hsome, hfits⟩⟩ := malloc_cases env world headerSize
  · exact ⟨world', hquiet, Or.inl (by simp only [allocateHeader, hnone])⟩
  · exact ⟨world', hquiet, Or.inr
      ⟨⟨address + headerSize, [], 0, entrySize, keySize, [], config⟩,
        by simp only [allocateHeader, hsome], rfl, rfl, rfl, rfl, rfl, rfl, hfits⟩⟩

theorem Fresh.inv {env : Env} {map : LorMap} {entrySize keySize : ℕ} {config : Config}
    (h : Fresh map entrySize keySize config) (hlayout : layoutValid entrySize keySize = true)
    (hconfig : configValid config = true) : Inv env map where
  layout := by rw [h.entrySize, h.keySize]; exact hlayout
  config := by rw [h.config]; exact hconfig
  keys := by simp [h.entries]
  values := by simp [h.entries]
  distinct := by simp [LorMap.size, h.entries]
  size_le := by simp [LorMap.size, h.entries]
  room := Or.inr ⟨h.capacity, by simp [LorMap.bucketCapacity, h.buckets]⟩
  bounded := by simp [LorMap.bucketCapacity, h.buckets]
  placed := by rw [h.capacity]; simpa using h.placed
  index hn := absurd (by simp [LorMap.bucketCapacity, h.buckets]) hn

theorem initRaw_cases (env : Env) (world : World) (map : Option LorMap) (entrySize keySize : ℕ)
    (config : Config) :
    ∃ status map' world', initRaw env world map entrySize keySize config =
        (status, map', world') ∧ Quiet world world' ∧
      (status ≠ .ok ∧ map' = map ∨
        status = .ok ∧ map = none ∧ layoutValid entrySize keySize = true ∧
          configValid config = true ∧
          ∃ header, map' = some header ∧ Fresh header entrySize keySize config) := by
  unfold initRaw
  split_ifs with hbad
  · exact ⟨_, _, _, rfl, Quiet.refl _, Or.inl ⟨by simp, rfl⟩⟩
  · simp only [Bool.or_eq_true, Bool.not_eq_true', not_or, Bool.not_eq_false] at hbad
    obtain ⟨world', hquiet, hnone | ⟨header, hsome, hfresh⟩⟩ :=
      allocateHeader_cases env world entrySize keySize config
    · rw [hnone]
      exact ⟨_, _, _, rfl, hquiet, Or.inl ⟨by simp, rfl⟩⟩
    · rw [hsome]
      exact ⟨_, _, _, rfl, hquiet, Or.inr ⟨rfl, by simpa using hbad.1.1, hbad.1.2, hbad.2, header,
        rfl, hfresh⟩⟩

/-! ## Rebuilding the index -/

/-- `moved` is `map` after a reallocation: the same entries under the same policy. -/
structure Resized (map moved : LorMap) : Prop where
  entries : moved.entries = map.entries
  config : moved.config = map.config
  entrySize : moved.entrySize = map.entrySize
  keySize : moved.keySize = map.keySize
  capacity_le : map.capacity ≤ moved.capacity

theorem Resized.refl (map : LorMap) : Resized map map := ⟨rfl, rfl, rfl, rfl, le_rfl⟩

theorem fillBuckets_spec {env : Env} {map : LorMap} (h : Inv env map) (base : ℕ)
    {newCapacity n : ℕ} (hcap : map.capacity ≤ newCapacity) (hpow : ∃ k, n = 2 ^ k)
    (hn : newCapacity < n)
    (hbound : n ≤ sizeMax) (hplaced : base + newCapacity * map.entrySize ≤ uintptrMax) :
    ∃ moved, fillBuckets env { map with base, capacity := newCapacity } n = some moved ∧
      Inv env moved ∧ Resized map moved ∧ moved.capacity = newCapacity := by
  let start : LorMap := { map with base, capacity := newCapacity }
  have hsize : map.size < n := by have := h.size_le; omega
  have hindex : Index env (start.withBuckets (List.replicate n 0)) (fun _ => False) :=
    Index.empty hpow
  obtain ⟨b, hb, hlen, hfull⟩ := hindex.fill (m := map.size) (by simp) (by simpa using hsize)
    (List.range map.size) List.nodup_range (by simp) (by simp)
  rw [bucketCapacity_withBuckets, List.length_replicate] at hlen
  refine ⟨start.withBuckets b, hb, ?_, ⟨rfl, rfl, rfl, rfl, hcap⟩, rfl⟩
  refine ⟨h.layout, h.config, h.keys, h.values, h.distinct, h.size_le.trans hcap, ?_, ?_, hplaced,
    ?_⟩
  · rw [bucketCapacity_withBuckets, hlen]
    exact Or.inl hn
  · rw [bucketCapacity_withBuckets, hlen]
    omega
  · intro _
    exact hfull.of_iff (fun i => by simp [start, LorMap.size, LorMap.withBuckets])

theorem reserveHeader_cases {env : Env} (world : World) (map : Option LorMap)
    {entrySize keySize : ℕ} (hmatch : matchesLayout map entrySize keySize = true)
    (hinv : ∀ m, map = some m → Inv env m) :
    ∃ world', Quiet world world' ∧
      (reserveHeader env world map entrySize keySize = (none, world') ∨
        ∃ header, reserveHeader env world map entrySize keySize = (some header, world') ∧
          Inv env header ∧ header.entrySize = entrySize ∧ header.capacity = capacity map ∧
          (map = some header ∨ map = none ∧ Fresh header entrySize keySize configBytes)) := by
  cases map with
  | some m =>
      have hsize : m.entrySize = entrySize := by
        simp only [matchesLayout, Bool.and_eq_true, beq_iff_eq] at hmatch
        exact hmatch.2.1
      exact ⟨world, Quiet.refl _, Or.inr ⟨m, rfl, hinv m rfl, hsize, rfl, Or.inl rfl⟩⟩
  | none =>
      obtain ⟨world', hquiet, hnone | ⟨header, hsome, hfresh⟩⟩ :=
        allocateHeader_cases env world entrySize keySize configBytes
      · exact ⟨world', hquiet, Or.inl hnone⟩
      · have hlayout : layoutValid entrySize keySize = true := by simpa [matchesLayout] using hmatch
        exact ⟨world', hquiet, Or.inr ⟨header, hsome, hfresh.inv hlayout rfl, hfresh.entrySize,
          hfresh.capacity, Or.inr ⟨rfl, hfresh⟩⟩⟩

theorem reserveRaw_cases {env : Env} (world : World) (map : Option LorMap)
    (entrySize keySize required : ℕ) (hinv : ∀ m, map = some m → Inv env m) :
    ∃ status map' world', reserveRaw env world map entrySize keySize required =
        some (status, map', world') ∧ Quiet world world' ∧
      (status ≠ .ok ∧ map' = map ∨
        status = .ok ∧ required ≤ capacity map ∧ map' = map ∨
        status = .ok ∧ ∃ header moved, map' = some moved ∧ Inv env moved ∧
          required ≤ moved.capacity ∧ Resized header moved ∧
          (map = some header ∨ map = none ∧ Fresh header entrySize keySize configBytes)) := by
  unfold reserveRaw
  split_ifs with hlayout hcap
  · exact ⟨_, _, _, rfl, Quiet.refl _, Or.inl ⟨by simp, rfl⟩⟩
  · exact ⟨_, _, _, rfl, Quiet.refl _, Or.inr (Or.inl ⟨rfl, hcap, rfl⟩)⟩
  have hmatch : matchesLayout map entrySize keySize = true := by simpa using hlayout
  have hpos : 0 < entrySize := by
    simp only [matchesLayout, Bool.and_eq_true] at hmatch
    have := keySize_pos hmatch.1
    omega
  obtain ⟨c, hc, hreq, hcur, hc8⟩ := entryCapacity_spec (capacity map) required
  obtain ⟨status, n, hn, hspec⟩ := bucketCapacity_spec (n := c) (by omega)
  simp only [hc, hn, Option.bind_eq_bind, Option.bind_some]
  split_ifs with hover hstatus hbuckets
  · exact ⟨_, _, _, rfl, Quiet.refl _, Or.inl ⟨by simp, rfl⟩⟩
  · exact ⟨_, _, _, rfl, Quiet.refl _, Or.inl ⟨hstatus, rfl⟩⟩
  · exact ⟨_, _, _, rfl, Quiet.refl _, Or.inl ⟨by simp, rfl⟩⟩
  obtain ⟨hpow, hroom, hbound⟩ := hspec (by simpa using hstatus)
  obtain ⟨w₁, hq₁, hm₁ | ⟨_, hm₁, -⟩⟩ := malloc_cases env world (n * 8)
  · rw [hm₁]
    exact ⟨_, _, _, rfl, hq₁, Or.inl ⟨by simp, rfl⟩⟩
  rw [hm₁]
  obtain ⟨w₂, hq₂, hh | ⟨header, hh, hhinv, hhsize, hhcap, hsource⟩⟩ :=
    reserveHeader_cases w₁ map hmatch hinv
  · simp only [hh]
    exact ⟨_, _, _, rfl, hq₁.trans hq₂, Or.inl ⟨by simp, rfl⟩⟩
  simp only [hh]
  obtain ⟨w₃, hq₃, hm₃ | ⟨address, hm₃, hfits⟩⟩ := malloc_cases env w₂ (headerSize + c * entrySize)
  · simp only [hm₃]
    exact ⟨_, _, _, rfl, (hq₁.trans hq₂).trans hq₃, Or.inl ⟨by simp, rfl⟩⟩
  simp only [hm₃]
  obtain ⟨moved, hfill, hminv, hresized, hmcap⟩ := fillBuckets_spec hhinv
    (address + headerSize) (hhcap.trans_le hcur) hpow (by omega) hbound (by rw [hhsize]; omega)
  rw [hfill]
  exact ⟨_, _, _, rfl, (hq₁.trans hq₂).trans hq₃, Or.inr (Or.inr ⟨rfl, header, moved, rfl, hminv,
    by omega, hresized, hsource⟩)⟩

end Liblor.Map
