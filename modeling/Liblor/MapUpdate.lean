import Liblor.MapSource

/-!
# What `lor_map_set_raw` can do

`SetOutcome` lists every way in which a `set` can end, with its effect on the entries and on the
resources in the keys.
-/

namespace Liblor.Map

open LinearProbe DenseList

variable {env : Env} {map : LorMap} {world : World} {source : Source}

/-- `e` is the entry that a `set` of `source` stores: its value part, and its key or a clone of it
that carries the next resource. -/
structure Stored (env : Env) (world : World) (map : LorMap) (source : Source) (e : Entry)
    (world' : World) : Prop where
  ok : EntryOk env map e
  equal : equal env map.config e.key.bytes (source.read map map.keySize) = true
  value : e.value = (source.read map map.entrySize).drop map.keySize
  drops : world'.drops = world.drops
  resource : map.config.clone = none ∧ e.key.resource = (source.entry map).key.resource ∧
      world'.resources = world.resources ∨
    map.config.clone.isSome ∧ e.key.resource = some world.resources ∧
      world'.resources = world.resources + 1

inductive SetOutcome (env : Env) (world : World) (map : LorMap) (created : Bool)
    (source : Source) : Status → Option LorMap → World → Prop where
  | rejected {status : Status} {world' : World} (hstatus : status ≠ .ok)
      (hquiet : Quiet world world') :
      SetOutcome env world map created source status (some map) world'
  | abandoned {status : Status} {e : Entry} {w₁ w₂ : World} (hstatus : status ≠ .ok)
      (hstored : Stored env world map source e w₁) (hquiet : Quiet w₁ w₂) :
      SetOutcome env world map created source status (if created then none else some map)
        (w₂.drop env map.config e.key map.resources).2
  | replaced {i : ℕ} {old e : Entry} {w₁ : World} (hold : map.entries[i]? = some old)
      (heq : equal env map.config old.key.bytes (source.read map map.keySize) = true)
      (hstored : Stored env world map source e w₁) :
      SetOutcome env world map created source .ok
        (some (map.withEntries (map.entries.set i e)))
        (w₁.drop env map.config old.key (map.resources.eraseIdx i)).2
  | appended {e : Entry} {moved : LorMap} {w₁ w₂ : World}
      (hno : ∀ i < map.size,
        equal env map.config (map.keyAt i) (source.read map map.keySize) = false)
      (hstored : Stored env world map source e w₁) (hquiet : Quiet w₁ w₂)
      (hresized : Resized (map.withEntries (map.entries ++ [e])) moved) :
      SetOutcome env world map created source .ok (some moved) w₂

theorem World.clone_cases (world : World) (env : Env) (f : FnPtr) (context : ℕ) (bytes : Bytes) :
    (∃ status key world', world.clone env f context bytes = (status, key, world') ∧
        status ≠ .ok ∧ Quiet world world') ∨
      ∃ n key world', world.clone env f context bytes = (.ok, key, world') ∧
        (env.clone f context n bytes).1 = .ok ∧ key.bytes = (env.clone f context n bytes).2 ∧
        key.resource = some world.resources ∧ world'.resources = world.resources + 1 ∧
        world'.drops = world.drops := by
  by_cases hok : (env.clone f context world.clones bytes).1 = .ok
  · exact Or.inr ⟨world.clones, ⟨(env.clone f context world.clones bytes).2, some world.resources⟩,
      { world with clones := world.clones + 1, resources := world.resources + 1 },
      by simp only [World.clone, if_pos hok], hok, rfl, rfl, rfl, rfl⟩
  · exact Or.inl ⟨(env.clone f context world.clones bytes).1,
      ⟨(env.clone f context world.clones bytes).2, none⟩, { world with clones := world.clones + 1 },
      by simp only [World.clone, if_neg hok], hok, rfl, rfl⟩

theorem drop_of_none (h : map.config.drop = none) (world : World) (key : Key)
    (others : List (Option ℕ)) : world.drop env map.config key others = (key, world) := by
  simp only [World.drop, h]

theorem Inv.drop_isNone_iff (h : Inv env map) :
    map.config.drop = none ↔ map.config.clone = none := by
  have hvalid := h.config
  simp only [configValid, Bool.and_eq_true, beq_iff_eq] at hvalid
  rw [← Option.isNone_iff_eq_none, ← Option.isNone_iff_eq_none, hvalid.2]

/-- The entry `e` is the prepared copy, or the argument itself where none is made. -/
def Prepared (map : LorMap) (source : Source) (prepared : Option Entry) (e : Entry) : Prop :=
  prepared = some e ∨ prepared = none ∧ map.config.clone = none ∧ e = source.entry map ∧
    entryAlias map source = 0

section Prepared

variable {prepared : Option Entry} {e : Entry}

theorem Prepared.getD_entryAfter (h : Prepared map source prepared e) (hinv : Inv env map)
    (hs : source.Legal map) {moved : LorMap} (hresized : Resized map moved) :
    prepared.getD (source.entryAfter env map moved) = e := by
  rcases h with rfl | ⟨rfl, -, rfl, hzero⟩
  · rfl
  · exact entryAfter_of_entryAlias_zero hinv hs hzero hresized.keySize hresized.entrySize

theorem Prepared.getD_entry (h : Prepared map source prepared e) :
    prepared.getD (source.entry map) = e := by
  rcases h with rfl | ⟨rfl, -, rfl, -⟩
  · rfl
  · rfl

theorem Prepared.eq_some (h : Prepared map source prepared e) {f : FnPtr}
    (hclone : map.config.clone = some f) : prepared = some e := by
  rcases h with hsome | ⟨-, hnone, -⟩
  · exact hsome
  · rw [hclone] at hnone
    cases hnone

end Prepared

/-- What preparing an accepted entry can lead to. The prepared copy, or the argument itself where
none is made, is the entry that would be stored. -/
theorem prepareEntry_cases (world : World) (h : Inv env map)
    (hlaw : Lawful env map.config map.keySize) (hs : source.Legal map)
    (hkey : keyValid env map.config (source.read map map.keySize) = true) :
    (∃ status world', prepareEntry env world map source (entryAlias map source) =
        (status, none, world') ∧ status ≠ .ok ∧ Quiet world world') ∨
      ∃ prepared e world', prepareEntry env world map source (entryAlias map source) =
        (.ok, prepared, world') ∧ Stored env world map source e world' ∧
        Prepared map source prepared e := by
  have hok := hs.entryOk h hkey
  have hself : ∀ world', Quiet world world' → map.config.clone = none →
      Stored env world map source (source.entry map) world' := by
    intro world' hquiet hnone
    refine ⟨hok, ?_, rfl, hquiet.drops, Or.inl ⟨hnone, rfl, hquiet.resources⟩⟩
    rw [← Source.entry_key_bytes h]
    exact hlaw.refl _ hok.key
  unfold prepareEntry
  split_ifs with hdirect
  · simp only [Bool.and_eq_true, beq_iff_eq, Option.isNone_iff_eq_none] at hdirect
    exact Or.inr ⟨none, source.entry map, world, rfl, hself world (Quiet.refl _) hdirect.1,
      Or.inr ⟨rfl, hdirect.1, rfl, hdirect.2⟩⟩
  obtain ⟨w₁, hq₁, hm | ⟨_, hm, -⟩⟩ := malloc_cases env world map.entrySize
  · rw [hm]
    exact Or.inl ⟨_, _, rfl, by simp, hq₁⟩
  rw [hm]
  cases hclone : map.config.clone with
  | none => exact Or.inr ⟨_, _, _, rfl, hself w₁ hq₁ hclone, Or.inl rfl⟩
  | some f =>
      simp only
      obtain ⟨status, key, w₂, hcall, hstatus, hq₂⟩ |
        ⟨n, key, w₂, hcall, hcok, hbytes, hres, hnext, hdrops⟩ :=
        w₁.clone_cases env f map.config.context (source.read map map.keySize)
      · simp only [hcall, if_pos hstatus]
        exact Or.inl ⟨_, _, rfl, hstatus, hq₁.trans hq₂⟩
      · have hread : KeyOk env map.config map.keySize (source.read map map.keySize) :=
          Source.entry_key_bytes h ▸ hok.key
        have hcloned := hlaw.clone f n _ hclone hread hcok
        rw [← hbytes] at hcloned
        simp only [hcall, ne_eq, not_true_eq_false, if_false]
        refine Or.inr ⟨_, { source.entry map with key }, w₂, rfl, ⟨⟨hcloned.1, hok.value⟩,
          hcloned.2, rfl, hdrops.trans hq₁.drops, Or.inr ⟨by simp [hclone], ?_, ?_⟩⟩, Or.inl rfl⟩
        · rw [hres, hq₁.resources]
        · rw [hnext, hq₁.resources]

theorem dropEntry_eq (map : LorMap) (world : World) {i : ℕ} {old : Entry}
    (hold : map.entries[i]? = some old) :
    dropEntry env world map i =
      (map.withEntries (map.entries.set i { old with
          key := (world.drop env map.config old.key (map.resources.eraseIdx i)).1 }),
        (world.drop env map.config old.key (map.resources.eraseIdx i)).2) := by
  simp only [dropEntry, hold]

theorem replaceEntry_spec (w₁ : World) (h : Inv env map) {i b : ℕ} {old e : Entry}
    {prepared : Option Entry} (hcell : map.cell b = some i) (hold : map.entries[i]? = some old)
    (hprepared : Prepared map source prepared e) :
    replaceEntry env w₁ map source prepared b =
      (.ok, some (map.withEntries (map.entries.set i e)),
        (w₁.drop env map.config old.key (map.resources.eraseIdx i)).2) := by
  have hindex : map.bucket b - 1 = i := by rw [cell_eq_some.mp hcell]; rfl
  unfold replaceEntry
  rw [hindex]
  cases hclone : map.config.clone with
  | none =>
      rw [drop_of_none (h.drop_isNone_iff.mpr hclone)]
      simp [hprepared.getD_entry]
  | some f =>
      obtain rfl := hprepared.eq_some hclone
      simp [dropEntry_eq map w₁ hold]

theorem clear_of_entries_nil (hnil : map.entries = []) :
    (clear env world (some map)).2 = world := by
  have hsize : map.size = 0 := by simp [LorMap.size, hnil]
  simp only [clear, hsize, List.range_zero, clearLoop]
  split_ifs <;> rfl

theorem dropPrepared_eq (h : Inv env map) {e : Entry} {prepared : Option Entry}
    (hprepared : Prepared map source prepared e) :
    dropPrepared env world map prepared map.config.clone.isSome =
      (world.drop env map.config e.key map.resources).2 := by
  cases hclone : map.config.clone with
  | none =>
      rw [drop_of_none (h.drop_isNone_iff.mpr hclone)]
      cases prepared <;> rfl
  | some f =>
      obtain rfl := hprepared.eq_some hclone
      rfl

theorem insertBucket_append (h : Inv env map) (hroom : map.size < map.capacity) {e : Entry}
    (he : EntryOk env map e)
    (hno : ∀ i < map.size, equal env map.config (map.keyAt i) e.key.bytes = false) :
    ∃ moved, insertBucket env (map.withEntries (map.entries ++ [e])) map.size = some moved ∧
      Inv env moved ∧ Resized (map.withEntries (map.entries ++ [e])) moved := by
  have hn : map.bucketCapacity ≠ 0 := by have := h.room; omega
  have hcap : map.capacity < map.bucketCapacity := by have := h.room; omega
  have hindex := (h.index hn).congr (map.withEntries (map.entries ++ [e])) rfl (by
    intro i hi
    simp only [idealBucket, keyAt_append_of_lt e hi]
    rfl)
  obtain ⟨b, hb, hlen, hfull⟩ := hindex.insertBucket (m := map.size) (fun _ hi => hi)
    (hroom.trans hcap) (i := map.size) (by simp)
  have hlen' : b.length = map.bucketCapacity := hlen
  refine ⟨_, hb, ?_, ⟨rfl, rfl, rfl, rfl, le_rfl⟩⟩
  refine ⟨h.layout, h.config, ?_, ?_, ?_, ?_, ?_, ?_, h.placed, ?_⟩
  · intro x hx
    rcases List.mem_append.mp hx with hx | hx
    · exact h.keys x hx
    · rw [List.mem_singleton.mp hx]
      exact he.key
  · intro x hx
    rcases List.mem_append.mp hx with hx | hx
    · exact h.values x hx
    · rw [List.mem_singleton.mp hx]
      exact he.value
  · intro j hj i hij
    have hj' : j < map.size + 1 := by simpa [LorMap.size, LorMap.withBuckets] using hj
    change equal env map.config ((map.withEntries (map.entries ++ [e])).keyAt i)
      ((map.withEntries (map.entries ++ [e])).keyAt j) = false
    rw [keyAt_append_of_lt e (by omega)]
    by_cases hlast : j < map.size
    · rw [keyAt_append_of_lt e hlast]
      exact h.distinct j hlast i hij
    · obtain rfl : j = map.size := by omega
      rw [keyAt_append_self]
      exact hno i hij
  · rw [size_withBuckets, size_withEntries, List.length_append, List.length_singleton]
    exact hroom
  · rw [bucketCapacity_withBuckets, hlen']
    exact Or.inl hcap
  · rw [bucketCapacity_withBuckets, hlen']
    exact h.bounded
  · intro _
    apply hfull.of_iff
    intro i
    rw [size_withBuckets, size_withEntries, List.length_append, List.length_singleton,
      ← LorMap.size]
    omega

theorem appendEntry_cases (h : Inv env map) {e : Entry} {w₁ : World} {prepared : Option Entry}
    (created : Bool) (hcreated : created = true → map.entries = []) (hs : source.Legal map)
    (hlaw : Lawful env map.config map.keySize)
    (hread : KeyOk env map.config map.keySize (source.read map map.keySize))
    (hno : ∀ i < map.size,
      equal env map.config (map.keyAt i) (source.read map map.keySize) = false)
    (hstored : Stored env world map source e w₁)
    (hprepared : Prepared map source prepared e) :
    ∃ status map' world', appendEntry env w₁ map created source prepared =
        some (status, map', world') ∧ SetOutcome env world map created source status map' world' ∧
      ∀ m, map' = some m → Inv env m := by
  have hfail : ∀ (status : Status) (w₂ : World), status ≠ .ok → Quiet w₁ w₂ →
      ∃ status' map' world', (if created then (status, deinit env
          (dropPrepared env w₂ map prepared map.config.clone.isSome) (some map))
          else (status, some map, dropPrepared env w₂ map prepared map.config.clone.isSome)) =
        (status', map', world') ∧ SetOutcome env world map created source status' map' world' ∧
        ∀ m, map' = some m → Inv env m := by
    intro status w₂ hstatus hquiet
    have hout : SetOutcome env world map created source status _ _ :=
      .abandoned hstatus hstored hquiet
    rw [← dropPrepared_eq h hprepared] at hout
    cases created with
    | false => exact ⟨_, _, _, rfl, hout, by rintro m ⟨⟩; exact h⟩
    | true =>
        refine ⟨_, _, _, rfl, ?_, by rintro m ⟨⟩⟩
        rw [clear_of_entries_nil (hcreated rfl)]
        exact hout
  unfold appendEntry
  by_cases hfull : map.size = sizeMax
  · obtain ⟨status, map', world', heq, hout⟩ := hfail .overflow w₁ (by simp) (Quiet.refl _)
    exact ⟨status, map', world', by simp only [if_pos hfull, heq], hout⟩
  simp only [if_neg hfull]
  obtain ⟨status, reserved, w₂, hres, hquiet, hcase⟩ := reserveRaw_cases w₁ (some map) map.entrySize
    map.keySize (map.size + 1) (by rintro m ⟨⟩; exact h)
  simp only [hres, Option.bind_eq_bind, Option.bind_some]
  have hsuccess : ∀ moved, Inv env moved → Resized map moved → map.size + 1 ≤ moved.capacity →
      ∃ status' map' world',
        ((insertBucket env (moved.withEntries
            (moved.entries ++ [prepared.getD (source.entryAfter env map moved)]))
          moved.size).bind fun map => pure (Status.ok, some map, w₂)) =
        some (status', map', world') ∧
        SetOutcome env world map created source status' map' world' ∧
        ∀ m, map' = some m → Inv env m := by
    intro moved hinv hresized hroom
    have hget := hprepared.getD_entryAfter h hs hresized
    have hsize : moved.size = map.size := by rw [LorMap.size, hresized.entries]; rfl
    have hkeyAt : ∀ i, moved.keyAt i = map.keyAt i := by
      intro i
      simp only [LorMap.keyAt, hresized.entries]
    have hfresh : ∀ i < moved.size, equal env moved.config (moved.keyAt i) e.key.bytes = false := by
      intro i hi
      rw [hsize] at hi
      rw [hkeyAt, hresized.config]
      by_contra heq
      rw [Bool.not_eq_false] at heq
      have := hlaw.trans _ _ _ (h.keyAt_ok hi) hstored.ok.key hread heq hstored.equal
      rw [hno i hi] at this
      cases this
    have hok : EntryOk env moved e :=
      ⟨by rw [hresized.config, hresized.keySize]; exact hstored.ok.key,
        by rw [hresized.entrySize, hresized.keySize]; exact hstored.ok.value⟩
    obtain ⟨final, hinsert, hfinal, hgrown⟩ := insertBucket_append hinv (by omega) hok hfresh
    refine ⟨.ok, some final, w₂, by rw [hget, hinsert]; rfl, ?_, by rintro m ⟨⟩; exact hfinal⟩
    refine .appended hno hstored hquiet ⟨?_, ?_, ?_, ?_, ?_⟩
    · rw [hgrown.entries, entries_withEntries, hresized.entries, entries_withEntries]
    · exact hgrown.config.trans hresized.config
    · exact hgrown.entrySize.trans hresized.entrySize
    · exact hgrown.keySize.trans hresized.keySize
    · exact hresized.capacity_le.trans hgrown.capacity_le
  obtain ⟨hstatus, rfl⟩ | ⟨rfl, hle, rfl⟩ |
    ⟨rfl, header, moved, rfl, hinv, hroom, hresized, hheader⟩ := hcase
  · obtain ⟨status', map', world', heq, hout⟩ := hfail status w₂ hstatus hquiet
    refine ⟨status', map', world', ?_, hout⟩
    rw [← heq]
    cases status <;> first | exact absurd rfl hstatus | rfl
  · exact hsuccess map h (Resized.refl map) hle
  · obtain hsome | ⟨hnone, -⟩ := hheader
    · cases hsome
      exact hsuccess moved hinv hresized hroom
    · cases hnone

theorem setEntry_cases (h : Inv env map) (hlaw : Lawful env map.config map.keySize)
    (created : Bool) (hcreated : created = true → map.entries = []) (hs : source.Legal map) :
    ∃ status map' world', setEntry env world map created source = some (status, map', world') ∧
      SetOutcome env world map created source status map' world' ∧
      (status = .ok → keyValid env map.config (source.read map map.keySize) = true) ∧
      ∀ m, map' = some m → Inv env m := by
  have hsame : ∀ m, some map = some m → Inv env m := by rintro m ⟨⟩; exact h
  unfold setEntry
  by_cases hkey : keyValid env map.config (source.read map map.keySize) = true
  swap
  · simp only [hkey, Bool.not_false, if_true]
    exact ⟨_, _, _, rfl, .rejected (by simp) (Quiet.refl _), by simp, hsame⟩
  have hread : KeyOk env map.config map.keySize (source.read map map.keySize) :=
    ⟨hs.length_read h (keySize_pos h.layout).2, hkey⟩
  have hlookup := h.findBucket_cases hlaw hread
  obtain ⟨found, hfound⟩ :
      ∃ found, findBucket env map (source.read map map.keySize) = some found := by
    obtain ⟨i, -, -, b, -, hb, -⟩ | ⟨-, hb⟩ := hlookup
    · exact ⟨_, hb⟩
    · exact ⟨_, hb⟩
  simp only [hkey, Bool.not_true, Bool.false_eq_true, if_false, hfound, Option.bind_eq_bind,
    Option.bind_some]
  split_ifs with halias
  · exact ⟨_, _, _, rfl, .rejected (by simp) (Quiet.refl _), by simp, hsame⟩
  obtain ⟨status, w₁, hprep, hstatus, hquiet⟩ | ⟨prepared, e, w₁, hprep, hstored, hprepared⟩ :=
    prepareEntry_cases world h hlaw hs hkey
  · rw [hprep]
    refine ⟨status, some map, w₁, ?_, .rejected hstatus hquiet, fun hok => absurd hok hstatus,
      hsame⟩
    cases status <;> first | exact absurd rfl hstatus | rfl
  rw [hprep]
  obtain ⟨i, hi, heq, b, -, hb, hcell⟩ | ⟨hno, hb⟩ := hlookup
  · rw [hfound] at hb
    cases hb
    obtain ⟨old, hold⟩ := getElem?_of_lt_size hi
    have hspec := replaceEntry_spec w₁ h hcell hold hprepared
    rw [keyAt_of_getElem? hold] at heq
    refine ⟨_, _, _, congrArg some hspec, .replaced hold heq hstored, fun _ => trivial, ?_⟩
    rintro m ⟨⟩
    apply h.set hlaw hi hstored.ok
    rw [keyAt_of_getElem? hold]
    have holdok := h.keys old (List.mem_of_getElem? hold)
    exact hlaw.trans _ _ _ holdok hread hstored.ok.key heq
      (hlaw.symm _ _ hstored.ok.key hread hstored.equal)
  · rw [hfound] at hb
    cases hb
    obtain ⟨status, map', world', heq, hout, hinv⟩ :=
      appendEntry_cases h created hcreated hs hlaw hread hno hstored hprepared
    exact ⟨status, map', world', heq, hout, fun _ => trivial, hinv⟩

section Handles

variable {m : LorMap} {entrySize keySize : ℕ} {handle : Option LorMap}

theorem setRaw_mismatch (world : World) (h : matchesLayout handle entrySize keySize = false) :
    setRaw env world handle entrySize keySize source =
      some (.invalidArgument, handle, world) := by
  cases source <;> simp [setRaw, h]

theorem setRaw_some (world : World) (hnull : source ≠ .null)
    (h : matchesLayout (some m) entrySize keySize = true) :
    setRaw env world (some m) entrySize keySize source = setEntry env world m false source := by
  cases source with
  | null => exact absurd rfl hnull
  | outside address memory => simp only [setRaw, h, Bool.not_true, Bool.false_eq_true, if_false]
  | inside offset => simp only [setRaw, h, Bool.not_true, Bool.false_eq_true, if_false]

theorem setRaw_none (world : World) (hnull : source ≠ .null)
    (h : matchesLayout none entrySize keySize = true) :
    setRaw env world none entrySize keySize source =
      match initRaw env world none entrySize keySize configBytes with
      | (.ok, some map, world) => setEntry env world map true source
      | (status, map, world) => some (status, map, world) := by
  cases source with
  | null => exact absurd rfl hnull
  | outside address memory => exact if_neg (by simp [h])
  | inside offset => exact if_neg (by simp [h])

/-- The map that a `set` on a handle acts on: the one behind it, or the empty one that a `NULL`
handle first gets. -/
structure Target (env : Env) (handle : Option LorMap) (entrySize keySize : ℕ) (source : Source)
    (map : LorMap) (created : Bool) : Prop where
  handle : handle = some map ∧ created = false ∨
    handle = none ∧ created = true ∧ Fresh map entrySize keySize configBytes
  entrySize : map.entrySize = entrySize
  keySize : map.keySize = keySize
  inv : Inv env map
  lawful : Lawful env map.config map.keySize
  legal : source.Legal map

/-- Everything that `lor_map_set_raw` can do to a handle. -/
theorem setRaw_cases (world : World) (keySize : ℕ) (hinv : ∀ m, handle = some m → Inv env m)
    (hlaw : ∀ m, handle = some m → Lawful env m.config m.keySize)
    (hs : source.Valid handle entrySize) :
    ∃ status handle' world', setRaw env world handle entrySize keySize source =
        some (status, handle', world') ∧ (∀ m, handle' = some m → Inv env m) ∧
      (status ≠ .ok ∧ handle' = handle ∧ Quiet world world' ∨
        ∃ map created w₁, Target env handle entrySize keySize source map created ∧
          Quiet world w₁ ∧ SetOutcome env w₁ map created source status handle' world' ∧
          (status = .ok → keyValid env map.config (source.read map map.keySize) = true)) := by
  by_cases hnull : source = .null
  · subst hnull
    exact ⟨_, _, _, rfl, hinv, Or.inl ⟨by simp, rfl, Quiet.refl _⟩⟩
  cases hmatch : matchesLayout handle entrySize keySize with
  | false => exact ⟨_, _, _, setRaw_mismatch world hmatch, hinv,
    Or.inl ⟨by simp, rfl, Quiet.refl _⟩⟩
  | true =>
    cases handle with
    | some m =>
        obtain ⟨hes, hks⟩ := matchesLayout_some hmatch
        have hlegal : source.Legal m := by
          rw [Source.Legal, hes]
          exact hs.readable hnull
        obtain ⟨status, handle', world', heq, hout, hvalid, hinv'⟩ :=
          setEntry_cases (hinv m rfl) (hlaw m rfl) false (by simp) hlegal
        rw [setRaw_some world hnull hmatch]
        exact ⟨status, handle', world', heq, hinv', Or.inr ⟨m, false, world,
          ⟨Or.inl ⟨rfl, rfl⟩, hes, hks, hinv m rfl, hlaw m rfl, hlegal⟩, Quiet.refl _, hout,
            hvalid⟩⟩
    | none =>
        rw [setRaw_none world hnull hmatch]
        obtain ⟨status, handle', w₁, hinit, hquiet,
          ⟨hstatus, rfl⟩ | ⟨rfl, -, hlayout, -, header, rfl, hfresh⟩⟩ :=
          initRaw_cases env world none entrySize keySize configBytes
        · rw [hinit]
          refine ⟨status, none, w₁, ?_, by simp, Or.inl ⟨hstatus, rfl, hquiet⟩⟩
          cases status <;> rfl
        · rw [hinit]
          have hhinv : Inv env header := hfresh.inv hlayout rfl
          have hhlaw : Lawful env header.config header.keySize := by
            rw [hfresh.config]
            exact lawful_configBytes env header.keySize
          have hlegal : source.Legal header := hs.readable_of_none hnull header header.entrySize
          obtain ⟨status, handle', world', heq, hout, hvalid, hinv'⟩ :=
            setEntry_cases hhinv hhlaw true (fun _ => hfresh.entries) hlegal
          exact ⟨status, handle', world', heq, hinv', Or.inr ⟨header, true, w₁,
            ⟨Or.inr ⟨rfl, rfl, hfresh⟩, hfresh.entrySize, hfresh.keySize, hhinv, hhlaw, hlegal⟩,
            hquiet, hout, hvalid⟩⟩

end Handles

end Liblor.Map
