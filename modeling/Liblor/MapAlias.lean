import Liblor.MapFailure

/-!
# Entries of the map and entries of its neighbours

The alias test counts the address right behind the initialized entries as one of them. In a full
map, and in one without capacity, an object of somebody else can begin there, and setting it is
rejected. Every other object outside the storage of the map is accepted, and an object inside the
initialized entries is stored as a copy of it would be.
-/

namespace Liblor.Map

open Transition

variable {env : Env} {map : LorMap} {source : Source} {world : World}

/-- An object that does not meet the header and the entries of a map. -/
def Beside (map : LorMap) (address count : ℕ) : Prop :=
  address + count + headerSize ≤ map.base ∨ map.base + map.capacity * map.entrySize ≤ address

/-- The allocator has room for the copy of an entry and `clone` answers that its argument is
invalid. -/
def CloneRejects (env : Env) (world : World) (map : LorMap) (key : Bytes) : Prop :=
  ∃ f, map.config.clone = some f ∧ (world.malloc env map.entrySize).1.isSome = true ∧
    (env.clone f map.config.context world.clones key).1 = .invalidArgument

/-- The object does not meet the storage of the map, or of the header that a first `set` allocates.
-/
def Foreign (env : Env) (s : State) (address count : ℕ) : Prop :=
  match s.map with
  | some map => Beside map address count
  | none => ∀ header, (s.world.malloc env headerSize).1 = some header →
      address + count ≤ header ∨ header + headerSize ≤ address

/-- Where the initialized entries of the map, or of the one that a first `set` creates, end. -/
def entriesEnd (env : Env) (s : State) : Option ℕ :=
  match s.map with
  | some map => some (map.base + map.size * map.entrySize)
  | none => (s.world.malloc env headerSize).1.map fun header => header + headerSize

/-- A `set` of this key is answered by the refusal of `clone`. -/
def RefusedByClone (env : Env) (s : State) (key : Bytes) : Prop :=
  ∃ map, s.map = some map ∧ CloneRejects env s.world map key

def storedBytes (env : Env) (world : World) (map : LorMap) (source : Source) : Bytes :=
  match map.config.clone with
  | none => source.read map map.entrySize
  | some f => (env.clone f map.config.context world.clones (source.read map map.keySize)).2 ++
      (source.read map map.entrySize).drop map.keySize

def storedKey (env : Env) (world : World) (map : LorMap) (source : Source) : Bytes :=
  match map.config.clone with
  | none => source.read map map.keySize
  | some f => (env.clone f map.config.context world.clones (source.read map map.keySize)).2

def LorMap.images (map : LorMap) : List Bytes := map.entries.map Entry.bytes

section Alias

/-- The one object outside that is taken for a part of the map begins where its entries end. -/
theorem entryAlias_outside (h : Inv env map) {address : ℕ} (memory : ℕ → UInt8)
    (hbeside : Beside map address map.entrySize) :
    entryAlias map (.outside address memory) =
      if address = map.base + map.size * map.entrySize then -1 else 0 := by
  obtain ⟨hfit, hpos, hsize, hroom⟩ := h.initialized_fits
  have haddress : (Source.outside address memory).address map = address := rfl
  unfold Beside at hbeside
  simp only [entryAlias, if_neg hsize, if_neg hroom]
  rw [haddress]
  by_cases hend : address = map.base + map.size * map.entrySize
  · rw [if_pos hend, if_neg (by omega), if_pos (by omega)]
  · rw [if_neg hend, if_pos (by omega)]

end Alias

section Status

theorem bucketCapacity_status {required : ℕ} {status : Status} {c : ℕ}
    (h : bucketCapacity required = some (status, c)) : status ≠ .invalidArgument := by
  have hloop : ∀ (target fuel result : ℕ) (status : Status) (c : ℕ),
      bucketCapacityLoop target fuel result = some (status, c) → status ≠ .invalidArgument := by
    intro target fuel
    induction fuel with
    | zero =>
        intro result status c h
        cases h
    | succ fuel ih =>
        intro result status c h
        rw [bucketCapacityLoop] at h
        split_ifs at h
        · cases h
          decide
        · exact ih _ _ _ h
        · cases h
          decide
  unfold bucketCapacity at h
  split_ifs at h
  · cases h
    decide
  · cases h
    decide
  · exact hloop _ _ _ _ _ h

theorem reserveRaw_status {handle handle' : Option LorMap} {entrySize keySize required : ℕ}
    {status : Status} {world' : World} (hmatch : matchesLayout handle entrySize keySize = true)
    (h : reserveRaw env world handle entrySize keySize required = some (status, handle', world')) :
    status ≠ .invalidArgument := by
  unfold reserveRaw at h
  simp only [hmatch, Bool.not_true, Bool.false_eq_true, if_false] at h
  split_ifs at h with hcap
  · cases h
    decide
  · obtain ⟨c, -, h⟩ := Option.bind_eq_some_iff.mp h
    split_ifs at h with hover
    · cases h
      decide
    · obtain ⟨⟨answer, n⟩, hn, h⟩ := Option.bind_eq_some_iff.mp h
      dsimp only at h
      split_ifs at h with hanswer hbuckets
      · cases h
        exact bucketCapacity_status hn
      · cases h
        decide
      · cases hbucket : world.malloc env (n * 8) with
        | mk buckets w₁ =>
            rw [hbucket] at h
            cases buckets with
            | none =>
                cases h
                decide
            | some _ =>
                dsimp only at h
                cases hheader : reserveHeader env w₁ handle entrySize keySize with
                | mk header w₂ =>
                    rw [hheader] at h
                    cases header with
                    | none =>
                        cases h
                        decide
                    | some header =>
                        dsimp only at h
                        cases hentries : w₂.malloc env (headerSize + c * entrySize) with
                        | mk address w₃ =>
                            rw [hentries] at h
                            cases address with
                            | none =>
                                cases h
                                decide
                            | some address =>
                                obtain ⟨moved, -, h⟩ := Option.bind_eq_some_iff.mp h
                                cases h
                                decide

theorem malloc_clones (world : World) (env : Env) (size : ℕ) :
    (world.malloc env size).2.clones = world.clones := rfl

theorem prepareEntry_status (world : World) (map : LorMap) (source : Source) (aliased : ℤ) :
    (prepareEntry env world map source aliased).1 = .invalidArgument ↔
      CloneRejects env world map (source.read map map.keySize) := by
  unfold prepareEntry CloneRejects
  by_cases hdirect : (map.config.clone.isNone && aliased == 0) = true
  · rw [if_pos hdirect]
    simp only [Bool.and_eq_true, Option.isNone_iff_eq_none] at hdirect
    simp [hdirect.1]
  · rw [if_neg hdirect]
    cases hmalloc : world.malloc env map.entrySize with
    | mk address w₁ =>
        have hclones : w₁.clones = world.clones := by rw [← malloc_clones world env, hmalloc]
        cases address with
        | none => simp
        | some address =>
            cases hclone : map.config.clone with
            | none => simp
            | some f =>
                simp only [World.clone, hclones]
                by_cases hok : (env.clone f map.config.context world.clones
                    (source.read map map.keySize)).1 = .ok
                · simp [hok]
                · simp [hok]

theorem appendEntry_status {created : Bool} {prepared : Option Entry} {status : Status}
    {handle : Option LorMap} {world' : World}
    (hlayout : layoutValid map.entrySize map.keySize = true)
    (h : appendEntry env world map created source prepared = some (status, handle, world')) :
    status ≠ .invalidArgument := by
  have hmatch : matchesLayout (some map) map.entrySize map.keySize = true := by
    simp [matchesLayout, hlayout]
  have hfail : ∀ (answer : Status) (w : World), answer ≠ .invalidArgument →
      (if created then (answer, deinit env (dropPrepared env w map prepared map.config.clone.isSome)
          (some map))
        else (answer, some map, dropPrepared env w map prepared map.config.clone.isSome)) =
        (status, handle, world') → status ≠ .invalidArgument := by
    intro answer w hanswer heq
    split_ifs at heq
    · cases heq
      exact hanswer
    · cases heq
      exact hanswer
  unfold appendEntry at h
  dsimp only at h
  by_cases hfull : map.size = sizeMax
  · rw [if_pos hfull] at h
    exact hfail .overflow world (by decide) (Option.some.inj h)
  · rw [if_neg hfull] at h
    obtain ⟨⟨answer, moved, w₁⟩, hreserve, h⟩ := Option.bind_eq_some_iff.mp h
    have hanswer := reserveRaw_status hmatch hreserve
    dsimp only at h
    split at h
    · obtain ⟨final, -, h⟩ := Option.bind_eq_some_iff.mp h
      cases h
      decide
    · exact hfail _ w₁ hanswer (Option.some.inj h)

/-- A `set` of a valid key says that an argument is invalid where the alias test or `clone` does. -/
theorem setEntry_status (world : World) (source : Source) (h : Inv env map)
    (hlaw : Lawful env map.config map.keySize)
    (created : Bool) (hcreated : created = true → map.entries = []) (hs : source.Legal map)
    (hkey : keyValid env map.config (source.read map map.keySize) = true) :
    ∃ status handle world', setEntry env world map created source = some (status, handle, world') ∧
      (status = .invalidArgument ↔ entryAlias map source < 0 ∨
        CloneRejects env world map (source.read map map.keySize)) := by
  obtain ⟨status, handle, world', heq, -⟩ := setEntry_cases h hlaw created hcreated hs
  refine ⟨status, handle, world', heq, ?_⟩
  unfold setEntry at heq
  simp only [hkey, Bool.not_true, Bool.false_eq_true, if_false] at heq
  obtain ⟨bucket, -, heq⟩ := Option.bind_eq_some_iff.mp heq
  by_cases halias : entryAlias map source < 0
  · rw [if_pos halias] at heq
    cases heq
    exact iff_of_true rfl (Or.inl halias)
  · rw [if_neg halias] at heq
    have hanswer : (prepareEntry env world map source (entryAlias map source)).1 =
        .invalidArgument ↔ CloneRejects env world map (source.read map map.keySize) :=
      prepareEntry_status world map source _
    rw [or_iff_right halias, ← hanswer]
    cases hprepare : prepareEntry env world map source (entryAlias map source) with
    | mk answer rest =>
        rw [hprepare] at heq
        cases answer with
        | ok =>
            cases bucket with
            | some bucket =>
                cases heq
                exact Iff.rfl
            | none => exact iff_of_false (appendEntry_status h.layout heq) (by simp)
        | _ =>
            cases heq
            exact Iff.rfl

end Status

section Stored

theorem prepareEntry_stored (h : Inv env map) {prepared : Option Entry} {w₁ : World}
    (heq : prepareEntry env world map source (entryAlias map source) = (.ok, prepared, w₁)) :
    ∃ e, e.bytes = storedBytes env world map source ∧
      e.key.bytes = storedKey env world map source ∧ Prepared map source prepared e := by
  have hself : (source.entry map).bytes = source.read map map.entrySize := by
    simp only [Source.entry, Entry.bytes, Entry.ofBytes, List.take_append_drop]
  have hkey : (source.entry map).key.bytes = source.read map map.keySize :=
    Source.entry_key_bytes h
  unfold prepareEntry at heq
  by_cases hdirect : (map.config.clone.isNone && entryAlias map source == 0) = true
  · rw [if_pos hdirect] at heq
    simp only [Bool.and_eq_true, Option.isNone_iff_eq_none, beq_iff_eq] at hdirect
    cases heq
    refine ⟨source.entry map, ?_, ?_, Or.inr ⟨rfl, hdirect.1, rfl, hdirect.2⟩⟩
    · rw [hself, storedBytes, hdirect.1]
    · rw [hkey, storedKey, hdirect.1]
  · rw [if_neg hdirect] at heq
    cases hmalloc : world.malloc env map.entrySize with
    | mk address w₂ =>
        have hclones : w₂.clones = world.clones := by rw [← malloc_clones world env, hmalloc]
        rw [hmalloc] at heq
        cases address with
        | none => cases heq
        | some address =>
            cases hclone : map.config.clone with
            | none =>
                simp only [hclone] at heq
                cases heq
                refine ⟨source.entry map, ?_, ?_, Or.inl rfl⟩
                · rw [hself, storedBytes, hclone]
                · rw [hkey, storedKey, hclone]
            | some f =>
                simp only [hclone, World.clone, hclones] at heq
                by_cases hok : (env.clone f map.config.context world.clones
                    (source.read map map.keySize)).1 = .ok
                · simp only [hok, if_true, ne_eq, not_true_eq_false, if_false, Prod.mk.injEq,
                    true_and] at heq
                  refine ⟨_, ?_, ?_, Or.inl heq.1.symm⟩
                  · rw [storedBytes, hclone]
                    rfl
                  · rw [storedKey, hclone]
                · simp [hok] at heq

theorem appendEntry_images (h : Inv env map) (hs : source.Legal map) {created : Bool}
    {prepared : Option Entry} {e : Entry} {m : LorMap} {world' : World}
    (hprepared : Prepared map source prepared e)
    (heq : appendEntry env world map created source prepared = some (.ok, some m, world')) :
    m.images = map.images ++ [e.bytes] := by
  have hfail : ∀ (answer : Status) (w : World), answer ≠ .ok →
      (if created then (answer, deinit env (dropPrepared env w map prepared map.config.clone.isSome)
          (some map))
        else (answer, some map, dropPrepared env w map prepared map.config.clone.isSome)) ≠
        (.ok, some m, world') := by
    intro answer w hanswer hbad
    split_ifs at hbad
    · exact hanswer (congrArg Prod.fst hbad)
    · exact hanswer (congrArg Prod.fst hbad)
  unfold appendEntry at heq
  dsimp only at heq
  by_cases hfull : map.size = sizeMax
  · rw [if_pos hfull] at heq
    exact absurd (Option.some.inj heq) (hfail .overflow world (by decide))
  · rw [if_neg hfull] at heq
    obtain ⟨answer, reserved, w₁, hreserve, -, hcase⟩ := reserveRaw_cases world (some map)
      map.entrySize map.keySize (map.size + 1) (by rintro m' ⟨⟩; exact h)
    rw [hreserve] at heq
    have hsuccess : ∀ moved, Resized map moved →
        ((insertBucket env (moved.withEntries (moved.entries ++
          [prepared.getD (source.entryAfter env map moved)])) moved.size).bind fun map =>
            some (Status.ok, some map, w₁)) = some (.ok, some m, world') →
        m.images = map.images ++ [e.bytes] := by
      intro moved hresized hinsert
      have hget := hprepared.getD_entryAfter h hs hresized
      obtain ⟨final, hfinal, heq⟩ := Option.bind_eq_some_iff.mp hinsert
      cases heq
      obtain ⟨bucket, -, rfl⟩ := Option.map_eq_some_iff.mp hfinal
      rw [hget]
      change (moved.entries ++ [e]).map Entry.bytes = map.entries.map Entry.bytes ++ [e.bytes]
      rw [hresized.entries, List.map_append, List.map_singleton]
    obtain ⟨hanswer, rfl⟩ | ⟨rfl, -, rfl⟩ | ⟨rfl, header, moved, rfl, -, -, hresized, hheader⟩ :=
      hcase
    · cases answer with
      | ok => exact absurd rfl hanswer
      | _ => exact absurd (Option.some.inj heq) (hfail _ w₁ hanswer)
    · exact hsuccess map (Resized.refl map) heq
    · rcases hheader with hsome | ⟨hnone, -⟩
      · cases hsome
        exact hsuccess moved hresized heq
      · cases hnone

/-- A `set` that succeeds stores these bytes for the key, in its slot or behind the others. -/
theorem setEntry_images (h : Inv env map) (hlaw : Lawful env map.config map.keySize)
    {created : Bool} (hs : source.Legal map) {m : LorMap} {world' : World}
    (heq : setEntry env world map created source = some (.ok, some m, world')) :
    KeyOk env map.config map.keySize (source.read map map.keySize) ∧
    ((∃ i < map.size, equal env map.config (map.keyAt i) (source.read map map.keySize) = true ∧
        m.images = map.images.set i (storedBytes env world map source)) ∨
      (∀ i < map.size, equal env map.config (map.keyAt i) (source.read map map.keySize) = false) ∧
        m.images = map.images ++ [storedBytes env world map source]) := by
  unfold setEntry at heq
  by_cases hkey : keyValid env map.config (source.read map map.keySize) = true
  · have hread : KeyOk env map.config map.keySize (source.read map map.keySize) :=
      ⟨hs.length_read h (keySize_pos h.layout).2, hkey⟩
    refine ⟨hread, ?_⟩
    simp only [hkey, Bool.not_true, Bool.false_eq_true, if_false] at heq
    obtain ⟨bucket, hbucket, heq⟩ := Option.bind_eq_some_iff.mp heq
    by_cases halias : entryAlias map source < 0
    · rw [if_pos halias] at heq
      cases heq
    · rw [if_neg halias] at heq
      cases hprepare : prepareEntry env world map source (entryAlias map source) with
      | mk answer rest =>
          obtain ⟨prepared, w₁⟩ := rest
          rw [hprepare] at heq
          cases answer with
          | ok =>
              obtain ⟨e, hbytes, -, hprepared⟩ := prepareEntry_stored h hprepare
              rw [← hbytes]
              obtain ⟨i, hi, hequal, b, -, hfound, hcell⟩ | ⟨hno, hfound⟩ :=
                h.findBucket_cases hlaw hread
              · rw [hfound] at hbucket
                cases hbucket
                obtain ⟨old, hold⟩ := getElem?_of_lt_size hi
                have hspec := replaceEntry_spec w₁ h hcell hold hprepared
                have hsame := hspec.symm.trans (Option.some.inj heq)
                cases hsame
                exact Or.inl ⟨i, hi, hequal, List.map_set⟩
              · rw [hfound] at hbucket
                cases hbucket
                exact Or.inr ⟨hno, appendEntry_images h hs hprepared heq⟩
          | _ => cases heq
  · simp only [hkey, Bool.not_false, if_true] at heq
    cases heq

theorem setEntry_isSome (h : Inv env map) (hlaw : Lawful env map.config map.keySize)
    (hs : source.Legal map) {handle : Option LorMap} {world' : World}
    (heq : setEntry env world map false source = some (.ok, handle, world')) :
    ∃ m, handle = some m := by
  obtain ⟨status, handle', w, heq', hout, -⟩ := setEntry_cases h hlaw false (by simp) hs
  rw [heq] at heq'
  cases heq'
  cases hout with
  | rejected hstatus => exact absurd rfl hstatus
  | abandoned hstatus => exact absurd rfl hstatus
  | replaced => exact ⟨_, rfl⟩
  | appended => exact ⟨_, rfl⟩

theorem setEntry_images_congr (h : Inv env map) (hlaw : Lawful env map.config map.keySize)
    {source' : Source} {created : Bool} (hs : source.Legal map) (hs' : source'.Legal map)
    (hread : source.read map map.entrySize = source'.read map map.entrySize) {m m' : LorMap}
    {w w' : World} (heq : setEntry env world map created source = some (.ok, some m, w))
    (heq' : setEntry env world map created source' = some (.ok, some m', w')) :
    m.images = m'.images := by
  have hle := (keySize_pos h.layout).2
  have hkey : source.read map map.keySize = source'.read map map.keySize := by
    rw [← Source.take_read hle, hread, Source.take_read hle]
  have hstored : storedBytes env world map source = storedBytes env world map source' := by
    simp only [storedBytes, hread, hkey]
  obtain ⟨-, hcase⟩ := setEntry_images h hlaw hs heq
  obtain ⟨hkeyOk, hcase'⟩ := setEntry_images h hlaw hs' heq'
  rw [hkey, hstored] at hcase
  rcases hcase with ⟨i, hi, hequal, himages⟩ | ⟨hno, himages⟩
  · rcases hcase' with ⟨j, hj, hequal', himages'⟩ | ⟨hno', -⟩
    · rw [himages, himages', h.index_unique hlaw hkeyOk hi hj hequal hequal']
    · rw [hno' i hi] at hequal
      cases hequal
  · rcases hcase' with ⟨j, hj, hequal', -⟩ | ⟨-, himages'⟩
    · rw [hno j hj] at hequal'
      cases hequal'
    · rw [himages, himages']

end Stored

section Calls

variable {events : List Event} {s : State} {entrySize keySize : ℕ}

theorem set_step {status : Status} {handle : Option LorMap} {world' : World}
    (h : setRaw env s.world s.map entrySize keySize source = some (status, handle, world')) :
    step env s (.set entrySize keySize source) = some (.status status, ⟨handle, world'⟩) := by
  rw [step, h]
  rfl

theorem set_some_status {m : LorMap} (hm : s.map = some m) (hinv : Inv env m)
    (hlaw : Lawful env m.config m.keySize)
    (hmatch : matchesLayout (some m) entrySize keySize = true) (hnull : source ≠ .null)
    (hs : source.Legal m) (hkey : keyValid env m.config (source.read m keySize) = true) :
    ∃ status s', step env s (.set entrySize keySize source) = some (.status status, s') ∧
      (status = .invalidArgument ↔
        entryAlias m source < 0 ∨ RefusedByClone env s (source.read m keySize)) := by
  obtain ⟨-, rfl⟩ := matchesLayout_some hmatch
  obtain ⟨status, handle, world', heq, hiff⟩ :=
    setEntry_status s.world source hinv hlaw false (by simp) hs hkey
  refine ⟨status, ⟨handle, world'⟩, set_step ?_, hiff.trans (or_congr_right ?_)⟩
  · rw [hm, setRaw_some s.world hnull hmatch, heq]
  · unfold RefusedByClone
    simp [hm]

theorem initRaw_refused {world w₁ : World} (hlayout : layoutValid entrySize keySize = true)
    (hmalloc : world.malloc env headerSize = (none, w₁)) :
    initRaw env world none entrySize keySize configBytes = (.outOfMemory, none, w₁) := by
  rw [initRaw, if_neg (by simp [hlayout, configValid, configBytes]), allocateHeader, hmalloc]

theorem initRaw_created {world w₁ : World} {header : ℕ}
    (hlayout : layoutValid entrySize keySize = true)
    (hmalloc : world.malloc env headerSize = (some header, w₁)) :
    initRaw env world none entrySize keySize configBytes =
      (.ok, some ⟨header + headerSize, [], 0, entrySize, keySize, [], configBytes⟩, w₁) := by
  rw [initRaw, if_neg (by simp [hlayout, configValid, configBytes]), allocateHeader, hmalloc]

theorem set_none_status (hm : s.map = none)
    (hmatch : matchesLayout none entrySize keySize = true) {address : ℕ} (memory : ℕ → UInt8)
    (hforeign : Foreign env s address entrySize) :
    ∃ status s', step env s (.set entrySize keySize (.outside address memory)) =
        some (.status status, s') ∧
      (status = .invalidArgument ↔ entriesEnd env s = some address) := by
  have hlayout : layoutValid entrySize keySize = true := by simpa [matchesLayout] using hmatch
  have hnull : Source.outside address memory ≠ .null := by simp
  have hraw : setRaw env s.world none entrySize keySize (.outside address memory) = _ :=
    setRaw_none s.world hnull hmatch
  simp only [Foreign, hm] at hforeign
  simp only [entriesEnd, hm]
  cases hmalloc : s.world.malloc env headerSize with
  | mk block w₁ =>
      rw [hmalloc] at hforeign
      cases block with
      | none =>
          rw [initRaw_refused hlayout hmalloc] at hraw
          refine ⟨.outOfMemory, ⟨none, w₁⟩, set_step (hm ▸ hraw), ?_⟩
          simp
      | some header =>
          rw [initRaw_created hlayout hmalloc] at hraw
          have hfits : header + headerSize ≤ uintptrMax := by
            obtain ⟨w₂, -, hnone | ⟨block, hsome, hfits⟩⟩ := malloc_cases env s.world headerSize
            · rw [hmalloc] at hnone
              cases hnone
            · rw [hmalloc] at hsome
              cases hsome
              exact hfits
          have hfresh : Fresh ⟨header + headerSize, [], 0, entrySize, keySize, [], configBytes⟩
              entrySize keySize configBytes := ⟨rfl, rfl, rfl, rfl, rfl, rfl, hfits⟩
          have hinv : Inv env _ := hfresh.inv hlayout rfl
          obtain ⟨status, handle, world', heq, hiff⟩ := setEntry_status w₁
            (.outside address memory) hinv (lawful_configBytes env keySize) true
            (fun _ => rfl) trivial rfl
          have hbeside : Beside ⟨header + headerSize, [], 0, entrySize, keySize, [], configBytes⟩
              address entrySize := by
            have hcase := hforeign header rfl
            unfold Beside
            dsimp only
            omega
          have halias := entryAlias_outside hinv memory hbeside
          refine ⟨status, ⟨handle, world'⟩, set_step (hm ▸ hraw.trans heq), hiff.trans ?_⟩
          rw [halias]
          simp only [LorMap.size, List.length_nil, Nat.zero_mul, Nat.add_zero, Option.map_some,
            Option.some.injEq]
          constructor
          · rintro (hneg | ⟨f, hclone, -⟩)
            · by_contra hne
              rw [if_neg fun h => hne h.symm] at hneg
              omega
            · cases hclone
          · intro hend
            rw [if_pos hend.symm]
            exact Or.inl (by decide)

theorem legal_of_layout {m : LorMap} (hmatch : matchesLayout (some m) entrySize keySize = true)
    {offset : ℕ} (h : offset + entrySize ≤ m.size * m.entrySize) :
    (Source.inside offset).Legal m := by
  obtain ⟨rfl, -⟩ := matchesLayout_some hmatch
  exact h

/-- An entry object that does not meet the storage of the map is rejected exactly where it begins
at the end of the initialized entries; but for a `clone` that refuses the key, nothing else rejects
it. An entry object inside the initialized entries is rejected by `clone` alone, and what is stored
for it is what is stored for a copy of it elsewhere. -/
theorem foreign_entry_rejected_iff (h : Run (system env) events s)
    (hmatch : matchesLayout s.map entrySize keySize = true) :
    (∀ address memory, Foreign env s address entrySize →
      keyValid env (getConfig s.map) ((List.range keySize).map memory) = true →
      ∃ status s', step env s (.set entrySize keySize (.outside address memory)) =
          some (.status status, s') ∧
        (status ≠ .invalidArgument ↔ entriesEnd env s ≠ some address ∧
          ¬ RefusedByClone env s ((List.range keySize).map memory))) ∧
    ∀ map, s.map = some map → ∀ offset, offset + entrySize ≤ map.size * map.entrySize →
      (keyValid env map.config ((map.image.drop offset).take keySize) = true →
        ∃ status s', step env s (.set entrySize keySize (.inside offset)) =
            some (.status status, s') ∧
          (status ≠ .invalidArgument ↔
            ¬ RefusedByClone env s ((map.image.drop offset).take keySize))) ∧
      ∀ address memory s₁ s₂,
        (List.range entrySize).map memory = (map.image.drop offset).take entrySize →
        step env s (.set entrySize keySize (.inside offset)) = some (.status .ok, s₁) →
        step env s (.set entrySize keySize (.outside address memory)) = some (.status .ok, s₂) →
        s₁.map.map LorMap.images = s₂.map.map LorMap.images := by
  have hagrees := run_agrees h
  refine ⟨?_, ?_⟩
  · intro address memory hforeign hkey
    cases hm : s.map with
    | some m =>
        rw [hm] at hmatch hkey
        obtain ⟨hentrySize, -⟩ := matchesLayout_some hmatch
        have hinv := hagrees.inv m hm
        have hbeside : Beside m address m.entrySize := by
          rw [hentrySize]
          simpa only [Foreign, hm] using hforeign
        obtain ⟨status, s', heq, hiff⟩ := set_some_status hm hinv (hagrees.lawful m hm) hmatch
          (by simp : Source.outside address memory ≠ .null) trivial hkey
        refine ⟨status, s', heq, ?_⟩
        rw [ne_eq, hiff, not_or, entryAlias_outside hinv memory hbeside]
        apply and_congr_left
        intro _
        simp only [entriesEnd, hm, ne_eq, Option.some.injEq]
        by_cases hend : address = m.base + m.size * m.entrySize
        · rw [if_pos hend]
          simp [hend]
        · rw [if_neg hend]
          simp [Ne.symm hend]
    | none =>
        rw [hm] at hmatch
        obtain ⟨status, s', heq, hiff⟩ := set_none_status hm hmatch memory hforeign
        refine ⟨status, s', heq, ?_⟩
        rw [ne_eq, hiff]
        refine ⟨fun hne => ⟨hne, ?_⟩, fun hboth => hboth.1⟩
        rintro ⟨map, hsome, -⟩
        rw [hm] at hsome
        cases hsome
  · intro m hm offset hoffset
    rw [hm] at hmatch
    have hinv := hagrees.inv m hm
    have hlaw := hagrees.lawful m hm
    have hlegal := legal_of_layout hmatch hoffset
    obtain ⟨hentrySize, -⟩ := matchesLayout_some hmatch
    refine ⟨?_, ?_⟩
    · intro hkey
      obtain ⟨status, s', heq, hiff⟩ := set_some_status hm hinv hlaw hmatch
        (by simp : Source.inside offset ≠ .null) hlegal hkey
      refine ⟨status, s', heq, ?_⟩
      rw [ne_eq, hiff, entryAlias_inside hinv hlegal]
      simp [Source.read]
    · intro address memory s₁ s₂ hcopy hinside houtside
      obtain ⟨⟨answer, handle, w⟩, hset, hmk⟩ := Option.map_eq_some_iff.mp hinside
      cases hmk
      obtain ⟨⟨answer, handle', w'⟩, hset', hmk⟩ := Option.map_eq_some_iff.mp houtside
      cases hmk
      rw [hm, setRaw_some s.world (by simp) hmatch] at hset hset'
      have hread : (Source.inside offset).read m m.entrySize =
          (Source.outside address memory).read m m.entrySize := by
        rw [hentrySize]
        exact hcopy.symm
      have hlegal' : (Source.outside address memory).Legal m := trivial
      obtain ⟨m₁, rfl⟩ := setEntry_isSome hinv hlaw hlegal hset
      obtain ⟨m₂, rfl⟩ := setEntry_isSome hinv hlaw hlegal' hset'
      exact congrArg some (setEntry_images_congr hinv hlaw hlegal hlegal' hread hset hset')

end Calls

/-- The first `set` of an entry that begins right behind the header allocated for it. -/
theorem adjoining_entry_rejected :
    Run (system collidingEnv) [] ⟨none, ⟨0, 0, 0, []⟩⟩ ∧
      Foreign collidingEnv ⟨none, ⟨0, 0, 0, []⟩⟩ 4192 2 ∧
      ∃ s', step collidingEnv ⟨none, ⟨0, 0, 0, []⟩⟩ (.set 2 1 (.outside 4192 fun _ => 7)) =
        some (.status .invalidArgument, s') ∧ s'.map.isSome = true := by
  refine ⟨.start rfl, ?_, _, rfl, rfl⟩
  rintro header ⟨⟩
  exact Or.inr (by decide)

theorem foreign_entry_rejected_iff_gap : ∃ status s',
    step collidingEnv ⟨none, ⟨0, 0, 0, []⟩⟩ (.set 2 1 (.outside 4193 fun _ => 7)) =
      some (.status status, s') ∧ status ≠ .invalidArgument := by
  have h0 : Run (system collidingEnv) [] ⟨none, ⟨0, 0, 0, []⟩⟩ := .start rfl
  have hforeign : Foreign collidingEnv ⟨none, ⟨0, 0, 0, []⟩⟩ 4193 2 := by
    rintro header ⟨⟩
    exact Or.inr (by decide)
  have hmatch : matchesLayout (none : Option LorMap) 2 1 = true := rfl
  obtain ⟨status, s', heq, hiff⟩ :=
    (foreign_entry_rejected_iff h0 hmatch).1 4193 (fun _ => 7) hforeign rfl
  refine ⟨status, s', heq, hiff.2 ⟨by decide, ?_⟩⟩
  rintro ⟨map, hsome, -⟩
  cases hsome

end Liblor.Map
