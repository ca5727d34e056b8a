import Liblor.MapRun

/-!
# The map without its index

A dense array in which keys are searched from the front: a new entry is appended, an entry for a key
that is there is replaced in place, and a removal moves the last entry into the gap. The hash map
makes the same calls, returns the same results and keeps the same entries in the same order.
-/

namespace Liblor.Map

open DenseList

def LorMap.plain (map : LorMap) : LorMap := map.withBuckets []

def State.plain (s : State) : State := ⟨s.map.map LorMap.plain, s.world⟩

namespace Plain

def find (env : Env) (map : LorMap) (key : Bytes) : Option ℕ :=
  map.entries.findIdx? fun entry => equal env map.config entry.key.bytes key

/-- `reserveRaw` with nothing to rebuild. -/
def reserve (env : Env) (world : World) (map : Option LorMap) (entrySize keySize required : ℕ) :
    Option (Status × Option LorMap × World) :=
  if !matchesLayout map entrySize keySize then some (.invalidArgument, map, world)
  else if required ≤ capacity map then some (.ok, map, world)
  else do
    let newCapacity ← entryCapacity (capacity map) required
    if newCapacity > (sizeMax - headerSize) / entrySize then return (.overflow, map, world)
    let (status, newBucketCapacity) ← bucketCapacity newCapacity
    if status ≠ .ok then return (status, map, world)
    if newBucketCapacity > sizeMax / 8 then return (.overflow, map, world)
    match world.malloc env (newBucketCapacity * 8) with
    | (none, world) => return (.outOfMemory, map, world)
    | (some _, world) =>
      match reserveHeader env world map entrySize keySize with
      | (none, world) => return (.outOfMemory, map, world)
      | (some header, world) =>
        match world.malloc env (headerSize + newCapacity * entrySize) with
        | (none, world) => return (.outOfMemory, map, world)
        | (some address, world) =>
          return (.ok, some { header with base := address + headerSize, capacity := newCapacity },
            world)

def replace (env : Env) (world : World) (map : LorMap) (entry : Source) (prepared : Option Entry)
    (index : ℕ) : Status × Option LorMap × World :=
  let (map, world) := if map.config.clone.isSome then dropEntry env world map index
    else (map, world)
  let source := prepared.getD (entry.entry map)
  (.ok, some (map.withEntries (map.entries.set index source)), world)

def append (env : Env) (world : World) (map : LorMap) (created : Bool) (entry : Source)
    (prepared : Option Entry) : Option (Status × Option LorMap × World) :=
  let fail (status : Status) (world : World) : Status × Option LorMap × World :=
    let world := dropPrepared env world map prepared map.config.clone.isSome
    if created then (status, deinit env world (some map)) else (status, some map, world)
  if map.size = sizeMax then some (fail .overflow world)
  else do
    let (status, moved, world) ←
      reserve env world (some map) map.entrySize map.keySize (map.size + 1)
    match status, moved with
    | .ok, some moved =>
      let source := prepared.getD (entry.entryAfter env map moved)
      return (.ok, some (moved.withEntries (moved.entries ++ [source])), world)
    | status, _ => return fail status world

def setEntry (env : Env) (world : World) (map : LorMap) (created : Bool) (entry : Source) :
    Option (Status × Option LorMap × World) :=
  let key := entry.read map map.keySize
  if !keyValid env map.config key then some (.invalidArgument, some map, world)
  else
    let aliased := entryAlias map entry
    if aliased < 0 then some (.invalidArgument, some map, world)
    else
      match prepareEntry env world map entry aliased with
      | (.ok, prepared, world) =>
        match find env map key with
        | some index => some (replace env world map entry prepared index)
        | none => append env world map created entry prepared
      | (status, _, world) => some (status, some map, world)

def set (env : Env) (world : World) (map : Option LorMap) (entrySize keySize : ℕ)
    (entry : Source) : Option (Status × Option LorMap × World) :=
  match entry with
  | .null => some (.invalidArgument, map, world)
  | entry =>
    if !matchesLayout map entrySize keySize then some (.invalidArgument, map, world)
    else
      match map with
      | some map => setEntry env world map false entry
      | none =>
        match initRaw env world none entrySize keySize configBytes with
        | (.ok, some map, world) => setEntry env world map true entry
        | (status, map, world) => some (status, map, world)

def remove (env : Env) (world : World) (map : Option LorMap) (entrySize keySize : ℕ)
    (key : Source) : Bool × Option LorMap × World :=
  match map, key with
  | none, _ => (false, none, world)
  | some map, .null => (false, some map, world)
  | some map, key =>
    if !matchesLayout (some map) entrySize keySize then (false, some map, world)
    else if !keyValid env map.config (key.read map map.keySize) then (false, some map, world)
    else
      match find env map (key.read map map.keySize) with
      | none => (false, some map, world)
      | some index =>
        let (_, world) := if map.config.drop.isSome then dropEntry env world map index
          else (map, world)
        (true, some (map.withEntries (swapRemove map.entries index)), world)

def findRaw (env : Env) (map : Option LorMap) (entrySize keySize : ℕ) (key : Source) : Option ℕ :=
  match map, key with
  | none, _ => none
  | _, .null => none
  | some map, key =>
    if !matchesLayout (some map) entrySize keySize then none
    else if !keyValid env map.config (key.read map map.keySize) then none
    else find env map (key.read map map.keySize)

def clear (env : Env) (world : World) : Option LorMap → Option LorMap × World
  | none => (none, world)
  | some map =>
    let (map, world) := if map.config.drop.isSome
      then clearLoop env world map (List.range map.size) else (map, world)
    (some (map.withEntries []), world)

def step (env : Env) (s : State) : Op → Option (Result × State)
  | .init entrySize keySize config =>
    let (status, map, world) := initRaw env s.world s.map entrySize keySize config
    some (.status status, ⟨map, world⟩)
  | .reserve entrySize keySize required =>
    (reserve env s.world s.map entrySize keySize required).map fun (status, map, world) =>
      (.status status, ⟨map, world⟩)
  | .set entrySize keySize entry =>
    (set env s.world s.map entrySize keySize entry).map fun (status, map, world) =>
      (.status status, ⟨map, world⟩)
  | .remove entrySize keySize key =>
    let (removed, map, world) := remove env s.world s.map entrySize keySize key
    some (.removed removed, ⟨map, world⟩)
  | .clear =>
    let (map, world) := clear env s.world s.map
    some (.done, ⟨map, world⟩)
  | .deinit => some (.done, ⟨none, (clear env s.world s.map).2⟩)

end Plain

variable {env : Env} {map : LorMap} {world : World} {source : Source}

/-- The map is forgotten its index, and nothing else of what a call returns. -/
def bare {α : Type} (returned : α × Option LorMap × World) : α × Option LorMap × World :=
  (returned.1, returned.2.1.map LorMap.plain, returned.2.2)

/-! ## What does not read the index -/

theorem read_plain (source : Source) (map : LorMap) (n : ℕ) :
    source.read map.plain n = source.read map n := by cases source <;> rfl

theorem entry_plain (source : Source) (map : LorMap) :
    source.entry map.plain = source.entry map := by
  cases source <;> rfl

theorem entryAfter_plain (source : Source) (env : Env) (map moved : LorMap) :
    source.entryAfter env map.plain moved.plain = source.entryAfter env map moved := by
  cases source <;> rfl

theorem entryAlias_plain (map : LorMap) (source : Source) :
    entryAlias map.plain source = entryAlias map source := by cases source <;> rfl

theorem prepareEntry_plain (env : Env) (world : World) (map : LorMap) (source : Source)
    (aliased : ℤ) :
    prepareEntry env world map.plain source aliased =
      prepareEntry env world map source aliased := by
  unfold prepareEntry
  rw [read_plain, entry_plain]
  rfl

theorem dropEntry_plain (env : Env) (world : World) (map : LorMap) (i : ℕ) :
    dropEntry env world map.plain i =
      ((dropEntry env world map i).1.plain, (dropEntry env world map i).2) := by
  have hentries : map.plain.entries = map.entries := rfl
  unfold dropEntry
  rw [hentries]
  cases map.entries[i]? <;> rfl

theorem clearLoop_plain (env : Env) (world : World) (map : LorMap) (is : List ℕ) :
    clearLoop env world map.plain is =
      ((clearLoop env world map is).1.plain, (clearLoop env world map is).2) := by
  induction is generalizing map world with
  | nil => rfl
  | cons i is ih =>
    rw [clearLoop, dropEntry_plain, clearLoop]
    exact ih _ _

/-! ## What only writes the index -/

theorem insertBucket_plain {index : ℕ} {moved : LorMap}
    (h : insertBucket env map index = some moved) :
    moved.plain = map.plain := by
  obtain ⟨b, -, rfl⟩ := Option.map_eq_some_iff.1 h
  rfl

theorem fillBuckets_plain {n : ℕ} {moved : LorMap} (h : fillBuckets env map n = some moved) :
    moved.plain = map.plain := by
  have hfold : ∀ (is : List ℕ) (start : LorMap),
      is.foldlM (insertBucket env) start = some moved → moved.plain = start.plain := by
    intro is
    induction is with
    | nil =>
      intro start hstart
      cases hstart
      rfl
    | cons i is ih =>
      intro start hstart
      rw [List.foldlM_cons] at hstart
      obtain ⟨next, hnext, hrest⟩ := Option.bind_eq_some_iff.1 hstart
      rw [ih next hrest, insertBucket_plain hnext]
  exact (hfold _ _ h).trans rfl

theorem eraseBucketLoop_plain {mask hole next fuel : ℕ} {moved : LorMap}
    (h : eraseBucketLoop env mask fuel map hole next = some moved) : moved.plain = map.plain := by
  induction fuel generalizing map hole next with
  | zero => cases h
  | succ fuel ih =>
    rw [eraseBucketLoop] at h
    dsimp only at h
    split_ifs at h
    · rw [ih h]
      rfl
    · exact ih h
    · cases h
      rfl

theorem fillGap_frame {index : ℕ} {moved : LorMap} (h : fillGap env map index = some moved) :
    moved.base = map.base ∧ moved.capacity = map.capacity := by
  unfold fillGap at h
  dsimp only at h
  cases hlast : map.entries[map.size - 1]? with
  | none =>
    rw [hlast] at h
    cases h
    exact ⟨rfl, rfl⟩
  | some last =>
    rw [hlast] at h
    dsimp only at h
    split_ifs at h with hne
    · obtain ⟨found, -, hmoved⟩ := Option.bind_eq_some_iff.1 h
      cases found <;> (cases hmoved; exact ⟨rfl, rfl⟩)
    · cases h
      exact ⟨rfl, rfl⟩

theorem dropEntry_frame (env : Env) (world : World) (map : LorMap) (i : ℕ) :
    (dropEntry env world map i).1.base = map.base ∧
      (dropEntry env world map i).1.capacity = map.capacity := by
  unfold dropEntry
  split <;> exact ⟨rfl, rfl⟩

theorem removeEntry_frame {b : ℕ} {moved : LorMap} {world' : World}
    (h : removeEntry env world map b = some (moved, world')) :
    moved.base = map.base ∧ moved.capacity = map.capacity := by
  unfold removeEntry at h
  obtain ⟨erased, herased, h⟩ := Option.bind_eq_some_iff.1 h
  obtain ⟨dropped, hdropped⟩ : ∃ dropped, dropped = if erased.config.drop.isSome = true
    then dropEntry env world erased (map.bucket b - 1) else (erased, world) := ⟨_, rfl⟩
  rw [← hdropped] at h
  obtain ⟨filled, hfilled, h⟩ := Option.bind_eq_some_iff.1 h
  cases h
  have hplain := eraseBucketLoop_plain herased
  have hbase : erased.plain.base = map.plain.base := by rw [hplain]
  have hcapacity : erased.plain.capacity = map.plain.capacity := by rw [hplain]
  obtain ⟨hfilledBase, hfilledCapacity⟩ := fillGap_frame hfilled
  obtain ⟨hdropBase, hdropCapacity⟩ := dropEntry_frame env world erased (map.bucket b - 1)
  split_ifs at hdropped with hdrop <;> rw [hdropped] at hfilledBase hfilledCapacity
  · exact ⟨hfilledBase.trans (hdropBase.trans hbase),
      hfilledCapacity.trans (hdropCapacity.trans hcapacity)⟩
  · exact ⟨hfilledBase.trans hbase, hfilledCapacity.trans hcapacity⟩

/-- A search from the front finds the entry that the index names. -/
theorem find_cases (h : Inv env map) (hlaw : Lawful env map.config map.keySize) {key : Bytes}
    (hkey : KeyOk env map.config map.keySize key) :
    (∃ i b old, Plain.find env map key = some i ∧ findBucket env map key = some (some b) ∧
        b < map.bucketCapacity ∧ map.cell b = some i ∧ map.entries[i]? = some old) ∨
      Plain.find env map key = none ∧ findBucket env map key = some none := by
  obtain ⟨i, hi, heq, b, hb, hfind, hcell⟩ | ⟨hno, hfind⟩ := h.findBucket_cases hlaw hkey
  · obtain ⟨old, hold⟩ := getElem?_of_lt_size hi
    refine Or.inl ⟨i, b, old, ?_, hfind, hb, hcell, hold⟩
    obtain ⟨hlt, hget⟩ := List.getElem?_eq_some_iff.1 hold
    refine List.findIdx?_eq_some_iff_getElem.2 ⟨hlt, ?_, fun j hji hj => ?_⟩
    · rwa [keyAt_of_getElem? hold, ← hget] at heq
    · have hjlt : j < map.size := hji.trans hi
      have hjkey : equal env map.config (map.keyAt j) key = true := by
        rw [keyAt_of_getElem? (List.getElem?_eq_getElem (l := map.entries) hjlt)]
        exact hj
      exact hji.ne (h.index_unique hlaw hkey hjlt hi hjkey heq)
  · refine Or.inr ⟨List.findIdx?_eq_none_iff.2 fun entry hmem => ?_, hfind⟩
    obtain ⟨i, hi⟩ := List.getElem?_of_mem hmem
    rw [← keyAt_of_getElem? hi]
    exact hno i (List.getElem?_eq_some_iff.1 hi).1

/-! ## One call -/

theorem allocateHeader_plain (env : Env) (world : World) (entrySize keySize : ℕ) (config : Config) :
    (allocateHeader env world entrySize keySize config).1.map LorMap.plain =
      (allocateHeader env world entrySize keySize config).1 := by
  unfold allocateHeader
  rcases world.malloc env headerSize with ⟨address, world'⟩
  cases address <;> rfl

theorem reserveHeader_plain (env : Env) (world : World) (map : Option LorMap)
    (entrySize keySize : ℕ) :
    reserveHeader env world (map.map LorMap.plain) entrySize keySize =
      ((reserveHeader env world map entrySize keySize).1.map LorMap.plain,
        (reserveHeader env world map entrySize keySize).2) := by
  cases map with
  | some map => rfl
  | none =>
    change allocateHeader env world entrySize keySize configBytes = (Option.map LorMap.plain
      (allocateHeader env world entrySize keySize configBytes).1, _)
    rw [allocateHeader_plain]
    rfl

theorem reserve_plain (world : World) (map : Option LorMap) (entrySize keySize required : ℕ)
    (hinv : ∀ m, map = some m → Inv env m) :
    (reserveRaw env world map entrySize keySize required).map bare =
      Plain.reserve env world (map.map LorMap.plain) entrySize keySize required := by
  have hmatches : matchesLayout (map.map LorMap.plain) entrySize keySize =
      matchesLayout map entrySize keySize := by cases map <;> rfl
  have hcapacity : capacity (map.map LorMap.plain) = capacity map := by cases map <;> rfl
  unfold reserveRaw Plain.reserve
  rw [hmatches, hcapacity]
  by_cases hlayout : matchesLayout map entrySize keySize = true
  swap
  · have hbad : (!matchesLayout map entrySize keySize) = true := by simpa using hlayout
    rw [if_pos hbad, if_pos hbad]
    rfl
  have hgood : ¬(!matchesLayout map entrySize keySize) = true := by simp [hlayout]
  rw [if_neg hgood, if_neg hgood]
  by_cases hroom : required ≤ capacity map
  · rw [if_pos hroom, if_pos hroom]
    rfl
  rw [if_neg hroom, if_neg hroom]
  obtain ⟨c, hc, hreq, hcur, hc8⟩ := entryCapacity_spec (capacity map) required
  obtain ⟨status, n, hn, hspec⟩ := bucketCapacity_spec (n := c) (by omega)
  simp only [hc, hn, Option.bind_eq_bind, Option.bind_some]
  by_cases hover : c > (sizeMax - headerSize) / entrySize
  · rw [if_pos hover, if_pos hover]
    rfl
  rw [if_neg hover, if_neg hover]
  by_cases hstatus : status ≠ .ok
  · rw [if_pos hstatus, if_pos hstatus]
    rfl
  rw [if_neg hstatus, if_neg hstatus]
  by_cases hbuckets : n > sizeMax / 8
  · rw [if_pos hbuckets, if_pos hbuckets]
    rfl
  rw [if_neg hbuckets, if_neg hbuckets]
  obtain ⟨hpow, hslots, hbound⟩ := hspec (by simpa using hstatus)
  obtain ⟨w₁, -, hm₁ | ⟨_, hm₁, -⟩⟩ := malloc_cases env world (n * 8)
  · rw [hm₁]
    rfl
  rw [hm₁]
  dsimp only
  rw [reserveHeader_plain]
  obtain ⟨w₂, -, hh | ⟨header, hh, hhinv, hhsize, hhcap, -⟩⟩ :=
    reserveHeader_cases w₁ map hlayout hinv
  · rw [hh]
    rfl
  rw [hh, Option.map_some]
  dsimp only
  obtain ⟨w₃, -, hm₃ | ⟨address, hm₃, hfits⟩⟩ := malloc_cases env w₂ (headerSize + c * entrySize)
  · rw [hm₃]
    rfl
  rw [hm₃]
  dsimp only
  obtain ⟨moved, hfill, -⟩ := fillBuckets_spec hhinv (address + headerSize) (hhcap.trans_le hcur)
    hpow (by omega) hbound (by rw [hhsize]; omega)
  rw [hfill]
  change some (Status.ok, some moved.plain, w₃) = _
  rw [fillBuckets_plain hfill]
  rfl

theorem replace_plain (env : Env) (world : World) (source : Source) (prepared : Option Entry)
    {i b : ℕ} (hcell : map.cell b = some i) :
    bare (replaceEntry env world map source prepared b) =
      Plain.replace env world map.plain source prepared i := by
  have hindex : map.bucket b - 1 = i := by rw [cell_eq_some.mp hcell]; rfl
  unfold replaceEntry Plain.replace
  rw [hindex, dropEntry_plain]
  by_cases hclone : map.config.clone.isSome = true
  · have hclone' : map.plain.config.clone.isSome = true := hclone
    simp only [if_pos hclone, if_pos hclone', entry_plain]
    rfl
  · have hclone' : ¬map.plain.config.clone.isSome = true := hclone
    simp only [if_neg hclone, if_neg hclone', entry_plain]
    rfl

theorem deinit_bare (env : Env) (world : World) (map : LorMap) :
    deinit env world (some map.plain) = deinit env world (some map) := by
  unfold deinit clear
  by_cases hdrop : map.config.drop.isSome = true
  · have hdrop' : map.plain.config.drop.isSome = true := hdrop
    simp only [if_pos hdrop, if_pos hdrop']
    rw [clearLoop_plain]
    rfl
  · have hdrop' : ¬map.plain.config.drop.isSome = true := hdrop
    simp only [if_neg hdrop, if_neg hdrop']

theorem fail_plain (env : Env) (world : World) (map : LorMap) (created : Bool)
    (prepared : Option Entry) (status : Status) :
    bare (if created then (status, deinit env
        (dropPrepared env world map prepared map.config.clone.isSome) (some map))
      else (status, some map, dropPrepared env world map prepared map.config.clone.isSome)) =
    if created then (status, deinit env
        (dropPrepared env world map.plain prepared map.plain.config.clone.isSome) (some map.plain))
      else (status, some map.plain,
        dropPrepared env world map.plain prepared map.plain.config.clone.isSome) := by
  cases created with
  | false => rfl
  | true =>
    rw [if_pos rfl, if_pos rfl, deinit_bare]
    rfl

theorem append_plain (world : World) (h : Inv env map) (created : Bool) {prepared : Option Entry}
    {returned : Status × Option LorMap × World}
    (heq : appendEntry env world map created source prepared = some returned) :
    Plain.append env world map.plain created source prepared = some (bare returned) := by
  have hreserve := reserve_plain world (some map) map.entrySize map.keySize (map.size + 1)
    (by rintro m ⟨⟩; exact h)
  obtain ⟨status, map', world', hres, -, hcase⟩ := reserveRaw_cases world (some map) map.entrySize
    map.keySize (map.size + 1) (by rintro m ⟨⟩; exact h)
  rw [hres] at hreserve
  unfold appendEntry at heq
  unfold Plain.append
  dsimp only at heq ⊢
  by_cases hfull : map.size = sizeMax
  · rw [if_pos hfull] at heq
    cases heq
    rw [fail_plain]
    exact if_pos hfull
  rw [if_neg hfull, hres, Option.bind_eq_bind, Option.bind_some] at heq
  have hplain : Plain.reserve env world (some map.plain) map.plain.entrySize map.plain.keySize
      (map.plain.size + 1) = some (bare (status, map', world')) := hreserve.symm
  refine (if_neg hfull).trans ?_
  rw [hplain]
  obtain ⟨hstatus, rfl⟩ | ⟨m, rfl, rfl⟩ :
      status ≠ .ok ∧ map' = some map ∨ ∃ m, status = .ok ∧ map' = some m := by
    obtain hfail | ⟨hok, -, hsame⟩ | ⟨hok, -, m, hm, -⟩ := hcase
    · exact Or.inl hfail
    · exact Or.inr ⟨map, hok, hsame⟩
    · exact Or.inr ⟨m, hok, hm⟩
  · have hreturned : returned = if created then (status, deinit env
        (dropPrepared env world' map prepared map.config.clone.isSome) (some map))
        else (status, some map, dropPrepared env world' map prepared map.config.clone.isSome) := by
      cases status <;> first | exact absurd rfl hstatus | exact (Option.some.inj heq).symm
    rw [hreturned, fail_plain]
    cases status <;> first | exact absurd rfl hstatus | rfl
  · obtain ⟨final, hfinal, hreturned⟩ := Option.bind_eq_some_iff.1 heq
    cases hreturned
    change some (Status.ok, some (m.plain.withEntries (m.plain.entries ++
      [prepared.getD (source.entryAfter env map.plain m.plain)])), world') =
      some (Status.ok, some final.plain, world')
    rw [insertBucket_plain hfinal, entryAfter_plain]
    rfl

theorem setEntry_plain (world : World) (h : Inv env map) (hlaw : Lawful env map.config map.keySize)
    (created : Bool) (hcreated : created = true → map.entries = []) (hs : source.Legal map) :
    (setEntry env world map created source).map bare =
      Plain.setEntry env world map.plain created source := by
  obtain ⟨status, map', world', heq⟩ : ∃ status map' world',
      setEntry env world map created source = some (status, map', world') := by
    obtain ⟨status, map', world', heq, -⟩ := setEntry_cases h hlaw created hcreated hs
    exact ⟨status, map', world', heq⟩
  rw [heq]
  unfold setEntry at heq
  unfold Plain.setEntry
  dsimp only at heq ⊢
  have hkeySize : map.plain.keySize = map.keySize := rfl
  rw [read_plain, hkeySize, entryAlias_plain, prepareEntry_plain]
  change _ = if (!keyValid env map.config (source.read map map.keySize)) = true then _ else _
  by_cases hkey : keyValid env map.config (source.read map map.keySize) = true
  swap
  · have hbad : (!keyValid env map.config (source.read map map.keySize)) = true :=
      by simpa using hkey
    rw [if_pos hbad] at heq ⊢
    cases heq
    rfl
  have hgood : ¬(!keyValid env map.config (source.read map map.keySize)) = true := by simp [hkey]
  rw [if_neg hgood] at heq ⊢
  have hread : KeyOk env map.config map.keySize (source.read map map.keySize) :=
    ⟨hs.length_read h (keySize_pos h.layout).2, hkey⟩
  obtain ⟨found, hfound, hindex⟩ : ∃ found,
      findBucket env map (source.read map map.keySize) = some found ∧
      (∀ b, found = some b → ∃ i, Plain.find env map.plain (source.read map map.keySize) = some i ∧
        map.cell b = some i) ∧
      (found = none → Plain.find env map.plain (source.read map map.keySize) = none) := by
    obtain ⟨i, b, -, hfind, hb, -, hcell, -⟩ | ⟨hfind, hb⟩ := find_cases h hlaw hread
    · refine ⟨some b, hb, fun b' heq => ?_, fun hnone => by cases hnone⟩
      cases heq
      exact ⟨i, hfind, hcell⟩
    · exact ⟨none, hb, (fun b hsome => by cases hsome), fun _ => hfind⟩
  rw [hfound, Option.bind_eq_bind, Option.bind_some] at heq
  by_cases halias : entryAlias map source < 0
  · rw [if_pos halias] at heq ⊢
    cases heq
    rfl
  rw [if_neg halias] at heq ⊢
  rcases hprep : prepareEntry env world map source (entryAlias map source)
    with ⟨status₁, prepared, w₁⟩
  rw [hprep] at heq
  cases status₁ with
  | ok =>
    dsimp only at heq ⊢
    cases found with
    | some b =>
      obtain ⟨i, hfind, hcell⟩ := hindex.1 b rfl
      rw [hfind]
      rw [← Option.some.inj heq]
      exact congrArg some (replace_plain env w₁ source prepared hcell)
    | none =>
      rw [hindex.2 rfl]
      exact (append_plain w₁ h created heq).symm
  | _ =>
    dsimp only at heq ⊢
    cases heq
    rfl

theorem initRaw_plain (env : Env) (world : World) (map : Option LorMap) (entrySize keySize : ℕ)
    (config : Config) :
    initRaw env world (map.map LorMap.plain) entrySize keySize config =
      bare (initRaw env world map entrySize keySize config) := by
  unfold initRaw
  rw [Option.isSome_map]
  split_ifs
  · rfl
  · have hheader := allocateHeader_plain env world entrySize keySize config
    rcases hallocated : allocateHeader env world entrySize keySize config with ⟨header, world'⟩
    rw [hallocated] at hheader
    cases header with
    | none => rfl
    | some header => exact congrArg (fun map => (Status.ok, map, world')) hheader.symm

theorem matchesLayout_plain (map : Option LorMap) (entrySize keySize : ℕ) :
    matchesLayout (map.map LorMap.plain) entrySize keySize =
      matchesLayout map entrySize keySize := by
  cases map <;> rfl

theorem Plain.set_mismatch (world : World) {map : Option LorMap} {entrySize keySize : ℕ}
    (h : matchesLayout map entrySize keySize = false) :
    Plain.set env world map entrySize keySize source = some (.invalidArgument, map, world) := by
  cases source <;> simp [Plain.set, h]

theorem Plain.set_some (world : World) {entrySize keySize : ℕ} (hnull : source ≠ .null)
    (h : matchesLayout (some map) entrySize keySize = true) :
    Plain.set env world (some map) entrySize keySize source =
      Plain.setEntry env world map false source := by
  cases source with
  | null => exact absurd rfl hnull
  | outside address memory => simp only [Plain.set, h, Bool.not_true, Bool.false_eq_true, if_false]
  | inside offset => simp only [Plain.set, h, Bool.not_true, Bool.false_eq_true, if_false]

theorem Plain.set_failed {entrySize keySize : ℕ} {status : Status} {world' : World}
    (hnull : source ≠ .null) (h : matchesLayout none entrySize keySize = true)
    (hinit : initRaw env world none entrySize keySize configBytes = (status, none, world'))
    (hstatus : status ≠ .ok) :
    Plain.set env world none entrySize keySize source = some (status, none, world') := by
  cases source with
  | null => exact absurd rfl hnull
  | outside address memory =>
    simp only [Plain.set, h, hinit, Bool.not_true, Bool.false_eq_true, if_false]
  | inside offset =>
    simp only [Plain.set, h, hinit, Bool.not_true, Bool.false_eq_true, if_false]

theorem Plain.set_fresh {entrySize keySize : ℕ} {header : LorMap} {world' : World}
    (hnull : source ≠ .null) (h : matchesLayout none entrySize keySize = true)
    (hinit : initRaw env world none entrySize keySize configBytes = (.ok, some header, world')) :
    Plain.set env world none entrySize keySize source =
      Plain.setEntry env world' header true source := by
  cases source with
  | null => exact absurd rfl hnull
  | outside address memory =>
    simp only [Plain.set, h, hinit, Bool.not_true, Bool.false_eq_true, if_false]
  | inside offset => simp only [Plain.set, h, hinit, Bool.not_true, Bool.false_eq_true, if_false]

theorem set_plain (world : World) {map : Option LorMap} (h : Sound env map) {entrySize : ℕ}
    (keySize : ℕ) (hs : source.Valid map entrySize) :
    (setRaw env world map entrySize keySize source).map bare =
      Plain.set env world (map.map LorMap.plain) entrySize keySize source := by
  by_cases hnull : source = .null
  · subst hnull
    rfl
  have hmatch := matchesLayout_plain map entrySize keySize
  cases hlayout : matchesLayout map entrySize keySize with
  | false =>
    rw [setRaw_mismatch world hlayout, Plain.set_mismatch world (hmatch.trans hlayout)]
    rfl
  | true =>
    cases map with
    | some m =>
      obtain ⟨hsize, -⟩ := matchesLayout_some hlayout
      obtain ⟨hinv, hlaw⟩ := h m rfl
      have hlegal : source.Legal m := by
        rw [Source.Legal, hsize]
        exact hs.readable hnull
      rw [setRaw_some world hnull hlayout]
      refine (setEntry_plain world hinv hlaw false (by simp) hlegal).trans ?_
      exact (Plain.set_some world hnull (hmatch.trans hlayout)).symm
    | none =>
      rw [setRaw_none world hnull hlayout]
      obtain ⟨status, handle, w₁, hinit, -,
        ⟨hstatus, rfl⟩ | ⟨rfl, -, hvalid, -, header, rfl, hfresh⟩⟩ :=
        initRaw_cases env world none entrySize keySize configBytes
      · rw [hinit]
        refine Eq.trans ?_ (Plain.set_failed hnull hlayout hinit hstatus).symm
        cases status <;> rfl
      · rw [hinit]
        have hplain : header.plain = header := by
          change header.withBuckets [] = header
          rw [← hfresh.buckets]
          rfl
        have hlegal : source.Legal header := hs.readable_of_none hnull header header.entrySize
        have hlaw : Lawful env header.config header.keySize := by
          rw [hfresh.config]
          exact lawful_configBytes env header.keySize
        refine (setEntry_plain w₁ (hfresh.inv hvalid rfl) hlaw true (fun _ => hfresh.entries)
          hlegal).trans ?_
        rw [hplain]
        exact (Plain.set_fresh hnull hlayout hinit).symm

/-- A key that no lookup will look for. -/
theorem not_sought_plain {entrySize keySize : ℕ} (h : ¬Sought env map entrySize keySize source) :
    Plain.findRaw env (some map) entrySize keySize source = none ∧
      ∀ world, Plain.remove env world (some map) entrySize keySize source =
        (false, some map, world) := by
  by_cases hnull : source = .null
  · subst hnull
    exact ⟨rfl, fun _ => rfl⟩
  cases hlayout : matchesLayout (some map) entrySize keySize with
  | false => cases source <;> simp [Plain.remove, Plain.findRaw, hlayout]
  | true =>
    have hvalid : keyValid env map.config (source.read map map.keySize) = false := by
      by_contra hvalid
      exact h ⟨hlayout, hnull, by simpa using hvalid⟩
    cases source <;> simp [Plain.remove, Plain.findRaw, hlayout, hvalid]

theorem findRaw_sought {entrySize keySize : ℕ} (h : Sought env map entrySize keySize source) :
    Plain.findRaw env (some map) entrySize keySize source =
      Plain.find env map (source.read map map.keySize) := by
  cases source with
  | null => exact absurd rfl h.ne_null
  | outside address memory =>
    exact (if_neg (by simp [h.layout])).trans (if_neg (by simp [h.valid]))
  | inside offset => exact (if_neg (by simp [h.layout])).trans (if_neg (by simp [h.valid]))

theorem remove_absent (world : World) {entrySize keySize : ℕ}
    (h : Sought env map entrySize keySize source)
    (hfind : Plain.find env map (source.read map map.keySize) = none) :
    Plain.remove env world (some map) entrySize keySize source = (false, some map, world) := by
  cases source with
  | null => exact absurd rfl h.ne_null
  | outside address memory =>
    simp only [Plain.remove, h.layout, h.valid, hfind, Bool.not_true, Bool.false_eq_true, if_false]
  | inside offset =>
    simp only [Plain.remove, h.layout, h.valid, hfind, Bool.not_true, Bool.false_eq_true, if_false]

theorem remove_present (world : World) {entrySize keySize i : ℕ}
    (h : Sought env map entrySize keySize source)
    (hfind : Plain.find env map (source.read map map.keySize) = some i) :
    Plain.remove env world (some map) entrySize keySize source =
      (true, some (map.withEntries (swapRemove map.entries i)),
        (if map.config.drop.isSome then dropEntry env world map i else (map, world)).2) := by
  cases source with
  | null => exact absurd rfl h.ne_null
  | outside address memory =>
    simp only [Plain.remove, h.layout, h.valid, hfind, Bool.not_true, Bool.false_eq_true, if_false]
  | inside offset =>
    simp only [Plain.remove, h.layout, h.valid, hfind, Bool.not_true, Bool.false_eq_true, if_false]

theorem sought_plain {entrySize keySize : ℕ} :
    Sought env map.plain entrySize keySize source ↔ Sought env map entrySize keySize source := by
  constructor <;> intro h <;> refine ⟨h.layout, h.ne_null, ?_⟩
  · have hvalid := h.valid
    rwa [read_plain] at hvalid
  · rw [read_plain]
    exact h.valid

theorem remove_plain (world : World) {map : Option LorMap} (h : Sound env map) (entrySize : ℕ)
    {keySize : ℕ} (hs : source.Valid map keySize) :
    (removeRaw env world map entrySize keySize source).map bare =
      some (Plain.remove env world (map.map LorMap.plain) entrySize keySize source) := by
  cases map with
  | none => rfl
  | some m =>
    obtain ⟨hinv, hlaw⟩ := h m rfl
    change _ = some (Plain.remove env world (some m.plain) entrySize keySize source)
    by_cases hsought : Sought env m entrySize keySize source
    swap
    · rw [removeRaw_of_not_sought world hsought,
        (not_sought_plain (mt sought_plain.1 hsought)).2]
      rfl
    have hplain := sought_plain.2 hsought
    have hread := read_plain source m m.keySize
    rw [removeRaw_of_sought world hsought]
    obtain ⟨i, b, old, hfind, hbucket, hb, hcell, hold⟩ | ⟨hfind, hbucket⟩ :=
      find_cases hinv hlaw (hsought.keyOk hinv hs)
    · obtain ⟨moved, hremove, -, hresized⟩ := removeEntry_spec world hinv hlaw hb hcell hold
      obtain ⟨hbase, hcapacity⟩ := removeEntry_frame hremove
      rw [hbucket, remove_present world hplain (hread.symm ▸ hfind)]
      simp only [Option.bind_eq_bind, Option.bind_some, hremove]
      refine congrArg some (congrArg (Prod.mk true) (Prod.ext (congrArg some ?_) ?_))
      · obtain ⟨base, entries, capacity, entrySize', keySize', buckets, config⟩ := moved
        obtain ⟨hentries, hconfig, hentrySize, hkeySize, -⟩ := hresized
        dsimp only at hbase hcapacity hentries hconfig hentrySize hkeySize
        rw [hbase, hcapacity, hentries, hconfig, hentrySize, hkeySize]
        rfl
      · change (world.drop env m.config old.key (m.resources.eraseIdx i)).2 =
          (if m.config.drop.isSome = true then dropEntry env world m.plain i
            else (m.plain, world)).2
        split_ifs with hdrop
        · rw [dropEntry_plain, dropEntry_eq m world hold]
        · rw [drop_of_none (Option.not_isSome_iff_eq_none.1 hdrop)]
    · rw [hbucket, remove_absent world hplain (hread.symm ▸ hfind)]
      rfl

theorem findRaw_not_sought {entrySize keySize : ℕ} (h : ¬Sought env map entrySize keySize source) :
    Map.findRaw env (some map) entrySize keySize source = some none := by
  by_cases hnull : source = .null
  · subst hnull
    rfl
  cases hlayout : matchesLayout (some map) entrySize keySize with
  | false => cases source <;> simp [Map.findRaw, hlayout]
  | true =>
    have hvalid : keyValid env map.config (source.read map map.keySize) = false := by
      by_contra hvalid
      exact h ⟨hlayout, hnull, by simpa using hvalid⟩
    cases source <;> simp [Map.findRaw, hlayout, hvalid]

theorem findRaw_plain {map : Option LorMap} (h : Sound env map) (entrySize : ℕ) {keySize : ℕ}
    (hs : source.Valid map keySize) :
    findRaw env map entrySize keySize source =
      some (Plain.findRaw env (map.map LorMap.plain) entrySize keySize source) := by
  cases map with
  | none => rfl
  | some m =>
    obtain ⟨hinv, hlaw⟩ := h m rfl
    change _ = some (Plain.findRaw env (some m.plain) entrySize keySize source)
    by_cases hsought : Sought env m entrySize keySize source
    swap
    · rw [(not_sought_plain (mt sought_plain.1 hsought)).1, findRaw_not_sought hsought]
    rw [findRaw_of_sought hsought, findRaw_sought (sought_plain.2 hsought), read_plain]
    obtain ⟨i, b, old, hfind, hbucket, hb, hcell, hold⟩ | ⟨hfind, hbucket⟩ :=
      find_cases hinv hlaw (hsought.keyOk hinv hs)
    · rw [hbucket]
      change some (some (m.bucket b - 1)) =
        some (Plain.find env m (source.read m m.keySize))
      rw [hfind, cell_eq_some.1 hcell]
      rfl
    · rw [hbucket]
      exact congrArg some hfind.symm

theorem clear_plain (env : Env) (world : World) (map : Option LorMap) :
    Plain.clear env world (map.map LorMap.plain) =
      ((clear env world map).1.map LorMap.plain, (clear env world map).2) := by
  cases map with
  | none => rfl
  | some map =>
    change Plain.clear env world (some map.plain) = _
    unfold Plain.clear clear
    by_cases hdrop : map.config.drop.isSome = true
    · have hdrop' : map.plain.config.drop.isSome = true := hdrop
      simp only [if_pos hdrop, if_pos hdrop', Option.map_some]
      rw [clearLoop_plain]
      rfl
    · have hdrop' : ¬map.plain.config.drop.isSome = true := hdrop
      simp only [if_neg hdrop, if_neg hdrop', Option.map_some]
      rfl

/-- A call on the hash map is the call on the plain array. -/
theorem step_plain {s : State} (h : Sound env s.map) (op : Op) (hop : op.Legal env s.map) :
    (step env s op).map (fun (result, s') => (result, s'.plain)) = Plain.step env s.plain op := by
  cases op with
  | init entrySize keySize config =>
    unfold step Plain.step
    change _ = some (
      let returned := initRaw env s.world (s.map.map LorMap.plain) entrySize keySize config
      (Result.status returned.1, State.mk returned.2.1 returned.2.2))
    rw [initRaw_plain]
    rfl
  | reserve entrySize keySize required =>
    have hreserve := reserve_plain s.world s.map entrySize keySize required fun m hm => (h m hm).1
    change (Option.map _ (reserveRaw env s.world s.map entrySize keySize required)).map _ =
      Option.map _ (Plain.reserve env s.world (s.map.map LorMap.plain) entrySize keySize required)
    rw [← hreserve, Option.map_map, Option.map_map]
    rfl
  | set entrySize keySize entry =>
    have hset := set_plain s.world h keySize hop
    change (Option.map _ (setRaw env s.world s.map entrySize keySize entry)).map _ =
      Option.map _ (Plain.set env s.world (s.map.map LorMap.plain) entrySize keySize entry)
    rw [← hset, Option.map_map, Option.map_map]
    rfl
  | remove entrySize keySize key =>
    have hremove := remove_plain s.world h entrySize hop
    refine Eq.trans ?_ (congrArg (Option.map fun returned : Bool × Option LorMap × World =>
      (Result.removed returned.1, State.mk returned.2.1 returned.2.2)) hremove)
    change (Option.map _ (removeRaw env s.world s.map entrySize keySize key)).map _ = _
    rw [Option.map_map, Option.map_map]
    rfl
  | clear =>
    unfold step Plain.step
    change _ = some (let returned := Plain.clear env s.world (s.map.map LorMap.plain)
      (Result.done, State.mk returned.1 returned.2))
    rw [clear_plain]
    rfl
  | deinit =>
    change _ =
      some (Result.done, State.mk none (Plain.clear env s.world (s.map.map LorMap.plain)).2)
    rw [clear_plain]
    rfl

end Liblor.Map
