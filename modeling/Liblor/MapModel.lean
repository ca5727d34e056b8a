import Liblor.Machine

/-!
# The hash map of `map.c`

A map handle is `NULL` or points behind a header to the dense entries. The record `LorMap` holds the
header and the entries together; `none : Option LorMap` is the `NULL` handle. The bucket index
stores dense indices plus one, zero meaning empty.

Every function that probes the index has its result under an `Option` whose `none` means that the
loop of the source did not stop within one round of the table.
-/

namespace Liblor.Map

/-- Address of a callback. Function pointers are compared and called, never inspected. -/
abbrev FnPtr := ℕ

structure Config where
  hash : Option FnPtr
  equal : Option FnPtr
  keyValid : Option FnPtr
  clone : Option FnPtr
  drop : Option FnPtr
  context : ℕ
  deriving DecidableEq, Repr

/-- What the callbacks at each address do and what the allocator answers. A callback gets its
context and the bytes of the keys it is called on. `clone` also gets the number of the call, so that
any call may fail or produce any bytes; `drop` yields the bytes it leaves in the slot. `malloc`
answers the allocation requests of a run in order, given their sizes, with an address or `NULL`, and
`freed` is what a read through a pointer into released memory yields. -/
structure Env where
  hash : FnPtr → ℕ → Bytes → UInt64
  equal : FnPtr → ℕ → Bytes → Bytes → Bool
  keyValid : FnPtr → ℕ → Bytes → Bool
  clone : FnPtr → ℕ → ℕ → Bytes → Status × Bytes
  drop : FnPtr → ℕ → Bytes → Bytes
  malloc : ℕ → ℕ → Option ℕ
  freed : ℕ → UInt8

/-- A key object: its bytes and the resource that a successful `clone` put into it. A bitwise copy
of the key copies both. -/
structure Key where
  bytes : Bytes
  resource : Option ℕ
  deriving DecidableEq, Repr

/-- An entry object: the key at its start and the remaining bytes. -/
structure Entry where
  key : Key
  value : Bytes
  deriving DecidableEq, Repr

/-- `LorMapHeader` and the entries behind it: `base` is the address of the first entry and
`entries` are the initialized ones, so that `header->values.size` is their number. -/
structure LorMap where
  base : ℕ
  entries : List Entry
  capacity : ℕ
  entrySize : ℕ
  keySize : ℕ
  buckets : List ℕ
  config : Config
  deriving DecidableEq, Repr

/-- A call of `drop`: the resource in the key it was given and those in the other dense slots of the
map at that moment. -/
structure DropCall where
  resource : Option ℕ
  others : List (Option ℕ)
  deriving DecidableEq, Repr

/-- What the run has done so far outside the maps: allocator and `clone` calls made, resources
created (numbered from zero), and the `drop` calls, latest first. -/
structure World where
  mallocs : ℕ
  clones : ℕ
  resources : ℕ
  drops : List DropCall
  deriving DecidableEq, Repr

/-- A pointer argument: `NULL`, a pointer to memory outside the map, or a pointer at a byte offset
into the map's own dense entries. -/
inductive Source where
  | null
  | outside (address : ℕ) (memory : ℕ → UInt8)
  | inside (offset : ℕ)

def headerSize : ℕ := 96

/-! ## Key callbacks -/

def hashBytes (bytes : Bytes) : UInt64 :=
  bytes.foldl (fun hash byte => (hash ^^^ byte.toUInt64) * 1099511628211) 14695981039346656037

def configBytes : Config := ⟨none, none, none, none, none, 0⟩

def getConfig : Option LorMap → Config
  | some map => map.config
  | none => configBytes

def configValid (config : Config) : Bool :=
  config.hash.isNone == config.equal.isNone && config.clone.isNone == config.drop.isNone

def layoutValid (entrySize keySize : ℕ) : Bool := keySize != 0 && decide (keySize ≤ entrySize)

def matchesLayout (map : Option LorMap) (entrySize keySize : ℕ) : Bool :=
  layoutValid entrySize keySize &&
    match map with
    | none => true
    | some map => map.entrySize == entrySize && map.keySize == keySize

def hash (env : Env) (config : Config) (key : Bytes) : UInt64 :=
  match config.hash with
  | some f => env.hash f config.context key
  | none => hashBytes key

def equal (env : Env) (config : Config) (a b : Bytes) : Bool :=
  match config.equal with
  | some f => env.equal f config.context a b
  | none => a == b

def keyValid (env : Env) (config : Config) (key : Bytes) : Bool :=
  match config.keyValid with
  | some f => env.keyValid f config.context key
  | none => true

/-! ## Memory -/

namespace Entry

def bytes (entry : Entry) : Bytes := entry.key.bytes ++ entry.value

def ofBytes (keySize : ℕ) (resource : Option ℕ) (bytes : Bytes) : Entry :=
  ⟨⟨bytes.take keySize, resource⟩, bytes.drop keySize⟩

end Entry

namespace World

-- A block lies inside the address space; an answer that does not is no block.
def malloc (world : World) (env : Env) (size : ℕ) : Option ℕ × World :=
  ((env.malloc world.mallocs size).filter (fun address => decide (address + size ≤ uintptrMax)),
    { world with mallocs := world.mallocs + 1 })

def clone (world : World) (env : Env) (f : FnPtr) (context : ℕ) (source : Bytes) :
    Status × Key × World :=
  let result := env.clone f context world.clones source
  if result.1 = .ok then
    (.ok, ⟨result.2, some world.resources⟩,
      { world with clones := world.clones + 1, resources := world.resources + 1 })
  else (result.1, ⟨result.2, none⟩, { world with clones := world.clones + 1 })

def drop (world : World) (env : Env) (config : Config) (key : Key)
    (others : List (Option ℕ)) : Key × World :=
  match config.drop with
  | some f => (⟨env.drop f config.context key.bytes, key.resource⟩,
      { world with drops := ⟨key.resource, others⟩ :: world.drops })
  | none => (key, world)

end World

namespace LorMap

def size (map : LorMap) : ℕ := map.entries.length

def bucketCapacity (map : LorMap) : ℕ := map.buckets.length

def withEntries (map : LorMap) (entries : List Entry) : LorMap := { map with entries }

def withBuckets (map : LorMap) (buckets : List ℕ) : LorMap := { map with buckets }

/-- The bytes `[0, size * entry_size)` behind the header. -/
def image (map : LorMap) : Bytes := (map.entries.map Entry.bytes).flatten

def keyAt (map : LorMap) (index : ℕ) : Bytes :=
  match map.entries[index]? with
  | some entry => entry.key.bytes
  | none => []

def bucket (map : LorMap) (i : ℕ) : ℕ := map.buckets.getD i 0

/-- The resources in the dense slots. -/
def resources (map : LorMap) : List (Option ℕ) := map.entries.map fun entry => entry.key.resource

end LorMap

def size : Option LorMap → ℕ
  | some map => map.size
  | none => 0

def capacity : Option LorMap → ℕ
  | some map => map.capacity
  | none => 0

namespace Source

def address (source : Source) (map : LorMap) : ℕ :=
  match source with
  | null => 0
  | outside address _ => address
  | inside offset => map.base + offset

def read (source : Source) (map : LorMap) (count : ℕ) : Bytes :=
  match source with
  | null => []
  | outside _ memory => (List.range count).map memory
  | inside offset => (map.image.drop offset).take count

def entry (source : Source) (map : LorMap) : Entry :=
  let resource := match source with
    | inside offset =>
      if offset % map.entrySize = 0 then
        (map.entries[offset / map.entrySize]?).bind (fun entry => entry.key.resource)
      else none
    | _ => none
  Entry.ofBytes map.keySize resource (source.read map map.entrySize)

/-- The same copy made after `map` may have moved to `moved`: a pointer into the old storage is
then dangling unless the storage stayed where it was. -/
def entryAfter (source : Source) (env : Env) (map moved : LorMap) : Entry :=
  match source with
  | inside offset =>
    if moved.base = map.base then (inside offset).entry moved
    else Entry.ofBytes map.keySize none ((List.range map.entrySize).map env.freed)
  | other => other.entry moved

end Source

/-! ## The bucket index -/

def bucketFor (map : LorMap) (hash : UInt64) : ℕ := hash.toNat &&& (map.bucketCapacity - 1)

def findBucketLoop (env : Env) (map : LorMap) (key : Bytes) (mask : ℕ) :
    ℕ → ℕ → Option (Option ℕ)
  | 0, _ => none
  | fuel + 1, bucket =>
    let stored := map.bucket bucket
    if stored = 0 then some none
    else if equal env map.config (map.keyAt (stored - 1)) key then some (some bucket)
    else findBucketLoop env map key mask fuel ((bucket + 1) &&& mask)

-- The inner `none` is the `SIZE_MAX` of a key that is not stored.
def findBucket (env : Env) (map : LorMap) (key : Bytes) : Option (Option ℕ) :=
  if map.bucketCapacity = 0 then some none
  else findBucketLoop env map key (map.bucketCapacity - 1) map.bucketCapacity
    (bucketFor map (hash env map.config key))

def insertBucketLoop (map : LorMap) (mask : ℕ) : ℕ → ℕ → Option ℕ
  | 0, _ => none
  | fuel + 1, bucket =>
    if map.bucket bucket ≠ 0 then insertBucketLoop map mask fuel ((bucket + 1) &&& mask)
    else some bucket

def insertBucket (env : Env) (map : LorMap) (index : ℕ) : Option LorMap :=
  (insertBucketLoop map (map.bucketCapacity - 1) map.bucketCapacity
    (bucketFor map (hash env map.config (map.keyAt index)))).map fun bucket =>
      map.withBuckets (map.buckets.set bucket (index + 1))

def fillBuckets (env : Env) (map : LorMap) (bucketCapacity : ℕ) : Option LorMap :=
  (List.range map.size).foldlM (insertBucket env)
    (map.withBuckets (List.replicate bucketCapacity 0))

def probeDistance (ideal actual mask : ℕ) : ℕ := (actual + (sizeMax + 1) - ideal) &&& mask

def eraseBucketLoop (env : Env) (mask : ℕ) : ℕ → LorMap → ℕ → ℕ → Option LorMap
  | 0, _, _, _ => none
  | fuel + 1, map, hole, next =>
    let stored := map.bucket next
    if stored ≠ 0 then
      let ideal := bucketFor map (hash env map.config (map.keyAt (stored - 1)))
      if probeDistance ideal next mask > probeDistance ideal hole mask then
        eraseBucketLoop env mask fuel (map.withBuckets (map.buckets.set hole stored)) next
          ((next + 1) &&& mask)
      else eraseBucketLoop env mask fuel map hole ((next + 1) &&& mask)
    else some (map.withBuckets (map.buckets.set hole 0))

def eraseBucket (env : Env) (map : LorMap) (bucket : ℕ) : Option LorMap :=
  let mask := map.bucketCapacity - 1
  eraseBucketLoop env mask map.bucketCapacity map bucket ((bucket + 1) &&& mask)

/-! ## Capacities -/

def entryCapacityLoop (required : ℕ) : ℕ → ℕ → Option ℕ
  | 0, _ => none
  | fuel + 1, result =>
    if result < required then
      if result > sizeMax / 2 then some required else entryCapacityLoop required fuel (result * 2)
    else some result

-- A doubling from eight leaves `size_t` within 64 rounds.
def entryCapacity (current required : ℕ) : Option ℕ :=
  entryCapacityLoop required 64 (if current < 8 then 8 else current)

def bucketCapacityLoop (required : ℕ) : ℕ → ℕ → Option (Status × ℕ)
  | 0, _ => none
  | fuel + 1, result =>
    if result < required then
      if result > sizeMax / 2 then some (.overflow, 0)
      else bucketCapacityLoop required fuel (result * 2)
    else some (.ok, result)

def bucketCapacity (requiredEntries : ℕ) : Option (Status × ℕ) :=
  if requiredEntries = 0 then some (.ok, 0)
  else if requiredEntries > sizeMax / 4 then some (.overflow, 0)
  else bucketCapacityLoop (requiredEntries + requiredEntries / 3 + 1) 64 8

/-! ## Operations -/

def allocateHeader (env : Env) (world : World) (entrySize keySize : ℕ) (config : Config) :
    Option LorMap × World :=
  match world.malloc env headerSize with
  | (none, world) => (none, world)
  | (some address, world) =>
    (some ⟨address + headerSize, [], 0, entrySize, keySize, [], config⟩, world)

def initRaw (env : Env) (world : World) (map : Option LorMap) (entrySize keySize : ℕ)
    (config : Config) : Status × Option LorMap × World :=
  if map.isSome || !layoutValid entrySize keySize || !configValid config then
    (.invalidArgument, map, world)
  else
    match allocateHeader env world entrySize keySize config with
    | (none, world) => (.outOfMemory, map, world)
    | (some header, world) => (.ok, some header, world)

def reserveHeader (env : Env) (world : World) (map : Option LorMap) (entrySize keySize : ℕ) :
    Option LorMap × World :=
  match map with
  | some header => (some header, world)
  | none => allocateHeader env world entrySize keySize configBytes

def reserveRaw (env : Env) (world : World) (map : Option LorMap)
    (entrySize keySize required : ℕ) : Option (Status × Option LorMap × World) :=
  if !matchesLayout map entrySize keySize then some (.invalidArgument, map, world)
  else if required ≤ capacity map then some (.ok, map, world)
  else do
    let newCapacity ← entryCapacity (capacity map) required
    if newCapacity > (sizeMax - headerSize) / entrySize then return (.overflow, map, world)
    let (status, newBucketCapacity) ← bucketCapacity newCapacity
    if status ≠ .ok then return (status, map, world)
    if newBucketCapacity > sizeMax / 8 then return (.overflow, map, world)
    match world.malloc env (newBucketCapacity * 8) with
    | (none, world) => return (.outOfMemory, map, world)
    | (some _, world) =>
      match reserveHeader env world map entrySize keySize with
      | (none, world) => return (.outOfMemory, map, world)
      | (some header, world) =>
        match world.malloc env (headerSize + newCapacity * entrySize) with
        | (none, world) => return (.outOfMemory, map, world)
        | (some address, world) =>
          let moved ← fillBuckets env
            { header with base := address + headerSize, capacity := newCapacity } newBucketCapacity
          return (.ok, some moved, world)

/-- `lor_map__entry_alias`: `1` for an entry inside the initialized ones, `0` for one outside, and
`-1` for one that straddles their end. -/
def entryAlias (map : LorMap) (entry : Source) : ℤ :=
  match entry with
  | .null => 0
  | entry =>
    if map.size > sizeMax / map.entrySize then -1
    else
      let initializedBytes := map.size * map.entrySize
      let source := entry.address map
      if initializedBytes > uintptrMax - map.base then 0
      else if source < map.base ∨ source > map.base + initializedBytes then 0
      else
        let offset := source - map.base
        if offset > initializedBytes ∨ map.entrySize > initializedBytes - offset then -1 else 1

def prepareEntry (env : Env) (world : World) (map : LorMap) (entry : Source) (aliased : ℤ) :
    Status × Option Entry × World :=
  if map.config.clone.isNone && aliased == 0 then (.ok, none, world)
  else
    match world.malloc env map.entrySize with
    | (none, world) => (.outOfMemory, none, world)
    | (some _, world) =>
      let copy := entry.entry map
      match map.config.clone with
      | none => (.ok, some copy, world)
      | some clone =>
        let (status, key, world) :=
          world.clone env clone map.config.context (entry.read map map.keySize)
        if status ≠ .ok then (status, none, world) else (.ok, some { copy with key }, world)

def dropPrepared (env : Env) (world : World) (map : LorMap) (entry : Option Entry)
    (ownsKey : Bool) : World :=
  match entry with
  | none => world
  | some entry =>
    if ownsKey then (world.drop env map.config entry.key map.resources).2 else world

-- `config.drop` on the key in dense slot `index`.
def dropEntry (env : Env) (world : World) (map : LorMap) (index : ℕ) : LorMap × World :=
  match map.entries[index]? with
  | some entry =>
    let (key, world) := world.drop env map.config entry.key (map.resources.eraseIdx index)
    (map.withEntries (map.entries.set index { entry with key }), world)
  | none => (map, world)

def clearLoop (env : Env) (world : World) (map : LorMap) : List ℕ → LorMap × World
  | [] => (map, world)
  | i :: is =>
    let (map, world) := dropEntry env world map i
    clearLoop env world map is

def clear (env : Env) (world : World) : Option LorMap → Option LorMap × World
  | none => (none, world)
  | some map =>
    let (map, world) := if map.config.drop.isSome
      then clearLoop env world map (List.range map.size) else (map, world)
    (some ((map.withEntries []).withBuckets (List.replicate map.bucketCapacity 0)), world)

def deinit (env : Env) (world : World) (map : Option LorMap) : Option LorMap × World :=
  (none, (clear env world map).2)

/-- The end of `lor_map_set_raw` for a key that is stored in `bucket`. -/
def replaceEntry (env : Env) (world : World) (map : LorMap) (entry : Source)
    (prepared : Option Entry) (bucket : ℕ) : Status × Option LorMap × World :=
  let index := map.bucket bucket - 1
  let (map, world) := if map.config.clone.isSome then dropEntry env world map index
    else (map, world)
  let source := prepared.getD (entry.entry map)
  (.ok, some (map.withEntries (map.entries.set index source)), world)

/-- The end of `lor_map_set_raw` for a key that is not stored. -/
def appendEntry (env : Env) (world : World) (map : LorMap) (created : Bool) (entry : Source)
    (prepared : Option Entry) : Option (Status × Option LorMap × World) :=
  let ownsKey := map.config.clone.isSome
  let fail (status : Status) (world : World) : Status × Option LorMap × World :=
    let world := dropPrepared env world map prepared ownsKey
    if created then (status, deinit env world (some map)) else (status, some map, world)
  if map.size = sizeMax then some (fail .overflow world)
  else do
    let (status, moved, world) ←
      reserveRaw env world (some map) map.entrySize map.keySize (map.size + 1)
    match status, moved with
    | .ok, some moved =>
      let source := prepared.getD (entry.entryAfter env map moved)
      let map ← insertBucket env (moved.withEntries (moved.entries ++ [source])) moved.size
      return (.ok, some map, world)
    | status, _ => return fail status world

/-- `lor_map_set_raw` from the point where the handle is known not to be `NULL`. -/
def setEntry (env : Env) (world : World) (map : LorMap) (created : Bool) (entry : Source) :
    Option (Status × Option LorMap × World) :=
  let key := entry.read map map.keySize
  if !keyValid env map.config key then some (.invalidArgument, some map, world)
  else do
    let bucket ← findBucket env map key
    let aliased := entryAlias map entry
    if aliased < 0 then return (.invalidArgument, some map, world)
    match prepareEntry env world map entry aliased with
    | (.ok, prepared, world) =>
      match bucket with
      | some bucket => return replaceEntry env world map entry prepared bucket
      | none => appendEntry env world map created entry prepared
    | (status, _, world) => return (status, some map, world)

def setRaw (env : Env) (world : World) (map : Option LorMap) (entrySize keySize : ℕ)
    (entry : Source) : Option (Status × Option LorMap × World) :=
  match entry with
  | .null => some (.invalidArgument, map, world)
  | entry =>
    if !matchesLayout map entrySize keySize then some (.invalidArgument, map, world)
    else
      match map with
      | some map => setEntry env world map false entry
      | none =>
        match initRaw env world none entrySize keySize configBytes with
        | (.ok, some map, world) => setEntry env world map true entry
        | (status, map, world) => some (status, map, world)

-- The dense index of the entry that the source returns a pointer to.
def findRaw (env : Env) (map : Option LorMap) (entrySize keySize : ℕ) (key : Source) :
    Option (Option ℕ) :=
  match map, key with
  | none, _ => some none
  | _, .null => some none
  | some map, key =>
    if !matchesLayout (some map) entrySize keySize then some none
    else if !keyValid env map.config (key.read map map.keySize) then some none
    else do
      let bucket ← findBucket env map (key.read map map.keySize)
      return bucket.map fun bucket => map.bucket bucket - 1

def containsRaw (env : Env) (map : Option LorMap) (entrySize keySize : ℕ) (key : Source) :
    Option Bool :=
  (findRaw env map entrySize keySize key).map Option.isSome

/-- Move the last entry to dense slot `index`, whose entry is gone, and shrink the map by one. -/
def fillGap (env : Env) (map : LorMap) (index : ℕ) : Option LorMap :=
  let last := map.size - 1
  match map.entries[last]? with
  | none => some map
  | some lastEntry =>
    if index ≠ last then do
      let map := map.withEntries (map.entries.set index lastEntry)
      let moved ← findBucket env map lastEntry.key.bytes
      let map := match moved with
        | some movedBucket => map.withBuckets (map.buckets.set movedBucket (index + 1))
        | none => map
      return map.withEntries (map.entries.take last)
    else return map.withEntries (map.entries.take last)

/-- The end of `lor_map_remove_raw` for a key that is stored in `bucket`. -/
def removeEntry (env : Env) (world : World) (map : LorMap) (bucket : ℕ) :
    Option (LorMap × World) := do
  let index := map.bucket bucket - 1
  let map ← eraseBucket env map bucket
  let (map, world) := if map.config.drop.isSome then dropEntry env world map index
    else (map, world)
  let map ← fillGap env map index
  return (map, world)

def removeRaw (env : Env) (world : World) (map : Option LorMap) (entrySize keySize : ℕ)
    (key : Source) : Option (Bool × Option LorMap × World) :=
  match map, key with
  | none, _ => some (false, none, world)
  | some map, .null => some (false, some map, world)
  | some map, key =>
    if !matchesLayout (some map) entrySize keySize then some (false, some map, world)
    else if !keyValid env map.config (key.read map map.keySize) then
      some (false, some map, world)
    else do
      match ← findBucket env map (key.read map map.keySize) with
      | none => return (false, some map, world)
      | some bucket =>
        let (map, world) ← removeEntry env world map bucket
        return (true, some map, world)

end Liblor.Map
