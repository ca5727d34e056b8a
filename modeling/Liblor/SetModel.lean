import Liblor.MapModel

/-!
# The sets of `set.c`

A set is a map whose entries are their keys. The algebra builds its result in a handle of its own
and hands it over at the end.
-/

namespace Liblor.LorSet

open Map

inductive Operation where
  | union
  | intersection
  | difference
  | symmetricDifference
  deriving DecidableEq, Repr

def initRaw (env : Env) (world : World) (set : Option LorMap) (elementSize : ℕ)
    (config : Config) : Status × Option LorMap × World :=
  Map.initRaw env world set elementSize elementSize config

def reserveRaw (env : Env) (world : World) (set : Option LorMap) (elementSize capacity : ℕ) :
    Option (Status × Option LorMap × World) :=
  Map.reserveRaw env world set elementSize elementSize capacity

def addRaw (env : Env) (world : World) (set : Option LorMap) (elementSize : ℕ) (key : Source) :
    Option (Status × Option LorMap × World) :=
  setRaw env world set elementSize elementSize key

def containsRaw (env : Env) (set : Option LorMap) (elementSize : ℕ) (key : Source) :
    Option Bool :=
  Map.containsRaw env set elementSize elementSize key

def layoutValid (set : Option LorMap) (elementSize : ℕ) : Bool :=
  match set with
  | none => true
  | some set => elementSize != 0 && set.entrySize == elementSize && set.keySize == elementSize

def configsCompatible (a b : Config) : Bool :=
  if a.hash != b.hash || a.equal != b.equal || a.keyValid != b.keyValid ||
      a.context != b.context then false
  else a.clone.isNone || b.clone.isNone || a.clone == b.clone && a.drop == b.drop

def nonemptyConfigsCompatible (a b : Option LorMap) : Bool :=
  size a == 0 || size b == 0 || configsCompatible (getConfig a) (getConfig b)

def resultConfig (a b : Option LorMap) : Config :=
  let aConfig := getConfig a
  let bConfig := getConfig b
  if a.isSome && aConfig.clone.isSome then aConfig
  else if b.isSome && bConfig.clone.isSome then bConfig
  else if size a ≠ 0 then getConfig a
  else if size b ≠ 0 then getConfig b
  else if a.isSome then aConfig
  else if b.isSome then bConfig
  else configBytes

/-- The element at `index` in the storage of `set`, a pointer outside any other map. -/
def key (set : Option LorMap) (elementSize index : ℕ) : Source :=
  match set with
  | none => .null
  | some set => .outside (set.base + index * elementSize)
      fun i => set.image.getD (index * elementSize + i) 0

def reserveForOperation (env : Env) (world : World) (result : Option LorMap) (elementSize : ℕ)
    (a b : Option LorMap) (operation : Operation) : Option (Status × Option LorMap × World) :=
  let aSize := size a
  let bSize := size b
  let reserve (capacity : ℕ) : Option (Status × Option LorMap × World) :=
    if capacity ≠ 0 then reserveRaw env world result elementSize capacity
    else some (.ok, result, world)
  match operation with
  | .union | .symmetricDifference =>
    if bSize > sizeMax - aSize then some (.overflow, result, world) else reserve (aSize + bSize)
  | .intersection => reserve (if aSize < bSize then aSize else bSize)
  | .difference => reserve aSize

def addAllLoop (env : Env) (world : World) (result : Option LorMap) (elementSize : ℕ)
    (source : Option LorMap) : List ℕ → Option (Status × Option LorMap × World)
  | [] => some (.ok, result, world)
  | i :: is => do
    let (status, result, world) ← addRaw env world result elementSize (key source elementSize i)
    if status ≠ .ok then return (status, result, world)
    addAllLoop env world result elementSize source is

def addAll (env : Env) (world : World) (result : Option LorMap) (elementSize : ℕ)
    (source : Option LorMap) : Option (Status × Option LorMap × World) :=
  addAllLoop env world result elementSize source (List.range (size source))

/-- Both loops of `lor_set__operation`: add the keys of `source` whose presence in `other` is
`wanted`. -/
def addWhereLoop (env : Env) (world : World) (result : Option LorMap) (elementSize : ℕ)
    (source other : Option LorMap) (wanted : Bool) :
    List ℕ → Option (Status × Option LorMap × World)
  | [] => some (.ok, result, world)
  | i :: is => do
    let key := key source elementSize i
    let inOther ← containsRaw env other elementSize key
    if inOther = wanted then
      let (status, result, world) ← addRaw env world result elementSize key
      if status ≠ .ok then return (status, result, world)
      addWhereLoop env world result elementSize source other wanted is
    else addWhereLoop env world result elementSize source other wanted is

def fill (env : Env) (world : World) (result : Option LorMap) (elementSize : ℕ)
    (a b : Option LorMap) (operation : Operation) : Option (Status × Option LorMap × World) :=
  match operation with
  | .union => do
    let (status, result, world) ← addAll env world result elementSize a
    if status ≠ .ok then return (status, result, world)
    addAll env world result elementSize b
  | operation => do
    let (status, result, world) ← addWhereLoop env world result elementSize a b
      (operation == .intersection) (List.range (size a))
    if status = .ok ∧ operation = .symmetricDifference then
      addWhereLoop env world result elementSize b a false (List.range (size b))
    else return (status, result, world)

/-- `lor_set__operation` with what `result_ref` holds before and after. -/
def operation (env : Env) (world : World) (resultRef : Option LorMap) (elementSize : ℕ)
    (a b : Option LorMap) (operation : Operation) : Option (Status × Option LorMap × World) :=
  if resultRef.isSome || elementSize == 0 || !layoutValid a elementSize ||
      !layoutValid b elementSize || !nonemptyConfigsCompatible a b then
    some (.invalidArgument, resultRef, world)
  else
    let fail (status : Status) (result : Option LorMap) (world : World) :=
      (status, resultRef, (deinit env world result).2)
    match initRaw env world none elementSize (resultConfig a b) with
    | (.ok, result, world) => do
      let (status, result, world) ←
        reserveForOperation env world result elementSize a b operation
      if status ≠ .ok then return fail status result world
      let (status, result, world) ← fill env world result elementSize a b operation
      if status ≠ .ok then return fail status result world
      return (.ok, result, world)
    | (status, _, world) => some (status, resultRef, world)

def unionRaw (env : Env) (world : World) (resultRef : Option LorMap) (elementSize : ℕ)
    (a b : Option LorMap) : Option (Status × Option LorMap × World) :=
  operation env world resultRef elementSize a b .union

def intersectionRaw (env : Env) (world : World) (resultRef : Option LorMap) (elementSize : ℕ)
    (a b : Option LorMap) : Option (Status × Option LorMap × World) :=
  operation env world resultRef elementSize a b .intersection

def differenceRaw (env : Env) (world : World) (resultRef : Option LorMap) (elementSize : ℕ)
    (a b : Option LorMap) : Option (Status × Option LorMap × World) :=
  operation env world resultRef elementSize a b .difference

def symmetricDifferenceRaw (env : Env) (world : World) (resultRef : Option LorMap)
    (elementSize : ℕ) (a b : Option LorMap) : Option (Status × Option LorMap × World) :=
  operation env world resultRef elementSize a b .symmetricDifference

end Liblor.LorSet
