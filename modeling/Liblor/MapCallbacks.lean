import Liblor.MapAlias

/-!
# The callbacks that the map calls

For each function of the model that runs callbacks on keys, the list of its calls in order. A
configuration without a callback runs the one built in, which is no call. Where a lookup or a `set`
is made with keys of one kind in a map whose keys are of that kind, all its calls are on such keys.
-/

namespace Liblor.Map

inductive Callback where
  | hash
  | equal
  | keyValid
  | clone
  deriving DecidableEq, Repr

/-- A call of a callback of `config` on keys with these bytes. -/
structure KeyCall where
  callback : Callback
  config : Config
  keys : List Bytes
  deriving DecidableEq, Repr

def hashCalls (config : Config) (key : Bytes) : List KeyCall :=
  if config.hash.isSome then [⟨.hash, config, [key]⟩] else []

def equalCalls (config : Config) (a b : Bytes) : List KeyCall :=
  if config.equal.isSome then [⟨.equal, config, [a, b]⟩] else []

def keyValidCalls (config : Config) (key : Bytes) : List KeyCall :=
  if config.keyValid.isSome then [⟨.keyValid, config, [key]⟩] else []

def cloneCalls (config : Config) (key : Bytes) : List KeyCall :=
  if config.clone.isSome then [⟨.clone, config, [key]⟩] else []

def findBucketLoopCalls (env : Env) (map : LorMap) (key : Bytes) (mask : ℕ) :
    ℕ → ℕ → List KeyCall
  | 0, _ => []
  | fuel + 1, bucket =>
    let stored := map.bucket bucket
    if stored = 0 then []
    else equalCalls map.config (map.keyAt (stored - 1)) key ++
      if equal env map.config (map.keyAt (stored - 1)) key then []
      else findBucketLoopCalls env map key mask fuel ((bucket + 1) &&& mask)

def findBucketCalls (env : Env) (map : LorMap) (key : Bytes) : List KeyCall :=
  if map.bucketCapacity = 0 then []
  else hashCalls map.config key ++
    findBucketLoopCalls env map key (map.bucketCapacity - 1) map.bucketCapacity
      (bucketFor map (hash env map.config key))

def insertBucketCalls (map : LorMap) (index : ℕ) : List KeyCall :=
  hashCalls map.config (map.keyAt index)

def fillBucketsCalls (map : LorMap) : List KeyCall :=
  (List.range map.size).flatMap (insertBucketCalls map)

-- A `reserve` that succeeds beyond the capacity has filled new buckets.
def reserveRawCalls (env : Env) (world : World) (map : Option LorMap)
    (entrySize keySize required : ℕ) : List KeyCall :=
  match reserveRaw env world map entrySize keySize required with
  | some (.ok, some moved, _) =>
    if required ≤ capacity map then [] else fillBucketsCalls moved
  | _ => []

def prepareEntryCalls (env : Env) (world : World) (map : LorMap) (entry : Source) :
    List KeyCall :=
  if (world.malloc env map.entrySize).1.isSome then
    cloneCalls map.config (entry.read map map.keySize)
  else []

def appendEntryCalls (env : Env) (world : World) (map : LorMap) (entry : Source)
    (prepared : Option Entry) : List KeyCall :=
  if map.size = sizeMax then []
  else
    reserveRawCalls env world (some map) map.entrySize map.keySize (map.size + 1) ++
      match reserveRaw env world (some map) map.entrySize map.keySize (map.size + 1) with
      | some (.ok, some moved, _) =>
        let source := prepared.getD (entry.entryAfter env map moved)
        insertBucketCalls (moved.withEntries (moved.entries ++ [source])) moved.size
      | _ => []

def setEntryCalls (env : Env) (world : World) (map : LorMap) (entry : Source) : List KeyCall :=
  let key := entry.read map map.keySize
  keyValidCalls map.config key ++
    if !keyValid env map.config key then []
    else findBucketCalls env map key ++
      if entryAlias map entry < 0 then []
      else prepareEntryCalls env world map entry ++
        match findBucket env map key, prepareEntry env world map entry (entryAlias map entry) with
        | some none, (.ok, prepared, world) => appendEntryCalls env world map entry prepared
        | _, _ => []

def setRawCalls (env : Env) (world : World) (map : Option LorMap) (entrySize keySize : ℕ)
    (entry : Source) : List KeyCall :=
  match entry with
  | .null => []
  | entry =>
    if !matchesLayout map entrySize keySize then []
    else
      match map with
      | some map => setEntryCalls env world map entry
      | none =>
        match initRaw env world none entrySize keySize configBytes with
        | (.ok, some map, world) => setEntryCalls env world map entry
        | _ => []

def findRawCalls (env : Env) (map : Option LorMap) (entrySize keySize : ℕ) (key : Source) :
    List KeyCall :=
  match map, key with
  | none, _ => []
  | _, .null => []
  | some map, key =>
    if !matchesLayout (some map) entrySize keySize then []
    else keyValidCalls map.config (key.read map map.keySize) ++
      if !keyValid env map.config (key.read map map.keySize) then []
      else findBucketCalls env map (key.read map map.keySize)

def containsRawCalls (env : Env) (map : Option LorMap) (entrySize keySize : ℕ) (key : Source) :
    List KeyCall :=
  findRawCalls env map entrySize keySize key

variable {env : Env} {map : LorMap} {world : World} {source : Source} {K : Bytes → Prop}

/-- A call of a callback of `config` on keys in `K`. -/
def Within (config : Config) (K : Bytes → Prop) (call : KeyCall) : Prop :=
  call.config = config ∧ ∀ key ∈ call.keys, K key

section Single

variable {config : Config} {key a b : Bytes}

theorem hashCalls_within (hkey : K key) : ∀ call ∈ hashCalls config key, Within config K call := by
  unfold hashCalls
  split_ifs
  · simp [Within, hkey]
  · simp

theorem equalCalls_within (ha : K a) (hb : K b) :
    ∀ call ∈ equalCalls config a b, Within config K call := by
  unfold equalCalls
  split_ifs
  · simp [Within, ha, hb]
  · simp

theorem keyValidCalls_within (hkey : K key) :
    ∀ call ∈ keyValidCalls config key, Within config K call := by
  unfold keyValidCalls
  split_ifs
  · simp [Within, hkey]
  · simp

theorem cloneCalls_within (hkey : K key) :
    ∀ call ∈ cloneCalls config key, Within config K call := by
  unfold cloneCalls
  split_ifs
  · simp [Within, hkey]
  · simp

end Single

/-! ## Lookups -/

theorem Inv.bucket_le_size (h : Inv env map) (p : ℕ) : map.bucket p ≤ map.size := by
  by_cases hstored : map.bucket p = 0
  · omega
  · have hp : p < map.bucketCapacity := by
      by_contra hp
      apply hstored
      rw [LorMap.bucket, List.getD_eq_default _ _ (not_lt.mp hp)]
    have hcell : map.cell p = some (map.bucket p - 1) :=
      cell_eq_some.mpr (Nat.succ_pred_eq_of_ne_zero hstored).symm
    have hlt := ((h.index (by omega)).holds _).mp ⟨p, hp, hcell⟩
    omega

theorem findBucketLoopCalls_within (h : Inv env map)
    (hkeys : ∀ i < map.size, K (map.keyAt i)) {key : Bytes} (hkey : K key) (mask fuel p : ℕ) :
    ∀ call ∈ findBucketLoopCalls env map key mask fuel p, Within map.config K call := by
  induction fuel generalizing p with
  | zero => simp [findBucketLoopCalls]
  | succ fuel ih =>
      rw [findBucketLoopCalls]
      by_cases hstored : map.bucket p = 0
      · simp [hstored]
      · simp only [if_neg hstored]
        intro call hcall
        rcases List.mem_append.mp hcall with hcall | hcall
        · have hle := h.bucket_le_size p
          exact equalCalls_within (hkeys _ (by omega)) hkey call hcall
        · split_ifs at hcall
          · cases hcall
          · exact ih _ call hcall

theorem findBucketCalls_within (h : Inv env map) (hkeys : ∀ i < map.size, K (map.keyAt i))
    {key : Bytes} (hkey : K key) :
    ∀ call ∈ findBucketCalls env map key, Within map.config K call := by
  unfold findBucketCalls
  split_ifs
  · simp
  · exact List.forall_mem_append.2 ⟨hashCalls_within hkey,
      findBucketLoopCalls_within h hkeys hkey _ _ _⟩

theorem findRawCalls_eq (hnull : source ≠ .null) (entrySize keySize : ℕ) :
    findRawCalls env (some map) entrySize keySize source =
      if !matchesLayout (some map) entrySize keySize then []
      else keyValidCalls map.config (source.read map map.keySize) ++
        if !keyValid env map.config (source.read map map.keySize) then []
        else findBucketCalls env map (source.read map map.keySize) := by
  cases source with
  | null => exact absurd rfl hnull
  | outside address memory => rfl
  | inside offset => rfl

theorem findRawCalls_within (h : Inv env map) (hkeys : ∀ i < map.size, K (map.keyAt i))
    (hnull : source ≠ .null) (hread : K (source.read map map.keySize)) (entrySize keySize : ℕ) :
    ∀ call ∈ findRawCalls env (some map) entrySize keySize source, Within map.config K call := by
  rw [findRawCalls_eq hnull]
  intro call hcall
  split_ifs at hcall
  · cases hcall
  · rw [List.append_nil] at hcall
    exact keyValidCalls_within hread call hcall
  · rcases List.mem_append.mp hcall with hcall | hcall
    · exact keyValidCalls_within hread call hcall
    · exact findBucketCalls_within h hkeys hread call hcall

theorem findBucketCalls_of_entries_nil (h : Inv env map) (hnil : map.entries = []) (key : Bytes) :
    findBucketCalls env map key =
      if map.bucketCapacity = 0 then [] else hashCalls map.config key := by
  have hloop : ∀ mask fuel p, findBucketLoopCalls env map key mask fuel p = [] := by
    intro mask fuel p
    have hle := h.bucket_le_size p
    have hsize : map.size = 0 := by simp [LorMap.size, hnil]
    have hzero : map.bucket p = 0 := by omega
    cases fuel with
    | zero => rfl
    | succ fuel => simp [findBucketLoopCalls, hzero]
  rw [findBucketCalls, hloop, List.append_nil]

theorem fillBucketsCalls_within (hkeys : ∀ i < map.size, K (map.keyAt i)) :
    ∀ call ∈ fillBucketsCalls map, Within map.config K call := by
  intro call hcall
  obtain ⟨i, hi, hcall⟩ := List.mem_flatMap.mp hcall
  exact hashCalls_within (hkeys i (List.mem_range.mp hi)) call hcall

/-! ## Updates -/

theorem keyAt_of_forall (hkeys : ∀ e ∈ map.entries, K e.key.bytes) {i : ℕ} (hi : i < map.size) :
    K (map.keyAt i) := by
  obtain ⟨e, he⟩ := getElem?_of_lt_size hi
  rw [keyAt_of_getElem? he]
  exact hkeys e (List.mem_of_getElem? he)

theorem reserveRaw_resized (h : Inv env map) {entrySize keySize required : ℕ} {moved : LorMap}
    {world' : World} (heq : reserveRaw env world (some map) entrySize keySize required =
      some (.ok, some moved, world')) :
    Resized map moved ∧ Inv env moved ∧ required ≤ moved.capacity := by
  obtain ⟨status, map', w, heq', -, hcase⟩ := reserveRaw_cases world (some map) entrySize keySize
    required (by
      intro m hm
      cases hm
      exact h)
  rw [heq] at heq'
  cases heq'
  obtain ⟨hstatus, -⟩ | ⟨-, hle, hsame⟩ |
    ⟨-, header, m, hm, hinv, hroom, hresized, hheader⟩ := hcase
  · exact absurd rfl hstatus
  · cases hsame
    exact ⟨Resized.refl map, h, hle⟩
  · cases hm
    rcases hheader with hheader | ⟨hheader, -⟩
    · cases hheader
      exact ⟨hresized, hinv, hroom⟩
    · cases hheader

theorem reserveRawCalls_of_entries_nil (h : Inv env map) (hnil : map.entries = [])
    (entrySize keySize required : ℕ) :
    reserveRawCalls env world (some map) entrySize keySize required = [] := by
  unfold reserveRawCalls
  split
  case h_1 moved w heq =>
      obtain ⟨hresized, -⟩ := reserveRaw_resized h heq
      have hsize : moved.size = 0 := by rw [LorMap.size, hresized.entries, hnil, List.length_nil]
      rw [fillBucketsCalls, hsize]
      split_ifs
      · rfl
      · rfl
  case h_2 => rfl

theorem reserveRawCalls_within (h : Inv env map) (hkeys : ∀ e ∈ map.entries, K e.key.bytes)
    (entrySize keySize required : ℕ) :
    ∀ call ∈ reserveRawCalls env world (some map) entrySize keySize required,
      Within map.config K call := by
  unfold reserveRawCalls
  split
  case h_1 moved w heq =>
      obtain ⟨hresized, -⟩ := reserveRaw_resized h heq
      rw [← hresized.entries] at hkeys
      rw [← hresized.config]
      split_ifs
      · simp
      · exact fillBucketsCalls_within (fun i hi => keyAt_of_forall hkeys hi)
  case h_2 => simp

theorem appendEntryCalls_within (h : Inv env map) (hs : source.Legal map)
    (hkeys : ∀ e ∈ map.entries, K e.key.bytes) {prepared : Option Entry} {e : Entry}
    (hprepared : Prepared map source prepared e) (he : K e.key.bytes) :
    ∀ call ∈ appendEntryCalls env world map source prepared, Within map.config K call := by
  unfold appendEntryCalls
  split_ifs
  · simp
  · intro call hcall
    rcases List.mem_append.mp hcall with hcall | hcall
    · exact reserveRawCalls_within h hkeys _ _ _ call hcall
    · split at hcall
      case h_1 moved w heq =>
          obtain ⟨hresized, -⟩ := reserveRaw_resized h heq
          rw [hprepared.getD_entryAfter h hs hresized] at hcall
          rw [insertBucketCalls, keyAt_append_self] at hcall
          rw [← hresized.config]
          exact hashCalls_within he call hcall
      case h_2 => cases hcall

/-- All calls of a `set` are on keys of a kind that has the stored keys, the argument, and what the
clone callback makes of it. -/
theorem setEntryCalls_within (h : Inv env map) (hs : source.Legal map)
    (hkeys : ∀ e ∈ map.entries, K e.key.bytes) (hread : K (source.read map map.keySize))
    (hstored : K (storedKey env world map source)) :
    ∀ call ∈ setEntryCalls env world map source, Within map.config K call := by
  intro call hcall
  rcases List.mem_append.mp hcall with hcall | hcall
  · exact keyValidCalls_within hread call hcall
  · split_ifs at hcall with hvalid halias
    · cases hcall
    · rw [List.append_nil] at hcall
      exact findBucketCalls_within h (fun i hi => keyAt_of_forall hkeys hi) hread call hcall
    · rcases List.mem_append.mp hcall with hcall | hcall
      · exact findBucketCalls_within h (fun i hi => keyAt_of_forall hkeys hi) hread call hcall
      rcases List.mem_append.mp hcall with hcall | hcall
      · unfold prepareEntryCalls at hcall
        split_ifs at hcall
        · exact cloneCalls_within hread call hcall
        · cases hcall
      · split at hcall
        case h_1 prepared w _ hprepare =>
            obtain ⟨e, -, hkey, hprepared⟩ := prepareEntry_stored h hprepare
            rw [← hkey] at hstored
            exact appendEntryCalls_within h hs hkeys hprepared hstored call hcall
        case h_2 => cases hcall

/-! ## The first `set` of an empty map -/

theorem keyValid_of_none {key : Bytes} (hnone : map.config.keyValid = none) :
    keyValid env map.config key = true := by
  rw [keyValid, hnone]

theorem mem_setEntryCalls_keyValid (hsome : map.config.keyValid.isSome = true) :
    ⟨.keyValid, map.config, [source.read map map.keySize]⟩ ∈
      setEntryCalls env world map source := by
  simp [setEntryCalls, keyValidCalls, hsome]

theorem mem_setEntryCalls_hash (hnone : map.config.keyValid = none)
    (hsome : map.config.hash.isSome = true) (hn : map.bucketCapacity ≠ 0) :
    ⟨.hash, map.config, [source.read map map.keySize]⟩ ∈
      setEntryCalls env world map source := by
  simp [setEntryCalls, keyValid_of_none hnone, findBucketCalls, hn, hashCalls, hsome]

theorem mem_setEntryCalls_clone (hnone : map.config.keyValid = none)
    (hsome : map.config.clone.isSome = true) (halias : 0 ≤ entryAlias map source)
    (hmalloc : (world.malloc env map.entrySize).1.isSome = true) :
    ⟨.clone, map.config, [source.read map map.keySize]⟩ ∈
      setEntryCalls env world map source := by
  have halias' : ¬ entryAlias map source < 0 := not_lt.mpr halias
  simp [setEntryCalls, keyValid_of_none hnone, halias', prepareEntryCalls, hmalloc, cloneCalls,
    hsome]

/-- Where only `clone` could be called and the copy for it cannot be made, nothing is. -/
theorem setEntry_silent (h : Inv env map) (hnil : map.entries = [])
    (hvalid : map.config.keyValid = none) (hhash : map.config.hash = none)
    (hclone : map.config.clone.isSome = true) (created : Bool)
    (hfail : 0 ≤ entryAlias map source → (world.malloc env map.entrySize).1 = none) :
    setEntryCalls env world map source = [] ∧
      ∀ handle world', setEntry env world map created source ≠ some (.ok, handle, world') := by
  have hcalls : findBucketCalls env map (source.read map map.keySize) = [] := by
    simp [findBucketCalls_of_entries_nil h hnil, hashCalls, hhash]
  have hok : keyValid env map.config (source.read map map.keySize) = true :=
    keyValid_of_none hvalid
  by_cases halias : entryAlias map source < 0
  · constructor
    · simp [setEntryCalls, keyValidCalls, hvalid, hok, hcalls, halias]
    · intro handle world' heq
      simp only [setEntry, hok, Bool.not_true, Bool.false_eq_true, if_false, if_pos halias] at heq
      obtain ⟨bucket, -, heq⟩ := Option.bind_eq_some_iff.mp heq
      cases heq
  · have hmalloc := hfail (not_lt.mp halias)
    obtain ⟨w, hw⟩ : ∃ w, world.malloc env map.entrySize = (none, w) := ⟨_, Prod.ext hmalloc rfl⟩
    have hprepare : prepareEntry env world map source (entryAlias map source) =
        (.outOfMemory, none, w) := by
      have hdirect : (map.config.clone.isNone && entryAlias map source == 0) = false := by
        rw [Option.isNone_eq_false_iff.mpr hclone, Bool.false_and]
      rw [prepareEntry, hdirect, if_neg Bool.false_ne_true, hw]
    constructor
    · simp [setEntryCalls, keyValidCalls, hvalid, hok, hcalls, halias, prepareEntryCalls, hmalloc,
        hprepare]
    · intro handle world' heq
      simp only [setEntry, hok, Bool.not_true, Bool.false_eq_true, if_false, if_neg halias,
        hprepare] at heq
      obtain ⟨bucket, -, heq⟩ := Option.bind_eq_some_iff.mp heq
      cases heq

end Liblor.Map
