import Liblor.MapCallbacks
import Liblor.SetRelations

/-!
# The callbacks that sets call

For each function of `set.c` the list of the calls that it makes of the callbacks on keys. Looking a
key up in a set of its own kind, and adding it to a result of its kind, calls callbacks on keys that
they are made for.
-/

namespace Liblor.LorSet

open Map Handles

def addRawCalls (env : Env) (world : World) (set : Option LorMap) (elementSize : ℕ)
    (key : Source) : List KeyCall :=
  setRawCalls env world set elementSize elementSize key

def containsRawCalls (env : Env) (set : Option LorMap) (elementSize : ℕ) (key : Source) :
    List KeyCall :=
  Map.containsRawCalls env set elementSize elementSize key

def reserveForOperationCalls (env : Env) (world : World) (result : Option LorMap)
    (elementSize : ℕ) (a b : Option LorMap) (operation : Operation) : List KeyCall :=
  let aSize := size a
  let bSize := size b
  let reserve (capacity : ℕ) : List KeyCall :=
    if capacity ≠ 0 then reserveRawCalls env world result elementSize elementSize capacity else []
  match operation with
  | .union | .symmetricDifference =>
    if bSize > sizeMax - aSize then [] else reserve (aSize + bSize)
  | .intersection => reserve (if aSize < bSize then aSize else bSize)
  | .difference => reserve aSize

def addAllLoopCalls (env : Env) (world : World) (result : Option LorMap) (elementSize : ℕ)
    (source : Option LorMap) : List ℕ → List KeyCall
  | [] => []
  | i :: is =>
    let key := key source elementSize i
    addRawCalls env world result elementSize key ++
      match addRaw env world result elementSize key with
      | some (.ok, result, world) => addAllLoopCalls env world result elementSize source is
      | _ => []

def addWhereLoopCalls (env : Env) (world : World) (result : Option LorMap) (elementSize : ℕ)
    (source other : Option LorMap) (wanted : Bool) : List ℕ → List KeyCall
  | [] => []
  | i :: is =>
    let key := key source elementSize i
    containsRawCalls env other elementSize key ++
      if containsRaw env other elementSize key = some wanted then
        addRawCalls env world result elementSize key ++
          match addRaw env world result elementSize key with
          | some (.ok, result, world) =>
            addWhereLoopCalls env world result elementSize source other wanted is
          | _ => []
      else addWhereLoopCalls env world result elementSize source other wanted is

def fillCalls (env : Env) (world : World) (result : Option LorMap) (elementSize : ℕ)
    (a b : Option LorMap) (operation : Operation) : List KeyCall :=
  match operation with
  | .union =>
    addAllLoopCalls env world result elementSize a (List.range (size a)) ++
      match addAll env world result elementSize a with
      | some (.ok, result, world) =>
        addAllLoopCalls env world result elementSize b (List.range (size b))
      | _ => []
  | operation =>
    addWhereLoopCalls env world result elementSize a b (operation == .intersection)
        (List.range (size a)) ++
      if operation = .symmetricDifference then
        match addWhereLoop env world result elementSize a b false (List.range (size a)) with
        | some (.ok, result, world) =>
          addWhereLoopCalls env world result elementSize b a false (List.range (size b))
        | _ => []
      else []

def operationCalls (env : Env) (world : World) (resultRef : Option LorMap) (elementSize : ℕ)
    (a b : Option LorMap) (operation : Operation) : List KeyCall :=
  if resultRef.isSome || elementSize == 0 || !layoutValid a elementSize ||
      !layoutValid b elementSize || !nonemptyConfigsCompatible a b then []
  else
    match initRaw env world none elementSize (resultConfig a b) with
    | (.ok, result, world) =>
      reserveForOperationCalls env world result elementSize a b operation ++
        match reserveForOperation env world result elementSize a b operation with
        | some (.ok, result, world) => fillCalls env world result elementSize a b operation
        | _ => []
    | _ => []

/-! ## The relation predicates -/

def allWhereLoopCalls (env : Env) (elementSize : ℕ) (source other : Option LorMap)
    (wanted : Bool) : List ℕ → List KeyCall
  | [] => []
  | i :: is =>
    let key := key source elementSize i
    containsRawCalls env other elementSize key ++
      if containsRaw env other elementSize key = some wanted then
        allWhereLoopCalls env elementSize source other wanted is
      else []

def isSubsetRawCalls (env : Env) (a b : Option LorMap) (elementSize : ℕ) : List KeyCall :=
  if !relationsValid a b elementSize || decide (size a > size b) then []
  else allWhereLoopCalls env elementSize a b true (List.range (size a))

def equalRawCalls (env : Env) (a b : Option LorMap) (elementSize : ℕ) : List KeyCall :=
  if size a = size b then isSubsetRawCalls env a b elementSize else []

def isProperSubsetRawCalls (env : Env) (a b : Option LorMap) (elementSize : ℕ) : List KeyCall :=
  if size a < size b then isSubsetRawCalls env a b elementSize else []

def isSupersetRawCalls (env : Env) (a b : Option LorMap) (elementSize : ℕ) : List KeyCall :=
  isSubsetRawCalls env b a elementSize

def isProperSupersetRawCalls (env : Env) (a b : Option LorMap) (elementSize : ℕ) :
    List KeyCall :=
  isProperSubsetRawCalls env b a elementSize

def isDisjointRawCalls (env : Env) (a b : Option LorMap) (elementSize : ℕ) : List KeyCall :=
  if !relationsValid a b elementSize then []
  else
    let small := if size a ≤ size b then a else b
    let large := if size a ≤ size b then b else a
    allWhereLoopCalls env elementSize small large false (List.range (size small))

/-- The calls of all the predicates on the two operands. -/
def relationCalls (env : Env) (a b : Option LorMap) (elementSize : ℕ) : List KeyCall :=
  isSubsetRawCalls env a b elementSize ++ equalRawCalls env a b elementSize ++
    isProperSubsetRawCalls env a b elementSize ++ isSupersetRawCalls env a b elementSize ++
    isProperSupersetRawCalls env a b elementSize ++ isDisjointRawCalls env a b elementSize

/-! ## Keys of their own kind -/

/-- The key is stored in an operand whose keys the callbacks of `config` are made for, or is a clone
that they make of one. -/
def OwnKey (env : Env) (a b : Option LorMap) (config : Config) (key : Bytes) : Prop :=
  ∃ set, (set = a ∨ set = b) ∧ SameSemantics (getConfig set) config ∧ ∃ e ∈ elements set,
    key = e.key.bytes ∨ ∃ f n, config.clone = some f ∧
      key = (env.clone f config.context n e.key.bytes).2

def OwnCall (env : Env) (a b : Option LorMap) (call : KeyCall) : Prop :=
  ∀ key ∈ call.keys, OwnKey env a b call.config key

/-- A lookup in `set` runs a callback on the key sought before it meets a stored one. -/
def Consults (set : Option LorMap) : Prop :=
  ∃ m, set = some m ∧ (m.config.keyValid.isSome = true ∨
    m.config.hash.isSome = true ∧ m.bucketCapacity ≠ 0)

variable {env : Env} {world world' : World} {elementSize : ℕ} {config : Config} {m : LorMap}
  {a b set other : Option LorMap} {call : KeyCall}

theorem OwnCall.of_within (h : Within config (OwnKey env a b config) call) :
    OwnCall env a b call := by
  intro key hkey
  rw [h.1]
  exact h.2 key hkey

theorem ownKey_element (hset : set = a ∨ set = b) (hsem : SameSemantics (getConfig set) config)
    {e : Entry} (he : e ∈ elements set) : OwnKey env a b config e.key.bytes :=
  ⟨set, hset, hsem, e, he, Or.inl rfl⟩

theorem not_ownCall (hkeys : call.keys ≠ [])
    (ha : size a ≠ 0 → ¬ SameSemantics (getConfig a) call.config)
    (hb : size b ≠ 0 → ¬ SameSemantics (getConfig b) call.config) : ¬ OwnCall env a b call := by
  intro h
  obtain ⟨key, hkey⟩ := List.exists_mem_of_ne_nil _ hkeys
  obtain ⟨set, hset, hsem, e, he, -⟩ := h key hkey
  have hne : size set ≠ 0 := fun hzero =>
    List.ne_nil_of_mem he (elements_eq_nil_iff.mpr hzero)
  rcases hset with rfl | rfl
  · exact ha hne hsem
  · exact hb hne hsem

/-! ## Lookups -/

theorem Operand.matchesLayout (h : Operand env elementSize (some m)) :
    matchesLayout (some m) elementSize elementSize = true := by
  obtain ⟨hes, hks⟩ := h.sizes
  have hvalid := (h.inv m rfl).layout
  rw [hes, hks] at hvalid
  simp [Map.matchesLayout, hvalid, hes, hks]

theorem containsRawCalls_own (hset : Operand env elementSize set)
    (hother : Operand env elementSize other) (hin : set = a ∨ set = b)
    (hin' : other = a ∨ other = b) (hsem : SameSemantics (getConfig set) (getConfig other))
    {i : ℕ} {e : Entry} (he : (elements set)[i]? = some e) :
    ∀ call ∈ containsRawCalls env other elementSize (key set elementSize i),
      OwnCall env a b call := by
  intro call hcall
  cases other with
  | none => cases hcall
  | some x =>
      apply OwnCall.of_within
      have hread := hset.key_bytes he (some x)
      rw [Source.bytes_some] at hread
      refine findRawCalls_within (hother.inv x rfl) ?_ (key_ne_null he) ?_ _ _ call hcall
      · intro j hj
        exact keyAt_of_forall (fun e' he' => ownKey_element hin' (SameSemantics.refl _) he') hj
      · rw [hother.sizes.2, hread]
        exact ownKey_element hin hsem (List.mem_of_getElem? he)

theorem containsRawCalls_of_not_consults (hother : Operand env elementSize other)
    (hsize : size other = 0) (h : ¬ Consults other) (source : Source) :
    containsRawCalls env other elementSize source = [] := by
  cases other with
  | none => rfl
  | some x =>
      by_cases hnull : source = .null
      · subst hnull
        rfl
      · simp only [Consults, Option.some.injEq, exists_eq_left', not_or, not_and, ne_eq, not_not,
          Option.not_isSome_iff_eq_none] at h
        obtain ⟨hvalid, hhash⟩ := h
        have hnil : x.entries = [] := List.length_eq_zero_iff.mp hsize
        have hbucket := findBucketCalls_of_entries_nil (hother.inv x rfl) hnil
          (source.read x x.keySize)
        have hcalls : findBucketCalls env x (source.read x x.keySize) = [] := by
          rw [hbucket]
          by_cases hn : x.bucketCapacity = 0
          · rw [if_pos hn]
          · rw [if_neg hn, hashCalls]
            by_cases hsome : x.config.hash.isSome = true
            · exact absurd (hhash hsome) hn
            · rw [if_neg hsome]
        rw [containsRawCalls, Map.containsRawCalls, findRawCalls_eq hnull, hcalls, keyValidCalls,
          hvalid]
        simp

theorem exists_containsRawCalls (hother : Operand env elementSize other) {source : Source}
    (hnull : source ≠ .null) (h : Consults other) :
    ∃ call ∈ containsRawCalls env other elementSize source,
      call.config = getConfig other ∧ call.keys ≠ [] := by
  obtain ⟨x, rfl, hconsults⟩ := h
  rw [containsRawCalls, Map.containsRawCalls, findRawCalls_eq hnull, hother.matchesLayout]
  simp only [Bool.not_true, Bool.false_eq_true, if_false]
  by_cases hvalid : x.config.keyValid.isSome = true
  · refine ⟨⟨.keyValid, x.config, [source.read x x.keySize]⟩, ?_, rfl, by simp⟩
    simp [keyValidCalls, hvalid]
  · obtain ⟨hhash, hn⟩ := hconsults.resolve_left hvalid
    rw [Option.not_isSome_iff_eq_none] at hvalid
    refine ⟨⟨.hash, x.config, [source.read x x.keySize]⟩, ?_, rfl, by simp⟩
    simp [keyValid_of_none hvalid, findBucketCalls, hn, hashCalls, hhash]

/-! ## Additions -/

theorem Built.matchesLayout (hb : Built env config elementSize m) :
    matchesLayout (some m) elementSize elementSize = true := by
  have hvalid := hb.inv.layout
  rw [hb.entrySize, hb.keySize] at hvalid
  simp [Map.matchesLayout, hvalid, hb.entrySize, hb.keySize]

theorem Built.legal_key (hb : Built env config elementSize m) {i : ℕ} {e : Entry}
    (he : (elements set)[i]? = some e) : (key set elementSize i).Legal m := by
  rw [Source.Legal, hb.entrySize]
  exact (key_valid he (some m) elementSize).readable (key_ne_null he)

theorem addRaw_eq (hb : Built env config elementSize m) {i : ℕ} {e : Entry}
    (he : (elements set)[i]? = some e) :
    addRaw env world (some m) elementSize (key set elementSize i) =
        setEntry env world m false (key set elementSize i) ∧
      addRawCalls env world (some m) elementSize (key set elementSize i) =
        setEntryCalls env world m (key set elementSize i) := by
  have hnull : key set elementSize i ≠ .null := key_ne_null he
  refine ⟨setRaw_some world hnull hb.matchesLayout, ?_⟩
  cases set with
  | none => cases he
  | some x => simp [addRawCalls, setRawCalls, key, hb.matchesLayout]

theorem Built.image_eq (hb : Built env config elementSize m) {e : Entry} (he : e ∈ m.entries) :
    e.bytes = e.key.bytes := by
  have hvalue : e.value = [] := by
    apply List.eq_nil_of_length_eq_zero
    rw [hb.inv.values e he, hb.entrySize, hb.keySize, Nat.sub_self]
  rw [Entry.bytes, hvalue, List.append_nil]

/-- The key that is stored for an element of an operand of the result's kind. -/
theorem ownKey_stored (hb : Built env config elementSize m) (hset : Operand env elementSize set)
    (hin : set = a ∨ set = b) (hsem : SameSemantics (getConfig set) config) {i : ℕ} {e : Entry}
    (he : (elements set)[i]? = some e) :
    OwnKey env a b config (storedKey env world m (key set elementSize i)) := by
  have hread := hset.key_bytes he (some m)
  rw [Source.bytes_some] at hread
  have hmem := List.mem_of_getElem? he
  unfold storedKey
  rw [hb.config, hb.keySize, hread]
  cases hclone : config.clone with
  | none => exact ownKey_element hin hsem hmem
  | some f => exact ⟨set, hin, hsem, e, hmem, Or.inr ⟨f, world.clones, hclone, rfl⟩⟩

theorem storedBytes_eq (hb : Built env config elementSize m) {source : Source}
    (hs : source.Legal m) :
    storedBytes env world m source = storedKey env world m source := by
  have hsizes : m.entrySize = m.keySize := hb.entrySize.trans hb.keySize.symm
  unfold storedBytes storedKey
  cases m.config.clone with
  | none => rw [hsizes]
  | some f =>
      have hdrop : (source.read m m.entrySize).drop m.keySize = [] := by
        apply List.drop_eq_nil_of_le
        rw [hs.length_read hb.inv le_rfl]
        omega
      simp only [hdrop, List.append_nil]

theorem addRaw_own (hb : Built env config elementSize m) (hlaw : Lawful env config elementSize)
    (hset : Operand env elementSize set) (hin : set = a ∨ set = b)
    (hsem : SameSemantics (getConfig set) config)
    (hown : ∀ x ∈ m.entries, OwnKey env a b config x.key.bytes) {i : ℕ} {e : Entry}
    (he : (elements set)[i]? = some e) :
    (∀ call ∈ addRawCalls env world (some m) elementSize (key set elementSize i),
        OwnCall env a b call) ∧
      ∀ m' world', addRaw env world (some m) elementSize (key set elementSize i) =
          some (.ok, some m', world') → Built env config elementSize m' →
        ∀ x ∈ m'.entries, OwnKey env a b config x.key.bytes := by
  obtain rfl := hb.config
  have hlegal := hb.legal_key he
  have hstored : OwnKey env a b m.config (storedKey env world m (key set elementSize i)) :=
    ownKey_stored hb hset hin hsem he
  have hread : (key set elementSize i).read m m.keySize = e.key.bytes := by
    rw [hb.keySize, ← Source.bytes_some]
    exact hset.key_bytes he (some m)
  constructor
  · rw [(addRaw_eq hb he).2]
    intro call hcall
    apply OwnCall.of_within
    apply setEntryCalls_within hb.inv hlegal hown _ hstored call hcall
    rw [hread]
    exact ownKey_element hin hsem (List.mem_of_getElem? he)
  · intro m' world' heq hb' x hx
    rw [(addRaw_eq hb he).1] at heq
    have hlaw' : Lawful env m.config m.keySize := by
      rw [hb.keySize]
      exact hlaw
    obtain ⟨-, himages⟩ := setEntry_images hb.inv hlaw' hlegal heq
    rw [storedBytes_eq hb hlegal] at himages
    have hmem : x.key.bytes ∈ m'.images := by
      rw [← hb'.image_eq hx]
      exact List.mem_map_of_mem hx
    have hold : ∀ k ∈ m.images, OwnKey env a b m.config k := by
      intro k hk
      obtain ⟨y, hy, rfl⟩ := List.mem_map.mp hk
      rw [hb.image_eq hy]
      exact hown y hy
    rcases himages with ⟨j, -, -, himages⟩ | ⟨-, himages⟩
    · rw [himages] at hmem
      rcases List.mem_or_eq_of_mem_set hmem with hmem | hmem
      · exact hold _ hmem
      · rw [hmem]
        exact hstored
    · rw [himages] at hmem
      rcases List.mem_append.mp hmem with hmem | hmem
      · exact hold _ hmem
      · rw [List.mem_singleton.mp hmem]
        exact hstored

theorem addAllLoop_own (world : World) (hset : Operand env elementSize set)
    (hin : set = a ∨ set = b) (hlaw : Lawful env config elementSize)
    (hsem : SameSemantics (getConfig set) config)
    (hb : Built env config elementSize m)
    (hown : ∀ x ∈ m.entries, OwnKey env a b config x.key.bytes) (is : List ℕ)
    (his : ∀ i ∈ is, i < (elements set).length) :
    (∀ call ∈ addAllLoopCalls env world (some m) elementSize set is, OwnCall env a b call) ∧
      ∀ m' world', addAllLoop env world (some m) elementSize set is = some (.ok, some m', world') →
        ∀ x ∈ m'.entries, OwnKey env a b config x.key.bytes := by
  induction is generalizing m world with
  | nil =>
      refine ⟨by simp [addAllLoopCalls], ?_⟩
      intro m' world' heq
      cases heq
      exact hown
  | cons i is ih =>
      have he := List.getElem?_eq_getElem (his i (by simp))
      obtain ⟨status, m₁, w₁, hadd, hb₁, -, -⟩ :=
        addRaw_spec hb hlaw world (key_valid he (some m) elementSize)
      obtain ⟨hcalls, hown₁⟩ := addRaw_own hb hlaw hset hin hsem hown he
      simp only [addAllLoopCalls, addAllLoop]
      rw [hadd]
      simp only [Option.bind_eq_bind, Option.bind_some]
      by_cases hok : status = .ok
      · subst hok
        obtain ⟨hcalls', hown'⟩ := ih w₁ hb₁ (hown₁ m₁ w₁ hadd hb₁)
          (fun j hj => his j (by simp [hj]))
        exact ⟨List.forall_mem_append.2 ⟨hcalls, hcalls'⟩, hown'⟩
      · constructor
        · intro call hcall
          rcases List.mem_append.mp hcall with hcall | hcall
          · exact hcalls call hcall
          · cases status <;> first | exact absurd rfl hok | cases hcall
        · intro m' world' heq
          rw [if_pos hok] at heq
          cases heq
          exact absurd rfl hok

theorem addWhereLoop_own (world : World) (hset : Operand env elementSize set)
    (hother : Operand env elementSize other) (hin : set = a ∨ set = b)
    (hlaw : Lawful env config elementSize) (wanted : Bool)
    (hlook : ∀ i < (elements set).length,
      ∀ call ∈ containsRawCalls env other elementSize (key set elementSize i),
        OwnCall env a b call)
    (hstore : SameSemantics (getConfig set) config ∨ ∀ i < (elements set).length,
      containsRaw env other elementSize (key set elementSize i) ≠ some wanted)
    (hb : Built env config elementSize m)
    (hown : ∀ x ∈ m.entries, OwnKey env a b config x.key.bytes) (is : List ℕ)
    (his : ∀ i ∈ is, i < (elements set).length) :
    (∀ call ∈ addWhereLoopCalls env world (some m) elementSize set other wanted is,
        OwnCall env a b call) ∧
      ∀ m' world', addWhereLoop env world (some m) elementSize set other wanted is =
          some (.ok, some m', world') →
        ∀ x ∈ m'.entries, OwnKey env a b config x.key.bytes := by
  induction is generalizing m world with
  | nil =>
      refine ⟨by simp [addWhereLoopCalls], ?_⟩
      intro m' world' heq
      cases heq
      exact hown
  | cons i is ih =>
      have hi := his i (by simp)
      have he := List.getElem?_eq_getElem hi
      have his' : ∀ j ∈ is, j < (elements set).length := fun j hj => his j (by simp [hj])
      obtain ⟨r, hcontains, -, -⟩ := containsRaw_spec hother (key_ne_null he)
        (key_valid he other elementSize)
      rw [addWhereLoopCalls, addWhereLoop]
      dsimp only
      rw [hcontains]
      simp only [Option.bind_eq_bind, Option.bind_some, Option.some.injEq]
      by_cases hwanted : r = wanted
      · have hsem := hstore.resolve_right (fun h => h i hi (by rw [hcontains, hwanted]))
        obtain ⟨status, m₁, w₁, hadd, hb₁, -, -⟩ :=
          addRaw_spec hb hlaw world (key_valid he (some m) elementSize)
        obtain ⟨hcalls, hown₁⟩ := addRaw_own hb hlaw hset hin hsem hown he
        simp only [if_pos hwanted]
        rw [hadd]
        simp only [Option.bind_some]
        by_cases hok : status = .ok
        · subst hok
          obtain ⟨hcalls', hown'⟩ := ih w₁ hb₁ (hown₁ m₁ w₁ hadd hb₁) his'
          refine ⟨?_, hown'⟩
          rw [List.forall_mem_append, List.forall_mem_append]
          exact ⟨hlook i hi, hcalls, hcalls'⟩
        · constructor
          · intro call hcall
            rcases List.mem_append.mp hcall with hcall | hcall
            · exact hlook i hi call hcall
            rcases List.mem_append.mp hcall with hcall | hcall
            · exact hcalls call hcall
            · cases status <;> first | exact absurd rfl hok | cases hcall
          · intro m' world' heq
            rw [if_pos hok] at heq
            cases heq
            exact absurd rfl hok
      · simp only [if_neg hwanted]
        obtain ⟨hcalls', hown'⟩ := ih world hb hown his'
        exact ⟨List.forall_mem_append.2 ⟨hlook i hi, hcalls'⟩, hown'⟩

/-! ## Foreign additions -/

theorem exists_addRawCalls (hb : Built env config elementSize m) (hn : m.bucketCapacity ≠ 0)
    (hclone : config.clone.isSome = true) {i : ℕ} {e : Entry}
    (he : (elements set)[i]? = some e)
    (h : config.keyValid.isSome = true ∨ config.hash.isSome = true ∨
      0 ≤ entryAlias m (key set elementSize i) ∧
        (world.malloc env elementSize).1.isSome = true) :
    ∃ call ∈ addRawCalls env world (some m) elementSize (key set elementSize i),
      call.config = config ∧ call.keys ≠ [] := by
  obtain rfl := hb.config
  rw [(addRaw_eq hb he).2]
  by_cases hvalid : m.config.keyValid.isSome = true
  · exact ⟨_, mem_setEntryCalls_keyValid hvalid, rfl, by simp⟩
  · have hnone := Option.not_isSome_iff_eq_none.mp hvalid
    rcases h.resolve_left hvalid with hhash | ⟨halias, hmalloc⟩
    · exact ⟨_, mem_setEntryCalls_hash hnone hhash hn, rfl, by simp⟩
    · rw [← hb.entrySize] at hmalloc
      exact ⟨_, mem_setEntryCalls_clone hnone hclone halias hmalloc, rfl, by simp⟩

theorem addRaw_silent (world : World) (hb : Built env config elementSize m)
    (hnil : m.entries = [])
    (hclone : config.clone.isSome = true) {i : ℕ} {e : Entry}
    (he : (elements set)[i]? = some e)
    (h : ¬ (config.keyValid.isSome = true ∨ config.hash.isSome = true ∨
      0 ≤ entryAlias m (key set elementSize i) ∧
        (world.malloc env elementSize).1.isSome = true)) :
    addRawCalls env world (some m) elementSize (key set elementSize i) = [] ∧
      ∀ handle world', addRaw env world (some m) elementSize (key set elementSize i) ≠
        some (.ok, handle, world') := by
  obtain rfl := hb.config
  rw [(addRaw_eq hb he).1, (addRaw_eq hb he).2]
  simp only [not_or, not_and, Option.not_isSome_iff_eq_none] at h
  obtain ⟨hvalid, hhash, hmalloc⟩ := h
  apply setEntry_silent hb.inv hnil hvalid hhash hclone false
  rw [hb.entrySize]
  exact hmalloc

end Liblor.LorSet
