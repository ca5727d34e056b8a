import Liblor.SetCallbacks

/-!
# The keys that the callbacks of sets are called on

Two sets whose keys are of different kinds are operands of one operation as soon as one of them is
empty. The relation predicates then run no callback. The algebra looks keys of the other set up in
the empty one, and may take its policy for the result; each of the two runs callbacks on keys that
they are not made for.
-/

namespace Liblor.LorSet

open Map Handles

/-- Keys of `set` are looked up by callbacks that are not made for them. -/
def LooksUpForeign (set other : Option LorMap) : Prop :=
  size set ≠ 0 ∧ ¬ SameSemantics (getConfig other) (getConfig set) ∧ Consults other

def Looks (a b : Option LorMap) : Operation → Prop
  | .union => False
  | .intersection | .difference => LooksUpForeign a b
  | .symmetricDifference => LooksUpForeign a b ∨ LooksUpForeign b a

/-- Keys of `set` are added to the empty result `m` by callbacks that are not made for them: to
validate, to hash, or to clone the first key, where the allocator has room for the clone. -/
def StoresForeign (env : Env) (world : World) (m : LorMap) (elementSize : ℕ)
    (set : Option LorMap) : Prop :=
  size set ≠ 0 ∧ ¬ SameSemantics m.config (getConfig set) ∧
    (m.config.keyValid.isSome = true ∨ m.config.hash.isSome = true ∨
      0 ≤ entryAlias m (key set elementSize 0) ∧
        (world.malloc env elementSize).1.isSome = true)

def Stores (env : Env) (world : World) (m : LorMap) (elementSize : ℕ) (a b : Option LorMap) :
    Operation → Prop
  | .union | .symmetricDifference =>
    StoresForeign env world m elementSize a ∨ StoresForeign env world m elementSize b
  | .intersection => False
  | .difference => StoresForeign env world m elementSize a

/-- The operation has allocated its result `m` and begins to fill it. -/
def Started (env : Env) (world : World) (elementSize : ℕ) (a b : Option LorMap)
    (operation : Operation) (m : LorMap) (world' : World) : Prop :=
  ∃ header w, initRaw env world none elementSize (resultConfig a b) = (.ok, some header, w) ∧
    reserveForOperation env w (some header) elementSize a b operation = some (.ok, some m, world')

def Exposed (env : Env) (world : World) (elementSize : ℕ) (a b : Option LorMap)
    (operation : Operation) : Prop :=
  ∃ m world', Started env world elementSize a b operation m world' ∧
    (Looks a b operation ∨ Stores env world' m elementSize a b operation)

variable {env : Env} {world world' : World} {elementSize : ℕ} {config : Config} {m : LorMap}
  {a b set other : Option LorMap} {call : KeyCall}

/-! ## Pairs of operands -/

/-- Two operands that the algebra and the predicates accept. -/
structure Accepted (env : Env) (elementSize : ℕ) (a b : Option LorMap) : Prop where
  left : Operand env elementSize a
  right : Operand env elementSize b
  compatible : nonemptyConfigsCompatible a b = true

theorem Accepted.operand (h : Accepted env elementSize a b) (hin : set = a ∨ set = b) :
    Operand env elementSize set := by
  rcases hin with rfl | rfl
  · exact h.left
  · exact h.right

theorem Accepted.sameSemantics (h : Accepted env elementSize a b) (hin : set = a ∨ set = b)
    (hin' : other = a ∨ other = b) (hset : size set ≠ 0) (hother : size other ≠ 0) :
    SameSemantics (getConfig set) (getConfig other) := by
  have hmatch := (nonemptyConfigsCompatible_iff.mp h.compatible).1
  rcases hin with rfl | rfl <;> rcases hin' with rfl | rfl
  · exact SameSemantics.refl _
  · exact hmatch hset hother
  · exact (hmatch hother hset).symm
  · exact SameSemantics.refl _

/-- A result that means something else to an operand with elements has taken the policy of the
other one, which is empty and owns its keys. -/
theorem Accepted.foreign (h : Accepted env elementSize a b) (hin : set = a ∨ set = b)
    (hsize : size set ≠ 0) (hsem : ¬ SameSemantics (resultConfig a b) (getConfig set)) :
    (resultConfig a b).clone.isSome = true ∧ ∀ x, x = a ∨ x = b → size x ≠ 0 →
      ¬ SameSemantics (getConfig x) (resultConfig a b) := by
  have hne : size a ≠ 0 ∨ size b ≠ 0 := by
    rcases hin with rfl | rfl
    · exact Or.inl hsize
    · exact Or.inr hsize
  constructor
  · by_cases ha : Owns a
    · rw [resultConfig_of_owns_left ha]
      exact ha.2
    by_cases hb : Owns b
    · rw [resultConfig_of_owns_right ha hb]
      exact hb.2
    · exfalso
      apply hsem
      rw [resultConfig_of_borrowed ha hb hne]
      by_cases hsa : size a ≠ 0
      · rw [if_pos hsa]
        exact h.sameSemantics (Or.inl rfl) hin hsa hsize
      · rw [if_neg hsa]
        exact h.sameSemantics (Or.inr rfl) hin (hne.resolve_left hsa) hsize
  · intro x hx hxs hbad
    exact hsem (hbad.symm.trans (h.sameSemantics hx hin hxs hsize))

theorem Accepted.lawful (h : Accepted env elementSize a b) :
    Lawful env (resultConfig a b) elementSize := by
  rcases resultConfig_cases a b with heq | heq | heq
  · rw [heq]
    exact h.left.lawful_getConfig
  · rw [heq]
    exact h.right.lawful_getConfig
  · rw [heq]
    exact lawful_configBytes env elementSize

theorem Accepted.not_ownCall (h : Accepted env elementSize a b) (hin : set = a ∨ set = b)
    (hforeign : LooksUpForeign set other)
    (hconfig : call.config = getConfig other) (hkeys : call.keys ≠ []) :
    ¬ OwnCall env a b call := by
  obtain ⟨hsize, hsem, -⟩ := hforeign
  have hall : ∀ x, x = a ∨ x = b → size x ≠ 0 → ¬ SameSemantics (getConfig x) call.config := by
    intro x hx hxs hbad
    apply hsem
    rw [← hconfig]
    exact hbad.symm.trans (h.sameSemantics hx hin hxs hsize)
  exact LorSet.not_ownCall hkeys (hall a (Or.inl rfl)) (hall b (Or.inr rfl))

/-- The lookups of keys of one operand in the other, unless they are foreign. -/
theorem Accepted.lookups_own (h : Accepted env elementSize a b) (hin : set = a ∨ set = b)
    (hin' : other = a ∨ other = b) (hlook : ¬ LooksUpForeign set other) {i : ℕ} {e : Entry}
    (he : (elements set)[i]? = some e) :
    ∀ call ∈ containsRawCalls env other elementSize (key set elementSize i),
      OwnCall env a b call := by
  have hset := h.operand hin
  have hother := h.operand hin'
  by_cases hsem : SameSemantics (getConfig other) (getConfig set)
  · exact containsRawCalls_own hset hother hin hin' hsem.symm he
  · have hne : size set ≠ 0 := fun hzero =>
      List.ne_nil_of_mem (List.mem_of_getElem? he) (elements_eq_nil_iff.mpr hzero)
    have hzero : size other = 0 := by
      by_contra hother
      exact hsem (h.sameSemantics hin' hin hother hne)
    have hconsults : ¬ Consults other := fun hconsults => hlook ⟨hne, hsem, hconsults⟩
    rw [containsRawCalls_of_not_consults hother hzero hconsults]
    simp

/-- `set` is one of the operands and `other` the other one. -/
def Paired (a b set other : Option LorMap) : Prop := set = a ∧ other = b ∨ set = b ∧ other = a

theorem Paired.left (h : Paired a b set other) : set = a ∨ set = b := by
  rcases h with ⟨h, -⟩ | ⟨h, -⟩
  · exact Or.inl h
  · exact Or.inr h

theorem Paired.right (h : Paired a b set other) : other = a ∨ other = b := by
  rcases h with ⟨-, h⟩ | ⟨-, h⟩
  · exact Or.inr h
  · exact Or.inl h

theorem Accepted.other_empty (h : Accepted env elementSize a b) (hpair : Paired a b set other)
    (hsize : size set ≠ 0) (hsem : ¬ SameSemantics (resultConfig a b) (getConfig set)) :
    size other = 0 := by
  by_contra hother
  have hboth : size a ≠ 0 ∧ size b ≠ 0 := by
    rcases hpair with ⟨rfl, rfl⟩ | ⟨rfl, rfl⟩
    · exact ⟨hsize, hother⟩
    · exact ⟨hother, hsize⟩
  have hcompat : configsCompatible (getConfig a) (getConfig b) = true := by
    have hcompat := h.compatible
    simpa [nonemptyConfigsCompatible, hboth.1, hboth.2] using hcompat
  obtain ⟨hagree, hagree'⟩ := agreeing_of_compatible (a := a) (b := b) (by
    intro x y hx hy
    subst hx hy
    exact hcompat)
  have hne : elements set ≠ [] := fun hnil => hsize (elements_eq_nil_iff.mp hnil)
  rcases hpair.left with rfl | rfl
  · exact hsem (hagree hne).symm
  · exact hsem (hagree' hne).symm

theorem containsRaw_of_empty (hother : Operand env elementSize other) (hzero : size other = 0)
    {i : ℕ} {e : Entry} (he : (elements set)[i]? = some e) :
    containsRaw env other elementSize (key set elementSize i) = some false := by
  obtain ⟨r, hr, -, hempty⟩ := containsRaw_spec hother (key_ne_null he)
    (key_valid he other elementSize)
  rw [hr, hempty (elements_eq_nil_iff.mpr hzero)]

theorem exists_first (hsize : size set ≠ 0) :
    ∃ is e, List.range (size set) = 0 :: is ∧ (elements set)[0]? = some e := by
  obtain ⟨k, hk⟩ := Nat.exists_eq_succ_of_ne_zero hsize
  have hlt : 0 < (elements set).length := by
    rw [length_elements]
    omega
  exact ⟨_, _, by rw [hk, List.range_succ_eq_map], List.getElem?_eq_getElem hlt⟩

theorem mem_range_elements {i : ℕ} (hi : i ∈ List.range (size set)) :
    i < (elements set).length := by
  rw [length_elements]
  exact List.mem_range.mp hi

/-- Adding all keys of an operand to an empty result. -/
theorem addAllLoop_own_iff (world : World) (h : Accepted env elementSize a b)
    (hin : set = a ∨ set = b)
    (hb : Built env (resultConfig a b) elementSize m) (hnil : m.entries = [])
    (hn : size set ≠ 0 → m.bucketCapacity ≠ 0) :
    (∀ call ∈ addAllLoopCalls env world (some m) elementSize set (List.range (size set)),
      OwnCall env a b call) ↔ ¬ StoresForeign env world m elementSize set := by
  by_cases hsize : size set = 0
  · simp [hsize, addAllLoopCalls, StoresForeign]
  obtain ⟨is, e, hrange, he⟩ := exists_first hsize
  unfold StoresForeign
  rw [hb.config]
  by_cases hsem : SameSemantics (resultConfig a b) (getConfig set)
  · constructor
    · intro _ hforeign
      exact hforeign.2.1 hsem
    · intro _
      exact (addAllLoop_own world (h.operand hin) hin h.lawful hsem.symm hb (by simp [hnil]) _
        (fun i hi => mem_range_elements hi)).1
  obtain ⟨hclone, hnone⟩ := h.foreign hin hsize hsem
  rw [hrange, addAllLoopCalls]
  constructor
  · intro hall hforeign
    obtain ⟨call, hcall, hconfig, hkeys⟩ :=
      exists_addRawCalls hb (hn hsize) hclone he hforeign.2.2
    rw [← hconfig] at hnone
    exact not_ownCall hkeys (hnone a (Or.inl rfl)) (hnone b (Or.inr rfl))
      (hall call (List.mem_append_left _ hcall))
  · intro hstore call hcall
    obtain ⟨hcalls, hfail⟩ := addRaw_silent world hb hnil hclone he
      (fun hreceives => hstore ⟨hsize, hsem, hreceives⟩)
    rw [hcalls, List.nil_append] at hcall
    split at hcall
    case h_1 result w heq => exact absurd heq (hfail _ _)
    case h_2 => cases hcall

/-- Adding the keys of an operand that the other one has, or lacks, to an empty result. -/
theorem addWhereLoop_own_iff (world : World) (h : Accepted env elementSize a b)
    (hpair : Paired a b set other)
    (hb : Built env (resultConfig a b) elementSize m) (hnil : m.entries = []) (wanted : Bool)
    (hn : wanted = false → size set ≠ 0 → m.bucketCapacity ≠ 0) :
    (∀ call ∈ addWhereLoopCalls env world (some m) elementSize set other wanted
        (List.range (size set)), OwnCall env a b call) ↔
      ¬ LooksUpForeign set other ∧
        (wanted = false → ¬ StoresForeign env world m elementSize set) := by
  by_cases hsize : size set = 0
  · simp [hsize, addWhereLoopCalls, LooksUpForeign, StoresForeign]
  have hin := hpair.left
  have hset := h.operand hin
  have hother := h.operand hpair.right
  obtain ⟨is, e, hrange, he⟩ := exists_first hsize
  have hnull : key set elementSize 0 ≠ .null := key_ne_null he
  unfold StoresForeign
  rw [hb.config]
  constructor
  · intro hall
    constructor
    · intro hforeign
      obtain ⟨call, hcall, hconfig, hkeys⟩ :=
        exists_containsRawCalls hother hnull hforeign.2.2
      refine h.not_ownCall hin hforeign hconfig hkeys (hall call ?_)
      rw [hrange, addWhereLoopCalls]
      exact List.mem_append_left _ hcall
    · intro hwanted hforeign
      obtain ⟨-, hsem, hreceives⟩ := hforeign
      obtain ⟨hclone, hnone⟩ := h.foreign hin hsize hsem
      obtain ⟨call, hcall, hconfig, hkeys⟩ :=
        exists_addRawCalls hb (hn hwanted hsize) hclone he hreceives
      rw [← hconfig] at hnone
      refine LorSet.not_ownCall hkeys (hnone a (Or.inl rfl)) (hnone b (Or.inr rfl))
        (hall call ?_)
      have hempty := containsRaw_of_empty hother (h.other_empty hpair hsize hsem) he
      rw [hrange, addWhereLoopCalls]
      rw [hempty, hwanted, if_pos rfl]
      exact List.mem_append_right _ (List.mem_append_left _ hcall)
  · intro hcond
    obtain ⟨hlook, hstore⟩ := hcond
    have hlookups : ∀ i < (elements set).length,
        ∀ call ∈ containsRawCalls env other elementSize (key set elementSize i),
          OwnCall env a b call :=
      fun i hi => h.lookups_own hin hpair.right hlook (List.getElem?_eq_getElem hi)
    by_cases hsem : SameSemantics (resultConfig a b) (getConfig set)
    · exact (addWhereLoop_own world hset hother hin h.lawful wanted hlookups (Or.inl hsem.symm) hb
        (by simp [hnil]) _ (fun i hi => mem_range_elements hi)).1
    have hzero := h.other_empty hpair hsize hsem
    cases wanted with
    | true =>
        refine (addWhereLoop_own world hset hother hin h.lawful true hlookups (Or.inr ?_) hb
          (by simp [hnil]) _ (fun i hi => mem_range_elements hi)).1
        intro i hi
        rw [containsRaw_of_empty hother hzero (List.getElem?_eq_getElem hi)]
        simp
    | false =>
        obtain ⟨hclone, -⟩ := h.foreign hin hsize hsem
        obtain ⟨hcalls, hfail⟩ := addRaw_silent world hb hnil hclone he
          (fun hreceives => hstore rfl ⟨hsize, hsem, hreceives⟩)
        have hempty := containsRaw_of_empty hother hzero he
        intro call hcall
        rw [hrange, addWhereLoopCalls] at hcall
        rw [hempty, if_pos rfl, hcalls, List.nil_append] at hcall
        rcases List.mem_append.mp hcall with hcall | hcall
        · exact h.lookups_own hin hpair.right hlook he call hcall
        · split at hcall
          case h_1 result w heq => exact absurd heq (hfail _ _)
          case h_2 => cases hcall

/-! ## Operations -/

/-- The result that an operation starts to fill: it is empty, and has buckets where keys are to be
added. -/
theorem reserveForOperation_started {header : LorMap} (h : Inv env header) {op : Operation}
    (heq : reserveForOperation env world (some header) elementSize a b op =
      some (.ok, some m, world')) :
    Resized header m ∧ Inv env m ∧ (op ≠ .intersection → size a ≠ 0 → m.bucketCapacity ≠ 0) ∧
      (op = .union ∨ op = .symmetricDifference → size b ≠ 0 → m.bucketCapacity ≠ 0) := by
  have hreserve : ∀ capacity,
      (if capacity ≠ 0 then reserveRaw env world (some header) elementSize capacity
        else some (.ok, some header, world)) = some (.ok, some m, world') →
      Resized header m ∧ Inv env m ∧ (capacity ≠ 0 → m.bucketCapacity ≠ 0) := by
    intro capacity heq
    by_cases hcap : capacity ≠ 0
    · rw [if_pos hcap] at heq
      obtain ⟨hresized, hinv, hle⟩ := reserveRaw_resized h heq
      refine ⟨hresized, hinv, fun _ => ?_⟩
      have hroom := hinv.room
      omega
    · rw [if_neg hcap] at heq
      cases heq
      exact ⟨Resized.refl _, h, fun hcap' => absurd hcap' hcap⟩
  have hsum : (if size b > sizeMax - size a then some (.overflow, some header, world)
        else if size a + size b ≠ 0 then
          reserveRaw env world (some header) elementSize (size a + size b)
        else some (.ok, some header, world)) = some (.ok, some m, world') →
      Resized header m ∧ Inv env m ∧ (size a + size b ≠ 0 → m.bucketCapacity ≠ 0) := by
    intro heq
    by_cases hover : size b > sizeMax - size a
    · rw [if_pos hover] at heq
      cases heq
    · rw [if_neg hover] at heq
      exact hreserve _ heq
  cases op with
  | union =>
      obtain ⟨hresized, hinv, hn⟩ := hsum heq
      exact ⟨hresized, hinv, fun _ ha => hn (by omega), fun _ hb => hn (by omega)⟩
  | symmetricDifference =>
      obtain ⟨hresized, hinv, hn⟩ := hsum heq
      exact ⟨hresized, hinv, fun _ ha => hn (by omega), fun _ hb => hn (by omega)⟩
  | intersection =>
      obtain ⟨hresized, hinv, -⟩ := hreserve _ heq
      exact ⟨hresized, hinv, fun hne => absurd rfl hne, by simp⟩
  | difference =>
      obtain ⟨hresized, hinv, hn⟩ := hreserve _ heq
      exact ⟨hresized, hinv, fun _ ha => hn ha, by simp⟩

theorem reserveForOperationCalls_nil {header : LorMap} (h : Inv env header)
    (hnil : header.entries = []) (op : Operation) :
    reserveForOperationCalls env world (some header) elementSize a b op = [] := by
  have hreserve : ∀ capacity, (if capacity ≠ 0 then
      reserveRawCalls env world (some header) elementSize elementSize capacity else []) = [] := by
    intro capacity
    rw [reserveRawCalls_of_entries_nil h hnil]
    split_ifs
    · rfl
    · rfl
  cases op with
  | union =>
      simp only [reserveForOperationCalls, hreserve]
      split_ifs
      · rfl
      · rfl
  | symmetricDifference =>
      simp only [reserveForOperationCalls, hreserve]
      split_ifs
      · rfl
      · rfl
  | intersection => exact hreserve _
  | difference => exact hreserve _

theorem Accepted.same_of_filled (h : Accepted env elementSize a b)
    (hpair : Paired a b set other) (hset : size set ≠ 0) (hother : size other ≠ 0) :
    SameSemantics (getConfig set) (resultConfig a b) := by
  by_contra hsem
  exact hother (h.other_empty hpair hset (fun hsame => hsem hsame.symm))

theorem not_storesForeign (h : Accepted env elementSize a b) (hpair : Paired a b set other)
    (hb : Built env (resultConfig a b) elementSize m) (hother : size other ≠ 0) :
    ¬ StoresForeign env world m elementSize set := by
  intro hforeign
  obtain ⟨hsize, hsem, -⟩ := hforeign
  rw [hb.config] at hsem
  exact hsem (h.same_of_filled hpair hsize hother).symm

theorem not_looksUpForeign (h : Accepted env elementSize a b) (hpair : Paired a b set other)
    (hother : size other ≠ 0) : ¬ LooksUpForeign set other := by
  intro hforeign
  obtain ⟨hsize, hsem, -⟩ := hforeign
  exact hsem (h.sameSemantics hpair.right hpair.left hother hsize)

theorem union_own_iff (world : World) (h : Accepted env elementSize a b)
    (hb : Built env (resultConfig a b) elementSize m) (hnil : m.entries = [])
    (hna : size a ≠ 0 → m.bucketCapacity ≠ 0) (hnb : size b ≠ 0 → m.bucketCapacity ≠ 0) :
    (∀ call ∈ fillCalls env world (some m) elementSize a b .union, OwnCall env a b call) ↔
      ¬ Stores env world m elementSize a b .union := by
  have hpair : Paired a b a b := Or.inl ⟨rfl, rfl⟩
  have hpair' : Paired a b b a := Or.inr ⟨rfl, rfl⟩
  rw [Stores, not_or]
  by_cases ha : size a = 0
  · rw [← addAllLoop_own_iff world h (Or.inr rfl) hb hnil hnb]
    simp [fillCalls, ha, addAllLoopCalls, addAll, addAllLoop, StoresForeign]
  by_cases hzero : size b = 0
  · rw [← addAllLoop_own_iff world h (Or.inl rfl) hb hnil hna]
    have hrest : fillCalls env world (some m) elementSize a b .union =
        addAllLoopCalls env world (some m) elementSize a (List.range (size a)) := by
      simp only [fillCalls, List.append_right_eq_self]
      split
      · rw [hzero]
        rfl
      · rfl
    rw [hrest]
    simp [StoresForeign, hzero]
  · refine iff_of_true ?_ ⟨not_storesForeign h hpair hb hzero, not_storesForeign h hpair' hb ha⟩
    have hrange : ∀ set : Option LorMap, ∀ i ∈ List.range (size set), i < (elements set).length :=
      fun set i hi => mem_range_elements hi
    obtain ⟨s₁, m₁, w₁, hloop, hgrown⟩ :=
      addAllLoop_spec h.left hb h.lawful world _ (hrange a)
    obtain ⟨hcalls, hown⟩ := addAllLoop_own world h.left (Or.inl rfl) h.lawful
      (h.same_of_filled hpair ha hzero) hb (by simp [hnil]) _ (hrange a)
    intro call hcall
    rcases List.mem_append.mp hcall with hcall | hcall
    · exact hcalls call hcall
    · rw [addAll, hloop] at hcall
      by_cases hok : s₁ = .ok
      · subst hok
        exact (addAllLoop_own w₁ h.right (Or.inr rfl) h.lawful (h.same_of_filled hpair' hzero ha)
          hgrown.built (hown m₁ w₁ hloop) _ (hrange b)).1 call hcall
      · cases s₁ <;> first | exact absurd rfl hok | cases hcall

theorem symmetricDifference_own_iff (world : World) (h : Accepted env elementSize a b)
    (hb : Built env (resultConfig a b) elementSize m) (hnil : m.entries = [])
    (hna : size a ≠ 0 → m.bucketCapacity ≠ 0) (hnb : size b ≠ 0 → m.bucketCapacity ≠ 0) :
    (∀ call ∈ fillCalls env world (some m) elementSize a b .symmetricDifference,
      OwnCall env a b call) ↔
      ¬ (Looks a b .symmetricDifference ∨
        Stores env world m elementSize a b .symmetricDifference) := by
  have hpair : Paired a b a b := Or.inl ⟨rfl, rfl⟩
  have hpair' : Paired a b b a := Or.inr ⟨rfl, rfl⟩
  rw [Looks, Stores, not_or, not_or, not_or]
  have hwanted : (Operation.symmetricDifference == Operation.intersection) = false := rfl
  by_cases ha : size a = 0
  · have hiff := addWhereLoop_own_iff world h hpair' hb hnil false (fun _ => hnb)
    simp only [fillCalls, hwanted, ha, List.range_zero, addWhereLoopCalls, addWhereLoop,
      List.nil_append, if_true]
    rw [hiff]
    simp [LooksUpForeign, StoresForeign, ha]
  by_cases hzero : size b = 0
  · have hiff := addWhereLoop_own_iff world h hpair hb hnil false (fun _ => hna)
    have hrest : fillCalls env world (some m) elementSize a b .symmetricDifference =
        addWhereLoopCalls env world (some m) elementSize a b false (List.range (size a)) := by
      simp only [fillCalls, hwanted, if_true, List.append_right_eq_self]
      split
      · rw [hzero]
        rfl
      · rfl
    rw [hrest]
    rw [hiff]
    simp [LooksUpForeign, StoresForeign, hzero]
  · have hlook := not_looksUpForeign h hpair hzero
    have hlook' := not_looksUpForeign h hpair' ha
    refine iff_of_true ?_ ⟨⟨hlook, hlook'⟩, not_storesForeign h hpair hb hzero,
      not_storesForeign h hpair' hb ha⟩
    have hrange : ∀ set : Option LorMap, ∀ i ∈ List.range (size set), i < (elements set).length :=
      fun set i hi => mem_range_elements hi
    obtain ⟨s₁, m₁, w₁, hloop, hgrown⟩ :=
      addWhereLoop_spec h.left h.right hb h.lawful world false _ (hrange a)
    obtain ⟨hcalls, hown⟩ := addWhereLoop_own world h.left h.right (Or.inl rfl) h.lawful false
      (fun i hi => h.lookups_own (Or.inl rfl) (Or.inr rfl) hlook (List.getElem?_eq_getElem hi))
      (Or.inl (h.same_of_filled hpair ha hzero)) hb (by simp [hnil]) _ (hrange a)
    intro call hcall
    rcases List.mem_append.mp hcall with hcall | hcall
    · exact hcalls call hcall
    · rw [if_pos rfl, hloop] at hcall
      by_cases hok : s₁ = .ok
      · subst hok
        exact (addWhereLoop_own w₁ h.right h.left (Or.inr rfl) h.lawful false
          (fun i hi => h.lookups_own (Or.inr rfl) (Or.inl rfl) hlook'
            (List.getElem?_eq_getElem hi))
          (Or.inl (h.same_of_filled hpair' hzero ha)) hgrown.built (hown m₁ w₁ hloop) _
          (hrange b)).1 call hcall
      · cases s₁ <;> first | exact absurd rfl hok | cases hcall

theorem fillCalls_own_iff (world : World) (h : Accepted env elementSize a b)
    (hb : Built env (resultConfig a b) elementSize m) (hnil : m.entries = []) {op : Operation}
    (hna : op ≠ .intersection → size a ≠ 0 → m.bucketCapacity ≠ 0)
    (hnb : op = .union ∨ op = .symmetricDifference → size b ≠ 0 → m.bucketCapacity ≠ 0) :
    (∀ call ∈ fillCalls env world (some m) elementSize a b op, OwnCall env a b call) ↔
      ¬ (Looks a b op ∨ Stores env world m elementSize a b op) := by
  have hpair : Paired a b a b := Or.inl ⟨rfl, rfl⟩
  cases op with
  | union =>
      rw [union_own_iff world h hb hnil (hna (by simp)) (hnb (Or.inl rfl))]
      simp [Looks]
  | intersection =>
      have hiff := addWhereLoop_own_iff world h hpair hb hnil true (by simp)
      simp only [fillCalls, beq_self_eq_true, reduceCtorEq, if_false, List.append_nil]
      rw [hiff]
      simp [Looks, Stores]
  | difference =>
      have hiff := addWhereLoop_own_iff world h hpair hb hnil false (fun _ => hna (by simp))
      have hwanted : (Operation.difference == Operation.intersection) = false := rfl
      simp only [fillCalls, hwanted, reduceCtorEq, if_false, List.append_nil]
      rw [hiff]
      simp [Looks, Stores]
  | symmetricDifference =>
      exact symmetricDifference_own_iff world h hb hnil (hna (by simp)) (hnb (Or.inr rfl))

theorem operationCalls_own_iff (world : World) (h : Accepted env elementSize a b)
    (hsize : elementSize ≠ 0) (op : Operation) :
    (∀ call ∈ operationCalls env world none elementSize a b op, OwnCall env a b call) ↔
      ¬ Exposed env world elementSize a b op := by
  have hguard : (Option.isSome (none : Option LorMap) || elementSize == 0 ||
      !layoutValid a elementSize || !layoutValid b elementSize ||
      !nonemptyConfigsCompatible a b) = false := by
    simp [hsize, h.left.layout, h.right.layout, h.compatible]
  rw [operationCalls, hguard, if_neg Bool.false_ne_true]
  have hnever : (∀ m w, ¬ Started env world elementSize a b op m w) →
      ¬ Exposed env world elementSize a b op := by
    intro hno hexposed
    obtain ⟨m, w, hstarted, -⟩ := hexposed
    exact hno m w hstarted
  obtain ⟨status, handle, w₁, hinit, -,
    ⟨hstatus, rfl⟩ | ⟨rfl, -, hlayout, hconfig, header, rfl, hfresh⟩⟩ :=
    initRaw_cases env world none elementSize elementSize (resultConfig a b)
  · have hinit' : initRaw env world none elementSize (resultConfig a b) =
        (status, none, w₁) := hinit
    rw [hinit']
    refine iff_of_true ?_ (hnever ?_)
    · cases status <;> first | exact absurd rfl hstatus | simp
    · intro m w hstarted
      obtain ⟨header, w', hinit'', -⟩ := hstarted
      rw [hinit'] at hinit''
      cases hinit''
  have hinit' : initRaw env world none elementSize (resultConfig a b) =
      (.ok, some header, w₁) := hinit
  have hbuilt : Built env (resultConfig a b) elementSize header :=
    ⟨hfresh.inv hlayout hconfig, hfresh.config, hfresh.entrySize, hfresh.keySize⟩
  rw [hinit']
  simp only [reserveForOperationCalls_nil hbuilt.inv hfresh.entries, List.nil_append]
  obtain ⟨s₂, m₂, w₂, hreserve, hbuilt₂, -, -⟩ := reserveForOperation_spec hbuilt w₁ a b op
  rw [hreserve]
  by_cases hok : s₂ = .ok
  · subst hok
    obtain ⟨hresized, -, hna, hnb⟩ := reserveForOperation_started hbuilt.inv hreserve
    rw [fillCalls_own_iff w₂ h hbuilt₂ (hresized.entries.trans hfresh.entries) hna hnb, not_iff_not]
    constructor
    · intro hforeign
      exact ⟨m₂, w₂, ⟨header, w₁, hinit', hreserve⟩, hforeign⟩
    · intro hexposed
      obtain ⟨m, w, ⟨header', w', hinit'', hreserve'⟩, hforeign⟩ := hexposed
      rw [hinit'] at hinit''
      cases hinit''
      rw [hreserve] at hreserve'
      cases hreserve'
      exact hforeign
  · refine iff_of_true ?_ (hnever ?_)
    · cases s₂ <;> first | exact absurd rfl hok | simp
    · intro m w hstarted
      obtain ⟨header', w', hinit'', hreserve'⟩ := hstarted
      rw [hinit'] at hinit''
      cases hinit''
      rw [hreserve] at hreserve'
      cases hreserve'
      exact hok rfl

theorem allWhereLoopCalls_own (wanted : Bool)
    (hlook : ∀ i < (elements set).length,
      ∀ call ∈ containsRawCalls env other elementSize (key set elementSize i),
        OwnCall env a b call) (is : List ℕ) (his : ∀ i ∈ is, i < (elements set).length) :
    ∀ call ∈ allWhereLoopCalls env elementSize set other wanted is, OwnCall env a b call := by
  induction is with
  | nil => simp [allWhereLoopCalls]
  | cons i is ih =>
      rw [allWhereLoopCalls]
      intro call hcall
      rcases List.mem_append.mp hcall with hcall | hcall
      · exact hlook i (his i (by simp)) call hcall
      · split_ifs at hcall
        · exact ih (fun j hj => his j (by simp [hj])) call hcall
        · cases hcall

/-- A predicate iterates over a set only where the other one is no smaller. -/
theorem iteration_own (h : Accepted env elementSize a b) (hpair : Paired a b set other)
    (hle : size set ≤ size other) (wanted : Bool) :
    ∀ call ∈ allWhereLoopCalls env elementSize set other wanted (List.range (size set)),
      OwnCall env a b call := by
  apply allWhereLoopCalls_own wanted ?_ _ (fun i hi => mem_range_elements hi)
  intro i hi
  have hother : size other ≠ 0 := by
    rw [length_elements] at hi
    omega
  exact h.lookups_own hpair.left hpair.right (not_looksUpForeign h hpair hother)
    (List.getElem?_eq_getElem hi)

theorem isSubsetRawCalls_own (h : Accepted env elementSize a b) (hpair : Paired a b set other) :
    ∀ call ∈ isSubsetRawCalls env set other elementSize, OwnCall env a b call := by
  unfold isSubsetRawCalls
  split_ifs with hbad
  · simp
  · simp only [Bool.or_eq_true, decide_eq_true_eq, not_or] at hbad
    exact iteration_own h hpair (by omega) true

theorem isProperSubsetRawCalls_own (h : Accepted env elementSize a b)
    (hpair : Paired a b set other) :
    ∀ call ∈ isProperSubsetRawCalls env set other elementSize, OwnCall env a b call := by
  unfold isProperSubsetRawCalls
  split_ifs
  · exact isSubsetRawCalls_own h hpair
  · simp

theorem isDisjointRawCalls_own (h : Accepted env elementSize a b) :
    ∀ call ∈ isDisjointRawCalls env a b elementSize, OwnCall env a b call := by
  unfold isDisjointRawCalls
  split_ifs with hbad hle
  · simp
  · exact iteration_own h (Or.inl ⟨rfl, rfl⟩) hle false
  · exact iteration_own h (Or.inr ⟨rfl, rfl⟩) (by omega) false

theorem relationCalls_own (h : Accepted env elementSize a b) :
    ∀ call ∈ relationCalls env a b elementSize, OwnCall env a b call := by
  have hpair : Paired a b a b := Or.inl ⟨rfl, rfl⟩
  have hpair' : Paired a b b a := Or.inr ⟨rfl, rfl⟩
  intro call hcall
  simp only [relationCalls, List.mem_append] at hcall
  rcases hcall with ((((hcall | hcall) | hcall) | hcall) | hcall) | hcall
  · exact isSubsetRawCalls_own h hpair call hcall
  · unfold equalRawCalls at hcall
    split_ifs at hcall
    · exact isSubsetRawCalls_own h hpair call hcall
    · cases hcall
  · exact isProperSubsetRawCalls_own h hpair call hcall
  · exact isSubsetRawCalls_own h hpair' call hcall
  · exact isProperSubsetRawCalls_own h hpair' call hcall
  · exact isDisjointRawCalls_own h call hcall

end Liblor.LorSet

/-! ## Reachable sets -/

namespace Liblor.Handles

open Map LorSet Transition

variable {env : Env} {s : State} {elementSize : ℕ}

/-- The predicates call the callbacks of two reachable sets on their own keys only, and an
operation of the algebra does exactly where it is not exposed. -/
theorem key_callbacks_own_iff {events : List (Op × Result)} (hrun : Run (system env) events s)
    (hsize : elementSize ≠ 0) {a b : ℕ}
    (ha : LorSet.layoutValid (s.get a) elementSize = true)
    (hb : LorSet.layoutValid (s.get b) elementSize = true)
    (hcompat : nonemptyConfigsCompatible (s.get a) (s.get b) = true) :
    (∀ call ∈ relationCalls env (s.get a) (s.get b) elementSize,
        OwnCall env (s.get a) (s.get b) call) ∧
      ∀ op, (∀ call ∈ operationCalls env s.world none elementSize (s.get a) (s.get b) op,
          OwnCall env (s.get a) (s.get b) call) ↔
        ¬ Exposed env s.world elementSize (s.get a) (s.get b) op := by
  have haccepted : Accepted env elementSize (s.get a) (s.get b) :=
    ⟨run_operand hrun ha, run_operand hrun hb, hcompat⟩
  exact ⟨relationCalls_own haccepted, operationCalls_own_iff s.world haccepted hsize⟩

/-- A policy with all its callbacks. -/
def textConfig : Config := ⟨some 3, some 3, some 3, some 3, some 3, 0⟩

theorem lawful_textConfig : Lawful policyEnv textConfig 1 where
  refl a _ := (equal_byteConfig a a).mpr rfl
  symm a b _ _ h := (equal_byteConfig b a).mpr ((equal_byteConfig a b).mp h).symm
  trans a b c _ _ _ hab hbc := (equal_byteConfig a c).mpr
    (((equal_byteConfig a b).mp hab).trans ((equal_byteConfig b c).mp hbc))
  hash_eq _ _ _ _ _ := rfl
  clone _ _ a _ h _ := ⟨h, (equal_byteConfig a a).mpr rfl⟩

/-- Handle 0 had a text and was cleared, handle 1 has the key 7, and handle 2 is `NULL`. -/
theorem run_texts : ∃ events s, Run (system policyEnv) events s ∧ s.get 2 = none ∧
    size (s.get 0) = 0 ∧ getConfig (s.get 0) = textConfig ∧ getConfig (s.get 1) = byteConfig ∧
    (∀ h < 3, LorSet.layoutValid (s.get h) 1 = true) ∧
    nonemptyConfigsCompatible (s.get 1) (s.get 0) = true ∧
    ⟨.keyValid, textConfig, [[7]]⟩ ∈
      operationCalls policyEnv s.world none 1 (s.get 1) (s.get 0) .difference ∧
    ⟨.hash, textConfig, [[7]]⟩ ∈
      operationCalls policyEnv s.world none 1 (s.get 1) (s.get 0) .difference ∧
    ⟨.clone, textConfig, [[7]]⟩ ∈
      operationCalls policyEnv s.world none 1 (s.get 1) (s.get 0) .union := by
  have h0 : Run (system policyEnv) [] ⟨[none, none, none], ⟨0, 0, 0, []⟩, []⟩ :=
    .start ⟨by simp, rfl, rfl, rfl⟩
  have h1 := run_call h0 0 (.init 1 1 textConfig) (by decide) lawful_textConfig rfl
  have h2 := run_call h1 1 (.init 1 1 byteConfig) (by decide) lawful_byteConfig rfl
  have h3 := run_call h2 0 (.set 1 1 (caller [5])) (by decide) trivial rfl
  have h4 := run_call h3 0 .clear (by decide) trivial rfl
  have h5 := run_call h4 1 (.set 1 1 (caller [7])) (by decide) trivial rfl
  exact ⟨_, _, h5, rfl, rfl, rfl, rfl, by decide, rfl, by decide, by decide, by decide⟩

theorem key_callbacks_own_iff_texts : ∃ s : State,
    getConfig (s.get 0) = textConfig ∧ getConfig (s.get 1) = byteConfig ∧
    (∀ call ∈ relationCalls policyEnv (s.get 1) (s.get 0) 1,
      OwnCall policyEnv (s.get 1) (s.get 0) call) ∧
    ((∀ call ∈ operationCalls policyEnv s.world none 1 (s.get 1) (s.get 0) .difference,
        OwnCall policyEnv (s.get 1) (s.get 0) call) ↔
      ¬ Exposed policyEnv s.world 1 (s.get 1) (s.get 0) .difference) := by
  obtain ⟨events, s, hrun, -, -, h0, h1, hlayout, hcompat, -⟩ := run_texts
  obtain ⟨hrelations, hoperations⟩ := key_callbacks_own_iff hrun one_ne_zero
    (hlayout 1 (by omega)) (hlayout 0 (by omega)) hcompat
  exact ⟨s, h0, h1, hrelations, hoperations .difference⟩

/-- The difference of a set of bytes and a set that had texts validates and hashes bytes as texts,
and their union clones them as texts. -/
theorem foreign_keys_called : ∃ events s, Run (system policyEnv) events s ∧ s.get 2 = none ∧
    (∀ h < 3, LorSet.layoutValid (s.get h) 1 = true) ∧
    nonemptyConfigsCompatible (s.get 1) (s.get 0) = true ∧
    (∀ callback, callback = .keyValid ∨ callback = .hash →
      ∃ call ∈ operationCalls policyEnv s.world none 1 (s.get 1) (s.get 0) .difference,
        call.callback = callback ∧ ¬ OwnCall policyEnv (s.get 1) (s.get 0) call) ∧
    ∃ call ∈ operationCalls policyEnv s.world none 1 (s.get 1) (s.get 0) .union,
      call.callback = .clone ∧ ¬ OwnCall policyEnv (s.get 1) (s.get 0) call := by
  obtain ⟨events, s, hrun, hnull, hzero, -, h1, hlayout, hcompat, hvalid, hhash, hclone⟩ :=
    run_texts
  have hforeign : ∀ callback,
      ¬ OwnCall policyEnv (s.get 1) (s.get 0) ⟨callback, textConfig, [[7]]⟩ := by
    intro callback
    apply not_ownCall (by simp)
    · intro _ hsem
      have hhash : byteConfig.hash ≠ textConfig.hash := by decide
      rw [h1] at hsem
      exact hhash hsem.1
    · intro hne
      exact absurd hzero hne
  refine ⟨events, s, hrun, hnull, hlayout, hcompat, ?_, _, hclone, rfl, hforeign _⟩
  intro callback hcallback
  rcases hcallback with rfl | rfl
  · exact ⟨_, hvalid, rfl, hforeign _⟩
  · exact ⟨_, hhash, rfl, hforeign _⟩

end Liblor.Handles
