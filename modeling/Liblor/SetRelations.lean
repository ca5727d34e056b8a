import Liblor.SetAlgebra

/-!
# The relation predicates of `set.c`

The predicates test one inclusion and compare sizes. The members of a set are the keys that a lookup
finds, and each predicate decides the relation between the members of two sets that its name says.
-/

namespace Liblor.LorSet

open Map KeyedList Handles

def relationsValid (a b : Option LorMap) (elementSize : ℕ) : Bool :=
  elementSize != 0 && layoutValid a elementSize && layoutValid b elementSize &&
    nonemptyConfigsCompatible a b

/-- The loop of the predicates: the presence in `other` of each key of `source` is `wanted`. -/
def allWhereLoop (env : Env) (elementSize : ℕ) (source other : Option LorMap) (wanted : Bool) :
    List ℕ → Option Bool
  | [] => some true
  | i :: is => do
    let inOther ← containsRaw env other elementSize (key source elementSize i)
    if inOther = wanted then allWhereLoop env elementSize source other wanted is
    else return false

def isSubsetRaw (env : Env) (a b : Option LorMap) (elementSize : ℕ) : Option Bool :=
  if !relationsValid a b elementSize || decide (size a > size b) then some false
  else allWhereLoop env elementSize a b true (List.range (size a))

def equalRaw (env : Env) (a b : Option LorMap) (elementSize : ℕ) : Option Bool :=
  if size a = size b then isSubsetRaw env a b elementSize else some false

def isProperSubsetRaw (env : Env) (a b : Option LorMap) (elementSize : ℕ) : Option Bool :=
  if size a < size b then isSubsetRaw env a b elementSize else some false

def isSupersetRaw (env : Env) (a b : Option LorMap) (elementSize : ℕ) : Option Bool :=
  isSubsetRaw env b a elementSize

def isProperSupersetRaw (env : Env) (a b : Option LorMap) (elementSize : ℕ) : Option Bool :=
  isProperSubsetRaw env b a elementSize

-- `small == a` of the source also holds where both operands are one set, of one size.
def isDisjointRaw (env : Env) (a b : Option LorMap) (elementSize : ℕ) : Option Bool :=
  if !relationsValid a b elementSize then some false
  else
    let small := if size a ≤ size b then a else b
    let large := if size a ≤ size b then b else a
    allWhereLoop env elementSize small large false (List.range (size small))

variable {env : Env} {elementSize : ℕ} {config : Config} {a b set : Option LorMap}

/-! ## Members -/

/-- The keys that a lookup finds in the set. -/
def members (env : Env) (elementSize : ℕ) (set : Option LorMap) : Set Bytes :=
  {k | k.length = elementSize ∧ containsRaw env set elementSize (caller k) = some true}

/-- The result is there, and tells whether `P` holds. -/
def Decides (result : Option Bool) (P : Prop) : Prop := ∃ r, result = some r ∧ (r = true ↔ P)

theorem Decides.eq_true {result : Option Bool} {P : Prop} (h : Decides result P) (hP : P) :
    result = some true := by
  obtain ⟨r, hr, hiff⟩ := h
  rw [hr, hiff.mpr hP]

theorem Decides.of_eq_true {result : Option Bool} {P : Prop} (h : Decides result P)
    (hresult : result = some true) : P := by
  obtain ⟨r, hr, hiff⟩ := h
  rw [hresult] at hr
  cases hr
  exact hiff.mp rfl

theorem Decides.unique {result result' : Option Bool} {P : Prop} (h : Decides result P)
    (h' : Decides result' P) : result = result' := by
  obtain ⟨r, rfl, hiff⟩ := h
  obtain ⟨r', rfl, hiff'⟩ := h'
  rw [Option.some.injEq, Bool.eq_iff_iff, hiff, hiff']

/-- Two sets with elements accept and compare keys alike. -/
def Matching (a b : Option LorMap) : Prop :=
  size a ≠ 0 → size b ≠ 0 → SameSemantics (getConfig a) (getConfig b)

/-- Two sets with elements that both own their keys clone and drop them alike. -/
def OwnersAgree (a b : Option LorMap) : Prop :=
  size a ≠ 0 → size b ≠ 0 → (getConfig a).clone = none ∨ (getConfig b).clone = none ∨
    (getConfig a).clone = (getConfig b).clone ∧ (getConfig a).drop = (getConfig b).drop

theorem configsCompatible_iff {c d : Config} : configsCompatible c d = true ↔
    SameSemantics c d ∧
      (c.clone = none ∨ d.clone = none ∨ c.clone = d.clone ∧ c.drop = d.drop) := by
  constructor
  · intro h
    refine ⟨configsCompatible_semantics h, ?_⟩
    unfold configsCompatible at h
    split_ifs at h
    simpa [or_assoc] using h
  · intro h
    obtain ⟨⟨hhash, hequal, hvalid, hcontext⟩, howner⟩ := h
    simpa [configsCompatible, hhash, hequal, hvalid, hcontext, or_assoc] using howner

theorem nonemptyConfigsCompatible_iff :
    nonemptyConfigsCompatible a b = true ↔ Matching a b ∧ OwnersAgree a b := by
  simp only [nonemptyConfigsCompatible, Bool.or_eq_true, beq_iff_eq, configsCompatible_iff,
    Matching, OwnersAgree]
  tauto

theorem Matching.symm (h : Matching a b) : Matching b a := fun hb ha => (h ha hb).symm

theorem OwnersAgree.symm (h : OwnersAgree a b) : OwnersAgree b a := by
  intro hb ha
  rcases h ha hb with h | h | ⟨hclone, hdrop⟩
  · exact Or.inr (Or.inl h)
  · exact Or.inl h
  · exact Or.inr (Or.inr ⟨hclone.symm, hdrop.symm⟩)

theorem relationsValid_iff : relationsValid a b elementSize = true ↔
    elementSize ≠ 0 ∧ layoutValid a elementSize = true ∧ layoutValid b elementSize = true ∧
      Matching a b ∧ OwnersAgree a b := by
  simp only [relationsValid, Bool.and_eq_true, bne_iff_ne, nonemptyConfigsCompatible_iff, and_assoc]

theorem elements_eq_nil_iff : elements set = [] ↔ size set = 0 := by
  rw [← length_elements, List.length_eq_zero_iff]

theorem exists_agreeing (ha : Operand env elementSize a) (hb : Operand env elementSize b)
    (h : Matching a b) : ∃ config, Lawful env config elementSize ∧ Agreeing config a ∧
      Agreeing config b := by
  by_cases hsize : size a = 0
  · exact ⟨getConfig b, hb.lawful_getConfig, agreeing_of_size_eq_zero hsize,
      fun _ => SameSemantics.refl _⟩
  · refine ⟨getConfig a, ha.lawful_getConfig, fun _ => SameSemantics.refl _, ?_⟩
    intro hne
    exact (h hsize (fun hzero => hne (elements_eq_nil_iff.mpr hzero))).symm

theorem keyValid_of_containsRaw {source : Source}
    (hc : containsRaw env set elementSize source = some true) (h : Operand env elementSize set) :
    keyValid env (getConfig set) (source.bytes set elementSize) = true := by
  cases set with
  | none => cases hc
  | some m =>
      rw [Source.bytes_some, ← h.sizes.2]
      by_contra hvalid
      rw [getConfig] at hvalid
      have hfind : findRaw env (some m) elementSize elementSize source = some none := by
        cases source with
        | null => rfl
        | outside address memory => simp [findRaw, hvalid]
        | inside offset => simp [findRaw, hvalid]
      rw [containsRaw, Map.containsRaw, hfind] at hc
      cases hc

theorem Has.ne_nil {k : Bytes} (h : Has env set k) : elements set ≠ [] := by
  obtain ⟨e, he, -⟩ := h
  exact List.ne_nil_of_mem he

theorem mem_members_iff (h : Operand env elementSize set) (hagree : Agreeing config set)
    {k : Bytes} :
    k ∈ members env elementSize set ↔ KeyOk env config elementSize k ∧ Has env set k := by
  constructor
  · intro hk
    obtain ⟨hlen, hc⟩ := hk
    have hvalid := keyValid_of_containsRaw hc h
    rw [caller_bytes hlen] at hvalid
    obtain ⟨r, hr, hiff⟩ := containsRaw_caller h hlen (fun _ => hvalid)
    rw [hc] at hr
    cases hr
    have hhas := hiff.mp rfl
    rw [← (hagree hhas.ne_nil).keyOk]
    exact ⟨⟨hlen, hvalid⟩, hhas⟩
  · intro hk
    obtain ⟨hok, hhas⟩ := hk
    rw [← (hagree hhas.ne_nil).keyOk] at hok
    obtain ⟨r, hr, hiff⟩ := containsRaw_caller h hok.1 (fun _ => hok.2)
    rw [hiff.mpr hhas] at hr
    exact ⟨hok.1, hr⟩

theorem Operand.has_element (h : Operand env elementSize set) {e : Entry}
    (he : e ∈ elements set) : Has env set e.key.bytes :=
  ⟨e, he, h.lawful_getConfig.refl _ (h.keyOk he)⟩

theorem key_mem_members (h : Operand env elementSize set) {e : Entry} (he : e ∈ elements set) :
    e.key.bytes ∈ members env elementSize set :=
  (mem_members_iff h (fun _ => SameSemantics.refl _)).mpr ⟨h.keyOk he, h.has_element he⟩

/-! ## The loop -/

theorem allWhereLoop_spec {other : Option LorMap} (hother : Operand env elementSize other)
    (wanted : Bool) (is : List ℕ) (his : ∀ i ∈ is, i < (elements set).length) :
    Decides (allWhereLoop env elementSize set other wanted is)
      (∀ i ∈ is, containsRaw env other elementSize (key set elementSize i) = some wanted) := by
  induction is with
  | nil => exact ⟨true, rfl, by simp⟩
  | cons i is ih =>
      have he := List.getElem?_eq_getElem (his i (by simp))
      obtain ⟨r, hcontains, -, -⟩ := containsRaw_spec hother (key_ne_null he)
        (key_valid he other elementSize)
      rw [allWhereLoop]
      simp only [List.forall_mem_cons]
      rw [hcontains]
      simp only [Option.bind_eq_bind, Option.bind_some, Option.some.injEq]
      by_cases hwanted : r = wanted
      · rw [if_pos hwanted]
        simp only [hwanted, true_and]
        exact ih (fun j hj => his j (by simp [hj]))
      · rw [if_neg hwanted]
        exact ⟨false, rfl, by simp [hwanted]⟩

/-- What the loop over a whole set decides, up to equality of keys. -/
theorem allWhereLoop_members {other : Option LorMap} (hset : Operand env elementSize set)
    (hother : Operand env elementSize other) (hlaw : Lawful env config elementSize)
    (hagree : Agreeing config set) (hagree' : Agreeing config other) (wanted : Bool) :
    Decides (allWhereLoop env elementSize set other wanted (List.range (size set)))
      (∀ k ∈ members env elementSize set,
        k ∈ members env elementSize other ↔ wanted = true) := by
  obtain ⟨r, hr, hiff⟩ := allWhereLoop_spec hother wanted (List.range (size set)) (by
    intro i hi
    rw [length_elements]
    exact List.mem_range.mp hi)
  refine ⟨r, hr, hiff.trans ?_⟩
  constructor
  · intro hall k hk
    obtain ⟨hok, e, he, hek⟩ := (mem_members_iff hset hagree).mp hk
    obtain ⟨i, hi⟩ := List.mem_iff_getElem?.mp he
    have hlt := (List.getElem?_eq_some_iff.mp hi).1
    rw [length_elements] at hlt
    rw [(hagree (List.ne_nil_of_mem he)).sameKey] at hek
    rw [mem_members_iff hother hagree', and_iff_right hok]
    exact (contains_element_iff hset hother hagree hagree' hi hok hek wanted).mp
      (hall i (List.mem_range.mpr hlt))
  · intro hall i hi
    rw [List.mem_range, ← length_elements] at hi
    have he := List.getElem?_eq_getElem hi
    have hmem := List.mem_of_getElem? he
    have hok := hset.keyOk hmem
    rw [(hagree (List.ne_nil_of_mem hmem)).keyOk] at hok
    have hk := hall _ (key_mem_members hset hmem)
    rw [mem_members_iff hother hagree', and_iff_right hok] at hk
    exact (contains_element_iff hset hother hagree hagree' he hok (hlaw.refl _ hok) wanted).mpr hk

/-! ## Counting members -/

theorem entries_classes (h : Operand env elementSize set) (hagree : Agreeing config set) :
    (∀ e ∈ elements set, KeyOk env config elementSize e.key.bytes) ∧
      KeyedList.Unique (KeyOk env config elementSize) (SameKey env config) (fun e => e.key.bytes)
        (elements set) ∧
      ∀ k, KeyOk env config elementSize k →
        (Has env set k ↔ ∃ e ∈ elements set, SameKey env config e.key.bytes k) := by
  by_cases hnil : elements set = []
  · rw [hnil]
    refine ⟨by simp, by simp [KeyedList.Unique], ?_⟩
    intro k _
    simp [Has, hnil]
  · have hsem := hagree hnil
    cases set with
    | none => exact absurd rfl hnil
    | some m =>
        rw [← hsem.keyOk, ← hsem.sameKey]
        refine ⟨fun e he => h.keyOk he, ?_, fun k _ => Iff.rfl⟩
        have hunique := (h.inv m rfl).unique (h.lawful m rfl)
        rw [h.sizes.2] at hunique
        exact hunique

theorem ncard_members (h : Operand env elementSize set) (hlaw : Lawful env config elementSize)
    (hagree : Agreeing config set) :
    (classes (KeyOk env config elementSize) (SameKey env config) (Has env set)).ncard =
      size set := by
  obtain ⟨hkeys, hunique, hhas⟩ := entries_classes h hagree
  rw [ncard_classes hlaw.equivOn hkeys hunique hhas, length_elements]

theorem finite_members (h : Operand env elementSize set) (hlaw : Lawful env config elementSize)
    (hagree : Agreeing config set) :
    (classes (KeyOk env config elementSize) (SameKey env config) (Has env set)).Finite := by
  obtain ⟨hkeys, -, hhas⟩ := entries_classes h hagree
  rw [classes_eq_range hlaw.equivOn hkeys hhas]
  exact Set.finite_range _

theorem classes_subset (ha : Operand env elementSize a) (hb : Operand env elementSize b)
    (hagree : Agreeing config a) (hagree' : Agreeing config b)
    (h : members env elementSize a ⊆ members env elementSize b) :
    classes (KeyOk env config elementSize) (SameKey env config) (Has env a) ⊆
      classes (KeyOk env config elementSize) (SameKey env config) (Has env b) := by
  apply classes_mono
  intro k hk hhas
  exact ((mem_members_iff hb hagree').mp (h ((mem_members_iff ha hagree).mpr ⟨hk, hhas⟩))).2

theorem size_le_of_subset (ha : Operand env elementSize a) (hb : Operand env elementSize b)
    (hlaw : Lawful env config elementSize) (hagree : Agreeing config a)
    (hagree' : Agreeing config b) (h : members env elementSize a ⊆ members env elementSize b) :
    size a ≤ size b := by
  rw [← ncard_members ha hlaw hagree, ← ncard_members hb hlaw hagree']
  exact Set.ncard_le_ncard (classes_subset ha hb hagree hagree' h)
    (finite_members hb hlaw hagree')

/-- The pigeonhole argument: an inclusion between sets of one size is an equality. -/
theorem eq_of_subset_of_size_le (ha : Operand env elementSize a)
    (hb : Operand env elementSize b) (hlaw : Lawful env config elementSize)
    (hagree : Agreeing config a) (hagree' : Agreeing config b)
    (h : members env elementSize a ⊆ members env elementSize b) (hsize : size b ≤ size a) :
    members env elementSize a = members env elementSize b := by
  rw [← ncard_members ha hlaw hagree, ← ncard_members hb hlaw hagree'] at hsize
  have heq := Set.eq_of_subset_of_ncard_le (classes_subset ha hb hagree hagree' h) hsize
    (finite_members hb hlaw hagree')
  apply Set.Subset.antisymm h
  intro k hk
  obtain ⟨hok, hhas⟩ := (mem_members_iff hb hagree').mp hk
  refine (mem_members_iff ha hagree).mpr ⟨hok, ?_⟩
  apply of_classes_subset hlaw.equivOn ?_ heq.ge hok hhas
  intro x y hx hy hxy hhasx
  have hsem := hagree hhasx.ne_nil
  rw [← hsem.keyOk] at hx hy
  rw [← hsem.sameKey] at hxy
  exact (Has.congr ha hx hy hxy).mp hhasx

/-! ## The predicates -/

theorem isSubsetRaw_spec (ha : Operand env elementSize a) (hb : Operand env elementSize b)
    (hlaw : Lawful env config elementSize) (hagree : Agreeing config a)
    (hagree' : Agreeing config b) (hvalid : relationsValid a b elementSize = true) :
    Decides (isSubsetRaw env a b elementSize)
      (members env elementSize a ⊆ members env elementSize b) := by
  rw [isSubsetRaw, hvalid]
  simp only [Bool.not_true, Bool.false_or, decide_eq_true_eq]
  by_cases hsize : size a > size b
  · rw [if_pos hsize]
    refine ⟨false, rfl, iff_of_false Bool.false_ne_true ?_⟩
    intro h
    have hle := size_le_of_subset ha hb hlaw hagree hagree' h
    omega
  · rw [if_neg hsize]
    obtain ⟨r, hr, hiff⟩ := allWhereLoop_members ha hb hlaw hagree hagree' true
    refine ⟨r, hr, hiff.trans ?_⟩
    simp only [iff_true]
    exact Iff.rfl

theorem relationsValid_of_isSubsetRaw (h : isSubsetRaw env a b elementSize = some true) :
    relationsValid a b elementSize = true := by
  by_contra hvalid
  rw [Bool.not_eq_true] at hvalid
  rw [isSubsetRaw, hvalid] at h
  cases h

theorem equalRaw_spec (ha : Operand env elementSize a) (hb : Operand env elementSize b)
    (hlaw : Lawful env config elementSize) (hagree : Agreeing config a)
    (hagree' : Agreeing config b) (hvalid : relationsValid a b elementSize = true) :
    Decides (equalRaw env a b elementSize)
      (members env elementSize a = members env elementSize b) := by
  unfold equalRaw
  by_cases hsize : size a = size b
  · rw [if_pos hsize]
    obtain ⟨r, hr, hiff⟩ := isSubsetRaw_spec ha hb hlaw hagree hagree' hvalid
    refine ⟨r, hr, hiff.trans ⟨?_, fun heq => heq.subset⟩⟩
    intro h
    exact eq_of_subset_of_size_le ha hb hlaw hagree hagree' h hsize.ge
  · rw [if_neg hsize]
    refine ⟨false, rfl, iff_of_false Bool.false_ne_true ?_⟩
    intro heq
    have hle := size_le_of_subset ha hb hlaw hagree hagree' heq.subset
    have hge := size_le_of_subset hb ha hlaw hagree' hagree heq.ge
    omega

theorem isProperSubsetRaw_spec (ha : Operand env elementSize a) (hb : Operand env elementSize b)
    (hlaw : Lawful env config elementSize) (hagree : Agreeing config a)
    (hagree' : Agreeing config b) (hvalid : relationsValid a b elementSize = true) :
    Decides (isProperSubsetRaw env a b elementSize)
      (members env elementSize a ⊂ members env elementSize b) := by
  unfold isProperSubsetRaw
  by_cases hsize : size a < size b
  · rw [if_pos hsize]
    obtain ⟨r, hr, hiff⟩ := isSubsetRaw_spec ha hb hlaw hagree hagree' hvalid
    refine ⟨r, hr, hiff.trans ⟨?_, fun h => h.subset⟩⟩
    intro h
    refine ⟨h, fun hconv => ?_⟩
    have hle := size_le_of_subset hb ha hlaw hagree' hagree hconv
    omega
  · rw [if_neg hsize]
    refine ⟨false, rfl, iff_of_false Bool.false_ne_true ?_⟩
    intro h
    have heq := eq_of_subset_of_size_le ha hb hlaw hagree hagree' h.subset (by omega)
    exact h.ne heq

theorem isDisjointRaw_spec (ha : Operand env elementSize a) (hb : Operand env elementSize b)
    (hlaw : Lawful env config elementSize) (hagree : Agreeing config a)
    (hagree' : Agreeing config b) (hvalid : relationsValid a b elementSize = true) :
    Decides (isDisjointRaw env a b elementSize)
      (Disjoint (members env elementSize a) (members env elementSize b)) := by
  rw [isDisjointRaw, hvalid, Bool.not_true, if_neg Bool.false_ne_true]
  by_cases hsize : size a ≤ size b
  · simp only [if_pos hsize]
    obtain ⟨r, hr, hiff⟩ := allWhereLoop_members ha hb hlaw hagree hagree' false
    refine ⟨r, hr, hiff.trans ?_⟩
    simp only [Bool.false_eq_true, iff_false]
    exact Set.disjoint_left.symm
  · simp only [if_neg hsize]
    obtain ⟨r, hr, hiff⟩ := allWhereLoop_members hb ha hlaw hagree' hagree false
    refine ⟨r, hr, hiff.trans ?_⟩
    simp only [Bool.false_eq_true, iff_false]
    exact Set.disjoint_right.symm

end Liblor.LorSet

/-! ## Reachable sets -/

namespace Liblor.Handles

open Map LorSet Transition

variable {env : Env} {s : State} {elementSize : ℕ}

theorem run_operand {events : List (Op × Result)} (hrun : Run (system env) events s) {h : ℕ}
    (hlayout : LorSet.layoutValid (s.get h) elementSize = true) :
    Operand env elementSize (s.get h) :=
  ⟨fun m hm => (run_sound hrun h m hm).1, fun m hm => (run_sound hrun h m hm).2, hlayout⟩

/-- Each predicate tells the relation between the members of two reachable sets, `NULL` and empty
ones included. -/
theorem relations_match_membership {events : List (Op × Result)}
    (hrun : Run (system env) events s) (hsize : elementSize ≠ 0) {a b : ℕ}
    (ha : LorSet.layoutValid (s.get a) elementSize = true)
    (hb : LorSet.layoutValid (s.get b) elementSize = true)
    (hmatch : Matching (s.get a) (s.get b)) (howners : OwnersAgree (s.get a) (s.get b)) :
    Decides (isSubsetRaw env (s.get a) (s.get b) elementSize)
        (members env elementSize (s.get a) ⊆ members env elementSize (s.get b)) ∧
      Decides (isSupersetRaw env (s.get a) (s.get b) elementSize)
        (members env elementSize (s.get b) ⊆ members env elementSize (s.get a)) ∧
      Decides (equalRaw env (s.get a) (s.get b) elementSize)
        (members env elementSize (s.get a) = members env elementSize (s.get b)) ∧
      equalRaw env (s.get b) (s.get a) elementSize =
        equalRaw env (s.get a) (s.get b) elementSize ∧
      Decides (isProperSubsetRaw env (s.get a) (s.get b) elementSize)
        (members env elementSize (s.get a) ⊂ members env elementSize (s.get b)) ∧
      Decides (isProperSupersetRaw env (s.get a) (s.get b) elementSize)
        (members env elementSize (s.get b) ⊂ members env elementSize (s.get a)) ∧
      Decides (isDisjointRaw env (s.get a) (s.get b) elementSize)
        (Disjoint (members env elementSize (s.get a)) (members env elementSize (s.get b))) ∧
      isDisjointRaw env (s.get b) (s.get a) elementSize =
        isDisjointRaw env (s.get a) (s.get b) elementSize ∧
      ∀ c, Matching (s.get a) (s.get c) → OwnersAgree (s.get a) (s.get c) →
        isSubsetRaw env (s.get a) (s.get b) elementSize = some true →
        isSubsetRaw env (s.get b) (s.get c) elementSize = some true →
        isSubsetRaw env (s.get a) (s.get c) elementSize = some true := by
  have hopa := run_operand hrun ha
  have hopb := run_operand hrun hb
  have hvalid := relationsValid_iff.mpr ⟨hsize, ha, hb, hmatch, howners⟩
  have hvalid' := relationsValid_iff.mpr ⟨hsize, hb, ha, hmatch.symm, howners.symm⟩
  obtain ⟨config, hlaw, hagree, hagree'⟩ := exists_agreeing hopa hopb hmatch
  have hsubset := isSubsetRaw_spec hopa hopb hlaw hagree hagree' hvalid
  have hequal := equalRaw_spec hopa hopb hlaw hagree hagree' hvalid
  have hdisjoint := isDisjointRaw_spec hopa hopb hlaw hagree hagree' hvalid
  refine ⟨hsubset, isSubsetRaw_spec hopb hopa hlaw hagree' hagree hvalid', hequal, ?_,
    isProperSubsetRaw_spec hopa hopb hlaw hagree hagree' hvalid,
    isProperSubsetRaw_spec hopb hopa hlaw hagree' hagree hvalid', hdisjoint, ?_, ?_⟩
  · have hequal' := equalRaw_spec hopb hopa hlaw hagree' hagree hvalid'
    rw [eq_comm] at hequal'
    exact hequal'.unique hequal
  · have hdisjoint' := isDisjointRaw_spec hopb hopa hlaw hagree' hagree hvalid'
    rw [disjoint_comm] at hdisjoint'
    exact hdisjoint'.unique hdisjoint
  · intro c hac howners' hab hbc
    have hvalid'' := relationsValid_of_isSubsetRaw hbc
    obtain ⟨-, -, hc, hmatch', -⟩ := relationsValid_iff.mp hvalid''
    have hopc := run_operand hrun hc
    obtain ⟨config₁, hlaw₁, hb₁, hc₁⟩ := exists_agreeing hopb hopc hmatch'
    have hsub := hsubset.of_eq_true hab
    have hsub' := (isSubsetRaw_spec hopb hopc hlaw₁ hb₁ hc₁ hvalid'').of_eq_true hbc
    obtain ⟨config₂, hlaw₂, ha₂, hc₂⟩ := exists_agreeing hopa hopc hac
    have hac' := relationsValid_iff.mpr ⟨hsize, ha, hc, hac, howners'⟩
    exact (isSubsetRaw_spec hopa hopc hlaw₂ ha₂ hc₂ hac').eq_true (hsub.trans hsub')

/-- An owning policy that compares bytes and clones with callback `f`. -/
def owningConfig (f : FnPtr) : Config := ⟨some 1, some 1, none, some f, some f, 0⟩

theorem lawful_owningConfig (f : FnPtr) : Lawful policyEnv (owningConfig f) 1 where
  refl := lawful_byteConfig.refl
  symm := lawful_byteConfig.symm
  trans := lawful_byteConfig.trans
  hash_eq _ _ _ _ _ := rfl
  clone _ _ a _ h _ := ⟨h, lawful_byteConfig.refl a h⟩

/-- The key 7 in handle 0 and in the owning handles 1 and 2, whose clone callbacks differ, the keys
7 and 8 in handle 3, and `NULL` in handle 4. -/
theorem run_owners : ∃ events s, Run (system policyEnv) events s ∧
    getConfig (s.get 0) = byteConfig ∧ getConfig (s.get 1) = owningConfig 1 ∧
    getConfig (s.get 2) = owningConfig 2 ∧ getConfig (s.get 3) = byteConfig ∧ s.get 4 = none ∧
    (∀ h < 3, (elements (s.get h)).map (fun e => e.key.bytes) = [[7]]) ∧
    (elements (s.get 3)).map (fun e => e.key.bytes) = [[7], [8]] ∧
    (∀ h < 5, LorSet.layoutValid (s.get h) 1 = true) ∧
    isSubsetRaw policyEnv (s.get 1) (s.get 0) 1 = some true ∧
    isSubsetRaw policyEnv (s.get 0) (s.get 2) 1 = some true ∧
    isSubsetRaw policyEnv (s.get 1) (s.get 2) 1 = some false ∧
    equalRaw policyEnv (s.get 1) (s.get 2) 1 = some false := by
  have h0 : Run (system policyEnv) [] ⟨[none, none, none, none, none], ⟨0, 0, 0, []⟩, []⟩ :=
    .start ⟨by simp, rfl, rfl, rfl⟩
  have h1 := run_call h0 0 (.init 1 1 byteConfig) (by decide) lawful_byteConfig rfl
  have h2 := run_call h1 1 (.init 1 1 (owningConfig 1)) (by decide) (lawful_owningConfig 1) rfl
  have h3 := run_call h2 2 (.init 1 1 (owningConfig 2)) (by decide) (lawful_owningConfig 2) rfl
  have h4 := run_call h3 3 (.init 1 1 byteConfig) (by decide) lawful_byteConfig rfl
  have h5 := run_call h4 0 (.set 1 1 (caller [7])) (by decide) trivial rfl
  have h6 := run_call h5 1 (.set 1 1 (caller [7])) (by decide) trivial rfl
  have h7 := run_call h6 2 (.set 1 1 (caller [7])) (by decide) trivial rfl
  have h8 := run_call h7 3 (.set 1 1 (caller [7])) (by decide) trivial rfl
  have h9 := run_call h8 3 (.set 1 1 (caller [8])) (by decide) trivial rfl
  exact ⟨_, _, h9, rfl, rfl, rfl, rfl, rfl, by decide, rfl, by decide, rfl, rfl, rfl, rfl⟩

/-- The key 7 of handle 0 among the keys of handle 3. -/
theorem relations_match_membership_owners : ∃ s : State,
    Decides (isSubsetRaw policyEnv (s.get 0) (s.get 3) 1)
      (members policyEnv 1 (s.get 0) ⊆ members policyEnv 1 (s.get 3)) ∧
    isDisjointRaw policyEnv (s.get 3) (s.get 0) 1 =
      isDisjointRaw policyEnv (s.get 0) (s.get 3) 1 ∧
    (elements (s.get 3)).map (fun e => e.key.bytes) = [[7], [8]] := by
  obtain ⟨events, s, hrun, h0, -, -, h3, -, -, hkeys, hlayout, -⟩ := run_owners
  have hmatch : Matching (s.get 0) (s.get 3) := by
    intro _ _
    rw [h0, h3]
    exact SameSemantics.refl _
  have howners : OwnersAgree (s.get 0) (s.get 3) := by
    intro _ _
    rw [h0]
    exact Or.inl rfl
  obtain ⟨hsubset, -, -, -, -, -, -, hsymm, -⟩ := relations_match_membership hrun one_ne_zero
    (hlayout 0 (by omega)) (hlayout 3 (by omega)) hmatch howners
  exact ⟨s, hsubset, hsymm, hkeys⟩

/-- Two sets of one key that compare their keys alike and clone them differently are in no relation,
although each is equal to the same borrowing set; nor are two `NULL` operands without a size. -/
theorem relations_need_owners : ∃ events s, Run (system policyEnv) events s ∧
    (∀ h < 3, LorSet.layoutValid (s.get h) 1 = true) ∧
    (∀ h < 3, ∀ h' < 3, SameSemantics (getConfig (s.get h)) (getConfig (s.get h'))) ∧
    members policyEnv 1 (s.get 1) = members policyEnv 1 (s.get 2) ∧
    isSubsetRaw policyEnv (s.get 1) (s.get 2) 1 = some false ∧
    equalRaw policyEnv (s.get 1) (s.get 2) 1 = some false ∧
    isSubsetRaw policyEnv (s.get 1) (s.get 0) 1 = some true ∧
    isSubsetRaw policyEnv (s.get 0) (s.get 2) 1 = some true ∧
    LorSet.layoutValid (s.get 4) 0 = true ∧
    isSubsetRaw policyEnv (s.get 4) (s.get 4) 0 = some false := by
  obtain ⟨events, s, hrun, h0, h1, h2, -, hnull, hkeys, -, hlayout, h10, h02, h12, heq⟩ :=
    run_owners
  have hbyte : ∀ h < 3, SameSemantics (getConfig (s.get h)) byteConfig := by
    intro h hh
    have hcases : h = 0 ∨ h = 1 ∨ h = 2 := by omega
    rcases hcases with rfl | rfl | rfl
    · rw [h0]
      exact SameSemantics.refl _
    · rw [h1]
      exact ⟨rfl, rfl, rfl, rfl⟩
    · rw [h2]
      exact ⟨rfl, rfl, rfl, rfl⟩
  have hmembers : ∀ h < 3, members policyEnv 1 (s.get h) = {[7]} := by
    intro h hh
    have hop := run_operand hrun (hlayout h (by omega))
    ext k
    have hhas : Has policyEnv (s.get h) k ↔ k = [7] := by
      rw [Has, (hbyte h hh).sameKey]
      simp only [SameKey, equal_byteConfig]
      rw [← List.mem_map, hkeys h hh, List.mem_singleton]
    rw [mem_members_iff hop (fun _ => hbyte h hh), Set.mem_singleton_iff, hhas]
    constructor
    · intro hk
      exact hk.2
    · intro hk
      subst hk
      exact ⟨⟨rfl, rfl⟩, rfl⟩
  refine ⟨events, s, hrun, fun h hh => hlayout h (by omega),
    fun h hh h' hh' => (hbyte h hh).trans (hbyte h' hh').symm, ?_, h12, heq, h10, h02, ?_, ?_⟩
  · rw [hmembers 1 (by omega), hmembers 2 (by omega)]
  · rw [hnull]
    rfl
  · rw [hnull]
    rfl

end Liblor.Handles
