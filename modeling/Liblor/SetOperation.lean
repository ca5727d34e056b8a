import Liblor.MapOwnership
import Liblor.SetModel

/-!
# What the set algebra builds

The loops of the algebra add elements of the operands to a result that only they can reach. Each
step of a loop adds one class of equal keys or fails, and the result keeps its policy and its
invariant throughout.
-/

namespace Liblor.LorSet

open Map DenseList KeyedList

variable {env : Env} {elementSize : ℕ} {config : Config} {m : LorMap} {set : Option LorMap}
  {world : World}

def elements : Option LorMap → List Entry
  | none => []
  | some set => set.entries

/-- The set has an element equal to `key`. -/
def Has (env : Env) (set : Option LorMap) (key : Bytes) : Prop :=
  ∃ e ∈ elements set, SameKey env (getConfig set) e.key.bytes key

/-- The parts of a configuration that decide which keys are accepted and equal. -/
def SameSemantics (a b : Config) : Prop :=
  a.hash = b.hash ∧ a.equal = b.equal ∧ a.keyValid = b.keyValid ∧ a.context = b.context

/-- An operand of the algebra: a set with its invariant, or `NULL`. -/
structure Operand (env : Env) (elementSize : ℕ) (set : Option LorMap) : Prop where
  inv : ∀ m, set = some m → Inv env m
  lawful : ∀ m, set = some m → Lawful env m.config m.keySize
  layout : layoutValid set elementSize = true

/-- A set whose elements, if any, mean the same under `config`. -/
def Agreeing (config : Config) (set : Option LorMap) : Prop :=
  elements set ≠ [] → SameSemantics (getConfig set) config

/-- A result under construction. -/
structure Built (env : Env) (config : Config) (elementSize : ℕ) (m : LorMap) : Prop where
  inv : Inv env m
  config : m.config = config
  entrySize : m.entrySize = elementSize
  keySize : m.keySize = elementSize

/-! ## Semantics -/

theorem SameSemantics.sameKey {a b : Config} (h : SameSemantics a b) :
    SameKey env a = SameKey env b := by
  obtain ⟨-, hequal, -, hcontext⟩ := h
  unfold SameKey equal
  rw [hequal, hcontext]

theorem SameSemantics.keyOk {a b : Config} (h : SameSemantics a b) :
    KeyOk env a = KeyOk env b := by
  obtain ⟨-, -, hvalid, hcontext⟩ := h
  unfold KeyOk keyValid
  rw [hvalid, hcontext]

theorem SameSemantics.symm {a b : Config} (h : SameSemantics a b) : SameSemantics b a :=
  ⟨h.1.symm, h.2.1.symm, h.2.2.1.symm, h.2.2.2.symm⟩

theorem SameSemantics.trans {a b c : Config} (h : SameSemantics a b) (h' : SameSemantics b c) :
    SameSemantics a c :=
  ⟨h.1.trans h'.1, h.2.1.trans h'.2.1, h.2.2.1.trans h'.2.2.1, h.2.2.2.trans h'.2.2.2⟩

theorem configsCompatible_semantics {a b : Config} (h : configsCompatible a b = true) :
    SameSemantics a b := by
  unfold configsCompatible at h
  split_ifs at h with hdiff
  simp only [Bool.or_eq_true, bne_iff_ne, not_or, ne_eq, not_not] at hdiff
  exact ⟨hdiff.1.1.1, hdiff.1.1.2, hdiff.1.2, hdiff.2⟩

/-! ## The elements of an operand -/

theorem Operand.sizes (h : Operand env elementSize (some m)) :
    m.entrySize = elementSize ∧ m.keySize = elementSize := by
  have hlayout := h.layout
  simp only [layoutValid, Bool.and_eq_true, beq_iff_eq] at hlayout
  exact ⟨hlayout.1.2, hlayout.2⟩

theorem Operand.key_bytes (h : Operand env elementSize set) {i : ℕ} {e : Entry}
    (he : (elements set)[i]? = some e) (handle : Option LorMap) :
    (key set elementSize i).bytes handle elementSize = e.key.bytes := by
  cases set with
  | none => cases he
  | some m =>
      have he' : m.entries[i]? = some e := he
      obtain ⟨hes, hks⟩ := h.sizes
      have hinv := h.inv m rfl
      have hmem := List.mem_of_getElem? he'
      have hkey := (hinv.keys e hmem).1
      have hread : (m.image.drop (i * elementSize)).take elementSize = e.bytes := by
        have hlen : ∀ b ∈ m.entries.map Entry.bytes, b.length = elementSize := by
          intro b hb
          obtain ⟨x, hx, rfl⟩ := List.mem_map.mp hb
          rw [Entry.bytes, List.length_append, (hinv.keys x hx).1, hinv.values x hx]
          omega
        exact take_drop_flatten hlen (by rw [List.getElem?_map, he']; rfl)
      have hroom : i * elementSize + elementSize ≤ m.image.length := by
        rw [hinv.length_image, hes]
        have hi : i + 1 ≤ m.size := (List.getElem?_eq_some_iff.mp he').1
        calc
          i * elementSize + elementSize = (i + 1) * elementSize := by ring
          _ ≤ m.size * elementSize := Nat.mul_le_mul_right _ hi
      have hvalue : e.value = [] := by
        apply List.eq_nil_of_length_eq_zero
        rw [hinv.values e hmem, hes, hks, Nat.sub_self]
      simp only [LorSet.key, Source.bytes]
      rw [map_getD_range 0 hroom, hread, Entry.bytes, hvalue, List.append_nil]

theorem Operand.keyOk (h : Operand env elementSize set) {e : Entry} (he : e ∈ elements set) :
    KeyOk env (getConfig set) elementSize e.key.bytes := by
  cases set with
  | none => cases he
  | some m =>
      rw [← h.sizes.2]
      exact (h.inv m rfl).keys e he

theorem key_ne_null {i : ℕ} {e : Entry} (he : (elements set)[i]? = some e) :
    key set elementSize i ≠ .null := by
  cases set with
  | none => cases he
  | some m => simp [key]

theorem key_valid {i : ℕ} {e : Entry} (he : (elements set)[i]? = some e)
    (handle : Option LorMap) (n : ℕ) : (key set elementSize i).Valid handle n := by
  cases set with
  | none => cases he
  | some m => cases handle <;> trivial

/-! ## Lookups in an operand -/

/-- A lookup in an operand returns, and for a key that is valid there it tells membership. -/
theorem containsRaw_spec (h : Operand env elementSize set) {source : Source}
    (hnull : source ≠ .null) (hs : source.Valid set elementSize) :
    ∃ b, containsRaw env set elementSize source = some b ∧
      (keyValid env (getConfig set) (source.bytes set elementSize) = true →
        (b = true ↔ Has env set (source.bytes set elementSize))) ∧
      (elements set = [] → b = false) := by
  cases set with
  | none =>
      refine ⟨false, rfl, fun _ => ?_, fun _ => rfl⟩
      simp [Has, elements]
  | some m =>
      obtain ⟨hes, hks⟩ := h.sizes
      have hinv := h.inv m rfl
      have hlayout : matchesLayout (some m) elementSize elementSize = true := by
        have hvalid := hinv.layout
        rw [hes, hks] at hvalid
        simp [matchesLayout, hvalid, hes, hks]
      have hbytes : source.bytes (some m) elementSize = source.read m m.keySize := by
        rw [Source.bytes_some, hks]
      rw [hbytes]
      by_cases hvalid : keyValid env m.config (source.read m m.keySize) = true
      · have hsought : Sought env m elementSize elementSize source := ⟨hlayout, hnull, hvalid⟩
        obtain ⟨i, e, hfind, he, heq⟩ | ⟨hfind, hno⟩ :=
          findRaw_cases hsought hinv (h.lawful m rfl) hs
        · refine ⟨true, by rw [containsRaw, Map.containsRaw, hfind]; rfl, fun _ => ?_, ?_⟩
          · exact iff_of_true rfl ⟨e, List.mem_of_getElem? he, heq⟩
          · intro hempty
            have hnil : m.entries = [] := hempty
            rw [hnil] at he
            cases he
        · refine ⟨false, by rw [containsRaw, Map.containsRaw, hfind]; rfl, fun _ => ?_,
            fun _ => rfl⟩
          refine iff_of_false Bool.false_ne_true ?_
          intro hhas
          obtain ⟨e, he, hek⟩ := hhas
          obtain ⟨i, hi⟩ := List.mem_iff_getElem?.mp he
          have hfalse := hno i (List.getElem?_eq_some_iff.mp hi).1
          rw [keyAt_of_getElem? hi] at hfalse
          exact Bool.false_ne_true (hfalse.symm.trans hek)
      · have hfind : findRaw env (some m) elementSize elementSize source = some none := by
          cases source with
          | null => exact absurd rfl hnull
          | outside address memory => simp [findRaw, hlayout, hvalid]
          | inside offset => simp [findRaw, hlayout, hvalid]
        exact ⟨false, by rw [containsRaw, Map.containsRaw, hfind]; rfl,
          fun hvalid' => absurd hvalid' hvalid, fun _ => rfl⟩

theorem Has.congr (h : Operand env elementSize set) {a b : Bytes}
    (ha : KeyOk env (getConfig set) elementSize a) (hb : KeyOk env (getConfig set) elementSize b)
    (hab : SameKey env (getConfig set) a b) : Has env set a ↔ Has env set b := by
  cases set with
  | none => simp [Has, elements]
  | some m =>
      have hequiv := (h.lawful m rfl).equivOn
      rw [h.sizes.2] at hequiv
      constructor
      · intro hhas
        obtain ⟨e, he, hea⟩ := hhas
        exact ⟨e, he, hequiv.trans _ _ _ (h.keyOk he) ha hb hea hab⟩
      · intro hhas
        obtain ⟨e, he, heb⟩ := hhas
        exact ⟨e, he, hequiv.trans _ _ _ (h.keyOk he) hb ha heb (hequiv.symm _ _ ha hb hab)⟩

/-! ## Adding to the result -/

theorem has_set {i : ℕ} {old e : Entry} (hold : m.entries[i]? = some old) {key : Bytes}
    (hequiv : EquivOn (KeyOk env m.config m.keySize) (SameKey env m.config)) (hinv : Inv env m)
    (hkey : KeyOk env m.config m.keySize key) (he : KeyOk env m.config m.keySize e.key.bytes)
    (holdeq : SameKey env m.config old.key.bytes key) (heq : SameKey env m.config e.key.bytes key)
    {k : Bytes} (hk : KeyOk env m.config m.keySize k) :
    Has env (some (m.withEntries (m.entries.set i e))) k ↔
      Has env (some m) k ∨ SameKey env m.config key k := by
  have hi : i < m.entries.length := (List.getElem?_eq_some_iff.mp hold).1
  have holdok := hinv.keys old (List.mem_of_getElem? hold)
  constructor
  · intro hhas
    obtain ⟨x, hx, hxk⟩ := hhas
    rcases List.mem_or_eq_of_mem_set hx with hx | hx
    · exact Or.inl ⟨x, hx, hxk⟩
    · subst x
      exact Or.inr (hequiv.trans _ _ _ hkey he hk (hequiv.symm _ _ he hkey heq) hxk)
  · intro hhas
    have hnew : SameKey env m.config key k →
        Has env (some (m.withEntries (m.entries.set i e))) k :=
      fun hkk => ⟨e, List.mem_set hi e, hequiv.trans _ _ _ he hkey hk heq hkk⟩
    rcases hhas with ⟨x, hx, hxk⟩ | hkk
    · obtain ⟨j, hj⟩ := List.mem_iff_getElem?.mp hx
      by_cases hji : j = i
      · subst j
        have hox : old = x := Option.some.inj (hold.symm.trans hj)
        rw [hox] at holdeq
        exact hnew (hequiv.trans _ _ _ hkey (hinv.keys x hx) hk
          (hequiv.symm _ _ (hinv.keys x hx) hkey holdeq) hxk)
      · refine ⟨x, List.mem_iff_getElem?.mpr ⟨j, ?_⟩, hxk⟩
        have hj' : m.entries[j]? = some x := hj
        change (m.entries.set i e)[j]? = some x
        rw [List.getElem?_set_ne (Ne.symm hji), hj']
    · exact hnew hkk

theorem Built.resized {moved : LorMap} (hb : Built env config elementSize m)
    (hinv : Inv env moved) (hresized : Resized m moved) : Built env config elementSize moved :=
  ⟨hinv, hresized.config.trans hb.config, hresized.entrySize.trans hb.entrySize,
    hresized.keySize.trans hb.keySize⟩

theorem Has.resized {moved : LorMap} (hresized : Resized m moved) (k : Bytes) :
    Has env (some moved) k ↔ Has env (some m) k := by
  simp only [Has, elements, getConfig, hresized.entries, hresized.config]

theorem addRaw_spec (hb : Built env config elementSize m) (hlaw : Lawful env config elementSize)
    (world : World) {source : Source} (hs : source.Valid (some m) elementSize) :
    ∃ status m' world', addRaw env world (some m) elementSize source =
        some (status, some m', world') ∧ Built env config elementSize m' ∧
      Moves world (some m) world' (some m') ∧
      (status = .ok → ∀ k, KeyOk env config elementSize k → (Has env (some m') k ↔
        Has env (some m) k ∨ SameKey env config (source.bytes (some m) elementSize) k)) := by
  have hinv : ∀ x, some m = some x → Inv env x := by
    intro x hx
    cases hx
    exact hb.inv
  have hlawful : ∀ x, some m = some x → Lawful env x.config x.keySize := by
    intro x hx
    cases hx
    rw [hb.config, hb.keySize]
    exact hlaw
  obtain ⟨status, handle', world', heq, hinv', hcase⟩ :=
    setRaw_cases world elementSize hinv hlawful hs
  have hmoves := setRaw_moves hinv hlawful hs heq
  have hsame : status ≠ .ok → handle' = some m → ∃ status m' world',
      addRaw env world (some m) elementSize source = some (status, some m', world') ∧
        Built env config elementSize m' ∧ Moves world (some m) world' (some m') ∧
        (status = .ok → ∀ k, KeyOk env config elementSize k → (Has env (some m') k ↔
          Has env (some m) k ∨ SameKey env config (source.bytes (some m) elementSize) k)) := by
    intro hstatus hhandle
    subst hhandle
    exact ⟨status, m, world', heq, hb, hmoves, fun hok => absurd hok hstatus⟩
  obtain ⟨hstatus, hhandle, -⟩ | ⟨map, created, w₁, htarget, -, hout, hvalid⟩ := hcase
  · exact hsame hstatus hhandle
  rcases htarget.handle with ⟨hm, rfl⟩ | ⟨hm, -, -⟩
  swap
  · cases hm
  cases hm
  have hequiv := htarget.lawful.equivOn
  have hbytes : source.bytes (some m) elementSize = source.read m m.keySize := by
    rw [Source.bytes_some, hb.keySize]
  cases hout with
  | rejected hstatus _ => exact hsame hstatus rfl
  | abandoned hstatus _ _ => exact hsame hstatus rfl
  | replaced hold holdeq hstored =>
      have hkey : KeyOk env m.config m.keySize (source.read m m.keySize) :=
        ⟨htarget.legal.length_read hb.inv (keySize_pos hb.inv.layout).2, hvalid rfl⟩
      refine ⟨.ok, _, _, heq, ⟨hinv' _ rfl, hb.config, hb.entrySize, hb.keySize⟩, hmoves, ?_⟩
      intro _ k hk
      rw [hbytes, ← hb.config]
      rw [← hb.config, ← hb.keySize] at hk
      exact has_set hold hequiv hb.inv hkey hstored.ok.key holdeq hstored.equal hk
  | appended hno hstored _ hresized =>
      have hkey : KeyOk env m.config m.keySize (source.read m m.keySize) :=
        ⟨htarget.legal.length_read hb.inv (keySize_pos hb.inv.layout).2, hvalid rfl⟩
      refine ⟨.ok, _, _, heq, ⟨hinv' _ rfl, hresized.config.trans hb.config,
        hresized.entrySize.trans hb.entrySize, hresized.keySize.trans hb.keySize⟩, hmoves, ?_⟩
      intro _ k hk
      rw [hbytes, ← hb.config, Has.resized hresized]
      rw [← hb.config, ← hb.keySize] at hk
      constructor
      · intro hhas
        obtain ⟨x, hx, hxk⟩ := hhas
        rcases List.mem_append.mp hx with hx | hx
        · exact Or.inl ⟨x, hx, hxk⟩
        · rw [List.mem_singleton.mp hx] at hxk
          exact Or.inr (hequiv.trans _ _ _ hkey hstored.ok.key hk
            (hequiv.symm _ _ hstored.ok.key hkey hstored.equal) hxk)
      · intro hhas
        rcases hhas with ⟨x, hx, hxk⟩ | hkk
        · exact ⟨x, List.mem_append_left _ hx, hxk⟩
        · exact ⟨_, List.mem_append_right _ (List.mem_singleton.mpr rfl),
            hequiv.trans _ _ _ hstored.ok.key hkey hk hstored.equal hkk⟩

/-! ## The loops -/

/-- Some element at an index in `is` satisfies `P` there and is equal to `key`. -/
def Selected (env : Env) (config : Config) (set : Option LorMap) (is : List ℕ) (P : ℕ → Prop)
    (key : Bytes) : Prop :=
  ∃ i ∈ is, ∃ e, (elements set)[i]? = some e ∧ P i ∧ SameKey env config e.key.bytes key

theorem selected_cons {i : ℕ} {is : List ℕ} {P : ℕ → Prop} {e : Entry} {k : Bytes}
    (he : (elements set)[i]? = some e) :
    Selected env config set (i :: is) P k ↔
      P i ∧ SameKey env config e.key.bytes k ∨ Selected env config set is P k := by
  unfold Selected
  constructor
  · intro h
    obtain ⟨j, hj, x, hx, hP, hxk⟩ := h
    rcases List.mem_cons.mp hj with hj | hj
    · subst hj
      have hxe : x = e := Option.some.inj (hx.symm.trans he)
      rw [hxe] at hxk
      exact Or.inl ⟨hP, hxk⟩
    · exact Or.inr ⟨j, hj, x, hx, hP, hxk⟩
  · intro h
    rcases h with ⟨hP, hek⟩ | ⟨j, hj, x, hx, hP, hxk⟩
    · exact ⟨i, by simp, e, he, hP, hek⟩
    · exact ⟨j, by simp [hj], x, hx, hP, hxk⟩

/-- What a loop over the indices `is` of `set` leaves: the result it started from and, where it
ends well, the elements that satisfy `P`. -/
structure Grown (env : Env) (config : Config) (elementSize : ℕ) (set : Option LorMap)
    (is : List ℕ) (P : ℕ → Prop) (world : World) (m : LorMap) (status : Status) (m' : LorMap)
    (world' : World) : Prop where
  built : Built env config elementSize m'
  moves : Moves world (some m) world' (some m')
  has : status = .ok → ∀ k, KeyOk env config elementSize k →
    (Has env (some m') k ↔ Has env (some m) k ∨ Selected env config set is P k)

theorem Grown.nil {P : ℕ → Prop} (hb : Built env config elementSize m) :
    Grown env config elementSize set [] P world m .ok m world :=
  ⟨hb, .refl world _, fun _ k _ => by simp [Selected]⟩

theorem Grown.cons {P : ℕ → Prop} {i : ℕ} {is : List ℕ} {e : Entry} {m₁ m' : LorMap}
    {w₁ world' : World} {status : Status} (he : (elements set)[i]? = some e) (hP : P i)
    (hmoves : Moves world (some m) w₁ (some m₁))
    (hadd : ∀ k, KeyOk env config elementSize k →
      (Has env (some m₁) k ↔ Has env (some m) k ∨ SameKey env config e.key.bytes k))
    (h : Grown env config elementSize set is P w₁ m₁ status m' world') :
    Grown env config elementSize set (i :: is) P world m status m' world' where
  built := h.built
  moves := hmoves.trans h.moves
  has hok k hk := by
    rw [h.has hok k hk, hadd k hk, selected_cons he]
    tauto

theorem Grown.skip {P : ℕ → Prop} {i : ℕ} {is : List ℕ} {e : Entry} {m' : LorMap}
    {world' : World} {status : Status} (he : (elements set)[i]? = some e) (hP : ¬ P i)
    (h : Grown env config elementSize set is P world m status m' world') :
    Grown env config elementSize set (i :: is) P world m status m' world' where
  built := h.built
  moves := h.moves
  has hok k hk := by
    rw [h.has hok k hk, selected_cons he]
    tauto

theorem Grown.failed {P : ℕ → Prop} {is : List ℕ} {m' : LorMap} {world' : World}
    {status : Status} (hb : Built env config elementSize m')
    (hmoves : Moves world (some m) world' (some m')) (hstatus : status ≠ .ok) :
    Grown env config elementSize set is P world m status m' world' :=
  ⟨hb, hmoves, fun hok => absurd hok hstatus⟩

theorem addAllLoop_spec (hset : Operand env elementSize set) (hb : Built env config elementSize m)
    (hlaw : Lawful env config elementSize) (world : World) (is : List ℕ)
    (his : ∀ i ∈ is, i < (elements set).length) :
    ∃ status m' world', addAllLoop env world (some m) elementSize set is =
        some (status, some m', world') ∧
      Grown env config elementSize set is (fun _ => True) world m status m' world' := by
  induction is generalizing m world with
  | nil => exact ⟨.ok, m, world, rfl, .nil hb⟩
  | cons i is ih =>
      have he := List.getElem?_eq_getElem (his i (by simp))
      obtain ⟨status, m₁, w₁, hadd, hb₁, hmoves, hhas⟩ :=
        addRaw_spec hb hlaw world (key_valid he (some m) elementSize)
      rw [hset.key_bytes he] at hhas
      simp only [addAllLoop, hadd, Option.bind_eq_bind, Option.bind_some]
      by_cases hok : status = .ok
      · subst hok
        obtain ⟨status', m', world', hloop, hgrown⟩ :=
          ih hb₁ w₁ (fun j hj => his j (by simp [hj]))
        exact ⟨status', m', world', hloop, .cons he trivial hmoves (hhas rfl) hgrown⟩
      · exact ⟨status, m₁, w₁, by simp only [if_pos hok]; rfl, .failed hb₁ hmoves hok⟩

theorem addWhereLoop_spec {other : Option LorMap} (hset : Operand env elementSize set)
    (hother : Operand env elementSize other) (hb : Built env config elementSize m)
    (hlaw : Lawful env config elementSize) (world : World) (wanted : Bool) (is : List ℕ)
    (his : ∀ i ∈ is, i < (elements set).length) :
    ∃ status m' world', addWhereLoop env world (some m) elementSize set other wanted is =
        some (status, some m', world') ∧
      Grown env config elementSize set is
        (fun i => containsRaw env other elementSize (key set elementSize i) = some wanted)
        world m status m' world' := by
  induction is generalizing m world with
  | nil => exact ⟨.ok, m, world, rfl, .nil hb⟩
  | cons i is ih =>
      have he := List.getElem?_eq_getElem (his i (by simp))
      obtain ⟨b, hcontains, -, -⟩ := containsRaw_spec hother (key_ne_null he)
        (key_valid he other elementSize)
      rw [addWhereLoop]
      dsimp only
      rw [hcontains]
      simp only [Option.bind_eq_bind, Option.bind_some]
      by_cases hwanted : b = wanted
      · obtain ⟨status, m₁, w₁, hadd, hb₁, hmoves, hhas⟩ :=
          addRaw_spec hb hlaw world (key_valid he (some m) elementSize)
        rw [hset.key_bytes he] at hhas
        simp only [if_pos hwanted, hadd, Option.bind_some]
        by_cases hok : status = .ok
        · subst hok
          obtain ⟨status', m', world', hloop, hgrown⟩ :=
            ih hb₁ w₁ (fun j hj => his j (by simp [hj]))
          refine ⟨status', m', world', hloop, .cons he ?_ hmoves (hhas rfl) hgrown⟩
          rw [hcontains, hwanted]
        · exact ⟨status, m₁, w₁, by simp only [if_pos hok]; rfl, .failed hb₁ hmoves hok⟩
      · simp only [if_neg hwanted]
        obtain ⟨status', m', world', hloop, hgrown⟩ :=
          ih hb world (fun j hj => his j (by simp [hj]))
        refine ⟨status', m', world', hloop, .skip he ?_ hgrown⟩
        rw [hcontains]
        exact fun h => hwanted (Option.some.inj h)

theorem length_elements (set : Option LorMap) : (elements set).length = size set := by
  cases set <;> rfl

/-! ## Membership after the loops -/

def Operation.combine : Operation → Prop → Prop → Prop
  | .union, p, q => p ∨ q
  | .intersection, p, q => p ∧ q
  | .difference, p, q => p ∧ ¬ q
  | .symmetricDifference, p, q => p ∧ ¬ q ∨ q ∧ ¬ p

theorem selected_all (h : Agreeing config set) {k : Bytes} :
    Selected env config set (List.range (size set)) (fun _ => True) k ↔ Has env set k := by
  constructor
  · intro hsel
    obtain ⟨i, -, e, he, -, hek⟩ := hsel
    have hmem := List.mem_of_getElem? he
    rw [← (h (List.ne_nil_of_mem hmem)).sameKey] at hek
    exact ⟨e, hmem, hek⟩
  · intro hhas
    obtain ⟨e, hmem, hek⟩ := hhas
    obtain ⟨i, hi⟩ := List.mem_iff_getElem?.mp hmem
    rw [(h (List.ne_nil_of_mem hmem)).sameKey] at hek
    have hlt := (List.getElem?_eq_some_iff.mp hi).1
    rw [length_elements] at hlt
    exact ⟨i, List.mem_range.mpr hlt, e, hi, trivial, hek⟩

theorem contains_element_iff {other : Option LorMap} (hset : Operand env elementSize set)
    (hother : Operand env elementSize other) (h : Agreeing config set)
    (h' : Agreeing config other) {i : ℕ} {e : Entry} (he : (elements set)[i]? = some e)
    {k : Bytes} (hk : KeyOk env config elementSize k) (hek : SameKey env config e.key.bytes k)
    (wanted : Bool) :
    containsRaw env other elementSize (key set elementSize i) = some wanted ↔
      (Has env other k ↔ wanted = true) := by
  obtain ⟨b, hcontains, hiff, hempty⟩ := containsRaw_spec hother (key_ne_null he)
    (key_valid he other elementSize)
  rw [hset.key_bytes he] at hiff
  have hb : b = true ↔ Has env other k := by
    by_cases hnil : elements other = []
    · rw [hempty hnil]
      simp [Has, hnil]
    · have hsem := h' hnil
      have hmem := List.mem_of_getElem? he
      have hekey := hset.keyOk hmem
      rw [(h (List.ne_nil_of_mem hmem)).keyOk, ← hsem.keyOk] at hekey
      rw [← hsem.keyOk] at hk
      rw [← hsem.sameKey] at hek
      exact (hiff hekey.2).trans (Has.congr hother hekey hk hek)
  rw [hcontains, Option.some.injEq, ← hb]
  cases b <;> cases wanted <;> simp

theorem selected_where {other : Option LorMap} (hset : Operand env elementSize set)
    (hother : Operand env elementSize other) (h : Agreeing config set)
    (h' : Agreeing config other) {k : Bytes} (hk : KeyOk env config elementSize k)
    (wanted : Bool) :
    Selected env config set (List.range (size set))
        (fun i => containsRaw env other elementSize (key set elementSize i) = some wanted) k ↔
      Has env set k ∧ (Has env other k ↔ wanted = true) := by
  rw [← selected_all h]
  constructor
  · intro hsel
    obtain ⟨i, hi, e, he, hP, hek⟩ := hsel
    exact ⟨⟨i, hi, e, he, trivial, hek⟩,
      (contains_element_iff hset hother h h' he hk hek wanted).mp hP⟩
  · intro hsel
    obtain ⟨⟨i, hi, e, he, -, hek⟩, hiff⟩ := hsel
    exact ⟨i, hi, e, he, (contains_element_iff hset hother h h' he hk hek wanted).mpr hiff, hek⟩

/-! ## The operation -/

theorem reserveForOperation_spec (hb : Built env config elementSize m) (world : World)
    (a b : Option LorMap) (operation : Operation) :
    ∃ status m' world', reserveForOperation env world (some m) elementSize a b operation =
        some (status, some m', world') ∧ Built env config elementSize m' ∧
      Moves world (some m) world' (some m') ∧
      ∀ k, Has env (some m') k ↔ Has env (some m) k := by
  have hinv : ∀ x, some m = some x → Inv env x := by
    intro x hx
    cases hx
    exact hb.inv
  have hreserve : ∀ capacity, ∃ status m' world',
      (if capacity ≠ 0 then reserveRaw env world (some m) elementSize capacity
        else some (.ok, some m, world)) = some (status, some m', world') ∧
      Built env config elementSize m' ∧ Moves world (some m) world' (some m') ∧
      ∀ k, Has env (some m') k ↔ Has env (some m) k := by
    intro capacity
    split_ifs with hcap
    · obtain ⟨status, handle', world', heq, -, hcase⟩ :=
        reserveRaw_cases world (some m) elementSize elementSize capacity hinv
      have hmoves := reserveRaw_moves hinv heq
      obtain ⟨-, rfl⟩ | ⟨-, -, rfl⟩ | ⟨-, header, moved, rfl, hminv, -, hresized, hm | ⟨hm, -⟩⟩ :=
        hcase
      · exact ⟨status, m, world', heq, hb, hmoves, fun k => Iff.rfl⟩
      · exact ⟨status, m, world', heq, hb, hmoves, fun k => Iff.rfl⟩
      · cases hm
        exact ⟨status, moved, world', heq, hb.resized hminv hresized, hmoves, Has.resized hresized⟩
      · cases hm
    · exact ⟨.ok, m, world, rfl, hb, .refl world _, fun k => Iff.rfl⟩
  have hfail : ∃ status m' world', some (Status.overflow, some m, world) =
      some (status, some m', world') ∧ Built env config elementSize m' ∧
      Moves world (some m) world' (some m') ∧ ∀ k, Has env (some m') k ↔ Has env (some m) k :=
    ⟨.overflow, m, world, rfl, hb, .refl world _, fun k => Iff.rfl⟩
  cases operation with
  | union =>
      by_cases hover : size b > sizeMax - size a
      · simp only [reserveForOperation, if_pos hover]
        exact hfail
      · simp only [reserveForOperation, if_neg hover]
        exact hreserve _
  | symmetricDifference =>
      by_cases hover : size b > sizeMax - size a
      · simp only [reserveForOperation, if_pos hover]
        exact hfail
      · simp only [reserveForOperation, if_neg hover]
        exact hreserve _
  | intersection => exact hreserve _
  | difference => exact hreserve _

/-- Filling the result: it always returns, and where it ends well it added what the operation asks
for, provided that the operands' elements mean the same under the result's policy. -/
theorem fill_spec {a b : Option LorMap} (ha : Operand env elementSize a)
    (hb : Operand env elementSize b) (hm : Built env config elementSize m)
    (hlaw : Lawful env config elementSize) (world : World) (operation : Operation) :
    ∃ status m' world', fill env world (some m) elementSize a b operation =
        some (status, some m', world') ∧ Built env config elementSize m' ∧
      Moves world (some m) world' (some m') ∧
      (status = .ok → Agreeing config a → Agreeing config b →
        ∀ k, KeyOk env config elementSize k → (Has env (some m') k ↔
          Has env (some m) k ∨ operation.combine (Has env a k) (Has env b k))) := by
  have hrange : ∀ set : Option LorMap, ∀ i ∈ List.range (size set), i < (elements set).length := by
    intro set i hi
    rw [length_elements]
    exact List.mem_range.mp hi
  have hfirst := fun wanted => addWhereLoop_spec ha hb hm hlaw world wanted _ (hrange a)
  cases operation with
  | union =>
      obtain ⟨s₁, m₁, w₁, hloop₁, hgrown₁⟩ := addAllLoop_spec ha hm hlaw world _ (hrange a)
      simp only [fill, addAll, hloop₁, Option.bind_eq_bind, Option.bind_some]
      by_cases hok : s₁ = .ok
      · subst hok
        obtain ⟨s₂, m₂, w₂, hloop₂, hgrown₂⟩ :=
          addAllLoop_spec hb hgrown₁.built hlaw w₁ _ (hrange b)
        refine ⟨s₂, m₂, w₂, hloop₂, hgrown₂.built, hgrown₁.moves.trans hgrown₂.moves, ?_⟩
        intro hok hagree hagree' k hk
        rw [hgrown₂.has hok k hk, hgrown₁.has rfl k hk, selected_all hagree, selected_all hagree',
          Operation.combine, or_assoc]
      · exact ⟨s₁, m₁, w₁, by simp only [if_pos hok]; rfl, hgrown₁.built, hgrown₁.moves,
          fun hok' => absurd hok' hok⟩
  | intersection =>
      obtain ⟨s₁, m₁, w₁, hloop₁, hgrown₁⟩ := hfirst true
      refine ⟨s₁, m₁, w₁, ?_, hgrown₁.built, hgrown₁.moves, ?_⟩
      · simp only [fill, beq_self_eq_true, hloop₁]
        simp
      · intro hok hagree hagree' k hk
        rw [hgrown₁.has hok k hk, selected_where ha hb hagree hagree' hk true, Operation.combine]
        simp
  | difference =>
      obtain ⟨s₁, m₁, w₁, hloop₁, hgrown₁⟩ := hfirst false
      refine ⟨s₁, m₁, w₁, ?_, hgrown₁.built, hgrown₁.moves, ?_⟩
      · simp only [fill, show (Operation.difference == .intersection) = false from rfl, hloop₁]
        simp
      · intro hok hagree hagree' k hk
        rw [hgrown₁.has hok k hk, selected_where ha hb hagree hagree' hk false, Operation.combine]
        simp
  | symmetricDifference =>
      obtain ⟨s₁, m₁, w₁, hloop₁, hgrown₁⟩ := hfirst false
      simp only [fill, show (Operation.symmetricDifference == .intersection) = false from rfl,
        hloop₁, Option.bind_eq_bind, Option.bind_some, and_true]
      by_cases hok : s₁ = .ok
      · subst hok
        obtain ⟨s₂, m₂, w₂, hloop₂, hgrown₂⟩ :=
          addWhereLoop_spec hb ha hgrown₁.built hlaw w₁ false _ (hrange b)
        refine ⟨s₂, m₂, w₂, hloop₂, hgrown₂.built, hgrown₁.moves.trans hgrown₂.moves, ?_⟩
        intro hok hagree hagree' k hk
        rw [hgrown₂.has hok k hk, hgrown₁.has rfl k hk,
          selected_where ha hb hagree hagree' hk false,
          selected_where hb ha hagree' hagree hk false, Operation.combine]
        simp only [Bool.false_eq_true, iff_false, or_assoc]
      · exact ⟨s₁, m₁, w₁, by simp only [if_neg hok]; rfl, hgrown₁.built, hgrown₁.moves,
          fun hok' => absurd hok' hok⟩

theorem Operand.lawful_getConfig (h : Operand env elementSize set) :
    Lawful env (getConfig set) elementSize := by
  cases set with
  | none => exact lawful_configBytes env elementSize
  | some m =>
      rw [← h.sizes.2]
      exact h.lawful m rfl

theorem resultConfig_cases (a b : Option LorMap) :
    resultConfig a b = getConfig a ∨ resultConfig a b = getConfig b ∨
      resultConfig a b = configBytes := by
  unfold resultConfig
  dsimp only
  split_ifs
  · exact Or.inl rfl
  · exact Or.inr (Or.inl rfl)
  · exact Or.inl rfl
  · exact Or.inr (Or.inl rfl)
  · exact Or.inl rfl
  · exact Or.inr (Or.inl rfl)
  · exact Or.inr (Or.inr rfl)

theorem deinit_failed {w : World} {status : Status} {P : Status → Option LorMap → Prop}
    (hstatus : status ≠ .ok) (hinv : Inv env m) (hmoves : Moves world none w (some m)) :
    ∃ status' handle' world', some (status, (none : Option LorMap), (deinit env w (some m)).2) =
        some (status', handle', world') ∧ Moves world none world' handle' ∧
      (status' ≠ .ok ∧ handle' = none ∨ P status' handle') := by
  have hdrop : Moves w (some m) (deinit env w (some m)).2 none :=
    (deinit_moves (fun x hx => Option.some.inj hx ▸ hinv) rfl).1
  exact ⟨status, none, _, rfl, hmoves.trans hdrop, Or.inl ⟨hstatus, rfl⟩⟩

/-- Everything that the algebra can do with a `NULL` result handle. -/
theorem operation_cases {a b : Option LorMap} (world : World)
    (ha : ∀ m, a = some m → Inv env m ∧ Lawful env m.config m.keySize)
    (hb : ∀ m, b = some m → Inv env m ∧ Lawful env m.config m.keySize) (elementSize : ℕ)
    (op : Operation) :
    ∃ status handle' world', operation env world none elementSize a b op =
        some (status, handle', world') ∧ Moves world none world' handle' ∧
      (status ≠ .ok ∧ handle' = none ∨
        status = .ok ∧ Operand env elementSize a ∧ Operand env elementSize b ∧
          nonemptyConfigsCompatible a b = true ∧
          ∃ m, handle' = some m ∧ Built env (resultConfig a b) elementSize m ∧
            Lawful env (resultConfig a b) elementSize ∧
            (Agreeing (resultConfig a b) a → Agreeing (resultConfig a b) b →
              ∀ k, KeyOk env (resultConfig a b) elementSize k →
                (Has env (some m) k ↔ op.combine (Has env a k) (Has env b k)))) := by
  unfold operation
  split_ifs with hbad
  · exact ⟨_, _, _, rfl, .refl world none, Or.inl ⟨by simp, rfl⟩⟩
  simp only [Option.isSome_none, Bool.false_or, Bool.or_eq_true, beq_iff_eq, Bool.not_eq_true',
    not_or, Bool.not_eq_false] at hbad
  obtain ⟨⟨⟨hsize, hla⟩, hlb⟩, hcompat⟩ := hbad
  have hopa : Operand env elementSize a := ⟨fun m hm => (ha m hm).1, fun m hm => (ha m hm).2, hla⟩
  have hopb : Operand env elementSize b := ⟨fun m hm => (hb m hm).1, fun m hm => (hb m hm).2, hlb⟩
  have hlaw : Lawful env (resultConfig a b) elementSize := by
    rcases resultConfig_cases a b with heq | heq | heq
    · rw [heq]
      exact hopa.lawful_getConfig
    · rw [heq]
      exact hopb.lawful_getConfig
    · rw [heq]
      exact lawful_configBytes env elementSize
  obtain ⟨status, handle, w₁, hinit, hquiet,
    ⟨hstatus, rfl⟩ | ⟨rfl, -, hlayout, hconfig, header, rfl, hfresh⟩⟩ :=
    initRaw_cases env world none elementSize elementSize (resultConfig a b)
  · rw [initRaw, hinit]
    refine ⟨status, none, w₁, ?_, .of_quiet hquiet rfl id, Or.inl ⟨hstatus, rfl⟩⟩
    cases status <;> first | exact absurd rfl hstatus | rfl
  rw [initRaw, hinit]
  have hbuilt : Built env (resultConfig a b) elementSize header :=
    ⟨hfresh.inv hlayout hconfig, hfresh.config, hfresh.entrySize, hfresh.keySize⟩
  have hstart := fresh_moves hquiet hfresh
  obtain ⟨s₂, m₂, w₂, hreserve, hbuilt₂, hmoves₂, hhas₂⟩ :=
    reserveForOperation_spec hbuilt w₁ a b op
  simp only [hreserve, Option.bind_eq_bind, Option.bind_some]
  by_cases hok₂ : s₂ = .ok
  swap
  · rw [if_pos hok₂]
    exact deinit_failed hok₂ hbuilt₂.inv (hstart.trans hmoves₂)
  rw [if_neg (fun h => h hok₂)]
  obtain ⟨s₃, m₃, w₃, hfill, hbuilt₃, hmoves₃, hhas₃⟩ :=
    fill_spec hopa hopb hbuilt₂ hlaw w₂ op
  simp only [hfill, Option.bind_some]
  by_cases hok₃ : s₃ = .ok
  swap
  · rw [if_pos hok₃]
    exact deinit_failed hok₃ hbuilt₃.inv ((hstart.trans hmoves₂).trans hmoves₃)
  rw [if_neg (fun h => h hok₃)]
  refine ⟨.ok, some m₃, w₃, rfl, (hstart.trans hmoves₂).trans hmoves₃, Or.inr ⟨rfl, hopa, hopb,
    hcompat, m₃, rfl, hbuilt₃, hlaw, ?_⟩⟩
  intro hagree hagree' k hk
  rw [hhas₃ hok₃ hagree hagree' k hk, hhas₂ k]
  simp [Has, elements, hfresh.entries]

end Liblor.LorSet
