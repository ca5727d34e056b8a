import Liblor.Handles

/-!
# The set algebra on reachable handles

The membership and size of a result, and the policy that it inherits.
-/

namespace Liblor.Handles

open Map LorSet Transition KeyedList

variable {env : Env} {s s' : State} {elementSize : ℕ} {m : LorMap}

/-- The key with these bytes, in memory of the caller. -/
def caller (key : Bytes) : Source := .outside 0 fun i => key.getD i 0

theorem caller_bytes {key : Bytes} (hkey : key.length = elementSize) (handle : Option LorMap) :
    (caller key).bytes handle elementSize = key := by
  have hread := DenseList.map_getD_range (0 : UInt8) (k := 0) (n := elementSize) (l := key)
    (by omega)
  simp only [Nat.zero_add, List.drop_zero] at hread
  simp only [caller, Source.bytes]
  rw [hread, List.take_of_length_le (by omega)]

theorem containsRaw_caller {set : Option LorMap} (h : Operand env elementSize set) {key : Bytes}
    (hkey : key.length = elementSize)
    (hvalid : elements set ≠ [] → keyValid env (getConfig set) key = true) :
    ∃ b, containsRaw env set elementSize (caller key) = some b ∧ (b = true ↔ Has env set key) := by
  have hsource : (caller key).Valid set elementSize := by cases set <;> trivial
  obtain ⟨b, hcontains, hiff, hempty⟩ := containsRaw_spec h (by simp [caller]) hsource
  rw [caller_bytes hkey] at hiff
  refine ⟨b, hcontains, ?_⟩
  by_cases hnil : elements set = []
  · rw [hempty hnil]
    simp [Has, hnil]
  · exact hiff (hvalid hnil)

def combine : Operation → Bool → Bool → Bool
  | .union, a, b => a || b
  | .intersection, a, b => a && b
  | .difference, a, b => a && !b
  | .symmetricDifference, a, b => a ^^ b

theorem combine_iff (op : Operation) {a b : Bool} {p q : Prop} (ha : a = true ↔ p)
    (hb : b = true ↔ q) : combine op a b = true ↔ op.combine p q := by
  rw [← ha, ← hb]
  cases op <;> cases a <;> cases b <;> simp [combine, Operation.combine]

theorem Built.operand {config : Config} (hb : Built env config elementSize m)
    (hlaw : Lawful env config elementSize) : Operand env elementSize (some m) where
  inv x hx := by
    cases hx
    exact hb.inv
  lawful x hx := by
    cases hx
    rw [hb.config, hb.keySize]
    exact hlaw
  layout := by
    have hpos := keySize_pos hb.inv.layout
    rw [hb.keySize] at hpos
    simp only [LorSet.layoutValid, hb.entrySize, hb.keySize, beq_self_eq_true, Bool.and_true,
      bne_iff_ne]
    omega

/-- The keys of a result up to equality, counted. -/
theorem Built.ncard {config : Config} (hb : Built env config elementSize m)
    (hlaw : Lawful env config elementSize) {P : Bytes → Prop}
    (hP : ∀ k, KeyOk env config elementSize k → (P k ↔ Has env (some m) k)) :
    (classes (KeyOk env config elementSize) (SameKey env config) P).ncard = m.size := by
  have hkeys := hb.inv.keys
  have hunique := hb.inv.unique (by rw [hb.config, hb.keySize]; exact hlaw)
  rw [hb.config, hb.keySize] at hkeys hunique
  apply ncard_classes hlaw.equivOn hkeys hunique
  intro k hk
  rw [hP k hk, Has, ← hb.config]
  rfl

/-- The semantics that two compatible operands share is that of the result. -/
theorem agreeing_of_compatible {a b : Option LorMap}
    (h : ∀ x y, a = some x → b = some y → configsCompatible x.config y.config = true) :
    Agreeing (resultConfig a b) a ∧ Agreeing (resultConfig a b) b := by
  have hrefl : ∀ c : Config, SameSemantics c c := fun c => ⟨rfl, rfl, rfl, rfl⟩
  cases a with
  | none =>
      refine ⟨fun hne => absurd rfl hne, ?_⟩
      cases b with
      | none => exact fun hne => absurd rfl hne
      | some y =>
          intro _
          have hconfig : resultConfig none (some y) = y.config := by
            unfold resultConfig
            dsimp only [getConfig]
            split_ifs <;> simp_all [size]
          rw [hconfig]
          exact hrefl _
  | some x =>
      cases b with
      | none =>
          refine ⟨fun _ => ?_, fun hne => absurd rfl hne⟩
          have hconfig : resultConfig (some x) none = x.config := by
            unfold resultConfig
            dsimp only [getConfig]
            split_ifs <;> simp_all [size]
          rw [hconfig]
          exact hrefl _
      | some y =>
          have hsem := configsCompatible_semantics (h x y rfl rfl)
          have hconfig : resultConfig (some x) (some y) = x.config ∨
              resultConfig (some x) (some y) = y.config := by
            unfold resultConfig
            dsimp only [getConfig]
            split_ifs <;> simp_all
          rcases hconfig with heq | heq
          · rw [heq]
            exact ⟨fun _ => hrefl _, fun _ => hsem.symm⟩
          · rw [heq]
            exact ⟨fun _ => hsem, fun _ => hrefl _⟩

/-- The algebra on two compatible operands, each `NULL`, empty or filled and possibly the same. -/
theorem algebra_membership {events : List (Op × Result)} (hrun : Run (system env) events s)
    {r a b : ℕ} (hr : r < s.maps.length) (hnull : s.get r = none)
    (hcompat : ∀ x y, s.get a = some x → s.get b = some y →
      configsCompatible x.config y.config = true) (elementSize : ℕ) (op : Operation) :
    ∃ status s', step env s (.algebra r elementSize a b op) = some (.status status, s') ∧
      (∀ h, h ≠ r → s'.get h = s.get h) ∧
      (status ≠ .ok → s'.get r = none) ∧
      (status = .ok → ∃ m, s'.get r = some m ∧
        (∀ k, KeyOk env m.config elementSize k → ∃ inA inB,
          containsRaw env (s.get a) elementSize (caller k) = some inA ∧
          containsRaw env (s.get b) elementSize (caller k) = some inB ∧
          containsRaw env (s'.get r) elementSize (caller k) = some (combine op inA inB)) ∧
        m.size = (classes (KeyOk env m.config elementSize) (SameKey env m.config)
          (fun k => op.combine (Has env (s.get a) k) (Has env (s.get b) k))).ncard) := by
  have hsound := run_sound hrun
  obtain ⟨status, handle', world', heq, -, hcase⟩ :=
    operation_cases s.world (hsound a) (hsound b) elementSize op
  have hstep : step env s (.algebra r elementSize a b op) =
      some (.status status, s.put r handle' world') := by
    rw [step, hnull, algebra_eq, heq]
    rfl
  refine ⟨status, _, hstep, fun h hne => step_frame hstep hne, ?_, ?_⟩
  · intro hstatus
    rw [get_put_self hr]
    obtain ⟨-, hnone⟩ | ⟨hok, -⟩ := hcase
    · exact hnone
    · exact absurd hok hstatus
  · intro hok
    obtain ⟨hstatus, -⟩ | ⟨-, ha, hb, -, m, rfl, hbuilt, hlaw, hhas⟩ := hcase
    · exact absurd hok hstatus
    obtain ⟨hagree, hagree'⟩ := agreeing_of_compatible hcompat
    have hmem := hhas hagree hagree'
    refine ⟨m, get_put_self hr, ?_, ?_⟩
    · intro k hk
      rw [hbuilt.config] at hk
      have hvalid : ∀ set, Agreeing (resultConfig (s.get a) (s.get b)) set →
          elements set ≠ [] → keyValid env (getConfig set) k = true := by
        intro set hset hne
        have hk' := hk
        rw [← (hset hne).keyOk] at hk'
        exact hk'.2
      obtain ⟨inA, hinA, hiffA⟩ := containsRaw_caller ha hk.1 (hvalid _ hagree)
      obtain ⟨inB, hinB, hiffB⟩ := containsRaw_caller hb hk.1 (hvalid _ hagree')
      obtain ⟨inR, hinR, hiffR⟩ := containsRaw_caller (Built.operand hbuilt hlaw) hk.1 (by
        intro _
        rw [getConfig, hbuilt.config]
        exact hk.2)
      refine ⟨inA, inB, hinA, hinB, ?_⟩
      rw [get_put_self hr, hinR]
      rw [Option.some.injEq, Bool.eq_iff_iff, hiffR, combine_iff op hiffA hiffB, hmem k hk]
    · rw [hbuilt.config]
      exact (Built.ncard hbuilt hlaw (fun k hk => (hmem k hk).symm)).symm

/-- Callback 1 compares bytes, callback 2 takes every key for the same one. -/
def policyEnv : Env where
  hash _ _ _ := 0
  equal f _ a b := f == 2 || a == b
  keyValid _ _ _ := true
  clone _ _ _ key := (.ok, key)
  drop _ _ key := key
  malloc n _ := some (4096 * (n + 1))
  freed _ := 0

def byteConfig : Config := ⟨some 1, some 1, none, none, none, 0⟩

def oneKeyConfig : Config := ⟨some 2, some 2, none, some 1, some 1, 0⟩

theorem equal_byteConfig (a b : Bytes) : Map.equal policyEnv byteConfig a b = true ↔ a = b :=
  beq_iff_eq

theorem lawful_byteConfig : Lawful policyEnv byteConfig 1 where
  refl a _ := (equal_byteConfig a a).mpr rfl
  symm a b _ _ h := (equal_byteConfig b a).mpr ((equal_byteConfig a b).mp h).symm
  trans a b c _ _ _ hab hbc := (equal_byteConfig a c).mpr
    (((equal_byteConfig a b).mp hab).trans ((equal_byteConfig b c).mp hbc))
  hash_eq _ _ _ _ _ := rfl
  clone _ _ _ h := by cases h

theorem lawful_oneKeyConfig : Lawful policyEnv oneKeyConfig 1 where
  refl _ _ := rfl
  symm _ _ _ _ _ := rfl
  trans _ _ _ _ _ _ _ _ := rfl
  hash_eq _ _ _ _ _ := rfl
  clone _ _ _ _ h _ := ⟨h, rfl⟩

/-- Handle 0 owns its keys but has none, handle 1 has the keys 7 and 8, and handle 2 is `NULL`. -/
theorem run_policies : ∃ events s, Run (system policyEnv) events s ∧ s.maps.length = 3 ∧
    s.get 2 = none ∧ size (s.get 0) = 0 ∧ size (s.get 1) = 2 ∧
    getConfig (s.get 0) = oneKeyConfig ∧ getConfig (s.get 1) = byteConfig ∧
    ∃ s' m, step policyEnv s (.algebra 2 1 0 1 .union) = some (.status .ok, s') ∧
      s'.get 2 = some m ∧ m.config = oneKeyConfig ∧ m.size = 1 := by
  have h0 : Run (system policyEnv) [] ⟨[none, none, none], ⟨0, 0, 0, []⟩, []⟩ :=
    .start ⟨by simp, rfl, rfl, rfl⟩
  have h1 := run_call h0 0 (.init 1 1 oneKeyConfig) (by decide) lawful_oneKeyConfig rfl
  have h2 := run_call h1 1 (.init 1 1 byteConfig) (by decide) lawful_byteConfig rfl
  have h3 := run_call h2 1 (.set 1 1 (caller [7])) (by decide) trivial rfl
  have h4 := run_call h3 1 (.set 1 1 (caller [8])) (by decide) trivial rfl
  exact ⟨_, _, h4, rfl, rfl, rfl, rfl, rfl, rfl, _, _, rfl, rfl, rfl, rfl⟩

theorem algebra_membership_same : ∃ s status s', size (s.get 1) = 2 ∧
    step policyEnv s (.algebra 2 1 1 1 .union) = some (.status status, s') ∧
    ∀ h, h ≠ 2 → s'.get h = s.get h := by
  obtain ⟨events, s, hrun, hlen, hnull, -, hsize, -⟩ := run_policies
  have hcompat : ∀ x y, s.get 1 = some x → s.get 1 = some y →
      configsCompatible x.config y.config = true := by
    intro x y hx hy
    rw [hx] at hy
    cases hy
    simp [configsCompatible]
  obtain ⟨status, s', hstep, hframe, -⟩ :=
    algebra_membership hrun (by omega) hnull hcompat 1 .union
  exact ⟨s, status, s', hsize, hstep, hframe⟩

/-! ## The policy of a result -/

def Owns (set : Option LorMap) : Prop := set.isSome = true ∧ (getConfig set).clone.isSome = true

/-- An empty owning operand means the same as the other one, where its policy is the one chosen. -/
def PolicyCondition (a b : Option LorMap) : Prop :=
  (size a = 0 → Owns a → SameSemantics (getConfig a) (getConfig b)) ∧
    (size b = 0 → Owns b → ¬ Owns a → SameSemantics (getConfig b) (getConfig a))

/-- `config` means what it means for an operand that has elements. -/
def KeepsSemantics (config : Config) (a b : Option LorMap) : Prop :=
  size a ≠ 0 ∧ SameSemantics config (getConfig a) ∨
    size b ≠ 0 ∧ SameSemantics config (getConfig b)

def SameKeys (env : Env) (elementSize : ℕ) (m : LorMap) (set : Option LorMap) : Prop :=
  m.size = size set ∧ ∀ k, KeyOk env (getConfig set) elementSize k → ∃ b,
    containsRaw env (some m) elementSize (caller k) = some b ∧
    containsRaw env set elementSize (caller k) = some b

theorem SameSemantics.refl (config : Config) : SameSemantics config config :=
  ⟨rfl, rfl, rfl, rfl⟩

theorem resultConfig_of_owns_left {a b : Option LorMap} (h : Owns a) :
    resultConfig a b = getConfig a := by
  simp [resultConfig, h.1, h.2]

theorem resultConfig_of_owns_right {a b : Option LorMap} (ha : ¬ Owns a) (hb : Owns b) :
    resultConfig a b = getConfig b := by
  unfold Owns at ha
  simp only [resultConfig, Bool.and_eq_true, if_neg ha, hb.1, hb.2, and_self, if_true]

theorem resultConfig_of_borrowed {a b : Option LorMap} (ha : ¬ Owns a) (hb : ¬ Owns b)
    (hne : size a ≠ 0 ∨ size b ≠ 0) :
    resultConfig a b = if size a ≠ 0 then getConfig a else getConfig b := by
  unfold Owns at ha hb
  simp only [resultConfig, Bool.and_eq_true, if_neg ha, if_neg hb]
  split_ifs <;> first | rfl | omega

/-- The policy chosen is that of an operand with elements exactly under the condition. -/
theorem resultConfig_keeps_iff {a b : Option LorMap} (hne : size a ≠ 0 ∨ size b ≠ 0) :
    KeepsSemantics (resultConfig a b) a b ↔ PolicyCondition a b := by
  unfold KeepsSemantics PolicyCondition
  by_cases ha : Owns a
  · rw [resultConfig_of_owns_left ha]
    by_cases hsize : size a = 0
    · have hb : size b ≠ 0 := by omega
      simp [hsize, hb, ha]
    · simp [hsize, ha, SameSemantics.refl]
  · by_cases hb : Owns b
    · rw [resultConfig_of_owns_right ha hb]
      by_cases hsize : size b = 0
      · have hsize' : size a ≠ 0 := by omega
        simp [hsize, hsize', ha, hb]
      · simp [hsize, ha, SameSemantics.refl]
    · rw [resultConfig_of_borrowed ha hb hne]
      by_cases hsize : size a = 0
      · have hsize' : size b ≠ 0 := by omega
        simp [hsize, hsize', ha, hb, SameSemantics.refl]
      · simp [hsize, ha, hb, SameSemantics.refl]

theorem agreeing_of_size_eq_zero {config : Config} {set : Option LorMap} (h : size set = 0) :
    Agreeing config set := by
  intro hne
  rw [← length_elements, List.length_eq_zero_iff] at h
  exact absurd h hne

theorem not_has_of_size_eq_zero {set : Option LorMap} (h : size set = 0) (k : Bytes) :
    ¬ Has env set k := by
  rw [← length_elements, List.length_eq_zero_iff] at h
  simp [Has, h]

theorem Built.sameKeys {config : Config} (hb : Built env config elementSize m)
    (hlaw : Lawful env config elementSize) {set : Option LorMap}
    (hset : Operand env elementSize set) (hsem : SameSemantics config (getConfig set))
    (hhas : ∀ k, KeyOk env config elementSize k → (Has env (some m) k ↔ Has env set k)) :
    SameKeys env elementSize m set := by
  constructor
  · cases set with
    | none =>
        rw [← Built.ncard hb hlaw (P := fun _ => False) (fun k hk => by
          rw [hhas k hk]
          simp [Has, elements])]
        simp [classes, size]
    | some x =>
        have hx : Built env x.config elementSize x :=
          ⟨hset.inv x rfl, rfl, hset.sizes.1, hset.sizes.2⟩
        have hcount := Built.ncard hx hset.lawful_getConfig (P := Has env (some m)) (fun k hk => by
          rw [show KeyOk env x.config = KeyOk env config from hsem.symm.keyOk] at hk
          exact hhas k hk)
        rw [show KeyOk env x.config = KeyOk env config from hsem.symm.keyOk,
          show SameKey env x.config = SameKey env config from hsem.symm.sameKey,
          Built.ncard hb hlaw (fun k _ => Iff.rfl)] at hcount
        exact hcount
  · intro k hk
    obtain ⟨x, hx, hiffx⟩ := containsRaw_caller hset hk.1 (fun _ => hk.2)
    rw [← hsem.keyOk] at hk
    obtain ⟨y, hy, hiffy⟩ := containsRaw_caller (Built.operand hb hlaw) hk.1 (by
      intro _
      rw [getConfig, hb.config]
      exact hk.2)
    refine ⟨y, hy, ?_⟩
    rw [hx, Option.some.injEq, Bool.eq_iff_iff, hiffx, hiffy, hhas k hk]

/-- An operation that succeeds keeps the semantics of an operand with elements, and a union with an
empty set has the keys of the other operand, exactly under `PolicyCondition`. -/
theorem algebra_keeps_semantics_iff {events : List (Op × Result)}
    (hrun : Run (system env) events s) {r a b : ℕ} (hr : r < s.maps.length)
    (hnull : s.get r = none) {op : Operation}
    (hstep : step env s (.algebra r elementSize a b op) = some (.status .ok, s'))
    (hm : s'.get r = some m) (hne : size (s.get a) ≠ 0 ∨ size (s.get b) ≠ 0) :
    (KeepsSemantics m.config (s.get a) (s.get b) ∧
        (op = .union → size (s.get a) = 0 → SameKeys env elementSize m (s.get b)) ∧
        (op = .union → size (s.get b) = 0 → SameKeys env elementSize m (s.get a))) ↔
      PolicyCondition (s.get a) (s.get b) := by
  have hsound := run_sound hrun
  obtain ⟨status, handle', world', heq, -, hcase⟩ :=
    operation_cases s.world (hsound a) (hsound b) elementSize op
  rw [step, hnull, algebra_eq, heq] at hstep
  cases hstep
  rw [get_put_self hr] at hm
  obtain ⟨hstatus, -⟩ | ⟨-, ha, hb, -, m', hm', hbuilt, hlaw, hhas⟩ := hcase
  · exact absurd rfl hstatus
  rw [hm] at hm'
  cases hm'
  rw [hbuilt.config, resultConfig_keeps_iff hne]
  constructor
  · intro h
    exact h.1
  · intro hcond
    have hkeeps := (resultConfig_keeps_iff hne).mpr hcond
    refine ⟨hcond, ?_, ?_⟩
    · intro hop hzero
      obtain ⟨hsize, -⟩ | ⟨-, hsem⟩ := hkeeps
      · exact absurd hzero hsize
      · apply Built.sameKeys hbuilt hlaw hb hsem
        intro k hk
        rw [hhas (agreeing_of_size_eq_zero hzero) (fun _ => hsem.symm) k hk, hop, Operation.combine]
        simp [not_has_of_size_eq_zero hzero]
    · intro hop hzero
      obtain ⟨-, hsem⟩ | ⟨hsize, -⟩ := hkeeps
      · apply Built.sameKeys hbuilt hlaw ha hsem
        intro k hk
        rw [hhas (fun _ => hsem.symm) (agreeing_of_size_eq_zero hzero) k hk, hop, Operation.combine]
        simp [not_has_of_size_eq_zero hzero]
      · exact absurd hzero hsize

theorem algebra_keeps_semantics_iff_policies :
    ∃ (s : State) (m : LorMap), size (s.get 0) = 0 ∧ size (s.get 1) = 2 ∧ m.size = 1 ∧
    ((KeepsSemantics m.config (s.get 0) (s.get 1) ∧
        (Operation.union = .union → size (s.get 0) = 0 → SameKeys policyEnv 1 m (s.get 1)) ∧
        (Operation.union = .union → size (s.get 1) = 0 → SameKeys policyEnv 1 m (s.get 0))) ↔
      PolicyCondition (s.get 0) (s.get 1)) := by
  obtain ⟨events, s, hrun, hlen, hnull, hzero, htwo, -, -, s', m, hstep, hm, -, hone⟩ :=
    run_policies
  exact ⟨s, m, hzero, htwo, hone,
    algebra_keeps_semantics_iff hrun (by omega) hnull hstep hm (Or.inr (by omega))⟩

/-- The union of an empty owning set with the keys 7 and 8 takes the policy of the empty set, and
under it one key is left. -/
theorem union_loses_keys : ∃ events s s' m, Run (system policyEnv) events s ∧
    s.get 2 = none ∧ size (s.get 0) = 0 ∧ size (s.get 1) = 2 ∧
    step policyEnv s (.algebra 2 1 0 1 .union) = some (.status .ok, s') ∧ s'.get 2 = some m ∧
    ¬ KeepsSemantics m.config (s.get 0) (s.get 1) ∧ m.size = 1 := by
  obtain ⟨events, s, hrun, -, hnull, hzero, htwo, -, hb, s', m, hstep, hm, hconfig, hone⟩ :=
    run_policies
  refine ⟨events, s, s', m, hrun, hnull, hzero, htwo, hstep, hm, ?_, hone⟩
  intro hkeeps
  rw [KeepsSemantics, hconfig, hb] at hkeeps
  obtain ⟨hsize, -⟩ | ⟨-, hsem⟩ := hkeeps
  · exact hsize hzero
  · exact absurd hsem.1 (by decide)

end Liblor.Handles
