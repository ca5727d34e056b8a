import Liblor.MapPlain

/-!
# What a run of calls tells about the hash

Nothing: the hash map agrees with the plain array, which calls no hash.
-/

namespace Liblor.Map

variable {env : Env} {source : Source}

/-- Some calls one after the other, with their results. -/
def execute (call : State → Op → Option (Result × State)) :
    State → List Op → Option (List Result × State)
  | s, [] => some ([], s)
  | s, op :: ops =>
    (call s op).bind fun (result, s') =>
      (execute call s' ops).map fun (results, s'') => (result :: results, s'')

/-- Every call is legal when it is made. -/
def LegalRun (env : Env) : State → List Op → Prop
  | _, [] => True
  | s, op :: ops =>
    op.Legal env s.map ∧ ∀ result s', step env s op = some (result, s') → LegalRun env s' ops

/-- The hash map and the plain array return the same from every run of calls, have made the same
allocations and callbacks on keys, and hold the same entries in the same order, in which every
lookup has the same answer. -/
theorem run_plain {s : State} (h : Sound env s.map) {ops : List Op} (hops : LegalRun env s ops) :
    ∃ results s', execute (step env) s ops = some (results, s') ∧
      execute (Plain.step env) s.plain ops = some (results, s'.plain) ∧
      ∀ entrySize keySize (key : Source), key.Valid s'.map keySize →
        findRaw env s'.map entrySize keySize key =
          some (Plain.findRaw env s'.plain.map entrySize keySize key) := by
  induction ops generalizing s with
  | nil =>
    exact ⟨[], s, rfl, rfl, fun entrySize keySize key hs => findRaw_plain h entrySize hs⟩
  | cons op ops ih =>
    obtain ⟨hop, hrest⟩ := hops
    obtain ⟨result, s₁, hstep, hsound⟩ := step_sound h op hop
    obtain ⟨results, s', hrun, hplain, hfind⟩ := ih hsound (hrest result s₁ hstep)
    have hcall := step_plain h op hop
    rw [hstep, Option.map_some] at hcall
    refine ⟨result :: results, s', ?_, ?_, hfind⟩
    · rw [execute, hstep, Option.bind_some]
      simp only [hrun, Option.map_some]
    · rw [execute, ← hcall, Option.bind_some]
      simp only [hplain, Option.map_some]

/-- Three keys are set and the first of them is removed. -/
def threeKeys : List Op :=
  [.init 2 1 collidingConfig, .set 2 1 (.outside 0 fun _ => 1), .set 2 1 (.outside 0 fun _ => 2),
    .set 2 1 (.outside 0 fun _ => 17), .remove 2 1 (.outside 0 fun _ => 1)]

theorem threeKeys_legal {env : Env} (hlaw : Lawful env collidingConfig 1) (s : State) :
    LegalRun env s threeKeys :=
  ⟨hlaw, fun _ _ _ => ⟨trivial, fun _ _ _ => ⟨trivial, fun _ _ _ => ⟨trivial, fun _ _ _ =>
    ⟨trivial, fun _ _ _ => trivial⟩⟩⟩⟩⟩

theorem run_plain_colliding : ∃ results s',
    execute (step collidingEnv) ⟨none, ⟨0, 0, 0, []⟩⟩ threeKeys = some (results, s') ∧
    execute (Plain.step collidingEnv) ⟨none, ⟨0, 0, 0, []⟩⟩ threeKeys = some (results, s'.plain) ∧
    ∀ entrySize keySize (key : Source), key.Valid s'.map keySize →
      findRaw collidingEnv s'.map entrySize keySize key =
        some (Plain.findRaw collidingEnv s'.plain.map entrySize keySize key) :=
  run_plain (by rintro m ⟨⟩) (threeKeys_legal lawful_collidingConfig _)

/-- The same callbacks but for the hash. -/
def Env.rehashed (env : Env) (hash : FnPtr → ℕ → Bytes → UInt64) : Env := { env with hash := hash }

theorem clearLoop_rehashed (env : Env) (hash : FnPtr → ℕ → Bytes → UInt64) (world : World)
    (map : LorMap) (is : List ℕ) :
    clearLoop (env.rehashed hash) world map is = clearLoop env world map is := by
  induction is generalizing map world with
  | nil => rfl
  | cons i is ih => exact ih _ _

theorem deinit_rehashed (env : Env) (hash : FnPtr → ℕ → Bytes → UInt64) (world : World)
    (map : LorMap) : deinit (env.rehashed hash) world (some map) = deinit env world (some map) := by
  unfold deinit clear
  dsimp only
  rw [clearLoop_rehashed]

theorem append_rehashed (env : Env) (hash : FnPtr → ℕ → Bytes → UInt64) :
    Plain.append (env.rehashed hash) = Plain.append env := by
  funext world map created entry prepared
  unfold Plain.append
  simp only [deinit_rehashed]
  rfl

theorem setEntry_rehashed (env : Env) (hash : FnPtr → ℕ → Bytes → UInt64) :
    Plain.setEntry (env.rehashed hash) = Plain.setEntry env := by
  funext world map created entry
  unfold Plain.setEntry
  rw [append_rehashed]
  rfl

theorem clear_rehashed (env : Env) (hash : FnPtr → ℕ → Bytes → UInt64) (world : World)
    (map : Option LorMap) :
    Plain.clear (env.rehashed hash) world map = Plain.clear env world map := by
  cases map with
  | none => rfl
  | some map =>
    unfold Plain.clear
    dsimp only
    rw [clearLoop_rehashed]

theorem step_rehashed (env : Env) (hash : FnPtr → ℕ → Bytes → UInt64) :
    Plain.step (env.rehashed hash) = Plain.step env := by
  funext s op
  cases op with
  | set entrySize keySize entry =>
    unfold Plain.step Plain.set
    simp only [setEntry_rehashed]
    rfl
  | clear =>
    unfold Plain.step
    rw [clear_rehashed]
  | deinit =>
    unfold Plain.step
    rw [clear_rehashed]
  | _ => rfl

theorem valid_plain {map : Option LorMap} {n : ℕ} :
    source.Valid (map.map LorMap.plain) n ↔ source.Valid map n := by
  cases map with
  | none => exact Iff.rfl
  | some map => cases source <;> exact Iff.rfl

/-- No run of calls tells one hash function from another: the results, the entries and their order,
the allocations and the callbacks on keys, and the answers of all lookups are the same. -/
theorem hash_unobservable {s : State} {hash : FnPtr → ℕ → Bytes → UInt64} (h : Sound env s.map)
    (h' : Sound (env.rehashed hash) s.map) {ops : List Op} (hops : LegalRun env s ops)
    (hops' : LegalRun (env.rehashed hash) s ops) :
    ∃ results s₁ s₂, execute (step env) s ops = some (results, s₁) ∧
      execute (step (env.rehashed hash)) s ops = some (results, s₂) ∧ s₁.plain = s₂.plain ∧
      ∀ entrySize keySize (key : Source), key.Valid s₁.map keySize →
        findRaw env s₁.map entrySize keySize key =
          findRaw (env.rehashed hash) s₂.map entrySize keySize key := by
  obtain ⟨results, s₁, hrun, hplain, hfind⟩ := run_plain h hops
  obtain ⟨results', s₂, hrun', hplain', hfind'⟩ := run_plain h' hops'
  rw [step_rehashed, hplain] at hplain'
  obtain ⟨rfl, hsame⟩ := Prod.mk.inj (Option.some.inj hplain')
  refine ⟨results, s₁, s₂, hrun, hrun', hsame, fun entrySize keySize key hs => ?_⟩
  have hmap : s₁.map.map LorMap.plain = s₂.map.map LorMap.plain := congrArg State.map hsame
  have hs' : key.Valid s₂.map keySize := by
    rw [← valid_plain, ← hmap, valid_plain]
    exact hs
  rw [hfind entrySize keySize key hs, hfind' entrySize keySize key hs', ← hsame]
  rfl

/-- Two of the keys collide. -/
def scattered : FnPtr → ℕ → Bytes → UInt64 := fun _ _ key => (key.getD 0 0).toUInt64

theorem hash_unobservable_scattered : ∃ results s₁ s₂,
    execute (step collidingEnv) ⟨none, ⟨0, 0, 0, []⟩⟩ threeKeys = some (results, s₁) ∧
    execute (step (collidingEnv.rehashed scattered)) ⟨none, ⟨0, 0, 0, []⟩⟩ threeKeys =
      some (results, s₂) ∧ s₁.plain = s₂.plain ∧
    ∀ entrySize keySize (key : Source), key.Valid s₁.map keySize →
      findRaw collidingEnv s₁.map entrySize keySize key =
        findRaw (collidingEnv.rehashed scattered) s₂.map entrySize keySize key := by
  have hlaw := lawful_collidingConfig
  have hlaw' : Lawful (collidingEnv.rehashed scattered) collidingConfig 1 :=
    ⟨hlaw.refl, hlaw.symm, hlaw.trans, fun a b _ _ heq => by
      have hab : a = b := eq_of_beq heq
      rw [hab], hlaw.clone⟩
  exact hash_unobservable (by rintro m ⟨⟩) (by rintro m ⟨⟩) (threeKeys_legal hlaw _)
    (threeKeys_legal hlaw' _)

end Liblor.Map
