import Liblor.MapRun
import Liblor.GrowthCost

/-!
# The cost of growing a map

How often the calls of a run rebuild the index of a map and how many entries that moves and inserts
again. The capacity stays when entries are removed, so that no order of insertions and removals
makes a map grow twice to the same size.
-/

namespace Liblor.Map

open GeometricGrowth Transition

variable {env : Env} {world world' : World} {map map' : LorMap} {handle handle' : Option LorMap}
  {entrySize keySize required : ℕ} {status : Status} {created : Bool} {source : Source}

/-! ## What keeps the capacity -/

section Kept

theorem insertBucket_capacity {index : ℕ} (h : insertBucket env map index = some map') :
    map'.capacity = map.capacity := by
  obtain ⟨bucket, -, rfl⟩ := Option.map_eq_some_iff.1 h
  rfl

theorem insertBuckets_capacity (indices : List ℕ)
    (h : indices.foldlM (insertBucket env) map = some map') : map'.capacity = map.capacity := by
  induction indices generalizing map with
  | nil =>
    cases h
    rfl
  | cons index indices ih =>
    rw [List.foldlM_cons, Option.bind_eq_bind, Option.bind_eq_some_iff] at h
    obtain ⟨between, hfirst, hrest⟩ := h
    rw [ih hrest, insertBucket_capacity hfirst]

theorem dropEntry_capacity (index : ℕ) :
    (dropEntry env world map index).1.capacity = map.capacity := by
  unfold dropEntry
  cases map.entries[index]? with
  | none => rfl
  | some entry => rfl

theorem clearLoop_capacity (indices : List ℕ) :
    (clearLoop env world map indices).1.capacity = map.capacity := by
  induction indices generalizing world map with
  | nil => rfl
  | cons index indices ih =>
    unfold clearLoop
    rw [ih, dropEntry_capacity]

theorem clear_capacity : capacity (clear env world handle).1 = capacity handle := by
  cases handle with
  | none => rfl
  | some map =>
    unfold clear
    dsimp only
    split_ifs
    · exact clearLoop_capacity _
    · rfl

theorem eraseBucketLoop_capacity {mask fuel hole position : ℕ}
    (h : eraseBucketLoop env mask fuel map hole position = some map') :
    map'.capacity = map.capacity := by
  induction fuel generalizing map hole position with
  | zero => cases h
  | succ fuel ih =>
    unfold eraseBucketLoop at h
    dsimp only at h
    split_ifs at h
    · have hrest := ih h
      exact hrest
    · exact ih h
    · cases h
      rfl

theorem fillGap_capacity {index : ℕ} (h : fillGap env map index = some map') :
    map'.capacity = map.capacity := by
  unfold fillGap at h
  dsimp only at h
  cases hlast : map.entries[map.size - 1]? with
  | none =>
    rw [hlast] at h
    cases h
    rfl
  | some lastEntry =>
    rw [hlast] at h
    dsimp only at h
    split_ifs at h
    · rw [Option.bind_eq_bind, Option.bind_eq_some_iff] at h
      obtain ⟨moved, -, hrest⟩ := h
      cases moved with
      | none =>
        cases hrest
        rfl
      | some bucket =>
        cases hrest
        rfl
    · cases h
      rfl

theorem removeEntry_capacity {bucket : ℕ}
    (h : removeEntry env world map bucket = some (map', world')) :
    map'.capacity = map.capacity := by
  unfold removeEntry at h
  simp only [Option.bind_eq_bind, Option.bind_eq_some_iff, Option.pure_def, Option.some.injEq,
    Prod.mk.injEq] at h
  obtain ⟨erased, herase, filled, hfill, rfl, -⟩ := h
  rw [fillGap_capacity hfill, ← eraseBucketLoop_capacity herase]
  split_ifs
  · exact dropEntry_capacity _
  · rfl

theorem removeRaw_capacity {key : Source} {removed : Bool}
    (h : removeRaw env world handle entrySize keySize key = some (removed, handle', world')) :
    capacity handle' = capacity handle := by
  cases handle with
  | none =>
    cases h
    rfl
  | some map =>
    by_cases hsought : Sought env map entrySize keySize key
    · rw [removeRaw_of_sought world hsought, Option.bind_eq_bind, Option.bind_eq_some_iff] at h
      obtain ⟨found, -, hrest⟩ := h
      cases found with
      | none =>
        cases hrest
        rfl
      | some bucket =>
        simp only [Option.bind_eq_bind, Option.bind_eq_some_iff] at hrest
        obtain ⟨⟨map', world'⟩, hremove, hresult⟩ := hrest
        cases hresult
        exact removeEntry_capacity hremove
    · rw [removeRaw_of_not_sought world hsought] at h
      cases h
      rfl

end Kept

/-! ## What grows it -/

/-- The capacity after a call that reserves room for so many entries. -/
abbrev Reserved (handle : Option LorMap) (required : ℕ) (handle' : Option LorMap) : Prop :=
  GrowsTo 8 (capacity handle) required (capacity handle')

section Reserved

theorem bucketCapacity_ok {required buckets : ℕ}
    (h : bucketCapacity required = some (.ok, buckets)) :
    required ≤ sizeMax / 2 := by
  unfold bucketCapacity at h
  split_ifs at h with hzero hlarge
  · omega
  · cases h
  · omega

theorem reserveRaw_reserved
    (h : reserveRaw env world handle entrySize keySize required = some (status, handle', world')) :
    Reserved handle required handle' := by
  unfold reserveRaw at h
  split_ifs at h with hlayout hroom
  · cases h
    exact Or.inl rfl
  · cases h
    exact Or.inl rfl
  simp only [Option.bind_eq_bind, Option.bind_eq_some_iff] at h
  obtain ⟨c, hc, h⟩ := h
  split_ifs at h
  · cases h
    exact Or.inl rfl
  simp only [Option.bind_eq_some_iff] at h
  obtain ⟨⟨answer, buckets⟩, hbuckets, h⟩ := h
  dsimp only at h
  split_ifs at h with hanswer
  · cases h
    exact Or.inl rfl
  · cases h
    exact Or.inl rfl
  obtain rfl : answer = .ok := not_not.1 hanswer
  have hle := bucketCapacity_ok hbuckets
  rcases hindex : world.malloc env (buckets * 8) with ⟨index, w₁⟩
  rw [hindex] at h
  cases index with
  | none =>
    cases h
    exact Or.inl rfl
  | some index =>
    rcases hheader : reserveHeader env w₁ handle entrySize keySize with ⟨header, w₂⟩
    simp only [hheader] at h
    cases header with
    | none =>
      cases h
      exact Or.inl rfl
    | some header =>
      rcases hmemory : w₂.malloc env (headerSize + c * entrySize) with ⟨address, w₃⟩
      simp only [hmemory] at h
      cases address with
      | none =>
        cases h
        exact Or.inl rfl
      | some address =>
        simp only [Option.bind_eq_some_iff] at h
        obtain ⟨moved, hfill, hresult⟩ := h
        cases hresult
        have hcapacity : capacity (some moved) = c := insertBuckets_capacity _ hfill
        refine Or.inr ⟨Nat.not_le.1 hroom, ?_, ?_⟩
        · rw [hcapacity, ← entryCapacityLoop_eq]
          exact hc
        · rw [hcapacity]
          exact hle

theorem appendEntry_reserved {prepared : Option Entry}
    (hcreated : created = true → map.capacity = 0)
    (h : appendEntry env world map created source prepared = some (status, handle', world')) :
    Reserved (some map) (map.size + 1) handle' := by
  -- a `set` that fails leaves no map behind if it made one
  have hfail : ∀ {status' : Status} {world₁ : World},
      some (if created = true then (status', deinit env world₁ (some map))
        else (status', some map, world₁)) = some (status, handle', world') →
      Reserved (some map) (map.size + 1) handle' := by
    intro status' world₁ heq
    cases created with
    | false =>
      cases heq
      exact Or.inl rfl
    | true =>
      cases heq
      exact Or.inl (hcreated rfl).symm
  unfold appendEntry at h
  by_cases hfull : map.size = sizeMax
  · rw [if_pos hfull] at h
    exact hfail h
  · rw [if_neg hfull, Option.bind_eq_bind, Option.bind_eq_some_iff] at h
    obtain ⟨⟨answer, moved, w₁⟩, hreserve, hrest⟩ := h
    have hreserved := reserveRaw_reserved hreserve
    cases moved with
    | none =>
      cases answer <;> exact hfail hrest
    | some moved =>
      by_cases hanswer : answer = .ok
      · subst hanswer
        simp only [Option.bind_eq_bind, Option.bind_eq_some_iff] at hrest
        obtain ⟨inserted, hinsert, hresult⟩ := hrest
        cases hresult
        have hkept := insertBucket_capacity hinsert
        have hcapacity : inserted.capacity = moved.capacity := hkept
        change GrowsTo 8 _ _ inserted.capacity
        rw [hcapacity]
        exact hreserved
      · cases answer with
        | ok => exact absurd rfl hanswer
        | _ => exact hfail hrest

theorem setEntry_reserved (hcreated : created = true → map.capacity = 0)
    (h : setEntry env world map created source = some (status, handle', world')) :
    Reserved (some map) (map.size + 1) handle' := by
  unfold setEntry at h
  dsimp only at h
  split_ifs at h with hvalid haliased
  · cases h
    exact Or.inl rfl
  · rw [Option.bind_eq_bind, Option.bind_eq_some_iff] at h
    obtain ⟨bucket, -, h⟩ := h
    cases h
    exact Or.inl rfl
  rw [Option.bind_eq_bind, Option.bind_eq_some_iff] at h
  obtain ⟨bucket, -, h⟩ := h
  rcases hprepare : prepareEntry env world map source (entryAlias map source) with
    ⟨answer, prepared, w₁⟩
  rw [hprepare] at h
  cases answer with
  | ok =>
    cases bucket with
    | none => exact appendEntry_reserved hcreated h
    | some bucket =>
      unfold replaceEntry at h
      dsimp only at h
      split_ifs at h
      · cases h
        exact Or.inl (dropEntry_capacity _)
      · cases h
        exact Or.inl rfl
  | _ =>
    cases h
    exact Or.inl rfl

theorem setRaw_reserved
    (h : setRaw env world handle entrySize keySize source = some (status, handle', world')) :
    Reserved handle (size handle + 1) handle' := by
  by_cases hnull : source = .null
  · subst hnull
    cases h
    exact Or.inl rfl
  cases hmatch : matchesLayout handle entrySize keySize with
  | false =>
    rw [setRaw_mismatch world hmatch] at h
    cases h
    exact Or.inl rfl
  | true =>
    cases handle with
    | some map =>
      rw [setRaw_some world hnull hmatch] at h
      exact setEntry_reserved (fun hfalse => by cases hfalse) h
    | none =>
      rw [setRaw_none world hnull hmatch] at h
      obtain ⟨answer, map, w₁, hinit, -, ⟨hanswer, rfl⟩ | ⟨rfl, -, -, -, header, rfl, hfresh⟩⟩ :=
        initRaw_cases env world none entrySize keySize configBytes
      · rw [hinit] at h
        cases answer with
        | ok => exact absurd rfl hanswer
        | _ =>
          cases h
          exact Or.inl rfl
      · rw [hinit] at h
        have hset := setEntry_reserved (fun _ => hfresh.capacity) h
        have hsize : header.size = 0 := by
          unfold LorMap.size
          rw [hfresh.entries, List.length_nil]
        have hcapacity : capacity (some header) = capacity none := hfresh.capacity
        rw [hsize] at hset
        unfold Reserved at hset ⊢
        rw [hcapacity] at hset
        exact hset

end Reserved

/-! ## Runs -/

/-- The number of entries that a call may need room for. -/
def Op.asked (s : State) : Op → ℕ
  | .reserve _ _ required => required
  | .set _ _ _ => size s.map + 1
  | _ => 0

/-- A legal call other than `lor_map_deinit`. -/
def Op.Growing (env : Env) (s : State) (op : Op) : Prop :=
  op.Legal env s.map ∧
    match op with
    | .deinit => False
    | _ => True

/-- The state after a call. -/
def next (env : Env) (s : State) (op : Op) : Option State := (step env s op).map Prod.snd

/-- The entries that the rebuilds of a run move, their number and the largest size. -/
def rebuilds (env : Env) (world : World) (ops : List Op) : Tally :=
  count (next env) (fun s => size s.map) (fun s => capacity s.map) (fun s op => op.asked s)
    ⟨0, 0, 0⟩ ⟨none, world⟩ ops

variable {s s' : State} {ops : List Op}

theorem next_reserved {op : Op} (hop : op.Growing env s) (h : next env s op = some s') :
    Reserved s.map (op.asked s) s'.map := by
  obtain ⟨⟨result, s'⟩, hstep, rfl⟩ := Option.map_eq_some_iff.1 h
  obtain ⟨-, hkeeps⟩ := hop
  cases op with
  | init entrySize keySize config =>
    obtain ⟨status, handle', w₁, hinit, -, ⟨-, rfl⟩ | ⟨-, hnone, -, -, header, rfl, hfresh⟩⟩ :=
      initRaw_cases env s.world s.map entrySize keySize config
    · rw [step, hinit] at hstep
      cases hstep
      exact Or.inl rfl
    · rw [step, hinit] at hstep
      cases hstep
      refine Or.inl ?_
      rw [hnone]
      exact hfresh.capacity
  | reserve entrySize keySize required =>
    obtain ⟨answer, hcall, hresult⟩ := Option.map_eq_some_iff.1 hstep
    cases hresult
    exact reserveRaw_reserved hcall
  | set entrySize keySize entry =>
    obtain ⟨answer, hcall, hresult⟩ := Option.map_eq_some_iff.1 hstep
    cases hresult
    exact setRaw_reserved hcall
  | remove entrySize keySize key =>
    obtain ⟨answer, hcall, hresult⟩ := Option.map_eq_some_iff.1 hstep
    cases hresult
    exact Or.inl (removeRaw_capacity hcall)
  | clear =>
    cases hstep
    exact Or.inl clear_capacity
  | deinit => exact hkeeps.elim

theorem next_sound {op : Op} (hs : Sound env s.map) (hop : op.Growing env s)
    (h : next env s op = some s') : Sound env s'.map := by
  obtain ⟨result, s'', hstep, hsound⟩ := step_sound hs op hop.1
  unfold next at h
  rw [hstep] at h
  cases h
  exact hsound

theorem Sound.size_le (h : Sound env handle) : size handle ≤ capacity handle := by
  cases handle with
  | none => exact le_rfl
  | some map => exact (h map rfl).1.size_le

/-- In every run of calls on a map before it is given back, with any keys, hashes and allocation
failures, all rebuilds together move at most twice as many entries as a call has asked for, whether
it was refused or not. By the second rebuild more than eight have been asked for, by the third more
than sixteen, and so on. -/
theorem rebuilds_bounded (hops : EachStep (next env) (Op.Growing env) ⟨none, world⟩ ops) :
    (rebuilds env world ops).moved ≤ 2 * (rebuilds env world ops).peak ∧
      (2 ≤ (rebuilds env world ops).moves →
        8 * 2 ^ ((rebuilds env world ops).moves - 2) < (rebuilds env world ops).peak) := by
  have hstart : Sound env none := fun _ h => (by cases h)
  exact growth_bounds (I := fun s : State => Sound env s.map) (by decide)
    (fun _ _ _ hs hop h => next_sound hs hop h) (fun _ hs => hs.size_le)
    (fun _ _ _ hop h => next_reserved hop h) hstart rfl hops

/-- Nine keys of one probe chain. -/
def nineKeys : List Op := [0, 1, 2, 3, 4, 5, 6, 7, 8].map fun key => .set 2 1 (twoBytes key 0)

theorem rebuilds_bounded_nine : rebuilds collidingEnv ⟨0, 0, 0, []⟩ nineKeys = ⟨8, 2, 9⟩ ∧
    8 ≤ 2 * 9 ∧ 8 * 2 ^ (2 - 2) < 9 := by
  have hset : ∀ (key : UInt8) (s : State),
      Op.Growing collidingEnv s (.set 2 1 (twoBytes key 0)) := fun _ _ => ⟨trivial, trivial⟩
  have hops : EachStep (next collidingEnv) (Op.Growing collidingEnv) ⟨none, ⟨0, 0, 0, []⟩⟩
      nineKeys :=
    ⟨hset _ _, fun _ _ => ⟨hset _ _, fun _ _ => ⟨hset _ _, fun _ _ => ⟨hset _ _, fun _ _ =>
      ⟨hset _ _, fun _ _ => ⟨hset _ _, fun _ _ => ⟨hset _ _, fun _ _ => ⟨hset _ _, fun _ _ =>
        ⟨hset _ _, fun _ _ => trivial⟩⟩⟩⟩⟩⟩⟩⟩⟩
  have htally : rebuilds collidingEnv ⟨0, 0, 0, []⟩ nineKeys = ⟨8, 2, 9⟩ := by decide
  obtain ⟨hmoved, hmoves⟩ := rebuilds_bounded hops
  rw [htally] at hmoved hmoves
  exact ⟨htally, hmoved, hmoves le_rfl⟩

end Liblor.Map
