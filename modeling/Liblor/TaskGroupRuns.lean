import Liblor.TaskGroup

/-!
# What the calls on a group return

The calls made so far determine what the next one returns: whether there is a group, whether it
takes tasks and whether it has been cancelled. Each task that has been spawned is started and exits
at most once, and exactly once when a wait has returned `LOR_STATUS_OK`.
-/

namespace Liblor.TaskGroup

open HeapObjects Transition

/-- A group as its users see it. -/
structure Life where
  accepting : Bool
  cancelled : Bool
  deriving DecidableEq, Repr

def State.life (s : State) : Option Life :=
  s.handle.map fun (_, group) => ⟨group.accepting, group.cancelled⟩

/-- What becomes of a group. It is freed by an `lor_task_group_deinit` whose joins succeed. -/
def Event.act : Event → Option Life → Option Life
  | .init _ .ok, _ => some ⟨true, false⟩
  | .cancel, life => life.map fun _ => ⟨false, true⟩
  | .wait false _, life => life.map fun group => { group with accepting := false }
  | .wait true (some .ok), _ => none
  | .wait true _, life => life.map fun _ => ⟨false, true⟩
  | .waited true .ok, _ => none
  | _, life => life

variable {s s' : State} {n i : ℕ} {group : Group} {result status : Status} {deinit : Bool}

theorem life_none : s.life = none ↔ s.handle = none := Option.map_eq_none_iff

theorem life_some (hhandle : s.handle = some (n, group)) :
    s.life = some ⟨group.accepting, group.cancelled⟩ := by
  rw [State.life, hhandle]
  rfl

/-! ## The effect of each call -/

theorem init_life (calloc : Bool) (s : State) :
    (init calloc s).2.life = (Event.init calloc (init calloc s).1).act s.life ∧
      (init calloc s).2.tasks = s.tasks ∧
      ((init calloc s).1 = .invalidArgument ↔ s.life ≠ none) := by
  rw [ne_eq, life_none]
  unfold init
  split_ifs with hsome hcalloc
  · exact ⟨rfl, rfl, iff_of_true rfl (Option.isSome_iff_ne_none.1 hsome)⟩
  · exact ⟨rfl, rfl, iff_of_false (by decide) (mt Option.isSome_iff_ne_none.2 hsome)⟩
  · exact ⟨rfl, rfl, iff_of_false (by decide) (mt Option.isSome_iff_ne_none.2 hsome)⟩

theorem cancel_life (s : State) :
    (cancel s).life = Event.cancel.act s.life ∧ (cancel s).tasks = s.tasks := by
  unfold cancel
  split
  · rename_i hnone
    rw [life_none.2 hnone]
    exact ⟨rfl, rfl⟩
  · rename_i n group hhandle
    rw [life_some hhandle]
    exact ⟨rfl, rfl⟩

theorem reserve_cases {os : SpawnOs} {heap heap' : Heap Object} {group' : Group} {capacity : ℕ}
    (h : reserve os n group heap capacity = some (status, group', heap')) :
    status ≠ .closed ∧ status ≠ .invalidArgument ∧
      ∃ grown, group' = { group with capacity := grown } := by
  unfold reserve at h
  by_cases hroom : capacity ≤ group.capacity
  · rw [if_pos hroom] at h
    cases h
    exact ⟨by decide, by decide, _, rfl⟩
  rw [if_neg hroom] at h
  by_cases hover : capacity > sizeMax / threadSize
  · rw [if_pos hover] at h
    cases h
    exact ⟨by decide, by decide, _, rfl⟩
  rw [if_neg hover] at h
  obtain ⟨grown, -, hgrown⟩ := Option.map_eq_some_iff.1 h
  by_cases hrealloc : os.realloc (grown * threadSize % 2 ^ 64) = false
  · rw [if_pos hrealloc] at hgrown
    cases hgrown
    exact ⟨by decide, by decide, _, rfl⟩
  · rw [if_neg hrealloc] at hgrown
    cases hgrown
    exact ⟨by decide, by decide, _, rfl⟩

theorem threadStart_status (os : SpawnOs) (i : ℕ) (heap : Heap Object) :
    (threadStart os i heap).1 ≠ .closed ∧ (threadStart os i heap).1 ≠ .invalidArgument := by
  unfold threadStart
  by_cases hcalloc : os.callocThread = false
  · rw [if_pos hcalloc]
    exact ⟨by simp, by simp⟩
  rw [if_neg hcalloc]
  by_cases hcreate : os.pthreadCreate = false
  · rw [if_pos hcreate]
    exact ⟨by simp, by simp⟩
  · rw [if_neg hcreate]
    exact ⟨by simp, by simp⟩

/-- What a call of `lor_task_group_spawn` returns and changes. -/
structure Spawning (s : State) (function : Bool) (status : Status) (s' : State) : Prop where
  life : s'.life = s.life
  ok : status = .ok → ∃ n, s'.tasks = s.tasks ++ [⟨n, .created⟩]
  failed : status ≠ .ok → s'.tasks = s.tasks
  invalid : status = .invalidArgument ↔ function = false ∨ s.life = none
  closed : status = .closed ↔ function = true ∧
    ∃ group, s.life = some group ∧ (group.accepting = false ∨ group.cancelled = true)

theorem spawnReserved_spawning (os : SpawnOs) (n : ℕ) {g : Group}
    (hlife : s.life = some ⟨g.accepting, g.cancelled⟩)
    (hopen : ¬(g.accepting = false ∨ g.cancelled = true)) :
    Spawning s true (spawnReserved os n g s).1 (spawnReserved os n g s).2 := by
  have hspawning : ∀ {status : Status} {s' : State}, status ≠ .closed → status ≠ .invalidArgument →
      s'.life = some ⟨g.accepting, g.cancelled⟩ →
      (status = .ok → ∃ n, s'.tasks = s.tasks ++ [⟨n, .created⟩]) →
      (status ≠ .ok → s'.tasks = s.tasks) → Spawning s true status s' := by
    intro status s' hclosed hinvalid hlife' hok hfailed
    refine ⟨hlife'.trans hlife.symm, hok, hfailed, iff_of_false hinvalid ?_,
      iff_of_false hclosed ?_⟩
    · simp [hlife]
    · rintro ⟨-, other, hother, hclosed⟩
      rw [hlife] at hother
      cases hother
      exact hopen hclosed
  unfold spawnReserved
  by_cases hmalloc : os.mallocStart = false
  · simp only [if_pos hmalloc]
    exact hspawning (by decide) (by decide) rfl (fun hok => by cases hok) fun _ => rfl
  simp only [if_neg hmalloc]
  obtain ⟨hclosed, hinvalid⟩ :=
    threadStart_status os s.tasks.length (s.heap.allocate (.start s.tasks.length))
  split
  · exact hspawning (by simp) (by simp) rfl (fun _ => ⟨n, rfl⟩) fun hok => absurd rfl hok
  · rename_i status heap hne heq
    rw [heq] at hclosed hinvalid
    exact hspawning hclosed hinvalid rfl (fun hok => (hne hok).elim) fun _ => rfl

theorem spawn_spawning {os : SpawnOs} {function : Bool}
    (h : spawn os function s = some (status, s')) : Spawning s function status s' := by
  rcases hhandle : s.handle with _ | ⟨n, group⟩
  · rw [spawn_none hhandle] at h
    cases h
    have hlife := life_none.2 hhandle
    exact ⟨rfl, (fun hok => by cases hok), fun _ => rfl, iff_of_true rfl (Or.inr hlife),
      iff_of_false (by decide) (by simp [hlife])⟩
  have hlife := life_some hhandle
  cases function with
  | false =>
    rw [spawn_null hhandle] at h
    cases h
    exact ⟨rfl, (fun hok => by cases hok), fun _ => rfl, iff_of_true rfl (Or.inl rfl),
      iff_of_false (by decide) (by simp)⟩
  | true =>
    rw [spawn_some hhandle] at h
    by_cases hclosed : group.accepting = false ∨ group.cancelled = true
    · rw [if_pos hclosed] at h
      cases h
      exact ⟨rfl, (fun hok => by cases hok), fun _ => rfl,
        iff_of_false (by decide) (by simp [hlife]), iff_of_true rfl ⟨rfl, _, hlife, hclosed⟩⟩
    rw [if_neg hclosed] at h
    obtain ⟨⟨status', group', heap⟩, hreserve, hreturned⟩ := Option.map_eq_some_iff.1 h
    obtain ⟨hne, hvalid, grown, rfl⟩ := reserve_cases hreserve
    dsimp only at hreturned
    by_cases hok : status' = .ok
    · rw [if_neg (not_not.2 hok)] at hreturned
      have hspawning : Spawning { s with heap := heap } true _ _ :=
        spawnReserved_spawning os n (g := { group with capacity := grown }) hlife hclosed
      rw [hreturned] at hspawning
      exact ⟨hspawning.life, hspawning.ok, hspawning.failed, hspawning.invalid, hspawning.closed⟩
    · rw [if_pos hok] at hreturned
      cases hreturned
      refine ⟨rfl, fun heq => absurd heq hok, fun _ => rfl, iff_of_false hvalid (by simp [hlife]),
        iff_of_false hne ?_⟩
      rintro ⟨-, other, hother, hnot⟩
      rw [hlife] at hother
      cases hother
      exact hclosed hnot

theorem free_life (n : ℕ) (group : Group) (s : State) :
    (free n group s).life = (if group.waited = false then s.life else none) ∧
      (free n group s).tasks = s.tasks := by
  unfold free
  split_ifs <;> exact ⟨rfl, rfl⟩

theorem waitBegin_life (deinit : Bool) (s : State) :
    (waitBegin deinit s).2.life = (Event.wait deinit (waitBegin deinit s).1).act s.life ∧
      (waitBegin deinit s).2.tasks = s.tasks := by
  obtain ⟨s₁, hs₁⟩ : ∃ s₁, s₁ = if deinit then cancel s else s := ⟨_, rfl⟩
  have h₁ : s₁.life = (if deinit then Event.cancel.act s.life else s.life) ∧
    s₁.tasks = s.tasks := by
    cases deinit with
    | false => exact hs₁ ▸ ⟨rfl, rfl⟩
    | true => exact hs₁ ▸ cancel_life s
  obtain ⟨hlife, htasks⟩ := h₁
  unfold waitBegin
  rw [← hs₁]
  dsimp only
  rcases hhandle : s₁.handle with _ | ⟨n, group⟩
  · have hnone := life_none.2 hhandle
    cases deinit with
    | false =>
      have hsame : s₁.life = s.life := hlife
      rw [hnone] at hsame
      exact ⟨hnone.trans (by rw [← hsame]; rfl), htasks⟩
    | true => exact ⟨hnone, htasks⟩
  · rw [life_some hhandle] at hlife
    have hclosed : ∀ status, status ≠ some .ok ∨ deinit = false →
        some ⟨false, group.cancelled⟩ = (Event.wait deinit status).act s.life := by
      intro status hstatus
      cases deinit with
      | false =>
        have hsame : some ⟨group.accepting, group.cancelled⟩ = s.life := hlife
        rw [← hsame]
        rfl
      | true =>
        obtain ⟨life, hs, hcancelled⟩ := Option.map_eq_some_iff.1 hlife.symm
        rw [hs, ← (Life.mk.inj hcancelled).2]
        rcases status with _ | status
        · rfl
        · cases status <;> first | rfl | simp at hstatus
    by_cases hwaited : group.waited = true
    · simp only [if_pos hwaited]
      cases deinit with
      | false => exact ⟨hclosed _ (Or.inr rfl), htasks⟩
      | true =>
        obtain ⟨hfreed, hkept⟩ := free_life n { group with accepting := false }
          { s₁ with
            heap := s₁.heap.access (.group n),
            handle := some (n, { group with accepting := false }) }
        exact ⟨hfreed.trans (if_neg (by simp [hwaited])), hkept.trans htasks⟩
    · simp only [if_neg hwaited]
      exact ⟨hclosed none (Or.inl (by simp)), htasks⟩

/-- In a wait that has come to its end the joins have succeeded if no handle is left. -/
theorem Waiting.all_joined (h : Waiting group i result deinit) (hge : group.threads.length ≤ i) :
    result = .ok ↔ ∀ t, some t ∉ group.threads := by
  rw [h.joined]
  constructor
  · intro hbelow t hmem
    obtain ⟨j, hj⟩ := List.getElem?_of_mem hmem
    have hlt := (List.getElem?_eq_some_iff.1 hj).1
    exact hbelow j t (hlt.trans_le hge) hj
  · exact fun hnone j t _ hj => hnone t (List.mem_of_getElem? hj)

theorem all_isNone_iff {threads : List (Option ℕ)} :
    threads.all Option.isNone = true ↔ ∀ t, some t ∉ threads := by
  rw [List.all_eq_true]
  constructor
  · exact fun hall t hmem => by cases hall _ hmem
  · intro hnone thread hmem
    cases thread with
    | none => rfl
    | some t => exact absurd hmem (hnone t)

theorem waitEnd_life (h : Waiting group i result deinit) (hge : group.threads.length ≤ i)
    (hhandle : s.handle = some (n, group)) :
    (waitEnd n group deinit s).life = (Event.waited deinit result).act s.life ∧
      (waitEnd n group deinit s).tasks = s.tasks := by
  have hall : group.threads.all Option.isNone = true ↔ result = .ok :=
    all_isNone_iff.trans (h.all_joined hge).symm
  unfold waitEnd
  dsimp only
  cases deinit with
  | false =>
    rw [life_some hhandle]
    cases result <;> exact ⟨rfl, rfl⟩
  | true =>
    rw [if_pos rfl]
    obtain ⟨hfreed, hkept⟩ := free_life n { group with waited := group.threads.all Option.isNone }
      { s with
        heap := if group.threads.isEmpty then s.heap.access (.group n)
          else (s.heap.access (.group n)).access (.threads n)
        handle := some (n, { group with waited := group.threads.all Option.isNone })
        owner := .idle }
    refine ⟨hfreed.trans ?_, hkept⟩
    by_cases hok : result = .ok
    · rw [hok, if_neg (by simp [hall.2 hok])]
      rfl
    · rw [if_pos (Bool.eq_false_of_not_eq_true (mt hall.1 hok)), life_some hhandle]
      cases result <;> first | rfl | exact absurd rfl hok

theorem joinRound_life (joined : Bool) (i : ℕ) (result : Status) (deinit : Bool)
    (hhandle : s.handle = some (n, group)) :
    (joinRound joined n group i result deinit s).life = s.life ∧
      (joinRound joined n group i result deinit s).tasks = s.tasks := by
  unfold joinRound
  dsimp only
  split
  · exact ⟨rfl, rfl⟩
  · cases joined with
    | true => exact ⟨(life_some hhandle).symm, rfl⟩
    | false => exact ⟨rfl, rfl⟩

/-- What a call returns on a group in this state. -/
def Event.Answered : Event → Option Life → Prop
  | .init _ status, life => status = .invalidArgument ↔ life ≠ none
  | .spawn _ function status, life =>
    (status = .invalidArgument ↔ function = false ∨ life = none) ∧
      (status = .closed ↔ function = true ∧
        ∃ group, life = some group ∧ (group.accepting = false ∨ group.cancelled = true))
  | .cancelled answer, life => answer = life.all Life.cancelled
  | .wait deinit status, life => status = some .invalidArgument ↔ deinit = false ∧ life = none
  | .poll _ answer, life => life.map Life.cancelled = some answer
  | _, _ => True

theorem waitBegin_status (deinit : Bool) (s : State) :
    (waitBegin deinit s).1 = some .invalidArgument ↔ deinit = false ∧ s.life = none := by
  obtain ⟨s₁, hs₁⟩ : ∃ s₁, s₁ = if deinit then cancel s else s := ⟨_, rfl⟩
  have hlife : s₁.life = none ↔ s.life = none := by
    cases deinit with
    | false => exact hs₁ ▸ Iff.rfl
    | true =>
      rw [hs₁, if_pos rfl, (cancel_life s).1]
      exact Option.map_eq_none_iff
  unfold waitBegin
  rw [← hs₁, ← hlife, life_none]
  dsimp only
  rcases hhandle : s₁.handle with _ | ⟨n, group⟩
  · cases deinit <;> simp
  · by_cases hwaited : group.waited = true <;> simp [hwaited]

theorem Sound.answered {e : Event} (h : Sound s) (hstep : Step s e s') : e.Answered s.life := by
  cases hstep with
  | init calloc => exact (init_life calloc s).2.2
  | spawn hidle hlegal hspawn => exact ⟨(spawn_spawning hspawn).invalid,
    (spawn_spawning hspawn).closed⟩
  | cancel => trivial
  | cancelled =>
    change (TaskGroup.cancelled s).1 = s.life.all Life.cancelled
    unfold TaskGroup.cancelled State.life
    split <;> simp [*]
  | wait deinit => exact waitBegin_status deinit s
  | join => trivial
  | waited => trivial
  | start => trivial
  | @poll i n htask =>
    obtain ⟨group, hhandle, -⟩ := h.active i n .running htask (by decide)
    change s.life.map Life.cancelled = some (TaskGroup.taskPoll n s).1
    rw [life_some hhandle]
    simp [TaskGroup.taskPoll, hhandle]
  | exit => trivial

def Event.spawns : Event → Bool
  | .spawn _ _ .ok => true
  | _ => false

def Event.starts (i : ℕ) : Event → Bool
  | .start j => j == i
  | _ => false

def Event.exits (i : ℕ) : Event → Bool
  | .exit j => j == i
  | _ => false

def Phase.started : Phase → ℕ
  | .created => 0
  | _ => 1

def Phase.hasExited : Phase → ℕ
  | .exited => 1
  | _ => 0

/-- The events have started and ended the tasks. -/
structure Ledger (es : List Event) (s : State) : Prop where
  spawned : es.countP Event.spawns = s.tasks.length
  started : ∀ i, es.countP (Event.starts i) = (s.tasks[i]?).elim 0 fun task => task.phase.started
  exited : ∀ i, es.countP (Event.exits i) = (s.tasks[i]?).elim 0 fun task => task.phase.hasExited

theorem Ledger.same {es : List Event} {e : Event} (h : Ledger es s) (htasks : s'.tasks = s.tasks)
    (hspawns : e.spawns = false) (hstarts : ∀ i, e.starts i = false)
    (hexits : ∀ i, e.exits i = false) : Ledger (es ++ [e]) s' := by
  refine ⟨?_, fun i => ?_, fun i => ?_⟩
  · rw [List.countP_append, h.spawned, htasks]
    simp [hspawns]
  · rw [List.countP_append, h.started, htasks]
    simp [hstarts]
  · rw [List.countP_append, h.exited, htasks]
    simp [hexits]

theorem Ledger.spawn {es : List Event} {os : SpawnOs} {function : Bool} (h : Ledger es s)
    (hspawning : Spawning s function status s') :
    Ledger (es ++ [.spawn os function status]) s' := by
  by_cases hok : status = .ok
  · obtain ⟨n, htasks⟩ := hspawning.ok hok
    have hnew : ∀ (f : Phase → ℕ) (i : ℕ), f .created = 0 →
        ((s.tasks[i]?).elim 0 fun task => f task.phase) =
          (s'.tasks[i]?).elim 0 fun task => f task.phase := by
      intro f i hzero
      rw [htasks]
      rcases Nat.lt_trichotomy i s.tasks.length with hlt | rfl | hgt
      · rw [List.getElem?_append_left hlt]
      · simp [hzero]
      · rw [List.getElem?_eq_none hgt.le, List.getElem?_eq_none (by simpa using hgt)]
    refine ⟨?_, fun i => ?_, fun i => ?_⟩
    · rw [List.countP_append, h.spawned, htasks, hok]
      simp [Event.spawns]
    · rw [List.countP_append, h.started, hnew Phase.started i rfl]
      simp [Event.starts]
    · rw [List.countP_append, h.exited, hnew Phase.hasExited i rfl]
      simp [Event.exits]
  · refine h.same (hspawning.failed hok) ?_ (fun _ => rfl) (fun _ => rfl)
    cases status <;> first | rfl | exact absurd rfl hok

theorem setPhase_count (f : Phase → ℕ) {before after : Phase} {k : ℕ}
    (htask : s.tasks[i]? = some ⟨n, before⟩) (hk : f after = f before + k) (j : ℕ) :
    (((s.setPhase i after).tasks[j]?).elim 0 fun task => f task.phase) =
      ((s.tasks[j]?).elim 0 fun task => f task.phase) + if i = j then k else 0 := by
  change (((s.tasks.modify i _)[j]?).elim 0 fun task => f task.phase) = _
  rw [List.getElem?_modify]
  by_cases hij : i = j
  · rw [← hij, htask]
    simp [hk]
  · simp [hij]

theorem setPhase_length (phase : Phase) : (s.setPhase i phase).tasks.length = s.tasks.length :=
  List.length_modify _ _ _

theorem Ledger.start {es : List Event} (h : Ledger es s)
    (htask : s.tasks[i]? = some ⟨n, .created⟩) :
    Ledger (es ++ [.start i]) (taskStart i s) := by
  refine ⟨?_, fun j => ?_, fun j => ?_⟩
  · rw [List.countP_append, h.spawned]
    exact (setPhase_length _).symm
  · rw [List.countP_append, h.started]
    refine Eq.trans ?_ (setPhase_count Phase.started htask (k := 1) rfl j).symm
    simp [Event.starts]
  · rw [List.countP_append, h.exited]
    refine Eq.trans ?_ (setPhase_count Phase.hasExited htask (k := 0) rfl j).symm
    simp [Event.exits]

theorem Ledger.exit {es : List Event} (h : Ledger es s) (htask : s.tasks[i]? = some ⟨n, .running⟩) :
    Ledger (es ++ [.exit i]) (taskExit i s) := by
  refine ⟨?_, fun j => ?_, fun j => ?_⟩
  · rw [List.countP_append, h.spawned]
    exact (setPhase_length _).symm
  · rw [List.countP_append, h.started]
    refine Eq.trans ?_ (setPhase_count Phase.started htask (k := 0) rfl j).symm
    simp [Event.starts]
  · rw [List.countP_append, h.exited]
    refine Eq.trans ?_ (setPhase_count Phase.hasExited htask (k := 1) rfl j).symm
    simp [Event.exits]

theorem ledger_of_run {es : List Event} (h : Run system es s) : Ledger es s := by
  induction h with
  | start hstart =>
    obtain rfl : _ = _ := hstart
    exact ⟨rfl, fun i => by simp, fun i => by simp⟩
  | @step es s s' e hrun hstep ih =>
    have hsound := sound_of_reachable ⟨es, hrun⟩
    cases hstep with
    | init calloc => exact ih.same (init_life calloc s).2.1 rfl (fun _ => rfl) fun _ => rfl
    | spawn hidle hlegal hspawn => exact ih.spawn (spawn_spawning hspawn)
    | cancel => exact ih.same (cancel_life s).2 rfl (fun _ => rfl) fun _ => rfl
    | cancelled =>
      rw [hsound.cancelled]
      exact ih.same rfl rfl (fun _ => rfl) fun _ => rfl
    | wait deinit => exact ih.same (waitBegin_life deinit s).2 rfl (fun _ => rfl) fun _ => rfl
    | join howner hhandle =>
      exact ih.same (joinRound_life _ _ _ _ hhandle).2 rfl (fun _ => rfl) fun _ => rfl
    | waited howner hhandle hge =>
      obtain ⟨m, other, hother, hwaiting⟩ := hsound.owner _ _ _ howner
      rw [hhandle] at hother
      cases hother
      exact ih.same (waitEnd_life hwaiting hge hhandle).2 rfl (fun _ => rfl) fun _ => rfl
    | start htask => exact ih.start htask
    | poll htask =>
      rw [hsound.taskPoll htask]
      exact ih.same rfl rfl (fun _ => rfl) fun _ => rfl
    | exit htask => exact ih.exit htask

/-! ## Waits that have returned -/

/-- No thread is left to join. -/
def AllJoined (s : State) : Prop := ∀ t, .thread t ∉ s.heap.live

theorem Sound.allJoined_iff (h : Sound s) :
    AllJoined s ↔ ∀ n group t, s.handle = some (n, group) → some t ∉ group.threads := by
  constructor
  · exact fun hall n group t hhandle hmem => hall t ((h.live _).2 ⟨n, group, hhandle, hmem⟩)
  · intro hnone t hlive
    obtain ⟨n, group, hhandle, hmem⟩ := (h.live _).1 hlive
    exact hnone n group t hhandle hmem

theorem waitEnd_handle (n : ℕ) (group : Group) (deinit : Bool) (s : State) :
    (waitEnd n group deinit s).handle =
      if deinit && group.threads.all Option.isNone then none
      else some (n, { group with waited := group.threads.all Option.isNone }) := by
  unfold waitEnd free
  cases deinit <;> cases group.threads.all Option.isNone <;> rfl

theorem Sound.waitEnd_joined (h : Sound s) (howner : s.owner = .waiting i result deinit)
    (hhandle : s.handle = some (n, group)) (hge : group.threads.length ≤ i) :
    result = .ok ↔ AllJoined (TaskGroup.waitEnd n group deinit s) := by
  obtain ⟨m, other, hother, hwaiting⟩ := h.owner i result deinit howner
  rw [hhandle] at hother
  cases hother
  rw [(h.waitEnd howner hhandle).allJoined_iff, waitEnd_handle, hwaiting.all_joined hge]
  split_ifs with hfreed
  · have hnone := all_isNone_iff.1 (Bool.and_eq_true_iff.1 hfreed).2
    exact iff_of_true hnone fun m other t hother => by cases hother
  · constructor
    · rintro hnone m other t hother
      cases hother
      exact hnone t
    · exact fun hnone t => hnone n { group with waited := group.threads.all Option.isNone } t rfl

theorem waitBegin_waited (hok : (waitBegin deinit s).1 = some .ok)
    (hhandle : (waitBegin deinit s).2.handle = some (n, group)) : group.waited = true := by
  unfold waitBegin at hok hhandle
  dsimp only at hok hhandle
  rcases hbefore : (if deinit then cancel s else s).handle with _ | ⟨m, other⟩
  · simp only [hbefore] at hhandle
    cases hhandle
  · simp only [hbefore] at hok hhandle
    by_cases hwaited : other.waited = true
    · rw [if_pos hwaited] at hhandle
      cases deinit with
      | false =>
        cases hhandle
        exact hwaited
      | true =>
        simp only [free, hwaited, if_true, Bool.true_eq_false, if_false] at hhandle
        cases hhandle
    · rw [if_neg hwaited] at hok
      cases hok

theorem Sound.waitBegin_joined (h : Sound s) (hidle : s.owner = .idle)
    (hok : (TaskGroup.waitBegin deinit s).1 = some .ok) :
    AllJoined (TaskGroup.waitBegin deinit s).2 := by
  have hafter := h.waitBegin hidle deinit
  rw [hafter.allJoined_iff]
  intro n group t hhandle hmem
  cases ((hafter.group n group hhandle).waited (waitBegin_waited hok hhandle)).2 _ hmem

theorem Sound.exited (h : Sound s) (hall : AllJoined s) :
    ∀ task ∈ s.tasks, task.phase = .exited := by
  intro task hmem
  obtain ⟨i, htask⟩ := List.getElem?_of_mem hmem
  by_contra hphase
  exact hall i (h.thread_live htask hphase)

theorem waitBegin_answer (deinit : Bool) (s : State) :
    (waitBegin deinit s).1 = none ∨ (waitBegin deinit s).1 = some .ok ∨
      (waitBegin deinit s).1 = some .invalidArgument := by
  unfold waitBegin
  dsimp only
  split
  · cases deinit <;> simp
  · split_ifs <;> simp

/-- The result of a wait that has returned. -/
def Event.returned : Event → Option Status
  | .wait _ status => status
  | .waited _ status => some status
  | _ => none

theorem Ledger.finished {es : List Event} (h : Ledger es s)
    (hexited : ∀ task ∈ s.tasks, task.phase = .exited) (i : ℕ) :
    (es.countP (Event.starts i) = if i < es.countP Event.spawns then 1 else 0) ∧
      es.countP (Event.exits i) = if i < es.countP Event.spawns then 1 else 0 := by
  rw [h.started, h.exited, h.spawned]
  split_ifs with hlt
  · rw [List.getElem?_eq_getElem hlt]
    have hphase := hexited _ (List.getElem_mem hlt)
    simp [hphase, Phase.started, Phase.hasExited]
  · rw [List.getElem?_eq_none (Nat.le_of_not_lt hlt)]
    exact ⟨rfl, rfl⟩

/-- A wait on a group returns `LOR_STATUS_OK` if and only if no thread is left to join, and then
each task that has been spawned has been started once and has exited once. -/
theorem wait_joins_all {es : List Event} {e : Event} (h : Run system (es ++ [e]) s)
    (hreturned : e.returned = some status) (hvalid : status ≠ .invalidArgument) :
    (status = .ok ↔ AllJoined s) ∧
      (status = .ok → ∀ i,
        (es.countP (Event.starts i) = if i < es.countP Event.spawns then 1 else 0) ∧
        es.countP (Event.exits i) = if i < es.countP Event.spawns then 1 else 0) := by
  obtain ⟨s', hrun, hstep⟩ := h.last
  have hbefore := sound_of_reachable ⟨es, hrun⟩
  have hafter := sound_of_reachable ⟨_, h⟩
  have hledger := ledger_of_run h
  have hjoined : status = .ok ↔ AllJoined s := by
    cases hstep with
    | wait deinit hidle =>
      rcases waitBegin_answer deinit s' with hnone | hok | hinvalid
      · rw [Event.returned, hnone] at hreturned
        cases hreturned
      · rw [Event.returned, hok] at hreturned
        cases hreturned
        exact iff_of_true rfl (hbefore.waitBegin_joined hidle hok)
      · rw [Event.returned, hinvalid] at hreturned
        cases hreturned
        exact absurd rfl hvalid
    | waited howner hhandle hge =>
      cases hreturned
      exact hbefore.waitEnd_joined howner hhandle hge
    | _ => cases hreturned
  refine ⟨hjoined, fun hok i => ?_⟩
  have hfinished := hledger.finished (hafter.exited (hjoined.1 hok)) i
  cases e with
  | wait => simpa [Event.starts, Event.exits, Event.spawns] using hfinished
  | waited => simpa [Event.starts, Event.exits, Event.spawns] using hfinished
  | _ => cases hreturned

def cancelledGroup : Group := ⟨[some 0], 4, true, false, false⟩

def exitedState : State :=
  oneTask {.thread 0, .threads 0, .group 0} cancelledGroup .exited (.waiting 0 .ok true)

theorem wait_joins_one : AllJoined ⟨⟨∅, false⟩, none, 1, [⟨0, .exited⟩], .idle⟩ := by
  have hexit : Run system _ exitedState := waiting_run.step (Step.exit (i := 0) rfl)
  have hjoinable : Joinable exitedState cancelledGroup 0 := by
    intro t ht
    obtain rfl : 0 = t := Option.some.inj (Option.some.inj ht)
    exact ⟨0, rfl⟩
  have hjoin : Step exitedState (.join true)
      (joinRound true 0 cancelledGroup 0 .ok true exitedState) :=
    Step.join rfl rfl Nat.zero_lt_one fun _ => hjoinable
  have hwaited : Step (joinRound true 0 cancelledGroup 0 .ok true exitedState) (.waited true .ok)
      (waitEnd 0 { cancelledGroup with threads := [none] } true
        (joinRound true 0 cancelledGroup 0 .ok true exitedState)) :=
    Step.waited (i := 1) rfl rfl (Nat.le_refl 1)
  exact (wait_joins_all ((hexit.step hjoin).step hwaited) rfl (by decide)).1.1 rfl

end Liblor.TaskGroup
