import Liblor.TaskGroupModel

/-!
# Tasks do not outlive their group

In every state of a run the objects on the heap are those that the handle, its array and the tasks
stand for, and a task that has not exited is listed in the group that is behind the handle. So no
thread reads what has been freed, and a group is freed only when its threads have been joined.
-/

namespace Liblor.TaskGroup

open HeapObjects Transition

theorem getElem?_concat_iff {α : Type} {l : List α} {i : ℕ} {a b : α} :
    (l ++ [a])[i]? = some b ↔ l[i]? = some b ∨ i = l.length ∧ b = a := by
  rcases Nat.lt_trichotomy i l.length with hlt | rfl | hgt
  · rw [List.getElem?_append_left hlt, or_iff_left fun h => hlt.ne h.1]
  · simp [eq_comm]
  · rw [List.getElem?_eq_none (by simpa using hgt), List.getElem?_eq_none hgt.le]
    simp [hgt.ne']

/-- What is behind the handle does not matter once the array has grown. -/
theorem spawnReserved_handle {s : State} {os : SpawnOs} {n : ℕ} {group : Group}
    {handle : Option (ℕ × Group)} :
    spawnReserved os n group { s with handle := handle } = spawnReserved os n group s := rfl

theorem cancel_owner {s : State} : (cancel s).owner = s.owner := by
  unfold cancel
  split <;> rfl

theorem cancel_cancelled {s : State} {n : ℕ} {group : Group}
    (hhandle : (cancel s).handle = some (n, group)) : group.cancelled = true := by
  unfold cancel at hhandle
  split at hhandle
  · rename_i hnone
    rw [hnone] at hhandle
    cases hhandle
  · cases hhandle
    rfl

theorem spawn_none {s : State} {os : SpawnOs} {function : Bool} (hhandle : s.handle = none) :
    spawn os function s = some (.invalidArgument, s) := by
  unfold spawn
  rw [hhandle]

theorem spawn_null {s : State} {os : SpawnOs} {n : ℕ} {group : Group}
    (hhandle : s.handle = some (n, group)) :
    spawn os false s = some (.invalidArgument, s) := by
  unfold spawn
  rw [hhandle]
  rfl

theorem spawn_some {s : State} {os : SpawnOs} {n : ℕ} {group : Group}
    (hhandle : s.handle = some (n, group)) :
    spawn os true s =
      let heap := s.heap.access (.group n)
      if group.accepting = false ∨ group.cancelled then some (.closed, { s with heap := heap })
      else
        (reserve os n group heap (group.threads.length + 1)).map fun (status, group, heap) =>
          let s := { s with heap := heap }
          if status ≠ .ok then (status, s) else spawnReserved os n group s := by
  unfold spawn
  rw [hhandle]
  rfl

theorem getElem?_set_none_iff {l : List (Option ℕ)} {i j t : ℕ} :
    (l.set i none)[j]? = some (some t) ↔ j ≠ i ∧ l[j]? = some (some t) := by
  by_cases hij : j = i
  · rw [hij, List.getElem?_set_self']
    cases l[i]? <;> simp
  · rw [List.getElem?_set_ne (Ne.symm hij), and_iff_right hij]

/-- The objects that the handle and the tasks stand for. -/
def Owned (s : State) : Object → Prop
  | .group n => ∃ group, s.handle = some (n, group)
  | .threads n => ∃ group, s.handle = some (n, group) ∧ group.capacity ≠ 0
  | .start i => ∃ n, s.tasks[i]? = some ⟨n, .created⟩
  | .thread i => ∃ n group, s.handle = some (n, group) ∧ some i ∈ group.threads

/-- A group behind the handle. -/
structure GroupOk (s : State) (n : ℕ) (group : Group) : Prop where
  made : n < s.made
  count_le : group.threads.length ≤ group.capacity
  capacity_le : group.capacity * threadSize ≤ ptrdiffMax
  capacity_ge : group.capacity = 0 ∨ 4 ≤ group.capacity
  members : ∀ i, some i ∈ group.threads → ∃ phase, s.tasks[i]? = some ⟨n, phase⟩
  distinct : ∀ (j k i : ℕ), group.threads[j]? = some (some i) →
    group.threads[k]? = some (some i) → j = k
  waited : group.waited = true → group.accepting = false ∧ ∀ t ∈ group.threads, t = none

/-- The handles before `i` are `NULL`. -/
def JoinedBelow (threads : List (Option ℕ)) (i : ℕ) : Prop :=
  ∀ (j t : ℕ), j < i → threads[j]? ≠ some (some t)

theorem joinedBelow_zero {threads : List (Option ℕ)} : JoinedBelow threads 0 :=
  fun j _ hj => absurd hj (Nat.not_lt_zero j)

theorem joinedBelow_succ {threads : List (Option ℕ)} {i : ℕ} :
    JoinedBelow threads (i + 1) ↔ JoinedBelow threads i ∧ ∀ t : ℕ, threads[i]? ≠ some (some t) := by
  constructor
  · exact fun h => ⟨fun j t hj => h j t (by omega), fun t => h i t (by omega)⟩
  · rintro ⟨hbelow, hnone⟩ j t hj
    rcases Nat.lt_succ_iff_lt_or_eq.1 hj with hj | rfl
    · exact hbelow j t hj
    · exact hnone t

theorem joinedBelow_set {threads : List (Option ℕ)} {i : ℕ} :
    JoinedBelow (threads.set i none) (i + 1) ↔ JoinedBelow threads i := by
  rw [joinedBelow_succ]
  constructor
  · rintro ⟨hbelow, -⟩ j t hj hget
    exact hbelow j t hj (getElem?_set_none_iff.2 ⟨hj.ne, hget⟩)
  · exact fun h => ⟨fun j t hj hget => h j t hj (getElem?_set_none_iff.1 hget).2,
      fun t hget => (getElem?_set_none_iff.1 hget).1 rfl⟩

/-- The group while the owner is in the loop of a wait. -/
structure Waiting (group : Group) (i : ℕ) (result : Status) (deinit : Bool) : Prop where
  closed : group.accepting = false
  unjoined : group.waited = false
  cancelled : deinit = true → group.cancelled = true
  joined : result = .ok ↔ JoinedBelow group.threads i

structure Sound (s : State) : Prop where
  intact : s.heap.broken = false
  live : ∀ o, o ∈ s.heap.live ↔ Owned s o
  group : ∀ n group, s.handle = some (n, group) → GroupOk s n group
  active : ∀ i n phase, s.tasks[i]? = some ⟨n, phase⟩ → phase ≠ .exited →
    ∃ group, s.handle = some (n, group) ∧ some i ∈ group.threads
  owner : ∀ i result deinit, s.owner = .waiting i result deinit →
    ∃ n group, s.handle = some (n, group) ∧ Waiting group i result deinit

variable {s s' : State} {n i : ℕ} {group group' : Group} {result : Status} {deinit : Bool}

namespace Sound

theorem group_live (h : Sound s) (hhandle : s.handle = some (n, group)) :
    .group n ∈ s.heap.live := (h.live (.group n)).2 ⟨group, hhandle⟩

theorem access_group (h : Sound s) (hhandle : s.handle = some (n, group)) :
    s.heap.access (.group n) = s.heap := Heap.access_eq (h.group_live hhandle)

theorem threads_live (h : Sound s) (hhandle : s.handle = some (n, group))
    (hcapacity : group.capacity ≠ 0) : .threads n ∈ s.heap.live :=
  (h.live (.threads n)).2 ⟨group, hhandle, hcapacity⟩

/-- A thread that is listed and the group that lists it. -/
theorem listed_iff (hhandle : s.handle = some (n, group)) :
    Owned s (.thread i) ↔ some i ∈ group.threads := by
  constructor
  · rintro ⟨m, other, hother, hmem⟩
    rw [hhandle] at hother
    cases hother
    exact hmem
  · exact fun hmem => ⟨n, group, hhandle, hmem⟩

/-- The fields of the group other than its threads may change. -/
theorem regroup (h : Sound s) (hhandle : s.handle = some (n, group)) {owner : Owner}
    (hthreads : group'.threads = group.threads) (hcapacity : group'.capacity = group.capacity)
    (hwaited : group'.waited = true → group'.accepting = false ∧ ∀ t ∈ group.threads, t = none)
    (howner : ∀ i result deinit, owner = .waiting i result deinit →
      Waiting group' i result deinit) :
    Sound { s with handle := some (n, group'), owner := owner } := by
  have hok := h.group n group hhandle
  have hsome : ∀ {m : ℕ} {other : Group}, some (n, group') = some (m, other) →
      s.handle = some (m, group) ∧ other = group' := by
    rintro m other heq
    cases heq
    exact ⟨hhandle, rfl⟩
  refine ⟨h.intact, fun o => (h.live o).trans ?_, ?_, ?_, ?_⟩
  · cases o with
    | group m =>
        constructor
        · rintro ⟨other, hother⟩
          rw [hhandle] at hother
          cases hother
          exact ⟨group', rfl⟩
        · rintro ⟨other, hother⟩
          exact ⟨group, (hsome hother).1⟩
    | threads m =>
        constructor
        · rintro ⟨other, hother, hne⟩
          rw [hhandle] at hother
          cases hother
          exact ⟨group', rfl, hcapacity ▸ hne⟩
        · rintro ⟨other, hother, hne⟩
          obtain ⟨hm, rfl⟩ := hsome hother
          exact ⟨group, hm, hcapacity ▸ hne⟩
    | start j => exact Iff.rfl
    | thread j =>
        rw [listed_iff hhandle]
        exact (hthreads ▸ Iff.rfl : some j ∈ group.threads ↔ some j ∈ group'.threads).trans
          (listed_iff (s := { s with handle := some (n, group'), owner := owner }) rfl).symm
  · intro m other hother
    obtain ⟨hm, rfl⟩ := hsome hother
    cases hother
    exact ⟨hok.made, hthreads ▸ hcapacity ▸ hok.count_le, hcapacity ▸ hok.capacity_le,
      hcapacity ▸ hok.capacity_ge, hthreads ▸ hok.members, hthreads ▸ hok.distinct,
      hthreads ▸ hwaited⟩
  · intro j m phase htask hphase
    obtain ⟨other, hother, hmem⟩ := h.active j m phase htask hphase
    rw [hhandle] at hother
    cases hother
    exact ⟨group', rfl, hthreads ▸ hmem⟩
  · intro j result deinit heq
    exact ⟨n, group', rfl, howner j result deinit heq⟩

theorem init (h : Sound s) (hidle : s.owner = .idle) (calloc : Bool) :
    Sound (TaskGroup.init calloc s).2 := by
  unfold TaskGroup.init
  split_ifs with hhandle hcalloc
  · exact h
  · exact h
  · have hnone : s.handle = none := by simpa using hhandle
    refine ⟨h.intact, fun o => ?_, ?_, ?_, ?_⟩
    · rw [Heap.mem_allocate, h.live]
      cases o with
      | group m => simp [Owned, hnone, eq_comm]
      | threads m => simp [Owned, hnone, freshGroup]
      | start i => simp [Owned]
      | thread i => simp [Owned, hnone, freshGroup]
    · rintro m other heq
      cases heq
      exact ⟨Nat.lt_succ_self _, Nat.le_refl _, Nat.zero_le _, Or.inl rfl, by simp [freshGroup],
        by simp [freshGroup], by simp [freshGroup]⟩
    · intro i m phase htask hphase
      obtain ⟨other, hother, -⟩ := h.active i m phase htask hphase
      rw [hnone] at hother
      cases hother
    · intro i result deinit howner
      rw [hidle] at howner
      cases howner

/-! ### Spawning -/

/-- The capacity that the loop finds. It is so small that the size does not wrap, since the array
before it was not too large. -/
theorem grown_capacity (h : GroupOk s n group)
    (hfull : group.capacity < group.threads.length + 1) :
    ∃ grown, growthLoop (group.threads.length + 1) 64
        (if group.capacity = 0 then 4 else group.capacity) = some grown ∧
      group.threads.length + 1 ≤ grown ∧ 4 ≤ grown ∧ grown * threadSize < 2 ^ 64 := by
  have hcount := h.count_le
  have hsize := h.capacity_le
  simp only [threadSize, ptrdiffMax] at hsize ⊢
  have hstart : 4 ≤ if group.capacity = 0 then 4 else group.capacity := by
    rcases h.capacity_ge with hzero | hge <;> split_ifs <;> omega
  have hfuel : sizeMax / 2 < (if group.capacity = 0 then 4 else group.capacity) * 2 ^ 63 := by
    have hpow : sizeMax / 2 < 4 * 2 ^ 63 := by decide
    exact hpow.trans_le (Nat.mul_le_mul_right _ hstart)
  obtain ⟨grown, hgrown, hrequired, hle⟩ := growthLoop_spec (group.threads.length + 1) 63 _ hfuel
  refine ⟨grown, hgrown, hrequired, hstart.trans hle, ?_⟩
  by_cases hstop : (if group.capacity = 0 then 4 else group.capacity) < group.threads.length + 1
  · have hlt := growthLoop_lt hgrown hstop
    omega
  · rw [growthLoop, if_neg hstop] at hgrown
    cases hgrown
    split_ifs at hstop ⊢ with hzero
    · omega
    · omega

theorem resize (h : Sound s) (hhandle : s.handle = some (n, group)) {grown : ℕ}
    (hrequired : group.threads.length + 1 ≤ grown) (hge : 4 ≤ grown)
    (hbound : grown * threadSize ≤ ptrdiffMax) :
    Sound { s with
      heap := (if group.capacity = 0 then s.heap else s.heap.release (.threads n)).allocate
        (.threads n)
      handle := some (n, { group with capacity := grown }) } := by
  have hok := h.group n group hhandle
  have hlive : ∀ o, o ∈ ((if group.capacity = 0 then s.heap else s.heap.release
      (.threads n)).allocate (.threads n)).live ↔ o = .threads n ∨ o ∈ s.heap.live := by
    intro o
    rw [Heap.mem_allocate]
    split_ifs with hzero
    · exact Iff.rfl
    · rw [Heap.release_eq (h.threads_live hhandle hzero), Finset.mem_erase]
      tauto
  refine ⟨?_, fun o => (hlive o).trans ?_, ?_, ?_, ?_⟩
  · change (Heap.allocate _ _).broken = false
    rw [Heap.broken_allocate]
    split_ifs with hzero
    · exact h.intact
    · rw [Heap.release_eq (h.threads_live hhandle hzero)]
      exact h.intact
  · rw [h.live]
    cases o with
    | group m => simp [Owned, hhandle]
    | threads m =>
        simp only [Owned, hhandle, Object.threads.injEq, Option.some.injEq, Prod.mk.injEq]
        constructor
        · rintro (rfl | ⟨other, ⟨rfl, -⟩, -⟩)
          · exact ⟨_, ⟨rfl, rfl⟩, by simp only; omega⟩
          · exact ⟨_, ⟨rfl, rfl⟩, by simp only; omega⟩
        · rintro ⟨other, ⟨rfl, -⟩, -⟩
          exact Or.inl rfl
    | start j => simp [Owned]
    | thread j => simp [Owned, hhandle]
  · rintro m other heq
    cases heq
    exact ⟨hok.made, (Nat.le_succ _).trans hrequired, hbound, Or.inr hge, hok.members,
      hok.distinct, hok.waited⟩
  · intro j m phase htask hphase
    obtain ⟨other, hother, hmem⟩ := h.active j m phase htask hphase
    rw [hhandle] at hother
    cases hother
    exact ⟨_, rfl, hmem⟩
  · intro j result deinit howner
    obtain ⟨m, other, hother, hwaiting⟩ := h.owner j result deinit howner
    rw [hhandle] at hother
    cases hother
    exact ⟨n, _, rfl, hwaiting.closed, hwaiting.unjoined, hwaiting.cancelled, hwaiting.joined⟩

/-- The array has room for another handle, or nothing has changed. -/
theorem reserve (h : Sound s) (hhandle : s.handle = some (n, group)) {os : SpawnOs}
    (hlegal : os.Legal) : ∃ status capacity heap,
    TaskGroup.reserve os n group s.heap (group.threads.length + 1) =
        some (status, { group with capacity := capacity }, heap) ∧
      (status = .ok → group.threads.length + 1 ≤ capacity ∧
        Sound { s with heap := heap, handle := some (n, { group with capacity := capacity }) }) ∧
      (status ≠ .ok → heap = s.heap) := by
  have hsame : Sound { s with heap := s.heap, handle := some (n, group) } := by
    rw [← hhandle]
    exact h
  unfold TaskGroup.reserve
  by_cases hroom : group.threads.length + 1 ≤ group.capacity
  · rw [if_pos hroom]
    exact ⟨.ok, group.capacity, s.heap, rfl, fun _ => ⟨hroom, hsame⟩, fun hne => absurd rfl hne⟩
  rw [if_neg hroom]
  by_cases hover : group.threads.length + 1 > sizeMax / threadSize
  · rw [if_pos hover]
    exact ⟨.overflow, group.capacity, s.heap, rfl, (fun heq => by cases heq), fun _ => rfl⟩
  rw [if_neg hover]
  obtain ⟨grown, hgrown, hrequired, hge, hsmall⟩ :=
    grown_capacity (h.group n group hhandle) (Nat.lt_of_not_le hroom)
  rw [hgrown, Option.map_some, Nat.mod_eq_of_lt hsmall]
  by_cases hrealloc : os.realloc (grown * threadSize) = false
  · rw [if_pos hrealloc]
    exact ⟨.outOfMemory, group.capacity, s.heap, rfl, (fun heq => by cases heq), fun _ => rfl⟩
  · rw [if_neg hrealloc]
    have hbound := hlegal _ (Bool.eq_true_of_not_eq_false hrealloc)
    exact ⟨.ok, grown, _, rfl, fun _ => ⟨hrequired, h.resize hhandle hrequired hge hbound⟩,
      fun hne => absurd rfl hne⟩

theorem threadStart_cases (os : SpawnOs) {heap : Heap Object} (hfresh : .thread i ∉ heap.live) :
    threadStart os i heap = (.ok, heap.allocate (.thread i)) ∨
      ∃ status, status ≠ .ok ∧ threadStart os i heap = (status, heap) := by
  unfold threadStart
  by_cases hcalloc : os.callocThread = false
  · rw [if_pos hcalloc]
    exact Or.inr ⟨_, by decide, rfl⟩
  rw [if_neg hcalloc]
  by_cases hcreate : os.pthreadCreate = false
  · rw [if_pos hcreate, Heap.release_allocate hfresh]
    exact Or.inr ⟨_, by decide, rfl⟩
  · rw [if_neg hcreate]
    exact Or.inl rfl

theorem fresh (h : Sound s) : .start s.tasks.length ∉ s.heap.live ∧
    .thread s.tasks.length ∉ s.heap.live := by
  have hnone : s.tasks[s.tasks.length]? = none := List.getElem?_eq_none (Nat.le_refl _)
  constructor
  · intro hmem
    obtain ⟨m, htask⟩ := (h.live _).1 hmem
    rw [hnone] at htask
    cases htask
  · intro hmem
    obtain ⟨m, group, hhandle, hlisted⟩ := (h.live _).1 hmem
    obtain ⟨phase, htask⟩ := (h.group m group hhandle).members _ hlisted
    rw [hnone] at htask
    cases htask

/-- A task has been started and listed. -/
theorem listed (h : Sound s) (hhandle : s.handle = some (n, group)) (hidle : s.owner = .idle)
    (haccepting : group.accepting = true) (hroom : group.threads.length + 1 ≤ group.capacity) :
    Sound { s with
      heap := (s.heap.allocate (.start s.tasks.length)).allocate (.thread s.tasks.length)
      handle := some (n, { group with threads := group.threads ++ [some s.tasks.length] })
      tasks := s.tasks ++ [⟨n, .created⟩] } := by
  have hok := h.group n group hhandle
  have hold : ∀ {j : ℕ} {task : Task}, s.tasks[j]? = some task →
      (s.tasks ++ [⟨n, .created⟩])[j]? = some task :=
    fun htask => getElem?_concat_iff.2 (Or.inl htask)
  refine ⟨h.intact, fun o => ?_, ?_, ?_, ?_⟩
  · rw [Heap.mem_allocate, Heap.mem_allocate, h.live]
    cases o with
    | group m => simp [Owned, hhandle]
    | threads m => simp [Owned, hhandle]
    | start j =>
        simp only [Owned, reduceCtorEq, Object.start.injEq, false_or]
        constructor
        · rintro (rfl | ⟨m, htask⟩)
          · exact ⟨n, getElem?_concat_iff.2 (Or.inr ⟨rfl, rfl⟩)⟩
          · exact ⟨m, hold htask⟩
        · rintro ⟨m, htask⟩
          rcases getElem?_concat_iff.1 htask with htask | ⟨rfl, -⟩
          · exact Or.inr ⟨m, htask⟩
          · exact Or.inl rfl
    | thread j =>
        rw [listed_iff hhandle]
        simp only [Owned, Object.thread.injEq, reduceCtorEq, false_or, Option.some.injEq,
          Prod.mk.injEq]
        constructor
        · rintro (rfl | hmem)
          · exact ⟨n, _, ⟨rfl, rfl⟩, List.mem_append_right _ List.mem_cons_self⟩
          · exact ⟨n, _, ⟨rfl, rfl⟩, List.mem_append_left _ hmem⟩
        · rintro ⟨m, other, ⟨rfl, rfl⟩, hmem⟩
          rcases List.mem_append.1 hmem with hmem | hmem
          · exact Or.inr hmem
          · exact Or.inl (Option.some.inj (List.mem_singleton.1 hmem))
  · rintro m other heq
    cases heq
    refine ⟨hok.made, ?_, hok.capacity_le, hok.capacity_ge, ?_, ?_, ?_⟩
    · rw [List.length_append, List.length_singleton]
      exact hroom
    · intro j hmem
      rcases List.mem_append.1 hmem with hmem | hmem
      · obtain ⟨phase, htask⟩ := hok.members j hmem
        exact ⟨phase, hold htask⟩
      · cases List.mem_singleton.1 hmem
        exact ⟨_, getElem?_concat_iff.2 (Or.inr ⟨rfl, rfl⟩)⟩
    · intro j k t hj hk
      have hne : ∀ {l : ℕ}, group.threads[l]? ≠ some (some s.tasks.length) := by
        intro l hl
        obtain ⟨phase, htask⟩ := hok.members _ (List.mem_of_getElem? hl)
        rw [List.getElem?_eq_none (Nat.le_refl _)] at htask
        cases htask
      rcases getElem?_concat_iff.1 hj with hj | ⟨hjlast, hj⟩
      · rcases getElem?_concat_iff.1 hk with hk | ⟨-, hk⟩
        · exact hok.distinct j k t hj hk
        · rw [hk] at hj
          exact absurd hj hne
      · rcases getElem?_concat_iff.1 hk with hk | ⟨hklast, -⟩
        · rw [hj] at hk
          exact absurd hk hne
        · rw [hjlast, hklast]
    · intro hwaited
      have hclosed := (hok.waited hwaited).1
      rw [haccepting] at hclosed
      cases hclosed
  · intro j m phase htask hphase
    rcases getElem?_concat_iff.1 htask with htask | ⟨hlast, hnew⟩
    · obtain ⟨other, hother, hmem⟩ := h.active j m phase htask hphase
      rw [hhandle] at hother
      cases hother
      exact ⟨_, rfl, List.mem_append_left _ hmem⟩
    · injection hnew with hm
      rw [hm, hlast]
      exact ⟨_, rfl, List.mem_append_right _ List.mem_cons_self⟩
  · intro j result deinit howner
    rw [hidle] at howner
    cases howner

theorem spawnReserved (h : Sound s) (hhandle : s.handle = some (n, group)) (hidle : s.owner = .idle)
    (haccepting : group.accepting = true) (hroom : group.threads.length + 1 ≤ group.capacity)
    (os : SpawnOs) : Sound (TaskGroup.spawnReserved os n group s).2 := by
  have hsame : Sound { s with heap := s.heap, handle := some (n, group) } := by
    rw [← hhandle]
    exact h
  obtain ⟨hstart, hthread⟩ := h.fresh
  have hthread' : .thread s.tasks.length ∉ (s.heap.allocate (.start s.tasks.length)).live := by
    simpa using hthread
  unfold TaskGroup.spawnReserved
  dsimp only
  by_cases hmalloc : os.mallocStart = false
  · rw [if_pos hmalloc]
    exact hsame
  rw [if_neg hmalloc]
  rcases threadStart_cases os hthread' with heq | ⟨status, hne, heq⟩
  · rw [heq]
    have harray : .threads n ∈ ((s.heap.allocate (.start s.tasks.length)).allocate
        (.thread s.tasks.length)).live := by
      rw [Heap.mem_allocate, Heap.mem_allocate]
      exact Or.inr (Or.inr (h.threads_live hhandle (by omega)))
    dsimp only
    rw [Heap.access_eq harray]
    exact h.listed hhandle hidle haccepting hroom
  · rw [heq]
    cases status with
    | ok => exact absurd rfl hne
    | _ =>
      dsimp only
      rw [Heap.release_allocate hstart]
      exact hsame

theorem spawn (h : Sound s) (hidle : s.owner = .idle) {os : SpawnOs} (hlegal : os.Legal)
    (function : Bool) :
    ∃ returned, TaskGroup.spawn os function s = some returned ∧ Sound returned.2 := by
  rcases hhandle : s.handle with _ | ⟨n, group⟩
  · exact ⟨_, spawn_none hhandle, h⟩
  cases function with
  | false => exact ⟨_, spawn_null hhandle, h⟩
  | true =>
    rw [spawn_some hhandle, h.access_group hhandle]
    by_cases hclosed : group.accepting = false ∨ group.cancelled = true
    · rw [if_pos hclosed]
      exact ⟨_, rfl, h⟩
    rw [if_neg hclosed]
    rw [not_or] at hclosed
    obtain ⟨status, capacity, heap, heq, hgood, hbad⟩ := h.reserve hhandle hlegal
    rw [heq, Option.map_some]
    by_cases hok : status = .ok
    · obtain ⟨hroom, hsound⟩ := hgood hok
      refine ⟨_, congrArg some (if_neg (not_not.2 hok)), ?_⟩
      rw [← spawnReserved_handle]
      have haccepting := Bool.eq_true_of_not_eq_false hclosed.1
      exact hsound.spawnReserved rfl hidle haccepting hroom os
    · refine ⟨_, congrArg some (if_pos hok), ?_⟩
      rw [hbad hok]
      exact h

/-! ### Cancelling and waiting -/

theorem cancel (h : Sound s) (hidle : s.owner = .idle) : Sound (TaskGroup.cancel s) := by
  unfold TaskGroup.cancel
  split
  · exact h
  · rename_i n group hhandle
    rw [h.access_group hhandle]
    refine h.regroup hhandle rfl rfl (fun hwaited => ?_) (fun i result deinit howner => ?_)
    · exact ⟨rfl, ((h.group n group hhandle).waited hwaited).2⟩
    · rw [hidle] at howner
      cases howner

theorem cancelled (h : Sound s) : (TaskGroup.cancelled s).2 = s := by
  unfold TaskGroup.cancelled
  split
  · rfl
  · rename_i n group hhandle
    rw [h.access_group hhandle]

theorem freed_heap (h : Sound s) (hhandle : s.handle = some (n, group)) :
    ((if group.capacity = 0 then s.heap else s.heap.release (.threads n)).release
        (.group n)).broken = false ∧
      ∀ o, o ∈ ((if group.capacity = 0 then s.heap else s.heap.release (.threads n)).release
        (.group n)).live ↔ o ≠ .group n ∧ o ≠ .threads n ∧ o ∈ s.heap.live := by
  have hgroup := h.group_live hhandle
  by_cases hzero : group.capacity = 0
  · rw [if_pos hzero, Heap.release_eq hgroup]
    refine ⟨h.intact, fun o => Finset.mem_erase.trans (and_congr_right fun _ => ?_)⟩
    refine ⟨fun ho => ⟨?_, ho⟩, And.right⟩
    rintro rfl
    obtain ⟨other, hother, hne⟩ := (h.live _).1 ho
    rw [hhandle] at hother
    cases hother
    exact hne hzero
  · rw [if_neg hzero, Heap.release_eq (h.threads_live hhandle hzero), Heap.release_eq]
    · exact ⟨h.intact, fun o => by rw [Finset.mem_erase, Finset.mem_erase]⟩
    · exact Finset.mem_erase.2 ⟨by simp, hgroup⟩

theorem free (h : Sound s) (hhandle : s.handle = some (n, group)) (hidle : s.owner = .idle) :
    Sound (TaskGroup.free n group s) := by
  unfold TaskGroup.free
  by_cases hwaited : group.waited = false
  · rw [if_pos hwaited]
    exact h
  rw [if_neg hwaited]
  have hempty : ∀ j, some j ∉ group.threads := by
    intro j hmem
    have hjoined := (h.group n group hhandle).waited (Bool.eq_true_of_not_eq_false hwaited)
    cases hjoined.2 _ hmem
  obtain ⟨hintact, hlive⟩ := h.freed_heap hhandle
  refine ⟨hintact, fun o => (hlive o).trans ?_, ?_, ?_, ?_⟩
  · rw [h.live]
    cases o with
    | group m => simp [Owned, hhandle, eq_comm]
    | threads m => simpa [Owned, hhandle, eq_comm] using fun hne heq => absurd heq hne
    | start j => simp [Owned]
    | thread j => simp [Owned, hhandle, hempty]
  · intro m other hother
    cases hother
  · intro j m phase htask hphase
    obtain ⟨other, hother, hmem⟩ := h.active j m phase htask hphase
    rw [hhandle] at hother
    cases hother
    exact absurd hmem (hempty j)
  · intro j result deinit howner
    rw [hidle] at howner
    cases howner

theorem waitBegin (h : Sound s) (hidle : s.owner = .idle) (deinit : Bool) :
    Sound (TaskGroup.waitBegin deinit s).2 := by
  obtain ⟨s₁, hs₁⟩ : ∃ s₁, s₁ = if deinit then TaskGroup.cancel s else s := ⟨_, rfl⟩
  have h₁ : Sound s₁ ∧ s₁.owner = .idle ∧
      (deinit = true → ∀ n group, s₁.handle = some (n, group) → group.cancelled = true) := by
    cases deinit with
    | false => exact hs₁ ▸ ⟨h, hidle, fun hfalse => by cases hfalse⟩
    | true => exact hs₁ ▸ ⟨h.cancel hidle, by rw [if_pos rfl, cancel_owner, hidle],
        fun _ n group hhandle => cancel_cancelled hhandle⟩
  obtain ⟨h₁, hidle₁, hcancelled⟩ := h₁
  unfold TaskGroup.waitBegin
  rw [← hs₁]
  dsimp only
  split
  · exact h₁
  · rename_i n group hhandle
    rw [h₁.access_group hhandle]
    have hclosed : Sound { s₁ with handle := some (n, { group with accepting := false }) } := by
      refine h₁.regroup hhandle rfl rfl (fun hwaited => ?_) (fun i result deinit howner => ?_)
      · exact ⟨rfl, ((h₁.group n group hhandle).waited hwaited).2⟩
      · rw [hidle₁] at howner
        cases howner
    by_cases hwaited : group.waited = true
    · rw [if_pos hwaited]
      dsimp only
      split_ifs
      · exact hclosed.free rfl hidle₁
      · exact hclosed
    · rw [if_neg hwaited]
      refine hclosed.regroup rfl rfl rfl (fun heq => absurd heq hwaited)
        fun i result deinit' heq => ?_
      cases heq
      exact ⟨rfl, Bool.eq_false_of_not_eq_true hwaited,
        fun hdeinit => hcancelled hdeinit n group hhandle, iff_of_true rfl joinedBelow_zero⟩

theorem mem_unlisted (h : Sound s) (hhandle : s.handle = some (n, group)) {t j : ℕ}
    (hget : group.threads[i]? = some (some t)) :
    some j ∈ group.threads.set i none ↔ j ≠ t ∧ some j ∈ group.threads := by
  have hlt : i < group.threads.length := (List.getElem?_eq_some_iff.1 hget).1
  constructor
  · intro hmem
    obtain ⟨k, hk⟩ := List.getElem?_of_mem hmem
    obtain ⟨hki, hk⟩ := getElem?_set_none_iff.1 hk
    refine ⟨?_, List.mem_of_getElem? hk⟩
    rintro rfl
    exact hki ((h.group n group hhandle).distinct k i j hk hget)
  · rintro ⟨hne, hmem⟩
    obtain ⟨k, hk⟩ := List.getElem?_of_mem hmem
    refine List.mem_of_getElem? (i := k) (getElem?_set_none_iff.2 ⟨?_, hk⟩)
    rintro rfl
    rw [hget] at hk
    cases hk
    exact hne rfl

theorem unlist (h : Sound s) (hhandle : s.handle = some (n, group)) {t : ℕ}
    (hget : group.threads[i]? = some (some t)) (hexited : ∃ m, s.tasks[t]? = some ⟨m, .exited⟩)
    (howner : s.owner = .waiting i result deinit) :
    Sound { s with
      heap := s.heap.release (.thread t)
      handle := some (n, { group with threads := group.threads.set i none })
      owner := .waiting (i + 1) result deinit } := by
  have hok := h.group n group hhandle
  have hmem : ∀ j, some j ∈ group.threads.set i none ↔ j ≠ t ∧ some j ∈ group.threads :=
    fun j => h.mem_unlisted hhandle hget
  have hthread : .thread t ∈ s.heap.live :=
    (h.live _).2 ⟨n, group, hhandle, List.mem_of_getElem? hget⟩
  rw [Heap.release_eq hthread]
  refine ⟨h.intact, fun o => Finset.mem_erase.trans ?_, ?_, ?_, ?_⟩
  · rw [h.live]
    cases o with
    | group m => simp [Owned, hhandle]
    | threads m => simp [Owned, hhandle]
    | start j => simp [Owned]
    | thread j => simp [Owned, hhandle, hmem]
  · rintro m other heq
    cases heq
    obtain ⟨m, other, hother, hwaiting⟩ := h.owner i result deinit howner
    rw [hhandle] at hother
    cases hother
    refine ⟨hok.made, ?_, hok.capacity_le, hok.capacity_ge, ?_, ?_, fun hwaited => ?_⟩
    · rw [List.length_set]
      exact hok.count_le
    · exact fun j hj => hok.members j ((hmem j).1 hj).2
    · intro j k u hj hk
      exact hok.distinct j k u (getElem?_set_none_iff.1 hj).2 (getElem?_set_none_iff.1 hk).2
    · rw [hwaiting.unjoined] at hwaited
      cases hwaited
  · intro j m phase htask hphase
    obtain ⟨other, hother, hlisted⟩ := h.active j m phase htask hphase
    rw [hhandle] at hother
    cases hother
    refine ⟨_, rfl, (hmem j).2 ⟨?_, hlisted⟩⟩
    rintro rfl
    obtain ⟨m, hexited⟩ := hexited
    rw [hexited] at htask
    cases htask
    exact hphase rfl
  · intro j result' deinit' heq
    cases heq
    obtain ⟨m, other, hother, hwaiting⟩ := h.owner i result deinit howner
    rw [hhandle] at hother
    cases hother
    exact ⟨n, _, rfl, hwaiting.closed, hwaiting.unjoined, hwaiting.cancelled,
      hwaiting.joined.trans joinedBelow_set.symm⟩

theorem joinRound (h : Sound s) (howner : s.owner = .waiting i result deinit)
    (hhandle : s.handle = some (n, group)) (hlt : i < group.threads.length) {joined : Bool}
    (hjoin : joined = true → Joinable s group i) :
    Sound (TaskGroup.joinRound joined n group i result deinit s) := by
  obtain ⟨m, other, hother, hwaiting⟩ := h.owner i result deinit howner
  rw [hhandle] at hother
  cases hother
  have hcount := (h.group n group hhandle).count_le
  have harray := h.threads_live hhandle (by omega)
  have hnext : ∀ {result' : Status},
      (result' = .ok ↔ result = .ok ∧ ∀ t : ℕ, group.threads[i]? ≠ some (some t)) →
      Sound { s with owner := .waiting (i + 1) result' deinit } := by
    intro result' hresult
    have hregroup : Sound { s with
        handle := some (n, group), owner := .waiting (i + 1) result' deinit } :=
      h.regroup hhandle rfl rfl (h.group n group hhandle).waited ?_
    · rw [← hhandle] at hregroup
      exact hregroup
    rintro j result'' deinit' heq
    cases heq
    refine ⟨hwaiting.closed, hwaiting.unjoined, hwaiting.cancelled, ?_⟩
    rw [hresult, hwaiting.joined, joinedBelow_succ]
  unfold TaskGroup.joinRound
  rw [h.access_group hhandle, Heap.access_eq harray]
  dsimp only
  have hget : group.threads[i]? = some (group.threads.getD i none) := by
    rw [List.getElem?_eq_getElem hlt, List.getD_eq_getElem _ _ hlt]
  cases hthread : group.threads.getD i none with
  | none =>
    rw [hthread] at hget
    exact hnext (by simp [hget])
  | some t =>
    rw [hthread] at hget
    have hlive : .thread t ∈ s.heap.live :=
      (h.live _).2 ⟨n, group, hhandle, List.mem_of_getElem? hget⟩
    dsimp only
    rw [Heap.access_eq hlive]
    cases joined with
    | true => exact h.unlist hhandle hget (hjoin rfl t hget) howner
    | false =>
      refine hnext (iff_of_false ?_ fun hok => hok.2 t hget)
      split_ifs with hresult
      · decide
      · exact hresult

theorem waitEnd (h : Sound s) (howner : s.owner = .waiting i result deinit)
    (hhandle : s.handle = some (n, group)) :
    Sound (TaskGroup.waitEnd n group deinit s) := by
  obtain ⟨m, other, hother, hwaiting⟩ := h.owner i result deinit howner
  rw [hhandle] at hother
  cases hother
  have hheap : (if group.threads.isEmpty then s.heap else s.heap.access (.threads n)) = s.heap := by
    split_ifs with hempty
    · rfl
    · have hcount := (h.group n group hhandle).count_le
      have hlength := List.length_pos_iff.2 (mt List.isEmpty_iff.2 hempty)
      exact Heap.access_eq (h.threads_live hhandle (by omega))
  unfold TaskGroup.waitEnd
  dsimp only
  rw [h.access_group hhandle, hheap]
  have hended : Sound { s with
      handle := some (n, { group with waited := group.threads.all Option.isNone })
      owner := .idle } := by
    refine h.regroup hhandle rfl rfl (fun hwaited => ⟨hwaiting.closed, ?_⟩) (fun _ _ _ heq => ?_)
    · simpa using hwaited
    · cases heq
  split_ifs
  · exact hended.free rfl rfl
  · exact hended

/-! ### Tasks -/

theorem setPhase_iff {phase other : Phase} {j : ℕ} :
    (s.setPhase i phase).tasks[j]? = some ⟨n, other⟩ ↔
      (j = i ∧ other = phase ∧ ∃ old, s.tasks[i]? = some ⟨n, old⟩) ∨
        (j ≠ i ∧ s.tasks[j]? = some ⟨n, other⟩) := by
  change (s.tasks.modify i _)[j]? = _ ↔ _
  rw [List.getElem?_modify]
  by_cases hij : j = i
  · rw [hij]
    cases htask : s.tasks[i]? with
    | none => simp
    | some task =>
      obtain ⟨m, old⟩ := task
      simp [and_comm, eq_comm]
  · simp [hij, Ne.symm hij]

theorem thread_live (h : Sound s) {phase : Phase} (htask : s.tasks[i]? = some ⟨n, phase⟩)
    (hphase : phase ≠ .exited) : .thread i ∈ s.heap.live := by
  obtain ⟨group, hhandle, hmem⟩ := h.active i n phase htask hphase
  exact (h.live _).2 ⟨n, group, hhandle, hmem⟩

theorem rephase (h : Sound s) {old phase : Phase} (htask : s.tasks[i]? = some ⟨n, old⟩)
    (hold : old ≠ .exited) {heap : Heap Object} (hintact : heap.broken = false)
    (hlive : ∀ o, o ∈ heap.live ↔ o ≠ .start i ∧ o ∈ s.heap.live)
    (hphase : phase ≠ .created) : Sound { s.setPhase i phase with heap := heap } := by
  refine ⟨hintact, fun o => (hlive o).trans ?_, ?_, ?_, h.owner⟩
  · rw [h.live]
    cases o with
    | group m => exact ⟨And.right, fun ho => ⟨by simp, ho⟩⟩
    | threads m => exact ⟨And.right, fun ho => ⟨by simp, ho⟩⟩
    | start j =>
        constructor
        · rintro ⟨hne, m, hcreated⟩
          exact ⟨m, setPhase_iff.2 (Or.inr ⟨fun hji => hne (congrArg _ hji), hcreated⟩)⟩
        · rintro ⟨m, hcreated⟩
          rcases setPhase_iff.1 hcreated with ⟨-, heq, -⟩ | ⟨hji, hcreated⟩
          · exact absurd heq.symm hphase
          · exact ⟨fun heq => hji (Object.start.inj heq), m, hcreated⟩
    | thread j => exact ⟨And.right, fun ho => ⟨by simp, ho⟩⟩
  · intro m group hhandle
    have hok := h.group m group hhandle
    refine ⟨hok.made, hok.count_le, hok.capacity_le, hok.capacity_ge, fun j hmem => ?_,
      hok.distinct, hok.waited⟩
    obtain ⟨other, hother⟩ := hok.members j hmem
    by_cases hji : j = i
    · exact ⟨phase, setPhase_iff.2 (Or.inl ⟨hji, rfl, other, hji ▸ hother⟩)⟩
    · exact ⟨other, setPhase_iff.2 (Or.inr ⟨hji, hother⟩)⟩
  · intro j m other hother hne
    rcases setPhase_iff.1 hother with ⟨rfl, -, before, hbefore⟩ | ⟨-, hother⟩
    · rw [htask] at hbefore
      cases hbefore
      exact h.active j n old htask hold
    · exact h.active j m other hother hne

theorem taskStart (h : Sound s) (htask : s.tasks[i]? = some ⟨n, .created⟩) :
    Sound (TaskGroup.taskStart i s) := by
  have hstart : .start i ∈ s.heap.live := (h.live _).2 ⟨n, htask⟩
  have hthread := h.thread_live htask (by decide)
  unfold TaskGroup.taskStart
  rw [Heap.access_eq hthread, Heap.access_eq hstart, Heap.release_eq hstart]
  exact h.rephase htask (by decide) h.intact (fun o => Finset.mem_erase) (by decide)

theorem taskPoll (h : Sound s) (htask : s.tasks[i]? = some ⟨n, .running⟩) :
    (TaskGroup.taskPoll n s).2 = s := by
  obtain ⟨group, hhandle, -⟩ := h.active i n .running htask (by decide)
  change { s with heap := s.heap.access (.group n) } = s
  rw [h.access_group hhandle]

theorem taskExit (h : Sound s) (htask : s.tasks[i]? = some ⟨n, .running⟩) :
    Sound (TaskGroup.taskExit i s) := by
  unfold TaskGroup.taskExit
  rw [Heap.access_eq (h.thread_live htask (by decide))]
  refine h.rephase htask (by decide) h.intact (fun o => ?_) (by decide)
  refine ⟨fun ho => ⟨?_, ho⟩, And.right⟩
  rintro rfl
  obtain ⟨m, hcreated⟩ := (h.live _).1 ho
  rw [htask] at hcreated
  cases hcreated

theorem step {e : Event} (h : Sound s) (hstep : Step s e s') : Sound s' := by
  cases hstep with
  | init calloc hidle => exact h.init hidle calloc
  | spawn hidle hlegal hspawn =>
    obtain ⟨returned, heq, hsound⟩ := h.spawn hidle hlegal _
    rw [hspawn] at heq
    cases heq
    exact hsound
  | cancel hidle => exact h.cancel hidle
  | cancelled hidle => rwa [h.cancelled]
  | wait deinit hidle => exact h.waitBegin hidle deinit
  | join howner hhandle hlt hjoin => exact h.joinRound howner hhandle hlt hjoin
  | waited howner hhandle hge => exact h.waitEnd howner hhandle
  | start htask => exact h.taskStart htask
  | poll htask => rwa [h.taskPoll htask]
  | exit htask => exact h.taskExit htask

end Sound

theorem sound_start (hstart : system.start s) : Sound s := by
  obtain rfl : s = _ := hstart
  refine ⟨rfl, fun o => ?_, (fun n group hhandle => by cases hhandle), (fun i n phase htask => ?_),
    fun i result deinit howner => by cases howner⟩
  · cases o <;> simp [Owned, Heap.empty]
  · rw [List.getElem?_nil] at htask
    cases htask

theorem sound_of_reachable (h : Reachable system s) : Sound s :=
  h.invariant (fun _ => sound_start) fun _ _ _ hs hstep => hs.step hstep

theorem Sound.released (h : Sound s) (hhandle : s.handle = none) :
    (∀ task ∈ s.tasks, task.phase = .exited) ∧ s.heap.live = ∅ := by
  have hexited : ∀ task ∈ s.tasks, task.phase = .exited := by
    intro task hmem
    obtain ⟨i, htask⟩ := List.getElem?_of_mem hmem
    by_contra hphase
    obtain ⟨group, hsome, -⟩ := h.active i task.group task.phase htask hphase
    rw [hhandle] at hsome
    cases hsome
  refine ⟨hexited, Finset.eq_empty_of_forall_notMem fun o ho => ?_⟩
  have howned := (h.live o).1 ho
  cases o with
  | group n => simp [Owned, hhandle] at howned
  | threads n => simp [Owned, hhandle] at howned
  | start i =>
    obtain ⟨n, htask⟩ := howned
    cases hexited _ (List.mem_of_getElem? htask)
  | thread i => simp [Owned, hhandle] at howned

/-- A system in which every call succeeds. -/
def working : SpawnOs := ⟨fun size => decide (size ≤ ptrdiffMax), true, true, true⟩

theorem working_legal : working.Legal := fun _ h => of_decide_eq_true h

def oneTask (live : Finset Object) (group : Group) (phase : Phase) (owner : Owner) : State :=
  ⟨⟨live, false⟩, some (0, group), 1, [⟨0, phase⟩], owner⟩

/-- The owner is in `lor_task_group_deinit` while the only task is running. -/
def waitingState : State :=
  oneTask {.thread 0, .threads 0, .group 0} ⟨[some 0], 4, true, false, false⟩ .running
    (.waiting 0 .ok true)

theorem waiting_run : Run system
    [.init true .ok, .spawn working true .ok, .start 0, .wait true none] waitingState := by
  have hinit := (Run.start (M := system) rfl).step (Step.init true rfl)
  have hspawned : spawn working true (init true ⟨.empty, none, 0, [], .idle⟩).2 = some (.ok, oneTask
      {.thread 0, .start 0, .threads 0, .group 0} ⟨[some 0], 4, false, true, false⟩
      .created .idle) :=
    rfl
  have hspawn := hinit.step (Step.spawn rfl working_legal hspawned)
  exact (hspawn.step (Step.start rfl)).step (Step.wait true rfl)

end Liblor.TaskGroup
