import Liblor.TaskGroupRuns

/-!
# No group is stuck

Whatever has happened to a group, its tasks can run to their ends, a wait that has begun comes to
its end, and one more `lor_task_group_deinit` frees everything.
-/

namespace Liblor.TaskGroup

open HeapObjects Transition

variable {s s' : State} {n i : ℕ} {group : Group} {result : Status} {deinit : Bool}

/-- The steps that a task has left. -/
def Phase.left : Phase → ℕ
  | .created => 2
  | .running => 1
  | .exited => 0

def State.left (s : State) : ℕ := (s.tasks.map fun task => task.phase.left).sum

theorem setPhase_left {before : Phase} (after : Phase) (htask : s.tasks[i]? = some ⟨n, before⟩) :
    (s.setPhase i after).left + before.left = s.left + after.left := by
  obtain ⟨l, hl⟩ : ∃ l, l = s.tasks := ⟨_, rfl⟩
  change ((s.tasks.modify i _).map _).sum + _ = (s.tasks.map _).sum + _
  rw [← hl] at htask ⊢
  clear hl
  induction l generalizing i with
  | nil => simp at htask
  | cons task l ih =>
    cases i with
    | zero =>
      cases Option.some.inj htask
      simp only [List.modify_zero_cons, List.map_cons, List.sum_cons]
      omega
    | succ i =>
      have htail := ih htask
      simp only [List.modify_succ_cons, List.map_cons, List.sum_cons] at htail ⊢
      omega

theorem Sound.run_tasks (h : Sound s) :
    ∃ es s', Steps system s es s' ∧ Sound s' ∧ s'.owner = s.owner ∧ s'.handle = s.handle ∧
      ∀ task ∈ s'.tasks, task.phase = .exited := by
  have hstep : ∀ s', (Sound s' ∧ s'.owner = s.owner ∧ s'.handle = s.handle) → s'.left ≠ 0 →
      ∃ e s'', system.step s' e s'' ∧ (Sound s'' ∧ s''.owner = s.owner ∧ s''.handle = s.handle) ∧
        s''.left < s'.left := by
    rintro s' ⟨hsound, howner, hhandle⟩ hleft
    obtain ⟨i, task, htask, hphase⟩ :
        ∃ (i : ℕ) (task : Task), s'.tasks[i]? = some task ∧ task.phase.left ≠ 0 := by
      by_contra hnone
      refine hleft (List.sum_eq_zero fun x hx => ?_)
      obtain ⟨task, hmem, rfl⟩ := List.mem_map.1 hx
      obtain ⟨i, htask⟩ := List.getElem?_of_mem hmem
      by_contra hne
      exact hnone ⟨i, task, htask, hne⟩
    obtain ⟨n, phase⟩ := task
    cases phase with
    | created =>
      have hleft' := setPhase_left .running htask
      exact ⟨_, _, Step.start htask, ⟨hsound.taskStart htask, howner, hhandle⟩,
        Nat.lt_of_add_lt_add_right (n := 2) (hleft'.trans_lt (by simp [Phase.left]))⟩
    | running =>
      have hleft' := setPhase_left .exited htask
      exact ⟨_, _, Step.exit htask, ⟨hsound.taskExit htask, howner, hhandle⟩,
        Nat.lt_of_add_lt_add_right (n := 1) (hleft'.trans_lt (by simp [Phase.left]))⟩
    | exited => exact absurd rfl hphase
  obtain ⟨es, s', hes, ⟨hsound, howner, hhandle⟩, hzero⟩ :=
    Steps.exhaust State.left hstep ⟨h, rfl, rfl⟩
  refine ⟨es, s', hes, hsound, howner, hhandle, fun task hmem => ?_⟩
  have hleft := List.sum_eq_zero_iff.1 hzero _ (List.mem_map_of_mem hmem)
  obtain ⟨n, phase⟩ := task
  cases phase <;> first | rfl | cases hleft

theorem Sound.joinable (h : Sound s) (hexited : ∀ task ∈ s.tasks, task.phase = .exited)
    (hhandle : s.handle = some (n, group)) (i : ℕ) : Joinable s group i := by
  intro t hget
  obtain ⟨phase, htask⟩ := (h.group n group hhandle).members t (List.mem_of_getElem? hget)
  obtain rfl : phase = .exited := hexited _ (List.mem_of_getElem? htask)
  exact ⟨n, htask⟩

theorem joinRound_next (n : ℕ) (group : Group) (i : ℕ) (result : Status) (deinit : Bool)
    (hhandle : s.handle = some (n, group)) :
    (joinRound true n group i result deinit s).owner = .waiting (i + 1) result deinit ∧
      ∃ group', (joinRound true n group i result deinit s).handle = some (n, group') ∧
        group'.threads.length = group.threads.length := by
  unfold joinRound
  dsimp only
  split
  · exact ⟨rfl, group, hhandle, rfl⟩
  · exact ⟨rfl, _, rfl, List.length_set⟩

/-- A wait comes to its end once the tasks have exited, if the joins succeed. -/
theorem Sound.finish_wait (h : Sound s) (hexited : ∀ task ∈ s.tasks, task.phase = .exited)
    (howner : s.owner = .waiting i result deinit) :
    ∃ es s', Steps system s es s' ∧ Sound s' ∧ s'.owner = .idle ∧
      (∀ task ∈ s'.tasks, task.phase = .exited) ∧
      (result = .ok → deinit = true → s'.handle = none) := by
  obtain ⟨n, group, hhandle, hwaiting⟩ := h.owner i result deinit howner
  induction hleft : group.threads.length - i generalizing s i group with
  | zero =>
    have hge : group.threads.length ≤ i := Nat.le_of_sub_eq_zero hleft
    have hend := waitEnd_life hwaiting hge hhandle
    refine ⟨_, _, .single (Step.waited howner hhandle hge), h.waitEnd howner hhandle, ?_, ?_, ?_⟩
    · unfold TaskGroup.waitEnd TaskGroup.free
      dsimp only
      split_ifs <;> rfl
    · rw [hend.2]
      exact hexited
    · rintro rfl rfl
      exact life_none.1 hend.1
  | succ left ih =>
    have hlt : i < group.threads.length := by omega
    have hjoin := fun (_ : true = true) => h.joinable hexited hhandle i
    obtain ⟨howner', group', hhandle', hlength⟩ := joinRound_next n group i result deinit hhandle
    have hsound := h.joinRound howner hhandle hlt hjoin
    obtain ⟨m, other, hother, hwaiting'⟩ := hsound.owner _ _ _ howner'
    rw [hhandle'] at hother
    cases hother
    have hexited' := (joinRound_life true i result deinit hhandle).2
    obtain ⟨es, s', hes, hrest⟩ := ih hsound (by rw [hexited']; exact hexited) howner' _ hhandle'
      hwaiting' (by omega)
    exact ⟨_, s', (Steps.single (Step.join howner hhandle hlt hjoin)).trans hes, hrest⟩

theorem waitBegin_owner (deinit : Bool) (hidle : s.owner = .idle) :
    ((waitBegin deinit s).1 = none → (waitBegin deinit s).2.owner = .waiting 0 .ok deinit) ∧
      ((waitBegin deinit s).1 ≠ none → (waitBegin deinit s).2.owner = .idle) := by
  obtain ⟨s₁, hs₁⟩ : ∃ s₁, s₁ = if deinit then cancel s else s := ⟨_, rfl⟩
  have hidle₁ : s₁.owner = .idle := by
    cases deinit with
    | false => exact hs₁ ▸ hidle
    | true => rw [hs₁, if_pos rfl, cancel_owner, hidle]
  unfold waitBegin
  rw [← hs₁]
  dsimp only
  rcases hhandle : s₁.handle with _ | ⟨n, group⟩
  · exact ⟨(fun hnone => by cases hnone), fun _ => hidle₁⟩
  · by_cases hwaited : group.waited = true
    · simp only [if_pos hwaited]
      refine ⟨(fun hnone => by cases hnone), fun _ => ?_⟩
      cases deinit with
      | false => exact hidle₁
      | true => simp [free, hwaited, hidle₁]
    · simp only [if_neg hwaited]
      simp

theorem Sound.free_all (h : Sound s) (hidle : s.owner = .idle)
    (hexited : ∀ task ∈ s.tasks, task.phase = .exited) :
    ∃ es s', Steps system s es s' ∧ Sound s' ∧ s'.owner = .idle ∧ s'.handle = none := by
  have hwait := Steps.single (M := system) (Step.wait (s := s) true hidle)
  have hsound := h.waitBegin hidle true
  obtain ⟨hwaiting, hreturned⟩ := waitBegin_owner true hidle
  obtain ⟨hlife, htasks⟩ := waitBegin_life true s
  rcases waitBegin_answer true s with hnone | hok | hinvalid
  · obtain ⟨es, s', hes, hsound', hidle', -, hfreed⟩ :=
      hsound.finish_wait (by rw [htasks]; exact hexited) (hwaiting hnone)
    exact ⟨_, s', hwait.trans hes, hsound', hidle', hfreed rfl rfl⟩
  · have hidle' := hreturned (by simp [hok])
    rw [hok] at hlife
    exact ⟨_, _, hwait, hsound, hidle', life_none.1 hlife⟩
  · cases ((waitBegin_status true s).1 hinvalid).1

/-- From every state of a run the tasks and the owner can go on until nothing is left: no wait is
stranded, and there is no group that can no longer be freed. -/
theorem can_be_freed (h : Reachable system s) :
    ∃ es s', Steps system s es s' ∧ s'.owner = .idle ∧ s'.handle = none ∧ s'.heap.live = ∅ := by
  obtain ⟨es₁, s₁, hes₁, h₁, -, -, hexited₁⟩ := (sound_of_reachable h).run_tasks
  obtain ⟨es₂, s₂, hes₂, h₂, hidle₂, hexited₂⟩ : ∃ es s₂, Steps system s₁ es s₂ ∧ Sound s₂ ∧
      s₂.owner = .idle ∧ ∀ task ∈ s₂.tasks, task.phase = .exited := by
    cases howner : s₁.owner with
    | idle => exact ⟨[], s₁, .refl s₁, h₁, howner, hexited₁⟩
    | waiting i result deinit =>
      obtain ⟨es, s₂, hes, hsound, hidle, hexited, -⟩ := h₁.finish_wait hexited₁ howner
      exact ⟨es, s₂, hes, hsound, hidle, hexited⟩
  obtain ⟨es₃, s₃, hes₃, h₃, hidle₃, hhandle₃⟩ := h₂.free_all hidle₂ hexited₂
  exact ⟨_, s₃, (hes₁.trans hes₂).trans hes₃, hidle₃, hhandle₃, (h₃.released hhandle₃).2⟩

theorem waiting_can_be_freed : ∃ es s', Steps system waitingState es s' ∧ s'.owner = .idle ∧
    s'.handle = none ∧ s'.heap.live = ∅ :=
  can_be_freed ⟨_, waiting_run⟩

end Liblor.TaskGroup
