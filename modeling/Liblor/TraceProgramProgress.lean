import Liblor.TraceProgramRuns

/-!
# Recorders and traces can be finished

From every state of a run the calls that are going on can return, the recorders can be finished by
their owners and then the traces, until nothing is left on the heap.
-/

namespace Liblor.Trace.Program

open HeapObjects Transition

def Handle.left : Handle → ℕ
  | .null => 0
  | .finishing _ _ _ _ => 1
  | .attached _ _ _ => 2
  | .initializing _ _ _ => 3

/-- The recorders come before the traces. -/
def State.left (s : State) : ℕ :=
  ∑ r ∈ Finset.range s.recorders.length, (s.handle r).left + s.traces.countP Option.isSome

variable {s s' : State} {es : List (Event × Effect)} {supported : Bool}

theorem left_lt {r w : ℕ} {handle handle' : Handle} (hget : s.recorders[r]? = some ⟨w, handle⟩)
    (hrecorders : s'.recorders = (s.setHandle r handle').recorders) (htraces : s'.traces = s.traces)
    (hlt : handle'.left < handle.left) : s'.left < s.left := by
  have hlength : s'.recorders.length = s.recorders.length := by
    rw [hrecorders]
    exact List.length_modify _ _ _
  have hhandle := handle_update hget hrecorders
  have hr : r ∈ Finset.range s.recorders.length :=
    Finset.mem_range.2 (List.getElem?_eq_some_iff.1 hget).1
  rw [State.left, State.left, hlength, htraces]
  refine Nat.add_lt_add_right (Finset.sum_lt_sum (fun r' _ => ?_) ⟨r, hr, ?_⟩) _
  · rw [hhandle]
    split_ifs with heq
    · rw [heq, handle_of hget]
      exact hlt.le
    · exact le_rfl
  · rw [hhandle, if_pos rfl, handle_of hget]
    exact hlt

theorem left_lt_of_finish {t n : ℕ} (ht : s.traces[t]? = some (some n))
    (hrecorders : s'.recorders = s.recorders) (htraces : s'.traces = s.traces.set t none) :
    s'.left < s.left := by
  have hhandle : ∀ r, s'.handle r = s.handle r := fun r => by
    rw [State.handle, State.handle, hrecorders]
  obtain ⟨hlt, hget⟩ := List.getElem?_eq_some_iff.1 ht
  have hcount : (s.traces.set t none).countP Option.isSome < s.traces.countP Option.isSome := by
    have hpos : 0 < s.traces.countP Option.isSome :=
      List.countP_pos_iff.2 ⟨some n, List.mem_of_getElem? ht, rfl⟩
    rw [List.countP_set hlt, hget]
    simp only [Option.isSome_some, Option.isSome_none, if_true, Bool.false_eq_true, if_false]
    omega
  rw [State.left, State.left, hrecorders, htraces]
  simp only [hhandle]
  exact Nat.add_lt_add_left hcount _

theorem threadInitEnd_handle (s : State) (m n r : ℕ) (name : Option Bytes) (opened : Opened) :
    ∃ handle', (threadInitEnd m n name opened r s).2.1.recorders =
        (s.setHandle r handle').recorders ∧
      (threadInitEnd m n name opened r s).2.1.traces = s.traces ∧ handle'.left < 3 := by
  unfold threadInitEnd
  rcases threadInit_outcomes opened.os opened.impl true name with
    ⟨status, hinit⟩ | ⟨impl, -, ⟨-, hinit⟩ | ⟨-, hinit⟩⟩
  · rw [hinit]
    exact ⟨.null, rfl, rfl, Nat.zero_lt_succ 2⟩
  · rw [hinit]
    exact ⟨.null, rfl, rfl, Nat.zero_lt_succ 2⟩
  · rw [hinit]
    exact ⟨.attached m n _, rfl, rfl, Nat.lt_succ_self 2⟩

/-- While something is left, some thread can go on. -/
theorem Traced.progress (h : Traced es s) (hleft : s.left ≠ 0) :
    ∃ label s', Step supported s label s' ∧ s'.left < s.left := by
  have hopened : ∀ n, some n ∈ s.traces → ∃ opened, s.opened[n]? = some opened := fun n hn =>
    ⟨_, List.getElem?_eq_getElem (h.sound.opened n hn)⟩
  by_cases hnull : ∀ r, s.handle r = .null
  · have hzero : ∑ r ∈ Finset.range s.recorders.length, (s.handle r).left = 0 :=
      Finset.sum_eq_zero fun r _ => by
        rw [hnull]
        rfl
    rw [State.left, hzero, Nat.zero_add] at hleft
    obtain ⟨handle, hmem, hsome⟩ := List.countP_pos_iff.1 (Nat.pos_of_ne_zero hleft)
    obtain ⟨n, rfl⟩ := Option.isSome_iff_exists.1 hsome
    obtain ⟨t, ht⟩ := List.mem_iff_getElem?.1 hmem
    obtain ⟨opened, hget⟩ := hopened n hmem
    have htrace : s.trace t = some (n, opened) := by
      rw [State.trace, ht]
      exact Option.map_eq_some_iff.2 ⟨opened, hget, rfl⟩
    have hunawaited : ∀ k other, s.trace t = some (k, other) → Unawaited s k := by
      intro k other _ v hv m name heq
      obtain ⟨r, hr⟩ := List.mem_iff_getElem?.1 hv
      have hv' : s.handle r = v.handle := handle_of hr
      rw [hnull r, heq] at hv'
      cases hv'
    rcases h.finish_cases htrace with ⟨⟨r, x, hx⟩, -⟩ | ⟨-, -, htraces, hrecorders⟩
    · rw [hnull r] at hx
      cases hx
    · exact ⟨_, _, Step.finish t hunawaited, left_lt_of_finish ht hrecorders htraces⟩
  · push Not at hnull
    obtain ⟨r, hr⟩ := hnull
    obtain ⟨w, hget⟩ := getElem?_of_handle rfl hr
    cases hhandle : s.handle r with
    | null => exact absurd hhandle hr
    | initializing m n name =>
        rw [hhandle] at hget
        obtain ⟨opened, hopened⟩ := hopened n (h.sound.target r n (by rw [hhandle]; rfl))
        obtain ⟨handle', hrecorders, htraces, hlt⟩ := threadInitEnd_handle s m n r name opened
        exact ⟨_, _, Step.threadInitEnd hget hopened, left_lt hget hrecorders htraces hlt⟩
    | attached m n thread =>
        rw [hhandle] at hget
        obtain ⟨opened, hopened⟩ := hopened n (h.sound.target r n (by rw [hhandle]; rfl))
        have hrecorder : s.recorder r = some (m, n, thread, opened) := by
          rw [State.recorder, hget]
          dsimp only
          rw [hopened]
          rfl
        have husable : Usable s w r := ⟨_, hget, Or.inr ⟨m, n, thread, rfl⟩⟩
        refine ⟨_, _, Step.threadFinish husable fun _ => 0, ?_⟩
        rw [Program.threadFinish, hrecorder]
        exact left_lt hget rfl rfl (Nat.lt_succ_self 1)
    | finishing m n thread status =>
        rw [hhandle] at hget
        obtain ⟨opened, hopened⟩ := hopened n (h.sound.target r n (by rw [hhandle]; rfl))
        exact ⟨_, _, Step.threadRelease hget hopened, left_lt hget rfl rfl Nat.zero_lt_one⟩

theorem Traced.emptied (h : Traced es s) (hleft : s.left = 0) :
    (∀ handle ∈ s.traces, handle = none) ∧ (∀ v ∈ s.recorders, v.handle = .null) ∧
      s.heap.live = ∅ := by
  obtain ⟨hrecorders, htraces⟩ := Nat.add_eq_zero_iff.1 hleft
  have hempty : ∀ handle ∈ s.traces, handle = none := by
    intro handle hmem
    have hnone := List.countP_eq_zero.1 htraces handle hmem
    rwa [Option.not_isSome_iff_eq_none] at hnone
  have hnull : ∀ r, s.handle r = .null := by
    intro r
    by_contra hne
    obtain ⟨w, hget⟩ := getElem?_of_handle rfl hne
    have hzero := Finset.sum_eq_zero_iff.1 hrecorders r
      (Finset.mem_range.2 (List.getElem?_eq_some_iff.1 hget).1)
    cases hhandle : s.handle r with
    | null => exact hne hhandle
    | initializing => rw [hhandle] at hzero; cases hzero
    | attached => rw [hhandle] at hzero; cases hzero
    | finishing => rw [hhandle] at hzero; cases hzero
  refine ⟨hempty, fun v hv => ?_, Finset.eq_empty_of_forall_notMem fun o ho => ?_⟩
  · obtain ⟨r, hr⟩ := List.mem_iff_getElem?.1 hv
    have hv' : s.handle r = v.handle := handle_of hr
    exact hv'.symm.trans (hnull r)
  · have howned := (h.sound.live o).1 ho
    cases o with
    | trace n => cases hempty _ howned
    | file n => cases hempty _ howned
    | recorder m =>
        obtain ⟨r, hr⟩ := howned
        rw [hnull r] at hr
        cases hr
    | buffer m =>
        obtain ⟨r, hr⟩ := howned
        rw [hnull r] at hr
        cases hr

/-- From every state of a run the threads can go on until every recorder and every trace is finished
and all memory is freed, whatever the files answer. -/
theorem traces_can_be_finished (h : Reachable (system supported) s) :
    ∃ es s', Steps (system supported) s es s' ∧ (∀ handle ∈ s'.traces, handle = none) ∧
      (∀ v ∈ s'.recorders, v.handle = .null) ∧ s'.heap.live = ∅ := by
  obtain ⟨es₀, hrun⟩ := h
  obtain ⟨es, s', hsteps, ⟨es', htraced⟩, hleft⟩ :=
    Steps.exhaust (M := system supported) (P := fun s => ∃ es, Traced es s) State.left
      (fun s hs hleft => by
        obtain ⟨es, htraced⟩ := hs
        obtain ⟨label, s', hstep, hlt⟩ := htraced.progress hleft
        exact ⟨label, s', hstep, ⟨_, htraced.step hstep⟩, hlt⟩) ⟨_, traced_of_run hrun⟩
  exact ⟨es, s', hsteps, htraced.emptied hleft⟩

theorem traces_can_be_finished_instrumented : ∃ s es s', Reachable (system true) s ∧
    (s.handle 0).number = some 0 ∧ Steps (system true) s es s' ∧ s'.heap.live = ∅ := by
  obtain ⟨es, s, hrun, -, hnumber, -, -⟩ := instrumented_run
  obtain ⟨es', s', hsteps, -, -, hempty⟩ := traces_can_be_finished ⟨es, hrun⟩
  exact ⟨s, es', s', ⟨es, hrun⟩, hnumber, hsteps, hempty⟩

end Liblor.Trace.Program
