import Liblor.TraceFile
import Liblor.TraceProgramModel

/-!
# The traces of a program

The calls that reach a trace of a program are a run of the system of one trace: what the program
makes of it is a state of that system, in which the recorders that are not finished are those behind
the variables of the program. So a trace outlives its recorders, and in every state of a run the
objects on the heap are those that the variables stand for.
-/

namespace Liblor.Trace

open Transition

/-! ## Threads of one trace -/

/-- Nothing has come of it, or the name could not be written, or there is a new thread. -/
theorem threadInit_outcomes (os : Os) (trace : TraceImpl) (allocated : Bool) (name : Option Bytes) :
    (∃ status, threadInit os trace allocated name = (status, trace, none)) ∨
    ∃ trace', Touched { trace with nextThreadId := trace.nextThreadId + 1 } trace' ∧
      (trace'.failed = true ∧ threadInit os trace allocated name = (.systemError, trace', none) ∨
        trace.failed = false ∧ threadInit os trace allocated name =
          (.ok, { trace' with activeThreads := trace'.activeThreads + 1 },
            some ⟨[], trace.bufferSize, 0, 0, 0, trace.nextThreadId, 0, 0⟩)) := by
  unfold threadInit
  by_cases hallocated : allocated = false
  · rw [if_pos hallocated]
    exact Or.inl ⟨_, rfl⟩
  rw [if_neg hallocated]
  by_cases hclosed : trace.closed = true ∨ trace.failed = true
  · rw [if_pos hclosed]
    exact Or.inl ⟨_, rfl⟩
  rw [if_neg hclosed]
  have hfailed : trace.failed = false := Bool.eq_false_iff.2 fun htrue => hclosed (Or.inr htrue)
  right
  cases name with
  | none => exact ⟨_, Touched.refl _, Or.inr ⟨hfailed, rfl⟩⟩
  | some name =>
      have htouched := touches_writeMetadataLocked os "thread_name" trace.nextThreadId name
        { trace with nextThreadId := trace.nextThreadId + 1 }
      have hemits := emits_metadata os "thread_name" trace.nextThreadId name
        { trace with nextThreadId := trace.nextThreadId + 1 }
      dsimp only
      rcases hwrite : writeMetadataLocked os "thread_name" trace.nextThreadId name
        { trace with nextThreadId := trace.nextThreadId + 1 } with ⟨ok, trace'⟩
      rw [hwrite] at htouched hemits
      refine ⟨trace', htouched, ?_⟩
      cases ok with
      | false =>
          rcases hemits with ⟨calls, heq⟩ | ⟨-, hbad⟩
          · cases heq
          · exact Or.inl ⟨hbad, rfl⟩
      | true => exact Or.inr ⟨hfailed, rfl⟩

/-- Thread `i` has the id `i + 1`, and the trace counts the threads that are not finished. -/
structure Numbered (a : State) : Prop where
  threadId : ∀ (i : ℕ) (thread : Thread), a.threads[i]? = some thread →
    thread.impl.threadId = i + 1
  next : a.trace.failed = false → a.trace.nextThreadId = a.threads.length + 1
  active : a.result = none → a.trace.activeThreads = a.threads.countP Thread.active
  opened : a.result = none → a.trace.closed = false

theorem initFile_counts {os : Os} {init : InitOs} {config : Config} {trace : TraceImpl}
    (h : initFile os init config = (.ok, some trace)) :
    trace.processId = init.processId ∧ trace.nextThreadId = 1 ∧ trace.activeThreads = 0 := by
  obtain ⟨fresh, first, hfresh, hfirst, hlast⟩ := initFile_ok h
  have htouched := touches_writeLiteral os "[\n" fresh
  rw [hfirst] at htouched
  have hframe : trace.processId = fresh.processId ∧ trace.nextThreadId = fresh.nextThreadId ∧
      trace.activeThreads = fresh.activeThreads := by
    rcases hlast with ⟨-, rfl⟩ | ⟨name, -, hwrite⟩
    · exact htouched.frame
    · have hmetadata := touches_writeMetadataLocked os "process_name" 0 name first
      rw [hwrite] at hmetadata
      exact (htouched.trans hmetadata).frame
  exact ⟨hframe.1.trans hfresh.processId, hframe.2.1.trans hfresh.nextThreadId,
    hframe.2.2.trans hfresh.activeThreads⟩

namespace Numbered

variable {os : Os} {a : State} {trace' : TraceImpl} {thread thread' : Thread} {i : ℕ}

/-- A thread that keeps its id changes, and the trace is written to. -/
theorem call (h : Numbered a) (hopen : a.result = none) (hthread : a.threads[i]? = some thread)
    (htouched : Touched a.trace trace') (hid : thread'.impl.threadId = thread.impl.threadId)
    (hactive : thread'.active = thread.active) :
    Numbered { a with trace := trace', threads := a.threads.set i thread' } := by
  obtain ⟨-, hnext, htally⟩ := htouched.frame
  refine ⟨fun j other hother => ?_, fun hfailed => ?_, fun _ => ?_, fun _ => ?_⟩
  · change (a.threads.set i thread')[j]? = some other at hother
    rw [List.getElem?_set] at hother
    split_ifs at hother with heq
    · cases hother
      rw [hid, ← heq]
      exact h.threadId i thread hthread
    · exact h.threadId j other hother
  · change trace'.nextThreadId = (a.threads.set i thread').length + 1
    rw [List.length_set, hnext]
    exact h.next (htouched.not_failed hfailed)
  · change trace'.activeThreads = (a.threads.set i thread').countP Thread.active
    rw [countP_active_same hthread hactive, htally]
    exact h.active hopen
  · exact htouched.settings.2.2.trans (h.opened hopen)

theorem push {impl : ThreadImpl} (h : Numbered a) (hopen : a.result = none) (name : Option Bytes)
    (hfailed : a.trace.failed = false)
    (htouched : Touched { a.trace with nextThreadId := a.trace.nextThreadId + 1 } trace')
    (hid : impl.threadId = a.trace.nextThreadId) :
    Numbered { a with
      trace := { trace' with activeThreads := trace'.activeThreads + 1 }
      threads := a.threads ++ [⟨impl, name, [], [], [], .recording⟩] } := by
  obtain ⟨-, hnext, htally⟩ := htouched.frame
  refine ⟨fun i thread hthread => ?_, fun _ => ?_, fun _ => ?_, fun _ => ?_⟩
  · change (a.threads ++ [⟨impl, name, [], [], [], .recording⟩])[i]? = some thread at hthread
    rcases Nat.lt_or_ge i a.threads.length with hlt | hge
    · rw [List.getElem?_append_left hlt] at hthread
      exact h.threadId i thread hthread
    · rw [List.getElem?_append_right hge, List.getElem?_singleton] at hthread
      split_ifs at hthread with hzero
      cases hthread
      rw [hid, h.next hfailed]
      omega
  · change trace'.nextThreadId = _
    rw [hnext, h.next hfailed]
    simp
  · change trace'.activeThreads + 1 = (a.threads ++ [_]).countP Thread.active
    rw [htally, List.countP_append, List.countP_singleton]
    exact congrArg (· + 1) (h.active hopen)
  · exact htouched.settings.2.2.trans (h.opened hopen)

/-- No thread has come of it, since the trace has failed. -/
theorem fail (h : Numbered a) (hopen : a.result = none)
    (htouched : Touched { a.trace with nextThreadId := a.trace.nextThreadId + 1 } trace')
    (hfailed : trace'.failed = true) : Numbered { a with trace := trace' } := by
  obtain ⟨-, -, htally⟩ := htouched.frame
  refine ⟨h.threadId, fun hkept => ?_, fun _ => ?_, fun _ => ?_⟩
  · exact absurd hfailed (Bool.eq_false_iff.1 hkept)
  · exact htally.trans (h.active hopen)
  · exact htouched.settings.2.2.trans (h.opened hopen)

theorem threadInit (h : Numbered a) (hopen : a.result = none) (allocated : Bool)
    (name : Option Bytes) : Numbered (a.threadInit os allocated name) := by
  rw [State.threadInit]
  rcases threadInit_outcomes os a.trace allocated name with
    ⟨status, hsame⟩ | ⟨trace', htouched, ⟨hfailed, hinit⟩ | ⟨hfailed, hinit⟩⟩
  · rw [hsame]
    exact h
  · rw [hinit]
    exact h.fail hopen htouched hfailed
  · rw [hinit]
    exact h.push hopen name hfailed htouched rfl

theorem flush_threadId (trace : TraceImpl) (impl : ThreadImpl) (flushStream : Bool) :
    (flushInternal os trace impl flushStream).2.2.threadId = impl.threadId := by
  rcases flushInternal_thread os trace impl flushStream with hkept | hflushed
  · rw [hkept]
  · rw [hflushed]

theorem step {a' : State} {e : Trace.Event} (h : Numbered a) (hsound : Sound a)
    (hstep : Step os a e a') : Numbered a' := by
  cases hstep with
  | threadInit hopen allocated name => exact h.threadInit hopen allocated name
  | event hopen hthread hphase call now =>
      obtain ⟨before, after, -, -, -, hid, -⟩ := call.performed os now a.trace _
      exact h.call hopen hthread (call.performed os now a.trace _).touched hid rfl
  | @threadFlush i thread hopen hthread hphase =>
      exact h.call hopen hthread (touched_flushInternal os a.trace thread.impl true)
        (flush_threadId a.trace thread.impl true) rfl
  | @threadFinish i thread hopen hthread hphase now =>
      obtain ⟨-, zones, hrecording⟩ :=
        (hsound.threads _ (List.mem_of_getElem? hthread)).recording hphase
      obtain ⟨records, closed, -, -, -, hid, hfinish⟩ :=
        threadFinish_eq os now a.trace hrecording.tracks
      rw [State.threadFinish, Thread.finish_eq hfinish, hfinish]
      refine h.call hopen hthread (touched_flushInternal os a.trace closed true)
        ((flush_threadId a.trace closed true).trans hid) ?_
      rw [Thread.active, Thread.active, hphase]
      rfl
  | @threadRelease i thread hopen hthread hphase =>
      have htrue : thread.active = true := by
        rw [Thread.active, hphase]
        rfl
      have hpos := List.countP_pos_iff.2 ⟨thread, List.mem_of_getElem? hthread, htrue⟩
      have htally := h.active hopen
      have hrelease : Trace.threadRelease a.trace =
          { a.trace with activeThreads := a.trace.activeThreads - 1 } := if_pos (by omega)
      have hset : ∀ j other, (a.threads.set i { thread with phase := .finished })[j]? = some other →
          other.impl.threadId = j + 1 := by
        intro j other hother
        rw [List.getElem?_set] at hother
        split_ifs at hother with heq
        · cases hother
          rw [← heq]
          exact h.threadId i thread hthread
        · exact h.threadId j other hother
      rw [State.threadRelease, hrelease]
      refine ⟨hset, fun hfailed => ?_, fun _ => ?_, h.opened⟩
      · simp only [List.length_set]
        exact h.next hfailed
      · simp only
        rw [countP_active_set hthread, if_pos htrue, htally]
        simp [Thread.active]
  | finish hopen =>
      by_cases hactive : a.trace.activeThreads = 0
      · obtain ⟨trace', htouched, hfinish⟩ := touched_finish os a.trace hactive
        rw [State.finish]
        dsimp only
        rw [hfinish]
        have hresult : some (Trace.finish os a.trace).1 ≠ none := Option.some_ne_none _
        refine ⟨h.threadId, fun hfailed => ?_, fun hnone => absurd hnone hresult,
          fun hnone => absurd hnone hresult⟩
        exact htouched.frame.2.1.trans (h.next (htouched.not_failed hfailed))
      · have hfinish : Trace.finish os a.trace = (.invalidArgument, a.trace) := if_pos hactive
        rw [State.finish, hfinish]
        exact ⟨h.threadId, h.next, fun _ => h.active hopen, fun _ => h.opened hopen⟩

end Numbered

theorem numbered_of_reachable {os : Os} {init : InitOs} {config : Config} {a : State}
    (h : Reachable (system os init config) a) : Numbered a := by
  refine (h.invariant (P := fun a => Sound a ∧ Numbered a) ?_ ?_).2
  · rintro a ⟨trace, hinit, rfl⟩
    have hreachable : Reachable (system os init config) ⟨trace, [], none⟩ :=
      ⟨[], .start ⟨trace, hinit, rfl⟩⟩
    obtain ⟨-, hnext, hactive⟩ := initFile_counts hinit
    exact ⟨sound_of_reachable hreachable, by simp, fun _ => hnext, fun _ => hactive,
      fun _ => (initFile_settings hinit).2.2⟩
  · rintro a e a' ⟨hsound, hnumbered⟩ hstep
    exact ⟨hsound.step hstep, hnumbered.step hsound hstep⟩

namespace Program

open HeapObjects

/-! ## What the variables stand for -/

def Handle.number : Handle → Option ℕ
  | .null => none
  | .initializing m _ _ => some m
  | .attached m _ _ => some m
  | .finishing m _ _ _ => some m

def Handle.target : Handle → Option ℕ
  | .null => none
  | .initializing _ n _ => some n
  | .attached _ n _ => some n
  | .finishing _ n _ _ => some n

/-- The thread of the trace `n` that the recorder is. -/
def Handle.session (n : ℕ) : Handle → Option (ThreadImpl × Phase)
  | .attached _ n' thread => if n' = n then some (thread, .recording) else none
  | .finishing _ n' thread _ => if n' = n then some (thread, .releasing) else none
  | _ => none

def State.handle (s : State) (r : ℕ) : Handle := (s.recorders[r]?.map Variable.handle).getD .null

def Owned (s : State) : Object → Prop
  | .trace n => some n ∈ s.traces
  | .file n => some n ∈ s.traces
  | .recorder m => ∃ r, (s.handle r).number = some m
  | .buffer m => ∃ r, (s.handle r).number = some m

/-- A thread is bound to recorders of its own only, which it is not finishing. -/
def Bound (s : State) : Prop :=
  ∀ (w r : ℕ) (worker : Worker), s.workers[w]? = some worker → worker.autoThread = some r →
    ∃ m n thread, s.recorders[r]? = some ⟨w, .attached m n thread⟩

structure Sound (s : State) : Prop where
  intact : s.heap.broken = false
  live : ∀ o, o ∈ s.heap.live ↔ Owned s o
  made : ∀ r m, (s.handle r).number = some m → m < s.made
  opened : ∀ n, some n ∈ s.traces → n < s.opened.length
  single : ∀ (t t' n : ℕ), s.traces[t]? = some (some n) → s.traces[t']? = some (some n) → t = t'
  distinct : ∀ r r' m, (s.handle r).number = some m → (s.handle r').number = some m → r = r'
  target : ∀ r n, (s.handle r).target = some n → some n ∈ s.traces
  bound : Bound s

/-- The trace `n` of the program has come to the state `a`. -/
structure Follows (s : State) (n : ℕ) (opened : Opened) (a : Trace.State) : Prop where
  trace : a.trace = opened.impl
  live : a.result = none ↔ some n ∈ s.traces
  thread : ∀ r impl phase, (s.handle r).session n = some (impl, phase) →
    ∃ thread, a.threads[impl.threadId - 1]? = some thread ∧ thread.impl = impl ∧
      thread.phase = phase
  recorder : ∀ (i : ℕ) (thread : Thread), a.threads[i]? = some thread → thread.phase ≠ .finished →
    ∃ r, (s.handle r).session n = some (thread.impl, thread.phase)
  distinct : ∀ r r' impl impl' phase phase', (s.handle r).session n = some (impl, phase) →
    (s.handle r').session n = some (impl', phase') → impl.threadId = impl'.threadId → r = r'

variable {s s' : State} {r m n w : ℕ} {handle : Handle} {opened : Opened} {a : Trace.State}

theorem handle_of (h : s.recorders[r]? = some ⟨w, handle⟩) : s.handle r = handle := by
  rw [State.handle, h]
  rfl

theorem handle_setHandle (h : s.recorders[r]? = some ⟨w, handle⟩) (handle' : Handle) (r' : ℕ) :
    (s.setHandle r handle').handle r' = if r' = r then handle' else s.handle r' := by
  unfold State.handle State.setHandle
  dsimp only
  rw [List.getElem?_modify]
  split_ifs with heq hne hne
  · rw [hne, h]
    rfl
  · exact absurd heq.symm hne
  · exact absurd hne.symm heq
  · cases s.recorders[r']? <;> rfl

theorem session_unfinished {impl : ThreadImpl} {phase : Phase}
    (h : handle.session n = some (impl, phase)) : phase ≠ .finished := by
  cases handle with
  | null => cases h
  | initializing => cases h
  | attached m k thread =>
      rw [Handle.session] at h
      split_ifs at h
      cases h
      decide
  | finishing m k thread status =>
      rw [Handle.session] at h
      split_ifs at h
      cases h
      decide

theorem mem_set_some {l : List (Option ℕ)} {t n k : ℕ} (h : l[t]? = some none) :
    some k ∈ l.set t (some n) ↔ k = n ∨ some k ∈ l := by
  obtain ⟨hlt, -⟩ := List.getElem?_eq_some_iff.1 h
  simp only [List.mem_iff_getElem?, List.getElem?_set]
  constructor
  · rintro ⟨i, hi⟩
    split_ifs at hi
    · exact Or.inl (Option.some.inj (Option.some.inj hi)).symm
    · exact Or.inr ⟨i, hi⟩
  · rintro (rfl | ⟨i, hi⟩)
    · exact ⟨t, by rw [if_pos rfl, if_pos hlt]⟩
    · refine ⟨i, ?_⟩
      rw [if_neg]
      · exact hi
      · rintro rfl
        rw [h] at hi
        cases hi

theorem getElem?_set_null {l : List (Option ℕ)} {t i k : ℕ} :
    (l.set t none)[i]? = some (some k) ↔ i ≠ t ∧ l[i]? = some (some k) := by
  by_cases heq : i = t
  · rw [heq, List.getElem?_set_self']
    cases l[t]? <;> simp
  · rw [List.getElem?_set_ne (Ne.symm heq), and_iff_right heq]

theorem mem_set_none {l : List (Option ℕ)} {t n k : ℕ} (h : l[t]? = some (some n))
    (hsingle : ∀ t' : ℕ, l[t']? = some (some n) → t = t') :
    some k ∈ l.set t none ↔ k ≠ n ∧ some k ∈ l := by
  simp only [List.mem_iff_getElem?, getElem?_set_null]
  constructor
  · rintro ⟨i, hne, hi⟩
    refine ⟨?_, i, hi⟩
    rintro rfl
    exact hne (hsingle i hi).symm
  · rintro ⟨hne, i, hi⟩
    refine ⟨i, ?_, hi⟩
    rintro rfl
    rw [h] at hi
    exact hne (Option.some.inj (Option.some.inj hi)).symm

namespace Sound

/-! ### The heap -/

/-- Nothing has changed but what is in the memory of the objects, and who is bound. -/
theorem congr (h : Sound s) (hheap : s'.heap = s.heap) (htraces : s'.traces = s.traces)
    (hopened : s.opened.length ≤ s'.opened.length) (hmade : s.made ≤ s'.made)
    (hnumber : ∀ r, (s'.handle r).number = (s.handle r).number)
    (htarget : ∀ r, (s'.handle r).target = (s.handle r).target)
    (hbound : Bound s') : Sound s' := by
  refine ⟨hheap ▸ h.intact, fun o => ?_, ?_, ?_, ?_, ?_, ?_, hbound⟩
  · rw [hheap, h.live]
    cases o with
    | trace n => simp only [Owned, htraces]
    | file n => simp only [Owned, htraces]
    | recorder m => simp only [Owned, hnumber]
    | buffer m => simp only [Owned, hnumber]
  · intro r m hr
    exact (h.made r m (hnumber r ▸ hr)).trans_le hmade
  · rw [htraces]
    exact fun n hn => (h.opened n hn).trans_le hopened
  · rw [htraces]
    exact h.single
  · intro r r' m hr hr'
    exact h.distinct r r' m (hnumber r ▸ hr) (hnumber r' ▸ hr')
  · intro r n hr
    rw [htraces]
    exact h.target r n (htarget r ▸ hr)

theorem access_trace (h : Sound s) (hn : some n ∈ s.traces) :
    s.heap.access (.trace n) = s.heap := Heap.access_eq ((h.live (.trace n)).2 hn)

theorem access_file (h : Sound s) (hn : some n ∈ s.traces) :
    s.heap.access (.file n) = s.heap := Heap.access_eq ((h.live (.file n)).2 hn)

theorem access_recorder (h : Sound s) (hm : (s.handle r).number = some m) :
    s.heap.access (.recorder m) = s.heap := Heap.access_eq ((h.live (.recorder m)).2 ⟨r, hm⟩)

theorem access_buffer (h : Sound s) (hm : (s.handle r).number = some m) :
    s.heap.access (.buffer m) = s.heap := Heap.access_eq ((h.live (.buffer m)).2 ⟨r, hm⟩)

theorem touch_eq (h : Sound s) (hm : (s.handle r).number = some m)
    (hn : (s.handle r).target = some n) : touch m n s.heap = s.heap := by
  have hlive := h.target r n hn
  rw [touch, h.access_recorder hm, h.access_buffer hm, h.access_trace hlive, h.access_file hlive]

theorem add (h : Sound s) (hr : s.handle r = .null)
    (hheap : s'.heap = (s.heap.allocate (.recorder s.made)).allocate (.buffer s.made))
    (htraces : s'.traces = s.traces) (hopened : s'.opened = s.opened) (hmade : s'.made = s.made + 1)
    (hn : some n ∈ s.traces) (hnumber : (s'.handle r).number = some s.made)
    (htarget : (s'.handle r).target = some n) (hother : ∀ r', r' ≠ r → s'.handle r' = s.handle r')
    (hbound : Bound s') : Sound s' := by
  have hnumbers : ∀ m, (∃ r, (s'.handle r).number = some m) ↔
      m = s.made ∨ ∃ r, (s.handle r).number = some m := by
    intro m
    constructor
    · rintro ⟨r', hr'⟩
      by_cases heq : r' = r
      · rw [heq, hnumber] at hr'
        exact Or.inl (Option.some.inj hr').symm
      · rw [hother r' heq] at hr'
        exact Or.inr ⟨r', hr'⟩
    · rintro (rfl | ⟨r', hr'⟩)
      · exact ⟨r, hnumber⟩
      · refine ⟨r', ?_⟩
        rw [hother r' ?_]
        · exact hr'
        · rintro rfl
          rw [hr] at hr'
          cases hr'
  refine ⟨?_, fun o => ?_, ?_, ?_, ?_, ?_, ?_, hbound⟩
  · rw [hheap]
    exact h.intact
  · rw [hheap, Heap.mem_allocate, Heap.mem_allocate, h.live]
    cases o with
    | trace n => simp [Owned, htraces]
    | file n => simp [Owned, htraces]
    | recorder m => simp [Owned, hnumbers]
    | buffer m => simp [Owned, hnumbers]
  · intro r' m hr'
    rw [hmade]
    rcases (hnumbers m).1 ⟨r', hr'⟩ with rfl | ⟨r'', hr''⟩
    · exact Nat.lt_succ_self _
    · exact (h.made r'' m hr'').trans (Nat.lt_succ_self _)
  · rw [htraces, hopened]
    exact h.opened
  · rw [htraces]
    exact h.single
  · have hfresh : ∀ r', (s.handle r').number ≠ some s.made :=
      fun r' hr' => (h.made r' s.made hr').false
    intro r₁ r₂ m h₁ h₂
    by_cases heq₁ : r₁ = r <;> by_cases heq₂ : r₂ = r
    · rw [heq₁, heq₂]
    · rw [heq₁, hnumber] at h₁
      rw [hother r₂ heq₂, ← h₁] at h₂
      exact absurd h₂ (hfresh r₂)
    · rw [heq₂, hnumber] at h₂
      rw [hother r₁ heq₁, ← h₂] at h₁
      exact absurd h₁ (hfresh r₁)
    · rw [hother r₁ heq₁] at h₁
      rw [hother r₂ heq₂] at h₂
      exact h.distinct r₁ r₂ m h₁ h₂
  · intro r' n' hr'
    rw [htraces]
    by_cases heq : r' = r
    · rw [heq, htarget] at hr'
      cases hr'
      exact hn
    · rw [hother r' heq] at hr'
      exact h.target r' n' hr'

theorem drop (h : Sound s) (hr : (s.handle r).number = some m)
    (hheap : s'.heap = (s.heap.release (.buffer m)).release (.recorder m))
    (htraces : s'.traces = s.traces) (hopened : s'.opened.length = s.opened.length)
    (hmade : s'.made = s.made) (hnull : s'.handle r = .null)
    (hother : ∀ r', r' ≠ r → s'.handle r' = s.handle r')
    (hbound : Bound s') : Sound s' := by
  have hbuffer : .buffer m ∈ s.heap.live := (h.live (.buffer m)).2 ⟨r, hr⟩
  have hrecorder : .recorder m ∈ s.heap.live.erase (.buffer m) :=
    Finset.mem_erase.2 ⟨by simp, (h.live (.recorder m)).2 ⟨r, hr⟩⟩
  have hnumbers : ∀ m', (∃ r', (s'.handle r').number = some m') ↔
      m' ≠ m ∧ ∃ r', (s.handle r').number = some m' := by
    intro m'
    constructor
    · rintro ⟨r', hr'⟩
      by_cases heq : r' = r
      · rw [heq, hnull] at hr'
        cases hr'
      · rw [hother r' heq] at hr'
        refine ⟨fun hm => heq (h.distinct r' r m' hr' (hm ▸ hr)), r', hr'⟩
    · rintro ⟨hne, r', hr'⟩
      refine ⟨r', ?_⟩
      rw [hother r' ?_]
      · exact hr'
      · rintro rfl
        rw [hr] at hr'
        exact hne (Option.some.inj hr').symm
  rw [Heap.release_eq hbuffer, Heap.release_eq hrecorder] at hheap
  refine ⟨?_, fun o => ?_, ?_, ?_, ?_, ?_, ?_, hbound⟩
  · rw [hheap]
    exact h.intact
  · rw [hheap, Finset.mem_erase, Finset.mem_erase, h.live]
    cases o with
    | trace n => simp [Owned, htraces]
    | file n => simp [Owned, htraces]
    | recorder m' => simp [Owned, hnumbers]
    | buffer m' => simp [Owned, hnumbers]
  · intro r' m' hr'
    obtain ⟨-, r'', hr''⟩ := (hnumbers m').1 ⟨r', hr'⟩
    exact hmade ▸ h.made r'' m' hr''
  · rw [htraces, hopened]
    exact h.opened
  · rw [htraces]
    exact h.single
  · intro r₁ r₂ m' h₁ h₂
    have hne : ∀ {r'}, (s'.handle r').number = some m' → r' ≠ r := by
      rintro r' hr' rfl
      rw [hnull] at hr'
      cases hr'
    exact h.distinct r₁ r₂ m' (hother r₁ (hne h₁) ▸ h₁) (hother r₂ (hne h₂) ▸ h₂)
  · intro r' n' hr'
    rw [htraces]
    by_cases heq : r' = r
    · rw [heq, hnull] at hr'
      cases hr'
    · rw [hother r' heq] at hr'
      exact h.target r' n' hr'

theorem openTrace (h : Sound s) {t : ℕ} (ht : s.traces[t]? = some none) (os : Os) (init : InitOs)
    (config : Config) (impl : TraceImpl) :
    Sound { s with
      heap := (s.heap.allocate (.trace s.opened.length)).allocate (.file s.opened.length)
      traces := s.traces.set t (some s.opened.length)
      opened := s.opened ++ [⟨os, init, config, impl⟩] } := by
  have hmem := fun n => mem_set_some (n := s.opened.length) (k := n) ht
  refine ⟨h.intact, fun o => ?_, h.made, ?_, ?_, h.distinct, ?_, h.bound⟩
  · rw [Heap.mem_allocate, Heap.mem_allocate, h.live]
    cases o with
    | trace n => simp [Owned, hmem]
    | file n => simp [Owned, hmem]
    | recorder m => simp [Owned, State.handle]
    | buffer m => simp [Owned, State.handle]
  · intro n hn
    rw [List.length_append, List.length_singleton]
    rcases (hmem n).1 hn with rfl | hold
    · exact Nat.lt_succ_self _
    · exact (h.opened n hold).trans (Nat.lt_succ_self _)
  · intro t₁ t₂ n h₁ h₂
    rw [List.getElem?_set] at h₁ h₂
    have hfresh : ∀ t' : ℕ, s.traces[t']? ≠ some (some s.opened.length) := fun t' ht' =>
      (h.opened _ (List.mem_of_getElem? ht')).false
    split_ifs at h₁ h₂ with heq₁ hlt heq₂ heq₂
    · exact heq₁.symm.trans heq₂
    · rw [← Option.some.inj (Option.some.inj h₁)] at h₂
      exact absurd h₂ (hfresh t₂)
    · rw [← Option.some.inj (Option.some.inj h₂)] at h₁
      exact absurd h₁ (hfresh t₁)
    · exact h.single t₁ t₂ n h₁ h₂
  · intro r n hr
    exact (hmem n).2 (Or.inr (h.target r n hr))

/-- The trace behind the variable `t`, to which no recorder belongs, is closed. -/
theorem closeTrace (h : Sound s) {t : ℕ} (ht : s.traces[t]? = some (some n))
    (hnone : ∀ r, (s.handle r).target ≠ some n)
    (hheap : s'.heap = (s.heap.release (.file n)).release (.trace n))
    (htraces : s'.traces = s.traces.set t none) (hopened : s'.opened.length = s.opened.length)
    (hrecorders : s'.recorders = s.recorders) (hmade : s'.made = s.made)
    (hworkers : s'.workers = s.workers) : Sound s' := by
  have hmem : ∀ k, some k ∈ s'.traces ↔ k ≠ n ∧ some k ∈ s.traces := by
    intro k
    rw [htraces]
    exact mem_set_none ht (h.single t · n ht)
  have hhandle : ∀ r, s'.handle r = s.handle r := by
    intro r
    rw [State.handle, State.handle, hrecorders]
  have hfile : .file n ∈ s.heap.live := (h.live (.file n)).2 (List.mem_of_getElem? ht)
  have htrace : .trace n ∈ s.heap.live.erase (.file n) :=
    Finset.mem_erase.2 ⟨by simp, (h.live (.trace n)).2 (List.mem_of_getElem? ht)⟩
  rw [Heap.release_eq hfile, Heap.release_eq htrace] at hheap
  refine ⟨?_, fun o => ?_, ?_, ?_, ?_, ?_, ?_, ?_⟩
  · rw [hheap]
    exact h.intact
  · rw [hheap, Finset.mem_erase, Finset.mem_erase, h.live]
    cases o with
    | trace k => simp [Owned, hmem]
    | file k => simp [Owned, hmem]
    | recorder m => simp [Owned, hhandle]
    | buffer m => simp [Owned, hhandle]
  · intro r m hr
    rw [hmade]
    exact h.made r m (hhandle r ▸ hr)
  · intro k hk
    rw [hopened]
    exact h.opened k ((hmem k).1 hk).2
  · intro t₁ t₂ k h₁ h₂
    rw [htraces, getElem?_set_null] at h₁ h₂
    exact h.single t₁ t₂ k h₁.2 h₂.2
  · intro r r' m hr hr'
    exact h.distinct r r' m (hhandle r ▸ hr) (hhandle r' ▸ hr')
  · intro r k hr
    rw [hhandle] at hr
    exact (hmem k).2 ⟨fun heq => hnone r (heq ▸ hr), h.target r k hr⟩
  · intro w r worker hworker hauto
    rw [hworkers] at hworker
    rw [hrecorders]
    exact h.bound w r worker hworker hauto

end Sound

namespace Follows

/-! ### The threads of a trace -/

variable {impl : ThreadImpl} {phase : Phase}

theorem congr (h : Follows s n opened a) (htraces : some n ∈ s'.traces ↔ some n ∈ s.traces)
    (hsession : ∀ r, (s'.handle r).session n = (s.handle r).session n) :
    Follows s' n opened a where
  trace := h.trace
  live := h.live.trans htraces.symm
  thread := fun r impl phase hr => h.thread r impl phase (hsession r ▸ hr)
  recorder := by
    intro i thread hthread hphase
    obtain ⟨r, hr⟩ := h.recorder i thread hthread hphase
    exact ⟨r, (hsession r).trans hr⟩
  distinct :=
    fun r r' _ _ _ _ hr hr' => h.distinct r r' _ _ _ _ (hsession r ▸ hr) (hsession r' ▸ hr')

theorem threadId_eq (h : Follows s n opened a) (hnumbered : Numbered a)
    (hr : (s.handle r).session n = some (impl, phase)) :
    impl.threadId = impl.threadId - 1 + 1 := by
  obtain ⟨thread, hthread, rfl, -⟩ := h.thread r impl phase hr
  exact hnumbered.threadId _ thread hthread

theorem set (h : Follows s n opened a) (hnumbered : Numbered a)
    (hr : (s.handle r).session n = some (impl, phase)) (thread' : Thread) (impl' : TraceImpl)
    (hid : thread'.impl.threadId = impl.threadId) (htraces : s'.traces = s.traces)
    (hself : (s'.handle r).session n =
      if thread'.phase = .finished then none else some (thread'.impl, thread'.phase))
    (hother : ∀ r', r' ≠ r → s'.handle r' = s.handle r') :
    Follows s' n { opened with impl := impl' }
      { a with trace := impl', threads := a.threads.set (impl.threadId - 1) thread' } := by
  obtain ⟨thread, hthread, himpl, -⟩ := h.thread r impl phase hr
  have hlt := (List.getElem?_eq_some_iff.1 hthread).1
  have hrid := h.threadId_eq hnumbered hr
  refine ⟨rfl, ?_, ?_, ?_, ?_⟩
  · rw [htraces]
    exact h.live
  · intro r' impl₂ phase₂ hr'
    by_cases heq : r' = r
    · rw [heq, hself] at hr'
      split_ifs at hr'
      cases hr'
      exact ⟨thread', by rw [hid, List.getElem?_set_self hlt], rfl, rfl⟩
    · rw [hother r' heq] at hr'
      have hid₂ := h.threadId_eq hnumbered hr'
      obtain ⟨thread₂, hthread₂, himpl₂, hphase₂⟩ := h.thread r' impl₂ phase₂ hr'
      refine ⟨thread₂, ?_, himpl₂, hphase₂⟩
      rw [List.getElem?_set_ne]
      · exact hthread₂
      · intro hindex
        exact heq (h.distinct r' r impl₂ impl phase₂ phase hr' hr (by omega))
  · intro i thread₂ hthread₂ hphase₂
    change (a.threads.set (impl.threadId - 1) thread')[i]? = some thread₂ at hthread₂
    rw [List.getElem?_set] at hthread₂
    split_ifs at hthread₂ with hindex
    · cases hthread₂
      exact ⟨r, hself.trans (if_neg hphase₂)⟩
    · obtain ⟨r', hr'⟩ := h.recorder i thread₂ hthread₂ hphase₂
      refine ⟨r', ?_⟩
      rw [hother r']
      · exact hr'
      · rintro rfl
        rw [hr] at hr'
        cases hr'
        exact hindex (by rw [hnumbered.threadId i thread₂ hthread₂]; omega)
  · have hkept : ∀ r' impl₂ phase₂, (s'.handle r').session n = some (impl₂, phase₂) →
        ∃ impl₃ phase₃, (s.handle r').session n = some (impl₃, phase₃) ∧
          impl₃.threadId = impl₂.threadId := by
      intro r' impl₂ phase₂ hr'
      by_cases heq : r' = r
      · rw [heq, hself] at hr'
        split_ifs at hr'
        cases hr'
        exact ⟨impl, phase, heq ▸ hr, hid.symm⟩
      · rw [hother r' heq] at hr'
        exact ⟨impl₂, phase₂, hr', rfl⟩
    intro r₁ r₂ impl₁ impl₂ phase₁ phase₂ h₁ h₂ heq
    obtain ⟨impl₃, phase₃, h₃, hid₃⟩ := hkept r₁ impl₁ phase₁ h₁
    obtain ⟨impl₄, phase₄, h₄, hid₄⟩ := hkept r₂ impl₂ phase₂ h₂
    exact h.distinct r₁ r₂ impl₃ impl₄ phase₃ phase₄ h₃ h₄ (by omega)

theorem push (h : Follows s n opened a)
    (hr : (s.handle r).session n = none) (impl' : TraceImpl) (name : Option Bytes)
    (hid : impl.threadId = a.threads.length + 1) (htraces : s'.traces = s.traces)
    (hself : (s'.handle r).session n = some (impl, .recording))
    (hother : ∀ r', r' ≠ r → s'.handle r' = s.handle r') :
    Follows s' n { opened with impl := impl' }
      { a with
        trace := impl', threads := a.threads ++ [⟨impl, name, [], [], [], .recording⟩] } := by
  have hindex : impl.threadId - 1 = a.threads.length := by omega
  have hbelow : ∀ r' impl₂ phase₂, (s.handle r').session n = some (impl₂, phase₂) →
      impl₂.threadId - 1 < a.threads.length := by
    intro r' impl₂ phase₂ hr'
    obtain ⟨thread₂, hthread₂, -⟩ := h.thread r' impl₂ phase₂ hr'
    exact (List.getElem?_eq_some_iff.1 hthread₂).1
  refine ⟨rfl, ?_, ?_, ?_, ?_⟩
  · rw [htraces]
    exact h.live
  · intro r' impl₂ phase₂ hr'
    by_cases heq : r' = r
    · rw [heq, hself] at hr'
      cases hr'
      exact ⟨_, by rw [hindex, List.getElem?_concat_length], rfl, rfl⟩
    · rw [hother r' heq] at hr'
      obtain ⟨thread₂, hthread₂, hrest⟩ := h.thread r' impl₂ phase₂ hr'
      refine ⟨thread₂, ?_, hrest⟩
      rw [List.getElem?_append_left (hbelow r' impl₂ phase₂ hr')]
      exact hthread₂
  · intro i thread₂ hthread₂ hphase₂
    change (a.threads ++ [⟨impl, name, [], [], [], .recording⟩])[i]? = some thread₂ at hthread₂
    rcases Nat.lt_or_ge i a.threads.length with hlt | hge
    · rw [List.getElem?_append_left hlt] at hthread₂
      obtain ⟨r', hr'⟩ := h.recorder i thread₂ hthread₂ hphase₂
      refine ⟨r', ?_⟩
      rw [hother r']
      · exact hr'
      · rintro rfl
        rw [hr] at hr'
        cases hr'
    · rw [List.getElem?_append_right hge, List.getElem?_singleton] at hthread₂
      split_ifs at hthread₂
      cases hthread₂
      exact ⟨r, hself⟩
  · intro r₁ r₂ impl₁ impl₂ phase₁ phase₂ h₁ h₂ heq
    have hnew : ∀ r' impl₂ phase₂, r' ≠ r → (s'.handle r').session n = some (impl₂, phase₂) →
        (s.handle r').session n = some (impl₂, phase₂) ∧ impl₂.threadId ≠ impl.threadId := by
      intro r' impl₂ phase₂ hne hr'
      rw [hother r' hne] at hr'
      have hlt := hbelow r' impl₂ phase₂ hr'
      exact ⟨hr', fun hsame => by omega⟩
    by_cases heq₁ : r₁ = r <;> by_cases heq₂ : r₂ = r
    · rw [heq₁, heq₂]
    · rw [heq₁, hself] at h₁
      cases h₁
      exact absurd heq.symm (hnew r₂ impl₂ phase₂ heq₂ h₂).2
    · rw [heq₂, hself] at h₂
      cases h₂
      exact absurd heq (hnew r₁ impl₁ phase₁ heq₁ h₁).2
    · exact h.distinct r₁ r₂ _ _ _ _ (hnew r₁ impl₁ phase₁ heq₁ h₁).1
        (hnew r₂ impl₂ phase₂ heq₂ h₂).1 heq

theorem write (h : Follows s n opened a) (impl' : TraceImpl)
    (htraces : some n ∈ s'.traces ↔ some n ∈ s.traces)
    (hsession : ∀ r, (s'.handle r).session n = (s.handle r).session n) :
    Follows s' n { opened with impl := impl' } { a with trace := impl' } :=
  have hkept := h.congr htraces hsession
  ⟨rfl, hkept.live, hkept.thread, hkept.recorder, hkept.distinct⟩

/-- The trace counts recorders exactly if there are some. -/
theorem activeThreads_eq_zero_iff (h : Follows s n opened a) (hnumbered : Numbered a)
    (hlive : some n ∈ s.traces) :
    opened.impl.activeThreads = 0 ↔ ∀ r, (s.handle r).session n = none := by
  rw [← h.trace, hnumbered.active (h.live.2 hlive), List.countP_eq_zero]
  constructor
  · intro hnone r
    by_contra hsome
    obtain ⟨⟨impl, phase⟩, hr⟩ := Option.ne_none_iff_exists'.1 hsome
    obtain ⟨thread, hthread, -, hphase⟩ := h.thread r impl phase hr
    refine hnone thread (List.mem_of_getElem? hthread) ?_
    rw [Thread.active, decide_eq_true_iff, hphase]
    exact session_unfinished hr
  · intro hnone thread hmem hactive
    obtain ⟨i, hthread⟩ := List.mem_iff_getElem?.1 hmem
    obtain ⟨r, hr⟩ := h.recorder i thread hthread (of_decide_eq_true hactive)
    rw [hnone r] at hr
    cases hr

end Follows

end Program

end Liblor.Trace
