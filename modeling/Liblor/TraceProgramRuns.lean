import Liblor.TraceProgram

/-!
# Runs of a program with traces

Every call keeps the heap in order and is a step of at most one trace, which gives the run of each.
-/

namespace Liblor.Trace.Program

open HeapObjects Transition

variable {s s' : State} {es : List (Event × Effect)} {call : Event}

theorem history_concat (n : ℕ) (es : List (Event × Effect)) (call : Event) (effect : Effect) :
    history n (es ++ [(call, effect)]) = history n es ++
      (effect.bind fun (k, e) => if k = n then some e else none).toList := by
  rw [history, List.filterMap_append]
  rfl

/-- What holds after some calls. -/
structure Traced (es : List (Event × Effect)) (s : State) : Prop where
  sound : Sound s
  runs : ∀ (n : ℕ) (opened : Opened), s.opened[n]? = some opened →
    ∃ a, Run (Trace.system opened.os opened.init opened.config) (history n es) a ∧
      Follows s n opened a
  fresh : ∀ n, s.opened.length ≤ n → history n es = []

theorem recorder_some {r m n : ℕ} {thread : ThreadImpl} {opened : Opened}
    (h : s.recorder r = some (m, n, thread, opened)) :
    ∃ w, s.recorders[r]? = some ⟨w, .attached m n thread⟩ ∧ s.opened[n]? = some opened := by
  unfold State.recorder at h
  split at h
  · next w m' n' thread' hget =>
      obtain ⟨opened', hopened, heq⟩ := Option.map_eq_some_iff.1 h
      cases heq
      exact ⟨w, hget, hopened⟩
  · cases h

theorem trace_some {t n : ℕ} {opened : Opened} (h : s.trace t = some (n, opened)) :
    s.traces[t]? = some (some n) ∧ s.opened[n]? = some opened := by
  obtain ⟨k, hk, hmap⟩ := Option.bind_eq_some_iff.1 h
  obtain ⟨opened', hopened, heq⟩ := Option.map_eq_some_iff.1 hmap
  cases heq
  exact ⟨Option.join_eq_some_iff.1 hk, hopened⟩

section Update

variable {r w : ℕ} {handle handle' : Handle}

theorem getElem?_setHandle (hget : s.recorders[r]? = some ⟨w, handle⟩) (r' : ℕ) :
    (s.setHandle r handle').recorders[r']? =
      if r' = r then some ⟨w, handle'⟩ else s.recorders[r']? := by
  change (s.recorders.modify r _)[r']? = _
  rw [List.getElem?_modify]
  split_ifs with heq hne hne
  · rw [hne, hget]
    rfl
  · exact absurd heq.symm hne
  · exact absurd hne.symm heq
  · cases s.recorders[r']? <;> rfl

theorem handle_update (hget : s.recorders[r]? = some ⟨w, handle⟩)
    (hrecorders : s'.recorders = (s.setHandle r handle').recorders) (r' : ℕ) :
    s'.handle r' = if r' = r then handle' else s.handle r' := by
  rw [State.handle, hrecorders]
  exact handle_setHandle hget handle' r'

/-- A recorder that is no longer attached is bound no longer. -/
theorem Bound.update (h : Bound s) (hget : s.recorders[r]? = some ⟨w, handle⟩)
    (hrecorders : s'.recorders = (s.setHandle r handle').recorders)
    (hworkers : ∀ (w' r' : ℕ) (worker : Worker), s'.workers[w']? = some worker →
      worker.autoThread = some r' → ∃ old, s.workers[w']? = some old ∧ old.autoThread = some r')
    (hkept : (∃ m n thread, handle' = .attached m n thread) ∨
      ∀ (w' : ℕ) (worker : Worker), s'.workers[w']? = some worker →
        worker.autoThread ≠ some r) : Bound s' := by
  intro w' r' worker hworker hauto
  obtain ⟨old, hold, hauto'⟩ := hworkers w' r' worker hworker hauto
  obtain ⟨m, n, thread, hr'⟩ := h w' r' old hold hauto'
  rw [hrecorders, getElem?_setHandle hget]
  split_ifs with heq
  · rcases hkept with ⟨m', n', thread', rfl⟩ | hnone
    · rw [heq, hget] at hr'
      cases hr'
      exact ⟨m', n', thread', rfl⟩
    · exact absurd (heq ▸ hauto) (hnone w' worker hworker)
  · exact ⟨m, n, thread, hr'⟩

/-- The recorder and its trace stay what they are, though not what is in their memory. -/
theorem Sound.rehandle {n : ℕ} {impl : TraceImpl} {workers : List Worker} (h : Sound s)
    (hget : s.recorders[r]? = some ⟨w, handle⟩) (hnumber : handle'.number = handle.number)
    (htarget : handle'.target = handle.target)
    (hbound : Bound { (s.setTrace n impl).setHandle r handle' with workers := workers }) :
    Sound { (s.setTrace n impl).setHandle r handle' with workers := workers } := by
  have hhandle : ∀ r', State.handle { (s.setTrace n impl).setHandle r handle' with
      workers := workers } r' = if r' = r then handle' else s.handle r' := handle_update hget rfl
  refine h.congr rfl rfl ?_ le_rfl (fun r' => ?_) (fun r' => ?_) hbound
  · simp [State.setTrace, State.setHandle]
  · rw [hhandle]
    split_ifs with heq
    · rw [heq, hnumber, handle_of hget]
    · rfl
  · rw [hhandle]
    split_ifs with heq
    · rw [heq, htarget, handle_of hget]
    · rfl

theorem Bound.unbound (h : Bound s) (hget : s.recorders[r]? = some ⟨w, handle⟩)
    (hhandle : ∀ m n thread, handle ≠ .attached m n thread) (w' : ℕ) (worker : Worker)
    (hworker : s.workers[w']? = some worker) : worker.autoThread ≠ some r := by
  intro hauto
  obtain ⟨m, n, thread, hr⟩ := h w' r worker hworker hauto
  rw [hget] at hr
  cases hr
  exact hhandle m n thread rfl

end Update

theorem attached_session {m n : ℕ} {thread : ThreadImpl} :
    (Handle.attached m n thread).session n = some (thread, .recording) := if_pos rfl

theorem finishing_session {m n : ℕ} {thread : ThreadImpl} {status : Status} :
    (Handle.finishing m n thread status).session n = some (thread, .releasing) := if_pos rfl

theorem session_other {handle : Handle} {n k : ℕ} {x : ThreadImpl × Phase}
    (h : handle.session n = some x) (hk : k ≠ n) : handle.session k = none := by
  cases handle with
  | null => rfl
  | initializing => rfl
  | attached m j thread =>
      rw [Handle.session] at h ⊢
      split_ifs at h with heq
      exact if_neg (heq ▸ hk.symm)
  | finishing m j thread status =>
      rw [Handle.session] at h ⊢
      split_ifs at h with heq
      exact if_neg (heq ▸ hk.symm)

theorem session_target {handle : Handle} {n : ℕ} {x : ThreadImpl × Phase}
    (h : handle.session n = some x) : handle.target = some n := by
  cases handle with
  | null => cases h
  | initializing => cases h
  | attached m j thread =>
      rw [Handle.session] at h
      split_ifs at h with heq
      exact congrArg some heq
  | finishing m j thread status =>
      rw [Handle.session] at h
      split_ifs at h with heq
      exact congrArg some heq

theorem target_cases {handle : Handle} {n : ℕ} (h : handle.target = some n) :
    handle.session n ≠ none ∨ ∃ m name, handle = .initializing m n name := by
  cases handle with
  | null => cases h
  | initializing m j name =>
      cases h
      exact Or.inr ⟨m, name, rfl⟩
  | attached m j thread =>
      cases h
      rw [attached_session]
      exact Or.inl (Option.some_ne_none _)
  | finishing m j thread status =>
      cases h
      rw [finishing_session]
      exact Or.inl (Option.some_ne_none _)

theorem getElem?_of_handle {r : ℕ} {handle : Handle} (h : s.handle r = handle)
    (hne : handle ≠ .null) : ∃ w, s.recorders[r]? = some ⟨w, handle⟩ := by
  subst h
  unfold State.handle at hne ⊢
  cases hget : s.recorders[r]? with
  | none =>
      rw [hget] at hne
      exact absurd rfl hne
  | some v => exact ⟨v.owner, rfl⟩

/-- Where `lor_trace_init_file` fails, it has released what it allocated. -/
theorem initFailed_eq (h : Sound s) (init : InitOs) (status : Status) :
    initFailed init status s.opened.length s.heap = s.heap := by
  have htrace : .trace s.opened.length ∉ s.heap.live := by
    rw [h.live]
    exact fun hmem => (h.opened _ hmem).false
  have hfile : .file s.opened.length ∉ (s.heap.allocate (.trace s.opened.length)).live := by
    rw [Heap.mem_allocate, h.live]
    rintro (heq | hmem)
    · cases heq
    · exact (h.opened _ hmem).false
  unfold initFailed
  split_ifs
  · rfl
  · exact Heap.release_allocate htrace
  · dsimp only
    rw [Heap.release_allocate hfile, Heap.release_allocate htrace]

theorem initFile_some {os : Os} {init : InitOs} {config : Config} {status : Status}
    {impl : TraceImpl} (h : Trace.initFile os init config = (status, some impl)) :
    status = .ok := by
  have hcapacity : (if config.bufferSize ≠ 0 then config.bufferSize else defaultBufferSize) =
      config.capacity := rfl
  unfold Trace.initFile at h
  dsimp only at h
  rw [hcapacity] at h
  split_ifs at h
  · cases h
  · cases h
  · cases h
  · cases h
  · split at h
    · cases h
    · split at h
      · cases h
        rfl
      · split at h
        · cases h
        · cases h
          rfl

namespace Traced

/-- A call that does nothing to a trace. -/
theorem silent (h : Traced es s) (hsound : Sound s') (hopened : s'.opened = s.opened)
    (htraces : s'.traces = s.traces)
    (hsession : ∀ r n, (s'.handle r).session n = (s.handle r).session n) :
    Traced (es ++ [(call, none)]) s' := by
  have hhistory : ∀ n, history n (es ++ [(call, none)]) = history n es := by
    intro n
    rw [history_concat]
    exact List.append_nil _
  refine ⟨hsound, fun n opened hget => ?_, fun n hn => ?_⟩
  · rw [hopened] at hget
    obtain ⟨a, hrun, hfollows⟩ := h.runs n opened hget
    refine ⟨a, (hhistory n).symm ▸ hrun, hfollows.congr ?_ fun r => hsession r n⟩
    rw [htraces]
  · rw [hhistory]
    exact h.fresh n (hopened ▸ hn)

/-- A call that changes nothing. -/
theorem idle (h : Traced es s) : Traced (es ++ [(call, none)]) s :=
  h.silent h.sound rfl rfl fun _ _ => rfl

/-- A call that is a step of the trace `n`. -/
theorem effect {n : ℕ} {opened : Opened} {e : Trace.Event} {impl : TraceImpl} (h : Traced es s)
    (hsound : Sound s') (hget : s.opened[n]? = some opened)
    (hopened : s'.opened = (s.setTrace n impl).opened)
    (hother : ∀ k, k ≠ n → (some k ∈ s'.traces ↔ some k ∈ s.traces) ∧
      ∀ r, (s'.handle r).session k = (s.handle r).session k)
    (hstep : ∀ a, Reachable (Trace.system opened.os opened.init opened.config) a →
      Follows s n opened a → ∃ a', Trace.Step opened.os a e a' ∧
        Follows s' n { opened with impl := impl } a') :
    Traced (es ++ [(call, some (n, e))]) s' := by
  have hself : ∀ k, history k (es ++ [(call, some (n, e))]) =
      history k es ++ if n = k then [e] else [] := by
    intro k
    rw [history_concat]
    simp only [Option.bind_some]
    split_ifs <;> rfl
  refine ⟨hsound, fun k other hk => ?_, fun k hk => ?_⟩
  · rw [hopened, State.setTrace, List.getElem?_modify] at hk
    split_ifs at hk with heq
    · subst heq
      rw [hget] at hk
      cases hk
      obtain ⟨a, hrun, hfollows⟩ := h.runs n opened hget
      obtain ⟨a', ha', hfollows'⟩ := hstep a ⟨_, hrun⟩ hfollows
      refine ⟨a', ?_, hfollows'⟩
      rw [hself, if_pos rfl]
      exact hrun.step ha'
    · have hold : s.opened[k]? = some other := by
        rw [← hk]
        cases s.opened[k]? <;> rfl
      obtain ⟨a, hrun, hfollows⟩ := h.runs k other hold
      obtain ⟨htraces, hsession⟩ := hother k (Ne.symm heq)
      refine ⟨a, ?_, hfollows.congr htraces hsession⟩
      rw [hself, if_neg heq, List.append_nil]
      exact hrun
  · rw [hopened, State.setTrace, List.length_modify] at hk
    have hlt := (List.getElem?_eq_some_iff.1 hget).1
    rw [hself, if_neg (by omega), List.append_nil]
    exact h.fresh k hk

/-- A call that is a step of the thread that the recorder behind `r` is. -/
theorem thread {r w n : ℕ} {handle handle' : Handle} {opened : Opened} {e : Trace.Event}
    {impl : TraceImpl} {thread : ThreadImpl} {phase : Phase} (h : Traced es s) (hsound : Sound s')
    (hget : s.recorders[r]? = some ⟨w, handle⟩) (hopened : s.opened[n]? = some opened)
    (hsession : handle.session n = some (thread, phase))
    (hrecorders : s'.recorders = (s.setHandle r handle').recorders)
    (htraces : s'.traces = s.traces) (hwritten : s'.opened = (s.setTrace n impl).opened)
    (hother : ∀ k, k ≠ n → handle'.session k = none) (hlive : some n ∈ s.traces)
    (hstep : ∀ (a : Trace.State) (t : Thread), a.result = none → a.trace = opened.impl →
      a.threads[thread.threadId - 1]? = some t → t.impl = thread → t.phase = phase →
      ∃ t', Trace.Step opened.os a e
          { a with trace := impl, threads := a.threads.set (thread.threadId - 1) t' } ∧
        handle'.session n = if t'.phase = .finished then none else some (t'.impl, t'.phase)) :
    Traced (es ++ [(call, some (n, e))]) s' := by
  have hhandle := handle_update hget hrecorders
  have hold : s.handle r = handle := handle_of hget
  refine h.effect hsound hopened hwritten ?_ ?_
  · intro k hk
    refine ⟨by rw [htraces], fun r' => ?_⟩
    rw [hhandle]
    split_ifs with heq
    · rw [heq, hold, hother k hk, session_other hsession hk]
    · rfl
  · intro a hreachable hfollows
    have hr : (s.handle r).session n = some (thread, phase) := hold ▸ hsession
    obtain ⟨t, ht, himpl, hphase⟩ := hfollows.thread r thread phase hr
    obtain ⟨t', ht', hself⟩ := hstep a t (hfollows.live.2 hlive) hfollows.trace ht himpl hphase
    have hnumbered := numbered_of_reachable hreachable
    obtain ⟨run, hrun⟩ := hreachable
    have hlt := (List.getElem?_eq_some_iff.1 ht).1
    have hid := (numbered_of_reachable ⟨_, hrun.step ht'⟩).threadId _ t'
      (List.getElem?_set_self hlt)
    refine ⟨_, ht', hfollows.set hnumbered hr t' impl ?_ htraces ?_ ?_⟩
    · rw [hid, ← hfollows.threadId_eq hnumbered hr]
    · rw [hhandle, if_pos rfl, hself]
    · intro r' hne
      rw [hhandle, if_neg hne]

/-- A call on an attached recorder keeps the heap and the recorder, which may be finished in it. -/
theorem attached {r w m n : ℕ} {handle' : Handle} {opened : Opened} {e : Trace.Event}
    {impl : TraceImpl} {thread : ThreadImpl} {workers : List Worker} (h : Traced es s)
    (hget : s.recorders[r]? = some ⟨w, .attached m n thread⟩) (hopened : s.opened[n]? = some opened)
    (hnumber : handle'.number = some m) (htarget : handle'.target = some n)
    (hother : ∀ k, k ≠ n → handle'.session k = none)
    (hbound : Bound { (s.setTrace n impl).setHandle r handle' with
      heap := touch m n s.heap, workers := workers })
    (hstep : ∀ (a : Trace.State) (t : Thread), a.result = none → a.trace = opened.impl →
      a.threads[thread.threadId - 1]? = some t → t.impl = thread → t.phase = .recording →
      ∃ t', Trace.Step opened.os a e
          { a with trace := impl, threads := a.threads.set (thread.threadId - 1) t' } ∧
        handle'.session n = if t'.phase = .finished then none else some (t'.impl, t'.phase)) :
    Traced (es ++ [(call, some (n, e))]) { (s.setTrace n impl).setHandle r handle' with
      heap := touch m n s.heap, workers := workers } := by
  have hold : s.handle r = .attached m n thread := handle_of hget
  have hm : (s.handle r).number = some m := by
    rw [hold]
    rfl
  have hn : (s.handle r).target = some n := by
    rw [hold]
    rfl
  refine h.thread ?_ hget hopened (if_pos rfl) rfl rfl rfl hother (h.sound.target r n hn) hstep
  rw [h.sound.touch_eq hm hn]
  exact h.sound.rehandle hget hnumber htarget hbound

theorem event (h : Traced es s) (eventCall : EventCall) (now : UInt64) (r : ℕ) :
    Traced (es ++ [(call, (Program.event eventCall now r s).2)])
      (Program.event eventCall now r s).1 := by
  unfold Program.event
  split
  · exact h.idle
  · next m n thread opened hrecorder =>
      obtain ⟨w, hget, hopened⟩ := recorder_some hrecorder
      refine h.attached hget hopened rfl rfl (fun k hk => if_neg hk.symm) ?_ ?_
      · exact h.sound.bound.update hget rfl (fun _ _ worker hw ha => ⟨worker, hw, ha⟩)
          (Or.inl ⟨m, n, _, rfl⟩)
      · intro a t hopen htrace ht himpl hphase
        have hstep : Trace.Step opened.os a _ _ := Trace.Step.event hopen ht hphase eventCall now
        rw [State.event, htrace, himpl] at hstep
        refine ⟨_, hstep, ?_⟩
        rw [attached_session, Thread.event, himpl, hphase]
        rfl

theorem threadFlush (h : Traced es s) (r : ℕ) :
    Traced (es ++ [(call, (Program.threadFlush r s).2.2)]) (Program.threadFlush r s).2.1 := by
  unfold Program.threadFlush
  split
  · exact h.idle
  · next m n thread opened hrecorder =>
      obtain ⟨w, hget, hopened⟩ := recorder_some hrecorder
      rcases hflush : Trace.threadFlush opened.os opened.impl thread with ⟨status, impl, thread'⟩
      refine h.attached hget hopened rfl rfl (fun k hk => if_neg hk.symm) ?_ ?_
      · exact h.sound.bound.update hget rfl (fun _ _ worker hw ha => ⟨worker, hw, ha⟩)
          (Or.inl ⟨m, n, _, rfl⟩)
      · intro a t hopen htrace ht himpl hphase
        have hstep : Trace.Step opened.os a _ _ := Trace.Step.threadFlush hopen ht hphase
        rw [State.threadFlush, htrace, himpl, hflush] at hstep
        refine ⟨_, hstep, ?_⟩
        rw [attached_session, hphase]
        rfl

theorem threadFinish (h : Traced es s) (now : ℕ → UInt64) {w r : ℕ} (husable : Usable s w r) :
    Traced (es ++ [(call, (Program.threadFinish now w r s).2.2)])
      (Program.threadFinish now w r s).2.1 := by
  unfold Program.threadFinish
  split
  · exact h.idle
  · next m n thread opened hrecorder =>
      obtain ⟨w', hget, hopened⟩ := recorder_some hrecorder
      obtain ⟨handle, hget', -⟩ := husable
      have howner : w' = w := by
        rw [hget] at hget'
        cases hget'
        rfl
      subst howner
      rcases hfinish : Trace.threadFinish opened.os now opened.impl thread with
        ⟨status, records, impl, thread'⟩
      have hworkers : ∀ (w₂ r₂ : ℕ) (worker : Worker),
          (s.workers.modify w' (Worker.finish r))[w₂]? = some worker →
          worker.autoThread = some r₂ →
          ∃ old, s.workers[w₂]? = some old ∧ old.autoThread = some r₂ ∧ (w₂ = w' → r₂ ≠ r) := by
        intro w₂ r₂ worker hworker hauto
        rw [List.getElem?_modify] at hworker
        obtain ⟨old, hold, rfl⟩ := Option.map_eq_some_iff.1 hworker
        refine ⟨old, hold, ?_⟩
        split_ifs at hauto with heq
        · rw [Worker.finish] at hauto
          split_ifs at hauto with hself
          exact ⟨hauto, fun _ hr => hself (hr ▸ hauto)⟩
        · exact ⟨hauto, fun hw => absurd hw.symm heq⟩
      refine h.attached hget hopened rfl rfl (fun k hk => if_neg hk.symm) ?_ ?_
      · refine h.sound.bound.update hget rfl ?_ (Or.inr ?_)
        · intro w₂ r₂ worker hworker hauto
          obtain ⟨old, hold, hauto', -⟩ := hworkers w₂ r₂ worker hworker hauto
          exact ⟨old, hold, hauto'⟩
        · intro w₂ worker hworker hauto
          obtain ⟨old, hold, hauto', hne⟩ := hworkers w₂ r worker hworker hauto
          obtain ⟨m₂, n₂, thread₂, hr⟩ := h.sound.bound w₂ r old hold hauto'
          rw [hget] at hr
          cases hr
          exact hne rfl rfl
      · intro a t hopen htrace ht himpl hphase
        have hstep : Trace.Step opened.os a _ _ := Trace.Step.threadFinish hopen ht hphase now
        rw [State.threadFinish, htrace, himpl, hfinish] at hstep
        refine ⟨_, hstep, ?_⟩
        rw [finishing_session, Thread.finish_eq (by rw [himpl, hfinish])]
        rfl

theorem sound_drop {r w m n : ℕ} {handle : Handle} {impl : TraceImpl} (h : Traced es s)
    (hget : s.recorders[r]? = some ⟨w, handle⟩)
    (hhandle : ∀ m n thread, handle ≠ .attached m n thread) (hnumber : handle.number = some m) :
    Sound { (s.setTrace n impl).setHandle r .null with
      heap := (s.heap.release (.buffer m)).release (.recorder m) } := by
  have hr : (s.handle r).number = some m := by
    rw [handle_of hget]
    exact hnumber
  refine h.sound.drop hr rfl rfl ?_ rfl ?_ ?_ ?_
  · simp [State.setTrace, State.setHandle]
  · exact (handle_update hget rfl r).trans (if_pos rfl)
  · exact fun r' hne => (handle_update hget rfl r').trans (if_neg hne)
  · exact h.sound.bound.update hget rfl (fun _ _ worker hw ha => ⟨worker, hw, ha⟩)
      (Or.inr (h.sound.bound.unbound hget hhandle))

theorem threadRelease {r w m n : ℕ} {thread : ThreadImpl} {status : Status} {opened : Opened}
    (h : Traced es s) (hget : s.recorders[r]? = some ⟨w, .finishing m n thread status⟩)
    (hopened : s.opened[n]? = some opened) :
    Traced (es ++ [(call, (Program.threadRelease m n thread opened r s).2)])
      (Program.threadRelease m n thread opened r s).1 := by
  have hold : s.handle r = .finishing m n thread status := handle_of hget
  have hm : (s.handle r).number = some m := by
    rw [hold]
    rfl
  have hn : some n ∈ s.traces := h.sound.target r n (by rw [hold]; rfl)
  unfold Program.threadRelease
  dsimp only
  rw [h.sound.access_recorder hm, h.sound.access_trace hn]
  have hnull : ∀ k, k ≠ n → Handle.null.session k = none := fun _ _ => rfl
  refine h.thread ?_ hget hopened (if_pos rfl) rfl rfl rfl hnull hn ?_
  · exact h.sound_drop hget (fun _ _ _ => by simp) rfl
  · intro a t hopen htrace ht himpl hphase
    have hstep : Trace.Step opened.os a _ _ := Trace.Step.threadRelease hopen ht hphase
    rw [State.threadRelease, htrace] at hstep
    exact ⟨_, hstep, rfl⟩

theorem threadInit (h : Traced es s) (calloc malloc : Bool) (name : Option Bytes) (r t : ℕ) :
    Traced (es ++ [(call, none)]) (Program.threadInit calloc malloc name r t s).2 := by
  unfold Program.threadInit
  split
  · next n opened hnull htrace =>
      obtain ⟨⟨w, handle⟩, hget, hhandle⟩ := Option.map_eq_some_iff.1 hnull
      cases hhandle
      have hn : some n ∈ s.traces := List.mem_of_getElem? (trace_some htrace).1
      have hold : s.handle r = .null := handle_of hget
      have hfresh : .recorder s.made ∉ s.heap.live := by
        rw [h.sound.live]
        rintro ⟨r', hr'⟩
        exact (h.sound.made r' s.made hr').false
      have haccess : (s.heap.allocate (.recorder s.made)).access (.trace n) =
          s.heap.allocate (.recorder s.made) :=
        Heap.access_eq (Heap.mem_allocate.2 (Or.inr ((h.sound.live (.trace n)).2 hn)))
      dsimp only
      rw [haccess]
      split_ifs
      · exact h.idle
      · rw [Heap.release_allocate hfresh]
        refine h.silent ?_ rfl rfl fun _ _ => rfl
        exact h.sound.congr rfl rfl le_rfl (Nat.le_succ _) (fun _ => rfl) (fun _ => rfl)
          h.sound.bound
      · refine h.silent ?_ rfl rfl fun r' k => ?_
        · refine h.sound.add hold rfl rfl rfl rfl hn ?_ ?_ ?_ ?_
          · exact (congrArg Handle.number (handle_update hget rfl r)).trans
              (by rw [if_pos rfl]; rfl)
          · exact (congrArg Handle.target (handle_update hget rfl r)).trans
              (by rw [if_pos rfl]; rfl)
          · exact fun r' hne => (handle_update hget rfl r').trans (if_neg hne)
          · exact h.sound.bound.update hget rfl (fun _ _ worker hw ha => ⟨worker, hw, ha⟩)
              (Or.inr (h.sound.bound.unbound hget (by simp)))
        · refine (congrArg (Handle.session k) (handle_update hget rfl r')).trans ?_
          split_ifs with heq
          · rw [heq, hold]
            rfl
          · rfl
  · exact h.idle

theorem threadStats (h : Traced es s) (r : ℕ) :
    Traced (es ++ [(call, none)]) (Program.threadStats r s).2 := by
  unfold Program.threadStats
  split
  · exact h.idle
  · next m n thread opened hrecorder =>
      obtain ⟨w, hget, hopened⟩ := recorder_some hrecorder
      have hm : (s.handle r).number = some m := by
        rw [handle_of hget]
        rfl
      dsimp only
      rw [h.sound.access_recorder hm]
      exact h.idle

theorem workers (h : Traced es s) {workers : List Worker}
    (hbound : Bound { s with workers := workers }) :
    Traced (es ++ [(call, none)]) { s with workers := workers } :=
  h.silent (h.sound.congr rfl rfl le_rfl le_rfl (fun _ => rfl) (fun _ => rfl) hbound) rfl rfl
    fun _ _ => rfl

theorem autoBind (h : Traced es s) (supported : Bool) {w r : ℕ} (husable : Usable s w r) :
    Traced (es ++ [(call, none)]) (Program.autoBind supported w r s).2 := by
  unfold Program.autoBind
  split_ifs with hsupported hrefused
  · exact h.idle
  · exact h.idle
  · obtain ⟨⟨m, n, thread, opened⟩, hrecorder⟩ :=
      Option.ne_none_iff_exists'.1 fun hnone => hrefused (Or.inl hnone)
    obtain ⟨w', hget, -⟩ := recorder_some hrecorder
    obtain ⟨handle, hget', -⟩ := husable
    refine h.workers fun w₂ r₂ worker hworker hauto => ?_
    change (s.workers.modify w _)[w₂]? = some worker at hworker
    rw [List.getElem?_modify] at hworker
    obtain ⟨old, hold, rfl⟩ := Option.map_eq_some_iff.1 hworker
    split_ifs at hauto with heq
    · cases hauto
      refine ⟨m, n, thread, ?_⟩
      rw [hget] at hget'
      cases hget'
      rw [← heq]
      exact hget
    · exact h.sound.bound w₂ r₂ old hold hauto

theorem auto (h : Traced es s) (autoCall : AutoCall) (w : ℕ) :
    Traced (es ++ [(call, none)]) (Program.auto autoCall w s) := by
  refine h.workers fun w₂ r₂ worker hworker hauto => ?_
  change (s.workers.modify w _)[w₂]? = some worker at hworker
  rw [List.getElem?_modify] at hworker
  obtain ⟨old, hold, rfl⟩ := Option.map_eq_some_iff.1 hworker
  refine h.sound.bound w₂ r₂ old hold ?_
  split_ifs at hauto
  · cases autoCall with
    | unbind => cases hauto
    | enable =>
        rw [Worker.auto] at hauto
        split_ifs at hauto
        · exact hauto
        · exact hauto
    | disable => exact hauto
  · exact hauto

/-- A thread that is bound to a recorder finds it behind the variable. -/
theorem profile (h : Traced es s) (eventCall : EventCall) (now : UInt64) (w : ℕ) :
    Traced (es ++ [(call, (Program.profile eventCall now w s).2)])
      (Program.profile eventCall now w s).1 := by
  unfold Program.profile
  split
  · next r hworker =>
      obtain ⟨m, n, thread, hget⟩ := h.sound.bound w r _ hworker rfl
      have hlive : some n ∈ s.traces := by
        refine h.sound.target r n ?_
        rw [handle_of hget]
        rfl
      obtain ⟨opened, hopened⟩ : ∃ opened, s.opened[n]? = some opened :=
        ⟨_, List.getElem?_eq_getElem (h.sound.opened n hlive)⟩
      have hrecorder : s.recorder r = some (m, n, thread, opened) := by
        rw [State.recorder, hget]
        dsimp only
        rw [hopened]
        rfl
      rw [hrecorder, if_neg (by simp)]
      exact h.event eventCall now r
  · exact h.idle

theorem threadInitEnd {r w m n : ℕ} {name : Option Bytes} {opened : Opened} (h : Traced es s)
    (hget : s.recorders[r]? = some ⟨w, .initializing m n name⟩)
    (hopened : s.opened[n]? = some opened) :
    Traced (es ++ [(call, (Program.threadInitEnd m n name opened r s).2.2)])
      (Program.threadInitEnd m n name opened r s).2.1 := by
  have hold : s.handle r = .initializing m n name := handle_of hget
  have hn : some n ∈ s.traces := h.sound.target r n (by rw [hold]; rfl)
  have hnone : ∀ k, (s.handle r).session k = none := fun k => by
    rw [hold]
    rfl
  unfold Program.threadInitEnd
  dsimp only
  rw [h.sound.access_trace hn, h.sound.access_file hn]
  have hempty : ∀ (impl : TraceImpl) (k r' : ℕ),
      (State.handle { (s.setTrace n impl).setHandle r .null with
        heap := (s.heap.release (.buffer m)).release (.recorder m) } r').session k =
      (s.handle r').session k := by
    intro impl k r'
    refine (congrArg (Handle.session k) (handle_update hget rfl r')).trans ?_
    split_ifs with heq
    · rw [heq, hnone]
      rfl
    · rfl
  have hdrop : ∀ impl : TraceImpl, Sound { (s.setTrace n impl).setHandle r .null with
      heap := (s.heap.release (.buffer m)).release (.recorder m) } :=
    fun impl => h.sound_drop hget (by simp) rfl
  rcases threadInit_outcomes opened.os opened.impl true name with
    ⟨status, hinit⟩ | ⟨impl, htouched, ⟨hfailed, hinit⟩ | ⟨hfailed, hinit⟩⟩
  · rw [hinit]
    refine h.effect (hdrop opened.impl) hopened rfl
      (fun k _ => ⟨Iff.rfl, hempty opened.impl k⟩) fun a _ hfollows => ?_
    have hstep : Trace.Step opened.os a _ _ := Trace.Step.threadInit (hfollows.live.2 hn) true name
    rw [State.threadInit, hfollows.trace, hinit] at hstep
    exact ⟨_, hstep, hfollows.write _ Iff.rfl (hempty opened.impl n)⟩
  · rw [hinit]
    refine h.effect (hdrop impl) hopened rfl (fun k _ => ⟨Iff.rfl, hempty impl k⟩)
      fun a _ hfollows => ?_
    have hstep : Trace.Step opened.os a _ _ := Trace.Step.threadInit (hfollows.live.2 hn) true name
    rw [State.threadInit, hfollows.trace, hinit] at hstep
    exact ⟨_, hstep, hfollows.write _ Iff.rfl (hempty impl n)⟩
  · rw [hinit]
    have hhandle : ∀ (thread : ThreadImpl) (impl : TraceImpl) (r' : ℕ),
        State.handle { (s.setTrace n impl).setHandle r (.attached m n thread) with
          heap := s.heap } r' = if r' = r then .attached m n thread else s.handle r' :=
      fun _ _ r' => handle_update hget rfl r'
    refine h.effect ?_ hopened rfl ?_ fun a hreachable hfollows => ?_
    · refine h.sound.rehandle hget rfl rfl ?_
      · exact h.sound.bound.update hget rfl (fun _ _ worker hw ha => ⟨worker, hw, ha⟩)
          (Or.inl ⟨m, n, _, rfl⟩)
    · intro k hk
      refine ⟨Iff.rfl, fun r' => ?_⟩
      rw [hhandle]
      split_ifs with heq
      · rw [heq, hnone]
        exact if_neg hk.symm
      · rfl
    · have hnumbered := numbered_of_reachable hreachable
      have hnext := hnumbered.next (hfollows.trace ▸ hfailed)
      rw [hfollows.trace] at hnext
      have hstep : Trace.Step opened.os a _ _ :=
        Trace.Step.threadInit (hfollows.live.2 hn) true name
      rw [State.threadInit, hfollows.trace, hinit] at hstep
      refine ⟨_, hstep, hfollows.push (r := r) (hnone n) _ name hnext rfl ?_ ?_⟩
      · rw [hhandle, if_pos rfl]
        exact attached_session
      · exact fun r' hne => (hhandle _ _ r').trans (if_neg hne)

/-- A trace that has been opened has not been used. -/
theorem openTrace {t : ℕ} {os : Os} {init : InitOs} {config : Config} {impl : TraceImpl}
    (h : Traced es s) (ht : s.traces[t]? = some none)
    (hinit : Trace.initFile os init config = (.ok, some impl)) :
    Traced (es ++ [(call, none)]) { s with
      heap := (s.heap.allocate (.trace s.opened.length)).allocate (.file s.opened.length)
      traces := s.traces.set t (some s.opened.length)
      opened := s.opened ++ [⟨os, init, config, impl⟩] } := by
  have hhistory : ∀ n, history n (es ++ [(call, none)]) = history n es := by
    intro n
    rw [history_concat]
    exact List.append_nil _
  refine ⟨h.sound.openTrace ht os init config impl, fun n opened hget => ?_, fun n hn => ?_⟩
  · change (s.opened ++ [⟨os, init, config, impl⟩])[n]? = some opened at hget
    rw [hhistory]
    rcases Nat.lt_or_ge n s.opened.length with hlt | hge
    · rw [List.getElem?_append_left hlt] at hget
      obtain ⟨a, hrun, hfollows⟩ := h.runs n opened hget
      refine ⟨a, hrun, hfollows.congr ?_ fun _ => rfl⟩
      rw [mem_set_some ht, or_iff_right hlt.ne]
    · rw [List.getElem?_append_right hge, List.getElem?_singleton] at hget
      split_ifs at hget with hzero
      cases hget
      have hn : n = s.opened.length := by omega
      have hnone : ∀ {r x}, (s.handle r).session n ≠ some x := by
        intro r x hx
        have hlt := h.sound.opened n (h.sound.target r n (session_target hx))
        omega
      rw [h.fresh n hge]
      refine ⟨⟨impl, [], none⟩, .start ⟨impl, hinit, rfl⟩, rfl, ?_, ?_, ?_, ?_⟩
      · rw [mem_set_some ht]
        exact iff_of_true rfl (Or.inl hn)
      · exact fun r thread phase hr => absurd hr hnone
      · intro i thread hthread
        cases hthread
      · exact fun r r' thread thread' phase phase' hr => absurd hr hnone
  · rw [List.length_append, List.length_singleton] at hn
    rw [hhistory]
    exact h.fresh n (by omega)

theorem initFile (h : Traced es s) (os : Os) (init : InitOs) (config : Config) (path : Bool)
    (t : ℕ) : Traced (es ++ [(call, none)]) (Program.initFile os init config path t s).2 := by
  unfold Program.initFile
  split_ifs with hrefused
  · exact h.idle
  · have ht : s.traces[t]? = some none := by
      by_contra hne
      exact hrefused (Or.inl hne)
    dsimp only
    rcases hinit : Trace.initFile os init config with ⟨status, _ | impl⟩
    · dsimp only
      rw [initFailed_eq h.sound]
      exact h.idle
    · have hok : status = .ok := initFile_some hinit
      subst hok
      exact h.openTrace ht hinit

theorem finish (h : Traced es s) {t : ℕ}
    (hrule : ∀ n opened, s.trace t = some (n, opened) → Unawaited s n) :
    Traced (es ++ [(call, (Program.finish t s).2.2)]) (Program.finish t s).2.1 := by
  unfold Program.finish
  split
  · exact h.idle
  · next n opened htrace =>
      obtain ⟨ht, hopened⟩ := trace_some htrace
      have hn : some n ∈ s.traces := List.mem_of_getElem? ht
      obtain ⟨a₀, hrun₀, hfollows₀⟩ := h.runs n opened hopened
      have hzero := hfollows₀.activeThreads_eq_zero_iff (numbered_of_reachable ⟨_, hrun₀⟩) hn
      dsimp only
      rw [h.sound.access_trace hn]
      split_ifs with hactive
      · have hfinish : Trace.finish opened.os opened.impl = (.invalidArgument, opened.impl) :=
          if_pos hactive
        rw [hfinish]
        refine h.effect ?_ hopened rfl (fun k _ => ⟨Iff.rfl, fun _ => rfl⟩)
          fun a hreachable hfollows => ?_
        · refine h.sound.congr rfl rfl ?_ le_rfl (fun _ => rfl) (fun _ => rfl) h.sound.bound
          simp [State.setTrace]
        · have hopen := hfollows.live.2 hn
          have hstep : Trace.Step opened.os a _ _ := Trace.Step.finish hopen
          have hclosed := (numbered_of_reachable hreachable).opened hopen
          rw [hfollows.trace] at hclosed
          rw [State.finish, hfollows.trace, hfinish] at hstep
          dsimp only at hstep
          rw [hclosed, if_neg Bool.false_ne_true, ← hopen] at hstep
          exact ⟨_, hstep, hfollows.write opened.impl Iff.rfl fun _ => rfl⟩
      · have hnone := hzero.1 (not_not.1 hactive)
        have hsome : ∀ r x, (s.handle r).session n ≠ some x := by
          intro r x hx
          rw [hnone r] at hx
          cases hx
        obtain ⟨trace', -, hclosed⟩ := touched_finish opened.os opened.impl (not_not.1 hactive)
        have htarget : ∀ r, (s.handle r).target ≠ some n := by
          intro r hr
          rcases target_cases hr with hsome | ⟨m, name, hhandle⟩
          · exact hsome (hnone r)
          · obtain ⟨w, hget⟩ := getElem?_of_handle hhandle (by simp)
            exact hrule n opened htrace _ (List.mem_of_getElem? hget) m name rfl
        rw [h.sound.access_file hn]
        refine h.effect (n := n) ?_ hopened rfl (fun k hk => ⟨?_, fun _ => rfl⟩)
          fun a hreachable hfollows => ?_
        · refine h.sound.closeTrace ht htarget rfl rfl ?_ rfl rfl rfl
          simp [State.setTrace]
        · exact (mem_set_none ht (h.sound.single t · n ht)).trans (and_iff_right hk)
        · have hopen := hfollows.live.2 hn
          have hstep : Trace.Step opened.os a _ _ := Trace.Step.finish hopen
          rw [State.finish, hfollows.trace] at hstep
          dsimp only at hstep
          refine ⟨_, hstep, rfl, ?_, ?_, ?_, ?_⟩
          · refine iff_of_false ?_ ?_
            · rw [hclosed]
              exact Option.some_ne_none _
            · exact fun hmem => ((mem_set_none ht (h.sound.single t · n ht)).1 hmem).1 rfl
          · exact fun r thread phase hr => absurd hr (hsome r _)
          · intro i thread hthread hphase
            obtain ⟨r, hr⟩ := hfollows.recorder i thread hthread hphase
            exact absurd hr (hsome r _)
          · exact fun r r' thread thread' phase phase' hr => absurd hr (hsome r _)

theorem step {supported : Bool} {label : Event × Effect} (h : Traced es s)
    (hstep : Step supported s label s') : Traced (es ++ [label]) s' := by
  cases hstep with
  | initFile os init config path t => exact h.initFile os init config path t
  | finish t hrule => exact h.finish hrule
  | threadInit husable calloc malloc name t => exact h.threadInit calloc malloc name _ t
  | threadInitEnd hhandle hopened => exact h.threadInitEnd hhandle hopened
  | event husable eventCall now => exact h.event eventCall now _
  | threadFlush husable => exact h.threadFlush _
  | threadStats husable => exact h.threadStats _
  | threadFinish husable now => exact h.threadFinish now husable
  | threadRelease hhandle hopened => exact h.threadRelease hhandle hopened
  | autoBind husable => exact h.autoBind supported husable
  | auto w autoCall => exact h.auto autoCall w
  | autoIsEnabled hworker => exact h.idle
  | enter hsupported w function now => exact h.profile (.enterFunction function) now w
  | exit hsupported w now => exact h.profile .endZone now w

end Traced

theorem traced_of_initial (h : Initial s) : Traced [] s := by
  have hhandle : ∀ r, s.handle r = .null := by
    intro r
    rw [State.handle]
    cases hget : s.recorders[r]? with
    | none => rfl
    | some v => exact h.recorders v (List.mem_of_getElem? hget)
  have htrace : ∀ n, some n ∉ s.traces := by
    intro n hn
    have hnone := h.traces (some n) hn
    cases hnone
  refine ⟨⟨?_, ?_, ?_, ?_, ?_, ?_, ?_, ?_⟩, ?_, fun _ _ => rfl⟩
  · rw [h.heap]
    rfl
  · intro o
    rw [h.heap]
    refine iff_of_false (Finset.notMem_empty o) ?_
    cases o with
    | trace n => exact htrace n
    | file n => exact htrace n
    | recorder m => simp [Owned, hhandle, Handle.number]
    | buffer m => simp [Owned, hhandle, Handle.number]
  · intro r m hr
    rw [hhandle] at hr
    cases hr
  · exact fun n hn => absurd hn (htrace n)
  · exact fun t t' n ht => absurd (List.mem_of_getElem? ht) (htrace n)
  · intro r r' m hr
    rw [hhandle] at hr
    cases hr
  · intro r n hr
    rw [hhandle] at hr
    cases hr
  · intro w r worker hworker hauto
    rw [h.workers worker (List.mem_of_getElem? hworker)] at hauto
    cases hauto
  · intro n opened hget
    rw [h.opened] at hget
    cases hget

theorem traced_of_run {supported : Bool} (h : Run (system supported) es s) : Traced es s :=
  h.invariant (P := Traced) (fun _ => traced_of_initial) fun _ _ _ _ htraced hstep =>
    htraced.step hstep

/-- One thread with one variable of each type. -/
def emptyState : State := ⟨.empty, [none], [], [⟨0, .null⟩], 0, [⟨none, false⟩]⟩

theorem emptyState_run : Run (system true) [] emptyState :=
  .start ⟨rfl, by decide, rfl, by decide, by decide⟩

/-- The thread is instrumented, has a zone open and begins to finish its recorder. -/
theorem instrumented_run : ∃ es s, Run (system true) es s ∧
    (s.trace 0).map Prod.fst = some 0 ∧ (s.handle 0).number = some 0 ∧
    ((s.handle 0).session 0).isSome = true ∧ (history 0 es).length = 3 := by
  have h₁ := emptyState_run.step (.initFile quietOs quietInit flushConfig true 0)
  have h₂ := h₁.step (.threadInit (w := 0) (r := 0) ⟨.null, rfl, Or.inl rfl⟩ true true none 0)
  have h₃ := h₂.step (.threadInitEnd (r := 0) rfl rfl)
  have h₄ := h₃.step (.autoBind (w := 0) (r := 0) ⟨_, rfl, Or.inr ⟨_, _, _, rfl⟩⟩)
  have h₅ := h₄.step (.enter rfl 0 7 1500)
  have h₆ := h₅.step (.threadFinish (w := 0) (r := 0) ⟨_, rfl, Or.inr ⟨_, _, _, rfl⟩⟩ fun _ => 2000)
  exact ⟨_, _, h₆, by decide +kernel, by decide +kernel, by decide +kernel, by decide +kernel⟩

/-- Any number of threads may open and finish traces, record, flush and be instrumented: no call
reaches an object that has been freed or a recorder that is not there, nothing is freed twice, and
what is allocated is behind exactly one variable. -/
theorem recorders_memory_safe {supported : Bool} (h : Reachable (system supported) s) :
    s.heap.broken = false ∧ (∀ o, o ∈ s.heap.live ↔ Owned s o) ∧
      (∀ t t' n : ℕ, s.traces[t]? = some (some n) → s.traces[t']? = some (some n) → t = t') ∧
      ∀ r r' m, (s.handle r).number = some m → (s.handle r').number = some m → r = r' := by
  obtain ⟨es, hrun⟩ := h
  have hsound := (traced_of_run hrun).sound
  exact ⟨hsound.intact, hsound.live, hsound.single, hsound.distinct⟩

theorem recorders_memory_safe_instrumented : ∃ s, Reachable (system true) s ∧
    (s.handle 0).number = some 0 ∧ s.heap.broken = false ∧ .recorder 0 ∈ s.heap.live := by
  obtain ⟨es, s, hrun, -, hnumber, -, -⟩ := instrumented_run
  have hsafe := recorders_memory_safe ⟨es, hrun⟩
  exact ⟨s, ⟨es, hrun⟩, hnumber, hsafe.1, (hsafe.2.1 (.recorder 0)).2 ⟨0, hnumber⟩⟩

/-- What the calls do to one trace is a run of the system of one trace, whatever they do to others.
-/
theorem traces_follow_their_system {supported : Bool} (h : Run (system supported) es s) {n : ℕ}
    {opened : Opened} (hopened : s.opened[n]? = some opened) :
    ∃ a, Run (Trace.system opened.os opened.init opened.config) (history n es) a ∧
      Follows s n opened a :=
  (traced_of_run h).runs n opened hopened

theorem traces_follow_their_system_instrumented : ∃ es s opened a, Run (system true) es s ∧
    (history 0 es).length = 3 ∧
    Run (Trace.system opened.os opened.init opened.config) (history 0 es) a ∧
    Follows s 0 opened a := by
  obtain ⟨es, s, hrun, htrace, -, -, hlength⟩ := instrumented_run
  obtain ⟨⟨n, opened⟩, hsome, heq⟩ := Option.map_eq_some_iff.1 htrace
  cases heq
  obtain ⟨a, ha, hfollows⟩ := traces_follow_their_system hrun (trace_some hsome).2
  exact ⟨es, s, opened, a, hrun, hlength, ha, hfollows⟩

theorem setTrace_self {n : ℕ} {opened : Opened} (h : s.opened[n]? = some opened) :
    s.setTrace n opened.impl = s := by
  have hsame : (s.opened.modify n fun other => { other with impl := opened.impl }) = s.opened := by
    refine List.ext_getElem? fun k => ?_
    rw [List.getElem?_modify]
    split_ifs with heq
    · rw [← heq, h]
      rfl
    · cases s.opened[k]? <;> rfl
  rw [State.setTrace, hsame]

theorem finish_status {os : Os} {trace : TraceImpl} (h : trace.activeThreads = 0) :
    (Trace.finish os trace).1 ≠ .invalidArgument := by
  rw [Trace.finish, if_neg (not_not.2 h)]
  dsimp only
  split_ifs
  · decide
  · decide

/-- A trace is refused to be finished or is gone. -/
theorem Traced.finish_cases (h : Traced es s) {t n : ℕ} {opened : Opened}
    (htrace : s.trace t = some (n, opened)) :
    ((∃ r x, (s.handle r).session n = some x) ∧ (Program.finish t s).1 = .invalidArgument ∧
        (Program.finish t s).2.1 = s) ∨
      ((∀ r, (s.handle r).session n = none) ∧ (Program.finish t s).1 ≠ .invalidArgument ∧
        (Program.finish t s).2.1.traces = s.traces.set t none ∧
        (Program.finish t s).2.1.recorders = s.recorders) := by
  obtain ⟨ht, hopened⟩ := trace_some htrace
  have hn : some n ∈ s.traces := List.mem_of_getElem? ht
  obtain ⟨a, ha, hfollows⟩ := h.runs n opened hopened
  have hzero := hfollows.activeThreads_eq_zero_iff (numbered_of_reachable ⟨_, ha⟩) hn
  rw [Program.finish, htrace]
  dsimp only
  rw [h.sound.access_trace hn]
  by_cases hactive : opened.impl.activeThreads = 0
  · rw [if_neg (not_not.2 hactive)]
    exact Or.inr ⟨hzero.1 hactive, finish_status hactive, rfl, rfl⟩
  · have hfinish : Trace.finish opened.os opened.impl = (.invalidArgument, opened.impl) :=
      if_pos hactive
    rw [if_pos hactive, hfinish, setTrace_self hopened]
    rw [hzero] at hactive
    simp only [not_forall, ← Ne.eq_def, Option.ne_none_iff_exists'] at hactive
    exact Or.inl ⟨hactive, rfl, rfl⟩

/-- `lor_trace_finish` refuses exactly while a thread records into the trace, and then changes
nothing. Otherwise the trace is gone, whether its file could be completed or not. -/
theorem finish_refused_iff {supported : Bool} (h : Reachable (system supported) s) {t n : ℕ}
    {opened : Opened} (htrace : s.trace t = some (n, opened)) :
    ((finish t s).1 = .invalidArgument ↔ ∃ r x, (s.handle r).session n = some x) ∧
      ((finish t s).1 = .invalidArgument → (finish t s).2.1 = s) ∧
      ((finish t s).1 ≠ .invalidArgument → (finish t s).2.1.traces = s.traces.set t none) := by
  obtain ⟨es, hrun⟩ := h
  rcases (traced_of_run hrun).finish_cases htrace with
    ⟨hsome, hstatus, hsame⟩ | ⟨hnone, hstatus, htraces, -⟩
  · exact ⟨iff_of_true hstatus hsome, fun _ => hsame, fun hne => absurd hstatus hne⟩
  · refine ⟨iff_of_false hstatus ?_, fun heq => absurd heq hstatus, fun _ => htraces⟩
    rintro ⟨r, x, hx⟩
    rw [hnone r] at hx
    cases hx

theorem finish_refused_iff_instrumented : ∃ s, Reachable (system true) s ∧
    (s.trace 0).map Prod.fst = some 0 ∧ (finish 0 s).1 = .invalidArgument ∧
    (finish 0 s).2.1 = s := by
  obtain ⟨es, s, hrun, htrace, -, hsession, -⟩ := instrumented_run
  obtain ⟨⟨n, opened⟩, hsome, heq⟩ := Option.map_eq_some_iff.1 htrace
  cases heq
  obtain ⟨hrefused, hsame, -⟩ := finish_refused_iff ⟨es, hrun⟩ hsome
  have hstatus := hrefused.2 ⟨0, Option.isSome_iff_exists.1 hsession⟩
  exact ⟨s, ⟨es, hrun⟩, htrace, hstatus, hsame hstatus⟩

end Liblor.Trace.Program
