import Liblor.TraceAppend
import Liblor.TraceSystem

/-!
# The records of a thread are a pruning of its calls

The zones that are open in a recorder are those that are left out, above those that are kept; for
each of the latter the buffer has room for an `END` record.
-/

namespace Liblor.Trace

open NestedZones Transition

def RecordType.kind : RecordType → Kind
  | .beginZone => .opening
  | .autoBeginZone => .opening
  | .endZone => .closing
  | .instant => .point
  | .counter => .point

def EventCall.kind : EventCall → Kind
  | .beginZone _ => .opening
  | .enterFunction _ => .opening
  | .endZone => .closing
  | .instant _ => .point
  | .counter _ _ => .point

/-- The type, the name and the value that a call has recorded. -/
def EventCall.payload : EventCall → Option (RecordType × Bytes × UInt64)
  | .beginZone name => name.map fun name => (.beginZone, name, 0)
  | .endZone => some (.endZone, [], 0)
  | .instant name => name.map fun name => (.instant, name, 0)
  | .counter name value => name.map fun name => (.counter, name, value.toUInt64)
  | .enterFunction address => some (.autoBeginZone, [], address)

/-- The calls of a thread as a word. -/
def Thread.word (thread : Thread) : List Kind := thread.calls.map EventCall.kind

/-- What is recorded of the calls, each position with the index of its call. -/
def Thread.kept (thread : Thread) : List (Kind × ℕ) :=
  thread.log.map fun e => (e.2.type.kind, e.1)

/-- What the thread has appended. -/
def Thread.stream (thread : Thread) : List Kind := thread.records.map (·.type.kind)

theorem Thread.stream_eq (thread : Thread) :
    thread.stream = thread.kept.map Prod.fst ++ thread.closing.map (·.type.kind) := by
  simp [Thread.stream, Thread.records, Thread.kept, Function.comp_def]

/-- The counters of a recorder while these zones are open and this number of events has been
counted. -/
structure Tracks (impl : ThreadImpl) (zones : List (ℕ × Bool)) (events : ℕ) : Prop where
  flags : zones.map Prod.snd =
    List.replicate impl.suppressedDepth false ++ List.replicate impl.reservedEnds true
  depth : impl.depth = impl.suppressedDepth + impl.reservedEnds
  room : impl.buffer.length + headerSize * impl.reservedEnds ≤ impl.capacity
  capacity_le : impl.capacity ≤ sizeMax
  counted : impl.recordedEvents + impl.droppedEvents = events

section Tracks

variable {impl : ThreadImpl} {zones : List (ℕ × Bool)} {n : ℕ}

theorem Tracks.all_kept (h : Tracks impl zones n) (hsuppressed : impl.suppressedDepth = 0) :
    ∀ z ∈ zones, z.2 := by
  intro z hz
  have hflag : z.2 ∈ zones.map Prod.snd := List.mem_map_of_mem hz
  rw [h.flags, hsuppressed, List.replicate_zero, List.nil_append] at hflag
  exact List.eq_of_mem_replicate hflag

theorem Tracks.suppressed_eq_zero {b : ℕ} (h : Tracks impl ((b, true) :: zones) n) :
    impl.suppressedDepth = 0 := by
  have hflags := h.flags
  cases hsuppressed : impl.suppressedDepth with
  | zero => rfl
  | succ d =>
      rw [hsuppressed, List.replicate_succ, List.map_cons, List.cons_append] at hflags
      simp at hflags

variable {buffer : Bytes}

theorem Tracks.with_buffer (h : Tracks impl zones n)
    (hbuffer : buffer = impl.buffer ∨ buffer = []) :
    Tracks { impl with buffer := buffer } zones n where
  flags := h.flags
  depth := h.depth
  room := by
    rcases hbuffer with rfl | rfl
    · exact h.room
    · exact (Nat.add_le_add_right (Nat.zero_le _) _).trans h.room
  capacity_le := h.capacity_le
  counted := h.counted

theorem Tracks.count_dropped (h : Tracks impl zones n) :
    Tracks { impl with droppedEvents := impl.droppedEvents + 1 } zones (n + 1) where
  flags := h.flags
  depth := h.depth
  room := h.room
  capacity_le := h.capacity_le
  counted := congrArg (· + 1) h.counted

theorem Tracks.count_recorded (h : Tracks impl zones n)
    (hroom : buffer.length + headerSize * impl.reservedEnds ≤ impl.capacity) :
    Tracks { impl with buffer := buffer, recordedEvents := impl.recordedEvents + 1 } zones
      (n + 1) where
  flags := h.flags
  depth := h.depth
  room := hroom
  capacity_le := h.capacity_le
  counted := by
    have hcounted := h.counted
    simp only
    omega

theorem Tracks.drop_zone (h : Tracks impl zones n) (b : ℕ) :
    Tracks { impl with depth := impl.depth + 1, suppressedDepth := impl.suppressedDepth + 1 }
      ((b, false) :: zones) n where
  flags := by
    rw [List.map_cons, h.flags, List.replicate_succ, List.cons_append]
  depth := by
    have hdepth := h.depth
    simp only
    omega
  room := h.room
  capacity_le := h.capacity_le
  counted := h.counted

theorem Tracks.keep_zone (h : Tracks impl zones n) (hsuppressed : impl.suppressedDepth = 0)
    (hroom : impl.buffer.length + headerSize * (impl.reservedEnds + 1) ≤ impl.capacity) (b : ℕ) :
    Tracks { impl with depth := impl.depth + 1, reservedEnds := impl.reservedEnds + 1 }
      ((b, true) :: zones) n where
  flags := by
    rw [List.map_cons, h.flags, hsuppressed]
    rfl
  depth := by
    have hdepth := h.depth
    simp only
    omega
  room := hroom
  capacity_le := h.capacity_le
  counted := h.counted

theorem Tracks.end_dropped {b : ℕ} (h : Tracks impl ((b, false) :: zones) n) :
    impl.depth ≠ 0 ∧ impl.suppressedDepth ≠ 0 ∧
      Tracks { impl with
        depth := impl.depth - 1, suppressedDepth := impl.suppressedDepth - 1 } zones n := by
  have hflags := h.flags
  have hdepth := h.depth
  cases hsuppressed : impl.suppressedDepth with
  | zero =>
      rw [hsuppressed] at hflags
      cases hends : impl.reservedEnds with
      | zero =>
          rw [hends] at hflags
          simp at hflags
      | succ k =>
          rw [hends, List.replicate_succ] at hflags
          simp at hflags
  | succ d =>
      rw [hsuppressed, List.replicate_succ, List.cons_append, List.map_cons] at hflags
      rw [hsuppressed] at hdepth
      refine ⟨by omega, Nat.succ_ne_zero d, ⟨(List.cons.inj hflags).2, ?_, h.room, h.capacity_le,
        h.counted⟩⟩
      simp only
      omega

theorem Tracks.end_kept {b : ℕ} (h : Tracks impl ((b, true) :: zones) n) :
    impl.depth ≠ 0 ∧ impl.suppressedDepth = 0 ∧ impl.reservedEnds ≠ 0 ∧
      Tracks { impl with
        depth := impl.depth - 1, reservedEnds := impl.reservedEnds - 1 } zones n := by
  have hflags := h.flags
  have hdepth := h.depth
  have hroom := h.room
  have hsuppressed := h.suppressed_eq_zero
  rw [hsuppressed, List.replicate_zero, List.nil_append] at hflags
  cases hends : impl.reservedEnds with
  | zero =>
      rw [hends] at hflags
      simp at hflags
  | succ k =>
      rw [hends, List.replicate_succ, List.map_cons] at hflags
      rw [hsuppressed, hends] at hdepth
      refine ⟨by omega, hsuppressed, Nat.succ_ne_zero k, ⟨?_, ?_, ?_, h.capacity_le, h.counted⟩⟩
      · rw [hsuppressed]
        exact (List.cons.inj hflags).2
      · simp only
        omega
      · rw [hends] at hroom
        simp only [headerSize] at hroom ⊢
        omega

theorem Tracks.flush (h : Tracks impl zones n) (os : Os) (trace : TraceImpl) (flushStream : Bool) :
    Tracks (flushInternal os trace impl flushStream).2.2 zones n := by
  rcases flushInternal_thread os trace impl flushStream with heq | heq
  · rw [heq]
    exact h
  · rw [heq]
    exact h.with_buffer (Or.inr rfl)

variable (os : Os) (now : UInt64) (trace : TraceImpl)

/-- A begin is left out, or it is recorded inside zones that are all kept. -/
theorem Tracks.beginValue (h : Tracks impl zones n) (type : RecordType) (name : Bytes)
    (value : UInt64) (b : ℕ) :
    ((beginValue os now trace impl type name value).record = none ∧
      Tracks (beginValue os now trace impl type name value).thread ((b, false) :: zones) (n + 1)) ∨
    ((∀ z ∈ zones, z.2) ∧ ∃ timestampNs,
      (beginValue os now trace impl type name value).record =
        some ⟨type, name, value, timestampNs⟩ ∧
      Tracks (beginValue os now trace impl type name value).thread ((b, true) :: zones)
        (n + 1)) := by
  unfold Trace.beginValue
  dsimp only
  split_ifs with hsuppressed hfull
  · exact Or.inl ⟨rfl, (h.drop_zone b).count_dropped⟩
  · have hdropped := (h.drop_zone b).count_dropped
    rw [not_not.1 hsuppressed] at hdropped
    exact Or.inl ⟨rfl, hdropped⟩
  · have hzero := not_not.1 hsuppressed
    obtain ⟨trace', impl', hprepared, hnone | ⟨-, hfits, hsome⟩⟩ := append_cases os now trace
      { impl with depth := impl.depth + 1 } type name value (impl.reservedEnds + 1)
    · obtain ⟨buffer, hbuffer, rfl⟩ := hprepared.thread
      have hdropped := ((h.with_buffer hbuffer).drop_zone b).count_dropped
      simp only [hzero] at hdropped
      rw [hnone]
      exact Or.inl ⟨rfl, hdropped⟩
    · obtain ⟨buffer, hbuffer, rfl⟩ := hprepared.thread
      rw [hsome]
      refine Or.inr ⟨h.all_kept hzero, _, rfl, ?_⟩
      have hend : (buffer ++ (Record.mk type name value (timestamp trace' now)).encode).length +
          headerSize * (impl.reservedEnds + 1) ≤ impl.capacity := by
        simp only [List.length_append, length_record_encode] at hfits ⊢
        omega
      have hroom := (Nat.add_le_add_left (Nat.mul_le_mul_left headerSize
        (Nat.le_succ impl.reservedEnds)) _).trans hend
      exact (h.count_recorded hroom).keep_zone hzero hend b

/-- An end closes no zone, or the newest zone, with which it is left out or recorded. -/
theorem Tracks.endImpl (h : Tracks impl zones n) :
    (zones = [] ∧ (endImpl os now trace impl).record = none ∧
      Tracks (endImpl os now trace impl).thread [] (n + 1)) ∨
    (∃ b rest, zones = (b, false) :: rest ∧ (endImpl os now trace impl).record = none ∧
      Tracks (endImpl os now trace impl).thread rest (n + 1)) ∨
    (∃ b rest timestampNs, zones = (b, true) :: rest ∧
      (endImpl os now trace impl).record = some ⟨.endZone, [], 0, timestampNs⟩ ∧
      Tracks (endImpl os now trace impl).thread rest (n + 1)) := by
  rcases zones with _ | ⟨⟨b, kept⟩, rest⟩
  · have hflags := congrArg List.length h.flags
    have hdepth : impl.depth = 0 := by
      rw [h.depth]
      simpa using hflags.symm
    rw [Trace.endImpl, if_pos hdepth]
    exact Or.inl ⟨rfl, rfl, h.count_dropped⟩
  · cases kept with
    | false =>
        obtain ⟨hdepth, hsuppressed, hend⟩ := h.end_dropped
        rw [Trace.endImpl, if_neg hdepth]
        dsimp only
        rw [if_pos hsuppressed]
        exact Or.inr (Or.inl ⟨b, rest, rfl, rfl, hend.count_dropped⟩)
    | true =>
        obtain ⟨hdepth, hsuppressed, hends, hend⟩ := h.end_kept
        have happend := append_end os now trace { impl with depth := impl.depth - 1 }
          h.capacity_le h.room hends
        rw [Trace.endImpl, if_neg hdepth]
        dsimp only
        rw [if_neg (not_not.2 hsuppressed), if_neg hends, happend]
        refine Or.inr (Or.inr ⟨b, rest, _, rfl, rfl, hend.count_recorded ?_⟩)
        have hroom := h.room
        obtain ⟨k, hk⟩ := Nat.exists_eq_succ_of_ne_zero hends
        simp only [hk, List.length_append, length_record_encode, List.length_nil, headerSize]
          at hroom ⊢
        omega

/-- An instant or a counter is left out, or it is recorded inside zones that are all kept. -/
theorem Tracks.pointValue (h : Tracks impl zones n) (type : RecordType) (name : Bytes)
    (value : UInt64) :
    ((pointValue os now trace impl type name value).record = none ∧
      Tracks (pointValue os now trace impl type name value).thread zones (n + 1)) ∨
    ((∀ z ∈ zones, z.2) ∧ ∃ timestampNs,
      (pointValue os now trace impl type name value).record =
        some ⟨type, name, value, timestampNs⟩ ∧
      Tracks (pointValue os now trace impl type name value).thread zones (n + 1)) := by
  unfold Trace.pointValue
  split_ifs with hsuppressed
  · exact Or.inl ⟨rfl, h.count_dropped⟩
  · have hzero := not_not.1 hsuppressed
    obtain ⟨trace', impl', hprepared, hnone | ⟨-, hfits, hsome⟩⟩ := append_cases os now trace
      impl type name value impl.reservedEnds
    · obtain ⟨buffer, hbuffer, rfl⟩ := hprepared.thread
      rw [hnone]
      exact Or.inl ⟨rfl, (h.with_buffer hbuffer).count_dropped⟩
    · obtain ⟨buffer, hbuffer, rfl⟩ := hprepared.thread
      rw [hsome]
      refine Or.inr ⟨h.all_kept hzero, _, rfl, h.count_recorded ?_⟩
      simp only [List.length_append, length_record_encode] at hfits ⊢
      omega

end Tracks

section Nested

/-- Each record is what its call has recorded. -/
def Faithful (calls : List EventCall) (log : List (ℕ × Record)) : Prop :=
  ∀ e ∈ log, ∃ call, calls[e.1]? = some call ∧
    call.payload = some (e.2.type, e.2.name, e.2.value)

theorem Faithful.drop {calls : List EventCall} {log : List (ℕ × Record)} (h : Faithful calls log)
    (call : EventCall) : Faithful (calls ++ [call]) log := by
  intro e he
  obtain ⟨call', hcall, hpayload⟩ := h e he
  have hlt := (List.getElem?_eq_some_iff.1 hcall).1
  exact ⟨call', by rw [List.getElem?_append_left hlt, hcall], hpayload⟩

theorem Faithful.keep {calls : List EventCall} {log : List (ℕ × Record)} (h : Faithful calls log)
    {call : EventCall} {record : Record}
    (hpayload : call.payload = some (record.type, record.name, record.value)) :
    Faithful (calls ++ [call]) (log ++ [(calls.length, record)]) := by
  intro e he
  rcases List.mem_append.1 he with he | he
  · exact h.drop call e he
  · rw [List.mem_singleton.1 he]
    exact ⟨call, List.getElem?_concat_length, hpayload⟩

/-- What holds of the calls and the records of a thread while it has these zones open. -/
structure Nested (thread : Thread) (zones : List (ℕ × Bool)) : Prop where
  pruned : Pruned zones thread.word thread.kept
  faithful : Faithful thread.calls thread.log

/-- A thread that is recording: its recorder tracks the zones that are open. -/
structure Recording (thread : Thread) (zones : List (ℕ × Bool)) : Prop extends
    Nested thread zones where
  tracks : Tracks thread.impl zones thread.calls.length

variable {thread : Thread} {zones : List (ℕ × Bool)} {call : EventCall}

theorem Thread.event_dropped {os : Os} {trace : TraceImpl} {now : UInt64} (hvalid : call.isValid)
    (hnone : (call.perform os now trace thread.impl).record = none) :
    thread.event os trace call now = { thread with
      impl := (call.perform os now trace thread.impl).thread,
      calls := thread.calls ++ [call] } := by
  rw [Thread.event, if_pos hvalid, hnone]
  simp

theorem Thread.event_kept {os : Os} {trace : TraceImpl} {now : UInt64} {record : Record}
    (hvalid : call.isValid)
    (hsome : (call.perform os now trace thread.impl).record = some record) :
    thread.event os trace call now = { thread with
      impl := (call.perform os now trace thread.impl).thread, calls := thread.calls ++ [call]
      log := thread.log ++ [(thread.calls.length, record)] } := by
  rw [Thread.event, if_pos hvalid, hsome]
  simp

theorem Recording.drop {zones' : List (ℕ × Bool)} {impl : ThreadImpl} (h : Recording thread zones)
    (hstep : ZoneStep thread.word.length call.kind false zones zones')
    (htracks : Tracks impl zones' (thread.calls.length + 1)) :
    Recording { thread with impl := impl, calls := thread.calls ++ [call] } zones' where
  pruned := by
    rw [Thread.word, List.map_append]
    exact h.pruned.step hstep
  faithful := h.faithful.drop call
  tracks := by
    rw [List.length_append]
    exact htracks

theorem Recording.keep {zones' : List (ℕ × Bool)} {impl : ThreadImpl} {record : Record}
    (h : Recording thread zones)
    (hstep : ZoneStep thread.word.length record.type.kind true zones zones')
    (htype : record.type.kind = call.kind)
    (hpayload : call.payload = some (record.type, record.name, record.value))
    (htracks : Tracks impl zones' (thread.calls.length + 1)) :
    Recording { thread with
      impl := impl, calls := thread.calls ++ [call]
      log := thread.log ++ [(thread.calls.length, record)] } zones' where
  pruned := by
    have hpruned := h.pruned.step hstep
    rw [htype, Thread.word, List.length_map] at hpruned
    rw [Thread.word, List.map_append, Thread.kept, List.map_append]
    simp only [List.map_singleton, htype]
    exact hpruned
  faithful := h.faithful.keep hpayload
  tracks := by
    rw [List.length_append]
    exact htracks

variable (os : Os) (now : UInt64) (trace : TraceImpl)

theorem Recording.begin {type : RecordType} {name : Bytes} {value : UInt64}
    (h : Recording thread zones) (hvalid : call.isValid)
    (hpayload : call.payload = some (type, name, value)) (hcall : call.kind = .opening)
    (htype : type.kind = .opening)
    (hperform : call.perform os now trace thread.impl =
      beginValue os now trace thread.impl type name value) :
    ∃ zones', ZoneStep thread.word.length call.kind
        (call.perform os now trace thread.impl).record.isSome zones zones' ∧
      Recording (thread.event os trace call now) zones' := by
  rcases h.tracks.beginValue os now trace type name value thread.word.length with
    ⟨hnone, htracks⟩ | ⟨hkept, timestampNs, hsome, htracks⟩
  all_goals rw [← hperform] at *
  · have hstep : ZoneStep thread.word.length call.kind false zones
        ((thread.word.length, false) :: zones) := by
      rw [hcall]
      exact .dropZone
    rw [Thread.event_dropped hvalid hnone, hnone]
    exact ⟨_, hstep, h.drop hstep htracks⟩
  · have hstep : ZoneStep thread.word.length type.kind true zones
        ((thread.word.length, true) :: zones) := by
      rw [htype]
      exact .keepZone hkept
    rw [Thread.event_kept hvalid hsome, hsome, hcall, ← htype]
    exact ⟨_, hstep, h.keep hstep (htype.trans hcall.symm) hpayload htracks⟩

theorem Recording.end (h : Recording thread zones) :
    ∃ zones', ZoneStep thread.word.length .closing
        (endImpl os now trace thread.impl).record.isSome zones zones' ∧
      Recording (thread.event os trace .endZone now) zones' := by
  have hperform : EventCall.endZone.perform os now trace thread.impl =
      endImpl os now trace thread.impl := rfl
  rcases h.tracks.endImpl os now trace with ⟨rfl, hnone, htracks⟩ |
    ⟨b, rest, rfl, hnone, htracks⟩ | ⟨b, rest, timestampNs, rfl, hsome, htracks⟩
  all_goals rw [← hperform] at *
  · rw [Thread.event_dropped rfl hnone, hnone]
    exact ⟨_, .stray, h.drop .stray htracks⟩
  · rw [Thread.event_dropped rfl hnone, hnone]
    exact ⟨_, .endDropped, h.drop .endDropped htracks⟩
  · rw [Thread.event_kept rfl hsome, hsome]
    have hall := h.tracks.all_kept h.tracks.suppressed_eq_zero
    have hrest : ∀ z ∈ rest, z.2 := fun z hz => hall z (List.mem_cons_of_mem _ hz)
    exact ⟨_, .endKept hrest, h.keep (.endKept hrest) rfl rfl htracks⟩

theorem Recording.point {type : RecordType} {name : Bytes} {value : UInt64}
    (h : Recording thread zones) (hvalid : call.isValid)
    (hpayload : call.payload = some (type, name, value)) (hcall : call.kind = .point)
    (htype : type.kind = .point)
    (hperform : call.perform os now trace thread.impl =
      pointValue os now trace thread.impl type name value) :
    ∃ zones', ZoneStep thread.word.length call.kind
        (call.perform os now trace thread.impl).record.isSome zones zones' ∧
      Recording (thread.event os trace call now) zones' := by
  rcases h.tracks.pointValue os now trace type name value with
    ⟨hnone, htracks⟩ | ⟨hkept, timestampNs, hsome, htracks⟩
  all_goals rw [← hperform] at *
  · have hstep : ZoneStep thread.word.length call.kind false zones zones := by
      rw [hcall]
      exact .dropPoint
    rw [Thread.event_dropped hvalid hnone, hnone]
    exact ⟨_, hstep, h.drop hstep htracks⟩
  · have hstep : ZoneStep thread.word.length type.kind true zones zones := by
      rw [htype]
      exact .keepPoint hkept
    rw [Thread.event_kept hvalid hsome, hsome, hcall, ← htype]
    exact ⟨_, hstep, h.keep hstep (htype.trans hcall.symm) hpayload htracks⟩

theorem Thread.event_ignored (hvalid : call.isValid = false) :
    thread.event os trace call now = thread := by
  have hperform : call.perform os now trace thread.impl = ⟨none, trace, thread.impl⟩ := by
    cases call with
    | beginZone name => cases name with
      | none => rfl
      | some name => exact absurd hvalid (by simp [EventCall.isValid])
    | endZone => exact absurd hvalid (by simp [EventCall.isValid])
    | instant name => cases name with
      | none => rfl
      | some name => exact absurd hvalid (by simp [EventCall.isValid])
    | counter name value => cases name with
      | none => rfl
      | some name => exact absurd hvalid (by simp [EventCall.isValid])
    | enterFunction address => exact absurd hvalid (by simp [EventCall.isValid])
  rw [Thread.event, hperform, hvalid]
  simp

theorem Recording.event_valid (h : Recording thread zones) (hvalid : call.isValid) :
    ∃ zones', ZoneStep thread.word.length call.kind
        (call.perform os now trace thread.impl).record.isSome zones zones' ∧
      Recording (thread.event os trace call now) zones' := by
  cases call with
  | beginZone name => cases name with
    | none => cases hvalid
    | some name => exact h.begin os now trace rfl rfl rfl rfl rfl
  | endZone => exact h.end os now trace
  | instant name => cases name with
    | none => cases hvalid
    | some name => exact h.point os now trace rfl rfl rfl rfl rfl
  | counter name value => cases name with
    | none => cases hvalid
    | some name => exact h.point os now trace rfl rfl rfl rfl rfl
  | enterFunction address => exact h.begin os now trace rfl rfl rfl rfl rfl

theorem Recording.event (h : Recording thread zones) (call : EventCall) :
    ∃ zones', Recording (thread.event os trace call now) zones' := by
  cases hvalid : call.isValid with
  | false =>
      rw [Thread.event_ignored os now trace hvalid]
      exact ⟨zones, h⟩
  | true =>
      obtain ⟨zones', -, hevent⟩ := h.event_valid os now trace hvalid
      exact ⟨zones', hevent⟩

end Nested

section System

/-- A flush has taken a part of the records and the rest lies in the buffer. -/
def Buffered (records : List Record) (buffer : Bytes) : Prop :=
  ∃ flushed rest, records = flushed ++ rest ∧ buffer = encodeRecords rest

theorem Buffered.or_empty {records : List Record} {buffer buffer' : Bytes}
    (h : Buffered records buffer) (hbuffer : buffer' = buffer ∨ buffer' = []) :
    Buffered records buffer' := by
  rcases hbuffer with rfl | rfl
  · exact h
  · exact ⟨records, [], by simp, rfl⟩

theorem Buffered.append {records : List Record} {buffer : Bytes} (h : Buffered records buffer)
    (new : List Record) : Buffered (records ++ new) (buffer ++ encodeRecords new) := by
  obtain ⟨flushed, rest, rfl, rfl⟩ := h
  exact ⟨flushed, rest ++ new, List.append_assoc _ _ _, (encodeRecords_append _ _).symm⟩

theorem Buffered.performed {os : Os} {trace : TraceImpl} {impl : ThreadImpl} {recorded : Recorded}
    {records : List Record} (h : Buffered records impl.buffer)
    (hperformed : Performed os trace impl recorded) :
    Buffered (records ++ recorded.record.toList) recorded.thread.buffer := by
  obtain ⟨before, after, hbefore, -, hprepared, -, hbuffer, -⟩ := hperformed
  obtain ⟨buffer, hafter, rfl⟩ := hprepared.thread
  rw [hbefore] at hafter
  rw [hbuffer]
  exact (h.or_empty hafter).append _

theorem Buffered.flush {impl : ThreadImpl} {records : List Record}
    (h : Buffered records impl.buffer) (os : Os) (trace : TraceImpl) (flushStream : Bool) :
    Buffered records (flushInternal os trace impl flushStream).2.2.buffer := by
  rcases flushInternal_thread os trace impl flushStream with heq | heq
  · rw [heq]
    exact h
  · rw [heq]
    exact h.or_empty (Or.inr rfl)

/-- What holds of a thread in every state. -/
structure ThreadSound (thread : Thread) : Prop where
  recording : thread.phase = .recording → thread.closing = [] ∧ ∃ zones, Recording thread zones
  closed : thread.phase ≠ .recording → ∃ zones, Nested thread zones ∧
    thread.closing.map (·.type.kind) = List.replicate (zones.filter Prod.snd).length .closing
  buffered : Buffered thread.records thread.impl.buffer

structure Sound (s : State) : Prop where
  bufferSize_le : s.trace.bufferSize ≤ sizeMax
  threads : ∀ thread ∈ s.threads, ThreadSound thread

theorem Sound.set {s : State} (h : Sound s) {i : ℕ} {thread : Thread} {trace : TraceImpl}
    (hsize : trace.bufferSize = s.trace.bufferSize) (hthread : ThreadSound thread) :
    Sound { s with trace := trace, threads := s.threads.set i thread } where
  bufferSize_le := hsize.trans_le h.bufferSize_le
  threads := by
    intro other hother
    rcases List.mem_or_eq_of_mem_set hother with hold | rfl
    · exact h.threads other hold
    · exact hthread

theorem kept_flags {zones : List (ℕ × Bool)} {d k : ℕ}
    (h : zones.map Prod.snd = List.replicate d false ++ List.replicate k true) :
    (zones.filter Prod.snd).length = k := by
  have hcount := congrArg (List.count true) h
  rw [List.count_append, List.count_replicate, List.count_replicate] at hcount
  rw [← List.countP_eq_length_filter]
  simpa [List.count, List.countP_map, Function.comp_def] using hcount

variable {os : Os} {thread : Thread}

theorem ThreadSound.event (h : ThreadSound thread) (hphase : thread.phase = .recording)
    (trace : TraceImpl) (call : EventCall) (now : UInt64) :
    ThreadSound (thread.event os trace call now) where
  recording := by
    obtain ⟨hclosing, zones, hrecording⟩ := h.recording hphase
    exact fun _ => ⟨hclosing, hrecording.event os now trace call⟩
  closed := fun hother => absurd hphase hother
  buffered := by
    obtain ⟨hclosing, -⟩ := h.recording hphase
    have hbuffered := h.buffered
    rw [Thread.records, hclosing, List.append_nil] at hbuffered
    have hperformed := hbuffered.performed (call.performed os now trace thread.impl)
    rw [Thread.records, Thread.event]
    simpa [hclosing, List.map_append, Function.comp_def] using hperformed

theorem ThreadSound.flush (h : ThreadSound thread) (hphase : thread.phase = .recording)
    (trace : TraceImpl) :
    ThreadSound { thread with impl := (flushInternal os trace thread.impl true).2.2 } where
  recording := by
    obtain ⟨hclosing, zones, hrecording⟩ := h.recording hphase
    exact fun _ => ⟨hclosing, zones, ⟨hrecording.pruned, hrecording.faithful⟩,
      hrecording.tracks.flush os trace true⟩
  closed := fun hother => absurd hphase hother
  buffered := h.buffered.flush os trace true

theorem threadFinish_eq (os : Os) (now : ℕ → UInt64) (trace : TraceImpl) {impl : ThreadImpl}
    {zones : List (ℕ × Bool)} {n : ℕ} (h : Tracks impl zones n) :
    ∃ records closed, records.length = impl.reservedEnds ∧
      (∀ record ∈ records, record.type = .endZone ∧ record.name = []) ∧
      closed.buffer = impl.buffer ++ encodeRecords records ∧ closed.threadId = impl.threadId ∧
      (threadFinish os now trace impl).2 = (records, (flushInternal os trace closed true).2) := by
  obtain ⟨records, impl', hloop, hlength, htype, hbuffer, hthreadId⟩ := closeLoop_spec os now trace
    impl.reservedEnds { impl with depth := impl.depth - impl.suppressedDepth, suppressedDepth := 0 }
    h.capacity_le h.room rfl
  refine ⟨records, { impl' with depth := 0 }, hlength, htype, hbuffer, hthreadId, ?_⟩
  rw [threadFinish]
  dsimp only
  rw [hloop]

theorem Thread.finish_eq {trace trace' : TraceImpl} {now : ℕ → UInt64} {records : List Record}
    {impl : ThreadImpl}
    (h : (Trace.threadFinish os now trace thread.impl).2 = (records, trace', impl)) :
    thread.finish os trace now = { thread with
      impl := impl, closing := records, phase := .releasing } := by
  rw [Thread.finish, ← Prod.mk.eta (p := Trace.threadFinish os now trace thread.impl), h]

theorem ThreadSound.finish (h : ThreadSound thread) (hphase : thread.phase = .recording)
    (trace : TraceImpl) (now : ℕ → UInt64) : ThreadSound (thread.finish os trace now) := by
  obtain ⟨hclosing, zones, hrecording⟩ := h.recording hphase
  obtain ⟨records, closed, hlength, htype, hbuffer, -, hfinish⟩ :=
    threadFinish_eq os now trace hrecording.tracks
  rw [Thread.finish_eq hfinish]
  refine ⟨nofun, fun _ => ⟨zones, ⟨hrecording.pruned, hrecording.faithful⟩, ?_⟩, ?_⟩
  · rw [kept_flags hrecording.tracks.flags, ← hlength, List.eq_replicate_iff]
    refine ⟨List.length_map _, fun kind hkind => ?_⟩
    obtain ⟨record, hrecord, rfl⟩ := List.mem_map.1 hkind
    rw [(htype record hrecord).1]
    rfl
  · have hbuffered := h.buffered
    rw [Thread.records, hclosing, List.append_nil] at hbuffered
    have happended := hbuffered.append records
    rw [← hbuffer] at happended
    exact happended.flush os trace true

theorem ThreadSound.release (h : ThreadSound thread) (hphase : thread.phase = .releasing) :
    ThreadSound { thread with phase := .finished } where
  recording := nofun
  closed := by
    obtain ⟨zones, hnested, hclosing⟩ := h.closed (by rw [hphase]; nofun)
    exact fun _ => ⟨zones, ⟨hnested.pruned, hnested.faithful⟩, hclosing⟩
  buffered := h.buffered

theorem ThreadSound.init {impl : ThreadImpl} (hcapacity : impl.capacity ≤ sizeMax)
    (himpl : impl = ⟨[], impl.capacity, 0, 0, 0, impl.threadId, 0, 0⟩) (name : Option Bytes) :
    ThreadSound ⟨impl, name, [], [], [], .recording⟩ where
  recording := by
    rw [himpl]
    refine fun _ => ⟨rfl, [], ⟨.nil, by simp [Faithful]⟩, ⟨rfl, rfl, ?_, hcapacity, rfl⟩⟩
    simp
  closed := nofun
  buffered := by
    rw [himpl]
    exact ⟨[], [], rfl, rfl⟩

theorem threadInit_cases (os : Os) (trace : TraceImpl) (allocated : Bool) (name : Option Bytes) :
    (Trace.threadInit os trace allocated name).2.1.bufferSize = trace.bufferSize ∧
      ∀ impl ∈ (Trace.threadInit os trace allocated name).2.2,
        impl = ⟨[], trace.bufferSize, 0, 0, 0, trace.nextThreadId, 0, 0⟩ := by
  unfold Trace.threadInit
  split_ifs
  · exact ⟨rfl, by simp⟩
  · exact ⟨rfl, by simp⟩
  · cases name with
    | none => exact ⟨rfl, by simp⟩
    | some name =>
        have htouched := touches_writeMetadataLocked os "thread_name" trace.nextThreadId name
          { trace with nextThreadId := trace.nextThreadId + 1 }
        dsimp only
        split
        · next hwrite =>
            rw [hwrite] at htouched
            exact ⟨htouched.bufferSize, by simp⟩
        · next hwrite =>
            rw [hwrite] at htouched
            exact ⟨htouched.bufferSize, by simp⟩

theorem Performed.touched {trace : TraceImpl} {impl : ThreadImpl} {recorded : Recorded}
    (h : Performed os trace impl recorded) : Touched trace recorded.trace := by
  obtain ⟨before, after, -, -, hprepared, -⟩ := h
  exact hprepared.touched

theorem touched_finish (os : Os) (trace : TraceImpl) (hactive : trace.activeThreads = 0) :
    ∃ trace', Touched trace trace' ∧
      (Trace.finish os trace).2 = { trace' with closed := true } := by
  have hwritten := touches_writeLiteral os "\n]\n" trace
  have hflushed := hwritten.trans (touches_sync os _)
  have hclosed := hflushed.trans (touches_sync os _)
  refine ⟨_, hclosed, ?_⟩
  rw [Trace.finish, if_neg (not_not.2 hactive)]

theorem Sound.step {s s' : State} {e : Event} (h : Sound s) (hstep : Step os s e s') :
    Sound s' := by
  cases hstep with
  | threadInit _ allocated name =>
      obtain ⟨hsize, himpl⟩ := threadInit_cases os s.trace allocated name
      rw [State.threadInit]
      split
      · next hinit =>
          rw [hinit] at hsize
          exact ⟨hsize.trans_le h.bufferSize_le, h.threads⟩
      · next impl hinit =>
          rw [hinit] at hsize himpl
          have himpl := himpl impl rfl
          refine ⟨hsize.trans_le h.bufferSize_le, fun thread hthread => ?_⟩
          rcases List.mem_append.1 hthread with hold | hnew
          · exact h.threads thread hold
          · rw [List.mem_singleton.1 hnew]
            exact ThreadSound.init (by rw [himpl]; exact h.bufferSize_le) (by rw [himpl]) name
  | event _ hthread hphase call now =>
      have hsound := h.threads _ (List.mem_of_getElem? hthread)
      exact h.set (call.performed os now s.trace _).touched.bufferSize
        (hsound.event hphase s.trace call now)
  | threadFlush _ hthread hphase =>
      have hsound := h.threads _ (List.mem_of_getElem? hthread)
      exact h.set (touched_flushInternal os s.trace _ true).bufferSize
        (hsound.flush hphase s.trace)
  | threadFinish _ hthread hphase now =>
      have hsound := h.threads _ (List.mem_of_getElem? hthread)
      obtain ⟨-, zones, hrecording⟩ := hsound.recording hphase
      obtain ⟨records, closed, -, -, -, -, hfinish⟩ :=
        threadFinish_eq os now s.trace hrecording.tracks
      refine h.set ?_ (hsound.finish hphase s.trace now)
      rw [hfinish]
      exact (touched_flushInternal os s.trace _ true).bufferSize
  | threadRelease _ hthread hphase =>
      have hsound := h.threads _ (List.mem_of_getElem? hthread)
      refine h.set ?_ (hsound.release hphase)
      unfold Trace.threadRelease
      split_ifs <;> rfl
  | finish =>
      by_cases hactive : s.trace.activeThreads = 0
      · obtain ⟨trace', htouched, hfinish⟩ := touched_finish os s.trace hactive
        refine ⟨?_, h.threads⟩
        rw [State.finish]
        dsimp only
        rw [hfinish]
        exact htouched.bufferSize.trans_le h.bufferSize_le
      · refine ⟨?_, h.threads⟩
        rw [State.finish, Trace.finish, if_pos hactive]
        exact h.bufferSize_le

theorem sound_of_reachable {init : InitOs} {config : Config} {s : State}
    (h : Reachable (system os init config) s) : Sound s := by
  refine h.invariant ?_ fun _ _ _ hs hstep => hs.step hstep
  rintro s ⟨trace, hinit, rfl⟩
  obtain ⟨hsize, -⟩ := initFile_settings hinit
  exact ⟨hsize.trans_le config.capacity_le, by simp⟩

/-- Whatever is called and whichever flushes fail, what a thread has appended is a prefix of a
balanced word, and it is the word of the calls without unmatched ends, some points and some whole
zones: an end is recorded exactly with the begin that it matches. Finishing balances it, and until
then every call is counted. -/
theorem stream_is_pruning {os : Os} {init : InitOs} {config : Config} {s : State}
    (h : Reachable (system os init config) s) {thread : Thread} (hthread : thread ∈ s.threads) :
    Buffered thread.records thread.impl.buffer ∧
    (∃ n, Balanced (thread.stream ++ List.replicate n .closing)) ∧
    IsPruning thread.word thread.kept ∧ Faithful thread.calls thread.log ∧
    (∀ p ∈ (scan thread.kept).pairs, p ∈ (scan (indexed thread.word)).pairs) ∧
    (∀ p ∈ (scan (indexed thread.word)).pairs, (.opening, p.1) ∈ thread.kept →
      p ∈ (scan thread.kept).pairs ∧ (.closing, p.2) ∈ thread.kept) ∧
    (thread.phase = .recording → thread.closing = [] ∧
      thread.impl.recordedEvents + thread.impl.droppedEvents = thread.calls.length) ∧
    (thread.phase ≠ .recording → Balanced thread.stream) := by
  have hsound := (sound_of_reachable h).threads thread hthread
  refine ⟨hsound.buffered, ?_⟩
  by_cases hphase : thread.phase = .recording
  · obtain ⟨hclosing, zones, hrecording⟩ := hsound.recording hphase
    have hmatched := hrecording.pruned.matched
    have hstream : thread.stream = thread.kept.map Prod.fst := by
      rw [Thread.stream_eq, hclosing, List.map_nil, List.append_nil]
    have hunclosed := hrecording.pruned.unclosed
    rw [← hstream] at hunclosed
    exact ⟨⟨_, hunclosed.close⟩, hrecording.pruned.isPruning, hrecording.faithful, hmatched.pairs,
      hmatched.ends, fun _ => ⟨hclosing, hrecording.tracks.counted⟩, fun hother =>
        absurd hphase hother⟩
  · obtain ⟨zones, hnested, hclosing⟩ := hsound.closed hphase
    have hmatched := hnested.pruned.matched
    have hbalanced : Balanced thread.stream := by
      rw [Thread.stream_eq, hclosing]
      exact hnested.pruned.unclosed.close
    refine ⟨⟨0, ?_⟩, hnested.pruned.isPruning, hnested.faithful, hmatched.pairs, hmatched.ends,
      fun hother => absurd hother hphase, fun _ => hbalanced⟩
    rw [List.replicate_zero, List.append_nil]
    exact hbalanced

end System

/-- A system on which nothing fails. -/
def quietOs : Os where
  fault _ := none
  autoName _ := ascii "0x0"

def quietInit : InitOs where
  calloc := true
  clock := true
  openFile := true
  originNs := 1000
  processId := 7

/-- The smallest buffer, from which nothing is flushed when it is full. -/
def dropConfig : Config where
  bufferSize := minBufferSize
  bufferMode := .drop
  processName := none
  bufferSize_le := by decide

/-- A zone whose name does not fit, with an instant in it, and a zone that does, in a trace that
drops what finds no room. -/
theorem stream_is_pruning_dropped :
    ∃ s thread, Reachable (system quietOs quietInit dropConfig) s ∧ thread ∈ s.threads ∧
      thread.word = [.opening, .point, .closing, .opening, .closing] ∧
      thread.kept = [(.opening, 3), (.closing, 4)] ∧ IsPruning thread.word thread.kept := by
  have h₀ : Run (system quietOs quietInit dropConfig) [] _ := .start ⟨_, rfl, rfl⟩
  have h₁ := h₀.step (.threadInit rfl true none)
  have h₂ := h₁.step (.event (i := 0) rfl rfl rfl
    (.beginZone (some (List.replicate 1000 97))) 2000)
  have h₃ := h₂.step (.event (i := 0) rfl rfl rfl (.instant (some [105])) 3000)
  have h₄ := h₃.step (.event (i := 0) rfl rfl rfl .endZone 4000)
  have h₅ := h₄.step (.event (i := 0) rfl rfl rfl (.beginZone (some [97])) 5000)
  have h₆ := h₅.step (.event (i := 0) rfl rfl rfl .endZone 6000)
  exact ⟨_, _, ⟨_, h₆⟩, List.mem_singleton.2 rfl, by decide +kernel, by decide +kernel,
    (stream_is_pruning ⟨_, h₆⟩ (List.mem_singleton.2 rfl)).2.2.1⟩

end Liblor.Trace
