import Liblor.PruningCauses
import Liblor.TraceFile

/-!
# What a trace that flushes loses

When no call of the input and output library fails, a flush always empties the buffer, so that a
record is refused only if it does not fit into an empty one beside the `END` records that are
reserved for the zones open in the recorder.
-/

namespace Liblor.Trace

open NestedZones Transition

/-- Every file operation succeeds. -/
def Os.Faultless (os : Os) : Prop := ∀ n, os.fault n = none

/-- A trace that flushes full buffers, into a file that has not failed and is not closed. -/
structure Live (trace : TraceImpl) : Prop where
  mode : trace.bufferMode = .flush
  failed : trace.failed = false
  closed : trace.closed = false

theorem Live.touched {trace trace' : TraceImpl} (h : Live trace) (htouched : Touched trace trace')
    (hfailed : trace'.failed = false) : Live trace' := by
  obtain ⟨-, hmode, hclosed⟩ := htouched.settings
  exact ⟨hmode.trans h.mode, hfailed, hclosed.trans h.closed⟩

/-- The buffer consists of records whose names have a length that fits into a header. -/
def Encoded (buffer : Bytes) : Prop :=
  ∃ records, buffer = encodeRecords records ∧ ∀ record ∈ records, record.name.length ≤ uint32Max

theorem Encoded.append {buffer : Bytes} (h : Encoded buffer) {new : List Record}
    (hnames : ∀ record ∈ new, record.name.length ≤ uint32Max) :
    Encoded (buffer ++ encodeRecords new) := by
  obtain ⟨records, rfl, hold⟩ := h
  exact ⟨records ++ new, (encodeRecords_append _ _).symm, List.forall_mem_append.2 ⟨hold, hnames⟩⟩

section Flush

variable {os : Os} {trace : TraceImpl} {impl : ThreadImpl}

/-- A writer succeeds and does not mark the trace as failed. -/
theorem sequential_succeeds (h : os.Faultless) :
    Sequential os fun trace result => result.1 = true ∧ result.2.failed = trace.failed where
  output := by
    intro data trace
    rw [output, h]
    exact ⟨rfl, rfl⟩
  pass := fun _ => ⟨rfl, rfl⟩
  first := fun _ => ⟨rfl, rfl⟩
  trans := fun hfirst hrest => ⟨hrest.1, hrest.2.trans hfirst.2⟩

theorem flushLoop_failed (h : os.Faultless) {records : List Record}
    (hnames : ∀ record ∈ records, record.name.length ≤ uint32Max) (threadId fuel : ℕ)
    (trace : TraceImpl) :
    (flushLoop os threadId fuel (encodeRecords records) trace).failed = trace.failed := by
  induction records generalizing fuel trace with
  | nil =>
      cases fuel with
      | zero => rfl
      | succ fuel => rfl
  | cons record records ih =>
      cases fuel with
      | zero => rfl
      | succ fuel =>
          have hrecord := (sequential_succeeds h).writeRecordLocked threadId record.header
            record.name (Or.inl ⟨record.type, rfl⟩) trace
          rcases hwrite : writeRecordLocked os threadId record.header record.name trace with
            ⟨ok, trace'⟩
          rw [hwrite] at hrecord
          obtain ⟨hok, hfailed⟩ := hrecord
          rw [flushLoop_cons fuel records (hnames record List.mem_cons_self) hwrite, if_pos hok, ih,
            hfailed]
          exact fun record' hmem => hnames record' (List.mem_cons_of_mem _ hmem)

theorem sync_succeeds (h : os.Faultless) (trace : TraceImpl) :
    sync os trace = (true, (sync os trace).2) := by
  rw [sync, h]
  rfl

theorem flushStreamLocked_failed (h : os.Faultless) (flushStream : Bool) (trace : TraceImpl) :
    (flushStreamLocked os flushStream trace).failed = trace.failed := by
  unfold flushStreamLocked
  split_ifs
  · rw [sync_succeeds h]
    rfl
  · rfl

theorem flushInternal_live (h : os.Faultless) (hlive : Live trace) (hbuffer : Encoded impl.buffer)
    (flushStream : Bool) : ∃ trace', Live trace' ∧
      flushInternal os trace impl flushStream = (.ok, trace', { impl with buffer := [] }) := by
  obtain ⟨records, hrecords, hnames⟩ := hbuffer
  have hopen : ¬ (trace.closed ∨ trace.failed) := by
    rw [hlive.closed, hlive.failed]
    simp
  have htouched := touched_flushInternal os trace impl flushStream
  unfold flushInternal at htouched ⊢
  by_cases hempty : impl.buffer.length = 0
  · have hsame : impl = { impl with buffer := [] } := by
      rw [← List.length_eq_zero_iff.1 hempty]
    rw [if_pos hempty] at htouched ⊢
    cases flushStream with
    | false => exact ⟨trace, hlive, congrArg (fun thread => (Status.ok, trace, thread)) hsame⟩
    | true =>
        rw [if_neg (by simp), if_neg hopen, sync_succeeds h] at htouched ⊢
        exact ⟨_, hlive.touched htouched hlive.failed,
          congrArg (fun thread => (Status.ok, (sync os trace).2, thread)) hsame⟩
  · rw [if_neg hempty, if_neg hopen] at htouched ⊢
    have hfailed : (flushStreamLocked os flushStream
        (flushLoop os impl.threadId impl.buffer.length impl.buffer trace)).failed = false := by
      rw [flushStreamLocked_failed h, hrecords, flushLoop_failed h hnames, hlive.failed]
    dsimp only at htouched ⊢
    rw [hfailed] at htouched ⊢
    exact ⟨_, hlive.touched htouched hfailed, rfl⟩

theorem Prepared.live {trace' : TraceImpl} {impl' : ThreadImpl} (h : os.Faultless)
    (hlive : Live trace) (hbuffer : Encoded impl.buffer)
    (hprepared : Prepared os trace impl trace' impl') : Live trace' := by
  rcases hprepared with heq | heq
  · cases heq
    exact hlive
  · obtain ⟨flushed, hflushed, hflush⟩ := flushInternal_live h hlive hbuffer false
    rw [hflush] at heq
    cases heq
    exact hflushed

theorem Performed.live {recorded : Recorded} (h : os.Faultless) (hlive : Live trace)
    (hbuffer : Encoded impl.buffer) (hperformed : Performed os trace impl recorded) :
    Live recorded.trace := by
  obtain ⟨before, after, hbefore, -, hprepared, -⟩ := hperformed
  rw [← hbefore] at hbuffer
  exact hprepared.live h hlive hbuffer

end Flush

section Append

variable {os : Os} {trace : TraceImpl} {impl : ThreadImpl}

/-- A record is refused exactly if its name is too long, or if it does not fit into an empty buffer
beside the reserved ends. -/
theorem append_refuses (h : os.Faultless) (hlive : Live trace) (hbuffer : Encoded impl.buffer)
    (hcapacity : impl.capacity ≤ sizeMax) (now : UInt64) (type : RecordType) (name : Bytes)
    (value : UInt64) (reservedEndsAfter : ℕ) :
    (append os now trace impl type name value reservedEndsAfter).record = none ↔
      uint32Max < name.length ∨
        impl.capacity < headerSize + name.length + headerSize * reservedEndsAfter := by
  constructor
  · intro hnone
    by_contra hfits
    push Not at hfits
    obtain ⟨hname, hroom⟩ := hfits
    have hshort : ¬ (name.length > uint32Max ∨ name.length > sizeMax - headerSize) := by
      have huint : uint32Max ≤ sizeMax - headerSize := by decide
      omega
    have hensure : (ensureSpace os trace impl (headerSize + name.length) reservedEndsAfter).1 =
        true := by
      unfold ensureSpace
      split_ifs with hspace hmode
      · rfl
      · exact absurd hlive.mode hmode
      · obtain ⟨flushed, -, hflush⟩ := flushInternal_live h hlive hbuffer false
        rw [hflush]
        change spaceAvailable { impl with buffer := [] } _ _ = true
        refine spaceAvailable_of_le ?_ ?_
        · exact hcapacity
        · simpa using hroom
    rw [append, if_neg hshort] at hnone
    rcases hresult : ensureSpace os trace impl (headerSize + name.length) reservedEndsAfter with
      ⟨ok, trace', impl'⟩
    rw [hresult] at hensure hnone
    dsimp only at hensure
    rw [hensure] at hnone
    cases hnone
  · intro hunfit
    obtain ⟨trace', impl', hprepared, hnone | ⟨hname, hfits, -⟩⟩ :=
      append_cases os now trace impl type name value reservedEndsAfter
    · rw [hnone]
    · obtain ⟨buffer, -, rfl⟩ := hprepared.thread
      simp only at hfits
      omega

end Append

/-- The bytes of the name that a call records. -/
def EventCall.nameSize (call : EventCall) : ℕ :=
  match call.payload with
  | some (_, name, _) => name.length
  | none => 0

/-- The bytes that a call needs for itself: for its record, and if it begins a zone, for the `END`
record of the zone. -/
def EventCall.ownSize (call : EventCall) : ℕ :=
  headerSize + call.nameSize + if call.kind = .opening then headerSize else 0

/-- A begin, an instant or a counter whose name is longer than a header can say, or which does not
fit into an empty buffer that keeps room for the ends of `n` other zones. -/
def EventCall.Oversized (capacity n : ℕ) (call : EventCall) : Prop :=
  call.kind ≠ .closing ∧
    (uint32Max < call.nameSize ∨ capacity < call.ownSize + headerSize * n)

section Drop

variable {os : Os} {trace : TraceImpl} {impl : ThreadImpl} {zones : List (ℕ × Bool)} {n : ℕ}

theorem Tracks.suppressed_iff (h : Tracks impl zones n) :
    impl.suppressedDepth ≠ 0 ↔ ¬ ∀ z ∈ zones, z.2 := by
  rw [not_iff_not]
  refine ⟨h.all_kept, fun hzones => ?_⟩
  by_contra hne
  have hflag : false ∈ zones.map Prod.snd := by
    rw [h.flags]
    exact List.mem_append_left _ (List.mem_replicate.2 ⟨hne, rfl⟩)
  obtain ⟨z, hz, hfalse⟩ := List.mem_map.1 hflag
  rw [hzones z hz] at hfalse
  cases hfalse

theorem Tracks.beginValue_drops (h : os.Faultless) (hlive : Live trace)
    (hbuffer : Encoded impl.buffer) (htracks : Tracks impl zones n) (now : UInt64)
    (type : RecordType) (name : Bytes) (value : UInt64) :
    (Trace.beginValue os now trace impl type name value).record = none ↔ impl.suppressedDepth ≠ 0 ∨
      uint32Max < name.length ∨
      impl.capacity < headerSize + name.length + headerSize * (impl.reservedEnds + 1) := by
  have hrefuses : (append os now trace { impl with depth := impl.depth + 1 } type name value
      (impl.reservedEnds + 1)).record = none ↔ uint32Max < name.length ∨
        impl.capacity < headerSize + name.length + headerSize * (impl.reservedEnds + 1) := by
    apply append_refuses h hlive
    · exact hbuffer
    · exact htracks.capacity_le
  unfold Trace.beginValue
  dsimp only
  split_ifs with hsuppressed hfull
  · exact iff_of_true rfl (Or.inl hsuppressed)
  · have hroom := htracks.room
    have hcapacity := htracks.capacity_le
    rw [hfull] at hroom
    simp only [headerSize, sizeMax] at hroom hcapacity
    omega
  · rw [or_iff_right hsuppressed, ← hrefuses]
    split
    · next hrecorded => rw [hrecorded]
    · next hrecorded => rw [hrecorded]

theorem Tracks.pointValue_drops (h : os.Faultless) (hlive : Live trace)
    (hbuffer : Encoded impl.buffer) (htracks : Tracks impl zones n) (now : UInt64)
    (type : RecordType) (name : Bytes) (value : UInt64) :
    (Trace.pointValue os now trace impl type name value).record = none ↔ impl.suppressedDepth ≠ 0 ∨
      uint32Max < name.length ∨
      impl.capacity < headerSize + name.length + headerSize * impl.reservedEnds := by
  have hrefuses := append_refuses h hlive hbuffer htracks.capacity_le now type name value
    impl.reservedEnds
  unfold Trace.pointValue
  split_ifs with hsuppressed
  · exact iff_of_true rfl (Or.inl hsuppressed)
  · rw [or_iff_right hsuppressed, ← hrefuses]
    split
    · next hrecorded => rw [hrecorded]
    · next hrecorded => rw [hrecorded]

/-- A begin, an instant or a counter is left out exactly if it does not fit or lies in a zone that
is left out. -/
theorem Tracks.drops_iff (h : os.Faultless) (hlive : Live trace) (hbuffer : Encoded impl.buffer)
    (htracks : Tracks impl zones n) (now : UInt64) {call : EventCall} (hvalid : call.isValid)
    (hkind : call.kind ≠ .closing) :
    (call.perform os now trace impl).record = none ↔
      call.Oversized impl.capacity (zones.filter Prod.snd).length ∨ ¬ ∀ z ∈ zones, z.2 := by
  rw [← htracks.suppressed_iff, kept_flags htracks.flags, or_comm, EventCall.Oversized,
    and_iff_right hkind]
  have hbegin (type : RecordType) (name : Bytes) (value : UInt64) :=
    htracks.beginValue_drops h hlive hbuffer now type name value
  have hpoint (type : RecordType) (name : Bytes) (value : UInt64) :=
    htracks.pointValue_drops h hlive hbuffer now type name value
  have hsize (name : Bytes) : headerSize + name.length + headerSize * (impl.reservedEnds + 1) =
      headerSize + name.length + headerSize + headerSize * impl.reservedEnds := by
    rw [Nat.mul_add, Nat.mul_one]
    omega
  cases call with
  | beginZone name => cases name with
    | none => cases hvalid
    | some name =>
        rw [EventCall.perform, hbegin, hsize]
        rfl
  | endZone => exact absurd rfl hkind
  | instant name => cases name with
    | none => cases hvalid
    | some name =>
        rw [EventCall.perform, hpoint]
        rfl
  | counter name value => cases name with
    | none => cases hvalid
    | some name =>
        rw [EventCall.perform, hpoint]
        rfl
  | enterFunction address =>
      rw [EventCall.perform, hbegin, hsize]
      rfl

end Drop

/-- Call `i` of the thread does not fit while `n` zones are open. -/
def Thread.Unfit (capacity : ℕ) (thread : Thread) (i n : ℕ) : Prop :=
  ∃ call, thread.calls[i]? = some call ∧ call.Oversized capacity n

/-- A thread that is recording and has recorded every call that has no cause to be left out. -/
structure Accounted (capacity : ℕ) (thread : Thread) (zones : List (ℕ × Bool)) : Prop extends
    Recording thread zones where
  caused : Caused (thread.Unfit capacity) zones thread.word thread.kept
  capacity_eq : thread.impl.capacity = capacity
  recorded : thread.impl.recordedEvents = thread.log.length

section Account

variable {os : Os} {trace : TraceImpl} {thread : Thread} {zones : List (ℕ × Bool)} {capacity : ℕ}
  {call : EventCall} {now : UInt64}

theorem Thread.event_word (hvalid : call.isValid) :
    (thread.event os trace call now).word = thread.word ++ [call.kind] := by
  rw [Thread.word, Thread.event, if_pos hvalid]
  simp [Thread.word]

theorem Thread.event_keeps {zones' : List (ℕ × Bool)} (hvalid : call.isValid)
    (h : Recording (thread.event os trace call now) zones') :
    (thread.event os trace call now).kept =
      keepIf (call.perform os now trace thread.impl).record.isSome thread.kept
        (call.kind, thread.word.length) := by
  have hsublist := h.pruned.matched.sublist
  rw [Thread.event_word hvalid] at hsublist
  cases hrecord : (call.perform os now trace thread.impl).record with
  | none =>
      rw [Thread.event_dropped hvalid hrecord]
      rfl
  | some record =>
      have hkept : (thread.event os trace call now).kept =
          thread.kept ++ [(record.type.kind, thread.word.length)] := by
        rw [Thread.event_kept hvalid hrecord, Thread.kept, Thread.word, List.map_append,
          List.length_map]
        rfl
      rw [hkept] at hsublist ⊢
      have hlast := mem_indexed.1 (hsublist.subset (List.mem_append_right _ List.mem_cons_self))
      rw [List.getElem?_concat_length] at hlast
      rw [← Option.some.inj hlast]
      rfl

theorem Thread.unfit_event (hvalid : call.isValid) {i : ℕ} (hi : i < thread.word.length) (n : ℕ) :
    (thread.event os trace call now).Unfit capacity i n ↔ thread.Unfit capacity i n := by
  rw [Thread.word, List.length_map] at hi
  rw [Thread.Unfit, Thread.Unfit, Thread.event, if_pos hvalid]
  dsimp only
  rw [List.getElem?_append_left hi]

theorem Thread.unfit_last (hvalid : call.isValid) (n : ℕ) :
    (thread.event os trace call now).Unfit capacity thread.word.length n ↔
      call.Oversized capacity n := by
  rw [Thread.Unfit, Thread.event, if_pos hvalid, Thread.word, List.length_map]
  dsimp only
  rw [List.getElem?_concat_length]
  simp

theorem Accounted.event (hos : os.Faultless) (hlive : Live trace)
    (h : Accounted capacity thread zones)
    (hbuffer : Encoded thread.impl.buffer) (call : EventCall) (now : UInt64) :
    ∃ zones', Accounted capacity (thread.event os trace call now) zones' := by
  cases hvalid : call.isValid with
  | false =>
      rw [Thread.event_ignored os now trace hvalid]
      exact ⟨zones, h⟩
  | true =>
      obtain ⟨zones', hstep, hrecording⟩ := h.event_valid os now trace hvalid
      obtain ⟨hcapacity, hcounted⟩ := call.counts os now trace thread.impl
      refine ⟨zones', hrecording, ?_, hcapacity.trans h.capacity_eq, ?_⟩
      · rw [Thread.event_word hvalid, Thread.event_keeps hvalid hrecording]
        apply h.caused.step h.pruned.matched hstep
        · exact fun j hj n => Thread.unfit_event hvalid hj n
        · intro hkind
          rw [Option.isSome_eq_false_iff, Option.isNone_iff_eq_none, Thread.unfit_last hvalid,
            h.tracks.drops_iff hos hlive hbuffer now hvalid hkind, h.capacity_eq]
        · intro hkind n hunfit
          exact ((Thread.unfit_last hvalid n).1 hunfit).1 hkind
      · rw [Thread.event]
        simp only [List.length_append, List.length_map]
        rw [hcounted, h.recorded]

theorem Accounted.flush (h : Accounted capacity thread zones) (os : Os) (trace : TraceImpl) :
    Accounted capacity
      { thread with impl := (flushInternal os trace thread.impl true).2.2 } zones := by
  have hrecording : Recording
      { thread with impl := (flushInternal os trace thread.impl true).2.2 } zones :=
    ⟨⟨h.pruned, h.faithful⟩, h.tracks.flush os trace true⟩
  refine ⟨hrecording, h.caused, ?_, ?_⟩
  · rcases flushInternal_thread os trace thread.impl true with heq | heq
    · simpa only [heq] using h.capacity_eq
    · simpa only [heq] using h.capacity_eq
  · rcases flushInternal_thread os trace thread.impl true with heq | heq
    · simpa only [heq] using h.recorded
    · simpa only [heq] using h.recorded

end Account

/-- What holds of a thread of a trace that flushes. -/
structure ThreadAccounted (capacity : ℕ) (thread : Thread) : Prop where
  recording : thread.phase = .recording → ∃ zones, Accounted capacity thread zones
  caused : ∃ zones, Caused (thread.Unfit capacity) zones thread.word thread.kept

/-- What holds in every state of such a trace. -/
structure FlushSound (capacity : ℕ) (s : State) : Prop where
  bufferSize : s.trace.bufferSize = capacity
  live : s.result = none → Live s.trace
  threads : ∀ thread ∈ s.threads, ThreadAccounted capacity thread

section System

variable {os : Os} {s s' : State} {capacity processId : ℕ} {processName : Option Bytes}

theorem Accounted.accounted {thread : Thread} {zones : List (ℕ × Bool)}
    (h : Accounted capacity thread zones) : ThreadAccounted capacity thread :=
  ⟨fun _ => ⟨zones, h⟩, zones, h.caused⟩

theorem FlushSound.set {i : ℕ} {thread : Thread} {trace : TraceImpl} (h : FlushSound capacity s)
    (hsize : trace.bufferSize = s.trace.bufferSize) (hlive : s.result = none → Live trace)
    (hthread : ThreadAccounted capacity thread) :
    FlushSound capacity { s with trace := trace, threads := s.threads.set i thread } where
  bufferSize := hsize.trans h.bufferSize
  live := hlive
  threads := by
    intro other hother
    rcases List.mem_or_eq_of_mem_set hother with hold | rfl
    · exact h.threads other hold
    · exact hthread

theorem FileSound.encoded (h : FileSound os processId processName s) (hresult : s.result = none)
    (hfailed : s.trace.failed = false) {i : ℕ} {thread : Thread}
    (hthread : s.threads[i]? = some thread) : Encoded thread.impl.buffer := by
  obtain ⟨items, hitems⟩ := h.consistent hresult hfailed
  obtain ⟨flushed, rest, -, hbuffer, hnames, -⟩ := hitems.split i thread hthread
  exact ⟨rest, hbuffer, hnames⟩

theorem initFile_not_failed (hos : os.Faultless) {init : InitOs} {config : Config}
    {trace : TraceImpl} (h : initFile os init config = (.ok, some trace)) :
    trace.failed = false := by
  obtain ⟨fresh, first, hfresh, hfirst, hlast⟩ := initFile_ok h
  have hsequential := sequential_succeeds hos
  obtain ⟨-, hfailed⟩ := hsequential.writeLiteral "[\n" fresh
  rw [hfirst, hfresh.failed] at hfailed
  rcases hlast with ⟨-, rfl⟩ | ⟨name, -, hwrite⟩
  · exact hfailed
  · obtain ⟨-, hfailed'⟩ := hsequential.writeMetadataLocked "process_name" 0 name first
    rw [hwrite] at hfailed'
    exact hfailed'.trans hfailed

theorem threadInit_live (hos : os.Faultless) {trace : TraceImpl} (hlive : Live trace)
    (allocated : Bool) (name : Option Bytes) :
    Live (Trace.threadInit os trace allocated name).2.1 := by
  unfold Trace.threadInit
  split_ifs
  · exact hlive
  · exact hlive
  · cases name with
    | none => exact ⟨hlive.mode, hlive.failed, hlive.closed⟩
    | some name =>
        have hbegin : Live { trace with nextThreadId := trace.nextThreadId + 1 } :=
          ⟨hlive.mode, hlive.failed, hlive.closed⟩
        obtain ⟨-, hfailed⟩ := (sequential_succeeds hos).writeMetadataLocked "thread_name"
          trace.nextThreadId name { trace with nextThreadId := trace.nextThreadId + 1 }
        have hnext := hbegin.touched
          (touches_writeMetadataLocked os "thread_name" trace.nextThreadId name _)
          (hfailed.trans hlive.failed)
        dsimp only
        split
        · next hwrite =>
            rw [hwrite] at hnext
            exact hnext
        · next hwrite =>
            rw [hwrite] at hnext
            exact ⟨hnext.mode, hnext.failed, hnext.closed⟩

theorem ThreadAccounted.init {impl : ThreadImpl} (hcapacity : impl.capacity = capacity)
    (himpl : impl = ⟨[], impl.capacity, 0, 0, 0, impl.threadId, 0, 0⟩)
    (hsize : capacity ≤ sizeMax) (name : Option Bytes) :
    ThreadAccounted capacity ⟨impl, name, [], [], [], .recording⟩ := by
  have hrecording : Recording ⟨impl, name, [], [], [], .recording⟩ [] := by
    rw [himpl]
    refine ⟨⟨.nil, by simp [Faithful]⟩, rfl, rfl, ?_, ?_, rfl⟩
    · simp
    · exact hcapacity.trans_le hsize
  have haccounted : Accounted capacity ⟨impl, name, [], [], [], .recording⟩ [] := by
    refine ⟨hrecording, caused_nil, hcapacity, ?_⟩
    rw [himpl]
    rfl
  exact haccounted.accounted

theorem FlushSound.threadInit (h : FlushSound capacity s) (hos : os.Faultless)
    (hcapacity : capacity ≤ sizeMax) (hopen : s.result = none) (allocated : Bool)
    (name : Option Bytes) : FlushSound capacity (s.threadInit os allocated name) := by
  obtain ⟨hsize, himpl⟩ := threadInit_cases os s.trace allocated name
  have hlive := threadInit_live hos (h.live hopen) allocated name
  rw [State.threadInit]
  split
  · next hinit =>
      rw [hinit] at hsize hlive
      exact ⟨hsize.trans h.bufferSize, fun _ => hlive, h.threads⟩
  · next impl hinit =>
      rw [hinit] at hsize hlive himpl
      have himpl := himpl impl rfl
      refine ⟨hsize.trans h.bufferSize, fun _ => hlive, fun thread hthread => ?_⟩
      rcases List.mem_append.1 hthread with hold | hnew
      · exact h.threads thread hold
      · rw [List.mem_singleton.1 hnew]
        apply ThreadAccounted.init
        · rw [himpl]
          exact h.bufferSize
        · rw [himpl]
        · exact hcapacity

theorem FlushSound.threadFinish {i : ℕ} {thread : Thread} (h : FlushSound capacity s)
    (hos : os.Faultless) (hlive : Live s.trace) (hbuffer : Encoded thread.impl.buffer)
    (hthread : s.threads[i]? = some thread) (hphase : thread.phase = .recording)
    (now : ℕ → UInt64) : FlushSound capacity (s.threadFinish os i thread now) := by
  obtain ⟨zones, haccounted⟩ := (h.threads _ (List.mem_of_getElem? hthread)).recording hphase
  obtain ⟨ends, closed, -, htype, hclosed, -, hfinish⟩ :=
    threadFinish_eq os now s.trace haccounted.tracks
  have hencoded : Encoded closed.buffer := by
    rw [hclosed]
    apply hbuffer.append
    intro record hmem
    rw [(htype record hmem).2]
    exact Nat.zero_le _
  obtain ⟨trace', hlive', hflush⟩ := flushInternal_live hos hlive hencoded true
  refine h.set ?_ (fun _ => ?_) ?_
  · rw [hfinish]
    exact (touched_flushInternal os s.trace closed true).bufferSize
  · rw [hfinish, hflush]
    exact hlive'
  · rw [Thread.finish_eq hfinish]
    refine ⟨fun hphase' => ?_, zones, haccounted.caused⟩
    cases hphase'

theorem FlushSound.step {e : Event} (hos : os.Faultless) (hcapacity : capacity ≤ sizeMax)
    (hfile : FileSound os processId processName s) (h : FlushSound capacity s)
    (hstep : Step os s e s') : FlushSound capacity s' := by
  cases hstep with
  | threadInit hopen allocated name => exact h.threadInit hos hcapacity hopen allocated name
  | @event i thread hopen hthread hphase call now =>
      have hlive := h.live hopen
      have hbuffer := hfile.encoded hopen hlive.failed hthread
      have hperformed := call.performed os now s.trace thread.impl
      obtain ⟨zones, haccounted⟩ :=
        (h.threads _ (List.mem_of_getElem? hthread)).recording hphase
      obtain ⟨zones', hnext⟩ := haccounted.event hos hlive hbuffer call now
      exact h.set hperformed.touched.bufferSize (fun _ => hperformed.live hos hlive hbuffer)
        hnext.accounted
  | @threadFlush i thread hopen hthread hphase =>
      have hlive := h.live hopen
      have hbuffer := hfile.encoded hopen hlive.failed hthread
      obtain ⟨zones, haccounted⟩ :=
        (h.threads _ (List.mem_of_getElem? hthread)).recording hphase
      obtain ⟨trace', hlive', hflush⟩ := flushInternal_live hos hlive hbuffer true
      have hflushed : Live (flushInternal os s.trace thread.impl true).2.1 := by
        rw [hflush]
        exact hlive'
      exact h.set (touched_flushInternal os s.trace thread.impl true).bufferSize
        (fun _ => hflushed) (haccounted.flush os s.trace).accounted
  | threadFinish hopen hthread hphase now =>
      have hlive := h.live hopen
      have hbuffer := hfile.encoded hopen hlive.failed hthread
      exact h.threadFinish hos hlive hbuffer hthread hphase now
  | threadRelease hopen hthread hphase =>
      have hlive := h.live hopen
      obtain ⟨zones, hcaused⟩ := (h.threads _ (List.mem_of_getElem? hthread)).caused
      refine h.set ?_ (fun _ => ?_) ⟨fun hphase' => ?_, zones, hcaused⟩
      · unfold Trace.threadRelease
        split_ifs <;> rfl
      · unfold Trace.threadRelease
        split_ifs
        · exact ⟨hlive.mode, hlive.failed, hlive.closed⟩
        · exact hlive
      · cases hphase'
  | finish hopen =>
      by_cases hactive : s.trace.activeThreads = 0
      · obtain ⟨trace', htouched, hfinish⟩ := touched_finish os s.trace hactive
        rw [State.finish]
        dsimp only
        rw [hfinish]
        refine ⟨htouched.bufferSize.trans h.bufferSize, fun hresult => ?_, h.threads⟩
        cases hresult
      · rw [State.finish, Trace.finish, if_pos hactive]
        exact ⟨h.bufferSize, fun _ => h.live hopen, h.threads⟩

theorem flushSound_of_reachable {init : InitOs} {config : Config} (hos : os.Faultless)
    (hmode : config.bufferMode = .flush) (h : Reachable (system os init config) s) :
    FlushSound config.capacity s := by
  refine (h.invariant (P := fun s => FileSound os init.processId config.processName s ∧
    FlushSound config.capacity s) ?_ ?_).2
  · rintro s ⟨trace, hinit, rfl⟩
    obtain ⟨hsize, hmode', hclosed⟩ := initFile_settings hinit
    have hfailed := initFile_not_failed hos hinit
    exact ⟨FileSound.start hinit, hsize, fun _ => ⟨hmode'.trans hmode, hfailed, hclosed⟩, by simp⟩
  · intro s e s' hs hstep
    exact ⟨hs.1.step hstep, hs.2.step hos config.capacity_le hs.1 hstep⟩

end System

/-- The calls with valid arguments that have not been recorded. -/
def Thread.dropped (thread : Thread) : List ℕ :=
  (List.range thread.calls.length).filter fun i => i ∉ thread.log.map Prod.fst

section Dropped

variable {thread : Thread} {zones : List (ℕ × Bool)} {capacity i : ℕ}

theorem mem_dropped (hi : i < thread.calls.length) :
    i ∈ thread.dropped ↔ ∀ kind, (kind, i) ∉ thread.kept := by
  rw [Thread.dropped, List.mem_filter, List.mem_range, and_iff_right hi, decide_eq_true_iff]
  constructor
  · intro hnot kind hmem
    obtain ⟨e, he, heq⟩ := List.mem_map.1 hmem
    cases heq
    exact hnot (List.mem_map_of_mem he)
  · intro hnot hmem
    obtain ⟨e, he, rfl⟩ := List.mem_map.1 hmem
    exact hnot _ (List.mem_map_of_mem he)

/-- Every call is recorded or dropped. -/
theorem Recording.length_dropped (h : Recording thread zones) :
    thread.log.length + thread.dropped.length = thread.calls.length := by
  have hsublist : (thread.log.map Prod.fst).Sublist (List.range thread.calls.length) := by
    have hindices := h.pruned.matched.sublist.map Prod.snd
    rw [Thread.kept, List.map_map, indexed, List.zipIdx_map_snd, Thread.word, List.length_map,
      ← List.range_eq_range'] at hindices
    exact hindices
  have hdropped : (List.range thread.calls.length).diff (thread.log.map Prod.fst) =
      thread.dropped := List.nodup_range.sdiff_eq_filter
  have hperm := List.subperm_append_diff_self_of_count_le fun i _ => hsublist.count_le i
  have hlength := hperm.length_eq
  rw [hdropped, List.length_append, List.length_map, List.length_range] at hlength
  exact hlength

end Dropped

theorem ThreadAccounted.mem_dropped_iff {capacity i : ℕ} {thread : Thread} {call : EventCall}
    (h : ThreadAccounted capacity thread) (hcall : thread.calls[i]? = some call) :
    i ∈ thread.dropped ↔ i ∈ (scan (indexed thread.word)).strays ∨
      call.Oversized capacity (openAt thread.kept i) ∨
      ∃ b opening, thread.calls[b]? = some opening ∧
        opening.Oversized capacity (openAt thread.kept b) ∧ InZone thread.word b i := by
  have hi := (List.getElem?_eq_some_iff.1 hcall).1
  obtain ⟨zones, hcaused⟩ := h.caused
  have hword : i < thread.word.length := by
    rw [Thread.word, List.length_map]
    exact hi
  have hunfit (n : ℕ) : thread.Unfit capacity i n ↔ call.Oversized capacity n := by
    rw [Thread.Unfit, hcall]
    simp
  rw [mem_dropped hi, hcaused.causes i hword, Lost, hunfit]
  refine or_congr_right (or_congr_right (exists_congr fun b => ?_))
  constructor
  · rintro ⟨⟨opening, hopening, hover⟩, hin⟩
    exact ⟨opening, hopening, hover, hin⟩
  · rintro ⟨opening, hopening, hover, hin⟩
    exact ⟨⟨opening, hopening, hover⟩, hin⟩

/-- In a trace that flushes, a call is dropped exactly if it is an end without an open zone, if it
does not fit into an empty buffer beside the ends of the zones that are recorded and open, or if it
lies in a zone whose begin does not fit. -/
theorem dropped_iff_oversized {os : Os} (hos : os.Faultless) {init : InitOs} {config : Config}
    (hmode : config.bufferMode = .flush) {s : State} (h : Reachable (system os init config) s)
    {thread : Thread} (hthread : thread ∈ s.threads) :
    (thread.phase = .recording → thread.impl.droppedEvents = thread.dropped.length) ∧
    ∀ i call, thread.calls[i]? = some call → (i ∈ thread.dropped ↔
      i ∈ (scan (indexed thread.word)).strays ∨
      call.Oversized config.capacity (openAt thread.kept i) ∨
      ∃ b opening, thread.calls[b]? = some opening ∧
        opening.Oversized config.capacity (openAt thread.kept b) ∧ InZone thread.word b i) := by
  have haccounted := (flushSound_of_reachable hos hmode h).threads thread hthread
  constructor
  · intro hphase
    obtain ⟨zones, hzones⟩ := haccounted.recording hphase
    have hcounted := hzones.tracks.counted
    have hlength := hzones.length_dropped
    have hrecorded := hzones.recorded
    omega
  · exact fun i call hcall => haccounted.mem_dropped_iff hcall

theorem minBufferSize_le : minBufferSize ≤ sizeMax := by decide

/-- The smallest buffer, which is flushed when it is full. -/
def smallFlushConfig : Config where
  bufferSize := minBufferSize
  bufferMode := .flush
  processName := none
  bufferSize_le := minBufferSize_le

/-- A zone that does not fit, with an instant in it, and an end that closes nothing. -/
theorem dropped_iff_oversized_zone :
    ∃ s thread, Reachable (system quietOs quietInit smallFlushConfig) s ∧ thread ∈ s.threads ∧
      thread.calls = [.beginZone (some (List.replicate 1000 97)), .instant (some [105]), .endZone,
        .endZone] ∧ thread.impl.droppedEvents = 4 ∧ thread.dropped.length = 4 ∧
      (3 ∈ (scan (indexed thread.word)).strays ∨
        EventCall.endZone.Oversized smallFlushConfig.capacity (openAt thread.kept 3) ∨
        ∃ b opening, thread.calls[b]? = some opening ∧
          opening.Oversized smallFlushConfig.capacity (openAt thread.kept b) ∧
          InZone thread.word b 3) := by
  have h₀ : Run (system quietOs quietInit smallFlushConfig) [] _ := .start ⟨_, rfl, rfl⟩
  have h₁ := h₀.step (.threadInit rfl true none)
  have h₂ := h₁.step (.event (i := 0) rfl rfl rfl
    (.beginZone (some (List.replicate 1000 97))) 2000)
  have h₃ := h₂.step (.event (i := 0) rfl rfl rfl (.instant (some [105])) 3000)
  have h₄ := h₃.step (.event (i := 0) rfl rfl rfl .endZone 4000)
  have h₅ := h₄.step (.event (i := 0) rfl rfl rfl .endZone 5000)
  obtain ⟨hcount, hdropped⟩ := dropped_iff_oversized (fun _ => rfl) rfl ⟨_, h₅⟩
    (List.mem_singleton.2 rfl)
  have hfour : _ = 4 := (hcount rfl).symm.trans (by decide +kernel)
  exact ⟨_, _, ⟨_, h₅⟩, List.mem_singleton.2 rfl, rfl, by decide +kernel, hfour,
    (hdropped 3 .endZone rfl).1 (by decide +kernel)⟩

/-- An instant that fits into the buffer by itself is dropped in a zone that is recorded, since the
buffer keeps room for the end of the zone. -/
theorem open_zone_drops_instant :
    ∃ s thread, Reachable (system quietOs quietInit smallFlushConfig) s ∧ thread ∈ s.threads ∧
      thread.calls = [.beginZone (some [97]), .instant (some (List.replicate 980 105))] ∧
      thread.impl.droppedEvents = 1 ∧ 1 ∈ thread.dropped ∧
      ¬ (1 ∈ (scan (indexed thread.word)).strays ∨
        smallFlushConfig.capacity <
          (EventCall.instant (some (List.replicate 980 105))).ownSize ∨
        ∃ b opening, thread.calls[b]? = some opening ∧
          smallFlushConfig.capacity < opening.ownSize ∧ InZone thread.word b 1) := by
  have h₀ : Run (system quietOs quietInit smallFlushConfig) [] _ := .start ⟨_, rfl, rfl⟩
  have h₁ := h₀.step (.threadInit rfl true none)
  have h₂ := h₁.step (.event (i := 0) rfl rfl rfl (.beginZone (some [97])) 2000)
  have h₃ := h₂.step (.event (i := 0) rfl rfl rfl
    (.instant (some (List.replicate 980 105))) 3000)
  refine ⟨_, _, ⟨_, h₃⟩, List.mem_singleton.2 rfl, rfl, by decide +kernel, by decide +kernel, ?_⟩
  rintro (hstray | hlarge | ⟨b, opening, hopening, hlarge, -, hb, -⟩)
  · revert hstray
    decide +kernel
  · revert hlarge
    decide +kernel
  · obtain rfl : b = 0 := by omega
    cases hopening
    revert hlarge
    decide +kernel

end Liblor.Trace
