import Liblor.TraceRecorder

/-!
# What appending and flushing can do

Writing changes the file of a trace, its separator flag and its failure flag, and a failure stays. A
flush leaves the buffer of the recorder as it is or empties it, and a record is appended behind one
of the two.
-/

namespace Liblor.Trace

/-- The header of a record. -/
def Record.header (record : Record) : Header :=
  ⟨record.timestampNs, record.value, UInt32.ofNat record.name.length, record.type.code⟩

/-- The bytes of a record in a buffer. -/
def Record.encode (record : Record) : Bytes := record.header.encode ++ record.name

/-- The bytes of records that lie one behind the other. -/
def encodeRecords (records : List Record) : Bytes := records.flatMap Record.encode

@[simp] theorem encodeRecords_nil : encodeRecords [] = [] := rfl

@[simp] theorem encodeRecords_append (first second : List Record) :
    encodeRecords (first ++ second) = encodeRecords first ++ encodeRecords second :=
  List.flatMap_append

@[simp] theorem encodeRecords_singleton (record : Record) :
    encodeRecords [record] = record.encode := by
  simp [encodeRecords]

/-- Only the file and the two flags of a trace have changed, and a failure has stayed. -/
def Touched (trace trace' : TraceImpl) : Prop :=
  ∃ file firstEvent failed, (trace.failed = true → failed = true) ∧
    trace' = { trace with file := file, firstEvent := firstEvent, failed := failed }

theorem Touched.refl (trace : TraceImpl) : Touched trace trace := ⟨_, _, _, id, rfl⟩

theorem Touched.trans {trace trace' trace'' : TraceImpl} (h : Touched trace trace')
    (h' : Touched trace' trace'') : Touched trace trace'' := by
  obtain ⟨file, firstEvent, failed, hstays, rfl⟩ := h
  obtain ⟨file', firstEvent', failed', hstays', rfl⟩ := h'
  exact ⟨file', firstEvent', failed', fun hfailed => hstays' (hstays hfailed), rfl⟩

theorem Touched.fail (trace : TraceImpl) : Touched trace { trace with failed := true } :=
  ⟨_, _, _, fun _ => rfl, rfl⟩

theorem Touched.not_failed {trace trace' : TraceImpl} (h : Touched trace trace')
    (hfailed : trace'.failed = false) : trace.failed = false := by
  obtain ⟨file, firstEvent, failed, hstays, rfl⟩ := h
  cases hold : trace.failed with
  | false => rfl
  | true =>
      rw [hstays hold] at hfailed
      exact hfailed

theorem Touched.settings {trace trace' : TraceImpl} (h : Touched trace trace') :
    trace'.bufferSize = trace.bufferSize ∧ trace'.bufferMode = trace.bufferMode ∧
      trace'.closed = trace.closed := by
  obtain ⟨file, firstEvent, failed, -, rfl⟩ := h
  exact ⟨rfl, rfl, rfl⟩

theorem Touched.bufferSize {trace trace' : TraceImpl} (h : Touched trace trace') :
    trace'.bufferSize = trace.bufferSize := h.settings.1

section Writers

/-- A relation between a trace and the result of a writer, which every output has and which goes on
through a sequence of writers. -/
structure Sequential (os : Os) (Q : TraceImpl → Bool × TraceImpl → Prop) : Prop where
  output : ∀ data trace, Q trace (output os data trace)
  pass : ∀ trace, Q trace (true, trace)
  first : ∀ trace, Q trace (true, { trace with firstEvent := false })
  trans : ∀ {trace trace' result}, Q trace (true, trace') → Q trace' result → Q trace result

/-- The writer has the relation on every trace. -/
def Keeps (Q : TraceImpl → Bool × TraceImpl → Prop) (write : Write) : Prop :=
  ∀ trace, Q trace (write trace)

variable {os : Os} {Q : TraceImpl → Bool × TraceImpl → Prop} {write write' : Write}

theorem Keeps.ite {p : Prop} [Decidable p] (h : Keeps Q write) (h' : Keeps Q write') :
    Keeps Q (if p then write else write') := by
  split
  · exact h
  · exact h'

namespace Sequential

theorem all {writes : List Write} (hQ : Sequential os Q) (h : ∀ write ∈ writes, Keeps Q write) :
    Keeps Q (all writes) := by
  induction writes with
  | nil => exact hQ.pass
  | cons write rest ih =>
      intro trace
      have hfirst := h write List.mem_cons_self trace
      rw [Trace.all]
      split
      · next trace' hwrite =>
          rw [hwrite] at hfirst
          exact hfirst
      · next trace' hwrite =>
          rw [hwrite] at hfirst
          exact hQ.trans hfirst
            (ih (fun write hmem => h write (List.mem_cons_of_mem _ hmem)) trace')

theorem writeBytes (hQ : Sequential os Q) (data : Bytes) : Keeps Q (writeBytes os data) := by
  intro trace
  unfold Trace.writeBytes
  split
  · exact hQ.pass trace
  · exact hQ.output data trace

theorem writeLiteral (hQ : Sequential os Q) (text : String) : Keeps Q (writeLiteral os text) :=
  hQ.writeBytes _

theorem writeChar (hQ : Sequential os Q) (value : UInt8) : Keeps Q (writeChar os value) :=
  hQ.output _

theorem writeU64 (hQ : Sequential os Q) (value : ℕ) : Keeps Q (writeU64 os value) := hQ.output _

theorem writeI64 (hQ : Sequential os Q) (value : ℤ) : Keeps Q (writeI64 os value) := hQ.output _

theorem writeJsonByte (hQ : Sequential os Q) (byte : UInt8) : Keeps Q (writeJsonByte os byte) := by
  unfold Trace.writeJsonByte
  iterate 7
    apply Keeps.ite (hQ.writeLiteral _)
  exact Keeps.ite (hQ.writeBytes _) (hQ.writeChar _)

theorem writeJsonString (hQ : Sequential os Q) (text : Bytes) :
    Keeps Q (writeJsonString os text) := by
  apply hQ.all
  intro write hmem
  rcases List.mem_append.1 hmem with hmem | hmem
  · rcases List.mem_cons.1 hmem with rfl | hmem
    · exact hQ.writeChar _
    · obtain ⟨byte, -, rfl⟩ := List.mem_map.1 hmem
      exact hQ.writeJsonByte byte
  · rw [List.mem_singleton.1 hmem]
    exact hQ.writeChar _

theorem writeTimestamp (hQ : Sequential os Q) (nanoseconds : ℕ) :
    Keeps Q (writeTimestamp os nanoseconds) := by
  apply hQ.all
  simp only [List.forall_mem_cons, List.not_mem_nil, false_implies, implies_true, and_true]
  constructor
  · exact hQ.writeU64 _
  · intro trace
    split_ifs
    · exact hQ.pass trace
    · exact hQ.output _ trace

theorem eventSeparator (hQ : Sequential os Q) : Keeps Q (eventSeparator os) := by
  intro trace
  unfold Trace.eventSeparator
  split
  · exact hQ.first trace
  · exact hQ.writeLiteral _ trace

theorem writeMetadataLocked (hQ : Sequential os Q) (metadataName : String) (threadId : ℕ)
    (value : Bytes) : Keeps Q (writeMetadataLocked os metadataName threadId value) := by
  intro trace
  apply hQ.all
  simp [hQ.eventSeparator, hQ.writeLiteral, hQ.writeJsonString, hQ.writeU64]

theorem writeEnd (hQ : Sequential os Q) (threadId : ℕ) (header : Header) :
    Keeps Q (writeEnd os threadId header) := by
  intro trace
  apply hQ.all
  simp [hQ.eventSeparator, hQ.writeLiteral, hQ.writeU64, hQ.writeTimestamp, hQ.writeChar]

theorem writeNamed (hQ : Sequential os Q) (threadId : ℕ) (header : Header) (name : Bytes)
    (category phase : String) : Keeps Q (writeNamed os threadId header name category phase) := by
  intro trace
  apply hQ.all
  intro write hmem
  simp only [List.mem_append] at hmem
  rcases hmem with ((hmem | hmem) | hmem) | hmem
  · revert write
    simp [hQ.eventSeparator, hQ.writeLiteral, hQ.writeU64, hQ.writeTimestamp, hQ.writeJsonString]
  · split_ifs at hmem
    · rw [List.mem_singleton.1 hmem]
      exact hQ.writeLiteral _
    · exact absurd hmem List.not_mem_nil
  · split_ifs at hmem
    · revert write
      simp [hQ.writeLiteral, hQ.writeI64, hQ.writeChar]
    · exact absurd hmem List.not_mem_nil
  · rw [List.mem_singleton.1 hmem]
    exact hQ.writeChar _

/-- A record of a type that is not one of the enumeration marks the trace as failed. -/
theorem writeRecordLocked (hQ : Sequential os Q) (threadId : ℕ) (header : Header) (name : Bytes)
    (htype : (∃ type : RecordType, header.type = type.code) ∨
      ∀ trace, Q trace (false, { trace with failed := true })) :
    Keeps Q (writeRecordLocked os threadId header name) := by
  unfold Trace.writeRecordLocked
  split_ifs with hbegin hend hinstant hcounter hauto
  · exact hQ.writeNamed _ _ _ _ _
  · exact hQ.writeEnd _ _
  · exact hQ.writeNamed _ _ _ _ _
  · exact hQ.writeNamed _ _ _ _ _
  · exact hQ.writeNamed _ _ _ _ _
  · rcases htype with ⟨type, htype⟩ | hfail
    · cases type with
      | beginZone => exact absurd htype hbegin
      | endZone => exact absurd htype hend
      | instant => exact absurd htype hinstant
      | counter => exact absurd htype hcounter
      | autoBeginZone => exact absurd htype hauto
    · exact hfail

end Sequential

end Writers

section Touches

def Touches (write : Write) : Prop := ∀ trace, Touched trace (write trace).2

variable (os : Os)

theorem sequential_touched : Sequential os fun trace result => Touched trace result.2 where
  output := by
    intro data trace
    unfold output
    split
    · exact ⟨_, _, _, id, rfl⟩
    · exact ⟨_, _, _, fun _ => rfl, rfl⟩
  pass := fun trace => Touched.refl trace
  first := fun _ => ⟨_, _, _, id, rfl⟩
  trans := fun h h' => h.trans h'

theorem touches_sync : Touches (sync os) := fun _ => ⟨_, _, _, id, rfl⟩

theorem touches_writeLiteral (text : String) : Touches (writeLiteral os text) :=
  (sequential_touched os).writeLiteral text

theorem touches_writeMetadataLocked (metadataName : String) (threadId : ℕ) (value : Bytes) :
    Touches (writeMetadataLocked os metadataName threadId value) :=
  (sequential_touched os).writeMetadataLocked metadataName threadId value

theorem touches_writeRecordLocked (threadId : ℕ) (header : Header) (name : Bytes) :
    Touches (writeRecordLocked os threadId header name) :=
  (sequential_touched os).writeRecordLocked threadId header name (Or.inr Touched.fail)

theorem touched_flushLoop (threadId fuel : ℕ) (bytes : Bytes) (trace : TraceImpl) :
    Touched trace (flushLoop os threadId fuel bytes trace) := by
  induction fuel generalizing bytes trace with
  | zero => exact Touched.refl trace
  | succ fuel ih =>
      unfold flushLoop
      split_ifs with hempty hshort
      · exact Touched.refl trace
      · exact Touched.fail trace
      · dsimp only
        split_ifs with hname
        · exact Touched.fail trace
        · have hrecord := touches_writeRecordLocked os threadId (Header.decode bytes)
            ((bytes.drop headerSize).take (Header.decode bytes).nameSize.toNat) trace
          split
          · next trace' hwrite =>
              rw [hwrite] at hrecord
              exact hrecord
          · next trace' hwrite =>
              rw [hwrite] at hrecord
              exact hrecord.trans (ih _ trace')

theorem touched_flushStreamLocked (flushStream : Bool) (trace : TraceImpl) :
    Touched trace (flushStreamLocked os flushStream trace) := by
  unfold flushStreamLocked
  split_ifs
  · have hsync := touches_sync os trace
    split
    · next trace' hcall =>
        rw [hcall] at hsync
        exact hsync
    · next trace' hcall =>
        rw [hcall] at hsync
        exact hsync.trans (Touched.fail trace')
  · exact Touched.refl trace

theorem touched_flushInternal (trace : TraceImpl) (thread : ThreadImpl) (flushStream : Bool) :
    Touched trace (flushInternal os trace thread flushStream).2.1 := by
  unfold flushInternal
  split_ifs
  · exact Touched.refl trace
  · exact Touched.fail trace
  · have hsync := touches_sync os trace
    split
    · next trace' hcall =>
        rw [hcall] at hsync
        exact hsync
    · next trace' hcall =>
        rw [hcall] at hsync
        exact hsync.trans (Touched.fail trace')
  · exact Touched.fail trace
  · have hloop := touched_flushLoop os thread.threadId thread.buffer.length thread.buffer trace
    have hstream := hloop.trans (touched_flushStreamLocked os flushStream _)
    dsimp only
    split_ifs
    · exact hstream
    · exact hstream

end Touches

section Append

variable (os : Os)

theorem flushInternal_thread (trace : TraceImpl) (thread : ThreadImpl) (flushStream : Bool) :
    (flushInternal os trace thread flushStream).2.2 = thread ∨
      (flushInternal os trace thread flushStream).2.2 = { thread with buffer := [] } := by
  unfold flushInternal
  split_ifs
  · exact Or.inl rfl
  · exact Or.inl rfl
  · left
    split <;> rfl
  · exact Or.inl rfl
  · dsimp only
    split_ifs
    · exact Or.inl rfl
    · exact Or.inr rfl

/-- What is there before a record is appended: the trace and the recorder as they were, or after a
flush that may have failed. -/
def Prepared (trace : TraceImpl) (thread : ThreadImpl) (trace' : TraceImpl)
    (thread' : ThreadImpl) : Prop :=
  (trace', thread') = (trace, thread) ∨
    (trace', thread') = (flushInternal os trace thread false).2

variable {os}

theorem Prepared.touched {trace trace' : TraceImpl} {thread thread' : ThreadImpl}
    (h : Prepared os trace thread trace' thread') : Touched trace trace' := by
  rcases h with heq | heq
  · cases heq
    exact Touched.refl trace
  · have hflush := touched_flushInternal os trace thread false
    rw [← heq] at hflush
    exact hflush

theorem Prepared.thread {trace trace' : TraceImpl} {thread thread' : ThreadImpl}
    (h : Prepared os trace thread trace' thread') :
    ∃ buffer, (buffer = thread.buffer ∨ buffer = []) ∧
      thread' = { thread with buffer := buffer } := by
  rcases h with heq | heq
  · cases heq
    exact ⟨thread.buffer, Or.inl rfl, rfl⟩
  · have hflush := flushInternal_thread os trace thread false
    rw [← heq] at hflush
    rcases hflush with hsame | hempty
    · exact ⟨thread.buffer, Or.inl rfl, hsame⟩
    · exact ⟨[], Or.inr rfl, hempty⟩

theorem length_header_encode (header : Header) : header.encode.length = headerSize := by
  simp [Header.encode, headerSize]

theorem length_record_encode (record : Record) :
    record.encode.length = headerSize + record.name.length := by
  rw [Record.encode, List.length_append, length_header_encode]

theorem length_encodeRecords_cons (record : Record) (records : List Record) :
    (encodeRecords (record :: records)).length =
      headerSize + record.name.length + (encodeRecords records).length := by
  rw [encodeRecords, List.flatMap_cons, List.length_append, length_record_encode]
  rfl

theorem le_of_spaceAvailable {thread : ThreadImpl} {recordSize reservedEndsAfter : ℕ}
    (h : spaceAvailable thread recordSize reservedEndsAfter = true) (hsize : 0 < recordSize) :
    thread.buffer.length + recordSize + headerSize * reservedEndsAfter ≤ thread.capacity := by
  unfold spaceAvailable at h
  split_ifs at h
  have hfits := of_decide_eq_true h
  have hcomm := Nat.mul_comm reservedEndsAfter headerSize
  omega

theorem spaceAvailable_of_le {thread : ThreadImpl} {recordSize reservedEndsAfter : ℕ}
    (hcapacity : thread.capacity ≤ sizeMax)
    (h : thread.buffer.length + recordSize + headerSize * reservedEndsAfter ≤ thread.capacity) :
    spaceAvailable thread recordSize reservedEndsAfter = true := by
  have hcomm := Nat.mul_comm reservedEndsAfter headerSize
  have hdiv : reservedEndsAfter ≤ (sizeMax - recordSize) / headerSize := by
    rw [Nat.le_div_iff_mul_le (by decide)]
    omega
  rw [spaceAvailable, if_neg (Nat.not_lt.2 hdiv)]
  apply decide_eq_true
  omega

theorem ensureSpace_prepared {trace trace' : TraceImpl} {thread thread' : ThreadImpl}
    {recordSize reservedEndsAfter : ℕ} {ok : Bool}
    (h : ensureSpace os trace thread recordSize reservedEndsAfter = (ok, trace', thread')) :
    Prepared os trace thread trace' thread' ∧
      (ok = true → spaceAvailable thread' recordSize reservedEndsAfter = true) := by
  unfold ensureSpace at h
  split_ifs at h with hspace hmode
  · cases h
    exact ⟨Or.inl rfl, fun _ => hspace⟩
  · cases h
    exact ⟨Or.inl rfl, nofun⟩
  · split at h
    · next hflush =>
        cases h
        exact ⟨Or.inr (by rw [hflush]), id⟩
    · next hflush =>
        cases h
        exact ⟨Or.inr (by rw [hflush]), nofun⟩

theorem append_cases (os : Os) (now : UInt64) (trace : TraceImpl) (thread : ThreadImpl)
    (type : RecordType) (name : Bytes) (value : UInt64) (reservedEndsAfter : ℕ) :
    ∃ trace' thread', Prepared os trace thread trace' thread' ∧
      (append os now trace thread type name value reservedEndsAfter = ⟨none, trace', thread'⟩ ∨
        name.length ≤ uint32Max ∧
        thread'.buffer.length + (headerSize + name.length) + headerSize * reservedEndsAfter ≤
          thread'.capacity ∧
        append os now trace thread type name value reservedEndsAfter =
          ⟨some ⟨type, name, value, timestamp trace' now⟩, trace', { thread' with
            buffer := thread'.buffer ++ (Record.mk type name value (timestamp trace' now)).encode
            recordedEvents := thread'.recordedEvents + 1 }⟩) := by
  unfold append
  split_ifs with hname
  · exact ⟨trace, thread, Or.inl rfl, Or.inl rfl⟩
  · rcases hensure : ensureSpace os trace thread (headerSize + name.length) reservedEndsAfter with
      ⟨ok, trace', thread'⟩
    obtain ⟨hprepared, hspace⟩ := ensureSpace_prepared hensure
    refine ⟨trace', thread', hprepared, ?_⟩
    cases ok with
    | false => exact Or.inl rfl
    | true =>
        have hfits := le_of_spaceAvailable (hspace rfl) (by simp [headerSize])
        refine Or.inr ⟨by omega, hfits, ?_⟩
        simp only [Record.encode, Record.header, List.append_assoc]

/-- The room that is kept for the `END` records is enough to append them. -/
theorem append_end (os : Os) (now : UInt64) (trace : TraceImpl) (thread : ThreadImpl)
    (hcapacity : thread.capacity ≤ sizeMax)
    (hroom : thread.buffer.length + headerSize * thread.reservedEnds ≤ thread.capacity)
    (hends : thread.reservedEnds ≠ 0) :
    append os now trace thread .endZone [] 0 (thread.reservedEnds - 1) =
      ⟨some ⟨.endZone, [], 0, timestamp trace now⟩, trace, { thread with
        buffer := thread.buffer ++ (Record.mk .endZone [] 0 (timestamp trace now)).encode
        recordedEvents := thread.recordedEvents + 1 }⟩ := by
  have hspace : spaceAvailable thread (headerSize + ([] : Bytes).length)
      (thread.reservedEnds - 1) = true := by
    apply spaceAvailable_of_le hcapacity
    obtain ⟨ends, hsucc⟩ := Nat.exists_eq_succ_of_ne_zero hends
    rw [hsucc] at hroom ⊢
    simp only [headerSize, List.length_nil] at hroom ⊢
    omega
  have hname : ¬ (([] : Bytes).length > uint32Max ∨
    ([] : Bytes).length > sizeMax - headerSize) := by
    simp
  rw [append, if_neg hname, ensureSpace, if_pos hspace]
  simp [Record.encode, Record.header]

/-- The loop of `lor_trace_thread_finish` appends one `END` record for each of those reserved. -/
theorem closeLoop_spec (os : Os) (now : ℕ → UInt64) (trace : TraceImpl) (fuel : ℕ)
    (thread : ThreadImpl) (hcapacity : thread.capacity ≤ sizeMax)
    (hroom : thread.buffer.length + headerSize * thread.reservedEnds ≤ thread.capacity)
    (hfuel : thread.reservedEnds = fuel) :
    ∃ records thread', closeLoop os now fuel trace thread = (records, trace, thread') ∧
      records.length = fuel ∧ (∀ record ∈ records, record.type = .endZone ∧ record.name = []) ∧
      thread'.buffer = thread.buffer ++ encodeRecords records ∧
      thread'.threadId = thread.threadId := by
  induction fuel generalizing thread with
  | zero => exact ⟨[], thread, rfl, rfl, by simp, by simp, rfl⟩
  | succ fuel ih =>
      have hends : thread.reservedEnds ≠ 0 := by omega
      have happend := append_end os (now fuel) trace thread hcapacity hroom hends
      have hrest : (thread.buffer ++ (Record.mk .endZone [] 0
          (timestamp trace (now fuel))).encode).length +
            headerSize * (thread.reservedEnds - 1) ≤ thread.capacity := by
        rw [hfuel] at hroom ⊢
        rw [List.length_append, length_record_encode]
        simp only [headerSize, List.length_nil] at hroom ⊢
        omega
      rw [closeLoop, if_neg hends, happend]
      dsimp only [Option.isNone_some]
      generalize hnext : ({ thread with
          buffer := thread.buffer ++ (Record.mk .endZone [] 0 (timestamp trace (now fuel))).encode
          depth := if thread.depth ≠ 0 then thread.depth - 1 else thread.depth
          reservedEnds := thread.reservedEnds - 1
          recordedEvents := thread.recordedEvents + 1
          droppedEvents := if false = true then thread.droppedEvents + 1 else
            thread.droppedEvents } : ThreadImpl) = next
      have hbuffer : next.buffer = thread.buffer ++
          (Record.mk .endZone [] 0 (timestamp trace (now fuel))).encode := by rw [← hnext]
      have hthreadId : next.threadId = thread.threadId := by rw [← hnext]
      obtain ⟨records, thread', hloop, hlength, htype, hbuffer', hthreadId'⟩ :=
        ih next (by rw [← hnext]; exact hcapacity) (by rw [← hnext]; exact hrest)
          (by rw [← hnext]; simp only; omega)
      rw [hloop]
      refine ⟨_, thread', rfl, ?_, ?_, ?_, hthreadId'.trans hthreadId⟩
      · simp [hlength]
      · intro record hmem
        rcases List.mem_cons.1 hmem with rfl | hmem
        · exact ⟨rfl, rfl⟩
        · exact htype record hmem
      · rw [hbuffer', hbuffer]
        simp [encodeRecords]

end Append

section Perform

variable (os : Os)

/-- What a recording function leaves in the trace and in the buffer: a flush, which may have been
left out or have failed, and the record that it has appended. -/
def Performed (trace : TraceImpl) (thread : ThreadImpl) (recorded : Recorded) : Prop :=
  ∃ before after, before.buffer = thread.buffer ∧ before.threadId = thread.threadId ∧
    Prepared os trace before recorded.trace after ∧
    recorded.thread.threadId = thread.threadId ∧
    recorded.thread.buffer = after.buffer ++ encodeRecords recorded.record.toList ∧
    ∀ record ∈ recorded.record, record.name.length ≤ uint32Max

variable {os}

theorem Performed.of_eq {trace : TraceImpl} {thread thread' : ThreadImpl}
    (hbuffer : thread'.buffer = thread.buffer) (hthreadId : thread'.threadId = thread.threadId) :
    Performed os trace thread ⟨none, trace, thread'⟩ :=
  ⟨thread, thread, rfl, rfl, Or.inl rfl, hthreadId, by simp [hbuffer], by simp⟩

theorem Performed.congr {trace : TraceImpl} {thread thread' : ThreadImpl} {recorded : Recorded}
    {impl : ThreadImpl} (h : Performed os trace thread' recorded)
    (hbuffer : thread'.buffer = thread.buffer) (hthreadId : thread'.threadId = thread.threadId)
    (hbuffer' : impl.buffer = recorded.thread.buffer)
    (hthreadId' : impl.threadId = recorded.thread.threadId) :
    Performed os trace thread ⟨recorded.record, recorded.trace, impl⟩ := by
  obtain ⟨before, after, hbefore, hid, hprepared, hafter, hrecord, hname⟩ := h
  refine ⟨before, after, hbefore.trans hbuffer, hid.trans hthreadId, hprepared, ?_, ?_, hname⟩
  · exact hthreadId'.trans (hafter.trans hthreadId)
  · exact hbuffer'.trans hrecord

variable (os)

theorem performed_append (now : UInt64) (trace : TraceImpl) (thread : ThreadImpl)
    (type : RecordType) (name : Bytes) (value : UInt64) (reservedEndsAfter : ℕ) :
    Performed os trace thread (append os now trace thread type name value reservedEndsAfter) := by
  obtain ⟨trace', thread', hprepared, hnone | ⟨hname, -, hsome⟩⟩ :=
    append_cases os now trace thread type name value reservedEndsAfter
  · obtain ⟨buffer, -, rfl⟩ := hprepared.thread
    rw [hnone]
    exact ⟨thread, _, rfl, rfl, hprepared, rfl, by simp, by simp⟩
  · obtain ⟨buffer, -, rfl⟩ := hprepared.thread
    rw [hsome]
    exact ⟨thread, _, rfl, rfl, hprepared, rfl, by simp, by simpa using hname⟩

/-- The recorders differ at most in the counters of zones and of dropped events. -/
structure SameRecords (impl impl' : ThreadImpl) : Prop where
  buffer : impl'.buffer = impl.buffer
  capacity : impl'.capacity = impl.capacity
  threadId : impl'.threadId = impl.threadId
  recordedEvents : impl'.recordedEvents = impl.recordedEvents

/-- What a recording function does besides counting: nothing, or it appends. -/
inductive Appends (now : UInt64) (trace : TraceImpl) (impl : ThreadImpl) : Recorded → Prop where
  | nothing {impl' : ThreadImpl} (hsame : SameRecords impl impl') :
      Appends now trace impl ⟨none, trace, impl'⟩
  | appends {before after impl' : ThreadImpl} {type : RecordType} {name : Bytes} {value : UInt64}
      {reservedEndsAfter : ℕ} {record : Option Record} {trace' : TraceImpl}
      (hbefore : SameRecords impl before)
      (happend : append os now trace before type name value reservedEndsAfter =
        ⟨record, trace', after⟩)
      (hafter : SameRecords after impl') : Appends now trace impl ⟨record, trace', impl'⟩

theorem appends_beginValue (now : UInt64) (trace : TraceImpl) (impl : ThreadImpl)
    (type : RecordType) (name : Bytes) (value : UInt64) :
    Appends os now trace impl (beginValue os now trace impl type name value) := by
  have hbefore : SameRecords impl { impl with depth := impl.depth + 1 } := ⟨rfl, rfl, rfl, rfl⟩
  unfold beginValue
  dsimp only
  split_ifs
  · exact .nothing ⟨rfl, rfl, rfl, rfl⟩
  · exact .nothing ⟨rfl, rfl, rfl, rfl⟩
  · split
    · next hrecorded => exact .appends hbefore hrecorded ⟨rfl, rfl, rfl, rfl⟩
    · next hrecorded => exact .appends hbefore hrecorded ⟨rfl, rfl, rfl, rfl⟩

theorem appends_endImpl (now : UInt64) (trace : TraceImpl) (impl : ThreadImpl) :
    Appends os now trace impl (endImpl os now trace impl) := by
  have hbefore : SameRecords impl { impl with depth := impl.depth - 1 } := ⟨rfl, rfl, rfl, rfl⟩
  unfold endImpl
  dsimp only
  split_ifs
  · exact .nothing ⟨rfl, rfl, rfl, rfl⟩
  · exact .nothing ⟨rfl, rfl, rfl, rfl⟩
  · exact .nothing ⟨rfl, rfl, rfl, rfl⟩
  · split
    · next hrecorded => exact .appends hbefore hrecorded ⟨rfl, rfl, rfl, rfl⟩
    · next hrecorded => exact .appends hbefore hrecorded ⟨rfl, rfl, rfl, rfl⟩

theorem appends_pointValue (now : UInt64) (trace : TraceImpl) (impl : ThreadImpl)
    (type : RecordType) (name : Bytes) (value : UInt64) :
    Appends os now trace impl (pointValue os now trace impl type name value) := by
  unfold pointValue
  split_ifs
  · exact .nothing ⟨rfl, rfl, rfl, rfl⟩
  · split
    · next hrecorded => exact .appends ⟨rfl, rfl, rfl, rfl⟩ hrecorded ⟨rfl, rfl, rfl, rfl⟩
    · next hrecorded => exact .appends ⟨rfl, rfl, rfl, rfl⟩ hrecorded ⟨rfl, rfl, rfl, rfl⟩

theorem EventCall.appends (now : UInt64) (trace : TraceImpl) (impl : ThreadImpl)
    (call : EventCall) : Appends os now trace impl (call.perform os now trace impl) := by
  cases call with
  | beginZone name =>
      cases name with
      | none => exact .nothing ⟨rfl, rfl, rfl, rfl⟩
      | some name => exact appends_beginValue os now trace impl _ _ _
  | endZone => exact appends_endImpl os now trace impl
  | instant name =>
      cases name with
      | none => exact .nothing ⟨rfl, rfl, rfl, rfl⟩
      | some name => exact appends_pointValue os now trace impl _ _ _
  | counter name value =>
      cases name with
      | none => exact .nothing ⟨rfl, rfl, rfl, rfl⟩
      | some name => exact appends_pointValue os now trace impl _ _ _
  | enterFunction address => exact appends_beginValue os now trace impl _ _ _

theorem EventCall.performed (now : UInt64) (trace : TraceImpl) (thread : ThreadImpl)
    (call : EventCall) : Performed os trace thread (call.perform os now trace thread) := by
  have happends := call.appends os now trace thread
  generalize call.perform os now trace thread = recorded at happends
  cases happends with
  | nothing hsame => exact .of_eq hsame.buffer hsame.threadId
  | @appends before _ _ type name value reservedEndsAfter _ _ hbefore happend hafter =>
      have hperformed := performed_append os now trace before type name value reservedEndsAfter
      rw [happend] at hperformed
      exact hperformed.congr hbefore.buffer hbefore.threadId hafter.buffer hafter.threadId

/-- What a recording function counts: a record that it has appended. -/
def Counts (impl : ThreadImpl) (recorded : Recorded) : Prop :=
  recorded.thread.capacity = impl.capacity ∧
    recorded.thread.recordedEvents = impl.recordedEvents + recorded.record.toList.length

theorem counts_append (now : UInt64) (trace : TraceImpl) (impl : ThreadImpl) (type : RecordType)
    (name : Bytes) (value : UInt64) (reservedEndsAfter : ℕ) :
    Counts impl (append os now trace impl type name value reservedEndsAfter) := by
  obtain ⟨trace', impl', hprepared, hnone | ⟨-, -, hsome⟩⟩ :=
    append_cases os now trace impl type name value reservedEndsAfter
  · obtain ⟨buffer, -, rfl⟩ := hprepared.thread
    rw [hnone]
    exact ⟨rfl, rfl⟩
  · obtain ⟨buffer, -, rfl⟩ := hprepared.thread
    rw [hsome]
    exact ⟨rfl, rfl⟩

theorem EventCall.counts (now : UInt64) (trace : TraceImpl) (impl : ThreadImpl)
    (call : EventCall) : Counts impl (call.perform os now trace impl) := by
  have happends := call.appends os now trace impl
  generalize call.perform os now trace impl = recorded at happends
  cases happends with
  | nothing hsame => exact ⟨hsame.capacity, hsame.recordedEvents⟩
  | @appends before _ _ type name value reservedEndsAfter _ _ hbefore happend hafter =>
      obtain ⟨hcapacity, hrecorded⟩ :=
        counts_append os now trace before type name value reservedEndsAfter
      rw [happend] at hcapacity hrecorded
      rw [hbefore.capacity] at hcapacity
      rw [hbefore.recordedEvents] at hrecorded
      exact ⟨hafter.capacity.trans hcapacity, hafter.recordedEvents.trans hrecorded⟩

end Perform

section Init

variable {os : Os}

/-- The buffer size of the threads: the one asked for, or the default. -/
def Config.capacity (config : Config) : ℕ :=
  if config.bufferSize ≠ 0 then config.bufferSize else defaultBufferSize

theorem Config.capacity_le (config : Config) : config.capacity ≤ sizeMax := by
  unfold Config.capacity
  split_ifs
  · exact config.bufferSize_le
  · decide

/-- A trace before anything is written to its file. -/
structure Fresh (init : InitOs) (config : Config) (trace : TraceImpl) : Prop where
  bytes : trace.file.bytes = []
  firstEvent : trace.firstEvent = true
  processId : trace.processId = init.processId
  nextThreadId : trace.nextThreadId = 1
  activeThreads : trace.activeThreads = 0
  bufferSize : trace.bufferSize = config.capacity
  bufferMode : trace.bufferMode = config.bufferMode
  failed : trace.failed = false
  closed : trace.closed = false

/-- A trace that has been initialized: the file begins with `[` and the name of the process. -/
theorem initFile_ok {init : InitOs} {config : Config} {trace : TraceImpl}
    (h : initFile os init config = (.ok, some trace)) :
    ∃ fresh first, Fresh init config fresh ∧ writeLiteral os "[\n" fresh = (true, first) ∧
      ((config.processName = none ∧ trace = first) ∨ ∃ name, config.processName = some name ∧
        writeMetadataLocked os "process_name" 0 name first = (true, trace)) := by
  have hcapacity : (if config.bufferSize ≠ 0 then config.bufferSize else defaultBufferSize) =
      config.capacity := rfl
  unfold initFile at h
  dsimp only at h
  rw [hcapacity] at h
  split_ifs at h
  · cases h
  · cases h
  · cases h
  · cases h
  · split at h
    · cases h
    · next first hfirst =>
        refine ⟨_, first, ⟨rfl, rfl, rfl, rfl, rfl, rfl, rfl, rfl, rfl⟩, hfirst, ?_⟩
        split at h
        · next hname =>
            cases h
            exact Or.inl ⟨hname, rfl⟩
        · next name hname =>
            split at h
            · cases h
            · next hwrite =>
                cases h
                exact Or.inr ⟨name, hname, hwrite⟩

/-- What writing to the file leaves as it was configured. -/
theorem initFile_settings {init : InitOs} {config : Config} {trace : TraceImpl}
    (h : initFile os init config = (.ok, some trace)) :
    trace.bufferSize = config.capacity ∧ trace.bufferMode = config.bufferMode ∧
      trace.closed = false := by
  obtain ⟨fresh, first, hfresh, hfirst, hlast⟩ := initFile_ok h
  have htouched := touches_writeLiteral os "[\n" fresh
  rw [hfirst] at htouched
  have htouched' : Touched fresh trace := by
    rcases hlast with ⟨-, rfl⟩ | ⟨name, -, hwrite⟩
    · exact htouched
    · have hmetadata := touches_writeMetadataLocked os "process_name" 0 name first
      rw [hwrite] at hmetadata
      exact htouched.trans hmetadata
  obtain ⟨hsize, hmode, hclosed⟩ := htouched'.settings
  exact ⟨hsize.trans hfresh.bufferSize, hmode.trans hfresh.bufferMode, hclosed.trans hfresh.closed⟩

end Init

end Liblor.Trace
