import Liblor.TraceFlush

/-!
# Reading the buffer back

A session of a recorder is any sequence of appends and flushes, among changes of the fields that its
callers keep and with any trace at each of them, since other threads write into the trace too. The
loop of a flush reads from its buffer the records appended since the buffer was last emptied.
-/

namespace Liblor.Trace

/-! ## The loop with its offset -/

/-- Where the loop of a flush is left. -/
inductive Stop where
  | complete
  | truncatedHeader
  | oversizedName
  | unknownType
  | writeFailed
  deriving DecidableEq, Repr

/-- The headers and names that a flush has read, the offset at which it stopped and why, and the
trace after it. -/
structure Decoded where
  read : List (Header × Bytes)
  offset : ℕ
  stop : Stop
  trace : TraceImpl
  deriving DecidableEq, Repr

def RecordType.all : List RecordType := [.beginZone, .endZone, .instant, .counter, .autoBeginZone]

/-- Why a record was not written: its type has no event, or a write failed. -/
def unwritten (header : Header) : Stop :=
  if header.type ∈ RecordType.all.map RecordType.code then .writeFailed else .unknownType

/-- The loop of `lor_trace__thread_flush_internal`. -/
def decodeLoop (os : Os) (threadId : ℕ) (buffer : Bytes) : ℕ → ℕ → TraceImpl → Option Decoded
  | 0, _, _ => none
  | fuel + 1, offset, trace =>
    if ¬ offset < buffer.length then some ⟨[], offset, .complete, trace⟩
    else if buffer.length - offset < headerSize then
      some ⟨[], offset, .truncatedHeader, { trace with failed := true }⟩
    else
      let header := Header.decode (buffer.drop offset)
      let offset := offset + headerSize
      if header.nameSize.toNat > buffer.length - offset then
        some ⟨[], offset, .oversizedName, { trace with failed := true }⟩
      else
        let name := (buffer.drop offset).take header.nameSize.toNat
        match writeRecordLocked os threadId header name trace with
        | (false, trace) => some ⟨[(header, name)], offset, unwritten header, trace⟩
        | (true, trace) =>
          (decodeLoop os threadId buffer fuel (offset + header.nameSize.toNat) trace).map
            fun rest => { rest with read := (header, name) :: rest.read }

def Record.parts (record : Record) : Header × Bytes := (record.header, record.name)

section Loop

variable {os : Os} {threadId : ℕ}

/-- The loop with its offset writes what the loop over the remaining bytes writes. -/
theorem decodeLoop_trace {buffer : Bytes} {fuel offset : ℕ} {trace : TraceImpl} {decoded : Decoded}
    (h : decodeLoop os threadId buffer fuel offset trace = some decoded) {rounds : ℕ}
    (hrounds : buffer.length - offset ≤ rounds) :
    decoded.trace = flushLoop os threadId rounds (buffer.drop offset) trace := by
  induction fuel generalizing offset trace decoded rounds with
  | zero => cases h
  | succ fuel ih =>
      have hlength : (buffer.drop offset).length = buffer.length - offset := List.length_drop
      rw [decodeLoop] at h
      by_cases hend : offset < buffer.length
      · obtain ⟨n, rfl⟩ : ∃ n, rounds = n + 1 := ⟨rounds - 1, by omega⟩
        rw [if_neg (not_not.2 hend)] at h
        rw [flushLoop, hlength, if_neg (by omega)]
        by_cases hshort : buffer.length - offset < headerSize
        · rw [if_pos hshort] at h ⊢
          cases h
          rfl
        · rw [if_neg hshort] at h ⊢
          dsimp only at h ⊢
          have hrest : (buffer.drop offset).drop headerSize =
            buffer.drop (offset + headerSize) := by
            rw [List.drop_drop]
          rw [hrest, List.length_drop]
          by_cases hname : (Header.decode (buffer.drop offset)).nameSize.toNat >
              buffer.length - (offset + headerSize)
          · rw [if_pos hname] at h ⊢
            cases h
            rfl
          · rw [if_neg hname] at h ⊢
            rcases hwrite : writeRecordLocked os threadId (Header.decode (buffer.drop offset))
              ((buffer.drop (offset + headerSize)).take
                (Header.decode (buffer.drop offset)).nameSize.toNat) trace with ⟨ok, trace'⟩
            rw [hwrite] at h
            cases ok with
            | false =>
                cases h
                rfl
            | true =>
                obtain ⟨rest, hrest', rfl⟩ := Option.map_eq_some_iff.1 h
                have hrounds' : buffer.length - (offset + headerSize +
                    (Header.decode (buffer.drop offset)).nameSize.toNat) ≤ n := by
                  simp only [headerSize] at hshort ⊢
                  omega
                have hnext := ih hrest' hrounds'
                dsimp only
                rw [hnext, List.drop_drop]
      · rw [if_pos hend] at h
        cases h
        rw [List.drop_eq_nil_of_le (by omega)]
        cases rounds with
        | zero => rfl
        | succ rounds => rfl

theorem code_mem (type : RecordType) : type.code ∈ RecordType.all.map RecordType.code := by
  cases type <;> decide

theorem unwritten_header (record : Record) : unwritten record.header = .writeFailed :=
  if_pos (code_mem record.type)

theorem decodeLoop_record (fuel : ℕ) (before : Bytes) (record : Record) (rest : Bytes)
    (trace : TraceImpl) (hname : record.name.length ≤ uint32Max) {ok : Bool} {trace' : TraceImpl}
    (hwrite : writeRecordLocked os threadId record.header record.name trace = (ok, trace')) :
    decodeLoop os threadId (before ++ (record.encode ++ rest)) (fuel + 1) before.length trace =
      if ok then (decodeLoop os threadId (before ++ (record.encode ++ rest)) fuel
        (before ++ record.encode).length trace').map
          fun next => { next with read := record.parts :: next.read }
      else some ⟨[record.parts], before.length + headerSize, .writeFailed, trace'⟩ := by
  have hheader := length_header_encode record.header
  have hlength : (before ++ (record.encode ++ rest)).length - before.length =
      headerSize + record.name.length + rest.length := by
    rw [List.length_append, List.length_append, length_record_encode]
    omega
  have hdrop : (before ++ (record.encode ++ rest)).drop before.length =
      record.header.encode ++ (record.name ++ rest) := by
    rw [List.drop_left, Record.encode, List.append_assoc]
  have hdrop' : (before ++ (record.encode ++ rest)).drop (before.length + headerSize) =
      record.name ++ rest := by
    rw [← List.drop_drop, hdrop, List.drop_left' hheader]
  have hsize : record.header.nameSize.toNat = record.name.length := by
    have hlt : record.name.length < 2 ^ 32 := by
      simp only [uint32Max] at hname
      omega
    exact UInt32.toNat_ofNat_of_lt' hlt
  have hpositive : 0 < headerSize := by decide
  rw [decodeLoop, if_neg (not_not.2 (by omega)), if_neg (by omega)]
  dsimp only
  rw [hdrop, hdrop', decode_header_encode, hsize, if_neg (by omega), List.take_left, hwrite]
  cases ok with
  | false =>
      dsimp only
      rw [unwritten_header]
      rfl
  | true =>
      rw [List.length_append, length_record_encode, ← Nat.add_assoc]
      rfl

/-- The loop has read the records and has come to the end, or it has read records up to one that
could not be written. -/
structure ReadsBack (used : ℕ) (records : List Record) (decoded : Decoded) : Prop where
  stop : decoded.stop = .complete ∨ decoded.stop = .writeFailed
  complete : decoded.stop = .complete →
    decoded.read = records.map Record.parts ∧ decoded.offset = used
  writeFailed : decoded.stop = .writeFailed →
    ∃ n < records.length, decoded.read = (records.take (n + 1)).map Record.parts

variable (os threadId) in
theorem decodeLoop_records {fuel : ℕ} (before : Bytes) {records : List Record}
    (hnames : ∀ record ∈ records, record.name.length ≤ uint32Max)
    (hfuel : records.length < fuel) (trace : TraceImpl) :
    ∃ decoded, decodeLoop os threadId (before ++ encodeRecords records) fuel before.length trace =
        some decoded ∧
      ReadsBack (before ++ encodeRecords records).length records decoded ∧
      (os.Faultless → decoded.stop = .complete) := by
  induction records generalizing fuel before trace with
  | nil =>
      obtain ⟨n, rfl⟩ : ∃ n, fuel = n + 1 := ⟨fuel - 1, by omega⟩
      refine ⟨⟨[], before.length, .complete, trace⟩, ?_, ?_, fun _ => rfl⟩
      · rw [decodeLoop, if_pos (by simp)]
      · refine ⟨Or.inl rfl, fun _ => ⟨rfl, by simp⟩, fun h => ?_⟩
        cases h
  | cons record records ih =>
      rw [List.length_cons] at hfuel
      obtain ⟨n, rfl⟩ : ∃ n, fuel = n + 1 := ⟨fuel - 1, by omega⟩
      have hsplit : encodeRecords (record :: records) = record.encode ++ encodeRecords records :=
        rfl
      rcases hwrite : writeRecordLocked os threadId record.header record.name trace
        with ⟨ok, trace'⟩
      have hround := decodeLoop_record n before record (encodeRecords records) trace
        (hnames record List.mem_cons_self) hwrite
      rw [hsplit, hround]
      cases ok with
      | false =>
          refine ⟨_, if_neg (by simp), ?_, fun h => ?_⟩
          · refine ⟨Or.inr rfl, fun h => ?_, fun _ => ⟨0, by simp, by simp⟩⟩
            cases h
          · have hrecord := (sequential_succeeds h).writeRecordLocked threadId record.header
              record.name (Or.inl ⟨record.type, rfl⟩) trace
            rw [hwrite] at hrecord
            cases hrecord.1
      | true =>
          obtain ⟨next, hnext, hreads, hfaultless⟩ := ih (before ++ record.encode)
            (fun record' hmem => hnames record' (List.mem_cons_of_mem _ hmem))
            (Nat.lt_of_succ_lt_succ hfuel) trace'
          rw [List.append_assoc] at hnext hreads
          rw [if_pos rfl, hnext]
          refine ⟨_, rfl, ⟨hreads.stop, ?_, ?_⟩, hfaultless⟩
          · intro hstop
            obtain ⟨hread, hoffset⟩ := hreads.complete hstop
            exact ⟨congrArg (List.cons record.parts) hread, hoffset⟩
          · intro hstop
            obtain ⟨m, hm, hread⟩ := hreads.writeFailed hstop
            exact ⟨m + 1, Nat.succ_lt_succ hm, congrArg (List.cons record.parts) hread⟩

end Loop

/-! ## Sessions -/

/-- A recorder with the records appended to its buffer since it was last emptied. -/
structure Session where
  thread : ThreadImpl
  pending : List Record
  deriving DecidableEq, Repr

def Session.start (capacity threadId : ℕ) : Session := ⟨⟨[], capacity, 0, 0, 0, threadId, 0, 0⟩, []⟩

/-- What happens to a recorder: `append` and `flush` are the calls of `lor_trace__append` and
`lor_trace__thread_flush_internal`, and `count` are the changes that their callers make. -/
inductive Use where
  | append (os : Os) (now : UInt64) (trace : TraceImpl) (type : RecordType) (name : Bytes)
      (value : UInt64) (reservedEndsAfter : ℕ)
  | flush (os : Os) (trace : TraceImpl) (flushStream : Bool)
  | count (depth suppressedDepth reservedEnds droppedEvents : ℕ)

/-- `lor_trace__ensure_space` empties the buffer. -/
def Flushes (os : Os) (trace : TraceImpl) (thread : ThreadImpl) (recordSize reservedEndsAfter : ℕ) :
    Prop :=
  spaceAvailable thread recordSize reservedEndsAfter = false ∧ trace.bufferMode = .flush ∧
    (flushInternal os trace thread false).1 = .ok

instance (os : Os) (trace : TraceImpl) (thread : ThreadImpl) (recordSize reservedEndsAfter : ℕ) :
    Decidable (Flushes os trace thread recordSize reservedEndsAfter) :=
  inferInstanceAs (Decidable (_ ∧ _ ∧ _))

/-- An append; its record is what the caller passes, with the time since the trace began. -/
def Session.append (s : Session) (os : Os) (now : UInt64) (trace : TraceImpl) (type : RecordType)
    (name : Bytes) (value : UInt64) (reservedEndsAfter : ℕ) : Session :=
  let recorded := Trace.append os now trace s.thread type name value reservedEndsAfter
  let emptied := name.length ≤ uint32Max ∧
    Flushes os trace s.thread (headerSize + name.length) reservedEndsAfter
  ⟨recorded.thread, (if emptied then [] else s.pending) ++
    if recorded.record.isSome then [⟨type, name, value, timestamp trace now⟩] else []⟩

def Session.flush (s : Session) (os : Os) (trace : TraceImpl) (flushStream : Bool) : Session :=
  match flushInternal os trace s.thread flushStream with
  | (status, _, thread) => ⟨thread, if status = .ok then [] else s.pending⟩

def Session.step (s : Session) : Use → Session
  | .append os now trace type name value reservedEndsAfter =>
    s.append os now trace type name value reservedEndsAfter
  | .flush os trace flushStream => s.flush os trace flushStream
  | .count depth suppressedDepth reservedEnds droppedEvents =>
    { s with thread := { s.thread with
        depth := depth, suppressedDepth := suppressedDepth, reservedEnds := reservedEnds,
        droppedEvents := droppedEvents } }

def Session.run (s : Session) (uses : List Use) : Session := uses.foldl Session.step s

/-- The buffer consists of the pending records, and they fit into it. -/
structure Session.Holds (capacity : ℕ) (s : Session) : Prop where
  buffer : s.thread.buffer = encodeRecords s.pending
  names : ∀ record ∈ s.pending, record.name.length ≤ uint32Max
  capacity_eq : s.thread.capacity = capacity
  fits : s.thread.buffer.length ≤ capacity

section Session

variable {s : Session} {capacity : ℕ} (os : Os) (trace : TraceImpl)

theorem flushInternal_status (thread : ThreadImpl) (flushStream : Bool) :
    (flushInternal os trace thread flushStream).2.2 =
      if (flushInternal os trace thread flushStream).1 = .ok then { thread with buffer := [] }
      else thread := by
  unfold flushInternal
  by_cases hempty : thread.buffer.length = 0
  · have hsame : thread = { thread with buffer := [] } := by
      rw [← List.length_eq_zero_iff.1 hempty]
    rw [if_pos hempty, ← hsame, ite_self]
    split_ifs
    · rfl
    · rfl
    · split <;> rfl
  · rw [if_neg hempty]
    by_cases hopen : trace.closed = true ∨ trace.failed = true
    · rw [if_pos hopen]
      rfl
    · rw [if_neg hopen]
      dsimp only
      by_cases hfailed : (flushStreamLocked os flushStream
          (flushLoop os thread.threadId thread.buffer.length thread.buffer trace)).failed = true
      · rw [if_pos hfailed]
        rfl
      · rw [if_neg hfailed]
        rfl

theorem ensureSpace_thread (thread : ThreadImpl) (recordSize reservedEndsAfter : ℕ) :
    (ensureSpace os trace thread recordSize reservedEndsAfter).2.2 =
      if Flushes os trace thread recordSize reservedEndsAfter then { thread with buffer := [] }
      else thread := by
  by_cases hspace : spaceAvailable thread recordSize reservedEndsAfter = true
  · rw [ensureSpace, if_pos hspace, if_neg]
    rintro ⟨hfull, -⟩
    rw [hspace] at hfull
    cases hfull
  by_cases hmode : trace.bufferMode = .flush
  · have hiff : Flushes os trace thread recordSize reservedEndsAfter ↔
        (flushInternal os trace thread false).1 = .ok :=
      ⟨fun h => h.2.2, fun h => ⟨Bool.eq_false_of_not_eq_true hspace, hmode, h⟩⟩
    rw [ensureSpace, if_neg hspace, if_neg (not_not.2 hmode)]
    simp only [hiff, ← flushInternal_status]
    split
    · next hflush => rw [hflush]
    · next hflush => rw [hflush]
  · rw [ensureSpace, if_neg hspace, if_pos hmode, if_neg fun h => hmode h.2.1]

theorem append_spec (now : UInt64) (thread : ThreadImpl) (type : RecordType) (name : Bytes)
    (value : UInt64) (reservedEndsAfter : ℕ) :
    ∃ buffer, buffer = (if name.length ≤ uint32Max ∧ Flushes os trace thread
        (headerSize + name.length) reservedEndsAfter then [] else thread.buffer) ∧
      (append os now trace thread type name value reservedEndsAfter).thread.capacity =
        thread.capacity ∧
      ((append os now trace thread type name value reservedEndsAfter).record = none ∧
          (append os now trace thread type name value reservedEndsAfter).thread.buffer = buffer ∨
        (append os now trace thread type name value reservedEndsAfter).record.isSome ∧
          name.length ≤ uint32Max ∧ buffer.length + (headerSize + name.length) ≤ thread.capacity ∧
          (append os now trace thread type name value reservedEndsAfter).thread.buffer =
            buffer ++ (Record.mk type name value (timestamp trace now)).encode) := by
  have hlong : name.length > sizeMax - headerSize → name.length > uint32Max := by
    have hle : uint32Max ≤ sizeMax - headerSize := by decide
    omega
  by_cases hname : name.length > uint32Max
  · refine ⟨thread.buffer, (if_neg fun h => absurd h.1 (Nat.not_le.2 hname)).symm, ?_⟩
    rw [append, if_pos (Or.inl hname)]
    exact ⟨rfl, Or.inl ⟨rfl, rfl⟩⟩
  have hfits : name.length ≤ uint32Max := Nat.not_lt.1 hname
  have hthread := ensureSpace_thread os trace thread (headerSize + name.length) reservedEndsAfter
  rw [append, if_neg (not_or.2 ⟨hname, fun h => hname (hlong h)⟩)]
  rcases hensure : ensureSpace os trace thread (headerSize + name.length) reservedEndsAfter with
    ⟨ok, trace', thread'⟩
  obtain ⟨hprepared, hspace⟩ := ensureSpace_prepared hensure
  obtain ⟨file, firstEvent, failed, -, hsettings⟩ := hprepared.touched
  rw [hensure] at hthread
  change thread' = _ at hthread
  have hbuffer : thread'.buffer = if name.length ≤ uint32Max ∧ Flushes os trace thread
      (headerSize + name.length) reservedEndsAfter then [] else thread.buffer := by
    simp only [hfits, true_and]
    rw [hthread]
    split_ifs <;> rfl
  have hcapacity : thread'.capacity = thread.capacity := by
    rw [hthread]
    split_ifs <;> rfl
  refine ⟨thread'.buffer, hbuffer, ?_⟩
  cases ok with
  | false => exact ⟨hcapacity, Or.inl ⟨rfl, rfl⟩⟩
  | true =>
      have hroom := le_of_spaceAvailable (hspace rfl) (by simp [headerSize])
      refine ⟨hcapacity, Or.inr ⟨rfl, hfits, by omega, ?_⟩⟩
      have hnow : timestamp trace' now = timestamp trace now := by
        rw [hsettings]
        rfl
      dsimp only
      rw [hnow, List.append_assoc]
      rfl

theorem Session.Holds.append (h : s.Holds capacity) (now : UInt64) (type : RecordType)
    (name : Bytes) (value : UInt64) (reservedEndsAfter : ℕ) :
    (s.append os now trace type name value reservedEndsAfter).Holds capacity := by
  obtain ⟨buffer, hbuffer, hcapacity, hresult⟩ :=
    append_spec os trace now s.thread type name value reservedEndsAfter
  rw [h.capacity_eq] at hcapacity
  generalize hkept : (if name.length ≤ uint32Max ∧ Flushes os trace s.thread
    (headerSize + name.length) reservedEndsAfter then [] else s.pending) = kept
  have hencoded : buffer = encodeRecords kept := by
    rw [hbuffer, ← hkept]
    split_ifs
    · rfl
    · exact h.buffer
  have hroom : buffer.length ≤ capacity := by
    rw [hbuffer]
    split_ifs
    · exact Nat.zero_le _
    · exact h.fits
  have hnames : ∀ record ∈ kept, record.name.length ≤ uint32Max := by
    rw [← hkept]
    split_ifs
    · simp
    · exact h.names
  rw [Session.append, hkept]
  rcases hresult with ⟨hnone, hsame⟩ | ⟨hsome, hname, hfits, hgrown⟩
  · rw [hnone, Option.isSome_none, if_neg (by simp), List.append_nil]
    exact ⟨hsame.trans hencoded, hnames, hcapacity, hsame ▸ hroom⟩
  · rw [hsome, if_pos rfl]
    refine ⟨?_, ?_, hcapacity, ?_⟩
    · rw [encodeRecords_append, ← hencoded, encodeRecords_singleton]
      exact hgrown
    · exact List.forall_mem_append.2 ⟨hnames, by simpa using hname⟩
    · dsimp only
      rw [hgrown, List.length_append, length_record_encode, ← h.capacity_eq]
      exact hfits

theorem Session.Holds.flush (h : s.Holds capacity) (flushStream : Bool) :
    (s.flush os trace flushStream).Holds capacity := by
  have hthread := flushInternal_status os trace s.thread flushStream
  unfold Session.flush
  rcases hflush : flushInternal os trace s.thread flushStream with ⟨status, trace', thread'⟩
  rw [hflush] at hthread
  dsimp only at hthread ⊢
  by_cases hok : status = .ok
  · rw [if_pos hok] at hthread ⊢
    rw [hthread]
    exact ⟨rfl, by simp, h.capacity_eq, Nat.zero_le _⟩
  · rw [if_neg hok] at hthread ⊢
    rw [hthread]
    exact h

theorem Session.Holds.step (h : s.Holds capacity) (use : Use) : (s.step use).Holds capacity := by
  cases use with
  | append os now trace type name value reservedEndsAfter =>
      exact h.append os trace now type name value reservedEndsAfter
  | flush os trace flushStream => exact h.flush os trace flushStream
  | count depth suppressedDepth reservedEnds droppedEvents =>
      exact ⟨h.buffer, h.names, h.capacity_eq, h.fits⟩

theorem Session.Holds.run (h : s.Holds capacity) (uses : List Use) :
    (s.run uses).Holds capacity := by
  induction uses generalizing s with
  | nil => exact h
  | cons use uses ih => exact ih (h.step use)

theorem length_le_encodeRecords (records : List Record) :
    records.length ≤ (encodeRecords records).length := by
  induction records with
  | nil => exact Nat.zero_le _
  | cons record records ih =>
      have hpositive : 0 < headerSize := by decide
      rw [length_encodeRecords_cons, List.length_cons]
      omega

/-- After any session, the loop of a flush reads exactly the records appended since the buffer was
last emptied, in their order, and ends with its offset at the end of the buffer. Only a failing
write stops it before, at a record, and never a truncated header, an oversized name or an unknown
type. -/
theorem decoder_reads_back (capacity id : ℕ) (uses : List Use) (os : Os) (threadId : ℕ)
    (trace : TraceImpl) :
    let s := (Session.start capacity id).run uses
    s.thread.buffer.length ≤ capacity ∧ ∃ decoded,
      decodeLoop os threadId s.thread.buffer (s.thread.buffer.length + 1) 0 trace = some decoded ∧
      decoded.trace = flushLoop os threadId s.thread.buffer.length s.thread.buffer trace ∧
      ReadsBack s.thread.buffer.length s.pending decoded ∧
      (os.Faultless → decoded.stop = .complete) := by
  intro s
  have hstart : (Session.start capacity id).Holds capacity := ⟨rfl, by simp [Session.start], rfl,
    Nat.zero_le _⟩
  have hholds : s.Holds capacity := hstart.run uses
  have hlength := length_le_encodeRecords s.pending
  rw [← hholds.buffer] at hlength
  obtain ⟨decoded, hdecoded, hreads, hfaultless⟩ := decodeLoop_records os threadId []
    hholds.names (Nat.lt_succ_of_le hlength) trace
  rw [List.nil_append, ← hholds.buffer] at hdecoded hreads
  exact ⟨hholds.fits, decoded, hdecoded, decodeLoop_trace hdecoded le_rfl, hreads, hfaultless⟩

end Session

def fullDisk : Os where
  fault := fun _ => some 0
  autoName := fun _ => []

def openedTrace : TraceImpl where
  file := ⟨[91, 10], 1⟩
  originNs := 1500
  processId := 7
  nextThreadId := 2
  activeThreads := 1
  bufferSize := 1024
  bufferMode := .flush
  firstEvent := true
  failed := false
  closed := false

/-- Two records of which the first cannot be written. -/
theorem failed_write_stops_decoder :
    ∃ s decoded, s = (Session.start 1024 1).run [
        .append quietOs 2000 openedTrace .beginZone [97] 0 1,
        .append quietOs 2500 openedTrace .endZone [] 0 0] ∧
      s.pending = [⟨.beginZone, [97], 0, 500⟩, ⟨.endZone, [], 0, 1000⟩] ∧
      decodeLoop fullDisk 1 s.thread.buffer (s.thread.buffer.length + 1) 0 openedTrace =
        some decoded ∧
      decoded.read = [(⟨500, 0, 1, 1⟩, [97])] ∧ decoded.read ≠ s.pending.map Record.parts ∧
      decoded.offset = 24 ∧ s.thread.buffer.length = 49 :=
  ⟨_, _, rfl, by decide +kernel, rfl, by decide +kernel, by decide +kernel, by decide +kernel,
    by decide +kernel⟩

end Liblor.Trace
