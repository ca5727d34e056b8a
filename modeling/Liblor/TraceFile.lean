import Liblor.TraceNesting
import Liblor.TraceText

/-!
# A finished trace file is the JSON of its events

The file of a trace that has not failed is the array of the items written so far without its end.
The items of a thread are its name and the records that have been flushed, and the rest of its
records lies in its buffer.
-/

namespace Liblor.Trace

open JsonText Transition

/-- What one object of the file is about. -/
inductive Item where
  | processName (name : Bytes)
  | threadName (threadId : ℕ) (name : Bytes)
  | event (threadId : ℕ) (record : Record)
  deriving DecidableEq, Repr

namespace Item

def threadId : Item → ℕ
  | .processName _ => 0
  | .threadName threadId _ => threadId
  | .event threadId _ => threadId

variable (os : Os) (processId : ℕ)

def text : Item → Bytes
  | .processName name => objectText (metadataEntries processId "process_name" 0 name)
  | .threadName threadId name => objectText (metadataEntries processId "thread_name" threadId name)
  | .event threadId record => objectText (recordEntries os processId threadId record)

/-- The members of the object. -/
def json : Item → List (Bytes × Value)
  | .processName name => metadataJson processId "process_name" 0 name
  | .threadName threadId name => metadataJson processId "thread_name" threadId name
  | .event threadId record => record.json os processId threadId

variable {os processId}

theorem reads (item : Item) (depth : ℕ) :
    Reads (value (depth + 3)) (item.text os processId) (.obj (item.json os processId)) := by
  cases item with
  | processName name => exact reads_metadata processId _ _ name depth
  | threadName threadId name => exact reads_metadata processId _ _ name depth
  | event threadId record => exact reads_record os processId threadId record depth

end Item

/-- Whether an object has this thread id. -/
def carries (threadId : ℕ) (members : List (Bytes × Value)) : Bool :=
  members.any fun m => m.1 == ascii "tid" &&
    match m.2 with
    | .num q => q == threadId
    | _ => false

/-- The file after these items. -/
def fileText (texts : List Bytes) : Bytes :=
  91 :: if texts = [] then [10] else [44].intercalate (texts.map (10 :: ·))

section Text

variable {os : Os} {processId : ℕ}

theorem carries_number (threadId n : ℕ) :
    carries threadId [(numberEntry "tid" n).2] = (n == threadId) := by
  simp only [carries, numberEntry, entry, List.any_cons, List.any_nil, Bool.or_false,
    beq_self_eq_true, Bool.true_and]
  rw [Bool.eq_iff_iff]
  simp

theorem carries_of_key {threadId : ℕ} {m : Bytes × Value} {members : List (Bytes × Value)}
    (h : m.1 ≠ ascii "tid") : carries threadId (m :: members) = carries threadId members := by
  simp [carries, h]

theorem carries_cons (threadId : ℕ) (m : Bytes × Value) (members : List (Bytes × Value)) :
    carries threadId (m :: members) = (carries threadId [m] || carries threadId members) := by
  simp [carries]

theorem carries_json (threadId : ℕ) (item : Item) :
    carries threadId (item.json os processId) = (item.threadId == threadId) := by
  have hkeys : ascii "name" ≠ ascii "tid" ∧ ascii "ph" ≠ ascii "tid" ∧ ascii "pid" ≠ ascii "tid" ∧
      ascii "cat" ≠ ascii "tid" ∧ ascii "ts" ≠ ascii "tid" ∧ ascii "s" ≠ ascii "tid" ∧
      ascii "args" ≠ ascii "tid" := by decide
  obtain ⟨hname, hph, hpid, hcat, hts, hs, hargs⟩ := hkeys
  have hnil : carries threadId [] = false := rfl
  have hmetadata : ∀ metadataName n name,
      carries threadId (metadataJson processId metadataName n name) = (n == threadId) := by
    intro metadataName n name
    rw [metadataJson, metadataEntries, List.map_cons, List.map_cons, List.map_cons, List.map_cons,
      List.map_cons, List.map_nil, carries_of_key hname, carries_of_key hph, carries_of_key hpid,
      carries_cons, carries_number, carries_of_key hargs, hnil, Bool.or_false]
  have hnamed : ∀ n record name category phase, ∀ more : List (Bytes × Value),
      carries threadId more = false →
      carries threadId
          ((namedEntries processId n record name category phase).map Prod.snd ++ more) =
        (n == threadId) := by
    intro n record name category phase more hmore
    simp only [namedEntries, List.map_cons, List.map_nil, List.cons_append, List.nil_append]
    rw [carries_of_key hname, carries_of_key hcat, carries_of_key hph, carries_of_key hpid,
      carries_cons, carries_number, carries_of_key hts, hmore, Bool.or_false]
  cases item with
  | processName name => exact hmetadata _ _ name
  | threadName n name => exact hmetadata _ n name
  | event n record =>
      rw [Item.json, Record.json, recordEntries]
      split
      · have hplain := hnamed n record record.name "lor" "B" [] hnil
        rwa [List.append_nil] at hplain
      · rw [List.map_cons, List.map_cons, List.map_cons, List.map_cons, List.map_nil,
          carries_of_key hph, carries_of_key hpid, carries_cons, carries_number, carries_of_key hts,
          hnil, Bool.or_false]
        rfl
      · rw [List.map_append]
        exact hnamed n record _ _ _ _ (by rw [List.map_singleton, carries_of_key hs, hnil])
      · rw [List.map_append]
        exact hnamed n record _ _ _ _ (by rw [List.map_singleton, carries_of_key hargs, hnil])
      · have hplain := hnamed n record (os.autoName record.value) "lor.auto" "B" [] hnil
        rwa [List.append_nil] at hplain

theorem intercalate_concat (texts : List Bytes) (text : Bytes) (hne : texts ≠ []) :
    [44].intercalate (texts ++ [text]) = [44].intercalate texts ++ 44 :: text := by
  induction texts with
  | nil => exact absurd rfl hne
  | cons first texts ih =>
      cases texts with
      | nil => simp
      | cons second texts =>
          have hrest := ih (by simp)
          rw [List.cons_append, List.cons_append, List.intercalate_cons_cons, ← List.cons_append,
            hrest, List.intercalate_cons_cons]
          simp

theorem fileText_concat (texts : List Bytes) (text : Bytes) :
    fileText (texts ++ [text]) = fileText texts ++ separator texts.isEmpty ++ text := by
  cases texts with
  | nil => simp [fileText, separator]
  | cons first texts =>
      have hconcat := intercalate_concat ((first :: texts).map (10 :: ·)) (10 :: text) (by simp)
      rw [fileText, if_neg (by simp), List.map_append, List.map_singleton, hconcat, fileText,
        if_neg (by simp)]
      simp [separator]

theorem parse_fileText (items : List Item) :
    parse (fileText (items.map (Item.text os processId)) ++ [10, 93, 10]) =
      some (.arr (items.map fun item => .obj (item.json os processId))) := by
  have hpad : ∀ b ∈ ([10] : Bytes), isSpace b := by simp [isSpace]
  have hrest : skipSpace [10] = [] := rfl
  cases items with
  | nil =>
      have hpads : ∀ b ∈ ([10, 10] : Bytes), isSpace b := by simp [isSpace]
      exact parse_arr_nil hpads hrest
  | cons item items =>
      have hobject : ∀ item : Item, ∃ more, item.text os processId = 123 :: more := by
        intro item
        cases item with
        | processName name => exact ⟨_, rfl⟩
        | threadName threadId name => exact ⟨_, rfl⟩
        | event threadId record => exact ⟨_, rfl⟩
      let entries : List (Bytes × Value) := (item :: items).map fun item =>
        (10 :: item.text os processId, .obj (item.json os processId))
      have htexts : entries.map Prod.fst =
          ((item :: items).map (Item.text os processId)).map (10 :: ·) := by
        simp [entries]
      have hvalues : entries.map Prod.snd =
          (item :: items).map fun item => .obj (item.json os processId) := by
        simp [entries]
      have hfile : fileText ((item :: items).map (Item.text os processId)) ++ [10, 93, 10] =
          91 :: ([44].intercalate (entries.map Prod.fst) ++ ([10] ++ 93 :: [10])) := by
        rw [fileText, if_neg (by simp), htexts]
        simp
      obtain ⟨more, hmore⟩ := hobject item
      have hbegin : ∃ more', [44].intercalate (entries.map Prod.fst) = 10 :: 123 :: more' := by
        rw [htexts, List.map_cons, List.map_cons, hmore]
        cases (items.map (Item.text os processId)).map (10 :: ·) with
        | nil => exact ⟨more, List.intercalate_singleton⟩
        | cons t texts =>
            rw [List.intercalate_cons_cons]
            exact ⟨_, rfl⟩
      obtain ⟨more', hmore'⟩ := hbegin
      rw [hfile, ← hvalues]
      obtain ⟨depth, hdepth⟩ : ∃ depth,
          (91 :: ([44].intercalate (entries.map Prod.fst) ++ ([10] ++ 93 :: [10]))).length =
            depth + 3 + 1 := by
        refine ⟨more'.length + 2, ?_⟩
        rw [hmore']
        simp
      refine parse_arr hpad (ends_of_head (by decide)) hrest (by simp [entries]) ?_ hdepth ?_
      · rw [hmore', List.cons_append, skipSpace_cons (by decide), List.cons_append,
          skipSpace_of_not (by decide), List.head?_cons]
        decide
      · intro e he
        obtain ⟨item', -, rfl⟩ := List.mem_map.1 he
        exact (item'.reads depth).space (by decide)

end Text

section Written

variable {os : Os} {trace : TraceImpl} {items : List Item}

/-- The file of the trace consists of these items so far. -/
structure Written (os : Os) (trace : TraceImpl) (items : List Item) : Prop where
  bytes : trace.file.bytes = fileText (items.map (Item.text os trace.processId))
  firstEvent : trace.firstEvent = items.isEmpty

/-- One more item: a write that is not marked as failed has succeeded. -/
theorem Written.item {write : Write} (item : Item) (h : Written os trace items)
    (hwrite : EmitsEvent write fun processId => item.text os processId)
    (hfailed : (write trace).2.failed = false) :
    (write trace).1 = true ∧ Written os (write trace).2 (items ++ [item]) := by
  rcases hwrite trace with ⟨calls, heq⟩ | ⟨-, hbad⟩
  · rw [heq]
    refine ⟨rfl, ?_, ?_⟩
    · rw [List.map_append, List.map_singleton, fileText_concat]
      simp only
      rw [h.bytes, h.firstEvent, List.isEmpty_map]
    · simp
  · rw [hbad] at hfailed
    cases hfailed

theorem decode_header_encode (header : Header) (rest : Bytes) :
    Header.decode (header.encode ++ rest) = header := by
  have h8 := LittleEndian.length_encode 8 header.timestampNs.toNat
  have h8' := LittleEndian.length_encode 8 header.value.toNat
  have h4 := LittleEndian.length_encode 4 header.nameSize.toNat
  have hbytes : header.encode ++ rest = LittleEndian.encode 8 header.timestampNs.toNat ++
      (LittleEndian.encode 8 header.value.toNat ++ (LittleEndian.encode 4 header.nameSize.toNat ++
        (header.type :: 0 :: 0 :: 0 :: rest))) := by
    simp [Header.encode]
  have htimestamp : header.timestampNs.toNat < 256 ^ 8 := header.timestampNs.toNat_lt
  have hvalue : header.value.toNat < 256 ^ 8 := header.value.toNat_lt
  have hsize : header.nameSize.toNat < 256 ^ 4 := header.nameSize.toNat_lt
  have hdrop16 : ((header.encode ++ rest).drop 16) =
      LittleEndian.encode 4 header.nameSize.toNat ++ (header.type :: 0 :: 0 :: 0 :: rest) := by
    rw [hbytes, ← List.append_assoc, List.drop_left' (by rw [List.length_append, h8, h8'])]
  have htype : (header.encode ++ rest).getD 20 0 = header.type := by
    have hdrop20 : (header.encode ++ rest).drop 20 = header.type :: 0 :: 0 :: 0 :: rest := by
      have hdrop := congrArg (List.drop 4) hdrop16
      rwa [List.drop_drop, List.drop_left' h4] at hdrop
    rw [List.getD_eq_getElem?_getD, ← List.head?_drop, hdrop20]
    rfl
  have hdrop8 : ((header.encode ++ rest).drop 8) = LittleEndian.encode 8 header.value.toNat ++
      (LittleEndian.encode 4 header.nameSize.toNat ++ (header.type :: 0 :: 0 :: 0 :: rest)) := by
    rw [hbytes, List.drop_left' h8]
  have htake8 : ((header.encode ++ rest).take 8) =
      LittleEndian.encode 8 header.timestampNs.toNat := by
    rw [hbytes, List.take_left' h8]
  rw [Header.decode, htype, hdrop16, hdrop8, htake8, List.take_left' h8', List.take_left' h4,
    LittleEndian.decode_encode_of_lt htimestamp, LittleEndian.decode_encode_of_lt hvalue,
    LittleEndian.decode_encode_of_lt hsize, UInt64.ofNat_toNat, UInt64.ofNat_toNat,
    UInt32.ofNat_toNat]

theorem flushLoop_cons {threadId : ℕ} {record : Record} {trace' : TraceImpl} {ok : Bool} (fuel : ℕ)
    (records : List Record) (hname : record.name.length ≤ uint32Max)
    (hwrite : writeRecordLocked os threadId record.header record.name trace = (ok, trace')) :
    Trace.flushLoop os threadId (fuel + 1) (encodeRecords (record :: records)) trace =
      if ok then Trace.flushLoop os threadId fuel (encodeRecords records) trace' else trace' := by
  have hsplit : encodeRecords (record :: records) =
      record.header.encode ++ (record.name ++ encodeRecords records) := by
    simp [encodeRecords, Record.encode]
  have hheader := length_header_encode record.header
  have hsize : (Header.decode (record.header.encode ++
      (record.name ++ encodeRecords records))).nameSize.toNat = record.name.length := by
    rw [decode_header_encode]
    have hlt : record.name.length < 2 ^ 32 := by
      simp only [uint32Max] at hname
      omega
    exact UInt32.toNat_ofNat_of_lt' hlt
  have hdrop : (record.header.encode ++ (record.name ++ encodeRecords records)).drop headerSize =
      record.name ++ encodeRecords records := List.drop_left' hheader
  rw [hsplit, Trace.flushLoop, if_neg (by rw [List.length_append, hheader]; simp [headerSize]),
    if_neg (by rw [List.length_append]; omega)]
  dsimp only
  rw [hsize, hdrop, if_neg (by simp), List.take_left, List.drop_left, decode_header_encode, hwrite]
  cases ok with
  | false => rfl
  | true => rfl

theorem Written.flushLoop {threadId fuel : ℕ} {records : List Record} (h : Written os trace items)
    (hfuel : (encodeRecords records).length ≤ fuel)
    (hnames : ∀ record ∈ records, record.name.length ≤ uint32Max)
    (hfailed : (Trace.flushLoop os threadId fuel (encodeRecords records) trace).failed = false) :
    Written os (Trace.flushLoop os threadId fuel (encodeRecords records) trace)
      (items ++ records.map (Item.event threadId)) := by
  induction records generalizing fuel trace items with
  | nil =>
      have hsame : Trace.flushLoop os threadId fuel [] trace = trace := by
        cases fuel with
        | zero => rfl
        | succ fuel => rfl
      rw [encodeRecords_nil, hsame, List.map_nil, List.append_nil]
      exact h
  | cons record records ih =>
      have hlength := length_encodeRecords_cons record records
      obtain ⟨n, rfl⟩ : ∃ n, fuel = n + 1 := by
        refine ⟨fuel - 1, ?_⟩
        simp only [headerSize] at hlength
        omega
      have hrecord := emits_record os threadId record
      have hstep := h.item (.event threadId record) hrecord
      rcases hwrite : writeRecordLocked os threadId record.header record.name trace
        with ⟨ok, trace'⟩
      rw [flushLoop_cons n records (hnames record List.mem_cons_self) hwrite] at hfailed ⊢
      rw [hwrite] at hstep
      cases ok with
      | false =>
          obtain ⟨hbad, -⟩ := hstep hfailed
          cases hbad
      | true =>
          rw [if_pos rfl] at hfailed ⊢
          have hbefore :=
            (touched_flushLoop os threadId n (encodeRecords records) trace').not_failed hfailed
          have hnext := ih (hstep hbefore).2 (by
              simp only [headerSize] at hlength
              omega)
            (fun record' hmem => hnames record' (List.mem_cons_of_mem _ hmem)) hfailed
          rwa [List.append_assoc] at hnext

theorem Written.sync (h : Written os trace items) : Written os (Trace.sync os trace).2 items :=
  ⟨h.bytes, h.firstEvent⟩

theorem Written.flushStreamLocked (h : Written os trace items) (flushStream : Bool) :
    Written os (Trace.flushStreamLocked os flushStream trace) items := by
  unfold Trace.flushStreamLocked
  split_ifs
  · have hsync := h.sync
    split
    · next hcall =>
        rw [hcall] at hsync
        exact hsync
    · next hcall =>
        rw [hcall] at hsync
        exact ⟨hsync.bytes, hsync.firstEvent⟩
  · exact h

/-- A flush that is not marked as failed has written the records and emptied the buffer. -/
theorem Written.flush {impl : ThreadImpl} {records : List Record} (h : Written os trace items)
    (hbuffer : impl.buffer = encodeRecords records)
    (hnames : ∀ record ∈ records, record.name.length ≤ uint32Max) (flushStream : Bool)
    (hfailed : (flushInternal os trace impl flushStream).2.1.failed = false) :
    (flushInternal os trace impl flushStream).2.2 = { impl with buffer := [] } ∧
      Written os (flushInternal os trace impl flushStream).2.1
        (items ++ records.map (Item.event impl.threadId)) := by
  unfold flushInternal at hfailed ⊢
  by_cases hempty : impl.buffer.length = 0
  · have hnil : impl.buffer = [] := List.length_eq_zero_iff.1 hempty
    have hrecords : records = [] := by
      cases records with
      | nil => rfl
      | cons record records =>
          rw [hbuffer] at hempty
          simp [encodeRecords, length_record_encode, headerSize] at hempty
    have hsync := h.sync
    rw [if_pos hempty] at hfailed ⊢
    rw [hrecords, List.map_nil, List.append_nil]
    have hsame : impl = { impl with buffer := [] } := by rw [← hnil]
    split_ifs at hfailed ⊢
    · exact ⟨hsame, h⟩
    · split at hfailed
      · next hcall =>
          rw [hcall] at hsync
          exact ⟨hsame, hsync⟩
      · cases hfailed
  · rw [if_neg hempty] at hfailed ⊢
    split_ifs at hfailed ⊢ with hclosed
    dsimp only at hfailed ⊢
    split_ifs at hfailed ⊢ with hbad
    · rw [hbad] at hfailed
      cases hfailed
    · refine ⟨rfl, ?_⟩
      have hstream := touched_flushStreamLocked os flushStream
        (Trace.flushLoop os impl.threadId impl.buffer.length impl.buffer trace)
      have hloop := hstream.not_failed hfailed
      rw [hbuffer] at hloop ⊢
      exact (h.flushLoop le_rfl hnames hloop).flushStreamLocked flushStream

end Written

section Split

variable {os : Os} {i : ℕ} {name : Option Bytes} {records : List Record} {buffer : Bytes}
  {items : List Item}

/-- A thread's records are its items in the file, behind its name, and the records in its buffer. -/
def Split (i : ℕ) (name : Option Bytes) (records : List Record) (buffer : Bytes)
    (items : List Item) : Prop :=
  ∃ flushed rest, records = flushed ++ rest ∧ buffer = encodeRecords rest ∧
    (∀ record ∈ rest, record.name.length ≤ uint32Max) ∧
    items.filter (fun item => item.threadId == i + 1) =
      name.toList.map (Item.threadName (i + 1)) ++ flushed.map (Item.event (i + 1))

theorem Split.append (h : Split i name records buffer items) {new : List Record}
    (hnames : ∀ record ∈ new, record.name.length ≤ uint32Max) :
    Split i name (records ++ new) (buffer ++ encodeRecords new) items := by
  obtain ⟨flushed, rest, rfl, rfl, hrest, hitems⟩ := h
  refine ⟨flushed, rest ++ new, List.append_assoc _ _ _, (encodeRecords_append _ _).symm, ?_,
    hitems⟩
  intro record hmem
  rcases List.mem_append.1 hmem with hmem | hmem
  · exact hrest record hmem
  · exact hnames record hmem

theorem Split.flushed (h : Split i name records [] items) :
    items.filter (fun item => item.threadId == i + 1) =
      name.toList.map (Item.threadName (i + 1)) ++ records.map (Item.event (i + 1)) := by
  obtain ⟨flushed, rest, rfl, hbuffer, -, hitems⟩ := h
  have hrest : rest = [] := by
    cases rest with
    | nil => rfl
    | cons record rest =>
        have hlength := congrArg List.length hbuffer
        simp only [encodeRecords, List.flatMap_cons, List.length_append, length_record_encode,
          headerSize, List.length_nil] at hlength
        omega
  rw [hrest, List.append_nil, hitems]

theorem Split.other {j : ℕ} {new : List Item} (h : Split j name records buffer items)
    (hnew : ∀ item ∈ new, item.threadId = i + 1) (hne : j ≠ i) :
    Split j name records buffer (items ++ new) := by
  obtain ⟨flushed, rest, hrecords, hbuffer, hnames, hitems⟩ := h
  refine ⟨flushed, rest, hrecords, hbuffer, hnames, ?_⟩
  have hnone : new.filter (fun item => item.threadId == j + 1) = [] := by
    rw [List.filter_eq_nil_iff]
    intro item hmem
    rw [hnew item hmem]
    simpa using fun heq => hne heq.symm
  rw [List.filter_append, hnone, List.append_nil, hitems]

theorem Split.flush {trace : TraceImpl} {impl : ThreadImpl}
    (h : Split i name records impl.buffer items)
    (hwritten : Written os trace items) (hid : impl.threadId = i + 1) (flushStream : Bool)
    (hfailed : (flushInternal os trace impl flushStream).2.1.failed = false) :
    (flushInternal os trace impl flushStream).2.2 = { impl with buffer := [] } ∧
      ∃ new, (∀ item ∈ new, item.threadId = i + 1) ∧
        Written os (flushInternal os trace impl flushStream).2.1 (items ++ new) ∧
        Split i name records [] (items ++ new) := by
  obtain ⟨flushed, rest, rfl, hbuffer, hnames, hitems⟩ := h
  obtain ⟨himpl, hnext⟩ := hwritten.flush hbuffer hnames flushStream hfailed
  rw [hid] at hnext
  refine ⟨himpl, rest.map (Item.event (i + 1)), ?_, hnext, flushed ++ rest, [], by simp, rfl,
    by simp, ?_⟩
  · intro item hmem
    obtain ⟨record, -, rfl⟩ := List.mem_map.1 hmem
    rfl
  · have hall : (rest.map (Item.event (i + 1))).filter (fun item => item.threadId == i + 1) =
        rest.map (Item.event (i + 1)) := by
      rw [List.filter_eq_self]
      intro item hmem
      obtain ⟨record, -, rfl⟩ := List.mem_map.1 hmem
      exact beq_self_eq_true _
    rw [List.filter_append, hitems, hall, List.map_append, List.append_assoc]

/-- A recording function that has not failed: the flush in it and its record. -/
theorem Split.performed {trace : TraceImpl} {impl : ThreadImpl} {recorded : Recorded}
    (h : Split i name records impl.buffer items) (hwritten : Written os trace items)
    (hid : impl.threadId = i + 1) (hperformed : Performed os trace impl recorded)
    (hfailed : recorded.trace.failed = false) :
    recorded.thread.threadId = i + 1 ∧
      ∃ new, (∀ item ∈ new, item.threadId = i + 1) ∧ Written os recorded.trace (items ++ new) ∧
        Split i name (records ++ recorded.record.toList) recorded.thread.buffer (items ++ new) := by
  obtain ⟨before, after, hbefore, hid', hprepared, hid'', hbuffer, hname⟩ := hperformed
  refine ⟨hid''.trans hid, ?_⟩
  have hnames : ∀ record ∈ recorded.record.toList, record.name.length ≤ uint32Max :=
    fun record hmem => hname record (Option.mem_toList.1 hmem)
  rw [hbuffer]
  rcases hprepared with heq | heq
  · rw [Prod.mk.injEq] at heq
    obtain ⟨htrace, rfl⟩ := heq
    refine ⟨[], by simp, ?_, ?_⟩
    · rw [htrace, List.append_nil]
      exact hwritten
    · rw [hbefore, List.append_nil]
      exact h.append hnames
  · rw [← hbefore] at h
    have hflush := h.flush hwritten (hid'.trans hid) false
    rw [← heq] at hflush
    obtain ⟨hafter, new, hnew, hnext, hsplit⟩ := hflush hfailed
    dsimp only at hafter
    refine ⟨new, hnew, hnext, ?_⟩
    rw [hafter]
    exact hsplit.append hnames

end Split

section System

variable {os : Os} {processId : ℕ} {processName : Option Bytes}

def Thread.active (thread : Thread) : Bool := decide (thread.phase ≠ .finished)

/-- What holds while the trace has not failed. -/
structure Consistent (os : Os) (processId : ℕ) (processName : Option Bytes) (s : State)
    (items : List Item) : Prop where
  written : Written os s.trace items
  processId_eq : s.trace.processId = processId
  nextThreadId : s.trace.nextThreadId = s.threads.length + 1
  activeThreads : s.trace.activeThreads = s.threads.countP Thread.active
  process : items.filter (fun item => item.threadId == 0) = processName.toList.map Item.processName
  bounded : ∀ item ∈ items, item.threadId ≤ s.threads.length
  threadId : ∀ (i : ℕ) (thread : Thread), s.threads[i]? = some thread → thread.impl.threadId = i + 1
  split : ∀ (i : ℕ) (thread : Thread), s.threads[i]? = some thread →
    Split i thread.name thread.records thread.impl.buffer items
  emptied : ∀ (i : ℕ) (thread : Thread), s.threads[i]? = some thread → thread.phase ≠ .recording →
    thread.impl.buffer = []

theorem Touched.frame {trace trace' : TraceImpl} (h : Touched trace trace') :
    trace'.processId = trace.processId ∧ trace'.nextThreadId = trace.nextThreadId ∧
      trace'.activeThreads = trace.activeThreads := by
  obtain ⟨file, firstEvent, failed, -, rfl⟩ := h
  exact ⟨rfl, rfl, rfl⟩

theorem countP_active_set {threads : List Thread} {i : ℕ} {thread : Thread}
    (h : threads[i]? = some thread) (thread' : Thread) :
    (threads.set i thread').countP Thread.active =
      threads.countP Thread.active - (if thread.active then 1 else 0) +
        if thread'.active then 1 else 0 := by
  obtain ⟨hlt, rfl⟩ := List.getElem?_eq_some_iff.1 h
  exact List.countP_set hlt

/-- Thread `i` changes and these items of it are written. -/
theorem Consistent.set {s : State} {items : List Item} {i : ℕ} {thread : Thread}
    (trace' : TraceImpl) (thread' : Thread) (new : List Item)
    (h : Consistent os processId processName s items)
    (hthread : s.threads[i]? = some thread) (hprocessId : trace'.processId = s.trace.processId)
    (hnext : trace'.nextThreadId = s.trace.nextThreadId)
    (hactive : trace'.activeThreads = (s.threads.set i thread').countP Thread.active)
    (hnew : ∀ item ∈ new, item.threadId = i + 1) (hwritten : Written os trace' (items ++ new))
    (hid : thread'.impl.threadId = i + 1)
    (hsplit : Split i thread'.name thread'.records thread'.impl.buffer (items ++ new))
    (hemptied : thread'.phase ≠ .recording → thread'.impl.buffer = []) :
    Consistent os processId processName
      { s with trace := trace', threads := s.threads.set i thread' } (items ++ new) := by
  have hlt := (List.getElem?_eq_some_iff.1 hthread).1
  have hcases : ∀ j other, (s.threads.set i thread')[j]? = some other →
      (j = i ∧ other = thread') ∨ (j ≠ i ∧ s.threads[j]? = some other) := by
    intro j other hother
    rw [List.getElem?_set] at hother
    split_ifs at hother with heq
    · exact Or.inl ⟨heq.symm, (Option.some.inj hother).symm⟩
    · exact Or.inr ⟨fun hji => heq hji.symm, hother⟩
  refine ⟨hwritten, hprocessId.trans h.processId_eq, ?_, hactive, ?_, ?_, ?_, ?_, ?_⟩
  · simp only [List.length_set]
    rw [hnext, h.nextThreadId]
  · have hnone : new.filter (fun item => item.threadId == 0) = [] := by
      rw [List.filter_eq_nil_iff]
      intro item hmem
      rw [hnew item hmem]
      simp
    rw [List.filter_append, hnone, List.append_nil, h.process]
  · intro item hmem
    simp only [List.length_set]
    rcases List.mem_append.1 hmem with hmem | hmem
    · exact h.bounded item hmem
    · rw [hnew item hmem]
      exact hlt
  · intro j other hother
    rcases hcases j other hother with ⟨rfl, rfl⟩ | ⟨hne, hold⟩
    · exact hid
    · exact h.threadId j other hold
  · intro j other hother
    rcases hcases j other hother with ⟨rfl, rfl⟩ | ⟨hne, hold⟩
    · exact hsplit
    · exact (h.split j other hold).other hnew hne
  · intro j other hother hphase
    rcases hcases j other hother with ⟨rfl, rfl⟩ | ⟨hne, hold⟩
    · exact hemptied hphase
    · exact h.emptied j other hold hphase

theorem countP_active_same {threads : List Thread} {i : ℕ} {thread thread' : Thread}
    (h : threads[i]? = some thread) (hactive : thread'.active = thread.active) :
    (threads.set i thread').countP Thread.active = threads.countP Thread.active := by
  rw [countP_active_set h, hactive]
  split_ifs with htrue
  · have hpos := List.countP_pos_iff.2 ⟨thread, List.mem_of_getElem? h, htrue⟩
    omega
  · omega

theorem Consistent.call {s : State} {items new : List Item} {i : ℕ} {thread thread' : Thread}
    {trace' : TraceImpl} (h : Consistent os processId processName s items)
    (hthread : s.threads[i]? = some thread) (htouched : Touched s.trace trace')
    (hnew : ∀ item ∈ new, item.threadId = i + 1) (hwritten : Written os trace' (items ++ new))
    (hid : thread'.impl.threadId = i + 1)
    (hsplit : Split i thread'.name thread'.records thread'.impl.buffer (items ++ new))
    (hactive : thread'.active = thread.active)
    (hemptied : thread'.phase ≠ .recording → thread'.impl.buffer = []) :
    Consistent os processId processName
      { s with trace := trace', threads := s.threads.set i thread' } (items ++ new) := by
  obtain ⟨hprocessId, hnext, hactiveThreads⟩ := htouched.frame
  refine h.set trace' thread' new hthread hprocessId hnext ?_ hnew hwritten hid hsplit hemptied
  rw [hactiveThreads, h.activeThreads, countP_active_same hthread hactive]

theorem Consistent.event {s : State} {items : List Item} {i : ℕ} {thread : Thread}
    (h : Consistent os processId processName s items) (hsound : ThreadSound thread)
    (hthread : s.threads[i]? = some thread) (hphase : thread.phase = .recording) (call : EventCall)
    (now : UInt64) (hfailed : (s.event os i thread call now).trace.failed = false) :
    ∃ new, Consistent os processId processName (s.event os i thread call now) (items ++ new) := by
  have hperformed := call.performed os now s.trace thread.impl
  obtain ⟨hid, new, hnew, hwritten, hsplit⟩ := (h.split i thread hthread).performed h.written
    (h.threadId i thread hthread) hperformed hfailed
  have hrecords : (thread.event os s.trace call now).records = thread.records ++
      (call.perform os now s.trace thread.impl).record.toList := by
    obtain ⟨hclosing, -⟩ := hsound.recording hphase
    simp [Thread.records, Thread.event, hclosing, Function.comp_def]
  rw [← hrecords] at hsplit
  exact ⟨new, h.call hthread hperformed.touched hnew hwritten hid hsplit rfl
    (fun hother => absurd hphase hother)⟩

theorem Consistent.flush {s : State} {items : List Item} {i : ℕ} {thread : Thread}
    (h : Consistent os processId processName s items) (hthread : s.threads[i]? = some thread)
    (hphase : thread.phase = .recording)
    (hfailed : (s.threadFlush os i thread).trace.failed = false) :
    ∃ new, Consistent os processId processName (s.threadFlush os i thread) (items ++ new) := by
  have hid := h.threadId i thread hthread
  obtain ⟨himpl, new, hnew, hwritten, hsplit⟩ :=
    (h.split i thread hthread).flush h.written hid true hfailed
  have hstate : s.threadFlush os i thread = { s with
      trace := (flushInternal os s.trace thread.impl true).2.1
      threads := s.threads.set i { thread with
        impl := { thread.impl with buffer := [] } } } := by
    rw [← himpl]
    rfl
  rw [hstate]
  exact ⟨new, h.call hthread (touched_flushInternal os s.trace thread.impl true) hnew hwritten hid
    hsplit rfl (fun hother => absurd hphase hother)⟩

theorem Consistent.threadFinish {s : State} {items : List Item} {i : ℕ} {thread : Thread}
    (h : Consistent os processId processName s items) (hsound : ThreadSound thread)
    (hthread : s.threads[i]? = some thread) (hphase : thread.phase = .recording) (now : ℕ → UInt64)
    (hfailed : (s.threadFinish os i thread now).trace.failed = false) :
    ∃ new, Consistent os processId processName (s.threadFinish os i thread now) (items ++ new) := by
  obtain ⟨hclosing, zones, hrecording⟩ := hsound.recording hphase
  obtain ⟨records, closed, -, htype, hbuffer, hclosedId, hfinish⟩ :=
    threadFinish_eq os now s.trace hrecording.tracks
  have hid := hclosedId.trans (h.threadId i thread hthread)
  have hnames : ∀ record ∈ records, record.name.length ≤ uint32Max := by
    intro record hmem
    rw [(htype record hmem).2]
    exact Nat.zero_le _
  have happended := (h.split i thread hthread).append hnames
  rw [← hbuffer] at happended
  simp only [State.threadFinish, Thread.finish_eq hfinish] at hfailed ⊢
  rw [hfinish] at hfailed ⊢
  obtain ⟨himpl, new, hnew, hwritten, hsplit⟩ := happended.flush h.written hid true hfailed
  have hrecords : thread.records ++ records = thread.log.map Prod.snd ++ records := by
    rw [Thread.records, hclosing, List.append_nil]
  rw [hrecords] at hsplit
  rw [himpl]
  exact ⟨new, h.call hthread (touched_flushInternal os s.trace closed true) hnew hwritten hid
    hsplit (by simp [Thread.active, hphase]) (fun _ => rfl)⟩

theorem Consistent.threadRelease {s : State} {items : List Item} {i : ℕ} {thread : Thread}
    (h : Consistent os processId processName s items) (hthread : s.threads[i]? = some thread)
    (hphase : thread.phase = .releasing) :
    Consistent os processId processName (s.threadRelease i thread) items := by
  have htrue : thread.active = true := by simp [Thread.active, hphase]
  have hpos := List.countP_pos_iff.2 ⟨thread, List.mem_of_getElem? hthread, htrue⟩
  have hne : s.trace.activeThreads ≠ 0 := by
    rw [h.activeThreads]
    omega
  have hrelease : Trace.threadRelease s.trace =
      { s.trace with activeThreads := s.trace.activeThreads - 1 } := if_pos hne
  have hwritten : Written os (Trace.threadRelease s.trace) (items ++ []) := by
    rw [hrelease, List.append_nil]
    exact ⟨h.written.bytes, h.written.firstEvent⟩
  have hactive : (Trace.threadRelease s.trace).activeThreads =
      (s.threads.set i { thread with phase := .finished }).countP Thread.active := by
    rw [countP_active_set hthread, if_pos htrue, hrelease, h.activeThreads]
    simp [Thread.active]
  have hsplit : Split i thread.name thread.records thread.impl.buffer (items ++ []) := by
    rw [List.append_nil]
    exact h.split i thread hthread
  have hset := h.set (Trace.threadRelease s.trace) { thread with phase := .finished } [] hthread
    (by rw [hrelease]) (by rw [hrelease]) hactive (by simp) hwritten (h.threadId i thread hthread)
    hsplit (fun _ => h.emptied i thread hthread (by rw [hphase]; nofun))
  rwa [List.append_nil] at hset

theorem filter_threadName (n m : ℕ) (name : Option Bytes) :
    (name.toList.map (Item.threadName n)).filter (fun item => item.threadId == m) =
      if n = m then name.toList.map (Item.threadName n) else [] := by
  split_ifs with heq
  · rw [List.filter_eq_self]
    intro item hmem
    obtain ⟨name', -, rfl⟩ := List.mem_map.1 hmem
    exact beq_iff_eq.2 heq
  · rw [List.filter_eq_nil_iff]
    intro item hmem
    obtain ⟨name', -, rfl⟩ := List.mem_map.1 hmem
    simpa [Item.threadId] using heq

theorem Consistent.push {s : State} {items : List Item} {trace' : TraceImpl} {impl : ThreadImpl}
    (name : Option Bytes) (h : Consistent os processId processName s items)
    (hprocessId : trace'.processId = s.trace.processId)
    (hnext : trace'.nextThreadId = s.trace.nextThreadId + 1)
    (hactive : trace'.activeThreads = s.trace.activeThreads + 1)
    (hwritten : Written os trace'
      (items ++ name.toList.map (Item.threadName s.trace.nextThreadId)))
    (hbuffer : impl.buffer = []) (hid : impl.threadId = s.trace.nextThreadId) :
    Consistent os processId processName
      { s with
        trace := trace', threads := s.threads ++ [⟨impl, name, [], [], [], .recording⟩] }
      (items ++ name.toList.map (Item.threadName s.trace.nextThreadId)) := by
  rw [h.nextThreadId] at hwritten hid hnext ⊢
  have hcases : ∀ (j : ℕ) (other : Thread),
      (s.threads ++ [⟨impl, name, [], [], [], .recording⟩])[j]? = some other →
      s.threads[j]? = some other ∨
        (j = s.threads.length ∧ other = ⟨impl, name, [], [], [], .recording⟩) := by
    intro j other hother
    rcases Nat.lt_or_ge j s.threads.length with hlt | hge
    · rw [List.getElem?_append_left hlt] at hother
      exact Or.inl hother
    · rw [List.getElem?_append_right hge] at hother
      have hzero := (List.getElem?_eq_some_iff.1 hother).1
      rw [List.length_singleton] at hzero
      have heq : j = s.threads.length := by omega
      rw [heq, Nat.sub_self, List.getElem?_cons_zero] at hother
      exact Or.inr ⟨heq, (Option.some.inj hother).symm⟩
  refine ⟨hwritten, hprocessId.trans h.processId_eq, ?_, ?_, ?_, ?_, ?_, ?_, ?_⟩
  · simp only [List.length_append, List.length_singleton]
    exact hnext
  · simp only
    rw [hactive, h.activeThreads, List.countP_append, List.countP_singleton]
    rfl
  · rw [List.filter_append, h.process, filter_threadName, if_neg (Nat.succ_ne_zero _),
      List.append_nil]
  · intro item hmem
    simp only [List.length_append, List.length_singleton]
    rcases List.mem_append.1 hmem with hmem | hmem
    · exact (h.bounded item hmem).trans (Nat.le_succ _)
    · obtain ⟨name', -, rfl⟩ := List.mem_map.1 hmem
      exact le_rfl
  · intro j other hother
    rcases hcases j other hother with hold | ⟨rfl, rfl⟩
    · exact h.threadId j other hold
    · exact hid
  · intro j other hother
    rcases hcases j other hother with hold | ⟨rfl, rfl⟩
    · have hlt := (List.getElem?_eq_some_iff.1 hold).1
      have hsplit := h.split j other hold
      obtain ⟨flushed, rest, hrecords, hrest, hnames, hitems⟩ := hsplit
      refine ⟨flushed, rest, hrecords, hrest, hnames, ?_⟩
      rw [List.filter_append, hitems, filter_threadName, if_neg (by omega), List.append_nil]
    · have hnone : items.filter (fun item => item.threadId == s.threads.length + 1) = [] := by
        rw [List.filter_eq_nil_iff]
        intro item hmem hsame
        have hle := h.bounded item hmem
        have heq := beq_iff_eq.1 hsame
        omega
      refine ⟨[], [], rfl, hbuffer, by simp, ?_⟩
      rw [List.filter_append, hnone, filter_threadName, if_pos rfl, List.nil_append, List.map_nil,
        List.append_nil]
  · intro j other hother hphase
    rcases hcases j other hother with hold | ⟨rfl, rfl⟩
    · exact h.emptied j other hold hphase
    · exact hbuffer

theorem Consistent.threadInit {s : State} {items : List Item} (allocated : Bool)
    (name : Option Bytes) (h : Consistent os processId processName s items)
    (hfailed : (s.threadInit os allocated name).trace.failed = false) :
    ∃ new, Consistent os processId processName (s.threadInit os allocated name) (items ++ new) := by
  have hsame : ∃ new, Consistent os processId processName s (items ++ new) :=
    ⟨[], by rw [List.append_nil]; exact h⟩
  rw [State.threadInit, Trace.threadInit] at hfailed ⊢
  by_cases hallocated : allocated = false
  · rw [if_pos hallocated]
    exact hsame
  rw [if_neg hallocated] at hfailed ⊢
  by_cases hclosed : s.trace.closed = true ∨ s.trace.failed = true
  · rw [if_pos hclosed]
    exact hsame
  rw [if_neg hclosed] at hfailed ⊢
  have hwritten : Written os { s.trace with nextThreadId := s.trace.nextThreadId + 1 } items :=
    ⟨h.written.bytes, h.written.firstEvent⟩
  cases name with
  | none =>
      refine ⟨_, h.push none rfl rfl rfl ?_ rfl rfl⟩
      rw [Option.toList_none, List.map_nil, List.append_nil]
      exact ⟨h.written.bytes, h.written.firstEvent⟩
  | some name =>
      have hitem := hwritten.item (.threadName s.trace.nextThreadId name)
        (emits_metadata os "thread_name" s.trace.nextThreadId name)
      have htouched := touches_writeMetadataLocked os "thread_name" s.trace.nextThreadId name
        { s.trace with nextThreadId := s.trace.nextThreadId + 1 }
      dsimp only at hfailed ⊢
      rcases hwrite : writeMetadataLocked os "thread_name" s.trace.nextThreadId name
        { s.trace with nextThreadId := s.trace.nextThreadId + 1 } with ⟨ok, trace'⟩
      rw [hwrite] at hfailed hitem htouched
      cases ok with
      | false =>
          obtain ⟨hbad, -⟩ := hitem hfailed
          cases hbad
      | true =>
          obtain ⟨-, hnext⟩ := hitem hfailed
          obtain ⟨hprocessId, hnextId, hactive⟩ := htouched.frame
          refine ⟨_, h.push (some name) hprocessId hnextId ?_ ?_ rfl rfl⟩
          · exact congrArg (· + 1) hactive
          · exact ⟨hnext.bytes, hnext.firstEvent⟩

/-- The file that has been finished without a failure. -/
structure Finished (os : Os) (processId : ℕ) (processName : Option Bytes) (s : State)
    (items : List Item) : Prop where
  bytes : s.trace.file.bytes = fileText (items.map (Item.text os processId)) ++ [10, 93, 10]
  process : items.filter (fun item => item.threadId == 0) = processName.toList.map Item.processName
  bounded : ∀ item ∈ items, item.threadId ≤ s.threads.length
  threads : ∀ (i : ℕ) (thread : Thread), s.threads[i]? = some thread →
    thread.phase = .finished ∧ items.filter (fun item => item.threadId == i + 1) =
      thread.name.toList.map (Item.threadName (i + 1)) ++ thread.records.map (Item.event (i + 1))

theorem Consistent.finish {s : State} {items : List Item}
    (h : Consistent os processId processName s items)
    (hactive : s.trace.activeThreads = 0)
    (hwritten : (writeLiteral os "\n]\n" s.trace).1 = true) :
    Finished os processId processName (s.finish os) items := by
  have hfile : (s.finish os).trace.file.bytes = s.trace.file.bytes ++ ascii "\n]\n" := by
    rw [State.finish, Trace.finish, if_neg (not_not.2 hactive)]
    rcases emits_writeLiteral os "\n]\n" s.trace with ⟨calls, heq⟩ | ⟨hfalse, -⟩
    · dsimp only
      rw [heq]
      rfl
    · rw [hfalse] at hwritten
      cases hwritten
  have hend : ascii "\n]\n" = [10, 93, 10] := by decide
  refine ⟨?_, h.process, h.bounded, ?_⟩
  · rw [hfile, h.written.bytes, h.processId_eq, hend]
  · intro i thread hthread
    change s.threads[i]? = some thread at hthread
    have hfinished : thread.phase = .finished := by
      have hzero := h.activeThreads
      rw [hactive] at hzero
      have hnone := List.countP_eq_zero.1 hzero.symm thread (List.mem_of_getElem? hthread)
      simpa [Thread.active] using hnone
    have hsplit := h.split i thread hthread
    rw [h.emptied i thread hthread (by rw [hfinished]; decide)] at hsplit
    exact ⟨hfinished, hsplit.flushed⟩

/-- What holds in every state, with the items as the file has them. -/
structure FileSound (os : Os) (processId : ℕ) (processName : Option Bytes) (s : State) : Prop where
  sound : Sound s
  consistent : s.result = none → s.trace.failed = false →
    ∃ items, Consistent os processId processName s items
  finished : s.result = some .ok → ∃ items, Finished os processId processName s items

theorem threadInit_not_failed {s : State} {allocated : Bool} {name : Option Bytes}
    (hfailed : (s.threadInit os allocated name).trace.failed = false) :
    s.trace.failed = false := by
  rw [State.threadInit, Trace.threadInit] at hfailed
  split_ifs at hfailed
  · exact hfailed
  · exact hfailed
  · cases name with
    | none => exact hfailed
    | some name =>
        have htouched := touches_writeMetadataLocked os "thread_name" s.trace.nextThreadId name
          { s.trace with nextThreadId := s.trace.nextThreadId + 1 }
        dsimp only at hfailed
        rcases hwrite : writeMetadataLocked os "thread_name" s.trace.nextThreadId name
          { s.trace with nextThreadId := s.trace.nextThreadId + 1 } with ⟨ok, trace'⟩
        rw [hwrite] at hfailed htouched
        cases ok with
        | false => exact htouched.not_failed hfailed
        | true => exact htouched.not_failed hfailed

theorem FileSound.start {init : InitOs} {config : Config} {trace : TraceImpl}
    (h : initFile os init config = (.ok, some trace)) :
    FileSound os init.processId config.processName ⟨trace, [], none⟩ := by
  have hreachable : Reachable (system os init config) ⟨trace, [], none⟩ :=
    ⟨[], .start ⟨trace, h, rfl⟩⟩
  refine ⟨sound_of_reachable hreachable, fun _ _ => ?_, nofun⟩
  obtain ⟨fresh, first, hfresh, hfirst, hlast⟩ := initFile_ok h
  have hopening : ascii "[\n" = [91, 10] := by decide
  have hbegin : Written os first [] ∧ first.processId = init.processId ∧ first.nextThreadId = 1 ∧
      first.activeThreads = 0 := by
    rcases emits_writeLiteral os "[\n" fresh with ⟨calls, heq⟩ | ⟨hfalse, -⟩
    · rw [heq] at hfirst
      cases hfirst
      refine ⟨⟨?_, hfresh.firstEvent⟩, hfresh.processId, hfresh.nextThreadId, hfresh.activeThreads⟩
      simp only [hfresh.bytes, hopening]
      rfl
    · rw [hfirst] at hfalse
      cases hfalse
  obtain ⟨hwritten, hprocessId', hnext', hactive'⟩ := hbegin
  rcases hlast with ⟨hname, rfl⟩ | ⟨name, hname, hwrite⟩
  · refine ⟨[], hwritten, hprocessId', hnext', hactive', ?_, by simp, by simp, by simp, by simp⟩
    rw [hname]
    rfl
  · have htouched := touches_writeMetadataLocked os "process_name" 0 name first
    have hevent := emits_metadata os "process_name" 0 name first
    rw [hwrite] at htouched hevent
    obtain ⟨hp, hn, ha⟩ := htouched.frame
    rcases hevent with ⟨calls, heq⟩ | ⟨hfalse, -⟩
    · have hitem : Written os trace [.processName name] := by
        have heq' := congrArg Prod.snd heq
        dsimp only at heq'
        rw [heq']
        refine ⟨?_, rfl⟩
        simp only [hwritten.bytes, hwritten.firstEvent]
        exact (fileText_concat [] _).symm
      refine ⟨[.processName name], hitem, hp.trans hprocessId', hn.trans hnext', ha.trans hactive',
        ?_, ?_, by simp, by simp, by simp⟩
      · rw [hname]
        rfl
      · intro item hmem
        rw [List.mem_singleton.1 hmem]
        exact le_rfl
    · cases hfalse

theorem FileSound.step {s s' : State} {e : Event} (h : FileSound os processId processName s)
    (hstep : Step os s e s') : FileSound os processId processName s' := by
  refine ⟨h.sound.step hstep, ?_, ?_⟩
  · intro hresult hfailed
    cases hstep with
    | threadInit hopen allocated name =>
        obtain ⟨items, hitems⟩ := h.consistent hopen (threadInit_not_failed hfailed)
        obtain ⟨new, hnew⟩ := hitems.threadInit allocated name hfailed
        exact ⟨_, hnew⟩
    | event hopen hthread hphase call now =>
        have hbefore := (call.performed os now s.trace _).touched.not_failed hfailed
        obtain ⟨items, hitems⟩ := h.consistent hopen hbefore
        have hsound := h.sound.threads _ (List.mem_of_getElem? hthread)
        obtain ⟨new, hnew⟩ := hitems.event hsound hthread hphase call now hfailed
        exact ⟨_, hnew⟩
    | threadFlush hopen hthread hphase =>
        have hbefore := (touched_flushInternal os s.trace _ true).not_failed hfailed
        obtain ⟨items, hitems⟩ := h.consistent hopen hbefore
        obtain ⟨new, hnew⟩ := hitems.flush hthread hphase hfailed
        exact ⟨_, hnew⟩
    | threadFinish hopen hthread hphase now =>
        have hsound := h.sound.threads _ (List.mem_of_getElem? hthread)
        obtain ⟨-, zones, hrecording⟩ := hsound.recording hphase
        obtain ⟨records, closed, -, -, -, -, hfinish⟩ :=
          threadFinish_eq os now s.trace hrecording.tracks
        have hafter := hfailed
        rw [State.threadFinish, hfinish] at hafter
        have hbefore := (touched_flushInternal os s.trace closed true).not_failed hafter
        obtain ⟨items, hitems⟩ := h.consistent hopen hbefore
        obtain ⟨new, hnew⟩ := hitems.threadFinish hsound hthread hphase now hfailed
        exact ⟨_, hnew⟩
    | threadRelease hopen hthread hphase =>
        have hbefore : s.trace.failed = false := by
          rw [State.threadRelease, Trace.threadRelease] at hfailed
          split_ifs at hfailed
          · exact hfailed
          · exact hfailed
        obtain ⟨items, hitems⟩ := h.consistent hopen hbefore
        exact ⟨items, hitems.threadRelease hthread hphase⟩
    | finish hopen =>
        by_cases hactive : s.trace.activeThreads = 0
        · rw [State.finish, Trace.finish, if_neg (not_not.2 hactive)] at hresult
          simp at hresult
        · rw [State.finish, Trace.finish, if_pos hactive] at hfailed ⊢
          obtain ⟨items, hitems⟩ := h.consistent hopen hfailed
          exact ⟨items, hitems.written, hitems.processId_eq, hitems.nextThreadId,
            hitems.activeThreads, hitems.process, hitems.bounded, hitems.threadId, hitems.split,
            hitems.emptied⟩
  · intro hresult
    cases hstep with
    | threadInit hopen allocated name =>
        rw [State.threadInit] at hresult
        split at hresult <;> simp [hopen] at hresult
    | event hopen => simp [State.event, hopen] at hresult
    | threadFlush hopen => simp [State.threadFlush, hopen] at hresult
    | threadFinish hopen => simp [State.threadFinish, hopen] at hresult
    | threadRelease hopen => simp [State.threadRelease, hopen] at hresult
    | finish hopen =>
        by_cases hactive : s.trace.activeThreads = 0
        · have hok := hresult
          rw [State.finish, Trace.finish, if_neg (not_not.2 hactive)] at hok
          dsimp only at hok
          rw [if_pos rfl] at hok
          split_ifs at hok with hall
          · obtain ⟨items, hitems⟩ := h.consistent hopen hall.1
            exact ⟨items, hitems.finish hactive hall.2.1⟩
          · cases hok
        · rw [State.finish, Trace.finish, if_pos hactive] at hresult
          dsimp only at hresult
          split_ifs at hresult
          cases hresult

theorem fileSound_of_reachable {init : InitOs} {config : Config} {s : State}
    (h : Reachable (system os init config) s) :
    FileSound os init.processId config.processName s := by
  refine h.invariant ?_ fun _ _ _ hs hstep => hs.step hstep
  rintro s ⟨trace, hinit, rfl⟩
  exact FileSound.start hinit

/-- If finishing the trace succeeds, then its file is one array of objects, and those with the id of
a thread are, in their order, the name of the thread and the events that it has recorded. -/
theorem finished_file_parses {init : InitOs} {config : Config} {s : State}
    (h : Reachable (system os init config) s) (hresult : s.result = some .ok) :
    ∃ elements : List (List (Bytes × Value)),
      parse s.trace.file.bytes = some (.arr (elements.map .obj)) ∧
      elements.filter (carries 0) =
        config.processName.toList.map (metadataJson init.processId "process_name" 0) ∧
      (∀ members ∈ elements, ∃ threadId ≤ s.threads.length, carries threadId members) ∧
      ∀ (i : ℕ) (thread : Thread), s.threads[i]? = some thread →
        elements.filter (carries (i + 1)) =
          thread.name.toList.map (metadataJson init.processId "thread_name" (i + 1)) ++
            thread.records.map (Record.json os init.processId (i + 1)) := by
  have hsound := fileSound_of_reachable h
  obtain ⟨items, hbytes, hprocess, hbounded, hthreads⟩ := hsound.finished hresult
  have hfilter : ∀ threadId, (items.map (Item.json os init.processId)).filter (carries threadId) =
      (items.filter fun item => item.threadId == threadId).map (Item.json os init.processId) := by
    intro threadId
    rw [List.filter_map]
    congr 2
    funext item
    exact carries_json threadId item
  refine ⟨items.map (Item.json os init.processId), ?_, ?_, ?_, ?_⟩
  · rw [hbytes, parse_fileText, List.map_map]
    rfl
  · rw [hfilter, hprocess, List.map_map]
    rfl
  · intro members hmem
    obtain ⟨item, hitem, rfl⟩ := List.mem_map.1 hmem
    exact ⟨item.threadId, hbounded item hitem, by rw [carries_json]; exact beq_self_eq_true _⟩
  · intro i thread hthread
    rw [hfilter, (hthreads i thread hthread).2, List.map_append, List.map_map, List.map_map]
    rfl

end System

/-- The default buffer in a trace with a process name. -/
def flushConfig : Config where
  bufferSize := 0
  bufferMode := .flush
  processName := some [97]
  bufferSize_le := by decide

/-- A counter of one thread with a name that needs an escape. -/
theorem finished_file_parses_counter :
    ∃ (s : State) (elements : List (List (Bytes × Value))),
      Reachable (system quietOs quietInit flushConfig) s ∧ s.result = some .ok ∧
      parse s.trace.file.bytes = some (.arr (elements.map .obj)) ∧
      elements.filter (carries 1) = [metadataJson 7 "thread_name" 1 [10],
        Record.json quietOs 7 1 ⟨.counter, [34], 5, 500⟩] := by
  have h₀ : Run (system quietOs quietInit flushConfig) [] _ := .start ⟨_, rfl, rfl⟩
  have h₁ := h₀.step (.threadInit rfl true (some [10]))
  have h₂ := h₁.step (.event (i := 0) rfl rfl rfl (.counter (some [34]) 5) 1500)
  have h₃ := h₂.step (.threadFinish (i := 0) rfl rfl rfl fun _ => 2000)
  have h₄ := h₃.step (.threadRelease (i := 0) rfl rfl rfl)
  have h₅ := h₄.step (.finish rfl)
  obtain ⟨elements, hparse, -, -, hthreads⟩ := finished_file_parses ⟨_, h₅⟩ (by decide +kernel)
  exact ⟨_, elements, ⟨_, h₅⟩, by decide +kernel, hparse, hthreads 0 _ rfl⟩

end Liblor.Trace
