import Liblor.JsonText
import Liblor.TraceAppend

/-!
# The texts of a trace file

What each writer appends to the file when it succeeds, and the JSON value that is read back from it.
-/

namespace Liblor.Trace

open JsonText

section Scalars

/-- The text of one byte in a string. -/
def jsonByte (byte : UInt8) : Bytes :=
  if byte = 34 then [92, 34]
  else if byte = 92 then [92, 92]
  else if byte = 8 then [92, 98]
  else if byte = 12 then [92, 102]
  else if byte = 10 then [92, 110]
  else if byte = 13 then [92, 114]
  else if byte = 9 then [92, 116]
  else if byte < 32 then [92, 117, 48, 48, hex (byte >>> 4), hex (byte &&& 15)]
  else [byte]

def jsonString (text : Bytes) : Bytes := 34 :: text.flatMap jsonByte ++ [34]

def timestampText (nanoseconds : ℕ) : Bytes :=
  decimal (nanoseconds / 1000) ++
    if nanoseconds % 1000 = 0 then [] else Trace.fraction (nanoseconds % 1000)

theorem hexValue_hex : ∀ n < 32, hexValue (hex (UInt8.ofNat n >>> 4)) = some (n / 16) ∧
    hexValue (hex (UInt8.ofNat n &&& 15)) = some (n % 16) := by decide +kernel

theorem jsonByte_first (byte : UInt8) : (jsonByte byte).head? ≠ some 34 ∧ jsonByte byte ≠ [] := by
  unfold jsonByte
  split_ifs with h34
  · decide
  · decide
  · decide
  · decide
  · decide
  · decide
  · decide
  · simp
  · simp [h34]

theorem character_jsonByte (byte : UInt8) (rest : Bytes) :
    character (jsonByte byte ++ rest) = some ([byte], rest) := by
  unfold jsonByte
  split_ifs with h34 h92 h8 h12 h10 h13 h9 h32
  · rw [h34]
    rfl
  · rw [h92]
    rfl
  · rw [h8]
    rfl
  · rw [h12]
    rfl
  · rw [h10]
    rfl
  · rw [h13]
    rfl
  · rw [h9]
    rfl
  · have hlt : byte.toNat < 32 := UInt8.lt_iff_toNat_lt.1 h32
    obtain ⟨hhigh, hlow⟩ := hexValue_hex byte.toNat hlt
    rw [UInt8.ofNat_toNat] at hhigh hlow
    have hzero : hexValue 48 = some 0 := rfl
    have hcode : ((0 * 16 + 0) * 16 + byte.toNat / 16) * 16 + byte.toNat % 16 = byte.toNat := by
      omega
    have hunit : codeUnit (48 :: 48 :: hex (byte >>> 4) :: hex (byte &&& 15) :: rest) =
        some ([byte], rest) := by
      simp only [codeUnit, hzero, hhigh, hlow, hcode]
      rw [utf8, if_pos (by omega), UInt8.ofNat_toNat]
    exact hunit
  · exact character_plain (by simp [h32, h34]) h92

theorem string_jsonString (text rest : Bytes) :
    JsonText.string (jsonString text ++ rest) = some (text, rest) := by
  have hquoted := string_quoted jsonByte text (fun b => (jsonByte_first b).1)
    (fun b => (jsonByte_first b).2) character_jsonByte rest
  rw [jsonString, List.append_assoc]
  exact hquoted

theorem digitByte (d : ℕ) (h : d < 10) : isDigit (UInt8.ofNat (48 + d)) = true ∧
    (UInt8.ofNat (48 + d)).toNat - 48 = d := by
  interval_cases d <;> decide

theorem ofDecimal_digits (digits : List ℕ) (h : ∀ d ∈ digits, d < 10) :
    ofDecimal (digits.reverse.map fun d => UInt8.ofNat (48 + d)) = Nat.ofDigits 10 digits := by
  rw [ofDecimal, List.map_reverse, List.foldl_reverse, Nat.ofDigits_eq_foldr]
  induction digits with
  | nil => rfl
  | cons d digits ih =>
      have hd := (digitByte d (h d List.mem_cons_self)).2
      rw [List.map_cons, List.foldr_cons, List.foldr_cons,
        ih fun d' hd' => h d' (List.mem_cons_of_mem _ hd'), hd]
      simp only [Nat.cast_id]
      omega

theorem decimal_spec (n : ℕ) : Decimal (decimal n) ∧ ofDecimal (decimal n) = n := by
  rw [decimal]
  split_ifs with hzero
  · rw [hzero]
    refine ⟨⟨by simp, fun b hb => ?_, fun _ => rfl⟩, rfl⟩
    rw [List.mem_singleton.1 hb]
    rfl
  · have hlt : ∀ d ∈ Nat.digits 10 n, d < 10 := fun d hd => Nat.digits_lt_base (by decide) hd
    have hne : Nat.digits 10 n ≠ [] := Nat.digits_ne_nil_iff_ne_zero.2 hzero
    refine ⟨⟨by simpa using hne, ?_, ?_⟩, ?_⟩
    · intro b hb
      obtain ⟨d, hd, rfl⟩ := List.mem_map.1 hb
      exact (digitByte d (hlt d (List.mem_reverse.1 hd))).1
    · intro hhead
      have hlast := Nat.getLast_digit_ne_zero 10 hzero
      have hlt' := hlt _ (List.getLast_mem hne)
      rw [List.head?_map, List.head?_reverse, List.getLast?_eq_getLast_of_ne_nil hne,
        Option.map_some, Option.some.injEq] at hhead
      have hvalue := (digitByte _ hlt').2
      rw [hhead] at hvalue
      exact absurd hvalue.symm hlast
    · rw [ofDecimal_digits _ hlt, Nat.ofDigits_digits]

theorem digit_head {digits : Bytes} (h : Decimal digits) :
    ∃ b more, digits = b :: more ∧ isDigit b := by
  cases digits with
  | nil => exact absurd rfl h.ne_nil
  | cons b more => exact ⟨b, more, rfl, h.isDigit b List.mem_cons_self⟩

theorem not_minus {digits text : Bytes} (h : Decimal digits) :
    ∀ rest, ((digits ++ text) ++ rest).head? ≠ some 45 := by
  intro rest hhead
  obtain ⟨b, more, rfl, hb⟩ := digit_head h
  cases hhead
  revert hb
  decide

theorem reads_digits {digits text : Bytes} {q : ℚ} (depth : ℕ) (h : Decimal digits)
    (hreads : Reads unsigned (digits ++ text) q) :
    Reads (value (depth + 1)) (digits ++ text) (.num q) := by
  apply reads_value_num
  · exact reads_number hreads (not_minus h)
  · obtain ⟨b, more, rfl, hb⟩ := digit_head h
    exact ⟨b, more ++ text, rfl, Or.inl hb⟩

theorem reads_decimal (depth n : ℕ) : Reads (value (depth + 1)) (decimal n) (.num n) := by
  obtain ⟨hdecimal, hvalue⟩ := decimal_spec n
  have hreads := reads_unsigned hdecimal
  rw [hvalue, ← List.append_nil (decimal n)] at hreads
  have hnum := reads_digits depth hdecimal hreads
  rwa [List.append_nil] at hnum

theorem reads_signedDecimal (depth : ℕ) (z : ℤ) :
    Reads (value (depth + 1)) (signedDecimal z) (.num z) := by
  rw [signedDecimal]
  split_ifs with hneg
  · obtain ⟨hdecimal, hvalue⟩ := decimal_spec z.natAbs
    have hreads := reads_number_neg (reads_unsigned hdecimal)
    have hz : (-((ofDecimal (decimal z.natAbs) : ℕ) : ℚ)) = (z : ℚ) := by
      have hint : -((z.natAbs : ℕ) : ℤ) = z := by omega
      rw [hvalue, ← hint]
      push_cast
      simp
    rw [hz] at hreads
    exact reads_value_num depth hreads ⟨45, _, rfl, Or.inr rfl⟩
  · have hreads := reads_decimal depth z.natAbs
    have hz : ((z.natAbs : ℕ) : ℚ) = (z : ℚ) := by
      have hint : ((z.natAbs : ℕ) : ℤ) = z := by omega
      rw [← hint]
      push_cast
      simp
    rwa [hz] at hreads

/-- A timestamp is written in microseconds. -/
theorem reads_timestampText (depth nanoseconds : ℕ) :
    Reads (value (depth + 1)) (timestampText nanoseconds) (.num (nanoseconds / 1000)) := by
  obtain ⟨hdecimal, hvalue⟩ := decimal_spec (nanoseconds / 1000)
  have hsum : ((nanoseconds : ℕ) : ℚ) =
      1000 * ((nanoseconds / 1000 : ℕ) : ℚ) + ((nanoseconds % 1000 : ℕ) : ℚ) := by
    exact_mod_cast (Nat.div_add_mod nanoseconds 1000).symm
  rw [timestampText]
  split_ifs with hzero
  · have hreads := reads_decimal depth (nanoseconds / 1000)
    have hq : (((nanoseconds / 1000 : ℕ) : ℕ) : ℚ) = (nanoseconds : ℚ) / 1000 := by
      rw [hsum, hzero]
      push_cast
      ring
    rw [List.append_nil]
    rwa [hq] at hreads
  · have hlt := Nat.mod_lt nanoseconds (by decide : 0 < 1000)
    generalize hr : nanoseconds % 1000 = r at *
    obtain ⟨h₁, v₁⟩ := digitByte (r / 100) (by omega)
    obtain ⟨h₂, v₂⟩ := digitByte (r / 10 % 10) (by omega)
    obtain ⟨h₃, v₃⟩ := digitByte (r % 10) (by omega)
    have hdigits : ∀ b ∈ [UInt8.ofNat (48 + r / 100), UInt8.ofNat (48 + r / 10 % 10),
        UInt8.ofNat (48 + r % 10)], isDigit b = true := by
      intro b hb
      simp only [List.mem_cons, List.not_mem_nil, or_false] at hb
      rcases hb with rfl | rfl | rfl
      · exact h₁
      · exact h₂
      · exact h₃
    have hreads := reads_unsigned_fraction _ hdecimal (List.cons_ne_nil _ _) hdigits
    have hthree : ofDecimal [UInt8.ofNat (48 + r / 100), UInt8.ofNat (48 + r / 10 % 10),
        UInt8.ofNat (48 + r % 10)] = r := by
      simp only [ofDecimal, List.foldl_cons, List.foldl_nil, v₁, v₂, v₃]
      omega
    have hq : ((ofDecimal (decimal (nanoseconds / 1000)) : ℕ) : ℚ) + ((r : ℕ) : ℚ) / 10 ^ 3 =
        (nanoseconds : ℚ) / 1000 := by
      rw [hvalue, hsum]
      ring
    rw [hthree] at hreads
    change Reads _ _ (((ofDecimal (decimal (nanoseconds / 1000)) : ℕ) : ℚ) + ((r : ℕ) : ℚ) / 10 ^ 3)
      at hreads
    rw [hq] at hreads
    exact reads_digits depth hdecimal hreads

end Scalars

section Items

/-- A member of an object: its text, its key and its value. -/
abbrev Entry := Bytes × Bytes × Value

def entry (key : String) (text : Bytes) (v : Value) : Entry :=
  (jsonString (ascii key) ++ 58 :: text, ascii key, v)

def stringEntry (key : String) (text : Bytes) : Entry := entry key (jsonString text) (.str text)

def numberEntry (key : String) (n : ℕ) : Entry := entry key (decimal n) (.num n)

def objectText (entries : List Entry) : Bytes :=
  123 :: [44].intercalate (entries.map Prod.fst) ++ [125]

def objectEntry (key : String) (entries : List Entry) : Entry :=
  entry key (objectText entries) (.obj (entries.map Prod.snd))

def timestampEntry (nanoseconds : ℕ) : Entry :=
  entry "ts" (timestampText nanoseconds) (.num (nanoseconds / 1000))

/-- A record under a name, a category and a phase. -/
def namedEntries (processId threadId : ℕ) (record : Record) (name : Bytes)
    (category phase : String) : List Entry :=
  [stringEntry "name" name, stringEntry "cat" (ascii category), stringEntry "ph" (ascii phase),
    numberEntry "pid" processId, numberEntry "tid" threadId,
    timestampEntry record.timestampNs.toNat]

/-- The event of a record. -/
def recordEntries (os : Os) (processId threadId : ℕ) (record : Record) : List Entry :=
  match record.type with
  | .beginZone => namedEntries processId threadId record record.name "lor" "B"
  | .endZone => [stringEntry "ph" (ascii "E"), numberEntry "pid" processId,
      numberEntry "tid" threadId, timestampEntry record.timestampNs.toNat]
  | .instant => namedEntries processId threadId record record.name "lor" "i" ++
      [stringEntry "s" (ascii "t")]
  | .counter => namedEntries processId threadId record record.name "lor" "C" ++
      [objectEntry "args" [entry "value" (signedDecimal record.value.toInt64.toInt)
        (.num record.value.toInt64.toInt)]]
  | .autoBeginZone =>
      namedEntries processId threadId record (os.autoName record.value) "lor.auto" "B"

def metadataEntries (processId : ℕ) (metadataName : String) (threadId : ℕ) (name : Bytes) :
    List Entry :=
  [stringEntry "name" (ascii metadataName), stringEntry "ph" (ascii "M"),
    numberEntry "pid" processId, numberEntry "tid" threadId,
    objectEntry "args" [stringEntry "name" name]]

/-- The members of the JSON object of a record. -/
def Record.json (os : Os) (processId threadId : ℕ) (record : Record) : List (Bytes × Value) :=
  (recordEntries os processId threadId record).map Prod.snd

/-- The members of a metadata object. -/
def metadataJson (processId : ℕ) (metadataName : String) (threadId : ℕ) (name : Bytes) :
    List (Bytes × Value) :=
  (metadataEntries processId metadataName threadId name).map Prod.snd

/-- The text of an entry is read back as its key and its value. -/
def Entry.Readable (depth : ℕ) (e : Entry) : Prop :=
  e.1.head? = some 34 ∧ Reads (member (value depth)) e.1 e.2

theorem readable_entry {key : String} {text : Bytes} {v : Value} {depth : ℕ}
    (h : Reads (value depth) text v) : (entry key text v).Readable depth :=
  ⟨rfl, reads_member (string_jsonString _) rfl h⟩

theorem readable_string (key : String) (text : Bytes) (depth : ℕ) :
    (stringEntry key text).Readable (depth + 1) :=
  readable_entry (reads_value_str depth rfl (string_jsonString text))

theorem readable_number (key : String) (n depth : ℕ) : (numberEntry key n).Readable (depth + 1) :=
  readable_entry (reads_decimal depth n)

theorem readable_timestamp (nanoseconds depth : ℕ) :
    (timestampEntry nanoseconds).Readable (depth + 1) :=
  readable_entry (reads_timestampText depth nanoseconds)

theorem reads_objectText {entries : List Entry} {depth : ℕ} (hne : entries ≠ [])
    (h : ∀ e ∈ entries, e.Readable depth) :
    Reads (value (depth + 1)) (objectText entries) (.obj (entries.map Prod.snd)) :=
  reads_value_obj depth hne (fun e he => (h e he).1) fun e he => (h e he).2

theorem readable_object {key : String} {entries : List Entry} {depth : ℕ} (hne : entries ≠ [])
    (h : ∀ e ∈ entries, e.Readable depth) : (objectEntry key entries).Readable (depth + 1) :=
  readable_entry (reads_objectText hne h)

theorem readable_namedEntries (processId threadId : ℕ) (record : Record) (name : Bytes)
    (category phase : String) (depth : ℕ) :
    ∀ e ∈ namedEntries processId threadId record name category phase, e.Readable (depth + 1) := by
  simp [namedEntries, readable_string, readable_number, readable_timestamp]

theorem reads_record (os : Os) (processId threadId : ℕ) (record : Record) (depth : ℕ) :
    Reads (value (depth + 3)) (objectText (recordEntries os processId threadId record))
      (.obj (record.json os processId threadId)) := by
  apply reads_objectText
  · unfold recordEntries
    split <;> simp [namedEntries]
  · have hnamed := readable_namedEntries processId threadId record
    unfold recordEntries
    split
    · exact hnamed _ _ _ (depth + 1)
    · simp [readable_string, readable_number, readable_timestamp]
    · intro e he
      rcases List.mem_append.1 he with he | he
      · exact hnamed _ _ _ (depth + 1) e he
      · rw [List.mem_singleton.1 he]
        exact readable_string _ _ _
    · intro e he
      rcases List.mem_append.1 he with he | he
      · exact hnamed _ _ _ (depth + 1) e he
      · rw [List.mem_singleton.1 he]
        apply readable_object (by simp)
        intro e' he'
        rw [List.mem_singleton.1 he']
        exact readable_entry (reads_signedDecimal depth _)
    · exact hnamed _ _ _ (depth + 1)

theorem reads_metadata (processId : ℕ) (metadataName : String) (threadId : ℕ) (name : Bytes)
    (depth : ℕ) :
    Reads (value (depth + 3)) (objectText (metadataEntries processId metadataName threadId name))
      (.obj (metadataJson processId metadataName threadId name)) := by
  apply reads_objectText (by simp [metadataEntries])
  have hargs : (objectEntry "args" [stringEntry "name" name]).Readable (depth + 2) := by
    apply readable_object (by simp)
    intro e he
    rw [List.mem_singleton.1 he]
    exact readable_string _ _ _
  simp [metadataEntries, readable_string, readable_number, hargs]

end Items

section Emits

variable (os : Os)

/-- A writer that appends this text and changes nothing else, or marks the trace as failed. -/
def Emits (write : Write) (text : Bytes) : Prop :=
  ∀ trace, (∃ calls, write trace =
      (true, { trace with file := ⟨trace.file.bytes ++ text, calls⟩ })) ∨
    (write trace).1 = false ∧ (write trace).2.failed = true

theorem emits_output (data : Bytes) : Emits (output os data) data := by
  intro trace
  unfold output
  split
  · exact Or.inl ⟨_, rfl⟩
  · exact Or.inr ⟨rfl, rfl⟩

theorem emits_pass : Emits (fun trace => (true, trace)) [] :=
  fun trace => Or.inl ⟨trace.file.calls, by rw [List.append_nil]⟩

theorem emits_writeBytes (data : Bytes) : Emits (writeBytes os data) data := by
  intro trace
  unfold writeBytes
  split
  · next hempty =>
      rw [List.length_eq_zero_iff.1 hempty]
      exact emits_pass trace
  · exact emits_output os data trace

theorem emits_writeLiteral (text : String) : Emits (writeLiteral os text) (ascii text) :=
  emits_writeBytes os _

theorem emits_writeChar (value : UInt8) : Emits (writeChar os value) [value] := emits_output os _

theorem emits_writeU64 (value : ℕ) : Emits (writeU64 os value) (decimal value) := emits_output os _

theorem emits_writeI64 (value : ℤ) : Emits (writeI64 os value) (signedDecimal value) :=
  emits_output os _

theorem Emits.all {writes : List Write} {texts : List Bytes} (h : List.Forall₂ Emits writes texts) :
    Emits (all writes) texts.flatten := by
  induction h with
  | nil => exact emits_pass
  | cons hfirst hrest ih =>
      intro trace
      rw [Trace.all, List.flatten_cons]
      rcases hfirst trace with ⟨calls, heq⟩ | ⟨hfalse, hfailed⟩
      · rw [heq]
        rcases ih { trace with file := ⟨trace.file.bytes ++ _, calls⟩ } with ⟨calls', heq'⟩ | hbad
        · left
          refine ⟨calls', ?_⟩
          dsimp only
          rw [heq', List.append_assoc]
        · exact Or.inr hbad
      · right
        split
        · next hwrite =>
            rw [hwrite] at hfailed
            exact ⟨rfl, hfailed⟩
        · next hwrite =>
            rw [hwrite] at hfalse
            cases hfalse

theorem emits_ite {p : Prop} [Decidable p] {write write' : Write} {text text' : Bytes}
    (h : Emits write text) (h' : Emits write' text') :
    Emits (if p then write else write') (if p then text else text') := by
  split
  · exact h
  · exact h'

theorem emits_writeJsonByte (byte : UInt8) : Emits (writeJsonByte os byte) (jsonByte byte) := by
  unfold writeJsonByte jsonByte
  iterate 7
    refine emits_ite (emits_writeLiteral os _) ?_
  exact emits_ite (emits_writeBytes os _) (emits_writeChar os _)

theorem emits_writeJsonString (text : Bytes) :
    Emits (writeJsonString os text) (jsonString text) := by
  have hbytes : List.Forall₂ Emits (text.map (writeJsonByte os)) (text.map jsonByte) := by
    rw [List.forall₂_map_left_iff, List.forall₂_map_right_iff, List.forall₂_same]
    exact fun byte _ => emits_writeJsonByte os byte
  have hall := Emits.all (List.rel_append (List.Forall₂.cons (emits_writeChar os 34) hbytes)
    (List.Forall₂.cons (emits_writeChar os 34) .nil))
  have htext : jsonString text =
      (([34] :: text.map jsonByte) ++ [[34]] : List Bytes).flatten := by
    simp [jsonString, List.flatMap]
  rw [htext]
  exact hall

theorem emits_writeTimestamp (nanoseconds : ℕ) :
    Emits (writeTimestamp os nanoseconds) (timestampText nanoseconds) := by
  have hfraction : Emits (fun trace => if nanoseconds % 1000 = 0 then (true, trace)
      else output os (Trace.fraction (nanoseconds % 1000)) trace)
      (if nanoseconds % 1000 = 0 then [] else Trace.fraction (nanoseconds % 1000)) := by
    split_ifs
    · exact emits_pass
    · exact emits_output os _
  have hall := Emits.all (List.Forall₂.cons (emits_writeU64 os (nanoseconds / 1000))
    (List.Forall₂.cons hfraction .nil))
  rw [List.flatten_cons, List.flatten_cons, List.flatten_nil, List.append_nil] at hall
  exact hall

/-- What stands before an event. -/
def separator (firstEvent : Bool) : Bytes := if firstEvent then [] else [44, 10]

/-- A writer that appends one event, with a separator before it unless it is the first. -/
def EmitsEvent (write : Write) (text : ℕ → Bytes) : Prop :=
  ∀ trace, (∃ calls, write trace = (true, { trace with
      file := ⟨trace.file.bytes ++ separator trace.firstEvent ++ text trace.processId, calls⟩
      firstEvent := false })) ∨
    (write trace).1 = false ∧ (write trace).2.failed = true

theorem emitsEvent_of_rest (writes : ℕ → List Write) {texts : ℕ → List Bytes}
    (h : ∀ processId, List.Forall₂ Emits (writes processId) (texts processId)) :
    EmitsEvent (fun trace => all (eventSeparator os :: writes trace.processId) trace)
      fun processId => (texts processId).flatten := by
  intro trace
  have hrest := Emits.all (h trace.processId)
  dsimp only
  rw [Trace.all]
  cases hfirst : trace.firstEvent with
  | true =>
      have hseparator : eventSeparator os trace = (true, { trace with firstEvent := false }) := by
        rw [eventSeparator, hfirst, if_pos rfl]
      rw [hseparator]
      rcases hrest { trace with firstEvent := false } with ⟨calls, heq⟩ | hbad
      · left
        refine ⟨calls, ?_⟩
        dsimp only
        rw [heq]
        simp [separator]
      · exact Or.inr hbad
  | false =>
      have hseparator : eventSeparator os trace = writeLiteral os ",\n" trace := by
        rw [eventSeparator, hfirst, if_neg (by simp)]
      rw [hseparator]
      rcases emits_writeLiteral os ",\n" trace with ⟨calls, heq⟩ | ⟨hfalse, hfailed⟩
      · rw [heq]
        have hcomma : ascii ",\n" = [44, 10] := by decide
        rcases hrest { trace with
          file := ⟨trace.file.bytes ++ ascii ",\n", calls⟩ } with ⟨calls', heq'⟩ | hbad
        · left
          refine ⟨calls', ?_⟩
          dsimp only
          rw [heq', hcomma]
          simp [separator, hfirst]
        · exact Or.inr hbad
      · right
        split
        · next hwrite =>
            rw [hwrite] at hfailed
            exact ⟨rfl, hfailed⟩
        · next hwrite =>
            rw [hwrite] at hfalse
            cases hfalse

theorem intercalate_entries (e : Entry) (entries : List Entry) :
    [44].intercalate ((e :: entries).map Prod.fst) = e.1 ++ entries.flatMap fun e => 44 :: e.1 := by
  induction entries generalizing e with
  | nil => simp
  | cons e' entries ih =>
      have hrest := ih e'
      rw [List.map_cons] at hrest ⊢
      rw [List.map_cons, List.intercalate_cons_cons, hrest]
      simp

theorem ascii_name : ascii "\x7b\"name\":" = 123 :: jsonString (ascii "name") ++ [58] := by decide
theorem ascii_end : ascii "\x7b\"ph\":\"E\",\"pid\":" = 123 :: jsonString (ascii "ph") ++ 58 ::
    jsonString (ascii "E") ++ 44 :: jsonString (ascii "pid") ++ [58] := by decide
theorem ascii_metadata : ascii ",\"ph\":\"M\",\"pid\":" = 44 :: jsonString (ascii "ph") ++ 58 ::
    jsonString (ascii "M") ++ 44 :: jsonString (ascii "pid") ++ [58] := by decide
theorem ascii_tid : ascii ",\"tid\":" = 44 :: jsonString (ascii "tid") ++ [58] := by decide
theorem ascii_cat : ascii ",\"cat\":" = 44 :: jsonString (ascii "cat") ++ [58] := by decide
theorem ascii_ph : ascii ",\"ph\":" = 44 :: jsonString (ascii "ph") ++ [58] := by decide
theorem ascii_pid : ascii ",\"pid\":" = 44 :: jsonString (ascii "pid") ++ [58] := by decide
theorem ascii_ts : ascii ",\"ts\":" = 44 :: jsonString (ascii "ts") ++ [58] := by decide
theorem ascii_scope : ascii ",\"s\":\"t\"" = 44 :: jsonString (ascii "s") ++ 58 ::
    jsonString (ascii "t") := by decide
theorem ascii_name_args : ascii ",\"args\":\x7b\"name\":" = 44 :: jsonString (ascii "args") ++ 58 ::
    123 :: jsonString (ascii "name") ++ [58] := by decide
theorem ascii_value_args :
    ascii ",\"args\":\x7b\"value\":" = 44 :: jsonString (ascii "args") ++ 58 ::
      123 :: jsonString (ascii "value") ++ [58] := by decide
theorem ascii_close : ascii "\x7d\x7d" = [125, 125] := by decide

theorem EmitsEvent.congr {write write' : Write} {text text' : ℕ → Bytes}
    (h : EmitsEvent write text) (hwrite : ∀ trace, write' trace = write trace)
    (htext : ∀ processId, text' processId = text processId) : EmitsEvent write' text' := by
  intro trace
  rw [hwrite, htext]
  exact h trace

theorem emits_metadata (metadataName : String) (threadId : ℕ) (name : Bytes) :
    EmitsEvent (writeMetadataLocked os metadataName threadId name)
      fun processId => objectText (metadataEntries processId metadataName threadId name) := by
  have hevent := emitsEvent_of_rest os (fun processId => [
      writeLiteral os "\x7b\"name\":", writeJsonString os (ascii metadataName),
      writeLiteral os ",\"ph\":\"M\",\"pid\":", writeU64 os processId,
      writeLiteral os ",\"tid\":", writeU64 os threadId,
      writeLiteral os ",\"args\":\x7b\"name\":", writeJsonString os name,
      writeLiteral os "\x7d\x7d"]) fun processId =>
    .cons (emits_writeLiteral os _) <| .cons (emits_writeJsonString os _) <|
    .cons (emits_writeLiteral os _) <| .cons (emits_writeU64 os _) <|
    .cons (emits_writeLiteral os _) <| .cons (emits_writeU64 os _) <|
    .cons (emits_writeLiteral os _) <| .cons (emits_writeJsonString os _) <|
    .cons (emits_writeLiteral os _) .nil
  refine hevent.congr (fun _ => rfl) fun processId => ?_
  rw [objectText, metadataEntries, intercalate_entries, ascii_name, ascii_metadata, ascii_tid,
    ascii_name_args, ascii_close]
  simp [stringEntry, numberEntry, objectEntry, entry, objectText]

theorem emits_end (threadId : ℕ) (header : Header) :
    EmitsEvent (writeEnd os threadId header) fun processId => objectText
      [stringEntry "ph" (ascii "E"), numberEntry "pid" processId, numberEntry "tid" threadId,
        timestampEntry header.timestampNs.toNat] := by
  have hevent := emitsEvent_of_rest os (fun processId => [
      writeLiteral os "\x7b\"ph\":\"E\",\"pid\":", writeU64 os processId,
      writeLiteral os ",\"tid\":", writeU64 os threadId, writeLiteral os ",\"ts\":",
      writeTimestamp os header.timestampNs.toNat, writeChar os 125]) fun processId =>
    .cons (emits_writeLiteral os _) <| .cons (emits_writeU64 os _) <|
    .cons (emits_writeLiteral os _) <| .cons (emits_writeU64 os _) <|
    .cons (emits_writeLiteral os _) <| .cons (emits_writeTimestamp os _) <|
    .cons (emits_writeChar os _) .nil
  refine hevent.congr (fun _ => rfl) fun processId => ?_
  rw [objectText, intercalate_entries, ascii_end, ascii_tid, ascii_ts]
  simp [stringEntry, numberEntry, timestampEntry, entry]

/-- The event of a record with a name; `more` are the entries of its type. -/
theorem emits_named (threadId : ℕ) (record : Record) (name : Bytes) (category phase : String)
    {more : List Write} {entries : List Entry}
    (hmore : ∀ trace, writeNamed os threadId record.header name category phase trace = all
      ([eventSeparator os, writeLiteral os "\x7b\"name\":", writeJsonString os name,
        writeLiteral os ",\"cat\":", writeJsonString os (ascii category),
        writeLiteral os ",\"ph\":", writeJsonString os (ascii phase),
        writeLiteral os ",\"pid\":", writeU64 os trace.processId,
        writeLiteral os ",\"tid\":", writeU64 os threadId, writeLiteral os ",\"ts\":",
        writeTimestamp os record.timestampNs.toNat] ++ more ++ [writeChar os 125]) trace)
    {texts : List Bytes} (htexts : List.Forall₂ Emits more texts)
    (hentries : texts.flatten = entries.flatMap fun e => 44 :: e.1) :
    EmitsEvent (writeNamed os threadId record.header name category phase) fun processId =>
      objectText (namedEntries processId threadId record name category phase ++ entries) := by
  have hevent := emitsEvent_of_rest os (fun processId => [
      writeLiteral os "\x7b\"name\":", writeJsonString os name,
      writeLiteral os ",\"cat\":", writeJsonString os (ascii category),
      writeLiteral os ",\"ph\":", writeJsonString os (ascii phase),
      writeLiteral os ",\"pid\":", writeU64 os processId,
      writeLiteral os ",\"tid\":", writeU64 os threadId, writeLiteral os ",\"ts\":",
      writeTimestamp os record.timestampNs.toNat] ++ more ++ [writeChar os 125]) fun processId =>
    List.rel_append (List.rel_append
      (.cons (emits_writeLiteral os _) <| .cons (emits_writeJsonString os _) <|
        .cons (emits_writeLiteral os _) <| .cons (emits_writeJsonString os _) <|
        .cons (emits_writeLiteral os _) <| .cons (emits_writeJsonString os _) <|
        .cons (emits_writeLiteral os _) <| .cons (emits_writeU64 os _) <|
        .cons (emits_writeLiteral os _) <| .cons (emits_writeU64 os _) <|
        .cons (emits_writeLiteral os _) <| .cons (emits_writeTimestamp os _) .nil) htexts)
      (.cons (emits_writeChar os _) .nil)
  refine hevent.congr hmore fun processId => ?_
  simp only [objectText, namedEntries, List.cons_append, List.nil_append, intercalate_entries,
    List.flatMap_cons, ← hentries, ascii_name, ascii_cat, ascii_ph, ascii_pid, ascii_tid, ascii_ts]
  simp [stringEntry, numberEntry, timestampEntry, entry]

theorem emits_plain (threadId : ℕ) (record : Record) (name : Bytes) (category phase : String)
    (hinstant : record.type ≠ .instant) (hcounter : record.type ≠ .counter) :
    EmitsEvent (writeNamed os threadId record.header name category phase) fun processId =>
      objectText (namedEntries processId threadId record name category phase) := by
  have hcodes : record.type.code ≠ RecordType.instant.code ∧
      record.type.code ≠ RecordType.counter.code := by
    cases htype : record.type with
    | beginZone => decide
    | endZone => decide
    | instant => exact absurd htype hinstant
    | counter => exact absurd htype hcounter
    | autoBeginZone => decide
  have hnamed := emits_named os threadId record name category phase
    (fun trace => by simp [writeNamed, Record.header, hcodes]) .nil
    (List.flatMap_nil (f := fun e : Entry => 44 :: e.1)).symm
  simpa using hnamed

theorem emits_instant (threadId : ℕ) (record : Record) (htype : record.type = .instant) :
    EmitsEvent (writeNamed os threadId record.header record.name "lor" "i") fun processId =>
      objectText (namedEntries processId threadId record record.name "lor" "i" ++
        [stringEntry "s" (ascii "t")]) := by
  have hcodes : RecordType.instant.code ≠ RecordType.counter.code := by decide
  refine emits_named os threadId record record.name "lor" "i"
    (fun trace => by simp [writeNamed, Record.header, htype, hcodes])
    (.cons (emits_writeLiteral os ",\"s\":\"t\"") .nil) ?_
  rw [ascii_scope]
  simp [stringEntry, entry]

theorem emits_counter (threadId : ℕ) (record : Record) (htype : record.type = .counter) :
    EmitsEvent (writeNamed os threadId record.header record.name "lor" "C") fun processId =>
      objectText (namedEntries processId threadId record record.name "lor" "C" ++
        [objectEntry "args" [entry "value" (signedDecimal record.value.toInt64.toInt)
          (.num record.value.toInt64.toInt)]]) := by
  have hcodes : RecordType.counter.code ≠ RecordType.instant.code := by decide
  refine emits_named os threadId record record.name "lor" "C"
    (fun trace => by simp [writeNamed, Record.header, htype, hcodes])
    (.cons (emits_writeLiteral os ",\"args\":\x7b\"value\":") <|
      .cons (emits_writeI64 os record.value.toInt64.toInt) <|
        .cons (emits_writeChar os 125) .nil) ?_
  rw [ascii_value_args]
  simp [objectEntry, entry, objectText]

theorem emits_record (threadId : ℕ) (record : Record) :
    EmitsEvent (writeRecordLocked os threadId record.header record.name) fun processId =>
      objectText (recordEntries os processId threadId record) := by
  have hheader : record.header.type = record.type.code := rfl
  unfold writeRecordLocked recordEntries
  rw [hheader]
  cases htype : record.type with
  | beginZone =>
      rw [if_pos rfl]
      exact emits_plain os threadId record _ _ _ (by rw [htype]; nofun) (by rw [htype]; nofun)
  | endZone =>
      rw [if_neg (by decide), if_pos rfl]
      exact emits_end os threadId record.header
  | instant =>
      rw [if_neg (by decide), if_neg (by decide), if_pos rfl]
      exact emits_instant os threadId record htype
  | counter =>
      rw [if_neg (by decide), if_neg (by decide), if_neg (by decide), if_pos rfl]
      exact emits_counter os threadId record htype
  | autoBeginZone =>
      rw [if_neg (by decide), if_neg (by decide), if_neg (by decide), if_neg (by decide),
        if_pos rfl]
      exact emits_plain os threadId record _ _ _ (by rw [htype]; nofun) (by rw [htype]; nofun)

end Emits

end Liblor.Trace
