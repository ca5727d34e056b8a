import Liblor.PrintValid

/-!
# Quoted text

Reading quoted text back gives its bytes and stops at the closing quote, whatever follows. So a
printed array of strings tells which strings it has.
-/

namespace Liblor.Print

open OwnedString PrefixCode

variable {D : Type} {library : Library D} {memory : Memory D} {device : Device}

/-! ## The reader -/

/-- A digit of `%x`, in lower case. -/
def hexValue (digit : UInt8) : Option UInt8 :=
  if 48 ≤ digit ∧ digit ≤ 57 then some (digit - 48)
  else if 97 ≤ digit ∧ digit ≤ 102 then some (digit - 87)
  else none

/-- One byte behind the opening quote, escaped or as itself. -/
def readByte : Bytes → Option (UInt8 × Bytes)
  | [] => none
  | byte :: text =>
    if byte ≠ 92 then some (byte, text)
    else
      match text with
      | [] => none
      | name :: text =>
        if name = 92 then some (92, text)
        else if name = 34 then some (34, text)
        else if name = 110 then some (10, text)
        else if name = 114 then some (13, text)
        else if name = 116 then some (9, text)
        else if name = 120 then
          match text with
          | high :: low :: text => do
            let high ← hexValue high
            let low ← hexValue low
            return (16 * high + low, text)
          | _ => none
        else none

/-- The bytes up to the closing quote, and what follows it. -/
def readUntilQuote : ℕ → Bytes → Option (Bytes × Bytes)
  | 0, _ => none
  | fuel + 1, text =>
    if text.head? = some 34 then some ([], text.tail)
    else do
      let (byte, text) ← readByte text
      let (bytes, text) ← readUntilQuote fuel text
      return (byte :: bytes, text)

/-- Quoted text, read from its opening quote on. -/
def unquote (text : Bytes) : Option (Bytes × Bytes) :=
  if text.head? = some 34 then readUntilQuote text.length text.tail else none

section Read

theorem hexDigit_ofNat : ∀ n < 16, hexValue (hexDigit (UInt8.ofNat n)) = some (UInt8.ofNat n) ∧
    asciiPrint (hexDigit (UInt8.ofNat n)) = true := by decide

theorem hexDigit_spec {digit : UInt8} (h : digit.toNat < 16) :
    hexValue (hexDigit digit) = some digit ∧ asciiPrint (hexDigit digit) = true := by
  have hspec := hexDigit_ofNat digit.toNat h
  rw [UInt8.ofNat_toNat] at hspec
  exact hspec

theorem high_lt (byte : UInt8) : (byte / 16).toNat < 16 := by
  have hlt := byte.toNat_lt
  rw [UInt8.toNat_div]
  change byte.toNat / 16 < 16
  omega

theorem low_lt (byte : UInt8) : (byte % 16).toNat < 16 := by
  rw [UInt8.toNat_mod]
  change byte.toNat % 16 < 16
  omega

theorem high_low (byte : UInt8) : 16 * (byte / 16) + byte % 16 = byte := by
  rw [← UInt8.toNat_inj, UInt8.toNat_add, UInt8.toNat_mul, UInt8.toNat_div, UInt8.toNat_mod]
  have hlt := byte.toNat_lt
  change (16 * (byte.toNat / 16) % 2 ^ 8 + byte.toNat % 16) % 2 ^ 8 = byte.toNat
  omega

/-- What stands for a byte: the byte itself, or a backslash with what says which byte it is. -/
theorem escaped_cases (byte : UInt8) :
    (escaped asciiPrint byte = [byte] ∧ byte ≠ 92 ∧ byte ≠ 34 ∧ asciiPrint byte = true) ∨
      (∃ name, escaped asciiPrint byte = [92, name] ∧ asciiPrint name = true ∧
        ∀ rest, readByte (92 :: name :: rest) = some (byte, rest)) ∨
      escaped asciiPrint byte = [92, 120, hexDigit (byte / 16), hexDigit (byte % 16)] := by
  unfold escaped
  by_cases hbackslash : byte = 92
  · rw [if_pos hbackslash, hbackslash]
    exact Or.inr (Or.inl ⟨92, rfl, rfl, fun _ => rfl⟩)
  rw [if_neg hbackslash]
  by_cases hquote : byte = 34
  · rw [if_pos hquote, hquote]
    exact Or.inr (Or.inl ⟨34, rfl, rfl, fun _ => rfl⟩)
  rw [if_neg hquote]
  by_cases hnewline : byte = 10
  · rw [if_pos hnewline, hnewline]
    exact Or.inr (Or.inl ⟨110, rfl, rfl, fun _ => rfl⟩)
  rw [if_neg hnewline]
  by_cases hreturn : byte = 13
  · rw [if_pos hreturn, hreturn]
    exact Or.inr (Or.inl ⟨114, rfl, rfl, fun _ => rfl⟩)
  rw [if_neg hreturn]
  by_cases htab : byte = 9
  · rw [if_pos htab, htab]
    exact Or.inr (Or.inl ⟨116, rfl, rfl, fun _ => rfl⟩)
  rw [if_neg htab]
  by_cases hprint : asciiPrint byte = true
  · rw [if_pos hprint]
    exact Or.inl ⟨rfl, hbackslash, hquote, hprint⟩
  · rw [if_neg hprint]
    exact Or.inr (Or.inr rfl)

theorem readByte_escaped (byte : UInt8) (rest : Bytes) :
    readByte (escaped asciiPrint byte ++ rest) = some (byte, rest) := by
  rcases escaped_cases byte with ⟨hself, hbackslash, -⟩ | ⟨name, hname, -, hread⟩ | hhex
  · rw [hself, List.cons_append, List.nil_append]
    exact if_pos hbackslash
  · rw [hname]
    exact hread rest
  · have hhigh := (hexDigit_spec (high_lt byte)).1
    have hlow := (hexDigit_spec (low_lt byte)).1
    have hvalue : readByte (92 :: 120 :: hexDigit (byte / 16) :: hexDigit (byte % 16) :: rest) = do
        let high ← hexValue (hexDigit (byte / 16))
        let low ← hexValue (hexDigit (byte % 16))
        return (16 * high + low, rest) := rfl
    rw [hhex, List.cons_append, List.cons_append, List.cons_append, List.cons_append,
      List.nil_append, hvalue, hhigh, hlow]
    simp only [Option.bind_eq_bind, Option.bind_some, Option.pure_def, high_low]

theorem escaped_head (byte : UInt8) :
    ∃ head tail, escaped asciiPrint byte = head :: tail ∧ head ≠ 34 := by
  rcases escaped_cases byte with ⟨hself, -, hquote, -⟩ | ⟨name, hname, -⟩ | hhex
  · exact ⟨byte, [], hself, hquote⟩
  · exact ⟨92, [name], hname, by decide⟩
  · exact ⟨92, _, hhex, by decide⟩

theorem escaped_printable (byte : UInt8) : ∀ b ∈ escaped asciiPrint byte, asciiPrint b = true := by
  rcases escaped_cases byte with ⟨hself, -, -, hprint⟩ | ⟨name, hname, hprint, -⟩ | hhex
  · rw [hself, List.forall_mem_singleton]
    exact hprint
  · rw [hname, List.forall_mem_cons, List.forall_mem_singleton]
    exact ⟨rfl, hprint⟩
  · rw [hhex, List.forall_mem_cons, List.forall_mem_cons, List.forall_mem_cons,
      List.forall_mem_singleton]
    exact ⟨rfl, rfl, (hexDigit_spec (high_lt byte)).2, (hexDigit_spec (low_lt byte)).2⟩

/-- The reader takes the escaped bytes back and stops at the quote. -/
theorem readUntilQuote_escaped (bytes rest : Bytes) {fuel : ℕ} (hfuel : bytes.length < fuel) :
    readUntilQuote fuel (bytes.flatMap (escaped asciiPrint) ++ 34 :: rest) =
      some (bytes, rest) := by
  induction bytes generalizing fuel with
  | nil =>
    cases fuel with
    | zero => exact absurd hfuel (Nat.not_lt_zero 0)
    | succ fuel => rfl
  | cons byte bytes ih =>
    cases fuel with
    | zero => exact absurd hfuel (Nat.not_lt_zero _)
    | succ fuel =>
      obtain ⟨head, tail, hescaped, hquote⟩ := escaped_head byte
      have hhead : ¬((byte :: bytes).flatMap (escaped asciiPrint) ++ 34 :: rest).head? =
        some 34 := by
        rw [List.flatMap_cons, hescaped]
        exact fun h => hquote (Option.some.inj h)
      rw [readUntilQuote, if_neg hhead, List.flatMap_cons, List.append_assoc, readByte_escaped]
      simp only [Option.bind_eq_bind, Option.bind_some, ih (Nat.lt_of_succ_lt_succ hfuel),
        Option.pure_def]

theorem length_le_escaped (bytes : Bytes) :
    bytes.length ≤ (bytes.flatMap (escaped asciiPrint)).length := by
  induction bytes with
  | nil => exact le_rfl
  | cons byte bytes ih =>
    obtain ⟨head, tail, hescaped, -⟩ := escaped_head byte
    rw [List.flatMap_cons, List.length_append, List.length_cons, hescaped, List.length_cons]
    omega

theorem unquote_quotedText (bytes rest : Bytes) :
    unquote (quotedText asciiPrint bytes ++ rest) = some (bytes, rest) := by
  have htext : quotedText asciiPrint bytes ++ rest =
      34 :: (bytes.flatMap (escaped asciiPrint) ++ 34 :: rest) := by
    simp only [quotedText, List.append_assoc, List.cons_append, List.nil_append]
  have hlength := length_le_escaped bytes
  rw [htext, unquote, List.head?_cons, if_pos rfl, List.tail_cons]
  refine readUntilQuote_escaped bytes rest ?_
  rw [List.length_cons, List.length_append]
  omega

theorem quotedText_unambiguous : Unambiguous (quotedText asciiPrint) :=
  unambiguous_of_read unquote_quotedText

end Read

/-! ## Arrays of strings -/

/-- The bytes of a string, or nothing for a C string that is `NULL`. -/
def elementString (memory : Memory D) (sequence : LorPrintSequence) (i : ℕ) : Option Bytes :=
  let value := sequence.data + i * sequence.elementSize
  if sequence.elementKind = .cstring then
    if memory.pointer value = 0 then none
    else some (viewBytes memory (svFromCstr memory (memory.pointer value)))
  else some (viewBytes memory (memory.view value))

def strings (memory : Memory D) (sequence : LorPrintSequence) : List (Option Bytes) :=
  (List.range sequence.count).map (elementString memory sequence)

/-- A valid sequence of strings, without a callback. -/
structure OfStrings (library : Library D) (memory : Memory D) (sequence : LorPrintSequence) :
    Prop where
  valid : sequenceValid library memory sequence = true
  kind : sequence.elementKind = .stringView ∨ sequence.elementKind = .cstring
  plain : sequence.elementFunction = none

def nestedText (string : Option Bytes) : Bytes :=
  match string with
  | none => ascii "(null)"
  | some bytes => quotedText asciiPrint bytes

section Strings

variable {sequence : LorPrintSequence}

theorem nestedText_head (string : Option Bytes) :
    ∃ head, (nestedText string).head? = some head ∧ head ≠ 93 := by
  cases string with
  | none => exact ⟨40, rfl, by decide⟩
  | some bytes => exact ⟨34, rfl, by decide⟩

theorem nestedText_unambiguous : Unambiguous nestedText := by
  have hnull : (ascii "(null)").head? = some 40 := rfl
  have hne : (40 : UInt8) ≠ 34 := by decide
  intro a b rest rest' heq
  cases a with
  | none =>
    cases b with
    | none => exact ⟨rfl, List.append_cancel_left heq⟩
    | some bytes => exact absurd heq (append_ne_of_head hnull rfl hne _ _)
  | some bytes =>
    cases b with
    | none => exact absurd heq.symm (append_ne_of_head hnull rfl hne _ _)
    | some bytes' =>
      obtain ⟨rfl, hrest⟩ := quotedText_unambiguous _ _ _ _ heq
      exact ⟨rfl, hrest⟩

theorem arrayText_unambiguous : Unambiguous (delimited [91] (ascii ", ") [93] nestedText) := by
  have hne : (44 : UInt8) ≠ 93 := by decide
  exact delimited_unambiguous nestedText_unambiguous rfl rfl hne nestedText_head

theorem OfStrings.typedText (h : OfStrings library memory sequence)
    (hlocale : library.isprint = asciiPrint) (i : ℕ) :
    typedText library memory (sequence.data + i * sequence.elementSize) sequence.elementKind true =
      nestedText (elementString memory sequence i) := by
  unfold Print.typedText elementString
  rcases h.kind with hview | hcstring
  · have hne : LorTypeKind.stringView ≠ .cstring := by decide
    rw [hview]
    dsimp only
    rw [if_neg hne, stringText, if_pos rfl, hlocale]
    rfl
  · rw [hcstring]
    dsimp only
    rw [if_pos rfl]
    split_ifs
    · rfl
    · rw [stringText, if_pos rfl, hlocale]
      rfl

theorem OfStrings.sequenceText (h : OfStrings library memory sequence)
    (hlocale : library.isprint = asciiPrint) :
    sequenceText library memory sequence false =
      delimited [91] (ascii ", ") [93] nestedText (strings memory sequence) := by
  unfold Print.sequenceText delimited strings
  by_cases hcount : sequence.count = 0
  · rw [if_pos hcount, hcount]
    rfl
  · rw [if_neg hcount, List.map_map]
    have hmap : ((List.range sequence.count).map fun i => Print.typedText library memory
        (sequence.data + i * sequence.elementSize) sequence.elementKind true) =
        (List.range sequence.count).map (nestedText ∘ elementString memory sequence) :=
      List.map_congr_left fun i _ => h.typedText hlocale i
    rw [hmap]
    rfl

end Strings

variable (library device) in
/-- In the C locale quoted text is printable ASCII between two quotes and read back to its closing
quote, and equal arrays of strings, whatever follows them, have equal strings. -/
theorem quoted_text_reads_back (hlocale : library.isprint = asciiPrint)
    (haccepts : device.Accepts) :
    (∀ (memory : Memory D) (view : LorStringView), svIsValid view = true → ∀ out,
      ∃ body out', writeQuotedView library memory device view out = (.ok, out') ∧
        out'.written = out.written ++ (34 :: body ++ [34]) ∧
        (∀ byte ∈ body, asciiPrint byte = true) ∧
        ∀ rest, unquote (34 :: body ++ [34] ++ rest) = some (viewBytes memory view, rest)) ∧
    ∀ (memory memory' : Memory D) (sequence sequence' : LorPrintSequence),
      OfStrings library memory sequence → OfStrings library memory' sequence' → ∀ out out',
        ∃ text text' after after',
          writeSequence library memory device sequence false out = (.ok, after) ∧
          after.written = out.written ++ text ∧
          writeSequence library memory' device sequence' false out' = (.ok, after') ∧
          after'.written = out'.written ++ text' ∧
          ∀ rest rest', text ++ rest = text' ++ rest' →
            strings memory sequence = strings memory' sequence' ∧ rest = rest' := by
  constructor
  · intro memory view hvalid out
    obtain ⟨out', hwrite, hwritten⟩ :=
      (renders_quoted library memory device view).written hvalid haccepts out
    rw [hlocale] at hwritten
    refine ⟨(viewBytes memory view).flatMap (escaped asciiPrint), out', hwrite, hwritten, ?_,
      unquote_quotedText (viewBytes memory view)⟩
    intro byte hmem
    obtain ⟨source, -, hbyte⟩ := List.mem_flatMap.1 hmem
    exact escaped_printable source byte hbyte
  · intro memory memory' sequence sequence' h h' out out'
    obtain ⟨after, hwrite, hwritten⟩ := (renders_sequence h.plain false).written
      ((sequenceValid_iff h.plain).1 h.valid).2 haccepts out
    obtain ⟨after', hwrite', hwritten'⟩ := (renders_sequence h'.plain false).written
      ((sequenceValid_iff h'.plain).1 h'.valid).2 haccepts out'
    rw [h.sequenceText hlocale] at hwritten
    rw [h'.sequenceText hlocale] at hwritten'
    exact ⟨_, _, after, after', hwrite, hwritten, hwrite', hwritten',
      fun rest rest' => arrayText_unambiguous _ _ rest rest'⟩

/-- A quote, a newline and a control byte that is followed by a digit. -/
def quoteMemory : Memory ℤ := { wordMemory with
  byte := fun place =>
    if place = 1 then 34 else if place = 2 then 10 else if place = 3 then 7 else 49 }

theorem quoted_text_reads_back_escapes : ∃ body out',
    writeQuotedView wordLibrary quoteMemory openDevice ⟨1, 4⟩ ⟨[], 0⟩ = (.ok, out') ∧
      out'.written = 34 :: body ++ [34] ∧ (∀ byte ∈ body, asciiPrint byte = true) ∧
      ∀ rest, unquote (34 :: body ++ [34] ++ rest) = some ([34, 10, 7, 49], rest) := by
  obtain ⟨hquoted, -⟩ :=
    quoted_text_reads_back wordLibrary openDevice rfl fun _ => rfl
  obtain ⟨body, out', hwrite, hwritten, hprintable, hread⟩ := hquoted quoteMemory ⟨1, 4⟩ rfl ⟨[], 0⟩
  exact ⟨body, out', hwrite, hwritten, hprintable, hread⟩

end Liblor.Print
