import Liblor.PrintQuoted
import Liblor.JsonText

/-!
# Printed lines read back

A line of truth values, integers and containers of these and of strings. A reader that knows the
separator and the ending takes every value back: which container it was, its items in their order,
and where the line ends. Characters are written as they are, so that their containers are left out.
-/

namespace Liblor.Print

open OwnedString PrefixCode
open JsonText (isDigit ofDecimal)

variable {D : Type} {library : Library D} {memory : Memory D} {device : Device}

/-! ## Contents -/

inductive Scalar where
  | bool (boolean : Bool)
  | number (value : ℤ)
  deriving DecidableEq, Repr

inductive Item where
  | scalar (value : Scalar)
  | string (bytes : Option Bytes)
  deriving DecidableEq, Repr

inductive Printed where
  | scalar (value : Scalar)
  | array (items : List Item)
  | set (items : List Item)
  | map (entries : List (Item × Item))
  deriving DecidableEq, Repr

def LorTypeKind.isInteger : LorTypeKind → Bool
  | .signedChar => true
  | .unsignedChar => true
  | .short => true
  | .unsignedShort => true
  | .int => true
  | .unsignedInt => true
  | .long => true
  | .unsignedLong => true
  | .longLong => true
  | .unsignedLongLong => true
  | _ => false

/-- What lies at an address, if it is a truth value, an integer or a string. -/
def itemAt (memory : Memory D) (place : ℕ) : LorTypeKind → Option Item
  | .bool => some (.scalar (.bool (memory.bool place)))
  | .cstring =>
    if memory.pointer place = 0 then some (.string none)
    else some (.string (some (viewBytes memory (svFromCstr memory (memory.pointer place)))))
  | .stringView => some (.string (some (viewBytes memory (memory.view place))))
  | kind => if kind.isInteger then some (.scalar (.number (memory.integer kind place))) else none

def itemsOf (memory : Memory D) (sequence : LorPrintSequence) : Option (List Item) :=
  (List.range sequence.count).mapM fun i =>
    itemAt memory (sequence.data + i * sequence.elementSize) sequence.elementKind

def entryAt (memory : Memory D) (map : LorPrintMap) (i : ℕ) : Option (Item × Item) := do
  let key ← itemAt memory (map.data + i * map.entrySize + map.keyOffset) map.keyKind
  let value ← itemAt memory (map.data + i * map.entrySize + map.valueOffset) map.valueKind
  return (key, value)

def contents (memory : Memory D) : LorPrintValue D → Option Printed
  | .bool boolean => some (.scalar (.bool (boolean ≠ 0)))
  | .signed value => some (.scalar (.number value))
  | .unsigned value => some (.scalar (.number value))
  | .array sequence => (itemsOf memory sequence).map .array
  | .set sequence => (itemsOf memory sequence).map .set
  | .map map => ((List.range map.count).mapM (entryAt memory map)).map .map
  | _ => none

/-! ## Texts -/

def Scalar.text : Scalar → Bytes
  | .bool boolean => ascii (if boolean then "true" else "false")
  | .number value => decimal value

def Item.text : Item → Bytes
  | .scalar value => value.text
  | .string bytes => nestedText bytes

def pairText (entry : Item × Item) : Bytes := entry.1.text ++ ascii ": " ++ entry.2.text

def Printed.text : Printed → Bytes
  | .scalar value => value.text
  | .array items => delimited [91] (ascii ", ") [93] Item.text items
  | .set items =>
    if items = [] then ascii "set()" else delimited [123] (ascii ", ") [125] Item.text items
  | .map entries => delimited [123] (ascii ", ") [125] pairText entries

section Texts

theorem typedText_itemAt (hlocale : library.isprint = asciiPrint) {place : ℕ} {kind : LorTypeKind}
    {item : Item} (h : itemAt memory place kind = some item) :
    typedText library memory place kind true = item.text := by
  cases kind with
  | bool =>
    cases h
    exact rfl
  | cstring =>
    simp only [itemAt] at h
    simp only [typedText, stringText, if_pos, hlocale]
    split_ifs at h ⊢
    · cases h
      exact rfl
    · cases h
      exact rfl
  | stringView =>
    cases h
    simp only [typedText, stringText, if_pos, hlocale]
    exact rfl
  | _ => cases h <;> rfl

/-- Items that are found one by one have the texts that are written one by one. -/
theorem map_text_of_mapM {α β : Type} {find : α → Option β} {text : α → Bytes} {code : β → Bytes}
    (h : ∀ a b, find a = some b → text a = code b) {list : List α} {found : List β}
    (hfound : list.mapM find = some found) : list.map text = found.map code := by
  induction list generalizing found with
  | nil =>
    cases hfound
    exact rfl
  | cons a list ih =>
    rw [List.mapM_cons, Option.bind_eq_bind, Option.bind_eq_some_iff] at hfound
    obtain ⟨b, hb, hrest⟩ := hfound
    rw [Option.bind_eq_bind, Option.bind_eq_some_iff] at hrest
    obtain ⟨found', hlist, hcons⟩ := hrest
    cases hcons
    rw [List.map_cons, List.map_cons, h a b hb, ih hlist]

theorem sequenceText_itemsOf (hlocale : library.isprint = asciiPrint) {sequence : LorPrintSequence}
    {items : List Item} (h : itemsOf memory sequence = some items) :
    sequenceText library memory sequence false = (Printed.array items).text ∧
      sequenceText library memory sequence true = (Printed.set items).text := by
  have hmap := map_text_of_mapM (fun _ _ hitem => typedText_itemAt hlocale hitem) h
  have hcount : sequence.count = 0 ↔ items = [] := by
    have hlength := congrArg List.length hmap
    rw [List.length_map, List.length_map, List.length_range] at hlength
    rw [hlength, List.length_eq_zero_iff]
  unfold sequenceText Printed.text delimited
  rw [hmap]
  simp only [hcount]
  by_cases hempty : items = []
  · subst hempty
    exact ⟨rfl, rfl⟩
  · simp only [if_neg hempty]
    exact ⟨rfl, rfl⟩

theorem entryText_entryAt (hlocale : library.isprint = asciiPrint) {map : LorPrintMap} {i : ℕ}
    {entry : Item × Item} (h : entryAt memory map i = some entry) :
    entryText library memory map i = pairText entry := by
  simp only [entryAt, Option.bind_eq_bind, Option.bind_eq_some_iff] at h
  obtain ⟨key, hkey, value, hvalue, hentry⟩ := h
  cases hentry
  rw [entryText, typedText_itemAt hlocale hkey, typedText_itemAt hlocale hvalue]
  exact rfl

theorem valueText_contents (hlocale : library.isprint = asciiPrint) {value : LorPrintValue D}
    {printed : Printed} (h : contents memory value = some printed) :
    valueText library memory value = printed.text := by
  cases value with
  | bool boolean =>
    cases h
    by_cases hzero : boolean = 0
    · subst hzero
      rfl
    · simp only [valueText, Printed.text, Scalar.text, ne_eq, hzero, not_false_eq_true, if_true,
        decide_true]
  | signed value =>
    cases h
    rfl
  | unsigned value =>
    cases h
    rfl
  | array sequence =>
    obtain ⟨items, hitems, rfl⟩ := Option.map_eq_some_iff.1 h
    exact (sequenceText_itemsOf hlocale hitems).1
  | set sequence =>
    obtain ⟨items, hitems, rfl⟩ := Option.map_eq_some_iff.1 h
    exact (sequenceText_itemsOf hlocale hitems).2
  | map map =>
    obtain ⟨entries, hentries, rfl⟩ := Option.map_eq_some_iff.1 h
    rw [valueText, mapText, Printed.text, delimited,
      map_text_of_mapM (fun _ _ hentry => entryText_entryAt hlocale hentry) hentries]
  | _ => cases h

end Texts

/-! ## The reader -/

/-- A decimal integer ends where no digit follows. -/
def EndsNumber (rest : Bytes) : Prop := ∀ byte, rest.head? = some byte → isDigit byte = false

def readDigits (text : Bytes) : Option (ℕ × Bytes) :=
  if text.takeWhile isDigit = [] then none
  else some (ofDecimal (text.takeWhile isDigit), text.dropWhile isDigit)

def readNumber (text : Bytes) : Option (ℤ × Bytes) :=
  if text.head? = some 45 then (readDigits text.tail).map fun (n, rest) => (-n, rest)
  else (readDigits text).map fun (n, rest) => (n, rest)

def readScalar (text : Bytes) : Option (Scalar × Bytes) :=
  ((strip (ascii "true") text).map fun rest => (.bool true, rest)) <|>
    ((strip (ascii "false") text).map fun rest => (.bool false, rest)) <|>
    ((readNumber text).map fun (value, rest) => (.number value, rest))

def readItem (text : Bytes) : Option (Item × Bytes) :=
  ((strip (ascii "(null)") text).map fun rest => (.string none, rest)) <|>
    ((unquote text).map fun (bytes, rest) => (.string (some bytes), rest)) <|>
    ((readScalar text).map fun (scalar, rest) => (.scalar scalar, rest))

def readPair (text : Bytes) : Option ((Item × Item) × Bytes) := do
  let (key, text) ← readItem text
  let text ← strip (ascii ": ") text
  let (value, text) ← readItem text
  return ((key, value), text)

/-- A brace opens a map if a colon stands behind the first item, and an empty set has a name. -/
def readPrinted (text : Bytes) : Option (Printed × Bytes) :=
  ((strip (ascii "set()") text).map fun rest => (.set [], rest)) <|>
    ((readDelimited [91] (ascii ", ") [93] readItem text).map
      fun (items, rest) => (.array items, rest)) <|>
    ((readDelimited [123] (ascii ", ") [125] readPair text).map
      fun (entries, rest) => (.map entries, rest)) <|>
    ((readDelimited [123] (ascii ", ") [125] readItem text).map
      fun (items, rest) => (.set items, rest)) <|>
    ((readScalar text).map fun (scalar, rest) => (.scalar scalar, rest))

/-- The values of a line between the separators, and what follows its ending. -/
def readLine (separator ending text : Bytes) : Option (List Printed × Bytes) :=
  readDelimited [] separator ending readPrinted text

section Read

theorem toNat_digit {c : Char} (h : c.isDigit = true) :
    isDigit (UInt8.ofNat c.toNat) = true ∧ (UInt8.ofNat c.toNat).toNat = c.toNat := by
  simp only [Char.isDigit, Bool.and_eq_true, decide_eq_true_eq] at h
  obtain ⟨hlow, hhigh⟩ := h
  have hlow' : 48 ≤ c.toNat := UInt32.le_iff_toNat_le.1 hlow
  have hhigh' : c.toNat ≤ 57 := UInt32.le_iff_toNat_le.1 hhigh
  have hvalue : (UInt8.ofNat c.toNat).toNat = c.toNat := by
    rw [UInt8.toNat_ofNat', Nat.mod_eq_of_lt]
    omega
  refine ⟨?_, hvalue⟩
  rw [isDigit, Bool.and_eq_true, decide_eq_true_eq, decide_eq_true_eq, UInt8.le_iff_toNat_le,
    UInt8.le_iff_toNat_le, hvalue]
  exact ⟨hlow', hhigh'⟩

/-- A natural number is written in digits, which give the number back. -/
theorem ascii_toString (n : ℕ) : ascii (toString n) ≠ [] ∧
    (∀ byte ∈ ascii (toString n), isDigit byte = true) ∧ ofDecimal (ascii (toString n)) = n := by
  have htext : ascii (toString n) = (Nat.toDigits 10 n).map fun c => UInt8.ofNat c.toNat := by
    rw [ascii, Nat.toString_eq_ofList_toDigits, String.toList_ofList]
  have hdigit : ∀ c ∈ Nat.toDigits 10 n, c.isDigit = true := fun c hmem =>
    Nat.isDigit_of_mem_toDigits (by decide) (by decide) hmem
  rw [htext]
  refine ⟨?_, ?_, ?_⟩
  · intro hempty
    exact Nat.toDigits_ne_nil (List.map_eq_nil_iff.1 hempty)
  · rw [List.forall_mem_map]
    exact fun c hmem => (toNat_digit (hdigit c hmem)).1
  · have hfold : ofDecimal ((Nat.toDigits 10 n).map fun c => UInt8.ofNat c.toNat) =
        Nat.ofDigitChars 10 (Nat.toDigits 10 n) 0 := by
      rw [ofDecimal, List.foldl_map, Nat.ofDigitChars_eq_foldl]
      apply List.foldl_ext
      intro sum c hmem
      rw [(toNat_digit (hdigit c hmem)).2]
      rfl
    rw [hfold, Nat.ofDigitChars_ten_toDigits]

theorem span_digits {digits rest : Bytes} (hdigits : ∀ byte ∈ digits, isDigit byte = true)
    (hrest : EndsNumber rest) :
    (digits ++ rest).takeWhile isDigit = digits ∧ (digits ++ rest).dropWhile isDigit = rest := by
  rw [List.takeWhile_append_of_pos hdigits, List.dropWhile_append_of_pos hdigits]
  cases rest with
  | nil => exact ⟨List.append_nil _, rfl⟩
  | cons byte rest =>
    have hbyte : ¬isDigit byte = true := by
      rw [hrest byte rfl]
      decide
    rw [List.takeWhile_cons_of_neg hbyte, List.dropWhile_cons_of_neg hbyte, List.append_nil]
    exact ⟨rfl, rfl⟩

theorem digit_head (n : ℕ) :
    ∃ byte, (ascii (toString n)).head? = some byte ∧ isDigit byte = true := by
  obtain ⟨hne, hdigits, -⟩ := ascii_toString n
  obtain ⟨byte, rest, htext⟩ := List.exists_cons_of_ne_nil hne
  rw [htext] at hdigits ⊢
  exact ⟨byte, rfl, hdigits byte List.mem_cons_self⟩

theorem readDigits_toString (n : ℕ) {rest : Bytes} (hrest : EndsNumber rest) :
    readDigits (ascii (toString n) ++ rest) = some (n, rest) := by
  obtain ⟨hne, hdigits, hvalue⟩ := ascii_toString n
  obtain ⟨htake, hdrop⟩ := span_digits hdigits hrest
  rw [readDigits, htake, hdrop, if_neg hne, hvalue]

theorem decimal_head (value : ℤ) :
    ∃ byte, (decimal value).head? = some byte ∧ (byte = 45 ∨ isDigit byte = true) := by
  unfold decimal
  split_ifs
  · exact ⟨45, rfl, Or.inl rfl⟩
  · obtain ⟨byte, hhead, hdigit⟩ := digit_head value.natAbs
    exact ⟨byte, hhead, Or.inr hdigit⟩

theorem readNumber_decimal : ReadsBack EndsNumber readNumber decimal := by
  intro value rest hrest
  unfold readNumber decimal
  by_cases hneg : value < 0
  · rw [if_pos hneg, List.cons_append, List.head?_cons, if_pos rfl, List.tail_cons,
      readDigits_toString _ hrest]
    simp only [Option.map_some, Int.ofNat_natAbs_of_nonpos hneg.le, neg_neg]
  · obtain ⟨byte, hhead, hdigit⟩ := digit_head value.natAbs
    have hsign : ¬(ascii (toString value.natAbs) ++ rest).head? = some 45 := by
      rw [head_append hhead]
      intro h
      cases h
      cases hdigit
    rw [if_neg hneg, if_neg hsign, readDigits_toString _ hrest]
    simp only [Option.map_some, Int.natAbs_of_nonneg (not_lt.1 hneg)]

theorem readScalar_text : ReadsBack EndsNumber readScalar Scalar.text := by
  intro scalar rest hrest
  unfold readScalar
  cases scalar with
  | bool boolean =>
    cases boolean with
    | true =>
      rw [Scalar.text, if_pos rfl, strip_append]
      rfl
    | false =>
      have hhead : (ascii "false").head? = some 102 := rfl
      rw [Scalar.text, if_neg Bool.false_ne_true, strip_append,
        strip_of_head (x := 116) rfl hhead (by decide)]
      rfl
  | number value =>
    obtain ⟨byte, hhead, hbyte⟩ := decimal_head value
    have htrue : 116 ≠ byte := by
      rintro rfl
      rcases hbyte with h | h
      · cases h
      · cases h
    have hfalse : 102 ≠ byte := by
      rintro rfl
      rcases hbyte with h | h
      · cases h
      · cases h
    rw [Scalar.text, strip_of_head rfl hhead htrue, strip_of_head rfl hhead hfalse,
      readNumber_decimal value rest hrest]
    rfl

/-- What the text of a truth value or a number begins with. -/
def startsScalar (byte : UInt8) : Bool := byte == 116 || byte == 102 || byte == 45 || isDigit byte

theorem scalar_head (scalar : Scalar) :
    ∃ byte, scalar.text.head? = some byte ∧ startsScalar byte = true := by
  cases scalar with
  | bool boolean =>
    cases boolean with
    | false => exact ⟨102, rfl, rfl⟩
    | true => exact ⟨116, rfl, rfl⟩
  | number value =>
    obtain ⟨byte, hhead, rfl | hdigit⟩ := decimal_head value
    · exact ⟨45, hhead, rfl⟩
    · refine ⟨byte, hhead, ?_⟩
      rw [startsScalar, hdigit, Bool.or_true]

theorem readItem_text : ReadsBack EndsNumber readItem Item.text := by
  intro item rest hrest
  unfold readItem
  cases item with
  | scalar value =>
    obtain ⟨byte, hhead, hbyte⟩ := scalar_head value
    have hnull : 40 ≠ byte := by
      rintro rfl
      cases hbyte
    have hquote : ¬(value.text ++ rest).head? = some 34 := by
      rw [head_append hhead]
      intro h
      cases h
      cases hbyte
    rw [Item.text, strip_of_head rfl hhead hnull, unquote, if_neg hquote,
      readScalar_text value rest hrest]
    rfl
  | string bytes =>
    cases bytes with
    | none =>
      rw [Item.text, nestedText, strip_append]
      rfl
    | some bytes =>
      have hhead : (quotedText asciiPrint bytes).head? = some 34 := rfl
      rw [Item.text, nestedText, strip_of_head (x := 40) rfl hhead (by decide), unquote_quotedText]
      rfl

theorem item_head (item : Item) : ∃ byte, item.text.head? = some byte ∧
    (startsScalar byte = true ∨ byte = 40 ∨ byte = 34) := by
  cases item with
  | scalar value =>
    obtain ⟨byte, hhead, hbyte⟩ := scalar_head value
    exact ⟨byte, hhead, Or.inl hbyte⟩
  | string bytes =>
    cases bytes with
    | none => exact ⟨40, rfl, Or.inr (Or.inl rfl)⟩
    | some bytes => exact ⟨34, rfl, Or.inr (Or.inr rfl)⟩

theorem item_begins (byte : UInt8) (hbyte : startsScalar byte = false) (hnull : byte ≠ 40)
    (hquote : byte ≠ 34) (item : Item) : ∃ first, item.text.head? = some first ∧ first ≠ byte := by
  obtain ⟨first, hhead, hfirst⟩ := item_head item
  refine ⟨first, hhead, ?_⟩
  rintro rfl
  rcases hfirst with hscalar | rfl | rfl
  · rw [hbyte] at hscalar
    cases hscalar
  · exact hnull rfl
  · exact hquote rfl

theorem pair_begins (entry : Item × Item) :
    ∃ first, (pairText entry).head? = some first ∧ first ≠ 125 := by
  obtain ⟨first, hhead, hne⟩ := item_begins 125 rfl (by decide) (by decide) entry.1
  refine ⟨first, ?_, hne⟩
  rw [pairText, List.append_assoc]
  exact head_append hhead _

theorem endsNumber_of_head {text : Bytes} {byte : UInt8} (hhead : text.head? = some byte)
    (hbyte : isDigit byte = false) (rest : Bytes) : EndsNumber (text ++ rest) := by
  intro first hfirst
  rw [head_append hhead] at hfirst
  cases hfirst
  exact hbyte

theorem readPair_text : ReadsBack EndsNumber readPair pairText := by
  intro entry rest hrest
  have hkey := readItem_text entry.1 (ascii ": " ++ (entry.2.text ++ rest))
    (endsNumber_of_head rfl rfl _)
  rw [pairText, List.append_assoc, List.append_assoc, readPair]
  simp only [hkey, strip_append, readItem_text entry.2 rest hrest, Option.bind_eq_bind,
    Option.bind_some, Option.pure_def]

theorem readItems_text {first last : Bytes} (byte : UInt8) (hlast : last.head? = some byte)
    (hbyte : startsScalar byte = false) (hne : byte ≠ 40 ∧ byte ≠ 34 ∧ byte ≠ 44)
    (items : List Item) (rest : Bytes) :
    readDelimited first (ascii ", ") last readItem
      (delimited first (ascii ", ") last Item.text items ++ rest) = some (items, rest) := by
  have hdigit : isDigit byte = false := (Bool.or_eq_false_iff.1 hbyte).2
  exact readDelimited_delimited readItem_text (x := 44) rfl hlast hne.2.2.symm
    (endsNumber_of_head rfl rfl) (endsNumber_of_head hlast hdigit) items
    (fun item _ => item_begins byte hbyte hne.1 hne.2.1 item) rest

theorem readPair_item (item : Item) (items : List Item) (rest : Bytes) :
    readPair (item.text ++ (following (ascii ", ") [125] Item.text items ++ rest)) = none := by
  have hends : EndsNumber (following (ascii ", ") [125] Item.text items ++ rest) :=
    following_ends (endsNumber_of_head rfl rfl) (endsNumber_of_head rfl rfl) items rest
  have hfollowing : ∃ byte, (following (ascii ", ") [125] Item.text items).head? = some byte ∧
      (byte = 44 ∨ byte = 125) := following_head rfl rfl items
  obtain ⟨byte, hhead, hbyte⟩ := hfollowing
  have hne : 58 ≠ byte := by
    rcases hbyte with rfl | rfl
    · decide
    · decide
  have hcolon : strip (ascii ": ") (following (ascii ", ") [125] Item.text items ++ rest) = none :=
    strip_of_head rfl hhead hne rest
  rw [readPair, readItem_text item _ hends]
  simp only [Option.bind_eq_bind, Option.bind_some, hcolon, Option.bind_none]

theorem readPrinted_text : ReadsBack EndsNumber readPrinted Printed.text := by
  intro printed rest hrest
  unfold readPrinted
  cases printed with
  | scalar value =>
    obtain ⟨byte, hhead, hbyte⟩ := scalar_head value
    have hset : 115 ≠ byte := by
      rintro rfl
      cases hbyte
    have harray : 91 ≠ byte := by
      rintro rfl
      cases hbyte
    have hbrace : 123 ≠ byte := by
      rintro rfl
      cases hbyte
    rw [Printed.text, strip_of_head rfl hhead hset, readDelimited_of_head rfl hhead harray,
      readDelimited_of_head rfl hhead hbrace, readDelimited_of_head rfl hhead hbrace,
      readScalar_text value rest hrest]
    rfl
  | array items =>
    have hhead : (delimited [91] (ascii ", ") [93] Item.text items).head? = some 91 := rfl
    rw [Printed.text, strip_of_head (x := 115) rfl hhead (by decide),
      readItems_text 93 rfl rfl (by decide)]
    rfl
  | set items =>
    cases items with
    | nil =>
      rw [Printed.text, if_pos rfl, strip_append]
      rfl
    | cons item items =>
      have hhead : (delimited [123] (ascii ", ") [125] Item.text (item :: items)).head? =
        some 123 := rfl
      have hmap : readDelimited [123] (ascii ", ") [125] readPair
          (delimited [123] (ascii ", ") [125] Item.text (item :: items) ++ rest) = none :=
        readDelimited_of_refused (y := 125) rfl (item_begins 125 rfl (by decide) (by decide) item)
          (readPair_item item items rest)
      rw [Printed.text, if_neg (List.cons_ne_nil _ _),
        strip_of_head (x := 115) rfl hhead (by decide),
        readDelimited_of_head (x := 91) rfl hhead (by decide), hmap,
        readItems_text 125 rfl rfl (by decide)]
      rfl
  | map entries =>
    have hhead : (delimited [123] (ascii ", ") [125] pairText entries).head? = some 123 := rfl
    have hentries : readDelimited [123] (ascii ", ") [125] readPair
        (delimited [123] (ascii ", ") [125] pairText entries ++ rest) = some (entries, rest) :=
      readDelimited_delimited readPair_text (x := 44) (y := 125) rfl rfl (by decide)
        (endsNumber_of_head rfl rfl) (endsNumber_of_head rfl rfl) entries
        (fun entry _ => pair_begins entry) rest
    rw [Printed.text, strip_of_head (x := 115) rfl hhead (by decide),
      readDelimited_of_head (x := 91) rfl hhead (by decide), hentries]
    rfl

/-- What a value begins with. -/
def startsValue (byte : UInt8) : Bool :=
  startsScalar byte || byte == 115 || byte == 91 || byte == 123

theorem printed_head (printed : Printed) :
    ∃ byte, printed.text.head? = some byte ∧ startsValue byte = true := by
  cases printed with
  | scalar value =>
    obtain ⟨byte, hhead, hbyte⟩ := scalar_head value
    refine ⟨byte, hhead, ?_⟩
    rw [startsValue, hbyte]
    rfl
  | array items => exact ⟨91, rfl, rfl⟩
  | set items =>
    rw [Printed.text]
    split_ifs
    · exact ⟨115, rfl, rfl⟩
    · exact ⟨123, rfl, rfl⟩
  | map entries => exact ⟨123, rfl, rfl⟩

end Read

/-! ## Lines -/

/-- The separator and the ending begin differently, no value begins like the ending, and a number
ends before each of them. -/
structure Separates (separator ending : Bytes) : Prop where
  separator_head : ∃ byte, separator.head? = some byte ∧ isDigit byte = false ∧
    ending.head? ≠ some byte
  ending_head : ∃ byte, ending.head? = some byte ∧ startsValue byte = false

theorem readLine_delimited {separator ending : Bytes} (h : Separates separator ending)
    (printed : List Printed) (rest : Bytes) :
    readLine separator ending (delimited [] separator ending Printed.text printed ++ rest) =
      some (printed, rest) := by
  obtain ⟨⟨x, hx, hxdigit, hxy⟩, y, hy, hystarts⟩ := h
  have hne : x ≠ y := by
    rintro rfl
    exact hxy hy
  have hydigit : isDigit y = false := by
    simp only [startsValue, startsScalar, Bool.or_eq_false_iff] at hystarts
    exact hystarts.1.1.1.2
  refine readDelimited_delimited readPrinted_text hx hy hne (endsNumber_of_head hx hxdigit)
    (endsNumber_of_head hy hydigit) printed (fun value _ => ?_) rest
  obtain ⟨z, hz, hzstarts⟩ := printed_head value
  refine ⟨z, hz, ?_⟩
  rintro rfl
  rw [hystarts] at hzstarts
  cases hzstarts

/-- The ending of a line: that of the last marker, or the configured one. -/
def endingText (memory : Memory D) (config : LorPrintConfig) (values : List (LorPrintValue D)) :
    Bytes :=
  viewBytes memory ((values.filterMap (·.endingView)).getLast?.getD config.ending)

/-- The contents of the values of a line, without the markers of endings. -/
def lineContents (memory : Memory D) (values : List (LorPrintValue D)) : Option (List Printed) :=
  (values.filter (·.endingView.isNone)).mapM (contents memory)

section Lines

variable {config : LorPrintConfig} {values : List (LorPrintValue D)}

theorem fprintValues_written (haccepts : device.Accepts)
    (hseparator : svIsValid config.separator = true)
    (hending : svIsValid config.ending = true) (hplain : ∀ value ∈ values, Plain value)
    (hvalid : ∀ value ∈ values, valueValid library memory value = true) (stream : Stream) :
    ∃ stream', fprintValues library memory device (some stream) config (some values) =
        (.ok, some stream') ∧
      stream'.written = stream.written ++ printedText library memory config values := by
  have hwritable : ∀ value ∈ values, Writable library memory value := fun value hmem =>
    ((valueValid_iff (hplain value hmem)).1 (hvalid value hmem)).2
  have hrenders := (renders_values library memory device hseparator values hplain).next
    (renders_view memory device ((values.filterMap (·.endingView)).getLast?.getD config.ending))
  obtain ⟨stream', hwrite, htext⟩ :=
    hrenders.written ⟨hwritable, lastEnding_valid hending hvalid⟩ haccepts stream
  refine ⟨stream', ?_, htext⟩
  simp only [fprintValues, hseparator, hending, findEnding_eq, if_pos hvalid]
  exact congrArg (fun answer => (answer.1, some answer.2)) hwrite

theorem printedText_contents (hlocale : library.isprint = asciiPrint) {printed : List Printed}
    (h : lineContents memory values = some printed) :
    printedText library memory config values = delimited [] (viewBytes memory config.separator)
      (endingText memory config values) Printed.text printed := by
  rw [printedText, map_text_of_mapM (fun _ _ hvalue => valueText_contents hlocale hvalue) h]
  rfl

/-- A line that is printed in the C locale reads back as the values that were printed. -/
theorem printed_lines_read_back (hlocale : library.isprint = asciiPrint) (haccepts : device.Accepts)
    (hseparator : svIsValid config.separator = true) (hending : svIsValid config.ending = true)
    (hplain : ∀ value ∈ values, Plain value)
    (hvalid : ∀ value ∈ values, valueValid library memory value = true) {printed : List Printed}
    (hcontents : lineContents memory values = some printed)
    (hseparates : Separates (viewBytes memory config.separator) (endingText memory config values))
    (stream : Stream) :
    ∃ stream' line, fprintValues library memory device (some stream) config (some values) =
        (.ok, some stream') ∧
      stream'.written = stream.written ++ line ∧
      ∀ rest, readLine (viewBytes memory config.separator) (endingText memory config values)
        (line ++ rest) = some (printed, rest) := by
  obtain ⟨stream', hcall, hwritten⟩ :=
    fprintValues_written haccepts hseparator hending hplain hvalid stream
  refine ⟨stream', _, hcall, hwritten, fun rest => ?_⟩
  rw [printedText_contents hlocale hcontents]
  exact readLine_delimited hseparates printed rest

/-- The words of `wordMemory` and a newline in the second byte. -/
def lineMemory : Memory ℤ := { wordMemory with byte := fun place => if place = 2 then 10 else 32 }

/-- A map from strings to numbers, an empty set and a truth value. -/
def lineValues : List (LorPrintValue ℤ) :=
  [.map ⟨8, 2, 16, 0, 8, .stringView, none, 8, 8, .long, none⟩, .set ⟨0, 0, 8, .int, none⟩, .bool 0]

theorem printed_lines_read_back_map : ∃ stream' line,
    fprintValues wordLibrary lineMemory openDevice (some ⟨[], 0⟩) ⟨⟨1, 1⟩, ⟨2, 1⟩⟩
        (some lineValues) = (.ok, some stream') ∧
      stream'.written = line ∧
      ∀ rest, readLine [32] [10] (line ++ rest) =
        some ([.map [(.string (some [32]), .scalar (.number 2)),
          (.string (some [32, 32, 32]), .scalar (.number 4))], .set [], .scalar (.bool false)],
          rest) := by
  have hplain : ∀ value ∈ lineValues, Plain value := by
    intro value hmem
    simp only [lineValues, List.mem_cons, List.not_mem_nil, or_false] at hmem
    rcases hmem with rfl | rfl | rfl
    · exact ⟨rfl, rfl⟩
    · exact rfl
    · trivial
  exact printed_lines_read_back rfl (fun _ => rfl) rfl rfl hplain (by decide) rfl
    ⟨⟨32, rfl, rfl, by decide⟩, 10, rfl, rfl⟩ ⟨[], 0⟩

end Lines

end Liblor.Print
