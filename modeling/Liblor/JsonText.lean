import Mathlib

/-!
# Reading JSON

A reader of JSON texts that are given as bytes. In a string every byte from 128 on stands for
itself, and an escaped code unit for its bytes in UTF-8; numbers are read as rational numbers. A
loop is bounded by the bytes that are left and the nesting by the length of the text.
-/

namespace JsonText

abbrev Text := List UInt8

inductive Value where
  | null
  | bool (b : Bool)
  | num (q : ℚ)
  | str (bytes : Text)
  | arr (elements : List Value)
  | obj (members : List (Text × Value))

/-- A reader returns what it has read and the rest of the text. -/
abbrev Parser (α : Type) := Text → Option (α × Text)

section Parser

variable {α : Type}

def isSpace (b : UInt8) : Bool := b = 32 || b = 9 || b = 10 || b = 13

def isDigit (b : UInt8) : Bool := 48 ≤ b && b ≤ 57

def skipSpace (text : Text) : Text := text.dropWhile isSpace

/-- The number that decimal digits write. -/
def ofDecimal (digits : Text) : ℕ := digits.foldl (fun n b => 10 * n + (b.toNat - 48)) 0

/-- The digits before the point: a zero, or digits of which the first is not a zero. -/
def whole : Parser ℕ := fun text =>
  let digits := text.takeWhile isDigit
  if digits = [] ∨ digits.head? = some 48 ∧ digits.length ≠ 1 then none
  else some (ofDecimal digits, text.dropWhile isDigit)

def fraction : Parser ℚ := fun text =>
  if text.head? = some 46 then
    let digits := text.tail.takeWhile isDigit
    if digits = [] then none
    else some (ofDecimal digits / 10 ^ digits.length, text.tail.dropWhile isDigit)
  else some (0, text)

def exponent : Parser ℤ := fun text =>
  if text.head? = some 101 ∨ text.head? = some 69 then
    let sign := text.tail.head?
    let rest := if sign = some 45 ∨ sign = some 43 then text.tail.tail else text.tail
    let digits := rest.takeWhile isDigit
    if digits = [] then none
    else some (if sign = some 45 then -(ofDecimal digits : ℤ) else ofDecimal digits,
      rest.dropWhile isDigit)
  else some (0, text)

def unsigned : Parser ℚ := fun text =>
  match whole text with
  | none => none
  | some (n, rest) =>
    match fraction rest with
    | none => none
    | some (q, rest) => (exponent rest).map fun (e, rest) => ((n + q) * 10 ^ e, rest)

def number : Parser ℚ := fun text =>
  if text.head? = some 45 then (unsigned text.tail).map fun (q, rest) => (-q, rest)
  else unsigned text

def hexValue (b : UInt8) : Option ℕ :=
  if isDigit b then some (b.toNat - 48)
  else if 97 ≤ b ∧ b ≤ 102 then some (b.toNat - 87)
  else if 65 ≤ b ∧ b ≤ 70 then some (b.toNat - 55)
  else none

def utf8 (code : ℕ) : Text :=
  if code < 128 then [UInt8.ofNat code]
  else if code < 2048 then [UInt8.ofNat (192 + code / 64), UInt8.ofNat (128 + code % 64)]
  else [UInt8.ofNat (224 + code / 4096), UInt8.ofNat (128 + code / 64 % 64),
    UInt8.ofNat (128 + code % 64)]

/-- The byte for which a letter behind a backslash stands. -/
def escaped (b : UInt8) : Option UInt8 :=
  if b = 34 ∨ b = 92 ∨ b = 47 then some b
  else if b = 98 then some 8
  else if b = 102 then some 12
  else if b = 110 then some 10
  else if b = 114 then some 13
  else if b = 116 then some 9
  else none

def codeUnit : Parser Text
  | a :: b :: c :: d :: rest =>
    match hexValue a, hexValue b, hexValue c, hexValue d with
    | some a, some b, some c, some d => some (utf8 (((a * 16 + b) * 16 + c) * 16 + d), rest)
    | _, _, _, _ => none
  | _ => none

/-- One character of a string, which is not the closing quote. -/
def character : Parser Text
  | [] => none
  | b :: rest =>
    if b < 32 ∨ b = 34 then none
    else if b ≠ 92 then some ([b], rest)
    else
      match rest with
      | [] => none
      | e :: rest =>
        if e = 117 then codeUnit rest else (escaped e).map fun c => ([c], rest)

def characters : ℕ → Parser Text
  | 0, _ => none
  | fuel + 1, text =>
    if text.head? = some 34 then some ([], text.tail)
    else
      match character text with
      | none => none
      | some (first, rest) =>
        (characters fuel rest).map fun (bytes, rest) => (first ++ bytes, rest)

def string : Parser Text := fun text =>
  if text.head? = some 34 then characters text.length text.tail else none

/-- Items with commas between them, up to the closing byte. -/
def itemsUpTo (item : Parser α) (close : UInt8) : ℕ → Parser (List α)
  | 0, _ => none
  | fuel + 1, text =>
    match item text with
    | none => none
    | some (first, rest) =>
      let rest := skipSpace rest
      if rest.head? = some close then some ([first], rest.tail)
      else if rest.head? = some 44 then
        (itemsUpTo item close fuel rest.tail).map fun (items, rest) => (first :: items, rest)
      else none

def itemList (item : Parser α) (close : UInt8) : Parser (List α) := fun text =>
  if (skipSpace text).head? = some close then some ([], (skipSpace text).tail)
  else itemsUpTo item close text.length text

def member (item : Parser α) : Parser (Text × α) := fun text =>
  match string (skipSpace text) with
  | none => none
  | some (key, rest) =>
    if (skipSpace rest).head? = some 58 then
      (item (skipSpace rest).tail).map fun (a, rest) => ((key, a), rest)
    else none

def literal (word : Text) (v : Value) : Parser Value := fun text =>
  if word.isPrefixOf text then some (v, text.drop word.length) else none

/-- A value that begins at this byte, with values in it read by `item`. -/
def valueAt (item : Parser Value) (first : UInt8) : Parser Value := fun text =>
  if first = 34 then (string text).map fun (bytes, rest) => (.str bytes, rest)
  else if first = 91 then
    (itemList item 93 text.tail).map fun (elements, rest) => (.arr elements, rest)
  else if first = 123 then
    (itemList (member item) 125 text.tail).map fun (members, rest) => (.obj members, rest)
  else if first = 110 then literal [110, 117, 108, 108] .null text
  else if first = 116 then literal [116, 114, 117, 101] (.bool true) text
  else if first = 102 then literal [102, 97, 108, 115, 101] (.bool false) text
  else (number text).map fun (q, rest) => (.num q, rest)

def value : ℕ → Parser Value
  | 0, _ => none
  | depth + 1, text =>
    match (skipSpace text).head? with
    | none => none
    | some first => valueAt (value depth) first (skipSpace text)

/-- The value that a whole text is. -/
def parse (text : Text) : Option Value :=
  match value text.length text with
  | none => none
  | some (v, rest) => if skipSpace rest = [] then some v else none

end Parser

/-- What can stand behind a value: no byte that could belong to a number. -/
def Ends (rest : Text) : Prop :=
  ∀ b ∈ rest.head?, isDigit b = false ∧ b ≠ 46 ∧ b ≠ 101 ∧ b ≠ 69

/-- A text that is read as this whatever stands behind it. -/
def Reads {α : Type} (item : Parser α) (text : Text) (a : α) : Prop :=
  ∀ rest, Ends rest → item (text ++ rest) = some (a, rest)

section Space

variable {α : Type} {text rest : Text}

theorem skipSpace_cons {b : UInt8} (h : isSpace b = true) :
    skipSpace (b :: text) = skipSpace text := by
  rw [skipSpace, List.dropWhile_cons, if_pos h, skipSpace]

theorem skipSpace_of_not {b : UInt8} (h : isSpace b = false) :
    skipSpace (b :: text) = b :: text := by
  rw [skipSpace, List.dropWhile_cons, if_neg (by simp [h])]

theorem skipSpace_append {pad : Text} (h : ∀ b ∈ pad, isSpace b) :
    skipSpace (pad ++ text) = skipSpace text := by
  induction pad with
  | nil => rfl
  | cons b pad ih =>
      rw [List.cons_append, skipSpace_cons (h b List.mem_cons_self)]
      exact ih fun b' hb' => h b' (List.mem_cons_of_mem _ hb')

theorem takeWhile_digits {digits : Text} (hdigits : ∀ b ∈ digits, isDigit b) (h : Ends rest) :
    (digits ++ rest).takeWhile isDigit = digits := by
  rw [List.takeWhile_append_of_pos hdigits]
  cases rest with
  | nil => simp
  | cons b rest =>
      rw [List.takeWhile_cons, (h b rfl).1]
      simp

theorem dropWhile_digits {digits : Text} (hdigits : ∀ b ∈ digits, isDigit b) (h : Ends rest) :
    (digits ++ rest).dropWhile isDigit = rest := by
  rw [List.dropWhile_append_of_pos hdigits]
  cases rest with
  | nil => rfl
  | cons b rest =>
      rw [List.dropWhile_cons, (h b rfl).1]
      rfl

end Space

section Number

/-- Decimal digits without leading zeros. -/
structure Decimal (digits : Text) : Prop where
  ne_nil : digits ≠ []
  isDigit : ∀ b ∈ digits, JsonText.isDigit b
  no_leading_zero : digits.head? = some 48 → digits.length = 1

variable {digits rest : Text}

theorem whole_append (h : Decimal digits) (htake : (digits ++ rest).takeWhile isDigit = digits)
    (hdrop : (digits ++ rest).dropWhile isDigit = rest) :
    whole (digits ++ rest) = some (ofDecimal digits, rest) := by
  have hdecimal : ¬ (digits = [] ∨ digits.head? = some 48 ∧ digits.length ≠ 1) := by
    rintro (hnil | ⟨hzero, hlength⟩)
    · exact h.ne_nil hnil
    · exact hlength (h.no_leading_zero hzero)
  rw [whole, htake, hdrop]
  exact if_neg hdecimal

theorem fraction_of_ends (h : Ends rest) : fraction rest = some (0, rest) := by
  rw [fraction, if_neg]
  intro hpoint
  exact (h 46 hpoint).2.1 rfl

theorem exponent_of_ends (h : Ends rest) : exponent rest = some (0, rest) := by
  rw [exponent, if_neg]
  rintro (he | he)
  · exact (h 101 he).2.2.1 rfl
  · exact (h 69 he).2.2.2 rfl

theorem reads_unsigned (h : Decimal digits) : Reads unsigned digits (ofDecimal digits) := by
  intro rest hrest
  have hwhole :=
    whole_append h (takeWhile_digits h.isDigit hrest) (dropWhile_digits h.isDigit hrest)
  rw [unsigned, hwhole]
  simp only [fraction_of_ends hrest, exponent_of_ends hrest, Option.map_some, add_zero, zpow_zero,
    mul_one]

theorem reads_unsigned_fraction (decimals : Text) (h : Decimal digits) (hne : decimals ≠ [])
    (hdecimals : ∀ b ∈ decimals, isDigit b) :
    Reads unsigned (digits ++ 46 :: decimals)
      (ofDecimal digits + ofDecimal decimals / 10 ^ decimals.length) := by
  intro rest hrest
  have htake : (digits ++ 46 :: (decimals ++ rest)).takeWhile isDigit = digits := by
    rw [List.takeWhile_append_of_pos h.isDigit, List.takeWhile_cons, if_neg (by decide)]
    simp
  have hdrop : (digits ++ 46 :: (decimals ++ rest)).dropWhile isDigit =
      46 :: (decimals ++ rest) := by
    rw [List.dropWhile_append_of_pos h.isDigit, List.dropWhile_cons, if_neg (by decide)]
  have hfraction : fraction (46 :: (decimals ++ rest)) =
      some ((ofDecimal decimals : ℚ) / 10 ^ decimals.length, rest) := by
    rw [fraction, List.head?_cons, if_pos rfl, List.tail_cons, takeWhile_digits hdecimals hrest,
      dropWhile_digits hdecimals hrest]
    exact if_neg hne
  rw [List.append_assoc, List.cons_append, unsigned, whole_append h htake hdrop]
  simp only [hfraction, exponent_of_ends hrest, Option.map_some, zpow_zero, mul_one]

theorem reads_number {text : Text} {q : ℚ} (h : Reads unsigned text q)
    (hsign : ∀ rest, (text ++ rest).head? ≠ some 45) : Reads number text q := by
  intro rest hrest
  rw [number, if_neg (hsign rest)]
  exact h rest hrest

theorem reads_number_neg {text : Text} {q : ℚ} (h : Reads unsigned text q) :
    Reads number (45 :: text) (-q) := by
  intro rest hrest
  rw [number, List.cons_append, List.head?_cons, if_pos rfl, List.tail_cons, h rest hrest]
  rfl

end Number

section String

variable {text rest : Text}

theorem character_plain {b : UInt8} (hlow : ¬ (b < 32 ∨ b = 34)) (hescape : b ≠ 92) :
    character (b :: rest) = some ([b], rest) := by
  rw [character.eq_def]
  dsimp only
  rw [if_neg hlow, if_pos hescape]

theorem characters_close (fuel : ℕ) : characters (fuel + 1) (34 :: rest) = some ([], rest) := by
  rw [characters, List.head?_cons, if_pos rfl, List.tail_cons]

theorem characters_cons {first : Text} {b : UInt8} (hfirst : first.head? ≠ some 34)
    (hne : first ≠ []) (hcharacter : ∀ rest, character (first ++ rest) = some ([b], rest))
    (fuel : ℕ) : characters (fuel + 1) (first ++ rest) =
      (characters fuel rest).map fun (bytes, rest) => (b :: bytes, rest) := by
  have hhead : (first ++ rest).head? ≠ some 34 := by
    rw [List.head?_append_of_ne_nil _ hne]
    exact hfirst
  rw [characters, if_neg hhead, hcharacter]
  rfl

/-- A text of characters between quotes is read as the bytes that they stand for. -/
theorem string_quoted (write : UInt8 → Text) (bytes : Text)
    (hfirst : ∀ b, (write b).head? ≠ some 34) (hne : ∀ b, write b ≠ [])
    (hcharacter : ∀ b rest, character (write b ++ rest) = some ([b], rest)) (rest : Text) :
    string (34 :: bytes.flatMap write ++ 34 :: rest) = some (bytes, rest) := by
  have hloop : ∀ fuel, bytes.length < fuel →
      characters fuel (bytes.flatMap write ++ 34 :: rest) = some (bytes, rest) := by
    induction bytes with
    | nil =>
        intro fuel hfuel
        obtain ⟨n, rfl⟩ := Nat.exists_eq_succ_of_ne_zero (Nat.ne_of_gt hfuel)
        exact characters_close n
    | cons b bytes ih =>
        intro fuel hfuel
        obtain ⟨n, rfl⟩ := Nat.exists_eq_succ_of_ne_zero (Nat.ne_of_gt (Nat.zero_lt_of_lt hfuel))
        rw [List.length_cons] at hfuel
        rw [List.flatMap_cons, List.append_assoc,
          characters_cons (hfirst b) (hne b) (hcharacter b), ih n (by omega)]
        rfl
  have hlength : bytes.length ≤ (bytes.flatMap write).length := by
    rw [List.length_flatMap]
    have hle := List.card_nsmul_le_sum (bytes.map fun b => (write b).length) 1
    simp only [List.forall_mem_map, List.length_map, smul_eq_mul, mul_one] at hle
    exact hle fun b _ => List.length_pos_iff.2 (hne b)
  rw [string, List.cons_append, List.head?_cons, if_pos rfl, List.tail_cons]
  apply hloop
  simp only [List.length_cons, List.length_append]
  omega

end String

section Value

variable {α : Type} {item : Parser α} {text : Text} {a : α}

theorem ends_of_head {b : UInt8} {rest : Text}
    (h : isDigit b = false ∧ b ≠ 46 ∧ b ≠ 101 ∧ b ≠ 69) : Ends (b :: rest) := by
  intro b' hb'
  cases hb'
  exact h

theorem reads_member {key : Text} {keyText : Text}
    (hkey : ∀ rest, string (keyText ++ rest) = some (key, rest))
    (hquote : keyText.head? = some 34) (h : Reads item text a) :
    Reads (member item) (keyText ++ 58 :: text) (key, a) := by
  intro rest hrest
  have hskip : skipSpace (keyText ++ 58 :: text ++ rest) = keyText ++ 58 :: (text ++ rest) := by
    cases keyText with
    | nil => cases hquote
    | cons b more =>
        cases hquote
        rw [List.append_assoc, List.cons_append, List.cons_append, skipSpace_of_not (by decide),
          List.cons_append]
  have hcolon : skipSpace (58 :: (text ++ rest)) = 58 :: (text ++ rest) :=
    skipSpace_of_not (by decide)
  rw [member, hskip, hkey]
  simp only [hcolon, List.head?_cons, if_true, List.tail_cons, h rest hrest, Option.map_some]

theorem itemsUpTo_entries {close : UInt8} (hclose : close ≠ 44) (hspace : isSpace close = false)
    {pad rest : Text} (hpad : ∀ b ∈ pad, isSpace b) (hends : Ends (pad ++ close :: rest)) :
    ∀ (entries : List (Text × α)) (fuel : ℕ), entries ≠ [] → entries.length ≤ fuel →
      (∀ e ∈ entries, Reads item e.1 e.2) →
      itemsUpTo item close fuel
        ([44].intercalate (entries.map Prod.fst) ++ (pad ++ close :: rest)) =
          some (entries.map Prod.snd, rest) := by
  intro entries
  induction entries with
  | nil => exact fun _ hne => absurd rfl hne
  | cons e entries ih =>
      intro fuel _ hfuel hreads
      obtain ⟨n, rfl⟩ := Nat.exists_eq_succ_of_ne_zero
        (Nat.ne_of_gt (Nat.zero_lt_of_lt (Nat.lt_of_lt_of_le (Nat.lt_succ_self _) hfuel)))
      have hfirst := hreads e List.mem_cons_self
      cases entries with
      | nil =>
          have hskip : skipSpace (pad ++ close :: rest) = close :: rest := by
            rw [skipSpace_append hpad, skipSpace_of_not hspace]
          simp only [List.map_cons, List.map_nil, List.intercalate_singleton, itemsUpTo,
            hfirst _ hends, hskip, List.head?_cons, if_true, List.tail_cons]
      | cons e' entries =>
          have hcomma : ∀ more : Text, Ends (44 :: more) := fun more => ends_of_head (by decide)
          have hskip : ∀ more : Text, skipSpace (44 :: more) = 44 :: more :=
            fun more => skipSpace_of_not (by decide)
          have hother : (some 44 : Option UInt8) ≠ some close := by
            intro heq
            exact hclose (Option.some.inj heq).symm
          have hrest := ih n (by simp) (by simpa using hfuel)
            (fun e'' he'' => hreads e'' (List.mem_cons_of_mem _ he''))
          rw [List.map_cons, List.map_cons, List.intercalate_cons_cons, ← List.map_cons,
            List.append_assoc, List.append_assoc, itemsUpTo, List.singleton_append,
            hfirst _ (hcomma _)]
          rw [List.map_cons, List.map_cons] at hrest
          simp only [hskip, List.head?_cons, if_neg hother, if_true, List.tail_cons, List.map_cons,
            hrest, Option.map_some]

theorem length_le_intercalate (texts : List Text) :
    texts.length ≤ ([44].intercalate texts).length + 1 := by
  induction texts with
  | nil => exact Nat.zero_le _
  | cons t texts ih =>
      cases texts with
      | nil => simp
      | cons t' texts =>
          rw [List.intercalate_cons_cons]
          simp only [List.length_cons, List.length_append, List.length_nil] at ih ⊢
          omega

/-- A list of at least one item. Its first byte is neither a space nor the closing one. -/
theorem itemList_entries {close : UInt8} (hclose : close ≠ 44) (hspace : isSpace close = false)
    {pad rest : Text} (hpad : ∀ b ∈ pad, isSpace b) (hends : Ends (pad ++ close :: rest))
    {entries : List (Text × α)} (hne : entries ≠ []) (hreads : ∀ e ∈ entries, Reads item e.1 e.2)
    (hfirst : (skipSpace ([44].intercalate (entries.map Prod.fst) ++
      (pad ++ close :: rest))).head? ≠ some close) :
    itemList item close ([44].intercalate (entries.map Prod.fst) ++ (pad ++ close :: rest)) =
      some (entries.map Prod.snd, rest) := by
  rw [itemList, if_neg hfirst]
  apply itemsUpTo_entries hclose hspace hpad hends _ _ hne _ hreads
  have hle := length_le_intercalate (entries.map Prod.fst)
  simp only [List.length_map, List.length_append, List.length_cons] at hle ⊢
  omega

theorem value_space {b : UInt8} (h : isSpace b = true) (depth : ℕ) :
    value depth (b :: text) = value depth text := by
  cases depth with
  | zero => rfl
  | succ depth => rw [value, value, skipSpace_cons h]

theorem value_cons {b : UInt8} (h : isSpace b = false) (depth : ℕ) :
    value (depth + 1) (b :: text) = valueAt (value depth) b (b :: text) := by
  rw [value, skipSpace_of_not h, List.head?_cons]

theorem Reads.space {b : UInt8} {depth : ℕ} {v : Value} (hb : isSpace b = true)
    (h : Reads (value depth) text v) : Reads (value depth) (b :: text) v := by
  intro rest hrest
  rw [List.cons_append, value_space hb]
  exact h rest hrest

theorem reads_value_str {bytes : Text} (depth : ℕ) (hquote : text.head? = some 34)
    (h : ∀ rest, string (text ++ rest) = some (bytes, rest)) :
    Reads (value (depth + 1)) text (.str bytes) := by
  intro rest _
  have hstring := h rest
  cases text with
  | nil => cases hquote
  | cons b more =>
      cases hquote
      rw [List.cons_append] at hstring ⊢
      rw [value_cons (by decide), valueAt, if_pos rfl, hstring]
      rfl

theorem reads_value_num {q : ℚ} (depth : ℕ) (h : Reads number text q)
    (hfirst : ∃ b more, text = b :: more ∧ (isDigit b ∨ b = 45)) :
    Reads (value (depth + 1)) text (.num q) := by
  intro rest hrest
  obtain ⟨b, more, rfl, hb⟩ := hfirst
  have hnumber := h rest hrest
  have hother : isSpace b = false ∧ b ≠ 34 ∧ b ≠ 91 ∧ b ≠ 123 ∧ b ≠ 110 ∧ b ≠ 116 ∧ b ≠ 102 := by
    refine ⟨?_, ?_, ?_, ?_, ?_, ?_, ?_⟩
    · rcases hb with hb | rfl
      · simp only [isDigit, isSpace] at hb ⊢
        grind
      · decide
    all_goals
      rintro rfl
      revert hb
      decide
  obtain ⟨hspace, h34, h91, h123, h110, h116, h102⟩ := hother
  rw [List.cons_append] at hnumber ⊢
  rw [value_cons hspace, valueAt, if_neg h34, if_neg h91, if_neg h123, if_neg h110, if_neg h116,
    if_neg h102, hnumber]
  rfl

/-- An object of at least one member, each of which begins with a quote. -/
theorem reads_value_obj {entries : List (Text × Text × Value)} (depth : ℕ) (hne : entries ≠ [])
    (hquote : ∀ e ∈ entries, e.1.head? = some 34)
    (h : ∀ e ∈ entries, Reads (member (value depth)) e.1 e.2) :
    Reads (value (depth + 1)) (123 :: [44].intercalate (entries.map Prod.fst) ++ [125])
      (.obj (entries.map Prod.snd)) := by
  intro rest _
  have hends : Ends (([] : Text) ++ 125 :: rest) := ends_of_head (by decide)
  have hlist := itemList_entries (by decide) (by decide)
    (by simp) hends hne h ?_
  · rw [List.append_assoc, List.cons_append, value_cons (by decide), valueAt, if_neg (by decide),
      if_neg (by decide), if_pos rfl, List.tail_cons]
    rw [List.nil_append] at hlist
    rw [List.singleton_append, hlist]
    rfl
  · cases entries with
    | nil => exact absurd rfl hne
    | cons e entries =>
        have hfirst := hquote e List.mem_cons_self
        obtain ⟨more, hmore⟩ : ∃ more, e.1 = 34 :: more := by
          cases he : e.1 with
          | nil =>
              rw [he] at hfirst
              cases hfirst
          | cons b more =>
              rw [he] at hfirst
              cases hfirst
              exact ⟨more, rfl⟩
        have hbegin : ∃ more', [44].intercalate ((e :: entries).map Prod.fst) = 34 :: more' := by
          rw [List.map_cons, hmore]
          cases entries.map Prod.fst with
          | nil => exact ⟨more, List.intercalate_singleton⟩
          | cons t texts =>
              rw [List.intercalate_cons_cons]
              exact ⟨_, rfl⟩
        obtain ⟨more', hmore'⟩ := hbegin
        rw [hmore', List.cons_append, skipSpace_of_not (by decide), List.head?_cons]
        decide

theorem parse_arr_nil {pad : Text} (hpad : ∀ b ∈ pad, isSpace b) {rest : Text}
    (hrest : skipSpace rest = []) : parse (91 :: (pad ++ 93 :: rest)) = some (.arr []) := by
  have hskip : skipSpace (pad ++ 93 :: rest) = 93 :: rest := by
    rw [skipSpace_append hpad, skipSpace_of_not (by decide)]
  have hvalue : value (91 :: (pad ++ 93 :: rest)).length (91 :: (pad ++ 93 :: rest)) =
      some (.arr [], rest) := by
    rw [List.length_cons, value_cons (by decide), valueAt, if_neg (by decide), if_pos rfl,
      List.tail_cons, itemList, hskip, List.head?_cons, if_pos rfl, List.tail_cons]
    rfl
  rw [parse, hvalue]
  exact if_pos hrest

/-- An array of objects with spaces between the items and behind them. -/
theorem parse_arr {pad rest : Text} (hpad : ∀ b ∈ pad, isSpace b) (hends : Ends (pad ++ 93 :: rest))
    (hrest : skipSpace rest = []) {entries : List (Text × Value)} (hne : entries ≠ [])
    (hfirst : (skipSpace ([44].intercalate (entries.map Prod.fst) ++
      (pad ++ 93 :: rest))).head? ≠ some 93) {depth : ℕ}
    (hdepth : (91 :: ([44].intercalate (entries.map Prod.fst) ++ (pad ++ 93 :: rest))).length =
      depth + 1)
    (h : ∀ e ∈ entries, Reads (value depth) e.1 e.2) :
    parse (91 :: ([44].intercalate (entries.map Prod.fst) ++ (pad ++ 93 :: rest))) =
      some (.arr (entries.map Prod.snd)) := by
  have hlist := itemList_entries (by decide) (by decide) hpad hends
    hne h hfirst
  rw [parse, hdepth, value_cons (by decide), valueAt, if_neg (by decide), if_pos rfl,
    List.tail_cons, hlist]
  exact if_pos hrest

end Value

end JsonText
