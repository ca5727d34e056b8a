import Liblor.PrefixCode
import Liblor.TraceFlush

/-!
# Escaped strings

The text of a string has no control byte and no quote that closes it before its end, and a reader
that decodes the escapes gets the bytes back. A write that fails leaves a beginning of the text.
-/

namespace Liblor.Trace

open PrefixCode

/-- The index of the first quote without a backslash that escapes it; `escaped` tells whether such a
backslash stands in front of the text. -/
def closingQuote : (escaped : Bool) → Bytes → Option ℕ
  | _, [] => none
  | true, _ :: text => (closingQuote false text).map (· + 1)
  | false, byte :: text =>
    if byte = 34 then some 0 else (closingQuote (byte == 92) text).map (· + 1)

section Scan

/-- A scan that goes past a piece of text without finding a quote. -/
def Passed (piece : Bytes) : Prop :=
  ∀ rest, closingQuote false (piece ++ rest) = (closingQuote false rest).map (· + piece.length)

theorem passed_nil : Passed [] := by
  intro rest
  simp

theorem Passed.append {first second : Bytes} (h : Passed first) (h' : Passed second) :
    Passed (first ++ second) := by
  intro rest
  rw [List.append_assoc, h, h', Option.map_map, List.length_append]
  congr 1
  funext n
  simp only [Function.comp_apply]
  omega

theorem passed_plain {byte : UInt8} (hquote : byte ≠ 34) (hescape : byte ≠ 92) :
    Passed [byte] := by
  intro rest
  rw [List.singleton_append, closingQuote, if_neg hquote, beq_false_of_ne hescape]
  rfl

/-- A backslash goes with the byte behind it. -/
theorem passed_escape (byte : UInt8) : Passed [92, byte] := by
  intro rest
  have hslash : closingQuote false ([92, byte] ++ rest) =
      (closingQuote true (byte :: rest)).map (· + 1) := rfl
  rw [hslash, closingQuote, Option.map_map]
  rfl

theorem passed_flatMap {α : Type*} {piece : α → Bytes} (h : ∀ a, Passed (piece a)) (text : List α) :
    Passed (text.flatMap piece) := by
  induction text with
  | nil => exact passed_nil
  | cons a text ih =>
      rw [List.flatMap_cons]
      exact (h a).append ih

/-- A byte that stands for itself: neither a control byte nor a quote nor a backslash. -/
def IsPlain (byte : UInt8) : Prop := 32 ≤ byte ∧ byte ≠ 34 ∧ byte ≠ 92

instance (byte : UInt8) : Decidable (IsPlain byte) :=
  inferInstanceAs (Decidable (32 ≤ byte ∧ byte ≠ 34 ∧ byte ≠ 92))

theorem hex_digit : ∀ n < 256, IsPlain (hex (UInt8.ofNat n >>> 4)) ∧
    IsPlain (hex (UInt8.ofNat n &&& 15)) := by decide +kernel

theorem hex_plain (byte : UInt8) : IsPlain (hex (byte >>> 4)) ∧ IsPlain (hex (byte &&& 15)) := by
  have hdigit := hex_digit byte.toNat byte.toNat_lt
  rwa [UInt8.ofNat_toNat] at hdigit

theorem passed_jsonByte (byte : UInt8) : Passed (jsonByte byte) := by
  unfold jsonByte
  split_ifs with h34 h92 h8 h12 h10 h13 h9 h32
  · exact passed_escape 34
  · exact passed_escape 92
  · exact passed_escape 98
  · exact passed_escape 102
  · exact passed_escape 110
  · exact passed_escape 114
  · exact passed_escape 116
  · obtain ⟨⟨-, hhigh⟩, ⟨-, hlow⟩⟩ := hex_plain byte
    have hzero : Passed [48] := passed_plain (by decide) (by decide)
    have hdigits := (passed_plain hhigh.1 hhigh.2).append (passed_plain hlow.1 hlow.2)
    exact (passed_escape 117).append (hzero.append (hzero.append hdigits))
  · exact passed_plain h34 h92

theorem le_escape {byte : UInt8} (h : 32 ≤ byte) : ∀ b ∈ [92, byte], (32 : UInt8) ≤ b := by
  rw [List.forall_mem_cons, List.forall_mem_singleton]
  exact ⟨by decide, h⟩

theorem le_jsonByte (byte : UInt8) : ∀ b ∈ jsonByte byte, 32 ≤ b := by
  unfold jsonByte
  split_ifs with h34 h92 h8 h12 h10 h13 h9 h32
  · exact le_escape (by decide)
  · exact le_escape (by decide)
  · exact le_escape (by decide)
  · exact le_escape (by decide)
  · exact le_escape (by decide)
  · exact le_escape (by decide)
  · exact le_escape (by decide)
  · obtain ⟨hhigh, hlow⟩ := hex_plain byte
    simp only [List.forall_mem_cons, List.not_mem_nil, false_implies, implies_true, and_true]
    exact ⟨by decide, by decide, by decide, by decide, hhigh.1, hlow.1⟩
  · rw [List.forall_mem_singleton]
    exact UInt8.not_lt.1 h32

end Scan

section Puts

/-- The writer appends a beginning of the text, and all of it if it succeeds. -/
def Puts (write : Write) (text : Bytes) : Prop :=
  ∀ trace, ∃ written, (write trace).2.file.bytes = trace.file.bytes ++ written ∧
    written <+: text ∧ ((write trace).1 = true → written = text)

variable {os : Os}

theorem puts_output (data : Bytes) : Puts (output os data) data := by
  intro trace
  unfold output
  split
  · exact ⟨data, rfl, List.prefix_rfl, fun _ => rfl⟩
  · next n hfault => exact ⟨data.take n, rfl, List.take_prefix n data, fun h => by cases h⟩

theorem puts_writeBytes (data : Bytes) : Puts (writeBytes os data) data := by
  intro trace
  unfold writeBytes
  split
  · next hempty =>
      rw [List.length_eq_zero_iff] at hempty
      exact ⟨[], (List.append_nil _).symm, List.nil_prefix, fun _ => hempty.symm⟩
  · exact puts_output data trace

theorem puts_ite {p : Prop} [Decidable p] {write write' : Write} {text text' : Bytes}
    (h : Puts write text) (h' : Puts write' text') :
    Puts (if p then write else write') (if p then text else text') := by
  split
  · exact h
  · exact h'

theorem Puts.all {writes : List Write} {texts : List Bytes} (h : List.Forall₂ Puts writes texts) :
    Puts (all writes) texts.flatten := by
  induction h with
  | nil => exact fun trace => ⟨[], (List.append_nil _).symm, List.prefix_rfl, fun _ => rfl⟩
  | @cons write text writes texts hfirst hrest ih =>
      intro trace
      obtain ⟨written, hbytes, hprefix, hall⟩ := hfirst trace
      rw [Trace.all, List.flatten_cons]
      rcases hwrite : write trace with ⟨ok, trace'⟩
      rw [hwrite] at hbytes hall
      cases ok with
      | false =>
          exact ⟨written, hbytes, hprefix.trans (List.prefix_append _ _), fun h => by cases h⟩
      | true =>
          obtain ⟨more, hmore, hmorePrefix, hmoreAll⟩ := ih trace'
          obtain rfl := hall rfl
          refine ⟨written ++ more, ?_, (List.prefix_append_right_inj _).2 hmorePrefix, ?_⟩
          · dsimp only at hbytes ⊢
            rw [hmore, hbytes, List.append_assoc]
          · intro hok
            rw [hmoreAll hok]

theorem puts_writeJsonByte (byte : UInt8) : Puts (writeJsonByte os byte) (jsonByte byte) := by
  unfold writeJsonByte jsonByte
  iterate 7
    refine puts_ite (puts_writeBytes _) ?_
  exact puts_ite (puts_writeBytes _) (puts_output _)

variable (os) in
theorem puts_writeJsonString (text : Bytes) : Puts (writeJsonString os text) (jsonString text) := by
  have hbytes : List.Forall₂ Puts (text.map (writeJsonByte os)) (text.map jsonByte) := by
    rw [List.forall₂_map_left_iff, List.forall₂_map_right_iff, List.forall₂_same]
    exact fun byte _ => puts_writeJsonByte byte
  have hquote : Puts (writeChar os 34) [34] := puts_output [34]
  have hall := Puts.all (List.rel_append (List.Forall₂.cons hquote hbytes)
    (List.Forall₂.cons hquote .nil))
  have htext : jsonString text =
      (([34] :: text.map jsonByte) ++ [[34]] : List Bytes).flatten := by
    simp [jsonString, List.flatMap]
  rw [htext]
  exact hall

end Puts

/-- What is written of a string is a beginning of its text, and all of it if no write fails. Between
the quotes of the text there is no control byte, and whatever stands behind it, the quote at its end
is the first that is not escaped; reading the text gives the string back and leaves what stands
behind. -/
theorem json_string_round_trips (os : Os) :
    (∀ text trace, ∃ written,
      (writeJsonString os text trace).2.file.bytes = trace.file.bytes ++ written ∧
      written <+: jsonString text ∧
      ((writeJsonString os text trace).1 = true → written = jsonString text) ∧
      (os.Faultless → (writeJsonString os text trace).1 = true)) ∧
    (∀ text, ∃ body, jsonString text = 34 :: body ++ [34] ∧ (∀ byte ∈ body, 32 ≤ byte) ∧
      closingQuote false body = none ∧
      ∀ rest, closingQuote false (body ++ 34 :: rest) = some body.length ∧
        JsonText.string (jsonString text ++ rest) = some (text, rest)) ∧
    Unambiguous jsonString := by
  refine ⟨?_, ?_, unambiguous_of_read string_jsonString⟩
  · intro text trace
    obtain ⟨written, hbytes, hprefix, hall⟩ := puts_writeJsonString os text trace
    exact ⟨written, hbytes, hprefix, hall,
      fun h => ((sequential_succeeds h).writeJsonString text trace).1⟩
  · intro text
    have hpassed := passed_flatMap passed_jsonByte text
    refine ⟨text.flatMap jsonByte, rfl, ?_, ?_, ?_⟩
    · intro byte hbyte
      obtain ⟨b, -, hb⟩ := List.mem_flatMap.1 hbyte
      exact le_jsonByte b byte hb
    · have hend := hpassed []
      rwa [List.append_nil] at hend
    · intro rest
      refine ⟨?_, string_jsonString text rest⟩
      rw [hpassed, closingQuote, if_pos rfl, Option.map_some, Nat.zero_add]

end Liblor.Trace
