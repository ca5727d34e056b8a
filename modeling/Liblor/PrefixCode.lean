import Mathlib.Data.List.Basic

/-!
# Texts that tell where they end

A code whose texts can be told apart by whatever follows them. One that a reader takes back is such
a code, and so are the lists of its texts between delimiters that none of them begins with. A reader
that needs to see a delimiter behind a word makes one for such lists, which needs to see nothing.
-/

namespace PrefixCode

variable {α β γ : Type*} {code : α → List β}

/-- Of two equal texts that begin with a word of the code, the words and the rests are equal. -/
def Unambiguous (code : α → List β) : Prop :=
  ∀ a b rest rest', code a ++ rest = code b ++ rest' → a = b ∧ rest = rest'

/-- What a reader takes back in front of anything is unambiguous. -/
theorem unambiguous_of_read {read : List β → Option (α × List β)}
    (h : ∀ a rest, read (code a ++ rest) = some (a, rest)) : Unambiguous code := by
  intro a b rest rest' heq
  have hread := h a rest
  rw [heq, h b rest'] at hread
  have hpair := Option.some.inj hread
  exact ⟨(Prod.mk.inj hpair).1.symm, (Prod.mk.inj hpair).2.symm⟩

/-- The words of a list between delimiters. -/
def delimited (first separator last : List β) (code : α → List β) (words : List α) : List β :=
  first ++ separator.intercalate (words.map code) ++ last

def following (separator last : List β) (code : α → List β) : List α → List β
  | [] => last
  | a :: words => separator ++ code a ++ following separator last code words

theorem intercalate_following (separator last : List β) (code : α → List β) (a : α)
    (words : List α) :
    separator.intercalate ((a :: words).map code) ++ last =
      code a ++ following separator last code words := by
  induction words generalizing a with
  | nil => simp only [List.map_cons, List.map_nil, List.intercalate, List.intersperse_singleton,
      List.flatten_singleton, following]
  | cons b words ih =>
    have hcons : separator.intercalate ((a :: b :: words).map code) =
        code a ++ (separator ++ separator.intercalate ((b :: words).map code)) := by
      simp only [List.map_cons, List.intercalate, List.intersperse_cons_cons, List.flatten_cons]
    rw [hcons, List.append_assoc, List.append_assoc, ih, following, List.append_assoc]

theorem append_ne_of_head {s t : List β} {x y : β} (hs : s.head? = some x) (ht : t.head? = some y)
    (hne : x ≠ y) (rest rest' : List β) : s ++ rest ≠ t ++ rest' := by
  intro heq
  cases s with
  | nil => cases hs
  | cons a s =>
    cases t with
    | nil => cases ht
    | cons b t =>
      rw [List.cons_append, List.cons_append, List.cons.injEq] at heq
      rw [List.head?_cons, Option.some.injEq] at hs ht
      exact hne (hs ▸ ht ▸ heq.1)

section Delimited

variable {first separator last : List β} {x y : β}

theorem following_unambiguous (hcode : Unambiguous code) (hseparator : separator.head? = some x)
    (hlast : last.head? = some y) (hne : x ≠ y) :
    Unambiguous (following separator last code) := by
  intro words words' rest rest' heq
  induction words generalizing words' with
  | nil =>
    cases words' with
    | nil => exact ⟨rfl, List.append_cancel_left heq⟩
    | cons b words' =>
      rw [following, following, List.append_assoc, List.append_assoc] at heq
      exact absurd heq.symm (append_ne_of_head hseparator hlast hne _ _)
  | cons a words ih =>
    cases words' with
    | nil =>
      rw [following, following, List.append_assoc, List.append_assoc] at heq
      exact absurd heq (append_ne_of_head hseparator hlast hne _ _)
    | cons b words' =>
      simp only [following, List.append_assoc, List.append_cancel_left_eq] at heq
      obtain ⟨rfl, hrest⟩ := hcode _ _ _ _ heq
      obtain ⟨rfl, hend⟩ := ih words' hrest
      exact ⟨rfl, hend⟩

/-- Delimited lists of an unambiguous code are one, if the end can be told from the separator and
from the words. -/
theorem delimited_unambiguous (hcode : Unambiguous code) (hseparator : separator.head? = some x)
    (hlast : last.head? = some y) (hne : x ≠ y)
    (hwords : ∀ a, ∃ z, (code a).head? = some z ∧ z ≠ y) :
    Unambiguous (delimited first separator last code) := by
  have hempty : separator.intercalate ([].map code) ++ last = last := rfl
  intro words words' rest rest' heq
  simp only [delimited, List.append_assoc first, List.append_assoc, List.append_cancel_left_eq]
    at heq
  simp only [← List.append_assoc (separator.intercalate _)] at heq
  cases words with
  | nil =>
    cases words' with
    | nil => exact ⟨rfl, List.append_cancel_left heq⟩
    | cons b words' =>
      obtain ⟨z, hz, hzy⟩ := hwords b
      rw [hempty, intercalate_following, List.append_assoc] at heq
      exact absurd heq.symm (append_ne_of_head hz hlast hzy _ _)
  | cons a words =>
    cases words' with
    | nil =>
      obtain ⟨z, hz, hzy⟩ := hwords a
      rw [hempty, intercalate_following, List.append_assoc] at heq
      exact absurd heq (append_ne_of_head hz hlast hzy _ _)
    | cons b words' =>
      rw [intercalate_following, intercalate_following, List.append_assoc, List.append_assoc] at heq
      obtain ⟨rfl, hrest⟩ := hcode _ _ _ _ heq
      obtain ⟨rfl, hend⟩ := following_unambiguous hcode hseparator hlast hne _ _ _ _ hrest
      exact ⟨rfl, hend⟩

end Delimited

/-! ## Readers -/

/-- The reader takes a word back where what follows it ends the word. -/
def ReadsBack (ends : List β → Prop) (read : List β → Option (α × List β)) (code : α → List β) :
    Prop :=
  ∀ a rest, ends rest → read (code a ++ rest) = some (a, rest)

section Following

variable {ends : List β → Prop} {first separator last : List β}

theorem delimited_cons (a : α) (words : List α) (rest : List β) :
    delimited first separator last code (a :: words) ++ rest =
      first ++ (code a ++ (following separator last code words ++ rest)) := by
  rw [delimited, List.append_assoc first, intercalate_following, List.append_assoc,
    List.append_assoc]

theorem following_head {x y : β} (hseparator : separator.head? = some x)
    (hlast : last.head? = some y) (words : List α) :
    ∃ z, (following separator last code words).head? = some z ∧ (z = x ∨ z = y) := by
  cases words with
  | nil => exact ⟨y, hlast, Or.inr rfl⟩
  | cons a words =>
    refine ⟨x, ?_, Or.inl rfl⟩
    rw [following, List.append_assoc, List.head?_append, hseparator]
    rfl

theorem following_ends (hseparator : ∀ rest, ends (separator ++ rest))
    (hlast : ∀ rest, ends (last ++ rest)) (words : List α) (rest : List β) :
    ends (following separator last code words ++ rest) := by
  cases words with
  | nil => exact hlast rest
  | cons a words =>
    rw [following, List.append_assoc, List.append_assoc]
    exact hseparator _

theorem length_lt_following (hlast : last ≠ []) (hseparator : separator ≠ []) (words : List α) :
    words.length < (following separator last code words).length := by
  induction words with
  | nil => exact List.length_pos_iff.2 hlast
  | cons a words ih =>
    have hpos := List.length_pos_iff.2 hseparator
    rw [following, List.length_append, List.length_append, List.length_cons]
    omega

end Following

section Readers

variable [DecidableEq β] {read : List β → Option (α × List β)}

/-- What follows the word at the start of a text. -/
def strip (word text : List β) : Option (List β) :=
  if text.take word.length = word then some (text.drop word.length) else none

@[simp] theorem strip_append (word rest : List β) : strip word (word ++ rest) = some rest := by
  rw [strip, List.take_left', List.drop_left'] <;> simp

omit [DecidableEq β] in
theorem head_append {text : List β} {x : β} (h : text.head? = some x) (rest : List β) :
    (text ++ rest).head? = some x := by
  rw [List.head?_append, h]
  rfl

theorem strip_of_head {word text : List β} {x y : β} (hword : word.head? = some x)
    (htext : text.head? = some y) (hne : x ≠ y) (rest : List β) :
    strip word (text ++ rest) = none := by
  rw [strip, if_neg]
  intro htake
  have hhead := head_append htext rest
  rw [← htake, List.head?_take, hhead] at hword
  split_ifs at hword
  exact hne (Option.some.inj hword).symm

/-- The words behind the first one, up to the end. -/
def readFollowing (separator last : List β) (read : List β → Option (α × List β)) :
    ℕ → List β → Option (List α × List β)
  | 0, _ => none
  | fuel + 1, text =>
    match strip last text with
    | some rest => some ([], rest)
    | none =>
      ((strip separator text).bind read).bind fun (a, text) =>
        (readFollowing separator last read fuel text).map fun (words, text) => (a :: words, text)

/-- The words between the delimiters. -/
def readDelimited (first separator last : List β) (read : List β → Option (α × List β))
    (text : List β) : Option (List α × List β) :=
  (strip first text).bind fun text =>
    match strip last text with
    | some rest => some ([], rest)
    | none =>
      (read text).bind fun (a, text) =>
        (readFollowing separator last read text.length text).map fun (words, text) =>
          (a :: words, text)

variable {ends : List β → Prop} {first separator last : List β} {x y : β}

theorem readFollowing_following (hcode : ReadsBack ends read code)
    (hseparator : separator.head? = some x) (hlast : last.head? = some y) (hne : x ≠ y)
    (hends : ∀ rest, ends (separator ++ rest)) (hends' : ∀ rest, ends (last ++ rest))
    (words : List α) (rest : List β) {fuel : ℕ} (hfuel : words.length < fuel) :
    readFollowing separator last read fuel (following separator last code words ++ rest) =
      some (words, rest) := by
  induction words generalizing fuel with
  | nil =>
    obtain ⟨fuel, rfl⟩ := Nat.exists_eq_add_one_of_ne_zero (Nat.ne_zero_of_lt hfuel)
    rw [following, readFollowing, strip_append]
  | cons a words ih =>
    obtain ⟨fuel, rfl⟩ := Nat.exists_eq_add_one_of_ne_zero (Nat.ne_zero_of_lt hfuel)
    have hfollows : ends (following separator last code words ++ rest) :=
      following_ends hends hends' words rest
    have hread := hcode a _ hfollows
    rw [following, List.append_assoc, List.append_assoc, readFollowing,
      strip_of_head hlast hseparator hne.symm, strip_append]
    simp only [Option.bind_some, hread, ih (Nat.lt_of_succ_lt_succ hfuel), Option.map_some]

/-- Delimited lists are read back whatever follows them, if the delimiters end a word and the end
can be told from the separator and from the words. -/
theorem readDelimited_delimited (hcode : ReadsBack ends read code)
    (hseparator : separator.head? = some x) (hlast : last.head? = some y) (hne : x ≠ y)
    (hends : ∀ rest, ends (separator ++ rest)) (hends' : ∀ rest, ends (last ++ rest))
    (words : List α) (hwords : ∀ a ∈ words, ∃ z, (code a).head? = some z ∧ z ≠ y) (rest : List β) :
    readDelimited first separator last read (delimited first separator last code words ++ rest) =
      some (words, rest) := by
  have hseparator' : separator ≠ [] := fun h => by
    rw [h] at hseparator
    cases hseparator
  have hlast' : last ≠ [] := fun h => by
    rw [h] at hlast
    cases hlast
  cases words with
  | nil =>
    have hempty : delimited first separator last code [] ++ rest = first ++ (last ++ rest) := by
      rw [delimited, List.append_assoc, List.append_assoc]
      rfl
    rw [hempty, readDelimited, strip_append]
    simp only [Option.bind_some, strip_append]
  | cons a words =>
    obtain ⟨z, hz, hzy⟩ := hwords a List.mem_cons_self
    have hfollows : ends (following separator last code words ++ rest) :=
      following_ends hends hends' words rest
    have hread := hcode a _ hfollows
    have hlength : words.length < (following separator last code words).length :=
      length_lt_following hlast' hseparator' words
    have hfuel : words.length < (following separator last code words ++ rest).length := by
      rw [List.length_append]
      omega
    have hrest := readFollowing_following hcode hseparator hlast hne hends hends' words rest hfuel
    rw [delimited_cons, readDelimited, strip_append]
    simp only [Option.bind_some, strip_of_head hlast hz hzy.symm, hread, hrest, Option.map_some]

theorem readDelimited_of_head {text : List β} (hfirst : first.head? = some x)
    (htext : text.head? = some y) (hne : x ≠ y) (rest : List β) :
    readDelimited first separator last read (text ++ rest) = none := by
  rw [readDelimited, strip_of_head hfirst htext hne, Option.bind_none]

theorem readDelimited_of_refused (hlast : last.head? = some y) {a : α} {words : List α}
    (ha : ∃ z, (code a).head? = some z ∧ z ≠ y) {rest : List β}
    {read : List β → Option (γ × List β)}
    (hread : read (code a ++ (following separator last code words ++ rest)) = none) :
    readDelimited first separator last read
      (delimited first separator last code (a :: words) ++ rest) = none := by
  obtain ⟨z, hz, hzy⟩ := ha
  rw [delimited_cons, readDelimited, strip_append]
  simp only [Option.bind_some, strip_of_head hlast hz hzy.symm, hread, Option.bind_none]

end Readers

end PrefixCode
