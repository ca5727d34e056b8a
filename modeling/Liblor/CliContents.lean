import Liblor.CliRegistry

/-!
# What the destinations hold

`deposit` is what one text does to the destination of an option or a positional, and `contents` what
all texts it is given make of it. While the destinations of a registry are distinct, every one of
them holds the contents of its own texts.
-/

namespace Liblor.Cli

variable {D : Type} {convert : Converters D} {memory final : Memory D} {kind : LorCliValueKind}
  {destination : ℕ} {texts : List Bytes} {text : Bytes}

/-- A numeric text is one that its converter takes. -/
def Accepts (convert : Converters D) (kind : LorCliValueKind) (text : Bytes) : Prop :=
  match kind with
  | .int | .ints => parseInt convert text ≠ none
  | .double | .doubles => parseDouble convert text ≠ none
  | _ => True

/-- A count has room for so many occurrences. -/
def Room : (kind : LorCliValueKind) → kind.storage.Data D → ℕ → Prop
  | .count, initial, occurrences => initial.toNat + occurrences ≤ sizeMax
  | _, _, _ => True

def contents (convert : Converters D) :
    (kind : LorCliValueKind) → kind.storage.Data D → List Bytes → kind.storage.Data D
  | .flag, initial, texts => initial || !texts.isEmpty
  | .count, initial, texts => initial + UInt64.ofNat texts.length
  | .string, initial, texts => texts.getLast?.getD initial
  | .int, initial, texts => (texts.getLast?.bind (parseInt convert)).getD initial
  | .double, initial, texts => (texts.getLast?.bind (parseDouble convert)).getD initial
  | .strings, initial, texts => initial ++ texts
  | .ints, initial, texts => initial ++ texts.filterMap (parseInt convert)
  | .doubles, initial, texts => initial ++ texts.filterMap (parseDouble convert)
  | .positionals, initial, texts => initial ++ texts

def deposit (convert : Converters D) :
    (kind : LorCliValueKind) → kind.storage.Data D → Bytes → Option (kind.storage.Data D)
  | .flag, _, _ => some true
  | .count, current, _ => if current.toNat = sizeMax then none else some (current + 1)
  | .string, _, text => some text
  | .int, _, text => parseInt convert text
  | .double, _, text => parseDouble convert text
  | .strings, current, text => some (current ++ [text])
  | .ints, current, text => (parseInt convert text).map fun value => current ++ [value]
  | .doubles, current, text => (parseDouble convert text).map fun value => current ++ [value]
  | .positionals, current, text => some (current ++ [text])

section Deposit

theorem contents_nil (initial : kind.storage.Data D) :
    contents convert kind initial [] = initial := by
  cases kind with
  | flag => exact Bool.or_false initial
  | count => exact UInt64.add_zero initial
  | string => rfl
  | int => rfl
  | double => rfl
  | _ => exact List.append_nil _

theorem room_iff (occurrences : ℕ) :
    Room kind (memory kind.storage destination) occurrences ↔
      (kind = .count → (memory .size destination).toNat + occurrences ≤ sizeMax) := by
  cases kind <;> simp [Room]

theorem contents_count_toNat (convert : Converters D) {initial : UInt64}
    (h : initial.toNat + texts.length ≤ sizeMax) :
    UInt64.toNat (contents convert .count initial texts) = initial.toNat + texts.length := by
  change (initial + UInt64.ofNat texts.length).toNat = _
  unfold sizeMax at h
  rw [UInt64.toNat_add, UInt64.toNat_ofNat']
  omega

theorem deposit_count (current : UInt64) :
    deposit convert .count current text =
      if current.toNat = sizeMax then none else some (current + 1) := rfl

theorem contents_count_concat (initial : UInt64) :
    contents convert .count initial (texts ++ [text]) =
      (contents convert .count initial texts : UInt64) + 1 := by
  change initial + UInt64.ofNat (texts ++ [text]).length = initial + UInt64.ofNat texts.length + 1
  rw [List.length_append, List.length_singleton, UInt64.ofNat_add, UInt64.add_assoc]
  rfl

/-- A text is taken where it is accepted and a count has room for it. -/
theorem deposit_contents (initial : kind.storage.Data D) (haccepts : Accepts convert kind text)
    (hroom : Room kind initial (texts.length + 1)) :
    deposit convert kind (contents convert kind initial texts) text =
      some (contents convert kind initial (texts ++ [text])) := by
  cases kind with
  | flag => simp [deposit, contents]
  | count =>
      have hnat := contents_count_toNat convert (Nat.le_of_succ_le hroom)
      change UInt64.toNat initial + (texts.length + 1) ≤ sizeMax at hroom
      rw [deposit_count, contents_count_concat, if_neg]
      omega
  | string => simp [deposit, contents]
  | int =>
      obtain ⟨value, hvalue⟩ := Option.ne_none_iff_exists'.1 haccepts
      simp [deposit, contents, hvalue]
  | double =>
      obtain ⟨value, hvalue⟩ := Option.ne_none_iff_exists'.1 haccepts
      simp [deposit, contents, hvalue]
  | strings => simp [deposit, contents]
  | ints =>
      obtain ⟨value, hvalue⟩ := Option.ne_none_iff_exists'.1 haccepts
      simp [deposit, contents, hvalue]
  | doubles =>
      obtain ⟨value, hvalue⟩ := Option.ne_none_iff_exists'.1 haccepts
      simp [deposit, contents, hvalue]
  | positionals => simp [deposit, contents]

theorem deposit_eq_none (initial : kind.storage.Data D) (hroom : Room kind initial texts.length)
    (h : ¬ (Accepts convert kind text ∧ Room kind initial (texts.length + 1))) :
    deposit convert kind (contents convert kind initial texts) text = none := by
  cases kind with
  | count =>
      have hfull : ¬ UInt64.toNat initial + (texts.length + 1) ≤ sizeMax :=
        fun hle => h ⟨trivial, hle⟩
      change UInt64.toNat initial + texts.length ≤ sizeMax at hroom
      have hnat := contents_count_toNat convert hroom
      rw [deposit_count, if_pos]
      omega
  | int => simpa [Accepts, Room, deposit] using h
  | double => simpa [Accepts, Room, deposit] using h
  | ints => simpa [Accepts, Room, deposit] using h
  | doubles => simpa [Accepts, Room, deposit] using h
  | _ => exact absurd ⟨trivial, trivial⟩ h

theorem assignValue_eq (hkind : kind.bare = false) :
    assignValue convert memory kind destination text =
      match deposit convert kind (memory kind.storage destination) text with
      | some value => (.ok, memory.write kind.storage destination value)
      | none => (.invalidValue, memory) := by
  cases kind with
  | flag => cases hkind
  | count => cases hkind
  | int => simp only [assignValue, deposit]; cases parseInt convert text <;> rfl
  | double => simp only [assignValue, deposit]; cases parseDouble convert text <;> rfl
  | ints => simp only [assignValue, deposit]; cases parseInt convert text <;> rfl
  | doubles => simp only [assignValue, deposit]; cases parseDouble convert text <;> rfl
  | _ => rfl

/-- An option that may occur once more deposits its text; a bare one is given no value. -/
theorem applyOption_eq (parser : Parser D) (index : ℕ) (option : LorCliOptionInternal)
    (text : Bytes) (i : ℤ) (token : Bytes) :
    applyOption convert parser (index, option) (if option.kind.bare then none else some text) i
        token =
      if option.occurrences ≠ 0 ∧ option.spec.repeatable = false then
        (optionResult .duplicateOption i token option, parser)
      else
        match deposit convert option.kind (parser.memory option.kind.storage option.destination)
          text with
        | some value => (optionResult .ok i token option,
            { parser with
              memory := parser.memory.write option.kind.storage option.destination value
            }.occurred index)
        | none =>
          (optionResult .invalidValue i (if option.kind.bare then token else text) option,
            parser) := by
  obtain ⟨spec, kind, destination, occurrences⟩ := option
  by_cases hduplicate : occurrences ≠ 0 ∧ spec.repeatable = false
  · simp only [applyOption, if_pos hduplicate]
  simp only [applyOption, if_neg hduplicate]
  by_cases hbare : kind.bare
  · cases kind with
    | flag => rfl
    | count =>
        have hflag : LorCliValueKind.count ≠ .flag := by decide
        rw [if_pos hbare, if_neg hflag, if_pos rfl, if_neg (not_not.2 rfl), deposit_count]
        by_cases hfull : (parser.memory .size destination).toNat = sizeMax
        · rw [if_pos hfull, if_pos hfull]
          rfl
        · rw [if_neg hfull, if_neg hfull]
    | _ => cases hbare
  · rw [if_neg hbare, if_neg hbare, if_neg, if_neg]
    · dsimp only
      rw [assignValue_eq (Bool.not_eq_true _ ▸ hbare)]
      cases deposit convert kind (parser.memory kind.storage destination) text with
      | none => rfl
      | some value => rfl
    · rintro rfl
      exact hbare rfl
    · rintro rfl
      exact hbare rfl

end Deposit

section Memory

theorem Memory.write_same {storage : Storage} (value : storage.Data D) :
    memory.write storage destination value storage destination = value := by
  have houter : memory.write storage destination value storage =
      Function.update (memory storage) destination value := Function.update_self _ _ _
  rw [houter, Function.update_self]

theorem Memory.write_other {storage storage' : Storage} {destination' : ℕ} (value : storage.Data D)
    (h : destination' ≠ destination) :
    memory.write storage destination value storage' destination' =
      memory storage' destination' := by
  by_cases hstorage : storage' = storage
  · subst hstorage
    have houter : memory.write storage' destination value storage' =
        Function.update (memory storage') destination value := Function.update_self _ _ _
    rw [houter, Function.update_of_ne h]
  · exact congrFun (Function.update_of_ne hstorage _ _) destination'

/-- The memory after every item has been given its texts, `memory` being that before. -/
structure Holds (convert : Converters D) (items : List (LorCliValueKind × ℕ)) (memory : Memory D)
    (share : ℕ → List Bytes) (final : Memory D) : Prop where
  held : ∀ (j : ℕ) (kind : LorCliValueKind) (destination : ℕ),
    items[j]? = some (kind, destination) → final kind.storage destination =
      contents convert kind (memory kind.storage destination) (share j)
  frame : ∀ (storage : Storage) (destination : ℕ), (∀ item ∈ items, item.2 ≠ destination) →
    final storage destination = memory storage destination

variable {items : List (LorCliValueKind × ℕ)} {share : ℕ → List Bytes}

theorem holds_nil : Holds convert items memory (fun _ => []) memory :=
  ⟨fun _ _ _ _ => (contents_nil _).symm, fun _ _ _ => rfl⟩

/-- Writing the contents of one item leaves those of the others. -/
theorem Holds.write {j : ℕ} (h : Holds convert items memory share final)
    (hdistinct : (items.map Prod.snd).Nodup) (hitem : items[j]? = some (kind, destination))
    (texts : List Bytes) :
    Holds convert items memory (Function.update share j texts)
      (final.write kind.storage destination
        (contents convert kind (memory kind.storage destination) texts)) := by
  constructor
  · intro k kind' destination' hitem'
    by_cases hk : k = j
    · subst hk
      rw [hitem] at hitem'
      cases hitem'
      rw [Memory.write_same, Function.update_self]
    · have hne : destination' ≠ destination := by
        intro heq
        apply hk
        apply (List.getElem?_inj _ hdistinct).1
        · rw [List.getElem?_map, List.getElem?_map, hitem, hitem']
          exact congrArg some heq
        · rw [List.length_map]
          exact (List.getElem?_eq_some_iff.1 hitem').1
      rw [Memory.write_other _ hne, Function.update_of_ne hk]
      exact h.held k kind' destination' hitem'
  · intro storage destination' hfree
    rw [Memory.write_other _ (hfree _ (List.mem_of_getElem? hitem)).symm]
    exact h.frame storage destination' hfree

end Memory

end Liblor.Cli
