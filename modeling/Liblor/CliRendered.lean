import Liblor.CliContents
import Liblor.CliTurn

/-!
# Rendered command lines

A command line that is rendered from option occurrences and positional texts, what each destination
is given by it, and when all of it is admitted.
-/

namespace Liblor.Cli

variable {D : Type} {convert : Converters D} {cli : LorCli} {memory : Memory D}
  {item : LorCliPositionalInternal} {index : ℕ}

/-- An occurrence of a registered option with the text of its value, which flags and counts have
none of. -/
structure Occurrence (cli : LorCli) where
  index : Fin cli.options.length
  text : Bytes

variable {occurrence : Occurrence cli} {done later : List (Occurrence cli)}

def Occurrence.option (occurrence : Occurrence cli) : LorCliOptionInternal :=
  cli.options.get occurrence.index

/-- `--name` and `--name=text`. -/
def Occurrence.render (occurrence : Occurrence cli) : Bytes :=
  let name := occurrence.option.spec.longName.getD []
  if occurrence.option.kind.bare then 45 :: 45 :: name
  else 45 :: 45 :: (name ++ 61 :: occurrence.text)

/-- The program's name, the occurrences in order, `--` and the positional texts. -/
def renderedArgv (program : Option Bytes) (occurrences : List (Occurrence cli))
    (texts : List Bytes) : List (Option Bytes) :=
  program :: occurrences.map (fun occurrence => some occurrence.render) ++
    some [45, 45] :: texts.map some

/-- The texts that the option at an index is given. -/
def optionTexts (index : ℕ) (occurrences : List (Occurrence cli)) : List Bytes :=
  (occurrences.filter fun occurrence => occurrence.index.val == index).map Occurrence.text

/-- The texts that the positional at an index is given. -/
def positionalTexts (item : LorCliPositionalInternal) (index : ℕ) (texts : List Bytes) :
    List Bytes :=
  if item.kind = .positionals then texts.drop index else texts[index]?.toList

section Options

theorem optionTexts_append :
    optionTexts index (done ++ later) = optionTexts index done ++ optionTexts index later := by
  rw [optionTexts, List.filter_append, List.map_append]
  rfl

theorem optionTexts_concat_same :
    optionTexts occurrence.index (done ++ [occurrence]) =
      optionTexts occurrence.index done ++ [occurrence.text] := by
  rw [optionTexts_append]
  simp [optionTexts]

theorem optionTexts_concat_other (h : index ≠ occurrence.index) :
    optionTexts index (done ++ [occurrence]) = optionTexts index done := by
  rw [optionTexts_append]
  simp [optionTexts, h.symm]

theorem occurrence_option (occurrence : Occurrence cli) :
    cli.options[occurrence.index.val]? = some occurrence.option :=
  List.getElem?_eq_getElem occurrence.index.isLt

/-- An occurrence gives its text to its own option and leaves the others as they are. -/
theorem optionTexts_concat {option : LorCliOptionInternal}
    (hindex : cli.options[index]? = some option)
    (done : List (Occurrence cli)) (occurrence : Occurrence cli) :
    (option = occurrence.option ∧ optionTexts index (done ++ [occurrence]) =
        optionTexts occurrence.index done ++ [occurrence.text]) ∨
      optionTexts index (done ++ [occurrence]) = optionTexts index done := by
  by_cases hsame : index = occurrence.index
  · subst hsame
    rw [occurrence_option] at hindex
    cases hindex
    exact Or.inl ⟨rfl, optionTexts_concat_same⟩
  · exact Or.inr (optionTexts_concat_other hsame)

/-- No option takes more occurrences or another value than it may. -/
structure Admitted (convert : Converters D) (cli : LorCli) (memory : Memory D)
    (occurrences : List (Occurrence cli)) : Prop where
  once : ∀ (index : ℕ) (option : LorCliOptionInternal), cli.options[index]? = some option →
    option.spec.repeatable = false → (optionTexts index occurrences).length ≤ 1
  counts : ∀ (index : ℕ) (option : LorCliOptionInternal), cli.options[index]? = some option →
    Room option.kind (memory option.kind.storage option.destination)
      (optionTexts index occurrences).length
  numbers : ∀ (index : ℕ) (option : LorCliOptionInternal), cli.options[index]? = some option →
    ∀ text ∈ optionTexts index occurrences, Accepts convert option.kind text

/-- The next occurrence is taken behind these. -/
structure Fits (convert : Converters D) (memory : Memory D) (done : List (Occurrence cli))
    (occurrence : Occurrence cli) : Prop where
  once : occurrence.option.spec.repeatable = false → optionTexts occurrence.index done = []
  counts : Room occurrence.option.kind
    (memory occurrence.option.kind.storage occurrence.option.destination)
    ((optionTexts occurrence.index done).length + 1)
  numbers : Accepts convert occurrence.option.kind occurrence.text

theorem Room.mono {kind : LorCliValueKind} {initial : kind.storage.Data D} {m n : ℕ} (hmn : m ≤ n)
    (h : Room kind initial n) : Room kind initial m := by
  cases kind with
  | count =>
      change UInt64.toNat initial + n ≤ sizeMax at h
      change UInt64.toNat initial + m ≤ sizeMax
      omega
  | _ => trivial

theorem room_zero {kind : LorCliValueKind} (initial : kind.storage.Data D) :
    Room kind initial 0 := by
  cases kind with
  | count =>
      change UInt64.toNat initial + 0 ≤ sizeMax
      have hlt := UInt64.toNat_lt initial
      unfold sizeMax
      omega
  | _ => trivial

theorem admitted_nil : Admitted convert cli memory [] := by
  constructor
  · intro index option hoption honce
    exact Nat.zero_le _
  · intro index option hoption
    exact room_zero _
  · intro index option hoption text hmem
    cases hmem

theorem Admitted.of_append (h : Admitted convert cli memory (done ++ later)) :
    Admitted convert cli memory done := by
  have hlength : ∀ index,
      (optionTexts index done).length ≤ (optionTexts index (done ++ later)).length := by
    intro index
    rw [optionTexts_append, List.length_append]
    exact Nat.le_add_right _ _
  constructor
  · intro index option hoption honce
    exact (hlength index).trans (h.once index option hoption honce)
  · intro index option hoption
    exact (h.counts index option hoption).mono (hlength index)
  · intro index option hoption text hmem
    apply h.numbers index option hoption text
    rw [optionTexts_append]
    exact List.mem_append_left _ hmem

theorem admitted_concat :
    Admitted convert cli memory (done ++ [occurrence]) ↔
      Admitted convert cli memory done ∧ Fits convert memory done occurrence := by
  have hoption := occurrence_option occurrence
  constructor
  · intro h
    refine ⟨h.of_append, ?_, ?_, ?_⟩
    · intro honce
      have hlength := h.once _ _ hoption honce
      rw [optionTexts_concat_same, List.length_append, List.length_singleton] at hlength
      exact List.length_eq_zero_iff.1 (by omega)
    · have hroom := h.counts _ _ hoption
      rw [optionTexts_concat_same, List.length_append, List.length_singleton] at hroom
      exact hroom
    · apply h.numbers _ _ hoption
      rw [optionTexts_concat_same]
      exact List.mem_append_right _ (List.mem_singleton_self _)
  · rintro ⟨h, hfits⟩
    constructor
    · intro index option hindex honce
      rcases optionTexts_concat hindex done occurrence with ⟨rfl, heq⟩ | heq
      · rw [heq, hfits.once honce]
        exact le_rfl
      · rw [heq]
        exact h.once index option hindex honce
    · intro index option hindex
      rcases optionTexts_concat hindex done occurrence with ⟨rfl, heq⟩ | heq
      · rw [heq, List.length_append]
        exact hfits.counts
      · rw [heq]
        exact h.counts index option hindex
    · intro index option hindex text hmem
      rcases optionTexts_concat hindex done occurrence with ⟨rfl, heq⟩ | heq
      · rw [heq, List.mem_append, List.mem_singleton] at hmem
        rcases hmem with hmem | rfl
        · exact h.numbers _ _ hoption text hmem
        · exact hfits.numbers
      · rw [heq] at hmem
        exact h.numbers index option hindex text hmem

end Options

section Positionals

/-- The positional that takes the text at an index: the one registered there or the trailing
list. -/
def pendingIndex (cli : LorCli) (index : ℕ) : ℕ :=
  if hasRest cli then min index (cli.positionals.length - 1) else index

theorem Registered.rest_last (h : Registered cli) (hitem : cli.positionals[index]? = some item)
    (hkind : item.kind = .positionals) : index + 1 = cli.positionals.length ∧ hasRest cli := by
  have hlt := (List.getElem?_eq_some_iff.1 hitem).1
  have hlast : index + 1 = cli.positionals.length := by
    by_contra hne
    have hnext : index + 1 < cli.positionals.length := by omega
    have hscalar := (pairwise_getElem? h.inOrder (Nat.lt_succ_self index) hitem
      (List.getElem?_eq_getElem hnext)).1
    rw [hkind] at hscalar
    cases hscalar
  refine ⟨hlast, ?_⟩
  rw [hasRest, List.getLast?_eq_getElem?, ← hlast, Nat.add_sub_cancel, hitem]
  exact beq_iff_eq.2 hkind

theorem hasRest_last (hrest : hasRest cli) :
    ∃ item, cli.positionals[cli.positionals.length - 1]? = some item ∧
      item.kind = .positionals := by
  rw [hasRest, List.getLast?_eq_getElem?] at hrest
  cases hitem : cli.positionals[cli.positionals.length - 1]? with
  | none =>
      rw [hitem] at hrest
      cases hrest
  | some item =>
      rw [hitem] at hrest
      exact ⟨item, rfl, beq_iff_eq.1 hrest⟩

/-- The pending positional is the one at the index of the text, or the trailing list at or before
it, which stays pending. -/
theorem Registered.pending (h : Registered cli)
    (hitem : cli.positionals[pendingIndex cli index]? = some item) :
    (item.kind ≠ .positionals ∧ pendingIndex cli index = index ∧
        pendingIndex cli (index + 1) = index + 1) ∨
      (item.kind = .positionals ∧ pendingIndex cli index ≤ index ∧
        pendingIndex cli (index + 1) = pendingIndex cli index) := by
  have hlt := (List.getElem?_eq_some_iff.1 hitem).1
  by_cases hkind : item.kind = .positionals
  · right
    obtain ⟨hlast, hrest⟩ := h.rest_last hitem hkind
    simp only [pendingIndex, if_pos hrest] at hlast ⊢
    exact ⟨hkind, Nat.min_le_left _ _, by omega⟩
  · left
    by_cases hrest : hasRest cli
    · obtain ⟨last, hlast, hlastKind⟩ := hasRest_last hrest
      have hne : pendingIndex cli index ≠ cli.positionals.length - 1 := by
        intro heq
        rw [heq, hlast] at hitem
        cases hitem
        exact hkind hlastKind
      simp only [pendingIndex, if_pos hrest] at hne ⊢
      exact ⟨hkind, by omega, by omega⟩
    · exact ⟨hkind, if_neg hrest, if_neg hrest⟩

variable {texts : List Bytes} {text : Bytes}

theorem positionalTexts_eq_nil_iff :
    positionalTexts item index texts = [] ↔ texts.length ≤ index := by
  unfold positionalTexts
  split_ifs
  · exact List.drop_eq_nil_iff
  · rw [← List.getElem?_eq_none_iff]
    cases texts[index]? <;> simp

theorem positionalTexts_concat_same (h : Registered cli)
    (hitem : cli.positionals[pendingIndex cli texts.length]? = some item) (text : Bytes) :
    positionalTexts item (pendingIndex cli texts.length) (texts ++ [text]) =
      positionalTexts item (pendingIndex cli texts.length) texts ++ [text] := by
  unfold positionalTexts
  rcases h.pending hitem with ⟨hkind, hindex, -⟩ | ⟨hkind, hle, -⟩
  · rw [if_neg hkind, if_neg hkind, hindex]
    simp
  · rw [if_pos hkind, if_pos hkind, List.drop_append_of_le_length hle]

theorem positionalTexts_concat_other (h : Registered cli)
    (hitem : cli.positionals[index]? = some item) (hne : index ≠ pendingIndex cli texts.length) :
    positionalTexts item index (texts ++ [text]) = positionalTexts item index texts := by
  have hlt := (List.getElem?_eq_some_iff.1 hitem).1
  unfold positionalTexts
  by_cases hkind : item.kind = .positionals
  · obtain ⟨hlast, hrest⟩ := h.rest_last hitem hkind
    rw [pendingIndex, if_pos hrest] at hne
    rw [if_pos hkind, if_pos hkind, List.drop_eq_nil_of_le, List.drop_eq_nil_of_le]
    · omega
    · rw [List.length_append, List.length_singleton]
      omega
  · have hindex : index ≠ texts.length := by
      intro heq
      apply hne
      unfold pendingIndex
      split_ifs
      · omega
      · exact heq
    rw [if_neg hkind, if_neg hkind]
    rcases Nat.lt_or_gt_of_ne hindex with hless | hmore
    · rw [List.getElem?_append_left hless]
    · rw [List.getElem?_eq_none hmore.le, List.getElem?_eq_none]
      rw [List.length_append, List.length_singleton]
      omega

/-- Every text finds a positional that accepts it. -/
structure AdmittedTexts (convert : Converters D) (cli : LorCli) (texts : List Bytes) : Prop where
  atMost : hasRest cli ∨ texts.length ≤ cli.positionals.length
  numbers : ∀ (index : ℕ) (text : Bytes) (item : LorCliPositionalInternal),
    texts[index]? = some text → cli.positionals[index]? = some item →
      Accepts convert item.kind text

/-- The next text is taken behind these. -/
def FitsText (convert : Converters D) (cli : LorCli) (texts : List Bytes) (text : Bytes) : Prop :=
  ∃ item, cli.positionals[pendingIndex cli texts.length]? = some item ∧
    Accepts convert item.kind text

theorem admittedTexts_nil : AdmittedTexts convert cli [] :=
  ⟨Or.inr (Nat.zero_le _), fun _ _ _ htext => by cases htext⟩

theorem AdmittedTexts.of_append {more : List Bytes}
    (h : AdmittedTexts convert cli (texts ++ more)) : AdmittedTexts convert cli texts := by
  constructor
  · rcases h.atMost with hrest | hle
    · exact Or.inl hrest
    · rw [List.length_append] at hle
      exact Or.inr (by omega)
  · intro index text item htext hitem
    apply h.numbers index text item _ hitem
    rw [List.getElem?_append_left (List.getElem?_eq_some_iff.1 htext).1]
    exact htext

theorem admittedTexts_concat (h : Registered cli) :
    AdmittedTexts convert cli (texts ++ [text]) ↔
      AdmittedTexts convert cli texts ∧ FitsText convert cli texts text := by
  constructor
  · intro hadmitted
    refine ⟨hadmitted.of_append, ?_⟩
    have hlt : pendingIndex cli texts.length < cli.positionals.length := by
      unfold pendingIndex
      rcases hadmitted.atMost with hrest | hle
      · obtain ⟨last, hlast, -⟩ := hasRest_last hrest
        have hlt := (List.getElem?_eq_some_iff.1 hlast).1
        rw [if_pos hrest]
        omega
      · rw [List.length_append, List.length_singleton] at hle
        split_ifs
        · omega
        · omega
    have hitem := List.getElem?_eq_getElem hlt
    refine ⟨_, hitem, ?_⟩
    rcases h.pending hitem with ⟨hkind, hindex, -⟩ | ⟨hkind, -, -⟩
    · apply hadmitted.numbers texts.length text
      · simp
      · rw [← hitem, hindex]
    · rw [hkind]
      trivial
  · rintro ⟨hadmitted, item, hitem, haccepts⟩
    have hlt := (List.getElem?_eq_some_iff.1 hitem).1
    constructor
    · by_cases hrest : hasRest cli
      · exact Or.inl hrest
      · right
        rw [pendingIndex, if_neg hrest] at hlt
        rw [List.length_append]
        exact hlt
    · intro index other item' hother hitem'
      rcases Nat.lt_or_ge index texts.length with hless | hmore
      · rw [List.getElem?_append_left hless] at hother
        exact hadmitted.numbers index other item' hother hitem'
      · have hindex : index = texts.length := by
          have hbound := (List.getElem?_eq_some_iff.1 hother).1
          rw [List.length_append, List.length_singleton] at hbound
          omega
        subst hindex
        have hpending : pendingIndex cli texts.length = texts.length := by
          have hbound := (List.getElem?_eq_some_iff.1 hitem').1
          unfold pendingIndex
          split_ifs
          · omega
          · rfl
        rw [hpending, hitem'] at hitem
        cases hitem
        rw [List.getElem?_concat_length] at hother
        cases hother
        exact haccepts

end Positionals

end Liblor.Cli
