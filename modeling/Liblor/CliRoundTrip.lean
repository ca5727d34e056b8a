import Liblor.CliAgreement
import Liblor.CliRendered

/-!
# The round trip of a command line

Parsing a rendered command line gives every destination the contents of its own texts. The loop
takes one occurrence or one text in a round, and in front of it the parser holds what those before
were given; it stops with an error at the first that is not admitted.
-/

namespace Liblor.Cli

variable {D : Type} {convert : Converters D} {cli : LorCli} {memory : Memory D}
  {program : Option Bytes} {parser : Parser D} {i : ℤ} {next rest : List (Option Bytes)}
  {done later : List (Occurrence cli)} {occurrence : Occurrence cli} {texts more : List Bytes}
  {text : Bytes}

/-- The destinations of the options and behind them those of the positionals. -/
def destinations (cli : LorCli) : List (LorCliValueKind × ℕ) :=
  cli.options.map (fun option => (option.kind, option.destination)) ++
    cli.positionals.map fun item => (item.kind, item.destination)

/-- The texts that each of the destinations is given. -/
def share (cli : LorCli) (occurrences : List (Occurrence cli)) (texts : List Bytes) (index : ℕ) :
    List Bytes :=
  if index < cli.options.length then optionTexts index occurrences
  else
    match cli.positionals[index - cli.options.length]? with
    | some item => positionalTexts item (index - cli.options.length) texts
    | none => []

structure Renderable (convert : Converters D) (cli : LorCli) : Prop where
  built : Built cli
  names : ∀ option ∈ cli.options, option.spec.longName ≠ none
  distinct : ((destinations cli).map Prod.snd).Nodup
  dashes : ∀ text, parseInt convert (45 :: 45 :: text) = none ∧
    parseDouble convert (45 :: 45 :: text) = none

/-- The parser has given these occurrences and texts to their destinations. -/
structure Held (convert : Converters D) (cli : LorCli) (memory : Memory D)
    (program : Option Bytes) (done : List (Occurrence cli)) (texts : List Bytes)
    (parser : Parser D) : Prop where
  clear : parser.cli.clear = (start cli memory program).cli.clear
  options : ∀ (index : ℕ) (option : LorCliOptionInternal),
    parser.cli.options[index]? = some option →
      option.occurrences = (optionTexts index done).length
  positionals : ∀ (index : ℕ) (item : LorCliPositionalInternal),
    parser.cli.positionals[index]? = some item →
      item.occurrences = (positionalTexts item index texts).length
  pending : parser.positionalIndex = pendingIndex cli texts.length
  memory : Holds convert (destinations cli) memory (share cli done texts) parser.memory

section Share

theorem positionalTexts_nil (item : LorCliPositionalInternal) (index : ℕ) :
    positionalTexts item index [] = [] := by
  exact positionalTexts_eq_nil_iff.2 (Nat.zero_le _)

theorem share_nil : share cli [] [] = fun _ => [] := by
  funext index
  unfold share
  split_ifs
  · rfl
  · split
    · exact positionalTexts_nil _ _
    · rfl

theorem share_occurrence :
    share cli (done ++ [occurrence]) texts =
      Function.update (share cli done texts) occurrence.index
        (optionTexts occurrence.index done ++ [occurrence.text]) := by
  funext index
  by_cases hindex : index = occurrence.index
  · subst hindex
    rw [Function.update_self, share, if_pos occurrence.index.isLt, optionTexts_concat_same]
  · rw [Function.update_of_ne hindex, share, share, optionTexts_concat_other hindex]

theorem share_text (h : Registered cli) {item : LorCliPositionalInternal}
    (hitem : cli.positionals[pendingIndex cli texts.length]? = some item) :
    share cli done (texts ++ [text]) =
      Function.update (share cli done texts) (cli.options.length + pendingIndex cli texts.length)
        (positionalTexts item (pendingIndex cli texts.length) texts ++ [text]) := by
  funext index
  by_cases hindex : index = cli.options.length + pendingIndex cli texts.length
  · subst hindex
    rw [Function.update_self, share, if_neg (by omega), Nat.add_sub_cancel_left, hitem]
    exact positionalTexts_concat_same h hitem text
  · rw [Function.update_of_ne hindex, share, share]
    split_ifs with hlt
    · rfl
    · split
      · rename_i other hother
        exact positionalTexts_concat_other h hother (by omega)
      · rfl

theorem share_option (occurrence : Occurrence cli) :
    share cli done texts occurrence.index = optionTexts occurrence.index done :=
  if_pos occurrence.index.isLt

theorem share_positional {index : ℕ} {item : LorCliPositionalInternal}
    (hitem : cli.positionals[index]? = some item) :
    share cli done texts (cli.options.length + index) = positionalTexts item index texts := by
  rw [share, if_neg (by omega), Nat.add_sub_cancel_left, hitem]

theorem destinations_option {index : ℕ} {option : LorCliOptionInternal}
    (hoption : cli.options[index]? = some option) :
    (destinations cli)[index]? = some (option.kind, option.destination) := by
  have hlt := (List.getElem?_eq_some_iff.1 hoption).1
  rw [destinations, List.getElem?_append_left (by rwa [List.length_map]), List.getElem?_map,
    hoption]
  rfl

theorem destinations_positional {index : ℕ} {item : LorCliPositionalInternal}
    (hitem : cli.positionals[index]? = some item) :
    (destinations cli)[cli.options.length + index]? = some (item.kind, item.destination) := by
  rw [destinations, List.getElem?_append_right, List.length_map, Nat.add_sub_cancel_left,
    List.getElem?_map, hitem]
  · rfl
  · rw [List.length_map]
    exact Nat.le_add_right _ _

end Share

theorem held_start (hrender : Renderable convert cli) (memory : Memory D)
    (program : Option Bytes) :
    Held convert cli memory program [] [] (start cli memory program) := by
  have hfresh := hrender.built.fresh
  constructor
  · rfl
  · intro index option hoption
    exact hfresh.options option (List.mem_of_getElem? hoption)
  · intro index item hitem
    rw [positionalTexts_nil]
    exact hfresh.positionals item (List.mem_of_getElem? hitem)
  · unfold pendingIndex
    split_ifs
    · exact (Nat.zero_min _).symm
    · rfl
  · rw [share_nil]
    exact holds_nil

section Occurrences

theorem Held.option (held : Held convert cli memory program done texts parser) {index : ℕ}
    {option : LorCliOptionInternal} (hoption : cli.options[index]? = some option) :
    parser.cli.options[index]? = some { option with
      occurrences := (optionTexts index done).length } := by
  obtain ⟨occurrences, hcounted⟩ := option_of_clear held.clear hoption
  rw [hcounted, ← held.options _ _ hcounted]

theorem Renderable.numeric (hrender : Renderable convert cli) (text : Bytes) :
    positionalNumeric convert parser (45 :: 45 :: text) = false := by
  unfold positionalNumeric
  cases parser.cli.positionals[parser.positionalIndex]? with
  | none => rfl
  | some item =>
      dsimp only
      rw [(hrender.dashes text).1, (hrender.dashes text).2]
      simp

/-- The round of an occurrence: the option is counted so far, and its text deposited. -/
theorem Held.turn_occurrence (hrender : Renderable convert cli)
    (held : Held convert cli memory program done texts parser)
    (henabled : parser.optionsEnabled = true) (i : ℤ) (next : List (Option Bytes)) :
    let option := { occurrence.option with
      occurrences := (optionTexts occurrence.index done).length }
    turn convert parser i (some occurrence.render) next =
      if option.occurrences ≠ 0 ∧ option.spec.repeatable = false then
        ⟨optionResult .duplicateOption i occurrence.render option, parser, 0⟩
      else
        match deposit convert option.kind (contents convert option.kind
          (memory option.kind.storage option.destination) (optionTexts occurrence.index done))
          occurrence.text with
        | some value => ⟨optionResult .ok i occurrence.render option,
            { parser with
              memory := parser.memory.write option.kind.storage option.destination value
            }.occurred occurrence.index, 0⟩
        | none => ⟨optionResult .invalidValue i
            (if option.kind.bare then occurrence.render else occurrence.text) option, parser,
            0⟩ := by
  have hregistered := hrender.built.registered
  have hmem := List.mem_of_getElem? (occurrence_option occurrence)
  obtain ⟨name, hname⟩ := Option.ne_none_iff_exists'.1 (hrender.names _ hmem)
  obtain ⟨hnil, hequals, hhelp⟩ := longNameValid_spec ((hregistered.options _ hmem).long name hname)
  have hfound := ((hregistered.start memory program).of_clear held.clear).findLong
    (held.option (occurrence_option occurrence)) hname
  have hheld := held.memory.held _ _ _ (destinations_option (occurrence_option occurrence))
  rw [share_option] at hheld
  intro option
  have happlied : turn convert parser i (some occurrence.render) next =
      let applied := applyOption convert parser (occurrence.index.val, option)
        (if option.kind.bare then none else some occurrence.text) i occurrence.render
      ⟨applied.1, applied.2, 0⟩ := by
    by_cases hbare : occurrence.option.kind.bare
    · have htoken : occurrence.render = 45 :: 45 :: name := by
        simp [Occurrence.render, hbare, hname]
      rw [htoken, turn_long henabled (hrender.numeric _) ⟨hnil, hhelp⟩,
        longOption_bare hequals hfound hbare, if_pos hbare]
    · have htoken : occurrence.render = 45 :: 45 :: (name ++ 61 :: occurrence.text) := by
        simp [Occurrence.render, hbare, hname]
      rw [htoken, turn_long henabled (hrender.numeric _) attached_ne,
        longOption_attached hequals hfound, if_neg hbare]
  rw [happlied, applyOption_eq, ← hheld]
  by_cases honce : option.occurrences ≠ 0 ∧ option.spec.repeatable = false
  · simp only [if_pos honce]
  · simp only [if_neg honce]
    cases deposit convert option.kind (parser.memory option.kind.storage option.destination)
      occurrence.text with
    | none => rfl
    | some value => rfl

theorem Held.occur (hrender : Renderable convert cli)
    (held : Held convert cli memory program done texts parser)
    (henabled : parser.optionsEnabled = true)
    (hfits : Fits convert memory done occurrence) (i : ℤ) (next : List (Option Bytes)) :
    ∃ result parser', turn convert parser i (some occurrence.render) next = ⟨result, parser', 0⟩ ∧
      result.code = .ok ∧ parser'.optionsEnabled = true ∧
      Held convert cli memory program (done ++ [occurrence]) texts parser' := by
  have hdestination := destinations_option (occurrence_option occurrence)
  have honce : ¬ ((optionTexts occurrence.index done).length ≠ 0 ∧
      occurrence.option.spec.repeatable = false) := by
    rintro ⟨hne, hrepeat⟩
    exact hne (List.length_eq_zero_iff.2 (hfits.once hrepeat))
  rw [held.turn_occurrence hrender henabled]
  dsimp only
  rw [if_neg honce, deposit_contents _ hfits.numbers hfits.counts]
  refine ⟨_, _, rfl, rfl, henabled, ?_⟩
  constructor
  · exact occurred_clear.trans held.clear
  · intro index option hoption
    change (parser.cli.options.modify _ _)[index]? = _ at hoption
    rw [List.getElem?_modify] at hoption
    cases hbefore : parser.cli.options[index]? with
    | none =>
        rw [hbefore] at hoption
        cases hoption
    | some before =>
        have hlength := held.options index before hbefore
        rw [hbefore] at hoption
        by_cases hindex : occurrence.index.val = index
        · subst hindex
          simp only [Option.map_eq_map, Option.map_some, Option.some.injEq] at hoption
          rw [← hoption, optionTexts_concat_same, List.length_append]
          exact congrArg (· + 1) hlength
        · simp only [if_neg hindex] at hoption
          cases hoption
          rw [optionTexts_concat_other (Ne.symm hindex)]
          exact hlength
  · exact held.positionals
  · exact held.pending
  · rw [share_occurrence]
    exact held.memory.write hrender.distinct hdestination _

theorem Held.occur_error (hrender : Renderable convert cli)
    (held : Held convert cli memory program done texts parser)
    (henabled : parser.optionsEnabled = true) (hadmitted : Admitted convert cli memory done)
    (hfits : ¬ Fits convert memory done occurrence) (i : ℤ) (next : List (Option Bytes)) :
    (turn convert parser i (some occurrence.render) next).result.code ≠ .ok := by
  rw [held.turn_occurrence hrender henabled]
  dsimp only
  by_cases honce : (optionTexts occurrence.index done).length ≠ 0 ∧
      occurrence.option.spec.repeatable = false
  · rw [if_pos honce]
    intro hok
    cases hok
  · rw [if_neg honce, deposit_eq_none]
    · intro hok
      cases hok
    · exact hadmitted.counts _ _ (occurrence_option occurrence)
    · rintro ⟨hnumbers, hcounts⟩
      apply hfits
      refine ⟨?_, hcounts, hnumbers⟩
      intro hrepeat
      by_contra hne
      exact honce ⟨fun hzero => hne (List.length_eq_zero_iff.1 hzero), hrepeat⟩

end Occurrences

section Texts

variable {item : LorCliPositionalInternal}

theorem PositionalOk.bare (h : PositionalOk item) : item.kind.bare = false := by
  rcases h.kind with hscalar | hrest
  · cases hkind : item.kind <;> rw [hkind] at hscalar <;> first | rfl | cases hscalar
  · rw [hrest]
    rfl

theorem room_of_bare {kind : LorCliValueKind} (hkind : kind.bare = false)
    (initial : kind.storage.Data D) (occurrences : ℕ) : Room kind initial occurrences := by
  cases kind with
  | count => cases hkind
  | _ => trivial

theorem Held.positional (held : Held convert cli memory program done texts parser) {index : ℕ}
    (hitem : cli.positionals[index]? = some item) :
    parser.cli.positionals[index]? = some { item with
      occurrences := (positionalTexts item index texts).length } := by
  obtain ⟨occurrences, hcounted⟩ := positional_of_clear held.clear hitem
  have hlength := held.positionals _ _ hcounted
  rw [hcounted]
  exact congrArg (fun occurrences => some { item with occurrences := occurrences }) hlength

theorem Held.positional_none (held : Held convert cli memory program done texts parser) {index : ℕ}
    (hitem : cli.positionals[index]? = none) : parser.cli.positionals[index]? = none := by
  have hlength := congrArg (fun cli => (LorCli.positionals cli).length) held.clear
  simp only [LorCli.clear, List.length_map, start] at hlength
  rw [List.getElem?_eq_none_iff] at hitem ⊢
  omega

theorem turn_disabled (hdisabled : parser.optionsEnabled = false) (i : ℤ) (text : Bytes)
    (next : List (Option Bytes)) :
    turn convert parser i (some text) next =
      ⟨(consumePositional convert parser text i).1, (consumePositional convert parser text i).2,
        0⟩ := by
  simp [turn, hdisabled]

theorem Held.consumePositional_eq (hrender : Renderable convert cli)
    (held : Held convert cli memory program done texts parser)
    (hitem : cli.positionals[pendingIndex cli texts.length]? = some item) (i : ℤ) (text : Bytes) :
    consumePositional convert parser text i =
      match deposit convert item.kind (contents convert item.kind
        (memory item.kind.storage item.destination)
        (positionalTexts item (pendingIndex cli texts.length) texts)) text with
      | some value =>
        (result .ok i text item.spec.name,
          { parser with
            memory := parser.memory.write item.kind.storage item.destination value
            cli := { parser.cli with
              positionals := parser.cli.positionals.modify (pendingIndex cli texts.length)
                fun item => { item with occurrences := item.occurrences + 1 } }
            positionalIndex := pendingIndex cli (texts.length + 1) })
      | none => (result .invalidValue i text item.spec.name, parser) := by
  have hregistered := hrender.built.registered
  have hok := hregistered.positionals item (List.mem_of_getElem? hitem)
  have hheld := held.memory.held _ _ _ (destinations_positional hitem)
  rw [share_positional hitem] at hheld
  have hpending := held.pending
  obtain ⟨parserCli, parserMemory, parserIndex, enabled⟩ := parser
  dsimp only at hheld hpending
  subst hpending
  unfold consumePositional
  dsimp only
  rw [held.positional hitem]
  dsimp only
  rw [assignValue_eq hok.bare, hheld]
  cases deposit convert item.kind (contents convert item.kind
    (memory item.kind.storage item.destination)
    (positionalTexts item (pendingIndex cli texts.length) texts)) text with
  | none => rfl
  | some value =>
      dsimp only
      rw [if_neg (not_not.2 rfl)]
      rcases hregistered.pending hitem with ⟨hkind, hindex, hnext⟩ | ⟨hkind, -, hnext⟩
      · rw [if_pos hkind, hnext, hindex]
      · rw [if_neg (not_not.2 hkind), hnext]

theorem Held.consume (hrender : Renderable convert cli)
    (held : Held convert cli memory program done texts parser)
    (hdisabled : parser.optionsEnabled = false) (hfits : FitsText convert cli texts text) (i : ℤ)
    (next : List (Option Bytes)) :
    ∃ result parser', turn convert parser i (some text) next = ⟨result, parser', 0⟩ ∧
      result.code = .ok ∧ parser'.optionsEnabled = false ∧
      Held convert cli memory program done (texts ++ [text]) parser' := by
  obtain ⟨item, hitem, haccepts⟩ := hfits
  have hregistered := hrender.built.registered
  have hok := hregistered.positionals item (List.mem_of_getElem? hitem)
  have hclear : (consumePositional convert parser text i).2.cli.clear = parser.cli.clear :=
    consumePositional_clear
  have hconsume := held.consumePositional_eq hrender hitem i text
  rw [deposit_contents _ haccepts (room_of_bare hok.bare _ _)] at hconsume
  rw [turn_disabled hdisabled]
  rw [hconsume] at hclear ⊢
  refine ⟨_, _, rfl, rfl, hdisabled, ?_⟩
  constructor
  · exact hclear.trans held.clear
  · exact held.options
  · intro index item' hitem'
    change (parser.cli.positionals.modify _ _)[index]? = _ at hitem'
    rw [List.getElem?_modify] at hitem'
    by_cases hindex : pendingIndex cli texts.length = index
    · subst hindex
      rw [held.positional hitem] at hitem'
      simp only [if_pos, Option.map_eq_map, Option.map_some, Option.some.injEq] at hitem'
      have hgrown := congrArg List.length (positionalTexts_concat_same hregistered hitem text)
      rw [List.length_append] at hgrown
      rw [← hitem']
      exact hgrown.symm
    · simp only [if_neg hindex, id_map'] at hitem'
      cases hother : cli.positionals[index]? with
      | none =>
          rw [held.positional_none hother] at hitem'
          cases hitem'
      | some other =>
          rw [held.positional hother] at hitem'
          cases hitem'
          exact congrArg List.length
            (positionalTexts_concat_other hregistered hother (Ne.symm hindex)).symm
  · rw [List.length_append]
    rfl
  · rw [share_text hregistered hitem]
    exact held.memory.write hrender.distinct (destinations_positional hitem) _

theorem Held.consume_error (hrender : Renderable convert cli)
    (held : Held convert cli memory program done texts parser)
    (hdisabled : parser.optionsEnabled = false) (hfits : ¬ FitsText convert cli texts text) (i : ℤ)
    (next : List (Option Bytes)) : (turn convert parser i (some text) next).result.code ≠ .ok := by
  rw [turn_disabled hdisabled]
  dsimp only
  cases hitem : cli.positionals[pendingIndex cli texts.length]? with
  | none =>
      unfold consumePositional
      rw [held.pending, held.positional_none hitem]
      intro hok
      cases hok
  | some item =>
      have hok := hrender.built.registered.positionals item (List.mem_of_getElem? hitem)
      rw [held.consumePositional_eq hrender hitem, deposit_eq_none]
      · intro hok
        cases hok
      · exact room_of_bare hok.bare _ _
      · rintro ⟨haccepts, -⟩
        exact hfits ⟨item, hitem, haccepts⟩

end Texts

section Run

theorem parseFrom_step {token : Option Bytes} {result : LorCliResult} {parser' : Parser D}
    (hturn : turn convert parser i token next = ⟨result, parser', 0⟩) (hok : result.code = .ok) :
    parseFrom convert parser i (token :: next) = parseFrom convert parser' (i + 1) next := by
  rw [parseFrom_cons, hturn]
  dsimp only
  rw [if_neg (not_not.2 hok)]
  simp

theorem parseFrom_error {token : Option Bytes}
    (hturn : (turn convert parser i token next).result.code ≠ .ok) :
    (parseFrom convert parser i (token :: next)).result.code ≠ .ok := by
  rw [parseFrom_cons]
  dsimp only
  rw [if_pos hturn]
  exact hturn

/-- The loop takes the occurrences just where they are admitted. -/
theorem Held.run_occurrences (hrender : Renderable convert cli)
    (held : Held convert cli memory program done texts parser)
    (henabled : parser.optionsEnabled = true) (hadmitted : Admitted convert cli memory done)
    (i : ℤ) (rest : List (Option Bytes)) (later : List (Occurrence cli)) :
    let args := later.map (fun occurrence => some occurrence.render) ++ rest
    (Admitted convert cli memory (done ++ later) → ∃ parser' i',
        parseFrom convert parser i args = parseFrom convert parser' i' rest ∧
        parser'.optionsEnabled = true ∧
        Held convert cli memory program (done ++ later) texts parser') ∧
      (¬ Admitted convert cli memory (done ++ later) →
        (parseFrom convert parser i args).result.code ≠ .ok) := by
  dsimp only
  induction later generalizing done parser i with
  | nil =>
      rw [List.append_nil]
      exact ⟨fun _ => ⟨parser, i, rfl, henabled, held⟩, fun h => absurd hadmitted h⟩
  | cons occurrence later ih =>
      rw [List.map_cons, List.cons_append, List.append_cons]
      by_cases hfits : Fits convert memory done occurrence
      · obtain ⟨result, parser', hturn, hok, henabled', held'⟩ :=
          held.occur hrender henabled hfits i
          (later.map (fun occurrence => some occurrence.render) ++ rest)
        rw [parseFrom_step hturn hok]
        exact ih held' henabled' (admitted_concat.2 ⟨hadmitted, hfits⟩) (i + 1)
      · constructor
        · intro hall
          exact absurd (admitted_concat.1 hall.of_append).2 hfits
        · intro _
          exact parseFrom_error (held.occur_error hrender henabled hadmitted hfits i _)

/-- The loop takes the texts behind `--` just where they are admitted. -/
theorem Held.run_texts (hrender : Renderable convert cli)
    (held : Held convert cli memory program done texts parser)
    (hdisabled : parser.optionsEnabled = false) (hadmitted : AdmittedTexts convert cli texts)
    (i : ℤ) (more : List Bytes) :
    (AdmittedTexts convert cli (texts ++ more) → ∃ parser' i',
        parseFrom convert parser i (more.map some) = parseFrom convert parser' i' [] ∧
        Held convert cli memory program done (texts ++ more) parser') ∧
      (¬ AdmittedTexts convert cli (texts ++ more) →
        (parseFrom convert parser i (more.map some)).result.code ≠ .ok) := by
  have hregistered := hrender.built.registered
  induction more generalizing texts parser i with
  | nil =>
      rw [List.append_nil]
      exact ⟨fun _ => ⟨parser, i, rfl, held⟩, fun h => absurd hadmitted h⟩
  | cons text more ih =>
      rw [List.map_cons, List.append_cons]
      by_cases hfits : FitsText convert cli texts text
      · obtain ⟨result, parser', hturn, hok, hdisabled', held'⟩ := held.consume hrender hdisabled
          hfits i (more.map some)
        rw [parseFrom_step hturn hok]
        exact ih held' hdisabled' ((admittedTexts_concat hregistered).2 ⟨hadmitted, hfits⟩) (i + 1)
      · constructor
        · intro hall
          exact absurd ((admittedTexts_concat hregistered).1 hall.of_append).2 hfits
        · intro _
          exact parseFrom_error (held.consume_error hrender hdisabled hfits i _)

theorem Held.separator (held : Held convert cli memory program done texts parser)
    (henabled : parser.optionsEnabled = true) (i : ℤ) (next : List (Option Bytes)) :
    ∃ parser', parseFrom convert parser i (some [45, 45] :: next) =
        parseFrom convert parser' (i + 1) next ∧ parser'.optionsEnabled = false ∧
      Held convert cli memory program done texts parser' := by
  have hturn : turn convert parser i (some [45, 45]) next =
      ⟨result .ok i [45, 45] none, { parser with optionsEnabled := false }, 0⟩ := by
    simp [turn, henabled]
  refine ⟨_, parseFrom_step hturn rfl, rfl, ?_⟩
  · obtain ⟨hclear, hoptions, hpositionals, hpending, hmemory⟩ := held
    exact ⟨hclear, hoptions, hpositionals, hpending, hmemory⟩

end Run

section Finish

theorem find?_missing {α : Type*} (xs : List α) (required : α → Bool) (occurrences : α → ℕ) :
    xs.find? (fun x => required x && occurrences x == 0) = none ↔
      ∀ x ∈ xs, required x → occurrences x ≠ 0 := by
  rw [List.find?_eq_none]
  simp only [Bool.and_eq_true, beq_iff_eq, not_and]

theorem finish_ok_iff (cli : LorCli) :
    (finish cli).code = .ok ↔
      (∀ option ∈ cli.options, option.spec.required → option.occurrences ≠ 0) ∧
        ∀ item ∈ cli.positionals, item.spec.required → item.occurrences ≠ 0 := by
  have hoptions := find?_missing cli.options (·.spec.required) (·.occurrences)
  have hpositionals := find?_missing cli.positionals (·.spec.required) (·.occurrences)
  rw [← hoptions, ← hpositionals]
  unfold finish
  cases cli.options.find? fun option => option.spec.required && option.occurrences == 0 with
  | some option => simp [optionResult, result]
  | none =>
      cases cli.positionals.find? fun item => item.spec.required && item.occurrences == 0 with
      | some item => simp [result]
      | none => simp [result]

/-- The required ones stand in front, so that they all have a text just where there are as many
texts. -/
theorem countP_le_iff {items : List LorCliPositionalInternal} (h : items.Pairwise InOrder) (n : ℕ) :
    items.countP (·.spec.required) ≤ n ↔
      ∀ (index : ℕ) (item : LorCliPositionalInternal), items[index]? = some item →
        item.spec.required → index < n := by
  induction items generalizing n with
  | nil => simp
  | cons first items ih =>
      rw [List.pairwise_cons] at h
      by_cases hfirst : first.spec.required
      · rw [List.countP_cons, if_pos hfirst]
        constructor
        · intro hle index item hitem hrequired
          cases index with
          | zero => omega
          | succ index =>
              have hlt := (ih h.2 (n - 1)).1 (by omega) index item hitem hrequired
              omega
        · intro hall
          have hpositive := hall 0 first rfl hfirst
          have hle : items.countP (·.spec.required) ≤ n - 1 := by
            rw [ih h.2]
            intro index item hitem hrequired
            have hlt := hall (index + 1) item hitem hrequired
            omega
          omega
      · have hnone : ∀ item ∈ first :: items, ¬ item.spec.required = true := by
          intro item hmem hrequired
          rcases List.mem_cons.1 hmem with rfl | hmem
          · exact hfirst hrequired
          · exact hfirst ((h.1 item hmem).2 hrequired)
        rw [List.countP_eq_zero.2 hnone]
        constructor
        · intro _ index item hitem hrequired
          exact absurd hrequired (hnone item (List.mem_of_getElem? hitem))
        · intro _
          exact Nat.zero_le _

theorem Held.finish (hrender : Renderable convert cli)
    (held : Held convert cli memory program done texts parser) :
    (Cli.finish parser.cli).code = .ok ↔
      (∀ (index : ℕ) (option : LorCliOptionInternal), cli.options[index]? = some option →
        option.spec.required → optionTexts index done ≠ []) ∧
      cli.positionals.countP (·.spec.required) ≤ texts.length := by
  have hregistered := hrender.built.registered
  rw [finish_ok_iff, countP_le_iff hregistered.inOrder]
  constructor
  · rintro ⟨hoptions, hpositionals⟩
    constructor
    · intro index option hoption hrequired hnil
      apply hoptions _ (List.mem_of_getElem? (held.option hoption)) hrequired
      rw [hnil]
      rfl
    · intro index item hitem hrequired
      have hgiven := hpositionals _ (List.mem_of_getElem? (held.positional hitem)) hrequired
      by_contra hge
      exact hgiven (List.length_eq_zero_iff.2 (positionalTexts_eq_nil_iff.2 (not_lt.1 hge)))
  · rintro ⟨hoptions, hpositionals⟩
    constructor
    · intro option hmem hrequired hzero
      obtain ⟨index, hindex⟩ := List.mem_iff_getElem?.1 hmem
      obtain ⟨occurrences, hoption⟩ := option_of_clear held.clear.symm hindex
      rw [held.options index option hindex] at hzero
      exact hoptions index _ hoption hrequired (List.length_eq_zero_iff.1 hzero)
    · intro item hmem hrequired hzero
      obtain ⟨index, hindex⟩ := List.mem_iff_getElem?.1 hmem
      obtain ⟨occurrences, hitem⟩ := positional_of_clear held.clear.symm hindex
      rw [held.positionals index item hindex, List.length_eq_zero_iff] at hzero
      have hle := positionalTexts_eq_nil_iff.1 hzero
      exact absurd (hpositionals index _ hitem hrequired) (not_lt.2 hle)

end Finish

/-! ## The round trip -/

/-- What the occurrences and texts must meet for the parse to end with `ok`. -/
structure Accepted (convert : Converters D) (cli : LorCli) (memory : Memory D)
    (occurrences : List (Occurrence cli)) (texts : List Bytes) : Prop where
  once : ∀ (index : ℕ) (option : LorCliOptionInternal), cli.options[index]? = some option →
    option.spec.repeatable = false → (optionTexts index occurrences).length ≤ 1
  required : ∀ (index : ℕ) (option : LorCliOptionInternal), cli.options[index]? = some option →
    option.spec.required → optionTexts index occurrences ≠ []
  counts : ∀ (index : ℕ) (option : LorCliOptionInternal), cli.options[index]? = some option →
    option.kind = .count →
      (memory .size option.destination).toNat + (optionTexts index occurrences).length ≤ sizeMax
  atLeast : cli.positionals.countP (·.spec.required) ≤ texts.length
  atMost : hasRest cli ∨ texts.length ≤ cli.positionals.length
  optionNumbers : ∀ (index : ℕ) (option : LorCliOptionInternal),
    cli.options[index]? = some option →
      ∀ text ∈ optionTexts index occurrences, Accepts convert option.kind text
  positionalNumbers : ∀ (index : ℕ) (text : Bytes) (item : LorCliPositionalInternal),
    texts[index]? = some text → cli.positionals[index]? = some item →
      Accepts convert item.kind text

/-- All destinations hold the contents of what they are given, and no other memory has changed. -/
structure Delivered (convert : Converters D) (cli : LorCli) (memory : Memory D)
    (occurrences : List (Occurrence cli)) (texts : List Bytes) (final : Memory D) : Prop where
  options : ∀ (index : ℕ) (option : LorCliOptionInternal), cli.options[index]? = some option →
    final option.kind.storage option.destination =
      contents convert option.kind (memory option.kind.storage option.destination)
        (optionTexts index occurrences)
  positionals : ∀ (index : ℕ) (item : LorCliPositionalInternal),
    cli.positionals[index]? = some item →
      final item.kind.storage item.destination =
        contents convert item.kind (memory item.kind.storage item.destination)
          (positionalTexts item index texts)
  others : ∀ (storage : Storage) (destination : ℕ),
    (∀ option ∈ cli.options, option.destination ≠ destination) →
      (∀ item ∈ cli.positionals, item.destination ≠ destination) →
        final storage destination = memory storage destination

theorem accepted_iff {occurrences : List (Occurrence cli)} :
    Accepted convert cli memory occurrences texts ↔
      Admitted convert cli memory occurrences ∧ AdmittedTexts convert cli texts ∧
        (∀ (index : ℕ) (option : LorCliOptionInternal), cli.options[index]? = some option →
          option.spec.required → optionTexts index occurrences ≠ []) ∧
        cli.positionals.countP (·.spec.required) ≤ texts.length := by
  constructor
  · intro h
    refine ⟨⟨h.once, ?_, h.optionNumbers⟩, ⟨h.atMost, h.positionalNumbers⟩, h.required, h.atLeast⟩
    intro index option hoption
    exact (room_iff _).2 (h.counts index option hoption)
  · rintro ⟨hadmitted, htexts, hrequired, hleast⟩
    refine ⟨hadmitted.once, hrequired, ?_, hleast, htexts.atMost, hadmitted.numbers, htexts.numbers⟩
    intro index option hoption
    exact (room_iff _).1 (hadmitted.counts index option hoption)

theorem Held.delivered (held : Held convert cli memory program done texts parser) :
    Delivered convert cli memory done texts parser.memory := by
  constructor
  · intro index option hoption
    have hheld := held.memory.held _ _ _ (destinations_option hoption)
    rw [share, if_pos (List.getElem?_eq_some_iff.1 hoption).1] at hheld
    exact hheld
  · intro index item hitem
    have hheld := held.memory.held _ _ _ (destinations_positional hitem)
    rw [share_positional hitem] at hheld
    exact hheld
  · intro storage destination hoptions hpositionals
    apply held.memory.frame
    intro pair hmem
    rcases List.mem_append.1 hmem with hmem | hmem
    · obtain ⟨option, hoption, rfl⟩ := List.mem_map.1 hmem
      exact hoptions option hoption
    · obtain ⟨item, hitem, rfl⟩ := List.mem_map.1 hmem
      exact hpositionals item hitem

/-- The round trip for the parser without an index. -/
theorem parse_rendered (convert : Converters D) {cli : LorCli} (hbuilt : Built cli)
    (hnames : ∀ option ∈ cli.options, option.spec.longName ≠ none)
    (hdistinct : (cli.options.map (·.destination) ++ cli.positionals.map (·.destination)).Nodup)
    (hdashes : ∀ text, parseInt convert (45 :: 45 :: text) = none ∧
      parseDouble convert (45 :: 45 :: text) = none)
    (memory : Memory D) (program : Option Bytes) (occurrences : List (Occurrence cli))
    (texts : List Bytes) :
    let outcome := parse convert cli memory (renderedArgv program occurrences texts)
    (outcome.result.code = .ok ↔ Accepted convert cli memory occurrences texts) ∧
      (outcome.result.code = .ok →
        Delivered convert cli memory occurrences texts outcome.parser.memory) := by
  have hrender : Renderable convert cli := by
    refine ⟨hbuilt, hnames, ?_, hdashes⟩
    rw [destinations, List.map_append, List.map_map, List.map_map]
    exact hdistinct
  rw [renderedArgv, List.cons_append, parse_eq_parseFrom hbuilt.fresh, accepted_iff]
  dsimp only
  obtain ⟨hgood, hbad⟩ := (held_start hrender memory program).run_occurrences hrender rfl
    admitted_nil 1 (some [45, 45] :: texts.map some) occurrences
  rw [List.nil_append] at hgood hbad
  by_cases hadmitted : Admitted convert cli memory occurrences
  · obtain ⟨parser, i, hparse, henabled, held⟩ := hgood hadmitted
    obtain ⟨parser', hseparator, hdisabled, held'⟩ := held.separator henabled i (texts.map some)
    rw [hparse, hseparator]
    obtain ⟨hgood, hbad⟩ := held'.run_texts hrender hdisabled admittedTexts_nil (i + 1) texts
    rw [List.nil_append] at hgood hbad
    by_cases htexts : AdmittedTexts convert cli texts
    · obtain ⟨parser'', i', hparse', held''⟩ := hgood htexts
      rw [hparse']
      constructor
      · rw [and_iff_right hadmitted, and_iff_right htexts]
        exact held''.finish hrender
      · intro _
        exact held''.delivered
    · have herror := hbad htexts
      exact ⟨⟨fun hok => absurd hok herror, fun h => absurd h.2.1 htexts⟩,
        fun hok => absurd hok herror⟩
  · have herror := hbad hadmitted
    exact ⟨⟨fun hok => absurd hok herror, fun h => absurd h.1 hadmitted⟩,
      fun hok => absurd hok herror⟩

/-- Where no list runs out of room the parse of a rendered command line ends with `ok` just where it
is accepted, and then delivers every text to its destination. -/
theorem round_trip (host : CliArgv.Host D) (hpush : ∀ n, host.push n = true) {cli : LorCli}
    (hbuilt : Built cli) (hnames : ∀ option ∈ cli.options, option.spec.longName ≠ none)
    (hdistinct : (cli.options.map (·.destination) ++ cli.positionals.map (·.destination)).Nodup)
    (hdashes : ∀ text, parseInt host.convert (45 :: 45 :: text) = none ∧
      parseDouble host.convert (45 :: 45 :: text) = none)
    (memory : Memory D) (program : Option Bytes) (occurrences : List (Occurrence cli))
    (texts : List Bytes) :
    ∃ result session,
      CliArgv.parse host cli memory (renderedArgv program occurrences texts) =
        some (result, session) ∧
      (result.code = .ok ↔ Accepted host.convert cli memory occurrences texts) ∧
      (result.code = .ok →
        Delivered host.convert cli memory occurrences texts session.memory) := by
  obtain ⟨result, session, enabled, unread, hparse, houtcome⟩ :=
    CliArgv.parse_agrees hpush cli memory (renderedArgv program occurrences texts)
  have hrendered := parse_rendered host.convert hbuilt hnames hdistinct hdashes memory program
    occurrences texts
  rw [houtcome] at hrendered
  exact ⟨result, session, hparse, hrendered⟩

/-- A parser with the count `-v`, the number `-j`, a required string and a trailing list, their
destinations at 1 to 4. -/
def filesCli : LorCli :=
  ⟨[⟨⟨118, some [118, 101, 114], false, true⟩, .count, 1, 0⟩,
      ⟨⟨106, some [106, 111, 98], true, false⟩, .int, 2, 0⟩],
    [⟨⟨some [102], true⟩, .string, 3, 0⟩, ⟨⟨some [116], false⟩, .positionals, 4, 0⟩], none, false⟩

theorem built_filesCli : Built filesCli :=
  .rest (.positional (.option (.option (.init none) rfl
    (rfl : addOption _ ⟨118, some [118, 101, 114], false, false⟩ .count 1 = _)) rfl
    (rfl : addOption _ ⟨106, some [106, 111, 98], true, false⟩ .int 2 = _)) rfl
    (rfl : addPositional _ ⟨some [102], true⟩ .string 3 = _))
    (rfl : addPositionals _ (some [116]) 4 = _)

theorem decimal_dashes (text : Bytes) : parseInt ⟨decimal, decimal⟩ (45 :: 45 :: text) = none ∧
    parseDouble ⟨decimal, decimal⟩ (45 :: 45 :: text) = none := by
  simp [parseInt, parseDouble, decimal]

def filesOccurrences : List (Occurrence filesCli) :=
  [⟨⟨0, by decide⟩, []⟩, ⟨⟨1, by decide⟩, [52]⟩, ⟨⟨0, by decide⟩, []⟩]

/-- Numbers are decimal, and every list finds room. -/
def roomyHost : CliArgv.Host ℤ := ⟨⟨decimal, decimal⟩, fun _ => true⟩

/-- `--ver --job=4 --ver -- a --b -`. -/
theorem round_trip_files : ∃ result session,
    CliArgv.parse roomyHost filesCli zeroMemory
        (renderedArgv none filesOccurrences [[97], [45, 45, 98], [45]]) = some (result, session) ∧
      result.code = .ok ∧ session.memory .size 1 = 2 ∧ session.memory .int64 2 = 4 ∧
      session.memory .view 3 = [97] ∧ session.memory .views 4 = [[45, 45, 98], [45]] := by
  obtain ⟨result, session, hparse, -, hdelivered⟩ := round_trip roomyHost (fun _ => rfl)
    built_filesCli (by decide) (by decide) decimal_dashes zeroMemory none filesOccurrences
    [[97], [45, 45, 98], [45]]
  have hcode : (CliArgv.parse roomyHost filesCli zeroMemory
      (renderedArgv none filesOccurrences [[97], [45, 45, 98], [45]])).map
        (fun answer => answer.1.code) = some .ok := by decide
  rw [hparse] at hcode
  have hok : result.code = .ok := Option.some.inj hcode
  have hheld := hdelivered hok
  have hver := hheld.options 0 _ rfl
  have hjob := hheld.options 1 _ rfl
  have hfirst := hheld.positionals 0 _ rfl
  have hmore := hheld.positionals 1 _ rfl
  exact ⟨result, session, hparse, hok, hver.trans (by decide), hjob.trans (by decide),
    hfirst.trans (by decide), hmore.trans (by decide)⟩

end Liblor.Cli
