import Liblor.CliModel

/-!
# What registration guarantees

Every parser that successful registrations build has valid and distinct names, its required
positionals first and a trailing list only at the end. Parsing counts occurrences and leaves all
else of the registry as it is, so that names are found in it all the time.
-/

namespace Liblor.Cli

/-- A parser that successful registrations build. Those of lists ask besides that the destination is
still the `NULL` array, which nothing here needs. -/
inductive Built : LorCli → Prop where
  | init (programName : Option Bytes) : Built (init programName)
  | option {cli cli' : LorCli} {option : LorCliOption} {kind : LorCliValueKind} {destination : ℕ}
      (h : Built cli) (hkind : kind.isOption)
      (hadd : addOption cli option kind destination = (.ok, cli')) : Built cli'
  | positional {cli cli' : LorCli} {positional : LorCliPositional} {kind : LorCliValueKind}
      {destination : ℕ} (h : Built cli) (hkind : kind.isScalar)
      (hadd : addPositional cli positional kind destination = (.ok, cli')) : Built cli'
  | rest {cli cli' : LorCli} {name : Option Bytes} {destination : ℕ} (h : Built cli)
      (hadd : addPositionals cli name destination = (.ok, cli')) : Built cli'

structure OptionOk (option : LorCliOptionInternal) : Prop where
  short : shortNameValid option.spec.shortName
  long : ∀ name, option.spec.longName = some name → longNameValid name
  kind : option.kind.isOption
  repeats : option.kind = .count ∨ option.kind = .strings ∨ option.kind = .ints ∨
    option.kind = .doubles → option.spec.repeatable

/-- Two options that no name could stand for both. -/
def Distinct (a b : LorCliOptionInternal) : Prop :=
  (a.spec.longName = b.spec.longName → a.spec.longName = none) ∧
    (a.spec.shortName = b.spec.shortName → a.spec.shortName = 0)

/-- What may stand before what among the positionals. -/
def InOrder (a b : LorCliPositionalInternal) : Prop :=
  a.kind.isScalar ∧ (b.spec.required → a.spec.required)

structure PositionalOk (item : LorCliPositionalInternal) : Prop where
  kind : item.kind.isScalar ∨ item.kind = .positionals
  rest : item.kind = .positionals → item.spec.required = false

structure Registered (cli : LorCli) : Prop where
  options : ∀ option ∈ cli.options, OptionOk option
  distinct : cli.options.Pairwise Distinct
  positionals : ∀ item ∈ cli.positionals, PositionalOk item
  inOrder : cli.positionals.Pairwise InOrder

variable {cli cli' : LorCli} {option : LorCliOptionInternal} {index : ℕ}

section Find

theorem findOption_eq_some {test : LorCliOptionInternal → Bool}
    (hoption : cli.options[index]? = some option) (htest : test option)
    (hfirst : ∀ (j : ℕ) other, j < index → cli.options[j]? = some other → test other = false) :
    cli.findOption test = some (index, option) := by
  obtain ⟨hlt, hget⟩ := List.getElem?_eq_some_iff.1 hoption
  have hfound : cli.options.findIdx? test = some index := by
    rw [List.findIdx?_eq_some_iff_getElem]
    refine ⟨hlt, by rwa [hget], ?_⟩
    intro j hj
    rw [hfirst j _ hj (List.getElem?_eq_getElem _)]
    simp
  simp only [LorCli.findOption, hfound, Option.bind_eq_bind, Option.bind_some, hoption]
  rfl

theorem findOption_eq_none {test : LorCliOptionInternal → Bool}
    (h : (cli.findOption test).isSome = false) : ∀ option ∈ cli.options, test option = false := by
  intro option hmem
  by_contra htest
  have hsome : (cli.options.findIdx? test).isSome := by
    rw [List.findIdx?_isSome, List.any_eq_true]
    exact ⟨option, hmem, by simpa using htest⟩
  obtain ⟨index, hindex⟩ := Option.isSome_iff_exists.1 hsome
  obtain ⟨hlt, -⟩ := List.findIdx?_eq_some_iff_getElem.1 hindex
  simp [LorCli.findOption, hindex, List.getElem?_eq_getElem hlt] at h

theorem pairwise_getElem? {α : Type*} {R : α → α → Prop} {xs : List α} (h : xs.Pairwise R)
    {i j : ℕ} {a b : α} (hij : i < j) (ha : xs[i]? = some a) (hb : xs[j]? = some b) : R a b := by
  obtain ⟨hi, rfl⟩ := List.getElem?_eq_some_iff.1 ha
  obtain ⟨hj, rfl⟩ := List.getElem?_eq_some_iff.1 hb
  exact List.pairwise_iff_getElem.1 h i j hi hj hij

theorem Registered.findLong (h : Registered cli) (hoption : cli.options[index]? = some option)
    {name : Bytes} (hname : option.spec.longName = some name) :
    cli.findLong name = some (index, option) := by
  apply findOption_eq_some hoption
  · rw [hname, beq_iff_eq]
  · intro j other hj hother
    rw [beq_eq_false_iff_ne]
    intro heq
    have hnone := (pairwise_getElem? h.distinct hj hother hoption).1 (heq.trans hname.symm)
    rw [heq] at hnone
    cases hnone

theorem Registered.findShort (h : Registered cli) (hoption : cli.options[index]? = some option)
    (hname : option.spec.shortName ≠ 0) :
    cli.findShort option.spec.shortName = some (index, option) := by
  apply findOption_eq_some hoption
  · exact beq_self_eq_true _
  · intro j other hj hother
    rw [beq_eq_false_iff_ne]
    intro heq
    have hnone := (pairwise_getElem? h.distinct hj hother hoption).2 heq
    exact hname (heq.symm.trans hnone)

end Find

section Build

theorem optionConflicts_eq_false {spec : LorCliOption} (h : optionConflicts cli spec = false) :
    ∀ a ∈ cli.options, (a.spec.longName = spec.longName → a.spec.longName = none) ∧
      (a.spec.shortName = spec.shortName → a.spec.shortName = 0) := by
  rw [optionConflicts, Bool.or_eq_false_iff] at h
  intro a ha
  constructor
  · intro heq
    cases hname : spec.longName with
    | none => exact heq.trans hname
    | some name =>
        rw [hname] at heq
        have hlong := h.2
        rw [hname] at hlong
        have hfree := findOption_eq_none hlong a ha
        rw [heq, beq_self_eq_true] at hfree
        cases hfree
  · intro heq
    by_contra hzero
    have hne : (spec.shortName != 0) = true := by
      rw [bne_iff_ne, ← heq]
      exact hzero
    have hshort := h.1
    rw [hne, Bool.true_and] at hshort
    have hfree := findOption_eq_none hshort a ha
    rw [heq, beq_self_eq_true] at hfree
    cases hfree

theorem addOption_cases {spec : LorCliOption} {kind : LorCliValueKind} {destination : ℕ}
    (h : addOption cli spec kind destination = (.ok, cli')) :
    cli.parsed = false ∧ shortNameValid spec.shortName ∧
      (∀ name, spec.longName = some name → longNameValid name) ∧ optionConflicts cli spec = false ∧
      ∃ repeatable, (kind = .count ∨ kind = .strings ∨ kind = .ints ∨ kind = .doubles →
          repeatable = true) ∧
        cli' = { cli with options := cli.options ++
          [⟨{ spec with repeatable := repeatable }, kind, destination, 0⟩] } := by
  unfold addOption at h
  split at h
  · cases h
  · rename_i hbad
    simp only [not_or, Bool.not_eq_true, Bool.not_eq_false] at hbad
    obtain ⟨-, hparsed, -, hshort, hlong, hconflicts⟩ := hbad
    have hcli := (Prod.mk.inj h).2
    refine ⟨hparsed, hshort, ?_, hconflicts, ?_⟩
    · intro name hname
      rw [hname] at hlong
      simpa using hlong
    · by_cases hlist : kind = .strings ∨ kind = .ints ∨ kind = .doubles
      · refine ⟨true, fun _ => rfl, ?_⟩
        rw [← hcli, if_pos hlist]
        split_ifs <;> rfl
      · rw [if_neg hlist] at hcli
        by_cases hcount : kind = .count
        · refine ⟨true, fun _ => rfl, ?_⟩
          rw [← hcli, if_pos hcount]
        · refine ⟨spec.repeatable, ?_, ?_⟩
          · rintro (hkind | hkind)
            · exact absurd hkind hcount
            · exact absurd hkind hlist
          · rw [← hcli, if_neg hcount]

theorem addPositional_cases {spec : LorCliPositional} {kind : LorCliValueKind} {destination : ℕ}
    (h : addPositional cli spec kind destination = (.ok, cli')) :
    cli.parsed = false ∧ hasRest cli = false ∧
      (spec.required → ∀ last, cli.positionals.getLast? = some last → last.spec.required) ∧
        cli' = { cli with positionals := cli.positionals ++ [⟨spec, kind, destination, 0⟩] } := by
  unfold addPositional at h
  split at h
  · cases h
  · rename_i hbad
    simp only [not_or, Bool.not_eq_true] at hbad
    obtain ⟨-, hparsed, -, -, hrest⟩ := hbad
    split at h
    · cases h
    · rename_i horder
      refine ⟨hparsed, hrest, ?_, (Prod.mk.inj h).2.symm⟩
      intro hrequired last hlast
      rw [hlast] at horder
      simpa [hrequired] using horder

theorem Registered.addOption {spec : LorCliOption} {kind : LorCliValueKind} {destination : ℕ}
    (h : Registered cli) (hkind : kind.isOption)
    (hadd : addOption cli spec kind destination = (.ok, cli')) : Registered cli' := by
  obtain ⟨-, hshort, hlong, hconflicts, repeatable, hrepeat, rfl⟩ := addOption_cases hadd
  refine ⟨?_, ?_, h.positionals, h.inOrder⟩
  · intro option hmem
    rcases List.mem_append.1 hmem with hold | hnew
    · exact h.options option hold
    · rw [List.mem_singleton.1 hnew]
      exact ⟨hshort, hlong, hkind, hrepeat⟩
  · rw [List.pairwise_append]
    refine ⟨h.distinct, List.pairwise_singleton _ _, ?_⟩
    intro a ha b hb
    rw [List.mem_singleton.1 hb]
    exact optionConflicts_eq_false hconflicts a ha

/-- In a registry without a trailing list all positionals are single, and where the last is required
all are. -/
theorem Registered.scalar_of_hasRest (h : Registered cli) (hrest : hasRest cli = false) :
    ∀ item ∈ cli.positionals, item.kind.isScalar ∧
      ((∀ last, cli.positionals.getLast? = some last → last.spec.required) →
        item.spec.required) := by
  have hpositionals := h.positionals
  have hinOrder := h.inOrder
  rcases List.eq_nil_or_concat cli.positionals with hnil | ⟨front, last, hconcat⟩
  · rw [hnil]
    intro item hmem
    cases hmem
  · rw [List.concat_eq_append] at hconcat
    rw [hasRest, hconcat, List.getLast?_concat] at hrest
    rw [hconcat] at hpositionals hinOrder ⊢
    rw [List.pairwise_append] at hinOrder
    intro item hmem
    rw [List.getLast?_concat]
    rcases List.mem_append.1 hmem with hfront | hlast
    · have hpair := hinOrder.2.2 item hfront last (List.mem_singleton_self _)
      exact ⟨hpair.1, fun hrequired => hpair.2 (hrequired last rfl)⟩
    · rw [List.mem_singleton.1 hlast]
      constructor
      · have hok := hpositionals last (List.mem_append_right _ (List.mem_singleton_self _))
        rcases hok.kind with hscalar | hlist
        · exact hscalar
        · rw [beq_eq_false_iff_ne] at hrest
          exact absurd hlist hrest
      · exact fun hrequired => hrequired last rfl

theorem Registered.addPositional {spec : LorCliPositional} {kind : LorCliValueKind}
    {destination : ℕ} (h : Registered cli)
    (hkind : kind.isScalar ∨ (kind = .positionals ∧ spec.required = false))
    (hadd : addPositional cli spec kind destination = (.ok, cli')) : Registered cli' := by
  obtain ⟨-, hrest, hrequired, rfl⟩ := addPositional_cases hadd
  have hscalar := h.scalar_of_hasRest hrest
  refine ⟨h.options, h.distinct, ?_, ?_⟩
  · intro item hmem
    rcases List.mem_append.1 hmem with hold | hnew
    · exact h.positionals item hold
    · rw [List.mem_singleton.1 hnew]
      constructor
      · rcases hkind with hone | hlist
        · exact Or.inl hone
        · exact Or.inr hlist.1
      · intro hlist
        rcases hkind with hone | hrest
        · dsimp only at hlist
          rw [hlist] at hone
          cases hone
        · exact hrest.2
  · rw [List.pairwise_append]
    refine ⟨h.inOrder, List.pairwise_singleton _ _, ?_⟩
    intro a ha b hb
    rw [List.mem_singleton.1 hb]
    exact ⟨(hscalar a ha).1, fun hspec => (hscalar a ha).2 (hrequired hspec)⟩

theorem Built.registered (h : Built cli) : Registered cli := by
  induction h with
  | init programName =>
      constructor <;> simp [Cli.init]
  | option h hkind hadd ih => exact ih.addOption hkind hadd
  | positional h hkind hadd ih => exact ih.addPositional (Or.inl hkind) hadd
  | rest h hadd ih => exact ih.addPositional (Or.inr ⟨rfl, rfl⟩) hadd

/-- No parse has begun. -/
structure Fresh (cli : LorCli) : Prop where
  parsed : cli.parsed = false
  options : ∀ option ∈ cli.options, option.occurrences = 0
  positionals : ∀ item ∈ cli.positionals, item.occurrences = 0

theorem Fresh.addPositional {spec : LorCliPositional} {kind : LorCliValueKind} {destination : ℕ}
    (h : Fresh cli) (hadd : addPositional cli spec kind destination = (.ok, cli')) :
    Fresh cli' := by
  obtain ⟨-, -, -, rfl⟩ := addPositional_cases hadd
  refine ⟨h.parsed, h.options, ?_⟩
  intro item hmem
  rcases List.mem_append.1 hmem with hold | hnew
  · exact h.positionals item hold
  · rw [List.mem_singleton.1 hnew]

theorem Built.fresh (h : Built cli) : Fresh cli := by
  induction h with
  | init programName =>
      constructor <;> simp [Cli.init]
  | option h hkind hadd ih =>
      obtain ⟨-, -, -, -, _, -, rfl⟩ := addOption_cases hadd
      refine ⟨ih.parsed, ?_, ih.positionals⟩
      intro option hmem
      rcases List.mem_append.1 hmem with hold | hnew
      · exact ih.options option hold
      · rw [List.mem_singleton.1 hnew]
  | positional h hkind hadd ih => exact ih.addPositional hadd
  | rest h hadd ih => exact ih.addPositional hadd

end Build

/-! ## Occurrences

`clear` forgets the occurrences, which are all that parsing changes in a registry. -/

section Clear

def LorCliOptionInternal.clear (option : LorCliOptionInternal) : LorCliOptionInternal :=
  { option with occurrences := 0 }

def LorCliPositionalInternal.clear (item : LorCliPositionalInternal) : LorCliPositionalInternal :=
  { item with occurrences := 0 }

def LorCli.clear (cli : LorCli) : LorCli :=
  { cli with
    options := cli.options.map LorCliOptionInternal.clear
    positionals := cli.positionals.map LorCliPositionalInternal.clear }

theorem registered_clear : Registered cli.clear ↔ Registered cli := by
  constructor
  · rintro ⟨hoptions, hdistinct, hpositionals, hinOrder⟩
    simp only [LorCli.clear, List.forall_mem_map, List.pairwise_map] at *
    refine ⟨?_, hdistinct, ?_, hinOrder⟩
    · intro option hmem
      obtain ⟨hshort, hlong, hkind, hrepeat⟩ := hoptions option hmem
      exact ⟨hshort, hlong, hkind, hrepeat⟩
    · intro item hmem
      obtain ⟨hkind, hrest⟩ := hpositionals item hmem
      exact ⟨hkind, hrest⟩
  · rintro ⟨hoptions, hdistinct, hpositionals, hinOrder⟩
    constructor <;> simp only [LorCli.clear, List.forall_mem_map, List.pairwise_map]
    · intro option hmem
      obtain ⟨hshort, hlong, hkind, hrepeat⟩ := hoptions option hmem
      exact ⟨hshort, hlong, hkind, hrepeat⟩
    · exact hdistinct
    · intro item hmem
      obtain ⟨hkind, hrest⟩ := hpositionals item hmem
      exact ⟨hkind, hrest⟩
    · exact hinOrder

theorem Registered.of_clear (h : Registered cli) (hclear : cli'.clear = cli.clear) :
    Registered cli' := registered_clear.1 (hclear ▸ registered_clear.2 h)

/-- What stands at an index of the options keeps its specification. -/
theorem option_of_clear (hclear : cli'.clear = cli.clear)
    (hoption : cli.options[index]? = some option) :
    ∃ occurrences, cli'.options[index]? = some { option with occurrences := occurrences } := by
  have hmap := congrArg (fun cli => (LorCli.options cli)[index]?) hclear
  simp only [LorCli.clear, List.getElem?_map, hoption, Option.map_some,
    Option.map_eq_some_iff] at hmap
  obtain ⟨option', hoption', heq⟩ := hmap
  refine ⟨option'.occurrences, ?_⟩
  rw [hoption']
  cases option
  cases option'
  cases heq
  rfl

theorem positional_of_clear (hclear : cli'.clear = cli.clear) {item : LorCliPositionalInternal}
    (hitem : cli.positionals[index]? = some item) :
    ∃ occurrences, cli'.positionals[index]? = some { item with occurrences := occurrences } := by
  have hmap := congrArg (fun cli => (LorCli.positionals cli)[index]?) hclear
  simp only [LorCli.clear, List.getElem?_map, hitem, Option.map_some,
    Option.map_eq_some_iff] at hmap
  obtain ⟨item', hitem', heq⟩ := hmap
  refine ⟨item'.occurrences, ?_⟩
  rw [hitem']
  cases item
  cases item'
  cases heq
  rfl

variable {D : Type} {convert : Converters D} {parser : Parser D}

@[simp]
theorem occurred_clear : (parser.occurred index).cli.clear = parser.cli.clear := by
  have hmap : (parser.occurred index).cli.options.map LorCliOptionInternal.clear =
      parser.cli.options.map LorCliOptionInternal.clear := by
    apply List.ext_getElem?
    intro j
    simp only [Parser.occurred, List.getElem?_map, List.getElem?_modify]
    cases parser.cli.options[j]? with
    | none => rfl
    | some option =>
        by_cases hj : index = j
        · simp [hj, LorCliOptionInternal.clear]
        · simp [hj]
  simp only [LorCli.clear, hmap]
  rfl

theorem consumePositional_clear {token : Bytes} {i : ℤ} :
    (consumePositional convert parser token i).2.cli.clear = parser.cli.clear := by
  unfold consumePositional
  cases parser.cli.positionals[parser.positionalIndex]? with
  | none => rfl
  | some item =>
      dsimp only
      split_ifs
      · rfl
      all_goals
        simp only [LorCli.clear]
        congr 1
        apply List.ext_getElem?
        intro j
        simp only [List.getElem?_map, List.getElem?_modify]
        cases parser.cli.positionals[j]? with
        | none => rfl
        | some item =>
            by_cases hj : parser.positionalIndex = j
            · simp [hj, LorCliPositionalInternal.clear]
            · simp [hj]

end Clear

end Liblor.Cli
