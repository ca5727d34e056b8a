import Liblor.CliRegistration
import Liblor.CliRejected

/-!
# Missing positionals

The last check of a parse looks at the occurrences of the positionals. They are filled one after the
other, so that one that is required is missing exactly where fewer were consumed than are required.
-/

namespace Liblor.CliArgv

open Cli

variable {D : Type} {host : Host D} {session : Session D} {cli : LorCli}

/-- How many positional arguments the registry has counted. -/
def consumedCount (cli : LorCli) : ℕ := (cli.positionals.map (·.occurrences)).sum

/-- The first so many positionals have occurrences, and the next one is the first that has none, or
a trailing list. -/
structure Filled (cli : LorCli) (positionalIndex : ℕ) : Prop where
  next : positionalIndex = pendingIndex cli (consumedCount cli)
  counts : ∀ (j : ℕ) (item : LorCliPositionalInternal), cli.positionals[j]? = some item →
    (item.occurrences = 0 ↔ consumedCount cli ≤ j)

section Fill

theorem sum_map_modify {items : List LorCliPositionalInternal} {index : ℕ}
    (hindex : index < items.length) :
    ((items.modify index fun item => { item with occurrences := item.occurrences + 1 }).map
      (·.occurrences)).sum = (items.map (·.occurrences)).sum + 1 := by
  induction items generalizing index with
  | nil => exact absurd hindex (Nat.not_lt_zero _)
  | cons first items ih =>
    cases index with
    | zero =>
      simp only [List.modify_zero_cons, List.map_cons, List.sum_cons]
      omega
    | succ index =>
      have hrest := ih (Nat.lt_of_succ_lt_succ hindex)
      simp only [List.modify_succ_cons, List.map_cons, List.sum_cons, hrest]
      omega

theorem pendingIndex_clear (cli : LorCli) (n : ℕ) :
    pendingIndex cli.clear n = pendingIndex cli n := by
  have hrest : hasRest cli.clear = hasRest cli := by
    unfold hasRest
    simp only [LorCli.clear, List.getLast?_map]
    cases cli.positionals.getLast? with
    | none => rfl
    | some last => rfl
  unfold pendingIndex
  rw [hrest]
  simp only [LorCli.clear, List.length_map]

theorem requiredCount_clear (cli : LorCli) : requiredCount cli.clear = requiredCount cli := by
  unfold requiredCount
  simp only [LorCli.clear, List.countP_map]
  rfl

theorem Filled.consume (hregistered : Registered cli) {positionalIndex : ℕ}
    (h : Filled cli positionalIndex) {item : LorCliPositionalInternal}
    (hitem : cli.positionals[positionalIndex]? = some item) :
    Filled (consumed cli positionalIndex) (advance cli positionalIndex) := by
  obtain ⟨hlt, -⟩ := List.getElem?_eq_some_iff.1 hitem
  have hcount : consumedCount (consumed cli positionalIndex) = consumedCount cli + 1 :=
    sum_map_modify hlt
  have hpending : ∀ n, pendingIndex (consumed cli positionalIndex) n = pendingIndex cli n := by
    intro n
    rw [← pendingIndex_clear, clear_consumed, pendingIndex_clear]
  have hcounts : ∀ (j : ℕ) (item' : LorCliPositionalInternal),
      (consumed cli positionalIndex).positionals[j]? = some item' →
        j = positionalIndex ∧ item'.occurrences ≠ 0 ∨
          j ≠ positionalIndex ∧ cli.positionals[j]? = some item' := by
    intro j item' hitem'
    rw [consumed, List.getElem?_modify] at hitem'
    by_cases hj : positionalIndex = j
    · subst hj
      simp only [hitem, if_pos, Option.map_eq_map, Option.map_some, Option.some.injEq] at hitem'
      rw [← hitem']
      exact Or.inl ⟨rfl, Nat.succ_ne_zero _⟩
    · simp only [if_neg hj, id_map'] at hitem'
      exact Or.inr ⟨Ne.symm hj, hitem'⟩
  have hnext := h.next
  have hpendingItem := hitem
  rw [hnext] at hpendingItem
  rcases hregistered.pending hpendingItem with ⟨hkind, hhere, hthere⟩ | ⟨hkind, hle, hthere⟩
  · refine ⟨?_, ?_⟩
    · rw [hcount, hpending, hthere, advance, hitem]
      dsimp only
      rw [if_pos hkind]
      omega
    · intro j item' hitem'
      rw [hcount]
      rcases hcounts j item' hitem' with ⟨hj, hne⟩ | ⟨hj, hsame⟩
      · exact ⟨fun hzero => absurd hzero hne, fun hge => by omega⟩
      · rw [h.counts j item' hsame]
        omega
  · have hlast := (hregistered.rest_last hitem hkind).1
    refine ⟨?_, ?_⟩
    · rw [hcount, hpending, hthere, advance, hitem]
      dsimp only
      rw [if_neg (not_not.2 hkind)]
      exact hnext
    · intro j item' hitem'
      rw [hcount]
      rcases hcounts j item' hitem' with ⟨hj, hne⟩ | ⟨hj, hsame⟩
      · exact ⟨fun hzero => absurd hzero hne, fun hge => by omega⟩
      · obtain ⟨hjlt, -⟩ := List.getElem?_eq_some_iff.1 hsame
        rw [h.counts j item' hsame]
        omega

theorem filled_of_fresh (h : Fresh cli) : Filled cli 0 := by
  have hcount : consumedCount cli = 0 := by
    refine List.sum_eq_zero fun n hn => ?_
    obtain ⟨item, hmem, rfl⟩ := List.mem_map.1 hn
    exact h.positionals item hmem
  refine ⟨?_, ?_⟩
  · rw [hcount]
    unfold pendingIndex
    split_ifs
    · exact (Nat.zero_min _).symm
    · rfl
  · intro j item hitem
    rw [hcount]
    exact ⟨fun _ => Nat.zero_le j, fun _ => h.positionals item (List.mem_of_getElem? hitem)⟩

/-- Accepted occurrences fill the positionals one after the other. -/
theorem Filled.perform {item : Item} {result : LorCliResult} {session' : Session D}
    (hregistered : Registered session.cli) (h : Filled session.cli session.positionalIndex)
    (hfits : item.Fits session.positionalIndex)
    (hperform : perform host session item = (result, session')) (hok : result.code = .ok) :
    Registered session'.cli ∧ Filled session'.cli session'.positionalIndex := by
  obtain ⟨result₁, session₁, hperform₁, hclear, -, hdone⟩ := perform_cases host hfits
  rw [hperform₁] at hperform
  cases hperform
  obtain ⟨hindex, heffect⟩ := hdone hok
  refine ⟨hregistered.of_clear hclear, ?_⟩
  rw [hindex]
  cases item with
  | stop _ =>
    rw [(Prod.mk.inj heffect).1]
    exact h
  | option _ _ index _ =>
    simp only [Item.effect] at heffect
    cases hoption : session.cli.options[index]? with
    | none =>
      rw [hoption] at heffect
      rw [(Prod.mk.inj heffect).1]
      exact h
    | some option =>
      rw [hoption] at heffect
      rw [(Prod.mk.inj heffect).1]
      exact ⟨h.next, h.counts⟩
  | positional _ _ index =>
    obtain rfl : index = session.positionalIndex := hfits
    simp only [Item.effect] at heffect
    cases hitem : session.cli.positionals[session.positionalIndex]? with
    | none =>
      rw [hitem] at heffect
      rw [(Prod.mk.inj heffect).1, Item.next, advance, hitem]
      exact h
    | some item =>
      rw [hitem] at heffect
      rw [(Prod.mk.inj heffect).1]
      exact h.consume hregistered hitem

variable (session) in
theorem Filled.performAll {line : List Item} {registry : LorCli} {final : ℕ} {session' : Session D}
    (hclear : session.cli.clear = registry) (hregistered : Registered session.cli)
    (h : Filled session.cli session.positionalIndex)
    (hfits : FitsAll registry final session.positionalIndex line)
    (hall : performAll host session line = (none, session')) :
    Registered session'.cli ∧ Filled session'.cli session'.positionalIndex := by
  induction line generalizing session with
  | nil =>
    cases hall
    exact ⟨hregistered, h⟩
  | cons item line ih =>
    obtain ⟨result, session₁, hperform, hclear₁, -, hdone⟩ := perform_cases host hfits.1
    rw [performAll_cons, hperform] at hall
    split_ifs at hall with hcode
    · cases hall
    · have hok := not_not.1 hcode
      obtain ⟨hregistered₁, hfilled⟩ := h.perform hregistered hfits.1 hperform hok
      have hindex := (hdone hok).1
      rw [next_clear hclear] at hindex
      exact ih session₁ (hclear₁.trans hclear) hregistered₁ hfilled (by rw [hindex]; exact hfits.2)
        hall

end Fill

section Finish

/-- The final check misses a positional exactly where too few were consumed, and names the first. -/
theorem finish_missing (hregistered : Registered cli) {positionalIndex : ℕ}
    (h : Filled cli positionalIndex) :
    ((finish cli).code = .missingPositional ↔
      (∀ option ∈ cli.options, option.spec.required → option.occurrences ≠ 0) ∧
        consumedCount cli < requiredCount cli) ∧
    ((finish cli).code = .missingPositional →
      ∃ item, cli.positionals[consumedCount cli]? = some item ∧ item.occurrences = 0 ∧
        finish cli = result .missingPositional (-1) [] item.spec.name) := by
  have hoptions := find?_missing cli.options (·.spec.required) (·.occurrences)
  rw [← hoptions]
  unfold finish
  cases cli.options.find? fun option => option.spec.required && option.occurrences == 0 with
  | some option =>
    refine ⟨⟨fun hcode => (by cases hcode), fun h => (by cases h.1)⟩, fun hcode => (by cases hcode)⟩
  | none =>
    dsimp only
    by_cases hfew : consumedCount cli < requiredCount cli
    · have hlt : consumedCount cli < cli.positionals.length :=
        hfew.trans_le List.countP_le_length
      have hitem := List.getElem?_eq_getElem hlt
      have hrequired := (required_iff hregistered.inOrder hitem).2 hfew
      have hzero := (h.counts _ _ hitem).2 le_rfl
      have hfind : (cli.positionals.find? fun item => item.spec.required && item.occurrences == 0) =
          some cli.positionals[consumedCount cli] := by
        rw [List.find?_eq_some_iff_getElem]
        refine ⟨?_, consumedCount cli, hlt, rfl, ?_⟩
        · rw [hrequired, hzero]
          rfl
        · intro j hj
          have hne := (h.counts j _ (List.getElem?_eq_getElem (hj.trans hlt))).not.2
            (Nat.not_le.2 hj)
          rw [beq_eq_false_iff_ne.2 hne, Bool.and_false]
          rfl
      rw [hfind]
      exact ⟨⟨fun _ => ⟨rfl, hfew⟩, fun _ => rfl⟩, fun _ => ⟨_, hitem, hzero, rfl⟩⟩
    · have hfind : (cli.positionals.find? fun item => item.spec.required && item.occurrences == 0) =
          none := by
        rw [find?_missing cli.positionals (·.spec.required) (·.occurrences)]
        intro item hmem hrequired hzero
        obtain ⟨j, hj⟩ := List.getElem?_of_mem hmem
        have hlt := (required_iff hregistered.inOrder hj).1 hrequired
        have hge := (h.counts j item hj).1 hzero
        exact hfew (hge.trans_lt hlt)
      rw [hfind]
      refine ⟨⟨fun hcode => (by cases hcode), fun h => absurd h.2 hfew⟩,
        fun hcode => (by cases hcode)⟩

end Finish

section Codes

/-- A result that is not of the last check. -/
def Early (result : LorCliResult) : Prop := result.code ≠ .missingPositional

def Item.Early : Item → Prop
  | stop result => CliArgv.Early result
  | _ => True

variable {i : ℕ} {token : Bytes}

theorem early_result {code : LorCliCode} (h : code ≠ .missingPositional) (i : ℤ) (token : Bytes)
    (name : Option Bytes) : Early (result code i token name) := h

theorem early_optionResult {code : LorCliCode} (h : code ≠ .missingPositional) (i : ℤ)
    (token : Bytes) (option : LorCliOptionInternal) : Early (optionResult code i token option) := h

theorem assignValue_early (kind : LorCliValueKind) (destination : ℕ) (text : Bytes) :
    (assignValue host session kind destination text).1 ≠ .missingPositional := by
  cases hbare : kind.bare with
  | true =>
    rw [assignValue_bare host session hbare]
    exact fun h => by cases h
  | false =>
    obtain ⟨code, session', hassign, -, -, hcases⟩ :=
      assignValue_cases host session hbare destination text
    rw [hassign]
    rcases hcases with ⟨rfl, -⟩ | ⟨value, -, ⟨rfl, -⟩ | ⟨rfl, -⟩⟩
    · exact fun h => by cases h
    · exact fun h => by cases h
    · exact fun h => by cases h

theorem applyOption_early (index : ℕ) (option : LorCliOptionInternal) (value : Option Bytes) (i : ℤ)
    (token : Bytes) : Early (applyOption host session (index, option) value i token).1 := by
  have hok : Early (optionResult .ok i token option) := early_optionResult (by decide) _ _ _
  unfold applyOption
  dsimp only
  split_ifs
  · exact early_optionResult (by decide) _ _ _
  · exact early_optionResult (by decide) _ _ _
  · exact hok
  · exact early_optionResult (by decide) _ _ _
  · exact early_optionResult (by decide) _ _ _
  · exact hok
  · cases value with
    | none => exact early_optionResult (by decide) _ _ _
    | some text =>
      dsimp only
      split_ifs
      · exact early_optionResult (assignValue_early _ _ _) _ _ _
      · exact hok

theorem perform_early {item : Item} (h : item.Early) : Early (perform host session item).1 := by
  cases item with
  | stop result => exact h
  | option i token index value =>
    simp only [perform]
    cases session.cli.options[index]? with
    | none => exact early_result (by decide) _ _ _
    | some option => exact applyOption_early _ _ _ _ _
  | positional i token index =>
    simp only [perform, consumePositional]
    cases session.cli.positionals[session.positionalIndex]? with
    | none => exact early_result (by decide) _ _ _
    | some item =>
      dsimp only
      split_ifs
      · exact early_result (assignValue_early _ _ _) _ _ _
      · exact early_result (by decide) _ _ _
      · exact early_result (by decide) _ _ _

theorem nextItem_early (found : ℕ × LorCliOptionInternal) (next : List (Option Bytes)) :
    ∀ item ∈ (nextItem found i token next).1, item.Early := by
  intro item hmem
  cases next with
  | nil =>
    rw [List.mem_singleton.1 hmem]
    exact early_optionResult (by decide) _ _ _
  | cons value next =>
    rw [List.mem_singleton.1 hmem]
    trivial

theorem longItems_early (next : List (Option Bytes)) :
    ∀ item ∈ (longItems cli i token next).1, item.Early := by
  unfold longItems
  dsimp only
  intro item hmem
  cases hfound : cli.findLong (List.take ((List.idxOf? 61 (List.drop 2 token)).getD
    (List.drop 2 token).length) (List.drop 2 token)) with
  | none =>
    rw [hfound] at hmem
    rw [List.mem_singleton.1 hmem]
    exact early_result (by decide) _ _ _
  | some found =>
    rw [hfound] at hmem
    dsimp only at hmem
    split_ifs at hmem
    · exact nextItem_early _ _ item hmem
    · rw [List.mem_singleton.1 hmem]
      trivial

theorem clusterItems_early (next : List (Option Bytes)) (cursor : Bytes) :
    ∀ item ∈ (clusterItems cli i token next cursor).1, item.Early := by
  induction cursor with
  | nil =>
    intro item hmem
    cases hmem
  | cons name cursor ih =>
    intro item hmem
    unfold clusterItems at hmem
    by_cases hhelp : name = 104
    · rw [if_pos hhelp] at hmem
      rw [List.mem_singleton.1 hmem]
      exact early_result (by decide) _ _ _
    · rw [if_neg hhelp] at hmem
      cases hfound : cli.findShort name with
      | none =>
        rw [hfound] at hmem
        rw [List.mem_singleton.1 hmem]
        exact early_result (by decide) _ _ _
      | some found =>
        rw [hfound] at hmem
        dsimp only at hmem
        by_cases hbare : found.2.kind.bare = false
        · rw [if_pos hbare] at hmem
          by_cases hcursor : (if cursor.head? = some 61 then cursor.tail else cursor) ≠ []
          · rw [if_pos hcursor] at hmem
            rw [List.mem_singleton.1 hmem]
            trivial
          · rw [if_neg hcursor] at hmem
            exact nextItem_early _ _ item hmem
        · rw [if_neg hbare] at hmem
          rcases List.mem_cons.1 hmem with rfl | hrest
          · trivial
          · exact ih item hrest

theorem readArgument_early (convert : Converters D) (positionalIndex : ℕ) (enabled : Bool)
    (token : Option Bytes) (next : List (Option Bytes)) :
    ∀ item ∈ (readArgument convert cli positionalIndex enabled i token next).items, item.Early := by
  unfold readArgument
  intro item hmem
  cases token with
  | none =>
    rw [List.mem_singleton.1 hmem]
    exact early_result (by decide) _ _ _
  | some token =>
    dsimp only at hmem
    split_ifs at hmem
    · cases hmem
    · rw [List.mem_singleton.1 hmem]
      exact early_result (by decide) _ _ _
    · rw [List.mem_singleton.1 hmem]
      trivial
    · exact longItems_early _ item hmem
    · exact clusterItems_early _ _ item hmem
    · rw [List.mem_singleton.1 hmem]
      trivial

theorem items_early (convert : Converters D) (enabled : Bool) (skip : ℕ)
    (args : List (Option Bytes)) (positionalIndex : ℕ) :
    ∀ item ∈ items convert cli positionalIndex enabled i skip args, item.Early := by
  induction args generalizing positionalIndex enabled i skip with
  | nil =>
    intro item hmem
    cases skip <;> cases hmem
  | cons token next ih =>
    cases skip with
    | zero =>
      intro item hmem
      rcases List.mem_append.1 hmem with hhere | hrest
      · exact readArgument_early convert positionalIndex enabled token next item hhere
      · exact ih _ _ _ item hrest
    | succ skip => exact ih enabled skip positionalIndex

theorem performAll_early {line : List Item} {result : LorCliResult} {session' : Session D}
    (hline : ∀ item ∈ line, item.Early)
    (h : performAll host session line = (some result, session')) : Early result := by
  induction line generalizing session with
  | nil => cases h
  | cons item line ih =>
    rw [performAll_cons] at h
    split_ifs at h
    · cases h
      exact perform_early (hline item List.mem_cons_self)
    · exact ih (fun item' hmem => hline item' (List.mem_cons_of_mem _ hmem)) h

end Codes

/-- The parser accepts all that the command line stands for. -/
def NoneRejected (host : Host D) (cli : LorCli) (memory : Memory D) (argv : List (Option Bytes)) :
    Prop :=
  (performAll host ⟨started cli argv, memory, 0, 0⟩ (commandLine host.convert cli argv)).1 = none

/-- What a parse by a registered parser makes of positionals that are missing. -/
theorem parse_missing (hbuilt : Built cli) (host : Host D) (memory : Memory D)
    (argv : List (Option Bytes)) :
    ∃ answer session, parse host cli memory argv = some (answer, session) ∧
      (answer.code = .missingPositional ↔ NoneRejected host cli memory argv ∧
        (∀ option ∈ session.cli.options, option.spec.required → option.occurrences ≠ 0) ∧
          consumedCount session.cli < requiredCount cli) ∧
      (answer.code = .missingPositional →
        ∃ item, session.cli.positionals[consumedCount session.cli]? = some item ∧
          item.occurrences = 0 ∧
          (∀ earlier ∈ session.cli.positionals.take (consumedCount session.cli),
            earlier.occurrences ≠ 0) ∧
          answer = result .missingPositional (-1) [] item.spec.name) := by
  obtain ⟨final, hfits⟩ := fitsAll_commandLine host.convert cli argv
  obtain ⟨answer, session, hparse, ⟨hall, rfl⟩ | hall⟩ :=
    parse_spec host argv hbuilt.fresh.parsed memory
  · have hregistered : Registered (started cli argv) := by
      obtain ⟨hoptions, hdistinct, hpositionals, hinOrder⟩ := hbuilt.registered
      exact ⟨hoptions, hdistinct, hpositionals, hinOrder⟩
    have hfilled : Filled (started cli argv) 0 := by
      obtain ⟨hnext, hcounts⟩ := filled_of_fresh hbuilt.fresh
      exact ⟨hnext, hcounts⟩
    obtain ⟨hregistered', hfilled'⟩ := Filled.performAll ⟨started cli argv, memory, 0, 0⟩ rfl
      hregistered hfilled hfits hall
    have hclear := (performAll_accepted rfl hfits hall).1
    have hrequired : requiredCount session.cli = requiredCount cli := by
      rw [← requiredCount_clear, hclear, requiredCount_clear]
      rfl
    have hnone : NoneRejected host cli memory argv := congrArg Prod.fst hall
    obtain ⟨hiff, hnames⟩ := finish_missing hregistered' hfilled'
    rw [hrequired] at hiff
    refine ⟨_, session, hparse, hiff.trans ⟨fun h => ⟨hnone, h⟩, fun h => h.2⟩, fun hcode => ?_⟩
    obtain ⟨item, hitem, hzero, hname⟩ := hnames hcode
    refine ⟨item, hitem, hzero, fun earlier hmem => ?_, hname⟩
    obtain ⟨j, hj, rfl⟩ := List.mem_take_iff_getElem.1 hmem
    have hcounts := hfilled'.counts j _ (List.getElem?_eq_getElem (by omega))
    rw [ne_eq, hcounts]
    omega
  · have hearly : Early answer := performAll_early (items_early _ _ _ _ _) hall
    refine ⟨answer, session, hparse, ⟨fun hcode => absurd hcode hearly, fun h => ?_⟩,
      fun hcode => absurd hcode hearly⟩
    have hnone : (performAll host ⟨started cli argv, memory, 0, 0⟩
        (commandLine host.convert cli argv)).1 = none := h.1
    rw [hall] at hnone
    cases hnone

/-- However registration goes, the parser that it leaves behind is unambiguous, a call that fails
changes none of its lists, and a parse that rejects nothing and misses no option misses a positional
exactly where fewer were consumed than are required: the first that is not filled. -/
theorem registration_stays_unambiguous (programName : Option Bytes)
    (calls : List (Call × Allocations)) :
    ∃ cli, register (init programName) calls = cli ∧ Unambiguous cli ∧
      (∀ call allocations, (Call.perform allocations cli call).1 ≠ .ok →
        (Call.perform allocations cli call).2 = cli) ∧
      ∀ (host : Host D) (memory : Memory D) (argv : List (Option Bytes)),
        ∃ answer session, parse host cli memory argv = some (answer, session) ∧
          (answer.code = .missingPositional ↔ NoneRejected host cli memory argv ∧
            (∀ option ∈ session.cli.options, option.spec.required → option.occurrences ≠ 0) ∧
              consumedCount session.cli < requiredCount cli) ∧
          (answer.code = .missingPositional →
            ∃ item, session.cli.positionals[consumedCount session.cli]? = some item ∧
              item.occurrences = 0 ∧
              (∀ earlier ∈ session.cli.positionals.take (consumedCount session.cli),
                earlier.occurrences ≠ 0) ∧
              answer = result .missingPositional (-1) [] item.spec.name) := by
  have hbuilt : Built (register (init programName) calls) :=
    register_built calls (.init programName)
  exact ⟨_, rfl, unambiguous_of_registered hbuilt.registered,
    fun call allocations => call.failed allocations _, parse_missing hbuilt⟩

/-- A parser with one positional, a number that is required, and no options. -/
def numberCalls : List (Call × Allocations) :=
  [(.positionalInt ⟨some [110], true⟩ 1, ⟨.ok, .ok⟩)]

def numberHost : Host ℤ := ⟨⟨decimal, decimal⟩, fun _ => true⟩

/-- Given the text `x`, it reports that and not that the number is missing. -/
theorem rejected_positional_is_not_missing : ∃ cli answer session,
    register (init none) numberCalls = cli ∧ cli.options = [] ∧
      parse numberHost cli zeroMemory [none, some [120]] = some (answer, session) ∧
      answer.code = .invalidValue ∧
      ¬(answer.code = .missingPositional ↔ consumedCount session.cli < requiredCount cli) := by
  refine ⟨_, _, _, rfl, rfl, rfl, rfl, fun h => ?_⟩
  have hfew : (0 : ℕ) < 1 := by decide
  cases h.2 hfew

end Liblor.CliArgv
