import Liblor.CliRoundTrip
import Liblor.CliLedger

/-!
# Options among positionals

Command lines of options in their long form and of arguments that no option can be. All of them that
interleave the same options and the same positionals are accepted together, and leave the same
behind.
-/

namespace Liblor.CliArgv

open Cli CommutingSteps

variable {D : Type} {host : Host D} {convert : Converters D} {cli : LorCli}

/-- `--name=text`, or `--name` where no registered option of this name takes a value. -/
def LongElement (cli : LorCli) (token : Bytes) : Prop :=
  ∃ name, token = 45 :: 45 :: name ∧ name ≠ [] ∧
    (61 ∈ name ∨ ∀ found, cli.findLong name = some found → found.2.kind.bare)

def PositionalElement (token : Bytes) : Prop := token.head? ≠ some 45 ∨ token = [45]

/-- The occurrence that a long option stands for. -/
def longItem (cli : LorCli) (i : ℕ) (token : Bytes) : Item :=
  if token = 45 :: 45 :: helpName then .stop (result .helpRequested i token (some helpName))
  else
    let name := token.drop 2
    let equals := name.idxOf? 61
    match cli.findLong (name.take (equals.getD name.length)) with
    | none => .stop (result .unknownOption i token none)
    | some found => .option i token found.1 (equals.map fun equals => name.drop (equals + 1))

/-- What an element of such a line makes of a ledger. -/
def Ledger.element (convert : Converters D) (cli : LorCli) (ledger : Ledger D) (token : Bytes) :
    Option (Ledger D) :=
  if token.head? = some 45 ∧ token.tail ≠ [] then (longItem cli 0 token).post convert ledger
  else ledger.positional convert token

section Elements

variable {registry : LorCli} {token : Bytes}

theorem longItems_eq (hlong : LongElement cli token) (hhelp : token ≠ 45 :: 45 :: helpName) (i : ℕ)
    (next : List (Option Bytes)) :
    longItems cli.clear i token next = ([longItem cli i token], 0) := by
  obtain ⟨name, rfl, -, hvalue⟩ := hlong
  have hdrop : List.drop 2 (45 :: 45 :: name) = name := rfl
  unfold longItems longItem
  rw [if_neg hhelp, hdrop]
  dsimp only
  rw [findLong_clear]
  cases hfound : cli.findLong (name.take ((name.idxOf? 61).getD name.length)) with
  | none => rfl
  | some found =>
    have hattached : ¬((name.idxOf? 61).map (fun equals => name.drop (equals + 1)) = none ∧
        found.2.clear.kind.bare = false) := by
      rintro ⟨hnone, hbare⟩
      rw [Option.map_eq_none_iff] at hnone
      rcases hvalue with hmem | hkind
      · rw [List.idxOf?_eq_none_iff] at hnone
        exact hnone hmem
      · rw [hnone, Option.getD_none, List.take_length] at hfound
        have htrue := hkind found hfound
        change found.2.kind.bare = false at hbare
        rw [hbare] at htrue
        cases htrue
    exact if_neg hattached

/-- Where a long option stands, it is read as one occurrence that takes no argument beside it. -/
theorem readArgument_long
    (hdashes : ∀ text, parseInt convert (45 :: 45 :: text) = none ∧
      parseDouble convert (45 :: 45 :: text) = none)
    (hlong : LongElement cli token) (positionalIndex i : ℕ) (next : List (Option Bytes)) :
    readArgument convert cli.clear positionalIndex true i (some token) next =
      ⟨[longItem cli i token], 0, positionalIndex, true⟩ := by
  have hitems : token ≠ 45 :: 45 :: helpName →
      longItems cli.clear i token next = ([longItem cli i token], 0) :=
    fun hhelp => longItems_eq hlong hhelp i next
  obtain ⟨name, rfl, hne, -⟩ := hlong
  have hnumeric : positionalNumeric convert cli.clear positionalIndex (45 :: 45 :: name) =
    false := by
    unfold positionalNumeric
    split
    · rfl
    · rw [(hdashes name).1, (hdashes name).2]
      split_ifs <;> rfl
  have hseparator : (45 : UInt8) :: 45 :: name ≠ [45, 45] := by
    intro heq
    cases heq
    exact hne rfl
  unfold readArgument
  dsimp only
  rw [hnumeric, if_neg fun h => hseparator h.2]
  by_cases hhelp : (45 : UInt8) :: 45 :: name = 45 :: 45 :: helpName
  · rw [if_pos ⟨rfl, Or.inr hhelp⟩, longItem, if_pos hhelp]
  · rw [if_neg, if_neg, if_pos ⟨rfl, rfl, rfl⟩, hitems hhelp]
    · rintro ⟨-, -, -, hfalse⟩
      cases hfalse
    · rintro ⟨-, hshort | hlong⟩
      · cases hshort
      · exact hhelp hlong

theorem readArgument_positional (hpositional : PositionalElement token) (positionalIndex i : ℕ)
    (next : List (Option Bytes)) :
    readArgument convert cli positionalIndex true i (some token) next =
      ⟨[.positional i token positionalIndex], 0, advance cli positionalIndex, true⟩ := by
  have hnot : ¬(token.head? = some 45 ∧ token.tail ≠ []) := by
    rintro ⟨hhead, htail⟩
    rcases hpositional with hother | rfl
    · exact hother hhead
    · exact htail rfl
  unfold readArgument
  dsimp only
  rw [if_neg, if_neg, if_neg, if_neg, if_neg]
  · exact fun h => hnot h.2
  · rintro ⟨-, hhead, hsecond⟩
    refine hnot ⟨hhead, ?_⟩
    intro hnil
    rw [hnil] at hsecond
    cases hsecond
  · exact fun h => hnot ⟨h.2.1, h.2.2.1⟩
  · rintro ⟨-, rfl | rfl⟩
    · exact hnot ⟨rfl, List.cons_ne_nil _ _⟩
    · exact hnot ⟨rfl, List.cons_ne_nil _ _⟩
  · rintro ⟨-, rfl⟩
    exact hnot ⟨rfl, List.cons_ne_nil _ _⟩

theorem longItem_post (convert : Converters D) (cli : LorCli) (token : Bytes) :
    (∀ i ledger, (longItem cli i token).post convert ledger = none) ∨
      ∃ index value, ∀ i ledger,
        (longItem cli i token).post convert ledger = ledger.option convert index value := by
  unfold longItem
  by_cases hhelp : token = 45 :: 45 :: helpName
  · simp only [if_pos hhelp]
    exact Or.inl fun _ _ => rfl
  · simp only [if_neg hhelp]
    cases cli.findLong _ with
    | none => exact Or.inl fun _ _ => rfl
    | some found => exact Or.inr ⟨_, _, fun _ _ => rfl⟩

theorem longItem_post_index (i : ℕ) (ledger : Ledger D) :
    (longItem cli i token).post convert ledger = (longItem cli 0 token).post convert ledger := by
  rcases longItem_post convert cli token with hnone | ⟨index, value, hoption⟩
  · rw [hnone, hnone]
  · rw [hoption, hoption]

theorem element_long (hlong : LongElement cli token) (ledger : Ledger D) :
    ledger.element convert cli token = (longItem cli 0 token).post convert ledger := by
  obtain ⟨name, rfl, -, -⟩ := hlong
  exact if_pos ⟨rfl, List.cons_ne_nil _ _⟩

theorem element_positional (hpositional : PositionalElement token) (ledger : Ledger D) :
    ledger.element convert cli token = ledger.positional convert token := by
  refine if_neg ?_
  rintro ⟨hhead, htail⟩
  rcases hpositional with hother | rfl
  · exact hother hhead
  · exact htail rfl

theorem element_keeps (ledger : Ledger D) (token : Bytes) (ledger' : Ledger D)
    (hseparate : ledger.Separate) (h : ledger.element convert cli token = some ledger') :
    ledger'.Separate := by
  unfold Ledger.element at h
  split_ifs at h
  · rcases longItem_post convert cli token with hnone | ⟨index, value, hoption⟩
    · rw [hnone] at h
      cases h
    · rw [hoption] at h
      exact hseparate.option h
  · exact hseparate.positional h

theorem element_swap {token' : Bytes} (hlong : LongElement cli token)
    (hpositional : PositionalElement token') :
    Swap (Ledger.element (D := D) convert cli) Ledger.Separate token token' := by
  intro ledger hseparate
  simp only [element_long hlong, element_positional hpositional]
  rcases longItem_post convert cli token with hnone | ⟨index, value, hoption⟩
  · simp only [hnone, Option.bind_none]
    cases ledger.positional convert token' <;> rfl
  · simp only [hoption]
    exact Ledger.option_positional hseparate index value token'

variable (cli) in
theorem items_element
    (hdashes : ∀ text, parseInt convert (45 :: 45 :: text) = none ∧
      parseDouble convert (45 :: 45 :: text) = none)
    {line : List Bytes} (hline : ∀ token ∈ line, LongElement cli token ∨ PositionalElement token)
    (positionalIndex i : ℕ) (ledger : Ledger D) :
    (items convert cli.clear positionalIndex true i 0 (line.map some)).foldlM (Item.post convert)
        ledger =
      line.foldlM (Ledger.element convert cli) ledger := by
  induction line generalizing positionalIndex i ledger with
  | nil => rfl
  | cons token line ih =>
    have hrest := ih fun token' hmem => hline token' (List.mem_cons_of_mem _ hmem)
    rw [List.map_cons, items, foldlM_cons]
    rcases hline token List.mem_cons_self with hlong | hpositional
    · rw [readArgument_long hdashes hlong, element_long hlong, ← longItem_post_index i]
      exact Option.bind_congr fun ledger' _ => hrest _ _ ledger'
    · rw [readArgument_positional hpositional, element_positional hpositional]
      exact Option.bind_congr fun ledger' _ => hrest _ _ ledger'

end Elements

section Runs

theorem finish_congr {cli' : LorCli} (hoptions : cli.options = cli'.options)
    (hpositionals : cli.positionals = cli'.positionals) : finish cli = finish cli' := by
  unfold finish
  rw [hoptions, hpositionals]

def ledgerOf (cli : LorCli) (memory : Memory D) : Ledger D :=
  ⟨cli.options, cli.positionals, memory, 0⟩

/-- A parse of such a line succeeds where its elements can be posted and nothing is missing. -/
theorem parse_element (hpush : ∀ n, host.push n = true)
    (hdashes : ∀ text, parseInt host.convert (45 :: 45 :: text) = none ∧
      parseDouble host.convert (45 :: 45 :: text) = none)
    (hparsed : cli.parsed = false) (memory : Memory D) {line : List Bytes}
    (hline : ∀ token ∈ line, LongElement cli token ∨ PositionalElement token)
    (program : Option Bytes) :
    ∃ result session, parse host cli memory (program :: line.map some) = some (result, session) ∧
      (result.code = .ok ↔
        ∃ ledger,
          line.foldlM (Ledger.element host.convert cli) (ledgerOf cli memory) = some ledger ∧
          (finish { cli with options := ledger.options, positionals := ledger.positionals }).code =
            .ok) ∧
      (result.code = .ok →
        line.foldlM (Ledger.element host.convert cli) (ledgerOf cli memory) =
          some session.ledger) := by
  have hitems : (commandLine host.convert cli (program :: line.map some)).foldlM
      (Item.post host.convert) (ledgerOf cli memory) =
        line.foldlM (Ledger.element host.convert cli) (ledgerOf cli memory) :=
    items_element (started cli (program :: line.map some)) hdashes hline 0 1 _
  obtain ⟨outcome, session', hperformed, hpost⟩ := performAll_post
    ⟨started cli (program :: line.map some), memory, 0, 0⟩ hpush
    (commandLine host.convert cli (program :: line.map some))
  have hledger : line.foldlM (Ledger.element host.convert cli) (ledgerOf cli memory) =
      if outcome = none then some session'.ledger else none := hitems.symm.trans hpost
  obtain ⟨result, session, hparse, ⟨hall, rfl⟩ | hall⟩ :=
    parse_spec host (program :: line.map some) hparsed memory
  · rw [hall] at hperformed
    cases hperformed
    rw [if_pos rfl] at hledger
    refine ⟨_, _, hparse, ?_, fun _ => hledger⟩
    have hfinish : finish session'.cli = finish { cli with
        options := session'.ledger.options, positionals := session'.ledger.positionals } :=
      finish_congr rfl rfl
    constructor
    · intro hok
      exact ⟨_, hledger, by rw [← hfinish]; exact hok⟩
    · rintro ⟨ledger, hsome, hok⟩
      rw [hledger] at hsome
      cases hsome
      rw [hfinish]
      exact hok
  · rw [hall] at hperformed
    cases hperformed
    rw [if_neg (Option.some_ne_none _)] at hledger
    obtain ⟨final, hfits⟩ := fitsAll_commandLine host.convert cli (program :: line.map some)
    obtain ⟨_, _, _, _, -, -, -, hcode, -⟩ := performAll_rejected rfl hfits hall
    refine ⟨_, _, hparse, ⟨fun hok => absurd hok hcode, ?_⟩, fun hok => absurd hok hcode⟩
    rintro ⟨ledger, hsome, -⟩
    rw [hledger] at hsome
    cases hsome

end Runs

/-- Interleave the same long options and the same positionals in two ways: both command lines are
accepted or none is, and accepted they leave the same in every destination. -/
theorem options_commute_with_positionals (host : Host D) (hpush : ∀ n, host.push n = true)
    (hdashes : ∀ text, parseInt host.convert (45 :: 45 :: text) = none ∧
      parseDouble host.convert (45 :: 45 :: text) = none)
    (cli : LorCli)
    (hdistinct : (cli.options.map (·.destination) ++ cli.positionals.map (·.destination)).Nodup)
    (memory : Memory D) {options positionals line line' : List Bytes}
    (hoptions : ∀ token ∈ options, LongElement cli token)
    (hpositionals : ∀ token ∈ positionals, PositionalElement token)
    (hline : Interleaves options positionals line) (hline' : Interleaves options positionals line')
    (program program' : Option Bytes) :
    ∃ result session result' session',
      parse host cli memory (program :: line.map some) = some (result, session) ∧
      parse host cli memory (program' :: line'.map some) = some (result', session') ∧
      (result.code = .ok ↔ result'.code = .ok) ∧
      (result.code = .ok → session.memory = session'.memory) := by
  cases hparsed : cli.parsed with
  | true =>
    have hrefused : ∀ argv, parse host cli memory argv =
        some (result .invalidState (-1) [] none, ⟨cli, memory, 0, 0⟩) := fun argv => if_pos hparsed
    exact ⟨_, _, _, _, hrefused _, hrefused _, Iff.rfl, fun _ => rfl⟩
  | false =>
    have hkinds : ∀ {line}, Interleaves options positionals line →
        ∀ token ∈ line, LongElement cli token ∨ PositionalElement token :=
      fun h token hmem => (h.mem hmem).imp (hoptions token) (hpositionals token)
    have hswap : ∀ a ∈ options, ∀ b ∈ positionals,
        Swap (Ledger.element host.convert cli) Ledger.Separate a b :=
      fun a ha b hb => element_swap (hoptions a ha) (hpositionals b hb)
    have hseparate : (ledgerOf cli memory).Separate := hdistinct
    have hsame : line.foldlM (Ledger.element host.convert cli) (ledgerOf cli memory) =
        line'.foldlM (Ledger.element host.convert cli) (ledgerOf cli memory) :=
      (hline.foldlM_eq element_keeps hswap hseparate).trans
        (hline'.foldlM_eq element_keeps hswap hseparate).symm
    obtain ⟨result, session, hparse, hok, hledger⟩ :=
      parse_element hpush hdashes hparsed memory (hkinds hline) program
    obtain ⟨result', session', hparse', hok', hledger'⟩ :=
      parse_element hpush hdashes hparsed memory (hkinds hline') program'
    have hiff : result.code = .ok ↔ result'.code = .ok := by
      rw [hok, hok', hsame]
    refine ⟨result, session, result', session', hparse, hparse', hiff, fun hcode => ?_⟩
    have hequal : some session.ledger = some session'.ledger :=
      (hledger hcode).symm.trans (hsame.trans (hledger' (hiff.1 hcode)))
    exact congrArg Ledger.memory (Option.some.inj hequal)

def verElement : Bytes := [45, 45, 118, 101, 114]

def jobElement : Bytes := [45, 45, 106, 111, 98, 61, 52]

theorem options_commute_with_positionals_files : ∃ result session result' session',
    parse roomyHost filesCli zeroMemory
        [none, some verElement, some [97], some jobElement, some [45]] = some (result, session) ∧
      parse roomyHost filesCli zeroMemory
        [none, some [97], some [45], some verElement, some jobElement] = some (result', session') ∧
      result.code = .ok ∧ result'.code = .ok ∧ session.memory = session'.memory := by
  have hver : LongElement filesCli verElement := by
    refine ⟨[118, 101, 114], rfl, List.cons_ne_nil _ _, Or.inr ?_⟩
    intro found hfound
    have hfirst : filesCli.findLong [118, 101, 114] =
        some (0, ⟨⟨118, some [118, 101, 114], false, true⟩, .count, 1, 0⟩) := by decide
    rw [hfirst] at hfound
    cases hfound
    rfl
  have hjob : LongElement filesCli jobElement :=
    ⟨[106, 111, 98, 61, 52], rfl, List.cons_ne_nil _ _, Or.inl (by decide)⟩
  have hoptions : ∀ token ∈ [verElement, jobElement], LongElement filesCli token := by
    intro token hmem
    rcases List.mem_pair.1 hmem with rfl | rfl
    · exact hver
    · exact hjob
  have hpositionals : ∀ token ∈ [[97], [45]], PositionalElement token := by
    intro token hmem
    rcases List.mem_pair.1 hmem with rfl | rfl
    · exact Or.inl (by decide)
    · exact Or.inr rfl
  obtain ⟨result, session, result', session', hparse, hparse', hiff, hmemory⟩ :=
    options_commute_with_positionals roomyHost (fun _ => rfl) decimal_dashes filesCli (by decide)
      zeroMemory hoptions hpositionals
      (.left (.right (.left (.right .nil)))) (.right (.right (.left (.left .nil)))) none none
  have hcode : (parse roomyHost filesCli zeroMemory
      [none, some verElement, some [97], some jobElement, some [45]]).map
        (fun answer => answer.1.code) = some .ok := by decide
  have hfirst := congrArg (Option.map fun answer => answer.1.code) hparse
  have hok : result.code = .ok := Option.some.inj (hfirst.symm.trans hcode)
  exact ⟨result, session, result', session', hparse, hparse', hok, hiff.1 hok, hmemory hok⟩

end Liblor.CliArgv
