import Liblor.CliItems
import Liblor.CliRoundTrip

/-!
# Registration

The functions that register options and positionals, on a machine whose allocations may fail. A call
that fails leaves the registry alone, and what all calls make of it is one that `Built` admits.
-/

namespace Liblor.CliArgv

open Cli

/-- How the allocations of a call end: that of the default text, `ok` if none is wanted, and that of
the list. -/
structure Allocations where
  defaultText : Status
  list : Status

def captureDefault (kind : LorCliValueKind) (defaultText : Status) : Status :=
  match kind with
  | .string => defaultText
  | .int => defaultText
  | .double => defaultText
  | _ => .ok

def addOption (allocations : Allocations) (cli : LorCli) (option : LorCliOption)
    (kind : LorCliValueKind) (destination : ℕ) : Status × LorCli :=
  if destination = 0 ∨ cli.parsed ∨ (option.shortName = 0 ∧ option.longName = none) ∨
      shortNameValid option.shortName = false ∨ option.longName.any (!longNameValid ·) ∨
      optionConflicts cli option then
    (.invalidArgument, cli)
  else
    let option := if kind = .count then { option with repeatable := true } else option
    let option := if kind = .strings ∨ kind = .ints ∨ kind = .doubles then
      { option with repeatable := true } else option
    let status := captureDefault kind allocations.defaultText
    if status ≠ .ok then (status, cli)
    else if allocations.list ≠ .ok then (allocations.list, cli)
    else (.ok, { cli with options := cli.options ++ [⟨option, kind, destination, 0⟩] })

def simpleOption (shortName : UInt8) (longName : Option Bytes) : LorCliOption :=
  ⟨shortName, longName, false, false⟩

def addFlagOption (allocations : Allocations) (cli : LorCli) (option : LorCliOption)
    (destination : ℕ) : Status × LorCli := addOption allocations cli option .flag destination

def addCountOption (allocations : Allocations) (cli : LorCli) (option : LorCliOption)
    (destination : ℕ) : Status × LorCli := addOption allocations cli option .count destination

def addStringOption (allocations : Allocations) (cli : LorCli) (option : LorCliOption)
    (destination : ℕ) : Status × LorCli := addOption allocations cli option .string destination

def addIntOption (allocations : Allocations) (cli : LorCli) (option : LorCliOption)
    (destination : ℕ) : Status × LorCli := addOption allocations cli option .int destination

def addDoubleOption (allocations : Allocations) (cli : LorCli) (option : LorCliOption)
    (destination : ℕ) : Status × LorCli := addOption allocations cli option .double destination

def addFlag (allocations : Allocations) (cli : LorCli) (shortName : UInt8)
    (longName : Option Bytes) (destination : ℕ) : Status × LorCli :=
  addFlagOption allocations cli (simpleOption shortName longName) destination

def addCount (allocations : Allocations) (cli : LorCli) (shortName : UInt8)
    (longName : Option Bytes) (destination : ℕ) : Status × LorCli :=
  addCountOption allocations cli { simpleOption shortName longName with repeatable := true }
    destination

def addString (allocations : Allocations) (cli : LorCli) (shortName : UInt8)
    (longName : Option Bytes) (destination : ℕ) : Status × LorCli :=
  addStringOption allocations cli (simpleOption shortName longName) destination

def addInt (allocations : Allocations) (cli : LorCli) (shortName : UInt8)
    (longName : Option Bytes) (destination : ℕ) : Status × LorCli :=
  addIntOption allocations cli (simpleOption shortName longName) destination

def addDouble (allocations : Allocations) (cli : LorCli) (shortName : UInt8)
    (longName : Option Bytes) (destination : ℕ) : Status × LorCli :=
  addDoubleOption allocations cli (simpleOption shortName longName) destination

/-- The options of lists; `fresh` tells whether the destination still holds `NULL`. -/
def addListOption (allocations : Allocations) (cli : LorCli) (option : LorCliOption)
    (kind : LorCliValueKind) (destination : ℕ) (fresh : Bool) : Status × LorCli :=
  if destination = 0 ∨ fresh = false then (.invalidArgument, cli)
  else addOption allocations cli option kind destination

def addStringsOption (allocations : Allocations) (cli : LorCli) (option : LorCliOption)
    (destination : ℕ) (fresh : Bool) : Status × LorCli :=
  addListOption allocations cli option .strings destination fresh

def addIntsOption (allocations : Allocations) (cli : LorCli) (option : LorCliOption)
    (destination : ℕ) (fresh : Bool) : Status × LorCli :=
  addListOption allocations cli option .ints destination fresh

def addDoublesOption (allocations : Allocations) (cli : LorCli) (option : LorCliOption)
    (destination : ℕ) (fresh : Bool) : Status × LorCli :=
  addListOption allocations cli option .doubles destination fresh

def addPositional (allocations : Allocations) (cli : LorCli) (positional : LorCliPositional)
    (kind : LorCliValueKind) (destination : ℕ) : Status × LorCli :=
  if destination = 0 ∨ cli.parsed ∨ positional.name = none ∨ positional.name = some [] ∨
      hasRest cli then
    (.invalidArgument, cli)
  else if positional.required ∧ cli.positionals.getLast?.any (!·.spec.required) then
    (.invalidArgument, cli)
  else if allocations.list ≠ .ok then (allocations.list, cli)
  else (.ok, { cli with positionals := cli.positionals ++ [⟨positional, kind, destination, 0⟩] })

def addPositionalString (allocations : Allocations) (cli : LorCli) (positional : LorCliPositional)
    (destination : ℕ) : Status × LorCli :=
  addPositional allocations cli positional .string destination

def addPositionalInt (allocations : Allocations) (cli : LorCli) (positional : LorCliPositional)
    (destination : ℕ) : Status × LorCli :=
  addPositional allocations cli positional .int destination

def addPositionalDouble (allocations : Allocations) (cli : LorCli) (positional : LorCliPositional)
    (destination : ℕ) : Status × LorCli :=
  addPositional allocations cli positional .double destination

def addPositionals (allocations : Allocations) (cli : LorCli) (name : Option Bytes)
    (destination : ℕ) (fresh : Bool) : Status × LorCli :=
  if destination = 0 ∨ fresh = false then (.invalidArgument, cli)
  else addPositional allocations cli ⟨name, false⟩ .positionals destination

/-- A call of one of the `lor_cli_add_` functions. -/
inductive Call where
  | flag (shortName : UInt8) (longName : Option Bytes) (destination : ℕ)
  | count (shortName : UInt8) (longName : Option Bytes) (destination : ℕ)
  | string (shortName : UInt8) (longName : Option Bytes) (destination : ℕ)
  | int (shortName : UInt8) (longName : Option Bytes) (destination : ℕ)
  | double (shortName : UInt8) (longName : Option Bytes) (destination : ℕ)
  | flagOption (option : LorCliOption) (destination : ℕ)
  | countOption (option : LorCliOption) (destination : ℕ)
  | stringOption (option : LorCliOption) (destination : ℕ)
  | intOption (option : LorCliOption) (destination : ℕ)
  | doubleOption (option : LorCliOption) (destination : ℕ)
  | stringsOption (option : LorCliOption) (destination : ℕ) (fresh : Bool)
  | intsOption (option : LorCliOption) (destination : ℕ) (fresh : Bool)
  | doublesOption (option : LorCliOption) (destination : ℕ) (fresh : Bool)
  | positionalString (positional : LorCliPositional) (destination : ℕ)
  | positionalInt (positional : LorCliPositional) (destination : ℕ)
  | positionalDouble (positional : LorCliPositional) (destination : ℕ)
  | positionals (name : Option Bytes) (destination : ℕ) (fresh : Bool)

def Call.perform (allocations : Allocations) (cli : LorCli) : Call → Status × LorCli
  | flag shortName longName destination => addFlag allocations cli shortName longName destination
  | count shortName longName destination => addCount allocations cli shortName longName destination
  | string shortName longName destination =>
    addString allocations cli shortName longName destination
  | int shortName longName destination => addInt allocations cli shortName longName destination
  | double shortName longName destination =>
    addDouble allocations cli shortName longName destination
  | flagOption option destination => addFlagOption allocations cli option destination
  | countOption option destination => addCountOption allocations cli option destination
  | stringOption option destination => addStringOption allocations cli option destination
  | intOption option destination => addIntOption allocations cli option destination
  | doubleOption option destination => addDoubleOption allocations cli option destination
  | stringsOption option destination fresh =>
    addStringsOption allocations cli option destination fresh
  | intsOption option destination fresh => addIntsOption allocations cli option destination fresh
  | doublesOption option destination fresh =>
    addDoublesOption allocations cli option destination fresh
  | positionalString positional destination =>
    addPositionalString allocations cli positional destination
  | positionalInt positional destination => addPositionalInt allocations cli positional destination
  | positionalDouble positional destination =>
    addPositionalDouble allocations cli positional destination
  | positionals name destination fresh => addPositionals allocations cli name destination fresh

/-- The parser that a sequence of calls leaves behind. -/
def register (cli : LorCli) (calls : List (Call × Allocations)) : LorCli :=
  calls.foldl (fun cli call => (call.1.perform call.2 cli).2) cli

variable {allocations : Allocations} {cli : LorCli} {kind : LorCliValueKind} {destination : ℕ}

/-- A call fails and changes nothing, or it succeeds as one that `Built` admits. -/
inductive Registers (cli : LorCli) : Status × LorCli → Prop where
  | refused {status : Status} (h : status ≠ .ok) : Registers cli (status, cli)
  | added {cli' : LorCli} (h : Built cli → Built cli') : Registers cli (.ok, cli')

theorem addOption_registers (allocations : Allocations) (cli : LorCli) (option : LorCliOption)
    (hkind : kind.isOption) (destination : ℕ) :
    Registers cli (addOption allocations cli option kind destination) := by
  have hbuilt : ∀ {cli'}, Cli.addOption cli option kind destination = (.ok, cli') →
      Built cli → Built cli' := fun h hcli => .option hcli hkind h
  unfold addOption
  unfold Cli.addOption at hbuilt
  by_cases hbad : destination = 0 ∨ cli.parsed ∨ (option.shortName = 0 ∧ option.longName = none) ∨
      shortNameValid option.shortName = false ∨ option.longName.any (!longNameValid ·) ∨
      optionConflicts cli option
  · rw [if_pos hbad]
    exact .refused (by decide)
  rw [if_neg hbad] at hbuilt ⊢
  dsimp only
  by_cases hcapture : captureDefault kind allocations.defaultText = .ok
  · rw [if_neg (not_not.2 hcapture)]
    by_cases hlist : allocations.list = .ok
    · rw [if_neg (not_not.2 hlist)]
      exact .added (hbuilt rfl)
    · rw [if_pos hlist]
      exact .refused hlist
  · rw [if_pos hcapture]
    exact .refused hcapture

theorem addListOption_registers (allocations : Allocations) (cli : LorCli) (option : LorCliOption)
    (hkind : kind.isOption) (destination : ℕ) (fresh : Bool) :
    Registers cli (addListOption allocations cli option kind destination fresh) := by
  unfold addListOption
  split_ifs
  · exact .refused (by decide)
  · exact addOption_registers allocations cli option hkind destination

theorem addPositional_registers (allocations : Allocations) (cli : LorCli)
    (positional : LorCliPositional) (destination : ℕ)
    (hbuilt : ∀ {cli'}, Cli.addPositional cli positional kind destination = (.ok, cli') →
      Built cli → Built cli') :
    Registers cli (addPositional allocations cli positional kind destination) := by
  unfold addPositional
  unfold Cli.addPositional at hbuilt
  split_ifs at hbuilt ⊢
  · exact .refused (by decide)
  · exact .refused (by decide)
  · exact .refused ‹_›
  · exact .added (hbuilt rfl)

theorem addScalar_registers (allocations : Allocations) (cli : LorCli)
    (positional : LorCliPositional) (hkind : kind.isScalar) (destination : ℕ) :
    Registers cli (addPositional allocations cli positional kind destination) :=
  addPositional_registers allocations cli positional destination
    fun h hcli => .positional hcli hkind h

theorem Call.registers (allocations : Allocations) (cli : LorCli) (call : Call) :
    Registers cli (call.perform allocations cli) := by
  cases call with
  | positionalString positional destination => exact addScalar_registers _ _ _ rfl _
  | positionalInt positional destination => exact addScalar_registers _ _ _ rfl _
  | positionalDouble positional destination => exact addScalar_registers _ _ _ rfl _
  | positionals name destination fresh =>
    unfold perform addPositionals
    dsimp only
    split_ifs
    · exact .refused (by decide)
    · exact addPositional_registers _ _ _ _ fun h hcli => .rest hcli h
  | stringsOption option destination fresh => exact addListOption_registers _ _ _ rfl _ _
  | intsOption option destination fresh => exact addListOption_registers _ _ _ rfl _ _
  | doublesOption option destination fresh => exact addListOption_registers _ _ _ rfl _ _
  | _ => exact addOption_registers _ _ _ rfl _

theorem Call.failed (allocations : Allocations) (cli : LorCli) (call : Call)
    (h : (call.perform allocations cli).1 ≠ .ok) : (call.perform allocations cli).2 = cli := by
  have hregisters := call.registers allocations cli
  generalize call.perform allocations cli = outcome at h hregisters
  cases hregisters with
  | refused _ => rfl
  | added _ => exact absurd rfl h

theorem Call.built (allocations : Allocations) (call : Call) (h : Built cli) :
    Built (call.perform allocations cli).2 := by
  have hregisters := call.registers allocations cli
  generalize call.perform allocations cli = outcome at hregisters
  cases hregisters with
  | refused _ => exact h
  | added hadded => exact hadded h

theorem register_built (calls : List (Call × Allocations)) (h : Built cli) :
    Built (register cli calls) := by
  induction calls generalizing cli with
  | nil => exact h
  | cons call calls ih => exact ih (call.1.built call.2 h)

/-! ## Names and order -/

def requiredCount (cli : LorCli) : ℕ := cli.positionals.countP (·.spec.required)

/-- A byte that the parser takes for a part of a name. -/
def NameByte (byte : UInt8) : Prop := byte ≠ 61 ∧ isSpace byte = false

/-- No name stands for two options, or for anything but an option; the positionals that are required
come first, and a trailing list comes last. -/
structure Unambiguous (cli : LorCli) : Prop where
  shortNames : ((cli.options.map (·.spec.shortName)).filter (· ≠ 0)).Nodup
  longNames : (cli.options.filterMap (·.spec.longName)).Nodup
  short : ∀ option ∈ cli.options, option.spec.shortName ≠ 0 →
    option.spec.shortName ≠ 104 ∧ option.spec.shortName ≠ 45 ∧ NameByte option.spec.shortName
  long : ∀ option ∈ cli.options, ∀ name, option.spec.longName = some name →
    name ≠ [] ∧ name ≠ helpName ∧ name.head? ≠ some 45 ∧ ∀ byte ∈ name, NameByte byte
  required : ∀ (i : ℕ) (item : LorCliPositionalInternal), cli.positionals[i]? = some item →
    (item.spec.required ↔ i < requiredCount cli)
  trailing : ∀ (i : ℕ) (item : LorCliPositionalInternal), cli.positionals[i]? = some item →
    item.kind = .positionals → i + 1 = cli.positionals.length

theorem required_iff {items : List LorCliPositionalInternal} (h : items.Pairwise InOrder) {i : ℕ}
    {item : LorCliPositionalInternal} (hitem : items[i]? = some item) :
    item.spec.required ↔ i < items.countP (·.spec.required) := by
  constructor
  · intro hrequired
    exact (countP_le_iff h (items.countP (·.spec.required))).1 le_rfl i item hitem hrequired
  · intro hlt
    by_contra hoptional
    -- nothing behind an optional positional is required
    have hle : items.countP (·.spec.required) ≤ i := by
      rw [countP_le_iff h]
      intro j other hother hrequired
      by_contra hge
      rcases Nat.lt_or_eq_of_le (Nat.le_of_not_lt hge) with hij | rfl
      · exact hoptional ((pairwise_getElem? h hij hitem hother).2 hrequired)
      · rw [hitem] at hother
        cases hother
        exact hoptional hrequired
    omega

theorem unambiguous_of_registered (h : Registered cli) : Unambiguous cli where
  shortNames := by
    unfold List.Nodup
    rw [List.pairwise_filter, List.pairwise_map]
    refine h.distinct.imp fun hdistinct hne _ heq => ?_
    exact of_decide_eq_true hne (hdistinct.2 heq)
  longNames := by
    unfold List.Nodup
    rw [List.pairwise_filterMap]
    refine h.distinct.imp fun hdistinct name hname name' hname' heq => ?_
    rw [heq, ← hname'] at hname
    rw [hdistinct.1 hname] at hname
    rw [← hname] at hname'
    cases hname'
  short := by
    intro option hmem hne
    have hvalid := (h.options option hmem).short
    unfold shortNameValid at hvalid
    simp only [beq_eq_false_iff_ne.2 hne, Bool.false_or, Bool.and_eq_true, bne_iff_ne, ne_eq,
      Bool.not_eq_true'] at hvalid
    exact ⟨hvalid.1.1.1, hvalid.1.1.2, hvalid.1.2, hvalid.2⟩
  long := by
    intro option hmem name hname
    have hvalid := (h.options option hmem).long name hname
    cases name with
    | nil => cases hvalid
    | cons first rest =>
      simp only [longNameValid, Bool.and_eq_true, bne_iff_ne, ne_eq, List.all_eq_true,
        Bool.not_eq_true'] at hvalid
      refine ⟨List.cons_ne_nil _ _, hvalid.2, ?_, hvalid.1.2⟩
      intro hhead
      exact hvalid.1.1 (Option.some.inj hhead)
  required := fun i item hitem => required_iff h.inOrder hitem
  trailing := fun i item hitem hkind => (h.rest_last hitem hkind).1

end Liblor.CliArgv
