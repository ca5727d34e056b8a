import Liblor.CliRejected
import Liblor.CommutingSteps

/-!
# The ledger of a parse

Where no allocation fails, a parse is a run of partial steps on a `Ledger`, one for every
occurrence. A step of an option and one of a positional may change places if their destinations
differ.
-/

namespace Liblor.CliArgv

open Cli CommutingSteps

variable {D : Type} {host : Host D} {convert : Converters D} {session : Session D} {cli : LorCli}

/-- A text that goes to a destination. -/
structure Entry where
  kind : LorCliValueKind
  destination : ℕ
  text : Bytes

def Entry.pay (convert : Converters D) (memory : Memory D) (entry : Entry) : Option (Memory D) :=
  (deposit convert entry.kind (memory entry.kind.storage entry.destination) entry.text).map
    fun data => memory.write entry.kind.storage entry.destination data

/-- What the option at this index makes of a value, unless it rejects it in any memory. -/
def optionEntry (options : List LorCliOptionInternal) (index : ℕ) (value : Option Bytes) :
    Option Entry := do
  let option ← options[index]?
  if option.occurrences ≠ 0 ∧ option.spec.repeatable = false then none
  else if value.isSome = option.kind.bare then none
  else return ⟨option.kind, option.destination, value.getD []⟩

def positionalEntry (positionals : List LorCliPositionalInternal) (positionalIndex : ℕ)
    (token : Bytes) : Option Entry := do
  let item ← positionals[positionalIndex]?
  if item.kind.bare then none else return ⟨item.kind, item.destination, token⟩

/-- What options and positionals leave to those that follow. -/
structure Ledger (D : Type) where
  options : List LorCliOptionInternal
  positionals : List LorCliPositionalInternal
  memory : Memory D
  positionalIndex : ℕ

def Session.ledger (session : Session D) : Ledger D :=
  ⟨session.cli.options, session.cli.positionals, session.memory, session.positionalIndex⟩

def Ledger.option (convert : Converters D) (ledger : Ledger D) (index : ℕ) (value : Option Bytes) :
    Option (Ledger D) := do
  let entry ← optionEntry ledger.options index value
  let memory ← entry.pay convert ledger.memory
  return { ledger with
    options := ledger.options.modify index fun option =>
      { option with occurrences := option.occurrences + 1 }
    memory := memory }

def Ledger.positional (convert : Converters D) (ledger : Ledger D) (token : Bytes) :
    Option (Ledger D) := do
  let entry ← positionalEntry ledger.positionals ledger.positionalIndex token
  let memory ← entry.pay convert ledger.memory
  return { ledger with
    positionals := ledger.positionals.modify ledger.positionalIndex fun item =>
      { item with occurrences := item.occurrences + 1 }
    memory := memory
    positionalIndex :=
      if entry.kind ≠ .positionals then ledger.positionalIndex + 1 else ledger.positionalIndex }

/-- No two options or positionals share a destination. -/
def Ledger.Separate (ledger : Ledger D) : Prop :=
  (ledger.options.map (·.destination) ++ ledger.positionals.map (·.destination)).Nodup

section Commute

variable {memory : Memory D} {ledger ledger' : Ledger D}

theorem write_comm {a b : ℕ} (hne : a ≠ b) {storage storage' : Storage} (value : storage.Data D)
    (value' : storage'.Data D) :
    (memory.write storage a value).write storage' b value' =
      (memory.write storage' b value').write storage a value := by
  have hrow : ∀ (memory : Memory D) {storage place : Storage} (c : ℕ) (value : storage.Data D),
      place ≠ storage → memory.write storage c value place = memory place :=
    fun _ _ _ _ _ hplace => Function.update_of_ne hplace _ _
  funext place address
  by_cases hb : address = b
  · subst hb
    rw [Memory.write_other value hne.symm]
    by_cases hplace : place = storage'
    · subst hplace
      rw [Memory.write_same, Memory.write_same]
    · rw [hrow _ _ _ hplace, hrow _ _ _ hplace, Memory.write_other value hne.symm]
  · rw [Memory.write_other value' hb]
    by_cases ha : address = a
    · subst ha
      by_cases hplace : place = storage
      · subst hplace
        rw [Memory.write_same, Memory.write_same]
      · rw [hrow _ _ _ hplace, hrow _ _ _ hplace, Memory.write_other value' hb]
    · rw [Memory.write_other value ha, Memory.write_other value ha, Memory.write_other value' hb]

theorem Entry.pay_other {a b : Entry} (hne : a.destination ≠ b.destination)
    (data : a.kind.storage.Data D) :
    b.pay convert (memory.write a.kind.storage a.destination data) =
      (b.pay convert memory).map fun memory => memory.write a.kind.storage a.destination data := by
  unfold Entry.pay
  rw [Memory.write_other data hne.symm]
  cases deposit convert b.kind (memory b.kind.storage b.destination) b.text with
  | none => rfl
  | some data' => exact congrArg some (write_comm hne data data')

theorem Entry.pay_comm {a b : Entry} (hne : a.destination ≠ b.destination) :
    (a.pay convert memory).bind (b.pay convert ·) =
      (b.pay convert memory).bind (a.pay convert ·) := by
  cases ha : deposit convert a.kind (memory a.kind.storage a.destination) a.text with
  | none =>
    have hnone : a.pay convert memory = none := by
      rw [Entry.pay, ha]
      rfl
    rw [hnone]
    cases hb : deposit convert b.kind (memory b.kind.storage b.destination) b.text with
    | none =>
      rw [Entry.pay, hb]
      rfl
    | some data' =>
      rw [Entry.pay, hb]
      change none = a.pay convert _
      rw [Entry.pay_other hne.symm, hnone]
      rfl
  | some data =>
    rw [Entry.pay, ha]
    change b.pay convert _ = _
    rw [Entry.pay_other hne]
    cases hb : deposit convert b.kind (memory b.kind.storage b.destination) b.text with
    | none =>
      rw [Entry.pay, hb]
      rfl
    | some data' =>
      rw [Entry.pay, hb]
      change some _ = a.pay convert _
      rw [Entry.pay_other hne.symm, Entry.pay, ha]
      exact congrArg some (write_comm hne.symm data' data)

theorem optionEntry_destination {options : List LorCliOptionInternal} {index : ℕ}
    {value : Option Bytes} {entry : Entry} (h : optionEntry options index value = some entry) :
    entry.destination ∈ options.map (·.destination) := by
  obtain ⟨option, hoption, hentry⟩ := Option.bind_eq_some_iff.1 h
  split_ifs at hentry
  cases hentry
  exact List.mem_map_of_mem (List.mem_of_getElem? hoption)

theorem positionalEntry_destination {positionals : List LorCliPositionalInternal}
    {positionalIndex : ℕ} {token : Bytes} {entry : Entry}
    (h : positionalEntry positionals positionalIndex token = some entry) :
    entry.destination ∈ positionals.map (·.destination) := by
  obtain ⟨item, hitem, hentry⟩ := Option.bind_eq_some_iff.1 h
  split_ifs at hentry
  cases hentry
  exact List.mem_map_of_mem (List.mem_of_getElem? hitem)

theorem Ledger.option_positional (hseparate : ledger.Separate) (index : ℕ) (value : Option Bytes)
    (token : Bytes) :
    (ledger.option convert index value).bind (fun ledger => ledger.positional convert token) =
      (ledger.positional convert token).bind fun ledger => ledger.option convert index value := by
  obtain ⟨options, positionals, memory, positionalIndex⟩ := ledger
  simp only [Ledger.option, Ledger.positional, Option.bind_eq_bind, Option.pure_def]
  cases ha : optionEntry options index value with
  | none =>
    rw [Option.bind_none, Option.bind_none]
    cases positionalEntry positionals positionalIndex token with
    | none => rfl
    | some b => cases hb : b.pay convert memory <;> simp [ha, hb]
  | some a =>
    cases hb : positionalEntry positionals positionalIndex token with
    | none => cases ha' : a.pay convert memory <;> simp [hb, ha']
    | some b =>
      have hne : a.destination ≠ b.destination :=
        (List.nodup_append.1 hseparate).2.2 _ (optionEntry_destination ha) _
          (positionalEntry_destination hb)
      have hcomm : (a.pay convert memory).bind (b.pay convert ·) =
          (b.pay convert memory).bind (a.pay convert ·) := Entry.pay_comm hne
      cases ha' : a.pay convert memory with
      | none =>
        rw [ha', Option.bind_none] at hcomm
        cases hb' : b.pay convert memory with
        | none => simp [ha', hb']
        | some memory' =>
          rw [hb', Option.bind_some] at hcomm
          simp [ha, ha', hb', ← hcomm]
      | some memory' =>
        rw [ha', Option.bind_some] at hcomm
        cases hb' : b.pay convert memory with
        | none =>
          rw [hb', Option.bind_none] at hcomm
          simp [hb, ha', hb', hcomm]
        | some memory'' =>
          rw [hb', Option.bind_some] at hcomm
          simp [hb, ha, ha', hb', hcomm]

theorem map_modify {α β : Type*} {f : α → β} {g : α → α} (h : ∀ a, f (g a) = f a) (xs : List α)
    (index : ℕ) : (xs.modify index g).map f = xs.map f := by
  induction xs generalizing index with
  | nil => cases index <;> rfl
  | cons a xs ih =>
    cases index with
    | zero => rw [List.modify_zero_cons, List.map_cons, List.map_cons, h]
    | succ index => rw [List.modify_succ_cons, List.map_cons, List.map_cons, ih]

theorem Ledger.Separate.option {index : ℕ} {value : Option Bytes} (hseparate : ledger.Separate)
    (h : ledger.option convert index value = some ledger') : ledger'.Separate := by
  obtain ⟨entry, -, hentry⟩ := Option.bind_eq_some_iff.1 h
  obtain ⟨memory, -, hmemory⟩ := Option.bind_eq_some_iff.1 hentry
  cases hmemory
  unfold Ledger.Separate
  dsimp only
  rw [map_modify (g := fun option : LorCliOptionInternal => { option with
    occurrences := option.occurrences + 1 }) fun _ => rfl]
  exact hseparate

theorem Ledger.Separate.positional {token : Bytes} (hseparate : ledger.Separate)
    (h : ledger.positional convert token = some ledger') : ledger'.Separate := by
  obtain ⟨entry, -, hentry⟩ := Option.bind_eq_some_iff.1 h
  obtain ⟨memory, -, hmemory⟩ := Option.bind_eq_some_iff.1 hentry
  cases hmemory
  unfold Ledger.Separate
  dsimp only
  rw [map_modify (g := fun item : LorCliPositionalInternal => { item with
    occurrences := item.occurrences + 1 }) fun _ => rfl]
  exact hseparate

end Commute

/-! ## The parse as a run on the ledger -/

/-- What an occurrence makes of a ledger, `none` where it is rejected. -/
def Item.post (convert : Converters D) (ledger : Ledger D) : Item → Option (Ledger D)
  | option _ _ index value => ledger.option convert index value
  | positional _ token _ => ledger.positional convert token
  | stop result => if result.code = .ok then some ledger else none

section Post

variable (session) (hpush : ∀ n, host.push n = true)

include hpush in
theorem assignValue_pay {kind : LorCliValueKind} (hkind : kind.bare = false) (destination : ℕ)
    (text : Bytes) :
    ∃ code session', assignValue host session kind destination text = (code, session') ∧
      session'.cli = session.cli ∧ session'.positionalIndex = session.positionalIndex ∧
      Entry.pay host.convert session.memory ⟨kind, destination, text⟩ =
        if code = .ok then some session'.memory else none := by
  obtain ⟨code, session', hassign, hcli, hindex, hcases⟩ :=
    assignValue_cases host session hkind destination text
  refine ⟨code, session', hassign, hcli, hindex, ?_⟩
  unfold Entry.pay
  rcases hcases with ⟨rfl, -, hnone⟩ | ⟨value, hvalue, ⟨rfl, hmemory⟩ | ⟨-, hfull, -⟩⟩
  · rw [hnone]
    rfl
  · rw [hvalue, if_pos rfl, hmemory]
    rfl
  · rw [hpush] at hfull
    contradiction

theorem Entry.pay_count (convert : Converters D) (memory : Memory D) (destination : ℕ) :
    Entry.pay convert memory ⟨.count, destination, []⟩ =
      if (memory .size destination).toNat = sizeMax then none
      else some (memory.write .size destination (memory .size destination + 1)) := by
  change Option.map _ (if (memory .size destination).toNat = sizeMax then none else some _) = _
  split_ifs <;> rfl

/-- An occurrence with an entry is possible if the entry is paid. -/
theorem Ledger.option_of_entry {ledger : Ledger D} {convert : Converters D} {index : ℕ}
    {value : Option Bytes} {entry : Entry}
    (hentry : optionEntry ledger.options index value = some entry) :
    ledger.option convert index value = (entry.pay convert ledger.memory).map fun memory =>
      { ledger with
        options := ledger.options.modify index fun option =>
          { option with occurrences := option.occurrences + 1 }
        memory := memory } := by
  unfold Ledger.option
  rw [hentry, Option.bind_eq_bind, Option.bind_some]
  cases entry.pay convert ledger.memory with
  | none => rfl
  | some memory => rfl

theorem Ledger.option_of_none {ledger : Ledger D} {convert : Converters D} {index : ℕ}
    {value : Option Bytes} (hentry : optionEntry ledger.options index value = none) :
    ledger.option convert index value = none := by
  unfold Ledger.option
  rw [hentry]
  rfl

theorem Ledger.positional_of_entry {ledger : Ledger D} {convert : Converters D} {token : Bytes}
    {entry : Entry}
    (hentry : positionalEntry ledger.positionals ledger.positionalIndex token = some entry) :
    ledger.positional convert token = (entry.pay convert ledger.memory).map fun memory =>
      { ledger with
        positionals := ledger.positionals.modify ledger.positionalIndex fun item =>
          { item with occurrences := item.occurrences + 1 }
        memory := memory
        positionalIndex :=
          if entry.kind ≠ .positionals then ledger.positionalIndex + 1
          else ledger.positionalIndex } := by
  unfold Ledger.positional
  rw [hentry, Option.bind_eq_bind, Option.bind_some]
  cases entry.pay convert ledger.memory with
  | none => rfl
  | some memory => rfl

theorem Ledger.positional_of_none {ledger : Ledger D} {convert : Converters D} {token : Bytes}
    (hentry : positionalEntry ledger.positionals ledger.positionalIndex token = none) :
    ledger.positional convert token = none := by
  unfold Ledger.positional
  rw [hentry]
  rfl

include hpush in
theorem applyOption_post {index : ℕ} {option : LorCliOptionInternal}
    (hoption : session.cli.options[index]? = some option) (value : Option Bytes) (i : ℤ)
    (token : Bytes) :
    ∃ result session', applyOption host session (index, option) value i token = (result, session') ∧
      session.ledger.option host.convert index value =
        if result.code = .ok then some session'.ledger else none := by
  have hentry : optionEntry session.ledger.options index value =
      if option.occurrences ≠ 0 ∧ option.spec.repeatable = false then none
      else if value.isSome = option.kind.bare then none
      else some ⟨option.kind, option.destination, value.getD []⟩ := by
    simp only [optionEntry, Session.ledger, hoption, Option.bind_eq_bind, Option.bind_some]
    rfl
  unfold applyOption
  dsimp only
  by_cases hduplicate : option.occurrences ≠ 0 ∧ option.spec.repeatable = false
  · rw [if_pos hduplicate] at hentry ⊢
    exact ⟨_, _, rfl, Ledger.option_of_none hentry⟩
  rw [if_neg hduplicate] at hentry ⊢
  by_cases hflag : option.kind = .flag
  · rw [if_pos hflag]
    rw [hflag] at hentry
    cases value with
    | none => exact ⟨_, _, rfl, Ledger.option_of_entry hentry⟩
    | some text => exact ⟨_, _, rfl, Ledger.option_of_none hentry⟩
  rw [if_neg hflag]
  by_cases hcount : option.kind = .count
  · rw [if_pos hcount]
    rw [hcount] at hentry
    cases value with
    | some text => exact ⟨_, _, rfl, Ledger.option_of_none hentry⟩
    | none =>
      have hpay := Entry.pay_count host.convert session.memory option.destination
      rw [if_neg (not_not.2 rfl), Ledger.option_of_entry hentry]
      by_cases hfull : (session.memory .size option.destination).toNat = sizeMax
      · rw [if_pos hfull] at hpay ⊢
        exact ⟨_, _, rfl, congrArg (Option.map _) hpay⟩
      · rw [if_neg hfull] at hpay ⊢
        exact ⟨_, _, rfl, congrArg (Option.map _) hpay⟩
  rw [if_neg hcount]
  have hbare := bare_eq_false hflag hcount
  rw [hbare] at hentry
  cases value with
  | none => exact ⟨_, _, rfl, Ledger.option_of_none hentry⟩
  | some text =>
    obtain ⟨code, session', hassign, hcli, hindex, hpay⟩ :=
      assignValue_pay session hpush hbare option.destination text
    have hfound : optionEntry session.ledger.options index (some text) =
        some ⟨option.kind, option.destination, text⟩ := hentry
    have hledger : Entry.pay host.convert session.ledger.memory
        ⟨option.kind, option.destination, text⟩ =
          if code = .ok then some session'.memory else none :=
      hpay
    simp only [hassign]
    rw [Ledger.option_of_entry hfound, hledger]
    by_cases hcode : code = .ok
    · rw [if_neg (not_not.2 hcode), if_pos hcode]
      refine ⟨_, _, rfl, ?_⟩
      simp only [Option.map_some, Session.ledger, occurred, hcli, hindex]
      rfl
    · rw [if_pos hcode, if_neg hcode]
      exact ⟨_, _, rfl, (if_neg hcode).symm⟩

include hpush in
theorem consumePositional_post (token : Bytes) (i : ℤ) :
    ∃ result session', consumePositional host session token i = (result, session') ∧
      session.ledger.positional host.convert token =
        if result.code = .ok then some session'.ledger else none := by
  unfold consumePositional
  cases hitem : session.cli.positionals[session.positionalIndex]? with
  | none =>
    have hentry : positionalEntry session.ledger.positionals session.ledger.positionalIndex token =
        none := by
      simp only [positionalEntry, Session.ledger, hitem]
      rfl
    exact ⟨_, _, rfl, Ledger.positional_of_none hentry⟩
  | some item =>
    have hentry : positionalEntry session.ledger.positionals session.ledger.positionalIndex token =
        if item.kind.bare then none else some ⟨item.kind, item.destination, token⟩ := by
      simp only [positionalEntry, Session.ledger, hitem]
      rfl
    dsimp only
    cases hbare : item.kind.bare with
    | true =>
      rw [hbare, if_pos rfl] at hentry
      rw [assignValue_bare host session hbare]
      exact ⟨_, _, rfl, Ledger.positional_of_none hentry⟩
    | false =>
      obtain ⟨code, session', hassign, hcli, hindex, hpay⟩ :=
        assignValue_pay session hpush hbare item.destination token
      rw [hbare, if_neg Bool.false_ne_true] at hentry
      have hledger : Entry.pay host.convert session.ledger.memory
          ⟨item.kind, item.destination, token⟩ =
          if code = .ok then some session'.memory else none := hpay
      rw [hassign, Ledger.positional_of_entry hentry, hledger]
      dsimp only
      by_cases hcode : code = .ok
      · rw [if_neg (not_not.2 hcode), if_pos hcode]
        refine ⟨_, _, rfl, Eq.trans ?_ (if_pos rfl).symm⟩
        simp only [Option.map_some, Session.ledger, consumed, hcli, hindex]
        split_ifs <;> rfl
      · rw [if_pos hcode, if_neg hcode]
        exact ⟨_, _, rfl, (if_neg hcode).symm⟩

include hpush in
theorem perform_post (item : Item) :
    ∃ result session', perform host session item = (result, session') ∧
      item.post host.convert session.ledger =
        if result.code = .ok then some session'.ledger else none := by
  cases item with
  | stop result => exact ⟨_, _, rfl, rfl⟩
  | positional i token index => exact consumePositional_post session hpush token i
  | option i token index value =>
    simp only [perform, Item.post]
    cases hoption : session.cli.options[index]? with
    | some option => exact applyOption_post session hpush hoption value i token
    | none =>
      refine ⟨_, _, rfl, ?_⟩
      change (optionEntry session.cli.options index value).bind _ = none
      rw [optionEntry, hoption]
      rfl

include hpush in
/-- Occurrences are accepted exactly where they can be posted one after the other. -/
theorem performAll_post (line : List Item) :
    ∃ outcome session', performAll host session line = (outcome, session') ∧
      line.foldlM (Item.post host.convert) session.ledger =
        if outcome = none then some session'.ledger else none := by
  induction line generalizing session with
  | nil => exact ⟨_, _, rfl, rfl⟩
  | cons item line ih =>
    obtain ⟨result, session₁, hperform, hpost⟩ := perform_post session hpush item
    rw [performAll_cons, hperform, foldlM_cons, hpost]
    by_cases hcode : result.code = .ok
    · rw [if_neg (not_not.2 hcode), if_pos hcode, Option.bind_some]
      exact ih session₁
    · rw [if_pos hcode, if_neg hcode]
      exact ⟨_, _, rfl, rfl⟩

end Post

end Liblor.CliArgv
