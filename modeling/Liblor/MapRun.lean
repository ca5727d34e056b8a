import Liblor.KeyedList
import Liblor.MapRemove
import Liblor.Transition

/-!
# Runs of a map

A run starts at the `NULL` handle and makes any of the calls in any order. What it leaves behind is
the finite map of its successful calls: `contents` reads that map off the events of the run, and
`Refines` compares every answer that the handle can give with it.
-/

namespace Liblor.Map

open KeyedList DenseList Transition

inductive Op where
  | init (entrySize keySize : ℕ) (config : Config)
  | reserve (entrySize keySize required : ℕ)
  | set (entrySize keySize : ℕ) (entry : Source)
  | remove (entrySize keySize : ℕ) (key : Source)
  | clear
  | deinit

inductive Result where
  | status (status : Status)
  | removed (removed : Bool)
  | done
  deriving DecidableEq

/-- A handle and the world around it. -/
structure State where
  map : Option LorMap
  world : World

def step (env : Env) (s : State) : Op → Option (Result × State)
  | .init entrySize keySize config =>
    let (status, map, world) := initRaw env s.world s.map entrySize keySize config
    some (.status status, ⟨map, world⟩)
  | .reserve entrySize keySize required =>
    (reserveRaw env s.world s.map entrySize keySize required).map fun (status, map, world) =>
      (.status status, ⟨map, world⟩)
  | .set entrySize keySize entry =>
    (setRaw env s.world s.map entrySize keySize entry).map fun (status, map, world) =>
      (.status status, ⟨map, world⟩)
  | .remove entrySize keySize key =>
    (removeRaw env s.world s.map entrySize keySize key).map fun (removed, map, world) =>
      (.removed removed, ⟨map, world⟩)
  | .clear =>
    let (map, world) := clear env s.world s.map
    some (.done, ⟨map, world⟩)
  | .deinit =>
    let (map, world) := deinit env s.world s.map
    some (.done, ⟨map, world⟩)

/-- What the caller of an operation promises: key callbacks that are lawful on the keys of the size
it announces, and pointers that the announced sizes may be read through. -/
def Op.Legal (env : Env) (map : Option LorMap) : Op → Prop
  | .init _ keySize config => Lawful env config keySize
  | .set entrySize _ entry => entry.Valid map entrySize
  | .remove _ keySize key => key.Valid map keySize
  | _ => True

/-! ## The finite map of a run -/

inductive Event where
  | put (key value : Bytes)
  | erase (key : Bytes)
  | wipe
  | other

/-- The bytes behind a pointer argument when it is passed. -/
def Source.bytes (source : Source) (map : Option LorMap) (count : ℕ) : Bytes :=
  match source, map with
  | .outside _ memory, _ => (List.range count).map memory
  | .inside offset, some map => (map.image.drop offset).take count
  | _, _ => []

def Op.event (op : Op) (map : Option LorMap) (result : Result) : Event :=
  match op, result with
  | .set entrySize keySize entry, .status .ok =>
    .put (entry.bytes map keySize) ((entry.bytes map entrySize).drop keySize)
  | .remove _ keySize key, .removed true => .erase (key.bytes map keySize)
  | .clear, _ => .wipe
  | .deinit, _ => .wipe
  | _, _ => .other

def SameKey (env : Env) (config : Config) (a b : Bytes) : Prop := equal env config a b = true

instance (env : Env) (config : Config) : DecidableRel (SameKey env config) :=
  fun a b => inferInstanceAs (Decidable (equal env config a b = true))

def Event.apply (env : Env) (config : Config) (f : Bytes → Option Bytes) :
    Event → Bytes → Option Bytes
  | .put key value => KeyedList.put (SameKey env config) key value f
  | .erase key => KeyedList.erase (SameKey env config) key f
  | .wipe => fun _ => none
  | .other => f

/-- The value of the last entry set for a key and not removed or cleared since. -/
def contents (env : Env) (config : Config) (events : List Event) : Bytes → Option Bytes :=
  events.foldl (Event.apply env config) (fun _ => none)

theorem contents_concat (env : Env) (config : Config) (events : List Event) (event : Event) :
    contents env config (events ++ [event]) =
      event.apply env config (contents env config events) := by
  rw [contents, List.foldl_append]
  rfl

/-- Calls that may be made at a state, labelled with what they do to the finite map. -/
def system (env : Env) : System State Event where
  start s := s.map = none
  step s event s' := ∃ op result, op.Legal env s.map ∧ step env s op = some (result, s') ∧
    event = op.event s.map result

/-- A handle whose every answer is that of the finite map `f`. -/
structure Refines (env : Env) (s : State) (f : Bytes → Option Bytes) : Prop where
  returns : ∀ op : Op, op.Legal env s.map → ∃ result s', step env s op = some (result, s')
  find : ∀ entrySize keySize (key : Source), matchesLayout s.map entrySize keySize = true →
    key ≠ .null → key.Valid s.map keySize →
    keyValid env (getConfig s.map) (key.bytes s.map keySize) = true →
    (f (key.bytes s.map keySize) = none → findRaw env s.map entrySize keySize key = some none) ∧
    ∀ value, f (key.bytes s.map keySize) = some value →
      ∃ (m : LorMap) (i : ℕ) (e : Entry), s.map = some m ∧
      findRaw env s.map entrySize keySize key = some (some i) ∧ m.entries[i]? = some e ∧
      equal env m.config e.key.bytes (key.bytes s.map keySize) = true ∧ e.value = value
  remove : ∀ entrySize keySize (key : Source), matchesLayout s.map entrySize keySize = true →
    key ≠ .null → key.Valid s.map keySize →
    keyValid env (getConfig s.map) (key.bytes s.map keySize) = true →
    ∃ s', step env s (.remove entrySize keySize key) =
      some (.removed (f (key.bytes s.map keySize)).isSome, s')
  null : s.map = none → ∀ key, f key = none
  dense : ∀ m, s.map = some m →
    (∀ key, KeyOk env m.config m.keySize key → (f key).isSome →
      ∃! i, i < m.size ∧ equal env m.config (m.keyAt i) key = true) ∧
    ∀ (i : ℕ) (e : Entry), m.entries[i]? = some e → KeyOk env m.config m.keySize e.key.bytes ∧
      f e.key.bytes = some e.value

/-! ## The invariant of a run -/

variable {env : Env} {map : LorMap} {events : List Event} {s : State}

theorem Lawful.equivOn {config : Config} {keySize : ℕ} (h : Lawful env config keySize) :
    EquivOn (KeyOk env config keySize) (SameKey env config) :=
  ⟨h.refl, h.symm, h.trans⟩

theorem Inv.unique (h : Inv env map) (hlaw : Lawful env map.config map.keySize) :
    Unique (KeyOk env map.config map.keySize) (SameKey env map.config)
      (fun e : Entry => e.key.bytes) map.entries := by
  intro k hk i j x y hx hy hxk hyk
  apply h.index_unique hlaw hk (List.getElem?_eq_some_iff.mp hx).1
    (List.getElem?_eq_some_iff.mp hy).1
  · rw [keyAt_of_getElem? hx]
    exact hxk
  · rw [keyAt_of_getElem? hy]
    exact hyk

/-- The entries of the map stand for `f`. -/
def Holding (env : Env) (map : LorMap) (f : Bytes → Option Bytes) : Prop :=
  Represents (KeyOk env map.config map.keySize) (SameKey env map.config)
    (fun e : Entry => e.key.bytes) Entry.value map.entries f

/-- A handle and the events that led to it. The configuration of a `NULL` handle is still open. -/
def Agrees (env : Env) (events : List Event) : Option LorMap → Prop
  | none => ∀ config key, contents env config events key = none
  | some map => Inv env map ∧ Lawful env map.config map.keySize ∧
    Holding env map (contents env map.config events)

theorem Holding.resized {moved : LorMap} {f : Bytes → Option Bytes} (h : Holding env map f)
    (hresized : Resized map moved) : Holding env moved f := by
  unfold Holding at h ⊢
  rw [hresized.entries, hresized.config, hresized.keySize]
  exact h

theorem Agrees.resized {moved : LorMap} (hinv : Inv env moved) (hresized : Resized map moved)
    (hlaw : Lawful env map.config map.keySize)
    (h : Holding env map (contents env map.config events)) :
    Agrees env events (some moved) := by
  refine ⟨hinv, ?_, ?_⟩
  · rw [hresized.config, hresized.keySize]
    exact hlaw
  · rw [hresized.config]
    exact h.resized hresized

theorem Agrees.other {handle : Option LorMap} (h : Agrees env events handle) :
    Agrees env (events ++ [.other]) handle := by
  cases handle with
  | none =>
      intro config key
      rw [contents_concat]
      exact h config key
  | some map =>
      refine ⟨h.1, h.2.1, ?_⟩
      rw [contents_concat]
      exact h.2.2

theorem Agrees.fresh {entrySize keySize : ℕ} {config : Config} (h : Agrees env events none)
    (hfresh : Fresh map entrySize keySize config) (hinv : Inv env map)
    (hlaw : Lawful env config keySize) : Agrees env events (some map) := by
  refine ⟨hinv, ?_, ?_⟩
  · rw [hfresh.config, hfresh.keySize]
    exact hlaw
  · have hempty : contents env map.config events = fun _ => none := funext (h map.config)
    rw [Holding, hempty, hfresh.entries]
    exact Represents.nil

theorem Agrees.inv {handle : Option LorMap} (h : Agrees env events handle) :
    ∀ m, handle = some m → Inv env m := by
  intro m hm
  subst hm
  exact h.1

theorem Agrees.lawful {handle : Option LorMap} (h : Agrees env events handle) :
    ∀ m, handle = some m → Lawful env m.config m.keySize := by
  intro m hm
  subst hm
  exact h.2.1

theorem Target.bytes_eq {handle : Option LorMap} {entrySize keySize : ℕ} {source : Source}
    {created : Bool} (h : Target env handle entrySize keySize source map created)
    (hs : source.Valid handle entrySize) (n : ℕ) : source.bytes handle n = source.read map n := by
  rcases h.handle with ⟨hsome, -⟩ | ⟨hnone, -, -⟩
  · subst hsome
    cases source <;> rfl
  · subst hnone
    cases source with
    | null => rfl
    | outside address memory => rfl
    | inside offset => exact hs.elim

theorem Target.agrees {handle : Option LorMap} {entrySize keySize : ℕ} {source : Source}
    {created : Bool} (h : Target env handle entrySize keySize source map created)
    (hagrees : Agrees env events handle) : Agrees env events (some map) := by
  rcases h.handle with ⟨hsome, -⟩ | ⟨hnone, -, hfresh⟩
  · rw [← hsome]
    exact hagrees
  · subst hnone
    apply Agrees.fresh hagrees hfresh h.inv
    rw [← hfresh.config, ← hfresh.keySize]
    exact h.lawful

/-! ## One call -/

theorem init_agrees (world : World) {handle : Option LorMap} (h : Agrees env events handle)
    (entrySize : ℕ) {keySize : ℕ} {config : Config} (hlaw : Lawful env config keySize) :
    ∃ status handle' world', initRaw env world handle entrySize keySize config =
        (status, handle', world') ∧ Agrees env (events ++ [.other]) handle' := by
  obtain ⟨status, handle', world', heq, -, hcase⟩ :=
    initRaw_cases env world handle entrySize keySize config
  refine ⟨status, handle', world', heq, ?_⟩
  obtain ⟨-, rfl⟩ | ⟨-, rfl, hlayout, hconfig, header, rfl, hfresh⟩ := hcase
  · exact h.other
  · exact (Agrees.fresh h hfresh (hfresh.inv hlayout hconfig) hlaw).other

theorem reserve_agrees (world : World) {handle : Option LorMap} (h : Agrees env events handle)
    (entrySize keySize required : ℕ) :
    ∃ status handle' world', reserveRaw env world handle entrySize keySize required =
        some (status, handle', world') ∧ Agrees env (events ++ [.other]) handle' := by
  obtain ⟨status, handle', world', heq, -, hcase⟩ :=
    reserveRaw_cases world handle entrySize keySize required h.inv
  refine ⟨status, handle', world', heq, ?_⟩
  obtain ⟨-, rfl⟩ | ⟨-, -, rfl⟩ | ⟨-, header, moved, rfl, hinv, -, hresized, hheader⟩ := hcase
  · exact h.other
  · exact h.other
  · obtain rfl | ⟨rfl, hfresh⟩ := hheader
    · exact (Agrees.resized hinv hresized h.2.1 h.2.2).other
    · have hlaw : Lawful env header.config header.keySize := by
        rw [hfresh.config]
        exact lawful_configBytes env header.keySize
      refine (Agrees.resized hinv hresized hlaw ?_).other
      have hempty : contents env header.config events = fun _ => none := funext (h header.config)
      rw [Holding, hempty, hfresh.entries]
      exact Represents.nil

theorem set_agrees (world : World) {handle : Option LorMap} (h : Agrees env events handle)
    {entrySize : ℕ} (keySize : ℕ) {source : Source} (hs : source.Valid handle entrySize) :
    ∃ status handle' world', setRaw env world handle entrySize keySize source =
        some (status, handle', world') ∧
      Agrees env (events ++ [(Op.set entrySize keySize source).event handle (.status status)])
        handle' := by
  obtain ⟨status, handle', world', heq, hinv, hcase⟩ :=
    setRaw_cases world keySize h.inv h.lawful hs
  refine ⟨status, handle', world', heq, ?_⟩
  have hother : status ≠ .ok → (Op.set entrySize keySize source).event handle (.status status) =
      .other := by
    intro hstatus
    cases status <;> first | exact absurd rfl hstatus | rfl
  obtain ⟨hstatus, rfl, -⟩ | ⟨map, created, w₁, htarget, -, hout, hvalid⟩ := hcase
  · rw [hother hstatus]
    exact h.other
  have hmap := htarget.agrees h
  have hequiv := hmap.2.1.equivOn
  have hkeys : ∀ e ∈ map.entries, KeyOk env map.config map.keySize e.key.bytes := hmap.1.keys
  have hkey : status = .ok → KeyOk env map.config map.keySize (source.read map map.keySize) :=
    fun hok => ⟨htarget.legal.length_read hmap.1 (keySize_pos hmap.1.layout).2, hvalid hok⟩
  have hevent : (Op.set entrySize keySize source).event handle (.status .ok) =
      .put (source.read map map.keySize) ((source.read map map.entrySize).drop map.keySize) := by
    simp only [Op.event, htarget.bytes_eq hs, htarget.keySize, htarget.entrySize]
  cases hout with
  | rejected hstatus _ =>
      rw [hother hstatus]
      exact hmap.other
  | abandoned hstatus _ _ =>
      rw [hother hstatus]
      cases created with
      | false => exact hmap.other
      | true =>
          rcases htarget.handle with ⟨-, hfalse⟩ | ⟨rfl, -, -⟩
          · cases hfalse
          · exact h.other
  | replaced hold holdeq hstored =>
      refine ⟨hinv _ rfl, hmap.2.1, ?_⟩
      rw [hevent, contents_concat, ← hstored.value]
      exact hmap.2.2.set hequiv hkeys (hmap.1.unique hmap.2.1) (hkey rfl) hold holdeq
        hstored.ok.key hstored.equal
  | appended hno hstored _ hresized =>
      refine Agrees.resized (hinv _ rfl) hresized hmap.2.1 ?_
      rw [hevent, config_withEntries, contents_concat, ← hstored.value]
      apply hmap.2.2.append hequiv hkeys (hkey rfl) hstored.ok.key hstored.equal
      intro x hx
      obtain ⟨i, hi⟩ := List.mem_iff_getElem?.mp hx
      have hxno := hno i (List.getElem?_eq_some_iff.mp hi).1
      rw [keyAt_of_getElem? hi] at hxno
      rw [SameKey, hxno]
      exact Bool.false_ne_true

theorem remove_agrees (world : World) {handle : Option LorMap} (h : Agrees env events handle)
    (entrySize : ℕ) {keySize : ℕ} {source : Source} (hs : source.Valid handle keySize) :
    ∃ removed handle' world', removeRaw env world handle entrySize keySize source =
        some (removed, handle', world') ∧
      Agrees env (events ++ [(Op.remove entrySize keySize source).event handle (.removed removed)])
        handle' := by
  obtain ⟨heq, -⟩ | ⟨m, i, old, moved, rfl, hsought, hold, holdeq, heq, hinv, hresized⟩ :=
    removeRaw_cases world entrySize h.inv h.lawful hs
  · exact ⟨false, handle, world, heq, h.other⟩
  · refine ⟨true, some moved, _, heq, Agrees.resized hinv hresized h.2.1 ?_⟩
    have hbytes : source.bytes (some m) keySize = source.read m m.keySize := by
      rw [(matchesLayout_some hsought.layout).2]
      cases source <;> rfl
    have hlt : i < m.entries.length := (List.getElem?_eq_some_iff.mp hold).1
    rw [Op.event, hbytes, config_withEntries, contents_concat]
    exact (h.2.2.eraseIdx h.2.1.equivOn h.1.keys (h.1.unique h.2.1) (hsought.keyOk h.1 hs) hold
      holdeq).perm (swapRemove_perm hlt)

theorem clear_agrees (world : World) {handle : Option LorMap} (h : Agrees env events handle) :
    ∃ handle' world', clear env world handle = (handle', world') ∧
      Agrees env (events ++ [.wipe]) handle' := by
  have hwipe : ∀ config key, contents env config (events ++ [.wipe]) key = none := by
    intro config key
    rw [contents_concat]
    rfl
  cases handle with
  | none => exact ⟨none, world, rfl, hwipe⟩
  | some m =>
      obtain ⟨world', heq, -, -⟩ := clear_spec env world m
      refine ⟨_, world', heq, h.1.clear, h.2.1, ?_⟩
      have hempty : contents env m.config (events ++ [.wipe]) = fun _ => none :=
        funext (hwipe m.config)
      rw [config_withBuckets, config_withEntries, hempty]
      exact Represents.nil

theorem deinit_agrees (env : Env) (events : List Event) (world : World) (handle : Option LorMap) :
    ∃ world', deinit env world handle = (none, world') ∧
      Agrees env (events ++ [.wipe]) none := by
  refine ⟨_, rfl, ?_⟩
  intro config key
  rw [contents_concat]
  rfl

/-- Every legal call returns, with a handle that agrees with the events so far and its own. -/
theorem step_agrees (h : Agrees env events s.map) (op : Op) (hop : op.Legal env s.map) :
    ∃ result s', step env s op = some (result, s') ∧
      Agrees env (events ++ [op.event s.map result]) s'.map := by
  cases op with
  | init entrySize keySize config =>
      obtain ⟨status, handle', world', heq, hagrees⟩ :=
        init_agrees s.world h entrySize hop
      exact ⟨.status status, ⟨handle', world'⟩, by rw [step, heq], hagrees⟩
  | reserve entrySize keySize required =>
      obtain ⟨status, handle', world', heq, hagrees⟩ :=
        reserve_agrees s.world h entrySize keySize required
      exact ⟨.status status, ⟨handle', world'⟩, by rw [step, heq]; rfl, hagrees⟩
  | set entrySize keySize entry =>
      obtain ⟨status, handle', world', heq, hagrees⟩ :=
        set_agrees s.world h keySize hop
      exact ⟨.status status, ⟨handle', world'⟩, by rw [step, heq]; rfl, hagrees⟩
  | remove entrySize keySize key =>
      obtain ⟨removed, handle', world', heq, hagrees⟩ :=
        remove_agrees s.world h entrySize hop
      exact ⟨.removed removed, ⟨handle', world'⟩, by rw [step, heq]; rfl, hagrees⟩
  | clear =>
      obtain ⟨handle', world', heq, hagrees⟩ := clear_agrees s.world h
      exact ⟨.done, ⟨handle', world'⟩, by rw [step, heq], hagrees⟩
  | deinit =>
      obtain ⟨world', heq, hagrees⟩ := deinit_agrees env events s.world s.map
      exact ⟨.done, ⟨none, world'⟩, by rw [step, heq], hagrees⟩

/-- Any map with the invariant is where the `put`s of its own entries lead. -/
theorem exists_agrees (hinv : Inv env map) (hlaw : Lawful env map.config map.keySize) :
    ∃ events, Agrees env events (some map) := by
  have hequiv := hlaw.equivOn
  have hunique := hinv.unique hlaw
  have hentries : ∀ l : List Entry, (∃ rest, map.entries = l ++ rest) →
      Represents (KeyOk env map.config map.keySize) (SameKey env map.config)
        (fun e : Entry => e.key.bytes) Entry.value l
        (contents env map.config (l.map fun e => .put e.key.bytes e.value)) := by
    intro l
    induction l using List.reverseRecOn with
    | nil =>
        intro _
        exact Represents.nil
    | append_singleton l e ih =>
        intro hprefix
        obtain ⟨rest, hrest⟩ := hprefix
        have hl : map.entries = l ++ (e :: rest) := by simpa using hrest
        have hkey : ∀ x ∈ l ++ [e], KeyOk env map.config map.keySize x.key.bytes := by
          intro x hx
          apply hinv.keys x
          rw [hrest]
          exact List.mem_append_left rest hx
        have he := hkey e (by simp)
        have hlast : map.entries[l.length]? = some e := by simp [hl]
        rw [List.map_append, List.map_singleton, contents_concat]
        refine (ih ⟨_, hl⟩).append hequiv (fun x hx => hkey x (List.mem_append_left _ hx)) he he
          (hequiv.refl _ he) ?_
        intro x hx hxe
        obtain ⟨i, hi⟩ := List.mem_iff_getElem?.mp hx
        have hlt := (List.getElem?_eq_some_iff.mp hi).1
        have hxi : map.entries[i]? = some x := by rw [hl, List.getElem?_append_left hlt, hi]
        have := hunique _ he i l.length x e hxi hlast hxe (hequiv.refl _ he)
        omega
  exact ⟨_, hinv, hlaw, hentries map.entries ⟨[], by simp⟩⟩

/-- What every handle keeps. -/
def Sound (env : Env) (handle : Option LorMap) : Prop :=
  ∀ m, handle = some m → Inv env m ∧ Lawful env m.config m.keySize

theorem step_sound (h : Sound env s.map) (op : Op) (hop : op.Legal env s.map) :
    ∃ result s', step env s op = some (result, s') ∧ Sound env s'.map := by
  obtain ⟨events, hagrees⟩ : ∃ events, Agrees env events s.map := by
    cases hm : s.map with
    | none => exact ⟨[], fun _ _ => rfl⟩
    | some m => exact exists_agrees (h m hm).1 (h m hm).2
  obtain ⟨result, s', heq, hagrees'⟩ := step_agrees hagrees op hop
  exact ⟨result, s', heq, fun m hm => ⟨hagrees'.inv m hm, hagrees'.lawful m hm⟩⟩

theorem run_agrees (h : Run (system env) events s) : Agrees env events s.map := by
  induction h with
  | start h =>
      rw [show State.map _ = none from h]
      intro config key
      rfl
  | step _ hstep ih =>
      obtain ⟨op, result, hop, hstep, rfl⟩ := hstep
      obtain ⟨result', s', heq, hagrees⟩ := step_agrees ih op hop
      rw [hstep] at heq
      cases heq
      exact hagrees

/-! ## The answers of a handle -/

theorem Source.bytes_some (source : Source) (m : LorMap) (n : ℕ) :
    source.bytes (some m) n = source.read m n := by
  cases source <;> rfl

theorem Holding.apply_none {f : Bytes → Option Bytes} (h : Holding env map f) {key : Bytes}
    (hkey : KeyOk env map.config map.keySize key)
    (hno : ∀ i < map.size, equal env map.config (map.keyAt i) key = false) : f key = none := by
  apply Represents.eq_none h hkey
  intro e he hek
  obtain ⟨i, hi⟩ := List.mem_iff_getElem?.mp he
  have hfalse := hno i (List.getElem?_eq_some_iff.mp hi).1
  rw [keyAt_of_getElem? hi] at hfalse
  exact Bool.false_ne_true (hfalse.symm.trans hek)

theorem Holding.apply_some {f : Bytes → Option Bytes} (h : Holding env map f) {key : Bytes}
    (hkey : KeyOk env map.config map.keySize key) {e : Entry} (he : e ∈ map.entries)
    (heq : equal env map.config e.key.bytes key = true) : f key = some e.value :=
  (h key e.value hkey).mpr ⟨e, he, heq, rfl⟩

theorem find_holding {f : Bytes → Option Bytes} (hinv : Inv env map)
    (hlaw : Lawful env map.config map.keySize) (h : Holding env map f) {entrySize keySize : ℕ}
    {key : Source} (hsought : Sought env map entrySize keySize key)
    (hs : key.Valid (some map) keySize) :
    (f (key.read map map.keySize) = none ∧
        findRaw env (some map) entrySize keySize key = some none) ∨
      ∃ (i : ℕ) (e : Entry), findRaw env (some map) entrySize keySize key = some (some i) ∧
        map.entries[i]? = some e ∧
        equal env map.config e.key.bytes (key.read map map.keySize) = true ∧
        f (key.read map map.keySize) = some e.value := by
  have hkey := hsought.keyOk hinv hs
  obtain ⟨i, e, hfind, he, heq⟩ | ⟨hfind, hno⟩ := findRaw_cases hsought hinv hlaw hs
  · exact Or.inr ⟨i, e, hfind, he, heq, h.apply_some hkey (List.mem_of_getElem? he) heq⟩
  · exact Or.inl ⟨h.apply_none hkey hno, hfind⟩

theorem dense_holding {f : Bytes → Option Bytes} (hinv : Inv env map)
    (hlaw : Lawful env map.config map.keySize) (h : Holding env map f) :
    (∀ key, KeyOk env map.config map.keySize key → (f key).isSome →
      ∃! i, i < map.size ∧ equal env map.config (map.keyAt i) key = true) ∧
    ∀ (i : ℕ) (e : Entry), map.entries[i]? = some e →
      KeyOk env map.config map.keySize e.key.bytes ∧ f e.key.bytes = some e.value := by
  constructor
  · intro key hkey hsome
    obtain ⟨value, hvalue⟩ := Option.isSome_iff_exists.mp hsome
    obtain ⟨e, he, heq, -⟩ := (h key value hkey).mp hvalue
    obtain ⟨i, hi⟩ := List.mem_iff_getElem?.mp he
    have hlt : i < map.size := (List.getElem?_eq_some_iff.mp hi).1
    have heq' : equal env map.config (map.keyAt i) key = true := by
      rw [keyAt_of_getElem? hi]
      exact heq
    refine ⟨i, ⟨hlt, heq'⟩, ?_⟩
    intro j hj
    exact hinv.index_unique hlaw hkey hj.1 hlt hj.2 heq'
  · intro i e he
    have hmem := List.mem_of_getElem? he
    have hkey := hinv.keys e hmem
    exact ⟨hkey, h.apply_some hkey hmem (hlaw.refl _ hkey)⟩

/-- After every run the handle answers as the finite map of the calls that succeeded. -/
theorem run_refines (h : Run (system env) events s) :
    Refines env s (contents env (getConfig s.map) events) := by
  have hagrees := run_agrees h
  obtain ⟨map, world⟩ := s
  cases map with
  | none =>
      refine ⟨fun op hop => ?_, ?_, ?_, fun _ => hagrees configBytes, by simp⟩
      · obtain ⟨result, s', heq, -⟩ := step_agrees hagrees op hop
        exact ⟨result, s', heq⟩
      · intro entrySize keySize key _ _ _ _
        refine ⟨fun _ => rfl, fun value hvalue => ?_⟩
        rw [hagrees] at hvalue
        cases hvalue
      · intro entrySize keySize key _ _ _ _
        rw [hagrees]
        exact ⟨_, rfl⟩
  | some m =>
      have hheld := hagrees.2.2
      refine ⟨fun op hop => ?_, ?_, ?_, by simp, ?_⟩
      · obtain ⟨result, s', heq, -⟩ := step_agrees hagrees op hop
        exact ⟨result, s', heq⟩
      · intro entrySize keySize key hlayout hnull hs hvalid
        obtain rfl : m.keySize = keySize := (matchesLayout_some hlayout).2
        rw [Source.bytes_some] at hvalid ⊢
        obtain ⟨hnone, hfind⟩ | ⟨i, e, hfind, he, heq, hsome⟩ :=
          find_holding hagrees.1 hagrees.2.1 hheld ⟨hlayout, hnull, hvalid⟩ hs
        · refine ⟨fun _ => hfind, fun value hvalue => ?_⟩
          rw [getConfig, hnone] at hvalue
          cases hvalue
        · constructor
          · intro hnone
            rw [getConfig, hsome] at hnone
            cases hnone
          · intro value hvalue
            rw [getConfig, hsome] at hvalue
            exact ⟨m, i, e, rfl, hfind, he, heq, Option.some.inj hvalue⟩
      · intro entrySize keySize key hlayout hnull hs hvalid
        obtain rfl : m.keySize = keySize := (matchesLayout_some hlayout).2
        rw [Source.bytes_some] at hvalid ⊢
        have hsought : Sought env m entrySize m.keySize key := ⟨hlayout, hnull, hvalid⟩
        have hkey := hsought.keyOk hagrees.1 hs
        obtain ⟨heq, hno⟩ | ⟨m', i, old, moved, hm', -, hold, holdeq, heq, -, -⟩ :=
          removeRaw_cases world entrySize hagrees.inv hagrees.lawful hs
        · have hnone := hheld.apply_none hkey (hno m rfl hsought)
          refine ⟨⟨some m, world⟩, ?_⟩
          rw [getConfig, hnone, step, heq]
          rfl
        · cases hm'
          have hsome := hheld.apply_some hkey (List.mem_of_getElem? hold) holdeq
          refine ⟨⟨some moved, (world.drop env m.config old.key (m.resources.eraseIdx i)).2⟩, ?_⟩
          rw [getConfig, hsome, step, heq]
          rfl
      · intro m' hm'
        cases hm'
        exact dense_holding hagrees.1 hagrees.2.1 hheld

/-- One constant hash, byte equality, and an allocator that never fails. -/
def collidingEnv : Env where
  hash _ _ _ := 15
  equal _ _ a b := a == b
  keyValid _ _ _ := true
  clone _ _ _ key := (.ok, key)
  drop _ _ key := key
  malloc n _ := some (4096 * (n + 1))
  freed _ := 0

def collidingConfig : Config := ⟨some 1, some 1, none, none, none, 0⟩

theorem lawful_collidingConfig : Lawful collidingEnv collidingConfig 1 where
  refl a _ := beq_self_eq_true a
  symm a b _ _ h := beq_iff_eq.mpr (eq_of_beq h).symm
  trans a b c _ _ _ hab hbc := beq_iff_eq.mpr ((eq_of_beq hab).trans (eq_of_beq hbc))
  hash_eq _ _ _ _ _ := rfl
  clone _ _ _ h := by cases h

def twoBytes (a b : UInt8) : Source := .outside 0 fun i => if i = 0 then a else b

/-- Two keys of one probe chain are set and the first of them is removed through its own address. -/
theorem run_refines_colliding : ∃ events s, events.length = 4 ∧ size s.map = 1 ∧
    Refines collidingEnv s (contents collidingEnv (getConfig s.map) events) := by
  have h0 : Run (system collidingEnv) [] ⟨none, ⟨0, 0, 0, []⟩⟩ := .start rfl
  have h1 := h0.step ⟨.init 2 1 collidingConfig, _, lawful_collidingConfig, rfl, rfl⟩
  have h2 := h1.step ⟨.set 2 1 (twoBytes 7 70), _, trivial, rfl, rfl⟩
  have h3 := h2.step ⟨.set 2 1 (twoBytes 8 80), _, trivial, rfl, rfl⟩
  have h4 := h3.step ⟨.remove 2 1 (.inside 0), _, show 0 + 1 ≤ 2 * 2 by decide, rfl, rfl⟩
  exact ⟨_, _, rfl, rfl, run_refines h4⟩

end Liblor.Map
