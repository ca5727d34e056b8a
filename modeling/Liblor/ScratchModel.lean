import Liblor.ArenaRewind

/-!
# The scratch arenas of `memory.c`

A thread has two scratch arenas. The scopes of one arena end in the reverse order in which they
began; those of the two arenas can overlap, and allocations are made in either arena at any time. A
scope is recorded with what its arena was when it began.
-/

namespace Liblor.Arena.Scratch

open BumpStack Transition

/-- `lor_memory__scratch_arenas` and `lor_memory__scratch_inited`. -/
structure Arenas where
  arena : Fin 2 → LorArena
  inited : Fin 2 → Bool

def scratchConfig : Config := ⟨.heap, defaultBlockSize, 0, 0⟩

section Source

variable (platform : Platform)

/-- The loop of `lor_scratch_begin`. A conflict is one of the two arenas or `none`, which is `NULL`
or any other arena. -/
def beginLoop (conflict : Option (Fin 2)) (s : Arenas) :
    List (Fin 2) → Option (Fin 2 × Mark) × Arenas
  | [] => (none, s)
  | i :: is =>
    if conflict = some i then beginLoop conflict s is
    else if s.inited i = false then
      match initInternal platform (s.arena i) scratchConfig with
      | (false, arena) => (none, { s with arena := Function.update s.arena i arena })
      | (true, arena) =>
        (some (i, mark arena),
          ⟨Function.update s.arena i arena, Function.update s.inited i true⟩)
    else (some (i, mark (s.arena i)), s)

def scratchBegin (conflict : Option (Fin 2)) (s : Arenas) : Option (Fin 2 × Mark) × Arenas :=
  beginLoop platform conflict s [0, 1]

def scratchEnd (scratch : Option (Fin 2 × Mark)) (s : Arenas) : Arenas :=
  match scratch with
  | none => s
  | some (i, mark) => { s with arena := Function.update s.arena i (rewind (s.arena i) mark) }

def cleanupLoop (s : Arenas) : List (Fin 2) → Arenas
  | [] => s
  | i :: is =>
    if s.inited i then
      cleanupLoop ⟨Function.update s.arena i (deinit (s.arena i)),
        Function.update s.inited i false⟩ is
    else cleanupLoop s is

def scratchCleanup (s : Arenas) : Arenas := cleanupLoop s [0, 1]

end Source

/-- An open scope, with its arena as it was when the scope began and what was live in it. -/
structure Scope where
  mark : Mark
  base : LorArena
  kept : List Piece

structure State where
  arenas : Arenas
  live : Fin 2 → List Piece
  scopes : Fin 2 → List Scope

inductive Event where
  | begin (conflict : Option (Fin 2)) (result : Option (Fin 2))
  | request (i : Fin 2) (r : Request) (result : Option ℕ)
  | finish (i : Fin 2)
  | cleanup

/-- The state once `lor_scratch_begin` has returned. -/
def State.began (s : State) : Option (Fin 2 × Mark) × Arenas → State
  | (none, arenas) => { s with arenas := arenas }
  | (some (i, m), arenas) =>
    { s with
      arenas := arenas
      scopes := Function.update s.scopes i (⟨m, arenas.arena i, s.live i⟩ :: s.scopes i) }

/-- The state once a request in arena `i` has returned. -/
def State.returned (s : State) (i : Fin 2) (size : ℕ) (result : Option ℕ × LorArena) : State :=
  { s with
    arenas := { s.arenas with arena := Function.update s.arenas.arena i result.2 }
    live := Function.update s.live i
      ((result.1.toList.map fun start => ⟨start, size⟩) ++ s.live i) }

/-- The state once the newest scope of arena `i` has ended. What it gives back is no longer live. -/
def State.finished (s : State) (i : Fin 2) (scope : Scope) (scopes : List Scope) : State where
  arenas := scratchEnd (some (i, scope.mark)) s.arenas
  live := Function.update s.live i (keep (s.live i) scope.kept.length)
  scopes := Function.update s.scopes i scopes

inductive Step (platform : Platform) : State → Event → State → Prop where
  | begin {s : State} (conflict : Option (Fin 2)) :
      Step platform s (.begin conflict ((scratchBegin platform conflict s.arenas).1.map Prod.fst))
        (s.began (scratchBegin platform conflict s.arenas))
  | request {s : State} {i : Fin 2} (r : Request) {os : Os} (hinited : s.arenas.inited i = true)
      (hlegal : ∀ j, os.Legal (s.arenas.arena j)) :
      Step platform s (.request i r (request platform os (s.arenas.arena i) r).1)
        (s.returned i r.size (request platform os (s.arenas.arena i) r))
  | finish {s : State} {i : Fin 2} {scope : Scope} {scopes : List Scope}
      (hscopes : s.scopes i = scope :: scopes) :
      Step platform s (.finish i) (s.finished i scope scopes)
  | cleanup {s : State} (hscopes : ∀ i, s.scopes i = []) :
      Step platform s .cleanup ⟨scratchCleanup s.arenas, fun _ => [], fun _ => []⟩

/-- The arenas of a thread are at first all zero. -/
def scratch (platform : Platform) : System State Event where
  start s := s = ⟨⟨fun _ => arenaInit, fun _ => false⟩, fun _ => [], fun _ => []⟩
  step := Step platform

end Liblor.Arena.Scratch
