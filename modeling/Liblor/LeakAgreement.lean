import Liblor.ArenaSafety
import Liblor.LeakCalls
import Liblor.Transition

/-!
# When the record table matches the live resources

The records of heap blocks and mappings are always exact. A record of an arena is found by the
address of the arena object, and nothing rewrites it when the object moves with a reallocated block.
-/

namespace Liblor.Leak

open Transition

variable {platform : Arena.Platform} {arenaSize : ℕ} {world world' : World} {arenas : List ℕ}
  {calls : List Call} {call : Call}

theorem tracked_start : Tracked start [] :=
  ⟨⟨List.nodup_nil, List.nodup_nil, by simp [start]⟩,
    [], ⟨[], ⟨DoublyLinked.represents_nil _, List.Perm.refl _⟩, rfl⟩, List.Perm.refl _⟩

theorem matches_start : Matches start := matches_iff.2 tracked_start.recorded

theorem Tracked.matches_iff_perm (h : Tracked world arenas) :
    Matches world ↔ arenas.Perm (liveArenas world) := by
  rw [matches_iff]
  constructor
  · exact fun hlive => h.recorded.unique hlive
  · intro hperm
    obtain ⟨records, hholds, hrecords⟩ := h.recorded
    refine ⟨records, hholds, hrecords.trans ?_⟩
    exact ((hperm.map arenaRecord).append_left _).append_right _

theorem step_tracked (platform : Arena.Platform) (arenaSize : ℕ) (h : Tracked world arenas)
    (hlegal : Legal world call) :
    ∃ world' ∈ step platform arenaSize world call, ∃ arenas', Tracked world' arenas' := by
  obtain ⟨world', arenas', hstep, htracked, -⟩ := step_settled platform arenaSize h hlegal
  exact ⟨world', hstep, arenas', htracked⟩

theorem step_matches_iff (h : Tracked world arenas) (hmatches : Matches world)
    (hlegal : Legal world call) (hstep : world' ∈ step platform arenaSize world call) :
    Matches world' ↔ Careful world arenaSize call := by
  obtain ⟨world'', arenas', heq, htracked, hcareful⟩ :=
    step_settled platform arenaSize h hlegal
  obtain rfl := Option.mem_unique hstep (Option.mem_def.2 heq)
  rw [htracked.matches_iff_perm]
  exact hcareful (h.matches_iff_perm.1 hmatches)

/-- Whatever the program does, every call answers, the links stay in order and the records of heap
blocks and mappings stay exact. -/
theorem links_stay_consistent (platform : Arena.Platform) (arenaSize : ℕ)
    (h : EachStep (step platform arenaSize) Legal start calls) :
    Throughout (step platform arenaSize)
      (fun world => ∃ arenas, Recorded world.table world.heap arenas world.maps) start calls := by
  apply throughout_of_invariant (I := fun world => ∃ arenas, Tracked world arenas) _ _
    ⟨[], tracked_start⟩ h
  · rintro world call ⟨arenas, htracked⟩ hlegal
    exact step_tracked platform arenaSize htracked hlegal
  · rintro world ⟨arenas, htracked⟩
    exact ⟨arenas, htracked.recorded⟩

/-- The table matches the live resources in every state of a run if no call of the run moves a block
in which an initialized arena lies, or deinitializes an arena that was not initialized where one
went away with its storage. After such a call it does not match. -/
theorem table_matches_iff (platform : Arena.Platform) (arenaSize : ℕ) (calls : List Call)
    (h : EachStep (step platform arenaSize) Legal start calls) :
    Throughout (step platform arenaSize) Matches start calls ↔
      EachStep (step platform arenaSize) (fun world => Careful world arenaSize) start calls := by
  apply throughout_iff (I := fun world => ∃ arenas, Tracked world arenas) _ _ ⟨[], tracked_start⟩
    matches_start h
  · rintro world call ⟨arenas, htracked⟩ hlegal
    exact step_tracked platform arenaSize htracked hlegal
  · rintro world call world' ⟨arenas, htracked⟩ hmatches hlegal hstep
    exact step_matches_iff htracked hmatches hlegal hstep

def movedArena : List Call :=
  [.calloc 1 40 4096 100, .arenaInit 4096 ⟨.heap, 0, 0, 0⟩ 200, .realloc 4096 80 8192 300,
    .arenaDeinit 8192]

def grownInPlace : List Call :=
  [.malloc 40 4096 100, .arenaInit 4096 ⟨.heap, 0, 0, 0⟩ 200, .realloc 4096 80 4096 300,
    .arenaDeinit 4096, .free 4096]

theorem table_matches_grown :
    Throughout (step Arena.lp64 40) Matches start grownInPlace := by
  have hlegal : EachStep (step Arena.lp64 40) Legal start grownInPlace := by decide +kernel
  have hcareful : EachStep (step Arena.lp64 40) (fun world => Careful world 40) start
      grownInPlace := by decide +kernel
  exact (table_matches_iff Arena.lp64 40 grownInPlace hlegal).2 hcareful

/-- The arena is deinitialized where it is, and its record stays at the address it came from. -/
theorem moved_arena_leaves_record :
    EachStep (step Arena.lp64 40) Legal start movedArena ∧
      (movedArena.foldlM (step Arena.lp64 40) start).map
        (fun world => (leakcheckStats world.table, liveArenas world)) =
          some (some ⟨1, 80, 1, 0, 0⟩, []) ∧
      ¬Throughout (step Arena.lp64 40) Matches start movedArena := by
  have hstats : (movedArena.foldlM (step Arena.lp64 40) start).map
      (fun world => (leakcheckStats world.table, liveArenas world)) =
      some (some ⟨1, 80, 1, 0, 0⟩, []) := by decide +kernel
  refine ⟨by decide +kernel, hstats, fun hclaim => ?_⟩
  obtain ⟨world, hworld, hmatches⟩ := hclaim.last
  rw [Option.mem_def.1 hworld] at hstats
  simp only [Option.map_some, Option.some.injEq, Prod.mk.injEq] at hstats
  have hcount := hmatches.stats
  rw [hstats.1, Option.some.injEq, liveStats, LorLeakStats.mk.injEq, hstats.2] at hcount
  exact absurd hcount.2.2.1 (by decide)

/-- An arena that went away with the block of another one, and a new object at the same address that
is deinitialized without having been used: the record of the first is gone. -/
example : ([.arenaAlloc (Arena.osAt 4096) 512 (.allocZero 40) 100,
    .arenaInit 4144 ⟨.heap, 0, 0, 0⟩ 200, .arenaDeinit 512,
    .arenaAlloc (Arena.osAt 4096) 512 (.allocZero 40) 300,
    .arenaDeinit 4144].foldlM (step Arena.lp64 40) start).map
      (fun world => (leakcheckStats world.table, liveArenas world)) =
      some (some ⟨0, 0, 1, 0, 0⟩, [512, 4144]) := by
  decide +kernel

end Liblor.Leak
