import Liblor.ArenaSafety

/-!
# Rewinding undoes a scope

A scope starts when a mark is taken and ends when the arena is rewound to it. Between the two there
are allocations, with any answers of the system, and scopes that open and close in turn. The blocks
that the arena had at the mark stay at the end of the chain, and only the newest of them can change.
-/

namespace Liblor.Arena

open BumpStack Transition

/-- An assertion of `lor_arena_rewind` fails. -/
def misuses (arena : LorArena) (mark : Mark) : Bool :=
  match mark.block with
  | none => false
  | some target =>
    !hasBlock arena target ||
      match arena.blocks.dropWhile fun block => block.address != target with
      | [] => false
      | block :: _ => decide (mark.used > block.used)

/-- What can happen to an arena between a mark and the rewinding to it, with the calls of
`lor_arena_rewind` on the way and their arguments. -/
inductive Scope (platform : Platform) : LorArena → List (LorArena × Mark) → LorArena → Prop where
  | opened (arena : LorArena) : Scope platform arena [] arena
  | request {a b : LorArena} {calls : List (LorArena × Mark)} (h : Scope platform a calls b)
      (r : Request) (os : Os) (hlegal : os.Legal b) :
      Scope platform a calls (request platform os b r).2
  | nested {a b c : LorArena} {calls inner : List (LorArena × Mark)} (h : Scope platform a calls b)
      (hinner : Scope platform b inner c) :
      Scope platform a (calls ++ inner ++ [(c, mark b)]) (rewind c (mark b))

section Chain

variable (platform : Platform)

/-- The blocks of an arena are in order and apart. -/
structure Chain (arena : LorArena) : Prop where
  blocks : ∀ block ∈ arena.blocks, BlockOk platform arena.backend block
  apart : arena.blocks.Pairwise RegionsApart

/-- `arena` is `older`, whose newest block has been filled further, below some newer blocks. -/
inductive Above (older arena : LorArena) : Prop where
  | empty (h : older.blocks = [])
  | grown (newer : List Block) {block : Block} {rest : List Block} {used committed : ℕ}
      (hblocks : older.blocks = block :: rest) (hused : block.used ≤ used)
      (hcommitted : block.committed ≤ committed)
      (harena : arena = { older with
        blocks := newer ++ { block with used := used, committed := committed } :: rest })

end Chain

variable {platform : Platform} {os : Os} {a b c arena : LorArena} {s : State}
  {calls : List (LorArena × Mark)}

theorem Sound.chain (h : Sound platform s) : Chain platform s.arena := ⟨h.blocks, h.apart⟩

theorem Chain.sound (h : Chain platform arena) : Sound platform ⟨arena, [], []⟩ where
  blocks := h.blocks
  apart := h.apart
  filed := filed_nil _
  marks := .zero (by simp)
  aligned := by simp
  positive := by simp

theorem Chain.request (h : Chain platform arena) (r : Request) (hlegal : os.Legal arena) :
    Chain platform (Arena.request platform os arena r).2 := by
  have hsound := (h.sound.request hlegal r).chain
  change Chain platform (State.returned ⟨arena, [], []⟩ r.size
    (Arena.request platform os arena r)).arena at hsound
  cases hresult : Arena.request platform os arena r with
  | mk result arena' =>
      rw [hresult] at hsound
      cases result <;> exact hsound

/-! ## What an allocation does to the chain -/

theorem Above.refl (arena : LorArena) : Above arena arena := by
  cases hblocks : arena.blocks with
  | nil => exact .empty hblocks
  | cons block rest =>
      refine .grown [] hblocks (Nat.le_refl _) (Nat.le_refl _) ?_
      rw [List.nil_append, ← hblocks]

theorem Above.fill (h : Above a b) {block : Block} {rest : List Block} {used committed : ℕ}
    (hblocks : b.blocks = block :: rest) (hused : block.used ≤ used)
    (hcommitted : block.committed ≤ committed) :
    Above a { b with blocks := { block with used := used, committed := committed } :: rest } := by
  cases h with
  | empty hempty => exact .empty hempty
  | @grown newer top older used' committed' htop hused' hcommitted' hb =>
      subst b
      cases newer with
      | nil =>
          cases hblocks
          exact .grown [] htop (Nat.le_trans hused' hused)
            (Nat.le_trans hcommitted' hcommitted) rfl
      | cons n newer =>
          cases hblocks
          exact .grown ({ block with used := used, committed := committed } :: newer) htop hused'
            hcommitted' rfl

theorem Above.push (h : Above a b) (block : Block) :
    Above a { b with blocks := block :: b.blocks } := by
  cases h with
  | empty hempty => exact .empty hempty
  | grown newer hblocks hused hcommitted hb =>
      subst b
      exact .grown (block :: newer) hblocks hused hcommitted rfl

theorem Above.outcome (h : Above a b) (hchain : Chain platform b) {size : ℕ}
    {result : Option ℕ × LorArena}
    (hout : Outcome platform os b size platform.maxAlignment result) : Above a result.2 := by
  cases hout with
  | refused => exact h
  | @newest block block' older p hblocks halloc =>
      have hok := hchain.blocks block (hblocks ▸ List.mem_cons_self)
      obtain ⟨hp, -, committed, rfl, hge, -⟩ := blockAlloc_spec hok halloc
      have hstart := le_alignUp (dataStart platform block + block.used) platform.maxAlignment
      exact h.fill hblocks (by omega) hge
  | grown _ _ => exact h.push _
  | fresh _ _ _ => exact h.push _

theorem Above.request (h : Above a b) (hchain : Chain platform b) (r : Request) :
    Above a (Arena.request platform os b r).2 := by
  rcases request_cases platform r with ⟨heq, -⟩ | heq
  · rw [heq]
    exact h
  · rw [heq]
    obtain ⟨arena₀, hready, hout⟩ := allocAligned_cases platform os b r.size platform.maxAlignment
    rcases hready with rfl | ⟨rfl, hempty⟩
    · exact h.outcome hchain hout
    · cases h with
      | empty hempty => exact .empty hempty
      | @grown newer block rest used committed hblocks hused hcommitted hb =>
          have hnil := congrArg LorArena.blocks hb
          simp [arenaInit] at hnil

/-! ## What the rewinding finds -/

/-- Rewinding to a mark that names a block leaves the chain of that moment, with no more change than
bytes committed in its newest block. -/
theorem rewind_above {block : Block} {rest newer : List Block} {used committed : ℕ}
    (hblocks : a.blocks = block :: rest) (hused : block.used ≤ used)
    (hchain : Chain platform { a with
      blocks := newer ++ { block with used := used, committed := committed } :: rest }) :
    misuses
      { a with blocks := newer ++ { block with used := used, committed := committed } :: rest }
        (mark a) = false ∧
      rewind
        { a with blocks := newer ++ { block with used := used, committed := committed } :: rest }
        (mark a) = { a with blocks := { block with committed := committed } :: rest } := by
  have hmark : mark a = ⟨some block.address, block.used⟩ := by
    unfold mark
    rw [hblocks]
  obtain ⟨-, -, hacross⟩ := List.pairwise_append.1 hchain.apart
  have htop : BlockOk platform a.backend { block with used := used, committed := committed } :=
    hchain.blocks _ (List.mem_append_right _ List.mem_cons_self)
  have hnewer : ∀ n ∈ newer, n.address ≠ block.address := by
    intro n hn
    have hok : BlockOk platform a.backend n := hchain.blocks n (List.mem_append_left _ hn)
    have hne := address_ne hok htop (hacross n hn _ List.mem_cons_self)
    exact hne
  constructor
  · have hdrop : (newer ++ { block with used := used, committed := committed } :: rest).dropWhile
        (fun b => b.address != block.address) =
          { block with used := used, committed := committed } :: rest := by
      rw [List.dropWhile_append_of_pos]
      · simp
      · simpa using hnewer
    simp only [misuses, hmark, hdrop, hasBlock, List.any_append, List.any_cons, beq_self_eq_true,
      Bool.true_or, Bool.or_true, Bool.not_true, Bool.false_or, decide_eq_false_iff_not]
    omega
  · have hnewer' : ∀ n ∈ newer, n.address ≠
        ({ block with used := used, committed := committed } : Block).address := hnewer
    have hkept : rewind { a with
        blocks := newer ++ { block with used := used, committed := committed } :: rest }
          ⟨some block.address, block.used⟩ =
        { a with blocks := { block with committed := committed } :: rest } :=
      rewind_some rfl rfl hnewer' hused
    rw [hmark, hkept]

theorem misuses_of_empty (h : a.blocks = []) (arena : LorArena) :
    misuses arena (mark a) = false := by
  simp only [misuses, mark, h]

theorem rewind_of_empty (h : a.blocks = []) (arena : LorArena) :
    rewind arena (mark a) = reset arena := by
  apply rewind_none
  simp only [mark, h]

theorem Chain.reset (h : Chain platform arena) : Chain platform (Arena.reset arena) where
  blocks block hblock := by
    obtain ⟨older, holder, rfl⟩ := List.mem_map.1 hblock
    exact (h.blocks older holder).lower (Nat.zero_le _)
  apart := List.pairwise_map.2 h.apart

theorem Chain.rewind (h : Chain platform c) (habove : Above b c) :
    Chain platform (Arena.rewind c (mark b)) := by
  cases habove with
  | empty hempty =>
      rw [rewind_of_empty hempty]
      exact h.reset
  | @grown newer block rest used committed hblocks hused hcommitted hc =>
      subst c
      rw [(rewind_above hblocks hused h).2]
      obtain ⟨-, hrest, -⟩ := List.pairwise_append.1 h.apart
      refine ⟨?_, ?_⟩
      · intro x hx
        rcases List.mem_cons.1 hx with rfl | hx
        · exact (h.blocks { block with used := used, committed := committed }
            (List.mem_append_right _ List.mem_cons_self)).lower hused
        · exact h.blocks x (List.mem_append_right _ (List.mem_cons_of_mem _ hx))
      · obtain ⟨hhead, htail⟩ := List.pairwise_cons.1 hrest
        exact List.pairwise_cons.2 ⟨fun x hx => hhead x hx, htail⟩

theorem Above.rewind (h : Above a b) (hchain : Chain platform c) (habove : Above b c) :
    Above a (Arena.rewind c (mark b)) := by
  cases habove with
  | empty hempty =>
      cases h with
      | empty hnone => exact .empty hnone
      | grown newer hblocks hused hcommitted hb =>
          rw [hb] at hempty
          simp at hempty
  | @grown newer block rest used committed hblocks hused hcommitted hc =>
      subst c
      rw [(rewind_above hblocks hused hchain).2]
      exact h.fill hblocks (Nat.le_refl _) hcommitted

theorem Above.misuses_eq (habove : Above b c) (hchain : Chain platform c) :
    misuses c (mark b) = false := by
  cases habove with
  | empty hempty => exact misuses_of_empty hempty c
  | grown newer hblocks hused hcommitted hc =>
      subst c
      exact (rewind_above hblocks hused hchain).1

/-- What a scope keeps, by induction on its steps; an inner scope is one by itself. -/
theorem Scope.above (h : Scope platform a calls b) (hchain : Chain platform a) :
    Chain platform b ∧ Above a b ∧ ∀ call ∈ calls, misuses call.1 call.2 = false := by
  induction h with
  | opened arena => exact ⟨hchain, Above.refl arena, by simp⟩
  | request _ r os hlegal ih =>
      obtain ⟨hb, habove, hcalls⟩ := ih hchain
      exact ⟨hb.request r hlegal, habove.request hb r, hcalls⟩
  | nested _ _ ih ihinner =>
      obtain ⟨hb, habove, hcalls⟩ := ih hchain
      obtain ⟨hc, habove', hinner⟩ := ihinner hb
      refine ⟨hc.rewind habove', habove.rewind hc habove', ?_⟩
      intro call hcall
      rcases List.mem_append.1 hcall with hcall | hcall
      · rcases List.mem_append.1 hcall with hcall | hcall
        · exact hcalls call hcall
        · exact hinner call hcall
      · rw [List.mem_singleton.1 hcall]
        exact habove'.misuses_eq hc

theorem used_reset (arena : LorArena) : used (reset arena) = 0 := by
  simp only [used, reset, List.map_map]
  apply List.sum_eq_zero
  intro n hn
  obtain ⟨block, -, rfl⟩ := List.mem_map.1 hn
  rfl

/-- The effect of rewinding to the mark that was taken on `arena`. -/
structure Restores (arena after : LorArena) : Prop where
  used : used after = used arena
  chain : ∀ block older, arena.blocks = block :: older →
    ∃ committed, block.committed ≤ committed ∧
      after = { arena with blocks := { block with committed := committed } :: older }
  capacity : arena.blocks ≠ [] → capacity after = capacity arena

theorem Above.restores (habove : Above a b) (hchain : Chain platform b) :
    Restores a (Arena.rewind b (mark a)) := by
  cases habove with
  | empty hempty =>
      rw [rewind_of_empty hempty]
      refine ⟨?_, ?_, fun hne => absurd hempty hne⟩
      · rw [used_reset, used, hempty]
        rfl
      · intro block older hblocks
        rw [hempty] at hblocks
        cases hblocks
  | @grown newer block rest used' committed hblocks hused hcommitted hb =>
      subst b
      rw [(rewind_above hblocks hused hchain).2]
      refine ⟨?_, ?_, fun _ => ?_⟩
      · simp only [used, hblocks, List.map_cons]
      · intro block' older' hblocks'
        rw [hblocks] at hblocks'
        cases hblocks'
        exact ⟨committed, hcommitted, rfl⟩
      · simp only [Arena.capacity, hblocks, List.map_cons]

/-- A mark, anything nested, and the rewinding to the mark: the arena is as it was, a mark without a
block keeps every block but empties it, and no call of `lor_arena_rewind` trips an assertion. -/
theorem rewind_restores (h : Reachable (system platform) s)
    (hscope : Scope platform s.arena calls arena) :
    Restores s.arena (rewind arena (mark s.arena)) ∧
      (s.arena.blocks = [] → used (rewind arena (mark s.arena)) = 0 ∧
        (rewind arena (mark s.arena)).blocks.map Block.address = arena.blocks.map Block.address) ∧
      ∀ call ∈ calls ++ [(arena, mark s.arena)], misuses call.1 call.2 = false := by
  obtain ⟨hchain, habove, hcalls⟩ := hscope.above (sound_of_reachable h).chain
  refine ⟨habove.restores hchain, ?_, ?_⟩
  · intro hempty
    rw [rewind_of_empty hempty]
    refine ⟨used_reset arena, ?_⟩
    simp only [reset, List.map_map]
    rfl
  · intro call hcall
    rcases List.mem_append.1 hcall with hcall | hcall
    · exact hcalls call hcall
    · rw [List.mem_singleton.1 hcall]
      exact habove.misuses_eq hchain

/-- An inner scope that needs a second block, and an outer one that keeps only the first. -/
theorem rewind_restores_nested :
    let s := step lp64 ⟨arenaInit, [], []⟩ (.request (.alloc 100) (osAt 4096))
    let b := (request lp64 (osAt (2 ^ 30)) s.arena (.alloc 100000)).2
    let c := (request lp64 (osAt (2 ^ 31)) b (.alloc 50)).2
    b.blocks.length = 2 ∧ c.blocks.length = 3 ∧ used s.arena = 100 ∧
      used (rewind (rewind c (mark b)) (mark s.arena)) = 100 ∧
      misuses (rewind c (mark b)) (mark s.arena) = false := by
  intro s b c
  have h₀ : Run (system lp64) [] ⟨arenaInit, [], []⟩ := .start rfl
  have h₁ := run_step h₀ (.request (.alloc 100) (osAt 4096)) (osAt_legal (by decide) (by decide))
  have hb : Scope lp64 s.arena [] b :=
    (Scope.opened _).request _ _ (osAt_legal (by decide) (by decide))
  have hc : Scope lp64 b [] c :=
    (Scope.opened _).request _ _ (osAt_legal (by decide) (by decide))
  obtain ⟨hrestores, -, hcalls⟩ := rewind_restores ⟨_, h₁⟩ (hb.nested hc)
  have hused : used s.arena = 100 := by decide
  exact ⟨by decide, by decide, hused, hrestores.used.trans hused,
    hcalls (rewind c (mark b), mark s.arena) (List.mem_append_right _ List.mem_cons_self)⟩

end Liblor.Arena
