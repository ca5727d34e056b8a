import Liblor.ArenaBlocks

/-!
# What an arena reports about itself

The calls that a program makes on one arena, in any order and with any mark, while the system grants
regions apart from those held and reserves whole pages. The counters of every block follow its
region, and from that the three totals are in order.
-/

namespace Liblor.Arena

open Transition

section Platform

variable (platform : Platform)

/-- What one block adds to the committed total. -/
def blockCommitted (backend : Backend) (block : Block) : ℕ :=
  if backend = .virtual then
    let dataOffset := match blockData platform block with
      | none => 0
      | some data => data - block.address
    if block.committed > dataOffset then block.committed - dataOffset else 0
  else block.committed

def committed (arena : LorArena) : ℕ :=
  (arena.blocks.map (blockCommitted platform arena.backend)).sum

inductive Call where
  | init (config : Config)
  | request (r : Request) (os : Os)
  | mark
  | rewind (m : Mark)
  | reset
  | deinit

def Call.Legal (arena : LorArena) : Call → Prop
  | .request _ os => os.Legal arena ∧ os.Paged platform
  | _ => True

def Call.run (arena : LorArena) : Call → LorArena
  | .init config => (initConfig platform arena config).2
  | .request r os => (Arena.request platform os arena r).2
  | .mark => arena
  | .rewind m => Arena.rewind arena m
  | .reset => Arena.reset arena
  | .deinit => Arena.deinit arena

def calls : System LorArena Call where
  start arena := arena = arenaInit
  step arena call arena' := call.Legal platform arena ∧ arena' = call.run platform arena

/-- The arena after the lazy initialization of `lor_arena__alloc_aligned`. -/
def ready (arena : LorArena) : LorArena :=
  if arena.blockSize = 0 ∧ arena.reserveSize = 0 then configured ⟨.heap, 0, 0, 0⟩ else arena

structure Accounted (arena : LorArena) : Prop where
  config : arena = arenaInit ∨ Initialized platform arena
  blocks : ∀ block ∈ arena.blocks, Counted platform arena.backend block
  apart : arena.blocks.Pairwise RegionsApart

end Platform

variable {platform : Platform} {os : Os} {arena arena' : LorArena} {block block' : Block}

theorem initInternal_initialized (hpage : ∃ k, platform.pageSize = 2 ^ k) {config : Config}
    (h : initInternal platform arena config = (true, arena')) : Initialized platform arena' := by
  have hblock : 0 < (configured config).blockSize := by
    unfold configured
    dsimp only
    split_ifs <;> first | omega | decide
  have hreserve : 0 < (configured config).reserveSize := by
    unfold configured
    dsimp only
    split_ifs <;> first | omega | decide
  have hcommit : 0 < (configured config).commitSize := by
    unfold configured
    dsimp only
    split_ifs <;> first | omega | decide
  unfold initInternal at h
  dsimp only at h
  split_ifs at h with hinit hkind hvirtual hzero
  · simp at h
  · simp at h
  · simp at h
  · simp only [Prod.mk.injEq, true_and] at h
    subst arena'
    simp only [not_or] at hzero
    refine ⟨Or.inr hvirtual, hblock, Nat.pos_of_ne_zero hzero.1, Nat.pos_of_ne_zero hzero.2, ?_,
      fun _ => dvd_pageAlign hpage⟩
    intro _
    have hle := (pageAlign_ne_zero_iff hpage hcommit).1 hzero.2
    exact pageAlign_le_sizeMax (Nat.le_trans hle (Nat.sub_le _ _))
  · simp only [Prod.mk.injEq, true_and] at h
    subst arena'
    have hheap : (configured config).backend = .heap := by
      by_contra hne
      exact hkind ⟨hne, hvirtual⟩
    exact ⟨Or.inl hheap, hblock, hreserve, hcommit, fun hv => absurd hv hvirtual,
      fun hv => absurd hv hvirtual⟩

theorem Initialized.withBlocks (h : Initialized platform arena) (blocks : List Block) :
    Initialized platform { arena with blocks := blocks } :=
  ⟨h.backend, h.block_pos, h.reserve_pos, h.commit_pos, h.commit_le, h.commit_page⟩

theorem accounted_of_empty (hempty : arena.blocks = [])
    (hconfig : arena = arenaInit ∨ Initialized platform arena) : Accounted platform arena :=
  ⟨hconfig, by simp [hempty], by simp [hempty]⟩

theorem Accounted.init (hpage : ∃ k, platform.pageSize = 2 ^ k) (h : Accounted platform arena)
    (config : Config) : Accounted platform (initInternal platform arena config).2 := by
  rcases initInternal_cases platform arena config with hfail | ⟨-, arena', hok, hempty⟩
  · rw [hfail]
    exact h
  · rw [hok]
    exact accounted_of_empty hempty (Or.inr (initInternal_initialized hpage hok))

theorem Accounted.ready (hpage : ∃ k, platform.pageSize = 2 ^ k) (h : Accounted platform arena) :
    Accounted platform (ready arena) ∧ Initialized platform (ready arena) ∧
      (ready arena).blocks = arena.blocks := by
  rcases h.config with rfl | hconfig
  · have hinit : initInternal platform arenaInit ⟨.heap, 0, 0, 0⟩ = (true, Arena.ready arenaInit) :=
      rfl
    have hconfig := initInternal_initialized hpage hinit
    exact ⟨accounted_of_empty rfl (Or.inr hconfig), hconfig, rfl⟩
  · have hready : Arena.ready arena = arena := by
      unfold Arena.ready
      rw [if_neg]
      intro hzero
      have hpos := hconfig.block_pos
      omega
    rw [hready]
    exact ⟨h, hconfig, rfl⟩

theorem allocAligned_ready (h : Accounted platform arena) {size : ℕ} (hpos : 0 < size) :
    allocAligned platform os arena size platform.maxAlignment =
      allocReady platform os (ready arena) size platform.maxAlignment := by
  have hpow := isPowerOfTwo_of_pow platform.maxAlignment_pow
  unfold allocAligned ready
  rw [if_neg (by simp [hpow]; omega)]
  rcases h.config with rfl | hconfig
  · rfl
  · have hblock := hconfig.block_pos
    rw [if_neg (by omega), if_neg (by omega)]

theorem Accounted.push (hpage : ∃ k, platform.pageSize = 2 ^ k) (h : Accounted platform arena)
    (hconfig : Initialized platform arena) (hlegal : os.Legal arena) (hpaged : os.Paged platform)
    {minCapacity : ℕ} (hpos : 0 < minCapacity)
    (hnew : blockNew platform os arena minCapacity = some block) :
    Accounted platform { arena with blocks := block :: arena.blocks } := by
  obtain ⟨hregion, -⟩ := blockNew_spec hnew hpos
  have hcounted := blockNew_counted hpage hconfig hlegal hpaged hpos hnew
  refine ⟨Or.inr (hconfig.withBlocks _), ?_, ?_⟩
  · intro b hb
    rcases List.mem_cons.1 hb with rfl | hb
    · exact hcounted
    · exact h.blocks b hb
  · exact List.pairwise_cons.2 ⟨(hlegal _ _ hregion).2, h.apart⟩

theorem Accounted.replace (h : Accounted platform arena) {older : List Block}
    (hblocks : arena.blocks = block :: older)
    (hcounted : Counted platform arena.backend block') (haddress : block'.address = block.address)
    (hsize : block'.allocationSize = block.allocationSize) :
    Accounted platform { arena with blocks := block' :: older } := by
  have hapart := h.apart
  rw [hblocks] at hapart
  obtain ⟨hhead, htail⟩ := List.pairwise_cons.1 hapart
  refine ⟨?_, ?_, ?_⟩
  · rcases h.config with rfl | hconfig
    · cases hblocks
    · exact Or.inr (hconfig.withBlocks _)
  · intro b hb
    rcases List.mem_cons.1 hb with rfl | hb
    · exact hcounted
    · exact h.blocks b (hblocks ▸ List.mem_cons_of_mem _ hb)
  · refine List.pairwise_cons.2 ⟨fun c hc => ?_, htail⟩
    have hc' := hhead c hc
    unfold RegionsApart at hc' ⊢
    rw [haddress, hsize]
    exact hc'

theorem Accounted.bump (hpage : ∃ k, platform.pageSize = 2 ^ k) (h : Accounted platform arena)
    (hconfig : Initialized platform arena) {older : List Block}
    (hblocks : arena.blocks = block :: older) {size p : ℕ} (hpos : 0 < size)
    (halloc : blockAlloc platform os arena block size platform.maxAlignment = some (p, block')) :
    Accounted platform { arena with blocks := block' :: older } := by
  have hcounted := h.blocks block (hblocks ▸ List.mem_cons_self)
  have hcounted' := hcounted.alloc hpage hconfig hpos halloc
  obtain ⟨-, -, committed, rfl, -⟩ := blockAlloc_spec hcounted.ok halloc
  exact h.replace hblocks hcounted' rfl rfl

theorem Accounted.outcome (hpage : ∃ k, platform.pageSize = 2 ^ k) (h : Accounted platform arena)
    (hconfig : Initialized platform arena) (hlegal : os.Legal arena) (hpaged : os.Paged platform)
    {size : ℕ} (hpos : 0 < size) {result : Option ℕ × LorArena}
    (hout : Outcome platform os arena size platform.maxAlignment result) :
    Accounted platform result.2 := by
  cases hout with
  | refused => exact h
  | newest hblocks halloc => exact h.bump hpage hconfig hblocks hpos halloc
  | grown hsize hnew => exact h.push hpage hconfig hlegal hpaged (by omega) hnew
  | fresh hsize hnew halloc =>
      have hpush := h.push hpage hconfig hlegal hpaged (by omega) hnew
      exact hpush.bump hpage (hconfig.withBlocks _) rfl
        hpos halloc

theorem Accounted.request (hpage : ∃ k, platform.pageSize = 2 ^ k) (h : Accounted platform arena)
    (hlegal : os.Legal arena) (hpaged : os.Paged platform) (r : Request) :
    Accounted platform (Arena.request platform os arena r).2 := by
  rcases request_cases platform r with ⟨heq, -⟩ | heq
  · rw [heq]
    exact h
  · rw [heq]
    rcases Nat.eq_zero_or_pos r.size with hzero | hpos
    · unfold allocAligned
      rw [if_pos (Or.inl hzero)]
      exact h
    · obtain ⟨hready, hconfig, hblocks⟩ := h.ready hpage
      rw [allocAligned_ready h hpos]
      apply hready.outcome hpage hconfig _ hpaged hpos (allocReady_cases _ _ _ _ _)
      intro size address hregion
      rw [hblocks]
      exact hlegal size address hregion

theorem Accounted.sublist (h : Accounted platform arena) {blocks : List Block}
    (hsub : blocks.Sublist arena.blocks) : Accounted platform { arena with blocks := blocks } := by
  refine ⟨?_, fun block hb => h.blocks block (hsub.subset hb), h.apart.sublist hsub⟩
  rcases h.config with rfl | hconfig
  · rw [List.eq_nil_of_sublist_nil hsub]
    exact Or.inl rfl
  · exact Or.inr (hconfig.withBlocks _)

theorem Accounted.reset (h : Accounted platform arena) :
    Accounted platform (Arena.reset arena) := by
  refine ⟨?_, ?_, List.pairwise_map.2 h.apart⟩
  · rcases h.config with rfl | hconfig
    · exact Or.inl rfl
    · exact Or.inr (hconfig.withBlocks _)
  · intro b hb
    obtain ⟨c, hc, rfl⟩ := List.mem_map.1 hb
    exact (h.blocks c hc).lower (Nat.zero_le _)

theorem Accounted.rewind (h : Accounted platform arena) (m : Mark) :
    Accounted platform (Arena.rewind arena m) := by
  unfold Arena.rewind
  cases m.block with
  | none => exact h.reset
  | some target =>
      dsimp only
      by_cases hmissing : hasBlock arena target = false
      · rw [if_pos hmissing]
        exact h
      · rw [if_neg hmissing]
        have hkept := h.sublist (List.dropWhile_sublist fun b => b.address != target)
        cases hdrop : arena.blocks.dropWhile fun b => b.address != target with
        | nil =>
            rw [hdrop] at hkept
            exact hkept
        | cons block older =>
            rw [hdrop] at hkept
            dsimp only
            by_cases hused : m.used > block.used
            · rw [if_pos hused]
              exact hkept
            · rw [if_neg hused]
              have hcounted := hkept.blocks block List.mem_cons_self
              exact hkept.replace rfl (hcounted.lower (Nat.not_lt.1 hused)) rfl rfl

theorem Accounted.call (hpage : ∃ k, platform.pageSize = 2 ^ k) (h : Accounted platform arena)
    {call : Call} (hlegal : call.Legal platform arena) :
    Accounted platform (call.run platform arena) := by
  cases call with
  | init config => exact h.init hpage config
  | request r os => exact h.request hpage hlegal.1 hlegal.2 r
  | mark => exact h
  | rewind m => exact h.rewind m
  | reset => exact h.reset
  | deinit => exact accounted_of_empty rfl (Or.inl rfl)

theorem accounted_of_reachable (hpage : ∃ k, platform.pageSize = 2 ^ k)
    (h : Reachable (calls platform) arena) : Accounted platform arena := by
  apply h.invariant
  · rintro _ rfl
    exact accounted_of_empty rfl (Or.inl rfl)
  · rintro arena call _ haccounted ⟨hlegal, rfl⟩
    exact haccounted.call hpage hlegal

section Totals

variable {backend : Backend}

theorem Counted.blockCommitted_bounds (h : Counted platform backend block)
    (hbackend : backend = .heap ∨ backend = .virtual) :
    block.used ≤ blockCommitted platform backend block ∧
      blockCommitted platform backend block ≤ block.capacity := by
  have hused := h.ok.used_le
  unfold blockCommitted
  rcases hbackend with rfl | rfl
  · have heq := h.heap rfl
    rw [if_neg (by decide)]
    omega
  · have hreserved := h.virtual rfl
    have hfilled := hreserved.filled
    have hbacked := hreserved.backed
    have hcommitted := h.ok.committed_le
    obtain ⟨offset, hoffset⟩ := Nat.exists_eq_add_of_le (address_le_dataStart platform block)
    rw [if_pos rfl, h.ok.data]
    dsimp only
    rw [hoffset, Nat.add_sub_cancel_left]
    rw [hoffset] at hfilled hbacked
    split_ifs <;> omega

theorem Accounted.backend_cases (h : Accounted platform arena) :
    arena.backend = .heap ∨ arena.backend = .virtual := by
  rcases h.config with rfl | hconfig
  · exact Or.inl rfl
  · exact hconfig.backend

theorem Accounted.capacity_le (h : Accounted platform arena) : capacity arena ≤ sizeMax := by
  have hregions : (arena.blocks.map Block.allocationSize).sum ≤ uintptrMax + 1 - 1 := by
    apply Extents.sum_size_le h.apart
    intro block hblock
    exact ⟨(h.blocks block hblock).ok.region.1, (h.blocks block hblock).ok.region.2⟩
  refine Nat.le_trans (List.sum_le_sum ?_) hregions
  intro block hblock
  have hend := (h.blocks block hblock).ok.data_end
  have haddress := address_le_dataStart platform block
  omega

end Totals

/-- In every state that the calls on an arena can reach the used bytes are committed and the
committed bytes are in the capacity, all of it for a heap arena, and none of the totals wraps. In a
block the header and the used bytes are committed, and what is committed is reserved. -/
theorem accounting_ordered (platform : Platform) (hpage : ∃ k, platform.pageSize = 2 ^ k)
    (arena : LorArena) (h : Reachable (calls platform) arena) :
    used arena ≤ committed platform arena ∧ committed platform arena ≤ capacity arena ∧
    capacity arena ≤ sizeMax ∧
    (arena.backend = .heap → committed platform arena = capacity arena) ∧
    ∀ block ∈ arena.blocks, block.used ≤ block.capacity ∧
      ∃ data, blockData platform block = some data ∧ block.address ≤ data ∧
        (arena.backend = .virtual →
          data - block.address + block.used ≤ block.committed ∧
          block.committed ≤ block.allocationSize ∧
          data - block.address + block.capacity = block.allocationSize) := by
  have haccounted := accounted_of_reachable hpage h
  have hbounds := fun block hblock =>
    (haccounted.blocks block hblock).blockCommitted_bounds haccounted.backend_cases
  refine ⟨?_, ?_, haccounted.capacity_le, ?_, ?_⟩
  · exact List.sum_le_sum fun block hblock => (hbounds block hblock).1
  · exact List.sum_le_sum fun block hblock => (hbounds block hblock).2
  · intro hheap
    unfold committed capacity
    congr 1
    apply List.map_congr_left
    intro block hblock
    unfold blockCommitted
    rw [if_neg (by simp [hheap])]
    exact (haccounted.blocks block hblock).heap hheap
  · intro block hblock
    have hcounted := haccounted.blocks block hblock
    refine ⟨hcounted.ok.used_le, _, hcounted.ok.data, address_le_dataStart platform block, ?_⟩
    intro hvirtual
    have hreserved := hcounted.virtual hvirtual
    have hfilled := hreserved.filled
    have hbacked := hreserved.backed
    have haddress := address_le_dataStart platform block
    exact ⟨by omega, hcounted.ok.committed_le, by omega⟩

theorem calls_step {calls' : List Call} (hrun : Run (calls platform) calls' arena) (call : Call)
    (hlegal : call.Legal platform arena) :
    Run (calls platform) (calls' ++ [call]) (call.run platform arena) :=
  hrun.step ⟨hlegal, rfl⟩

theorem osAt_paged {address : ℕ} (h : platform.pageSize ∣ address) :
    (osAt address).Paged platform := by
  intro size a ha
  have heq : address + size ≤ uintptrMax ∧ address = a := by
    simpa [osAt] using ha
  exact heq.2 ▸ h

/-- A virtual arena after two allocations, the second of which needs more than was committed. -/
theorem accounting_ordered_grown :
    let arena := Call.run lp64 (Call.run lp64 (Call.run lp64 arenaInit
      (.init ⟨.virtual, 0, 1048576, 8192⟩)) (.request (.alloc 100) (osAt 4096)))
      (.request (.alloc 10000) (osAt (2 ^ 30)))
    (used arena, committed lp64 arena, capacity arena) = (10112, 16336, 1048528) ∧
      used arena ≤ committed lp64 arena ∧ committed lp64 arena ≤ capacity arena := by
  intro arena
  have h₀ : Run (calls lp64) [] arenaInit := .start rfl
  have h₁ := calls_step h₀ (.init ⟨.virtual, 0, 1048576, 8192⟩) trivial
  have h₂ := calls_step h₁ (.request (.alloc 100) (osAt 4096))
    ⟨osAt_legal (by decide) (by decide), osAt_paged (by decide)⟩
  have h₃ := calls_step h₂ (.request (.alloc 10000) (osAt (2 ^ 30)))
    ⟨osAt_legal (by decide) (by decide), osAt_paged (by decide)⟩
  obtain ⟨hused, hcommitted, -⟩ := accounting_ordered lp64 ⟨12, rfl⟩ arena ⟨_, h₃⟩
  exact ⟨by decide, hused, hcommitted⟩

end Liblor.Arena
