import Liblor.ArenaAccounting

/-!
# When an allocation fails, and what it leaves

A new block always has room for the request that it was created for. So an allocation that fails was
stopped by an overflowing size or by the system; and it has left a new block behind exactly when the
system granted the block and its first pages but not the pages that the request itself needs.
-/

namespace Liblor.Arena

open Transition

section Platform

variable (platform : Platform)

def minCapacity (size : ℕ) : ℕ := size + (platform.maxAlignment - 1)

def heapCapacity (arena : LorArena) (size : ℕ) : ℕ :=
  if arena.blockSize < minCapacity platform size then minCapacity platform size else arena.blockSize

def newBlock (arena : LorArena) (size address : ℕ) : Block :=
  virtualBlock platform arena (minCapacity platform size) address

def newTotal (arena : LorArena) (size address : ℕ) : ℕ :=
  dataStart platform (newBlock platform arena size address) - address + size

structure Sized (arena : LorArena) (size : ℕ) : Prop where
  padded : addOverflowsSize size (platform.maxAlignment - 1) = false
  headed : addOverflowsSize (minCapacity platform size) (blockHeaderSlack platform) = false
  paged : addOverflowsSize
    (max arena.reserveSize (minCapacity platform size + blockHeaderSlack platform))
    (platform.pageSize - 1) = false

/-- The system reserves a new virtual block at the address and commits its first pages. -/
structure Created (os : Os) (arena : LorArena) (size address : ℕ) : Prop where
  sized : Sized platform arena size
  reserved : os.reserveRaw (freshReserve platform arena (minCapacity platform size)) = some address
  granted : freshCommit platform arena (minCapacity platform size) ≠ 0 →
    os.commitRaw address (freshCommit platform arena (minCapacity platform size)) = true

end Platform

def Committable (os : Os) (commitSize : ℕ) (block : Block) (total : ℕ) : Prop :=
  total ≤ block.committed ∨ addOverflowsSize total (commitSize - 1) = false ∧
    os.commitRaw (block.address + block.committed)
      (grownTo commitSize block total - block.committed) = true

def Serves (platform : Platform) (os : Os) (arena : LorArena) (block : Block) (size : ℕ) : Prop :=
  let finish := alignUp (dataStart platform block + block.used) platform.maxAlignment + size
  finish ≤ dataStart platform block + block.capacity ∧
    (arena.backend = .virtual →
      Committable os arena.commitSize block (finish - block.address))

/-- A size computation that passes `SIZE_MAX`, or a request to the system that is made and refused,
while the arena allocates from a new block. -/
inductive Refused (platform : Platform) (os : Os) (arena : LorArena) (size : ℕ) : Prop where
  | paddedSize (h : addOverflowsSize size (platform.maxAlignment - 1) = true)
  | heapSize (hbackend : arena.backend = .heap)
      (h : addOverflowsSize (heapCapacity platform arena size) (blockHeaderSlack platform) = true)
  | malloc (hbackend : arena.backend = .heap)
      (hsized : addOverflowsSize (heapCapacity platform arena size) (blockHeaderSlack platform) =
        false)
      (h : os.malloc (heapCapacity platform arena size + blockHeaderSlack platform) = none)
  | virtualSize (hbackend : arena.backend = .virtual)
      (h : addOverflowsSize (minCapacity platform size) (blockHeaderSlack platform) = true)
  | pagedSize (hbackend : arena.backend = .virtual)
      (h : addOverflowsSize
        (max arena.reserveSize (minCapacity platform size + blockHeaderSlack platform))
        (platform.pageSize - 1) = true)
  | reserve (hbackend : arena.backend = .virtual) (hsized : Sized platform arena size)
      (h : os.reserveRaw (freshReserve platform arena (minCapacity platform size)) = none)
  | firstCommit {address : ℕ} (hbackend : arena.backend = .virtual)
      (hsized : Sized platform arena size)
      (hpages : freshCommit platform arena (minCapacity platform size) ≠ 0)
      (hreserved : os.reserveRaw (freshReserve platform arena (minCapacity platform size)) =
        some address)
      (h : os.commitRaw address (freshCommit platform arena (minCapacity platform size)) = false)
  | grownSize {address : ℕ} (hbackend : arena.backend = .virtual)
      (hcreated : Created platform os arena size address)
      (hgrows : freshCommit platform arena (minCapacity platform size) <
        newTotal platform arena size address)
      (h : addOverflowsSize (newTotal platform arena size address) (arena.commitSize - 1) = true)
  | growth {address : ℕ} (hbackend : arena.backend = .virtual)
      (hcreated : Created platform os arena size address)
      (hgrows : freshCommit platform arena (minCapacity platform size) <
        newTotal platform arena size address)
      (hsized : addOverflowsSize (newTotal platform arena size address) (arena.commitSize - 1) =
        false)
      (h : os.commitRaw (address + freshCommit platform arena (minCapacity platform size))
        (grownTo arena.commitSize (newBlock platform arena size address)
          (newTotal platform arena size address) -
            freshCommit platform arena (minCapacity platform size)) = false)

/-- The newest block cannot serve the request, and the system grants a new virtual block and its
first pages, which do not cover the request, but not the growth that would. -/
structure Strands (platform : Platform) (os : Os) (arena : LorArena) (size : ℕ) : Prop where
  virtual : arena.backend = .virtual
  asked : 0 < size
  busy : ∀ block older, arena.blocks = block :: older → ¬ Serves platform os arena block size
  stranded : ∃ address, Created platform os arena size address ∧
    ¬ Committable os arena.commitSize (newBlock platform arena size address)
      (newTotal platform arena size address)

/-- What a program can see of an arena has not changed, and neither has the block that is next. -/
structure Unchanged (platform : Platform) (arena arena' : LorArena) : Prop where
  blocks : arena'.blocks = arena.blocks
  used : used arena' = used arena
  capacity : capacity arena' = capacity arena
  committed : committed platform arena' = committed platform arena
  next : arena'.blocks.head? = arena.blocks.head?

variable {platform : Platform} {os : Os} {arena : LorArena} {block : Block} {size : ℕ}

theorem blockEnsureCommitted_isSome {backend : Backend} (hok : BlockOk platform backend block)
    {neededUsed commitSize : ℕ} (hpos : 0 < commitSize) (hneeded : neededUsed ≤ block.capacity) :
    (blockEnsureCommitted platform os block neededUsed commitSize).isSome = true ↔
      Committable os commitSize block
        (dataStart platform block - block.address + neededUsed) := by
  rw [blockEnsureCommitted_eq hok hpos hneeded]
  unfold Committable
  dsimp only
  split_ifs <;> simp_all

theorem blockAlloc_isSome (hconfig : Initialized platform arena)
    (hok : BlockOk platform arena.backend block) (hpos : 0 < size) :
    (blockAlloc platform os arena block size platform.maxAlignment).isSome = true ↔
      Serves platform os arena block size := by
  have hstart := le_alignUp (dataStart platform block + block.used) platform.maxAlignment
  have haddress := address_le_dataStart platform block
  rw [blockAlloc_eq hok hpos]
  unfold Serves
  dsimp only
  generalize alignUp (dataStart platform block + block.used) platform.maxAlignment = p at *
  by_cases hfull : dataStart platform block + block.capacity < p + size
  · rw [if_pos hfull]
    simp [Nat.not_le.2 hfull]
  · rw [if_neg hfull]
    have hfits := Nat.not_lt.1 hfull
    have htotal : dataStart platform block - block.address +
        (p + size - dataStart platform block) = p + size - block.address := by omega
    by_cases hvirtual : arena.backend = .virtual
    · rw [if_pos hvirtual, Option.isSome_map,
        blockEnsureCommitted_isSome hok hconfig.commit_pos (by omega), htotal]
      simp [hfits, hvirtual]
    · rw [if_neg hvirtual]
      simp [hfits, hvirtual]

theorem alignUp_of_dvd {value alignment : ℕ} (h : ∃ k, alignment = 2 ^ k)
    (hdvd : alignment ∣ value) : alignUp value alignment = value := by
  have hzero : alignUp 0 alignment = 0 := by simp [alignUp]
  have hadd := alignUp_add h hdvd 0
  rw [hzero] at hadd
  exact hadd

theorem serves_unused (hused : block.used = 0) (hroom : size ≤ block.capacity) :
    Serves platform os arena block size ↔ (arena.backend = .virtual →
      Committable os arena.commitSize block (dataStart platform block - block.address + size)) := by
  have haddress := address_le_dataStart platform block
  have htotal : dataStart platform block + size - block.address =
      dataStart platform block - block.address + size := by omega
  unfold Serves
  rw [hused, Nat.add_zero, alignUp_of_dvd platform.maxAlignment_pow (dvd_dataStart platform block)]
  dsimp only
  rw [htotal]
  simp [hroom]

theorem le_minCapacity (platform : Platform) (size : ℕ) : size ≤ minCapacity platform size :=
  Nat.le_add_right _ _

theorem blockNew_heap (hheap : arena.backend = .heap) :
    blockNew platform os arena (minCapacity platform size) =
      heapBlockNew platform os (heapCapacity platform arena size) := by
  unfold blockNew heapCapacity
  rw [if_neg (by simp [hheap])]
  split_ifs <;> rfl

theorem blockNew_virtual (hvirtual : arena.backend = .virtual) {capacity : ℕ} :
    blockNew platform os arena capacity =
      virtualBlockNew platform os arena.reserveSize arena.commitSize capacity :=
  if_pos hvirtual

theorem freshReserve_ne_zero_iff (hpage : ∃ k, platform.pageSize = 2 ^ k) (hpos : 0 < size) :
    freshReserve platform arena (minCapacity platform size) ≠ 0 ↔ addOverflowsSize
      (max arena.reserveSize (minCapacity platform size + blockHeaderSlack platform))
      (platform.pageSize - 1) = false := by
  have hle := le_minCapacity platform size
  unfold freshReserve
  rw [virtualReserve_ne_zero_iff hpage (by omega)]
  simp [addOverflowsSize]

theorem created_iff (hpage : ∃ k, platform.pageSize = 2 ^ k) (hvirtual : arena.backend = .virtual)
    (hspace : ∀ size address, os.reserveRaw size = some address → InSpace address size)
    (hpos : 0 < size) (hpadded : addOverflowsSize size (platform.maxAlignment - 1) = false) :
    blockNew platform os arena (minCapacity platform size) = some block ↔
      ∃ address, Created platform os arena size address ∧
        block = newBlock platform arena size address := by
  have hle := le_minCapacity platform size
  rw [blockNew_virtual hvirtual, virtualBlockNew_iff hspace (by omega),
    freshReserve_ne_zero_iff hpage hpos]
  constructor
  · rintro ⟨hheaded, hpaged, address, hreserved, hgranted, hblock⟩
    exact ⟨address, ⟨⟨hpadded, hheaded, hpaged⟩, hreserved, hgranted⟩, hblock⟩
  · rintro ⟨address, ⟨⟨-, hheaded, hpaged⟩, hreserved, hgranted⟩, hblock⟩
    exact ⟨hheaded, hpaged, address, hreserved, hgranted, hblock⟩

theorem blockNew_of_oversized {capacity : ℕ}
    (h : addOverflowsSize capacity (blockHeaderSlack platform) = true) :
    blockNew platform os arena capacity = none := by
  unfold blockNew
  split_ifs with hvirtual hsmall
  · unfold virtualBlockNew
    exact if_pos h
  · unfold heapBlockNew
    exact if_pos h
  · unfold heapBlockNew
    apply if_pos
    simp only [addOverflowsSize, decide_eq_true_eq] at h ⊢
    omega

theorem allocFresh_eq (platform : Platform) (os : Os) (arena : LorArena) (size : ℕ) :
    allocFresh platform os arena size platform.maxAlignment =
      if addOverflowsSize size (platform.maxAlignment - 1) = true then (none, arena)
      else match blockNew platform os arena (minCapacity platform size) with
        | none => (none, arena)
        | some block =>
          match blockAlloc platform os arena block size platform.maxAlignment with
          | none => (none, { arena with blocks := block :: arena.blocks })
          | some (p, block) => (some p, { arena with blocks := block :: arena.blocks }) := by
  obtain ⟨k, hk⟩ := platform.maxAlignment_pow
  have hpos := Nat.two_pow_pos k
  have hcapacity :
      (if platform.maxAlignment > 1 then size + (platform.maxAlignment - 1) else size) =
      minCapacity platform size := by
    unfold minCapacity
    split_ifs <;> omega
  unfold allocFresh
  rw [hcapacity]
  dsimp only
  by_cases hover : addOverflowsSize size (platform.maxAlignment - 1) = true
  · rw [if_pos hover]
    by_cases hone : platform.maxAlignment > 1
    · rw [if_pos ⟨hone, hover⟩]
    · rw [if_neg fun h => hone h.1, blockNew_of_oversized]
      unfold minCapacity blockHeaderSlack
      simp only [addOverflowsSize, decide_eq_true_eq] at hover ⊢
      omega
  · rw [if_neg hover]
    exact if_neg fun h => hover h.2

theorem serves_newBlock (hvirtual : arena.backend = .virtual) {address : ℕ}
    (hreserve : freshReserve platform arena (minCapacity platform size) ≠ 0) :
    Serves platform os arena (newBlock platform arena size address) size ↔
      Committable os arena.commitSize (newBlock platform arena size address)
        (newTotal platform arena size address) := by
  have hle := le_freshReserve hreserve
  have hfilled := filled_virtualBlock address hreserve
  have hstart := dataStart_le platform (newBlock platform arena size address)
  have hsize := le_minCapacity platform size
  have hroom : size ≤ (newBlock platform arena size address).capacity := by
    change _ ≤ address + _ at hstart
    unfold newBlock at hstart ⊢
    omega
  rw [serves_unused rfl hroom]
  constructor
  · intro h
    exact h hvirtual
  · intro h _
    exact h

section Fresh

variable (hpage : ∃ k, platform.pageSize = 2 ^ k) (hconfig : Initialized platform arena)
  (hspace : ∀ size address, os.malloc size = some address ∨ os.reserveRaw size = some address →
    InSpace address size)
  (hpos : 0 < size)

include hpage hconfig hspace hpos

theorem allocFresh_heap (hheap : arena.backend = .heap)
    (hnone : (allocFresh platform os arena size platform.maxAlignment).1 = none) :
    Refused platform os arena size ∧
      (allocFresh platform os arena size platform.maxAlignment).2 = arena := by
  rw [allocFresh_eq] at hnone ⊢
  by_cases hover : addOverflowsSize size (platform.maxAlignment - 1) = true
  · rw [if_pos hover]
    exact ⟨.paddedSize hover, rfl⟩
  · rw [if_neg hover, blockNew_heap hheap] at hnone ⊢
    cases hnew : heapBlockNew platform os (heapCapacity platform arena size) with
    | none =>
        refine ⟨?_, rfl⟩
        cases hheaded : addOverflowsSize (heapCapacity platform arena size)
            (blockHeaderSlack platform) with
        | true => exact .heapSize hheap hheaded
        | false =>
            cases hmalloc : os.malloc (heapCapacity platform arena size +
                blockHeaderSlack platform) with
            | none => exact .malloc hheap hheaded hmalloc
            | some address =>
                rw [heapBlockNew_iff.2 ⟨hheaded, address, hmalloc, rfl⟩] at hnew
                cases hnew
    | some block =>
        exfalso
        obtain ⟨-, address, hmalloc, rfl⟩ := heapBlockNew_iff.1 hnew
        have hle := le_minCapacity platform size
        have hroom : size ≤ heapCapacity platform arena size := by
          unfold heapCapacity
          split_ifs <;> omega
        have hok : BlockOk platform arena.backend
            (heapBlock platform (heapCapacity platform arena size) address) := by
          rw [hheap]
          exact (counted_heapBlock (by omega) (hspace _ _ (Or.inl hmalloc))).ok
        have hserves : Serves platform os arena
            (heapBlock platform (heapCapacity platform arena size) address) size :=
          (serves_unused rfl hroom).2 fun hv => by rw [hheap] at hv; cases hv
        obtain ⟨result, hresult⟩ :=
          Option.isSome_iff_exists.1 ((blockAlloc_isSome hconfig hok hpos).2 hserves)
        rw [hnew] at hnone
        simp only [hresult] at hnone
        cases hnone

/-- An allocation from a new virtual block finds no block, no pages or what it asked for. -/
theorem allocFresh_virtual (hvirtual : arena.backend = .virtual) :
    (allocFresh platform os arena size platform.maxAlignment = (none, arena) ∧
      Refused platform os arena size ∧ ∀ address, ¬ Created platform os arena size address) ∨
    ∃ address, Created platform os arena size address ∧
      (¬ Committable os arena.commitSize (newBlock platform arena size address)
          (newTotal platform arena size address) ∧
        allocFresh platform os arena size platform.maxAlignment =
          (none, { arena with blocks := newBlock platform arena size address :: arena.blocks }) ∨
      Committable os arena.commitSize (newBlock platform arena size address)
          (newTotal platform arena size address) ∧
        ∃ p, (allocFresh platform os arena size platform.maxAlignment).1 = some p) := by
  have hspace' : ∀ size address, os.reserveRaw size = some address → InSpace address size :=
    fun size address h => hspace size address (Or.inr h)
  have hle := le_minCapacity platform size
  rw [allocFresh_eq]
  cases hpadded : addOverflowsSize size (platform.maxAlignment - 1) with
  | true =>
      refine Or.inl ⟨if_pos rfl, .paddedSize hpadded, fun address h => ?_⟩
      have hsized := h.sized.padded
      rw [hpadded] at hsized
      cases hsized
  | false =>
      rw [if_neg (by simp)]
      have hiff : ∀ block, blockNew platform os arena (minCapacity platform size) = some block ↔
          ∃ address, Created platform os arena size address ∧
            block = newBlock platform arena size address :=
        fun _ => created_iff hpage hvirtual hspace' hpos hpadded
      cases hnew : blockNew platform os arena (minCapacity platform size) with
      | none =>
          have hnot : ∀ address, ¬ Created platform os arena size address := by
            intro address h
            rw [(hiff _).2 ⟨address, h, rfl⟩] at hnew
            cases hnew
          refine Or.inl ⟨rfl, ?_, hnot⟩
          cases hheaded : addOverflowsSize (minCapacity platform size)
              (blockHeaderSlack platform) with
          | true => exact .virtualSize hvirtual hheaded
          | false =>
              cases hpaged : addOverflowsSize (max arena.reserveSize (minCapacity platform size +
                  blockHeaderSlack platform)) (platform.pageSize - 1) with
              | true => exact .pagedSize hvirtual hpaged
              | false =>
                  cases hreserved : os.reserveRaw
                      (freshReserve platform arena (minCapacity platform size)) with
                  | none => exact .reserve hvirtual ⟨hpadded, hheaded, hpaged⟩ hreserved
                  | some address =>
                      have hdenied : ¬ (freshCommit platform arena (minCapacity platform size) ≠ 0 →
                          os.commitRaw address
                            (freshCommit platform arena (minCapacity platform size)) = true) :=
                        fun hgranted =>
                          hnot address ⟨⟨hpadded, hheaded, hpaged⟩, hreserved, hgranted⟩
                      simp only [Classical.not_imp, Bool.not_eq_true] at hdenied
                      exact .firstCommit hvirtual ⟨hpadded, hheaded, hpaged⟩ hdenied.1 hreserved
                        hdenied.2
      | some block =>
          obtain ⟨address, hcreated, rfl⟩ := (hiff _).1 hnew
          have hreserve := (freshReserve_ne_zero_iff hpage hpos).2 hcreated.sized.paged
          have hok : BlockOk platform arena.backend (newBlock platform arena size address) := by
            rw [hvirtual]
            exact virtualBlock_ok (by omega) hreserve (hspace' _ _ hcreated.reserved)
          have hserves : (blockAlloc platform os arena (newBlock platform arena size address) size
              platform.maxAlignment).isSome = true ↔
              Committable os arena.commitSize (newBlock platform arena size address)
                (newTotal platform arena size address) :=
            (blockAlloc_isSome hconfig hok hpos).trans (serves_newBlock hvirtual hreserve)
          refine Or.inr ⟨address, hcreated, ?_⟩
          dsimp only
          cases halloc : blockAlloc platform os arena (newBlock platform arena size address) size
              platform.maxAlignment with
          | none =>
              rw [halloc] at hserves
              exact Or.inl ⟨fun h => Bool.false_ne_true (hserves.2 h), rfl⟩
          | some result =>
              rw [halloc] at hserves
              exact Or.inr ⟨hserves.1 rfl, result.1, rfl⟩

theorem allocFresh_refused
    (hnone : (allocFresh platform os arena size platform.maxAlignment).1 = none) :
    Refused platform os arena size := by
  rcases hconfig.backend with hheap | hvirtual
  · exact (allocFresh_heap hpage hconfig hspace hpos hheap hnone).1
  · rcases allocFresh_virtual hpage hconfig hspace hpos hvirtual with
      ⟨-, hrefused, -⟩ | ⟨address, hcreated, ⟨hmissing, -⟩ | ⟨-, p, hp⟩⟩
    · exact hrefused
    · unfold Committable at hmissing
      simp only [not_or, not_and, Bool.not_eq_true] at hmissing
      have hgrows := Nat.not_le.1 hmissing.1
      cases hover : addOverflowsSize (newTotal platform arena size address)
          (arena.commitSize - 1) with
      | true => exact .grownSize hvirtual hcreated hgrows hover
      | false => exact .growth hvirtual hcreated hgrows hover (hmissing.2 hover)
    · rw [hp] at hnone
      cases hnone

theorem allocFresh_stranded_iff :
    (∃ block, allocFresh platform os arena size platform.maxAlignment =
      (none, { arena with blocks := block :: arena.blocks })) ↔
    arena.backend = .virtual ∧ ∃ address, Created platform os arena size address ∧
      ¬ Committable os arena.commitSize (newBlock platform arena size address)
        (newTotal platform arena size address) := by
  have hgrown : ∀ block : Block, { arena with blocks := block :: arena.blocks } ≠ arena := by
    intro block heq
    exact List.cons_ne_self _ _ (congrArg LorArena.blocks heq)
  constructor
  · rintro ⟨block, heq⟩
    have hnone : (allocFresh platform os arena size platform.maxAlignment).1 = none := by rw [heq]
    rcases hconfig.backend with hheap | hvirtual
    · have hsame := (allocFresh_heap hpage hconfig hspace hpos hheap hnone).2
      rw [heq] at hsame
      exact absurd hsame (hgrown block)
    · refine ⟨hvirtual, ?_⟩
      rcases allocFresh_virtual hpage hconfig hspace hpos hvirtual with
        ⟨hsame, -⟩ | ⟨address, hcreated, ⟨hmissing, -⟩ | ⟨-, p, hp⟩⟩
      · rw [hsame] at heq
        exact absurd (congrArg Prod.snd heq).symm (hgrown block)
      · exact ⟨address, hcreated, hmissing⟩
      · rw [hp] at hnone
        cases hnone
  · rintro ⟨hvirtual, address, hcreated, hmissing⟩
    rcases allocFresh_virtual hpage hconfig hspace hpos hvirtual with
      ⟨-, -, hnot⟩ | ⟨address', hcreated', hcase⟩
    · exact absurd hcreated (hnot address)
    · have haddress : address = address' :=
        Option.some.inj (hcreated.reserved.symm.trans hcreated'.reserved)
      subst address'
      rcases hcase with ⟨-, heq⟩ | ⟨hgranted, -⟩
      · exact ⟨_, heq⟩
      · exact absurd hgranted hmissing

/-- An initialized arena keeps a new block that an allocation has no use for exactly when the pages
of the request are refused after those of the block. -/
theorem allocReady_stranded_iff
    (hok : ∀ block ∈ arena.blocks, BlockOk platform arena.backend block) :
    (∃ block, allocReady platform os arena size platform.maxAlignment =
      (none, { arena with blocks := block :: arena.blocks })) ↔
    Strands platform os arena size := by
  have hfresh := allocFresh_stranded_iff hpage hconfig hspace hpos
  unfold allocReady
  cases hblocks : arena.blocks with
  | nil =>
      rw [hblocks] at hfresh
      rw [hfresh]
      constructor
      · rintro ⟨hvirtual, hstranded⟩
        refine ⟨hvirtual, hpos, fun block older heq => ?_, hstranded⟩
        rw [hblocks] at heq
        cases heq
      · intro h
        exact ⟨h.virtual, h.stranded⟩
  | cons block older =>
      have hserves : (blockAlloc platform os arena block size platform.maxAlignment).isSome = true ↔
          Serves platform os arena block size :=
        blockAlloc_isSome hconfig (hok block (hblocks ▸ List.mem_cons_self)) hpos
      rw [hblocks] at hfresh
      dsimp only
      cases halloc : blockAlloc platform os arena block size platform.maxAlignment with
      | none =>
          rw [halloc] at hserves
          rw [hfresh]
          constructor
          · rintro ⟨hvirtual, hstranded⟩
            refine ⟨hvirtual, hpos, fun block' older' heq => ?_, hstranded⟩
            rw [hblocks] at heq
            cases heq
            exact fun h => Bool.false_ne_true (hserves.2 h)
          · intro h
            exact ⟨h.virtual, h.stranded⟩
      | some result =>
          rw [halloc] at hserves
          constructor
          · rintro ⟨block', heq⟩
            cases congrArg Prod.fst heq
          · intro h
            exact absurd (hserves.1 rfl) (h.busy block older hblocks)

end Fresh

theorem Unchanged.of_eq {arena' : LorArena} (hblocks : arena'.blocks = arena.blocks)
    (hbackend : arena'.backend = arena.backend) : Unchanged platform arena arena' := by
  refine ⟨hblocks, ?_, ?_, ?_, congrArg List.head? hblocks⟩
  · unfold Arena.used
    rw [hblocks]
  · unfold Arena.capacity
    rw [hblocks]
  · unfold Arena.committed
    rw [hblocks, hbackend]

theorem ready_backend (h : Accounted platform arena) :
    (ready arena).backend = arena.backend := by
  rcases h.config with rfl | hconfig
  · rfl
  · have hpos := hconfig.block_pos
    unfold ready
    rw [if_neg (by omega)]

theorem strands_ready_iff (h : Accounted platform arena) :
    Strands platform os (ready arena) size ↔ Strands platform os arena size := by
  rcases h.config with rfl | hconfig
  · constructor
    · intro hstrands
      cases hstrands.virtual
    · intro hstrands
      cases hstrands.virtual
  · have hpos := hconfig.block_pos
    unfold ready
    rw [if_neg (by omega)]

/-- An allocation that returns `NULL` was stopped by a size that overflows or by a request to the
system that was refused; a block that it created had room. -/
theorem alloc_complete (platform : Platform) (hpage : ∃ k, platform.pageSize = 2 ^ k)
    (arena : LorArena) (h : Reachable (calls platform) arena) (os : Os)
    (hspace : ∀ size address, os.malloc size = some address ∨ os.reserveRaw size = some address →
      InSpace address size)
    (size : ℕ) (hpos : 0 < size) (hnone : (alloc platform os arena size).1 = none) :
    Refused platform os (ready arena) size := by
  have haccounted := accounted_of_reachable hpage h
  obtain ⟨-, hconfig, -⟩ := haccounted.ready hpage
  unfold alloc at hnone
  rw [allocAligned_ready haccounted hpos] at hnone
  apply allocFresh_refused hpage hconfig hspace hpos
  unfold allocReady at hnone
  cases hblocks : (ready arena).blocks with
  | nil =>
      simp only [hblocks] at hnone
      exact hnone
  | cons block older =>
      simp only [hblocks] at hnone
      cases halloc : blockAlloc platform os (ready arena) block size platform.maxAlignment with
      | none =>
          simp only [halloc] at hnone
          exact hnone
      | some result =>
          simp only [halloc] at hnone
          cases hnone

def osEmpty : Os := ⟨fun _ => none, fun _ => none, fun _ _ => true⟩

/-- A virtual arena that is out of room asks for another reservation, in vain. -/
theorem alloc_complete_refused :
    let arena := Call.run lp64 arenaInit (.init ⟨.virtual, 0, 1048576, 8192⟩)
    (alloc lp64 osEmpty arena 2000000).1 = none ∧
      Refused lp64 osEmpty (ready arena) 2000000 := by
  intro arena
  have h₀ : Run (calls lp64) [] arenaInit := .start rfl
  have h₁ := calls_step h₀ (.init ⟨.virtual, 0, 1048576, 8192⟩) trivial
  refine ⟨by decide, alloc_complete lp64 ⟨12, rfl⟩ arena ⟨_, h₁⟩ osEmpty ?_ 2000000 (by decide)
    (by decide)⟩
  rintro size address (h | h)
  · cases h
  · cases h

/-- A request that fails leaves the arena as it was, unless the system grants a new virtual block
with its first pages but not the pages that the request needs in it. -/
theorem failed_request_unchanged_iff (platform : Platform)
    (hpage : ∃ k, platform.pageSize = 2 ^ k) (arena : LorArena)
    (h : Reachable (calls platform) arena) (os : Os)
    (hspace : ∀ size address, os.malloc size = some address ∨ os.reserveRaw size = some address →
      InSpace address size) (r : Request) :
    ((request platform os arena r).1 = none →
      Unchanged platform arena (request platform os arena r).2) ↔
    ¬ Strands platform os arena r.size := by
  have haccounted := accounted_of_reachable hpage h
  rcases request_cases platform r with ⟨heq, hsize⟩ | heq
  · rw [heq]
    refine iff_of_true (fun _ => .of_eq rfl rfl) ?_
    intro hstrands
    obtain ⟨address, hcreated, -⟩ := hstrands.stranded
    have hasked := hstrands.asked
    have hpadded := hcreated.sized.padded
    simp only [addOverflowsSize, decide_eq_false_iff_not] at hpadded
    omega
  · rw [heq]
    rcases Nat.eq_zero_or_pos r.size with hzero | hpos
    · unfold allocAligned
      rw [if_pos (Or.inl hzero)]
      refine iff_of_true (fun _ => .of_eq rfl rfl) ?_
      intro hstrands
      have hasked := hstrands.asked
      omega
    · obtain ⟨hready, hconfig, hblocks⟩ := haccounted.ready hpage
      have hiff := allocReady_stranded_iff hpage hconfig hspace hpos
        fun block hblock => (hready.blocks block hblock).ok
      rw [allocAligned_ready haccounted hpos, ← strands_ready_iff haccounted, ← hiff]
      constructor
      · rintro hunchanged ⟨block, hgrown⟩
        have hsame := (hunchanged (by rw [hgrown])).blocks
        rw [hgrown, hblocks] at hsame
        exact List.cons_ne_self _ _ hsame
      · intro hnot hnone
        cases hresult : allocReady platform os (ready arena) r.size platform.maxAlignment with
        | mk p arena' =>
            have hout := allocReady_cases platform os (ready arena) r.size platform.maxAlignment
            rw [hresult] at hnone hout hnot
            cases hout with
            | refused => exact .of_eq hblocks (ready_backend haccounted)
            | grown hsize hnew => exact absurd ⟨_, rfl⟩ hnot
            | newest => cases hnone
            | fresh => cases hnone

def pageWise : LorArena := Call.run lp64 arenaInit (.init ⟨.virtual, 0, 1048576, 4096⟩)

theorem pageWise_reachable : Reachable (calls lp64) pageWise :=
  ⟨_, calls_step (.start rfl) (.init ⟨.virtual, 0, 1048576, 4096⟩) trivial⟩

def osTight (address limit : ℕ) : Os :=
  { osAt address with commitRaw := fun _ size => decide (size ≤ limit) }

theorem failed_request_strands :
    Reachable (calls lp64) pageWise ∧ (osTight 4096 4096).Legal pageWise ∧
      (osTight 4096 4096).Paged lp64 ∧
      request lp64 (osTight 4096 4096) pageWise (.alloc 100000) =
        (none, { pageWise with blocks := [⟨4096, 1048528, 4096, 0, 1048576⟩] }) ∧
      ¬ Unchanged lp64 pageWise (request lp64 (osTight 4096 4096) pageWise (.alloc 100000)).2 := by
  have hlegal : (osAt 4096).Legal pageWise := osAt_legal (by decide) (by decide)
  have hpaged : (osAt 4096).Paged lp64 := osAt_paged (by decide)
  refine ⟨pageWise_reachable, hlegal, hpaged, by decide, ?_⟩
  intro h
  have hcapacity := h.capacity
  revert hcapacity
  decide

theorem failed_request_unchanged_refused :
    Unchanged lp64 pageWise (request lp64 osEmpty pageWise (.alloc 100000)).2 := by
  have hspace : ∀ size address, osEmpty.malloc size = some address ∨
      osEmpty.reserveRaw size = some address → InSpace address size := by
    rintro size address (h | h)
    · cases h
    · cases h
  refine (failed_request_unchanged_iff lp64 ⟨12, rfl⟩ pageWise pageWise_reachable osEmpty hspace
    (.alloc 100000)).2 ?_ (by decide)
  intro hstrands
  obtain ⟨address, hcreated, -⟩ := hstrands.stranded
  cases hcreated.reserved

end Liblor.Arena
