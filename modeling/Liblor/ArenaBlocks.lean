import Liblor.ArenaSafety
import Liblor.Extents

/-!
# The blocks of an initialized arena

What a new block is, and what an allocation from a block and committing on demand do to it, as
equations. The counters of a block agree with the region behind it when it is created and after
every allocation.
-/

namespace Liblor.Arena

section Platform

variable (platform : Platform)

def heapBlock (capacity address : ℕ) : Block :=
  ⟨address, capacity, capacity, 0, capacity + blockHeaderSlack platform⟩

/-- The reservation of a new virtual block with room for `minCapacity` bytes. -/
def freshReserve (arena : LorArena) (minCapacity : ℕ) : ℕ :=
  virtualReserve platform arena.reserveSize (minCapacity + blockHeaderSlack platform)

/-- What that block commits at once. -/
def freshCommit (arena : LorArena) (minCapacity : ℕ) : ℕ :=
  virtualCommit platform (freshReserve platform arena minCapacity) arena.commitSize
    (minCapacity + blockHeaderSlack platform)

def virtualBlock (arena : LorArena) (minCapacity address : ℕ) : Block :=
  let block : Block := ⟨address, 0, freshCommit platform arena minCapacity, 0,
    freshReserve platform arena minCapacity⟩
  { block with
    capacity := freshReserve platform arena minCapacity - (dataStart platform block - address) }

/-- The committed size that a growth to `total` bytes asks for. -/
def grownTo (commitSize : ℕ) (block : Block) (total : ℕ) : ℕ :=
  min (alignUp total commitSize) block.allocationSize

/-- What a mapping of whole pages starts with. -/
def Os.Paged (os : Os) : Prop :=
  ∀ size address, os.reserveRaw size = some address → platform.pageSize ∣ address

structure Initialized (arena : LorArena) : Prop where
  backend : arena.backend = .heap ∨ arena.backend = .virtual
  block_pos : 0 < arena.blockSize
  reserve_pos : 0 < arena.reserveSize
  commit_pos : 0 < arena.commitSize
  commit_le : arena.backend = .virtual → arena.commitSize ≤ sizeMax
  commit_page : arena.backend = .virtual → platform.pageSize ∣ arena.commitSize

/-- A virtual block fills its reservation, which is made of whole pages, and whole pages of it are
committed, those of the header and of what is used among them. -/
structure Reserved (block : Block) : Prop where
  filled : dataStart platform block + block.capacity = block.address + block.allocationSize
  backed : dataStart platform block + block.used ≤ block.address + block.committed
  address_page : platform.pageSize ∣ block.address
  committed_page : platform.pageSize ∣ block.committed
  size_page : platform.pageSize ∣ block.allocationSize

/-- The counters of a block agree with the region behind it. -/
structure Counted (backend : Backend) (block : Block) : Prop where
  ok : BlockOk platform backend block
  heap : backend = .heap → block.committed = block.capacity
  virtual : backend = .virtual → Reserved platform block

end Platform

section Pages

variable {platform : Platform} {os : Os} {arena : LorArena} {block block' : Block} {size : ℕ}

theorem two_pow_dvd_wrap {k : ℕ} (h : 2 ^ k ≤ sizeMax) : 2 ^ k ∣ 2 ^ 64 := by
  have hlt : 2 ^ k < 2 ^ 64 := Nat.lt_of_le_of_lt h (by decide)
  exact Nat.pow_dvd_pow 2 (Nat.le_of_lt ((Nat.pow_lt_pow_iff_right (by decide)).1 hlt))

theorem pageAlign_le_sizeMax (h : size ≤ sizeMax) : pageAlign platform size ≤ sizeMax := by
  have hpage := platform.pageSize_le
  unfold pageAlign
  split_ifs with hzero hover
  · exact h
  · exact Nat.zero_le _
  · have hle := alignUp_le size platform.pageSize
    simp only [addOverflowsSize, decide_eq_true_eq] at hover
    omega

theorem dvd_pageAlign (hpage : ∃ k, platform.pageSize = 2 ^ k) :
    platform.pageSize ∣ pageAlign platform size := by
  unfold pageAlign
  split_ifs with hzero hover
  · obtain ⟨k, hk⟩ := hpage
    have hpos := Nat.two_pow_pos k
    omega
  · exact Nat.dvd_zero _
  · exact dvd_alignUp hpage

/-- Rounding up to pages overflows only past the last page. -/
theorem pageAlign_ne_zero_iff (hpage : ∃ k, platform.pageSize = 2 ^ k) (hpos : 0 < size) :
    pageAlign platform size ≠ 0 ↔ size ≤ sizeMax - (platform.pageSize - 1) := by
  obtain ⟨k, hk⟩ := hpage
  have hpow := Nat.two_pow_pos k
  have hge := le_alignUp size platform.pageSize
  unfold pageAlign
  rw [if_neg (by omega)]
  by_cases hover : addOverflowsSize size (platform.pageSize - 1) = true
  · rw [if_pos hover]
    simp only [addOverflowsSize, decide_eq_true_eq] at hover
    omega
  · rw [if_neg hover]
    simp only [addOverflowsSize, decide_eq_true_eq] at hover
    omega

theorem le_of_page_dvd (hpage : ∃ k, platform.pageSize = 2 ^ k)
    (hdvd : platform.pageSize ∣ size) (hle : size ≤ sizeMax) :
    size ≤ sizeMax - (platform.pageSize - 1) := by
  obtain ⟨k, hk⟩ := hpage
  have hsize := platform.pageSize_le
  rw [hk] at hdvd hsize ⊢
  have hwrap := two_pow_dvd_wrap hsize
  have hroom : size < 2 ^ 64 := Nat.lt_of_le_of_lt hle (by decide)
  have hstep := Nat.le_of_dvd (Nat.sub_pos_of_lt hroom) (Nat.dvd_sub hwrap hdvd)
  unfold sizeMax
  omega

variable {reserveSize commitSize minReserve : ℕ}

theorem virtualReserve_ne_zero_iff (hpage : ∃ k, platform.pageSize = 2 ^ k)
    (hpos : 0 < minReserve) : virtualReserve platform reserveSize minReserve ≠ 0 ↔
      max reserveSize minReserve ≤ sizeMax - (platform.pageSize - 1) := by
  unfold virtualReserve
  by_cases hlt : reserveSize < minReserve
  · rw [if_pos hlt, pageAlign_ne_zero_iff hpage hpos, Nat.max_eq_right (Nat.le_of_lt hlt)]
  · rw [if_neg hlt, pageAlign_ne_zero_iff hpage (by omega), Nat.max_eq_left (Nat.not_lt.1 hlt)]

theorem dvd_virtualCommit (hpage : ∃ k, platform.pageSize = 2 ^ k)
    (hreserve : platform.pageSize ∣ reserveSize) :
    platform.pageSize ∣ virtualCommit platform reserveSize commitSize minReserve := by
  unfold virtualCommit
  dsimp only
  split_ifs
  all_goals first | exact hreserve | exact dvd_pageAlign hpage

theorem slack_le_virtualCommit (hpage : ∃ k, platform.pageSize = 2 ^ k)
    (hcommit : commitSize ≤ sizeMax) (hdvd : platform.pageSize ∣ commitSize)
    (hpos : 0 < commitSize) (hslack : blockHeaderSlack platform ≤ minReserve)
    (hmin : minReserve ≤ sizeMax - (platform.pageSize - 1)) (hle : minReserve ≤ reserveSize) :
    blockHeaderSlack platform ≤ virtualCommit platform reserveSize commitSize minReserve := by
  have hroom := le_of_page_dvd hpage hdvd hcommit
  unfold virtualCommit
  dsimp only
  generalize hc : (if (if commitSize < blockHeaderSlack platform then blockHeaderSlack platform
      else commitSize) < minReserve ∧ minReserve < defaultCommitSize then minReserve
      else if commitSize < blockHeaderSlack platform then blockHeaderSlack platform
      else commitSize) = c
  have hge : blockHeaderSlack platform ≤ c ∧ 0 < c ∧ c ≤ sizeMax - (platform.pageSize - 1) := by
    rw [← hc]
    split_ifs <;> omega
  have halign := le_pageAlign ((pageAlign_ne_zero_iff hpage hge.2.1).2 hge.2.2)
  split_ifs <;> omega

end Pages

section Created

variable {platform : Platform} {os : Os} {arena : LorArena} {block : Block} {minCapacity : ℕ}

theorem heapBlockNew_iff {capacity : ℕ} : heapBlockNew platform os capacity = some block ↔
    addOverflowsSize capacity (blockHeaderSlack platform) = false ∧
      ∃ address, os.malloc (capacity + blockHeaderSlack platform) = some address ∧
        block = heapBlock platform capacity address := by
  unfold heapBlockNew
  dsimp only
  cases hover : addOverflowsSize capacity (blockHeaderSlack platform) with
  | true => simp
  | false =>
      cases hmalloc : os.malloc (capacity + blockHeaderSlack platform) with
      | none => simp
      | some address => simp [heapBlock, eq_comm]

theorem virtualBlockNew_iff
    (hspace : ∀ size address, os.reserveRaw size = some address → InSpace address size)
    (hpos : 0 < minCapacity) :
    virtualBlockNew platform os arena.reserveSize arena.commitSize minCapacity = some block ↔
      addOverflowsSize minCapacity (blockHeaderSlack platform) = false ∧
      freshReserve platform arena minCapacity ≠ 0 ∧
      ∃ address, os.reserveRaw (freshReserve platform arena minCapacity) = some address ∧
        (freshCommit platform arena minCapacity ≠ 0 →
          os.commitRaw address (freshCommit platform arena minCapacity) = true) ∧
        block = virtualBlock platform arena minCapacity address := by
  have hle : freshReserve platform arena minCapacity ≠ 0 →
      minCapacity + blockHeaderSlack platform ≤ freshReserve platform arena minCapacity :=
    le_virtualReserve
  unfold freshReserve at hle
  unfold virtualBlockNew virtualBlock freshCommit freshReserve
  dsimp only
  generalize virtualReserve platform arena.reserveSize
    (minCapacity + blockHeaderSlack platform) = reserve at *
  generalize virtualCommit platform reserve arena.commitSize
    (minCapacity + blockHeaderSlack platform) = commit
  cases hover : addOverflowsSize minCapacity (blockHeaderSlack platform) with
  | true => simp
  | false =>
      by_cases hzero : reserve = 0
      · simp [hzero]
      · cases hraw : os.reserveRaw reserve with
        | none => simp
        | some address =>
            have hslack : blockHeaderSlack platform < reserve := by omega
            have hregion : InSpace (Block.mk address 0 commit 0 reserve).address reserve :=
              hspace _ _ hraw
            have hdata := blockData_of_region hslack hregion
            by_cases hgrant : commit ≠ 0 ∧ os.commitRaw address commit = false
            · simp [hgrant.1, hgrant.2]
            · have hgrant' : commit ≠ 0 → os.commitRaw address commit = true := by
                simpa using hgrant
              simp only [Bool.false_eq_true, if_false, if_neg hzero, if_neg hgrant, hdata,
                Option.some.injEq, true_and]
              constructor
              · intro h
                exact ⟨hzero, address, rfl, hgrant', h.symm⟩
              · rintro ⟨-, _, rfl, -, h⟩
                exact h.symm

theorem counted_heapBlock {capacity address : ℕ} (hpos : 0 < capacity)
    (hregion : InSpace address (capacity + blockHeaderSlack platform)) :
    Counted platform .heap (heapBlock platform capacity address) := by
  have hstart := dataStart_le platform (heapBlock platform capacity address)
  have hdata : blockData platform (heapBlock platform capacity address) =
      some (dataStart platform (heapBlock platform capacity address)) :=
    blockData_of_region (Nat.lt_add_of_pos_left hpos) hregion
  refine ⟨⟨hregion, Nat.lt_of_lt_of_le hpos (Nat.le_add_right _ _), hdata, ?_, Nat.zero_le _,
    Nat.le_add_right _ _, nofun⟩, fun _ => rfl, nofun⟩
  change _ + capacity ≤ address + (capacity + blockHeaderSlack platform)
  change _ ≤ address + _ at hstart
  omega

theorem le_freshReserve (h : freshReserve platform arena minCapacity ≠ 0) :
    minCapacity + blockHeaderSlack platform ≤ freshReserve platform arena minCapacity :=
  le_virtualReserve h

theorem filled_virtualBlock (address : ℕ) (h : freshReserve platform arena minCapacity ≠ 0) :
    dataStart platform (virtualBlock platform arena minCapacity address) +
      (virtualBlock platform arena minCapacity address).capacity =
    address + freshReserve platform arena minCapacity := by
  have hle := le_freshReserve h
  have hstart := dataStart_le platform (virtualBlock platform arena minCapacity address)
  have haddress := address_le_dataStart platform (virtualBlock platform arena minCapacity address)
  change dataStart platform _ + (freshReserve platform arena minCapacity -
    (dataStart platform (virtualBlock platform arena minCapacity address) - address)) = _
  change _ ≤ address + _ at hstart
  change address ≤ _ at haddress
  omega

theorem virtualBlock_ok {address : ℕ} (hpos : 0 < minCapacity)
    (hreserve : freshReserve platform arena minCapacity ≠ 0)
    (hregion : InSpace address (freshReserve platform arena minCapacity)) :
    BlockOk platform .virtual (virtualBlock platform arena minCapacity address) := by
  have hle := le_freshReserve hreserve
  have hslack : blockHeaderSlack platform < freshReserve platform arena minCapacity := by omega
  exact ⟨hregion, Nat.pos_of_ne_zero hreserve, blockData_of_region hslack hregion,
    Nat.le_of_eq (filled_virtualBlock address hreserve), Nat.zero_le _, virtualCommit_le,
    fun _ h => absurd h (Nat.lt_irrefl 0)⟩

theorem counted_virtualBlock {address : ℕ} (hpage : ∃ k, platform.pageSize = 2 ^ k)
    (hconfig : Initialized platform arena) (hvirtual : arena.backend = .virtual)
    (hpos : 0 < minCapacity) (hreserve : freshReserve platform arena minCapacity ≠ 0)
    (hregion : InSpace address (freshReserve platform arena minCapacity))
    (haddress : platform.pageSize ∣ address) :
    Counted platform .virtual (virtualBlock platform arena minCapacity address) := by
  have hle := le_freshReserve hreserve
  have hfilled := filled_virtualBlock address hreserve
  have hstart := dataStart_le platform (virtualBlock platform arena minCapacity address)
  have hdvd : platform.pageSize ∣ freshReserve platform arena minCapacity := dvd_pageAlign hpage
  have hmin : max arena.reserveSize (minCapacity + blockHeaderSlack platform) ≤
      sizeMax - (platform.pageSize - 1) :=
    (virtualReserve_ne_zero_iff hpage (by omega)).1 hreserve
  have hcommit : blockHeaderSlack platform ≤ freshCommit platform arena minCapacity :=
    slack_le_virtualCommit hpage (hconfig.commit_le hvirtual) (hconfig.commit_page hvirtual)
      hconfig.commit_pos (Nat.le_add_left _ _) (Nat.le_trans (Nat.le_max_right _ _) hmin) hle
  refine ⟨virtualBlock_ok hpos hreserve hregion, nofun,
    fun _ => ⟨hfilled, ?_, haddress, dvd_virtualCommit hpage hdvd, hdvd⟩⟩
  change _ + 0 ≤ address + freshCommit platform arena minCapacity
  change _ ≤ address + _ at hstart
  omega

theorem blockNew_counted (hpage : ∃ k, platform.pageSize = 2 ^ k)
    (hconfig : Initialized platform arena) (hlegal : os.Legal arena) (hpaged : os.Paged platform)
    (hpos : 0 < minCapacity) (hnew : blockNew platform os arena minCapacity = some block) :
    Counted platform arena.backend block := by
  rcases hconfig.backend with hheap | hvirtual
  · have hcreated : ∃ capacity, 0 < capacity ∧ heapBlockNew platform os capacity = some block := by
      unfold blockNew at hnew
      rw [if_neg (by simp [hheap])] at hnew
      by_cases hsmall : arena.blockSize < minCapacity
      · rw [if_pos hsmall] at hnew
        exact ⟨_, hpos, hnew⟩
      · rw [if_neg hsmall] at hnew
        exact ⟨_, hconfig.block_pos, hnew⟩
    obtain ⟨capacity, hcapacity, hnew⟩ := hcreated
    obtain ⟨-, address, hmalloc, rfl⟩ := heapBlockNew_iff.1 hnew
    rw [hheap]
    exact counted_heapBlock hcapacity (hlegal _ _ (Or.inl hmalloc)).1
  · have hspace : ∀ size address, os.reserveRaw size = some address → InSpace address size :=
      fun size address h => (hlegal size address (Or.inr h)).1
    unfold blockNew at hnew
    rw [if_pos hvirtual] at hnew
    obtain ⟨-, hreserve, address, hraw, -, rfl⟩ := (virtualBlockNew_iff hspace hpos).1 hnew
    rw [hvirtual]
    exact counted_virtualBlock hpage hconfig hvirtual hpos hreserve (hspace _ _ hraw)
      (hpaged _ _ hraw)

end Created


section Growth

variable {platform : Platform} {os : Os} {arena : LorArena} {block block' : Block}
  {backend : Backend}

theorem blockEnsureCommitted_eq (hok : BlockOk platform backend block) {neededUsed commitSize : ℕ}
    (hpos : 0 < commitSize) (hneeded : neededUsed ≤ block.capacity) :
    blockEnsureCommitted platform os block neededUsed commitSize =
      let total := dataStart platform block - block.address + neededUsed
      if total ≤ block.committed then some block
      else if addOverflowsSize total (commitSize - 1) then none
      else if os.commitRaw (block.address + block.committed)
          (grownTo commitSize block total - block.committed) then
        some { block with committed := grownTo commitSize block total }
      else none := by
  have haddress := address_le_dataStart platform block
  have hend := hok.data_end
  have hregion := hok.region.2
  have hover : addOverflowsSize (dataStart platform block - block.address) neededUsed = false := by
    simp only [addOverflowsSize, decide_eq_false_iff_not]
    have hpos' := hok.region.1
    have hmax : uintptrMax = sizeMax := rfl
    omega
  have hcommit : commitSize ≠ 0 := Nat.pos_iff_ne_zero.1 hpos
  have hgrown : ∀ n, (if n > block.allocationSize then block.allocationSize else n) =
      min n block.allocationSize := by
    intro n
    split_ifs <;> omega
  unfold blockEnsureCommitted grownTo
  simp only [hok.data, hover, if_neg (Nat.not_lt.2 hneeded), hcommit, ne_eq, not_false_eq_true,
    true_and, if_true, hgrown, Bool.false_eq_true, if_false]

theorem grownTo_bounds (commitSize : ℕ) {total : ℕ} (hle : total ≤ block.allocationSize) :
    total ≤ grownTo commitSize block total ∧
      grownTo commitSize block total ≤ block.allocationSize := by
  have hge := le_alignUp total commitSize
  unfold grownTo
  omega

/-- The mask that rounds to a commit size clears the bits of a page. -/
theorem dvd_grownTo (hpage : ∃ k, platform.pageSize = 2 ^ k) {commitSize : ℕ} (total : ℕ)
    (hpos : 0 < commitSize) (hcommit : platform.pageSize ∣ commitSize)
    (hsize : platform.pageSize ∣ block.allocationSize) :
    platform.pageSize ∣ grownTo commitSize block total := by
  obtain ⟨k, hk⟩ := hpage
  rw [hk] at hcommit hsize ⊢
  have hmask : 2 ^ k ∣ commitSize - 1 + 1 := by
    rw [Nat.sub_add_cancel hpos]
    exact hcommit
  have hround : 2 ^ k ∣ alignUp total commitSize := Extents.two_pow_dvd_cleared hmask _
  unfold grownTo
  rcases Nat.le_total (alignUp total commitSize) block.allocationSize with hle | hle
  · rw [Nat.min_eq_left hle]
    exact hround
  · rw [Nat.min_eq_right hle]
    exact hsize

/-- Rounding up to the alignment of the data never passes the end of the address space unnoticed. -/
theorem alignForward_of_lt {value : ℕ}
    (h : alignUp value platform.maxAlignment ≤ uintptrMax) :
    alignForward value platform.maxAlignment = some (alignUp value platform.maxAlignment) := by
  apply alignForward_of_le
  obtain ⟨k, hk⟩ := platform.maxAlignment_pow
  have hslack := platform.slack_le
  rw [hk] at h hslack ⊢
  have hpos := Nat.two_pow_pos k
  have hdvd := two_pow_dvd_wrap (Nat.le_trans (Nat.le_add_left _ _) hslack)
  by_contra hover
  have hbig : 2 ^ 64 ≤ value + (2 ^ k - 1) := by
    unfold uintptrMax at hover
    omega
  have hround := Nat.mul_le_mul_right (2 ^ k) (Nat.div_le_div_right (c := 2 ^ k) hbig)
  rw [Nat.div_mul_cancel hdvd, ← alignUp_two_pow] at hround
  unfold uintptrMax at h
  omega

theorem blockAlloc_eq (hok : BlockOk platform arena.backend block) {size : ℕ} (hpos : 0 < size) :
    blockAlloc platform os arena block size platform.maxAlignment =
      let p := alignUp (dataStart platform block + block.used) platform.maxAlignment
      if dataStart platform block + block.capacity < p + size then none
      else if arena.backend = .virtual then
        (blockEnsureCommitted platform os block (p + size - dataStart platform block)
          arena.commitSize).map fun block' =>
            (p, { block' with used := p + size - dataStart platform block })
      else some (p, { block with used := p + size - dataStart platform block }) := by
  have hused := hok.used_le
  have hend := hok.data_end
  have hregion := hok.region.2
  have hstart := le_alignUp (dataStart platform block + block.used) platform.maxAlignment
  dsimp only
  unfold blockAlloc
  simp only [hok.data]
  rw [if_neg (Nat.not_lt.2 hused)]
  by_cases hfull : dataStart platform block + block.capacity <
      alignUp (dataStart platform block + block.used) platform.maxAlignment + size
  · rw [if_pos hfull]
    cases hforward : alignForward (dataStart platform block + block.used)
        platform.maxAlignment with
    | none => rfl
    | some aligned =>
        rw [← alignForward_eq_some hforward] at hfull hstart
        dsimp only
        by_cases hpadding : aligned - (dataStart platform block + block.used) >
            block.capacity - block.used
        · rw [if_pos hpadding]
        · rw [if_neg hpadding, if_pos (by omega)]
  · rw [if_neg hfull, alignForward_of_lt (by omega)]
    generalize alignUp (dataStart platform block + block.used) platform.maxAlignment = aligned at *
    have hnew : block.used + (aligned - (dataStart platform block + block.used)) + size =
        aligned + size - dataStart platform block := by omega
    dsimp only
    rw [if_neg (by omega), if_neg (by omega), hnew]
    by_cases hvirtual : arena.backend = .virtual
    · rw [if_pos hvirtual, if_pos hvirtual]
      cases blockEnsureCommitted platform os block (aligned + size - dataStart platform block)
        arena.commitSize with
      | none => rfl
      | some block' => rfl
    · rw [if_neg hvirtual, if_neg hvirtual]

theorem blockAlloc_committed (hconfig : Initialized platform arena)
    (hok : BlockOk platform arena.backend block) {size p : ℕ} (hpos : 0 < size)
    (h : blockAlloc platform os arena block size platform.maxAlignment = some (p, block')) :
    block'.committed = block.committed ∨
      arena.backend = .virtual ∧ ∃ total, block.committed < total ∧ total ≤ block.allocationSize ∧
        block'.committed = grownTo arena.commitSize block total := by
  have haddress := address_le_dataStart platform block
  have hend := hok.data_end
  rw [blockAlloc_eq hok hpos] at h
  dsimp only at h
  by_cases hfull : dataStart platform block + block.capacity <
      alignUp (dataStart platform block + block.used) platform.maxAlignment + size
  · rw [if_pos hfull] at h
    cases h
  · rw [if_neg hfull] at h
    by_cases hvirtual : arena.backend = .virtual
    · rw [if_pos hvirtual, blockEnsureCommitted_eq hok hconfig.commit_pos (by omega)] at h
      dsimp only at h
      split_ifs at h with henough hover hgrant
      · simp only [Option.map_some, Option.some.injEq, Prod.mk.injEq] at h
        rw [← h.2]
        exact Or.inl rfl
      · cases h
      · simp only [Option.map_some, Option.some.injEq, Prod.mk.injEq] at h
        rw [← h.2]
        exact Or.inr ⟨hvirtual, _, by omega, by omega, rfl⟩
      · cases h
    · rw [if_neg hvirtual] at h
      simp only [Option.some.injEq, Prod.mk.injEq] at h
      rw [← h.2]
      exact Or.inl rfl

theorem Counted.alloc (hpage : ∃ k, platform.pageSize = 2 ^ k)
    (hconfig : Initialized platform arena) (h : Counted platform arena.backend block)
    {size p : ℕ} (hpos : 0 < size)
    (halloc : blockAlloc platform os arena block size platform.maxAlignment = some (p, block')) :
    Counted platform arena.backend block' := by
  have hgrowth := blockAlloc_committed hconfig h.ok hpos halloc
  have hok := blockAlloc_ok h.ok halloc
  obtain ⟨hp, hend, committed, rfl, hge, hle, hvirtual, -⟩ := blockAlloc_spec h.ok halloc
  have hstart := le_alignUp (dataStart platform block + block.used) platform.maxAlignment
  dsimp only at hgrowth
  refine ⟨hok, ?_, ?_⟩
  · intro hheap
    rcases hgrowth with heq | ⟨hv, -⟩
    · exact heq.trans (h.heap hheap)
    · rw [hheap] at hv
      cases hv
  · intro hv
    have hreserved := h.virtual hv
    have hbacked := hvirtual hv
    refine ⟨hreserved.filled, ?_, hreserved.address_page, ?_, hreserved.size_page⟩
    · change dataStart platform block + (p + size - dataStart platform block) ≤
        block.address + committed
      omega
    · change platform.pageSize ∣ committed
      rcases hgrowth with rfl | ⟨-, total, -, -, rfl⟩
      · exact hreserved.committed_page
      · exact dvd_grownTo hpage _ hconfig.commit_pos (hconfig.commit_page hv) hreserved.size_page

theorem Counted.lower (h : Counted platform backend block) {used : ℕ} (hle : used ≤ block.used) :
    Counted platform backend { block with used := used } where
  ok := h.ok.lower hle
  heap hheap := h.heap hheap
  virtual hv := by
    have hreserved := h.virtual hv
    refine ⟨hreserved.filled, ?_, hreserved.address_page, hreserved.committed_page,
      hreserved.size_page⟩
    exact Nat.le_trans (Nat.add_le_add_left hle _) hreserved.backed

end Growth

end Liblor.Arena
