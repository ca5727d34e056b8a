import Liblor.ArenaPointersModel
import Liblor.ArenaRewind

/-!
# The chain of blocks in memory

The header of each block of an arena lies in memory at the address of the block, and the regions
that the system has handed out are the blocks. A store into one header leaves the others alone, and
so does anything that is not a store into a header.
-/

namespace Liblor.Arena.Pointers

open BumpStack RegionHeap

/-- What the target has to be like: the header fits in front of the data, pages are a power of two,
and nothing that a header needs comes near the end of the address space. -/
structure Target (platform : Platform) : Prop where
  header : headerSize ≤ platform.dataOffset
  page : ∃ k, platform.pageSize = 2 ^ k
  small :
    platform.dataOffset + platform.maxAlignment + platform.pageSize + defaultCommitSize ≤ sizeMax

def handleOf (arena : LorArena) : Handle where
  blocks := arena.blocks.head?.map Block.address
  backend := arena.backend
  blockSize := arena.blockSize
  reserveSize := arena.reserveSize
  commitSize := arena.commitSize

/-- How far a block can be accessed. -/
def opened (backend : Backend) (block : Block) : ℕ :=
  if backend = .virtual then block.committed else block.allocationSize

def regionOf (backend : Backend) (block : Block) : Region :=
  ⟨block.address, block.allocationSize, opened backend block⟩

def fields (block : Block) (next : Option ℕ) : List ℕ :=
  [next.getD 0, block.capacity, block.committed, block.used, block.allocationSize]

def HeaderAt (heap : Heap) (block : Block) (next : Option ℕ) : Prop :=
  WordsAt heap block.address (fields block next)

/-- The chain of blocks, each header with the address of the next older one. -/
def Headers (heap : Heap) : List Block → Prop
  | [] => True
  | block :: older => HeaderAt heap block (older.head?.map Block.address) ∧ Headers heap older

def OffHeader (block a : ℕ) : Prop := a < block ∨ block + headerSize ≤ a

/-- No cell has changed but in the headers at these addresses. -/
def OnlyHeaders (blocks : List ℕ) (heap heap' : Heap) : Prop :=
  ∀ a, (∀ block ∈ blocks, OffHeader block a) → heap'.cells a = heap.cells a

structure Represents (platform : Platform) (heap : Heap) (arena : LorArena) : Prop where
  chain : Chain platform arena
  regions : heap.regions = arena.blocks.map (regionOf arena.backend)
  headers : Headers heap arena.blocks
  reach : ∀ block ∈ arena.blocks, headerSize ≤ opened arena.backend block
  paged : arena.backend = .virtual → platform.pageSize ∣ arena.commitSize ∧
    arena.commitSize ≤ sizeMax

section Header

variable {platform : Platform} {backend : Backend} {heap heap' : Heap} {block other : Block}
  {next : Option ℕ} {value : ℕ}

theorem OnlyHeaders.refl (blocks : List ℕ) (heap : Heap) : OnlyHeaders blocks heap heap :=
  fun _ _ => rfl

theorem OnlyHeaders.trans {blocks : List ℕ} {heap'' : Heap} (h : OnlyHeaders blocks heap heap')
    (h' : OnlyHeaders blocks heap' heap'') : OnlyHeaders blocks heap heap'' :=
  fun a ha => (h' a ha).trans (h a ha)

theorem OnlyHeaders.mono {blocks blocks' : List ℕ} (h : OnlyHeaders blocks heap heap')
    (hsub : ∀ block ∈ blocks, block ∈ blocks') : OnlyHeaders blocks' heap heap' :=
  fun a ha => h a fun block hblock => ha block (hsub block hblock)

theorem HeaderAt.congr (h : HeaderAt heap block next)
    (hcells : ∀ a, ¬OffHeader block.address a → heap'.cells a = heap.cells a) :
    HeaderAt heap' block next := by
  apply WordsAt.congr h
  intro a hle hlt
  apply hcells
  have hlength : 8 * (fields block next).length = headerSize := rfl
  unfold OffHeader
  omega

theorem Headers.congr {blocks : List Block} (h : Headers heap blocks)
    (hcells : ∀ block ∈ blocks, ∀ a, ¬OffHeader block.address a → heap'.cells a = heap.cells a) :
    Headers heap' blocks := by
  induction blocks with
  | nil => trivial
  | cons block older ih =>
    exact ⟨h.1.congr (hcells block List.mem_cons_self),
      ih h.2 fun b hb => hcells b (List.mem_cons_of_mem _ hb)⟩

theorem HeaderAt.setNext (h : HeaderAt heap block next) {next' : Option ℕ}
    (hnext : next'.getD 0 < 2 ^ 64) :
    HeaderAt (heap.storeWord (nextField block.address) (next'.getD 0)) block next' :=
  WordsAt.set h hnext

theorem HeaderAt.setCapacity (h : HeaderAt heap block next) (hvalue : value < 2 ^ 64) :
    HeaderAt (heap.storeWord (capacityField block.address) value) { block with capacity := value }
      next :=
  WordsAt.set h hvalue

theorem HeaderAt.setCommitted (h : HeaderAt heap block next) (hvalue : value < 2 ^ 64) :
    HeaderAt (heap.storeWord (committedField block.address) value) { block with committed := value }
      next :=
  WordsAt.set h hvalue

theorem HeaderAt.setUsed (h : HeaderAt heap block next) (hvalue : value < 2 ^ 64) :
    HeaderAt (heap.storeWord (usedField block.address) value) { block with used := value } next :=
  WordsAt.set h hvalue

theorem onlyHeaders_storeWord (k : ℕ) (hk : 8 * k + 8 ≤ headerSize) (heap : Heap)
    (block value : ℕ) : OnlyHeaders [block] heap (heap.storeWord (block + 8 * k) value) := by
  intro a ha
  have hoff := ha block List.mem_cons_self
  apply cells_storeWord_apart
  unfold OffHeader at hoff
  omega

end Header

section BlockOk

variable {platform : Platform} {backend : Backend} {block : Block}

theorem headerSize_le_dataStart (htarget : Target platform) (block : Block) :
    block.address + headerSize ≤ dataStart platform block :=
  (Nat.add_le_add_left htarget.header _).trans (le_alignUp _ _)

theorem fields_lt (hok : BlockOk platform backend block) :
    block.address < 2 ^ 64 ∧ block.capacity < 2 ^ 64 ∧ block.committed < 2 ^ 64 ∧
      block.used < 2 ^ 64 ∧ block.allocationSize < 2 ^ 64 := by
  have haddress := address_le_dataStart platform block
  obtain ⟨hregion, hpositive, -, hend, hused, hcommitted, -⟩ := hok
  unfold InSpace uintptrMax at hregion
  omega

end BlockOk

/-! ## Access to the headers -/

section Represents

variable {platform : Platform} {heap heap' : Heap} {arena : LorArena} {block block' : Block}
  {older : List Block}

theorem Headers.at {blocks : List Block} (h : Headers heap blocks) (hblock : block ∈ blocks) :
    ∃ next, HeaderAt heap block next := by
  induction blocks with
  | nil => cases hblock
  | cons b blocks ih =>
    rcases List.mem_cons.1 hblock with rfl | hblock
    · exact ⟨_, h.1⟩
    · exact ih h.2 hblock

theorem Represents.accessible (h : Represents platform heap arena) (hblock : block ∈ arena.blocks)
    {k : ℕ} (hk : 8 * k + 8 ≤ headerSize) : heap.Accessible (block.address + 8 * k) 8 := by
  refine ⟨regionOf arena.backend block, ?_, Nat.le_add_right _ _, ?_⟩
  · rw [h.regions]
    exact List.mem_map_of_mem hblock
  · have hopened := h.reach block hblock
    change block.address + 8 * k + 8 ≤ block.address + opened arena.backend block
    omega

theorem Represents.returns_capacity (h : Represents platform heap arena)
    (hblock : block ∈ arena.blocks) :
    Returns (loadWord (capacityField block.address)) heap block.capacity heap := by
  obtain ⟨next, hheader⟩ := h.headers.at hblock
  have hword := hheader 1 block.capacity rfl
  exact hword ▸ returns_loadWord (h.accessible hblock (by decide))

theorem Represents.returns_committed (h : Represents platform heap arena)
    (hblock : block ∈ arena.blocks) :
    Returns (loadWord (committedField block.address)) heap block.committed heap := by
  obtain ⟨next, hheader⟩ := h.headers.at hblock
  have hword := hheader 2 block.committed rfl
  exact hword ▸ returns_loadWord (h.accessible hblock (by decide))

theorem Represents.returns_used (h : Represents platform heap arena)
    (hblock : block ∈ arena.blocks) :
    Returns (loadWord (usedField block.address)) heap block.used heap := by
  obtain ⟨next, hheader⟩ := h.headers.at hblock
  have hword := hheader 3 block.used rfl
  exact hword ▸ returns_loadWord (h.accessible hblock (by decide))

theorem Represents.returns_allocationSize (h : Represents platform heap arena)
    (hblock : block ∈ arena.blocks) :
    Returns (loadWord (allocationSizeField block.address)) heap block.allocationSize heap := by
  obtain ⟨next, hheader⟩ := h.headers.at hblock
  have hword := hheader 4 block.allocationSize rfl
  exact hword ▸ returns_loadWord (h.accessible hblock (by decide))

theorem Represents.newest (h : Represents platform heap arena) (htarget : Target platform)
    (hblocks : arena.blocks = block :: older) (haddress : block'.address = block.address)
    (hok : BlockOk platform arena.backend block')
    (hsize : block'.allocationSize = block.allocationSize)
    (hopened : opened arena.backend block ≤ opened arena.backend block')
    (hheader : HeaderAt heap' block' (older.head?.map Block.address))
    (hregions : heap'.regions = (block' :: older).map (regionOf arena.backend))
    (honly : OnlyHeaders [block.address] heap heap') :
    Represents platform heap' { arena with blocks := block' :: older } := by
  obtain ⟨hapart, htail⟩ := List.pairwise_cons.1 (hblocks ▸ h.chain.apart)
  have hmem : ∀ b ∈ older, b ∈ arena.blocks := fun b hb => hblocks ▸ List.mem_cons_of_mem _ hb
  have hblock : block ∈ arena.blocks := hblocks ▸ List.mem_cons_self
  refine ⟨⟨?_, ?_⟩, hregions, ⟨hheader, ?_⟩, ?_, h.paged⟩
  · intro b hb
    rcases List.mem_cons.1 hb with rfl | hb
    · exact hok
    · exact h.chain.blocks b (hmem b hb)
  · refine List.pairwise_cons.2 ⟨fun b hb => ?_, htail⟩
    have hregion := hapart b hb
    unfold RegionsApart at hregion ⊢
    rwa [haddress, hsize]
  · have hheaders := hblocks ▸ h.headers
    refine hheaders.2.congr fun b hb a ha => honly a fun c hc => ?_
    obtain rfl := List.mem_singleton.1 hc
    have hregion := hapart b hb
    have hstart := headerSize_le_dataStart htarget b
    have hend := (h.chain.blocks b (hmem b hb)).data_end
    have hstart' := headerSize_le_dataStart htarget block
    have hend' := (h.chain.blocks block hblock).data_end
    unfold OffHeader at ha ⊢
    unfold RegionsApart at hregion
    omega
  · intro b hb
    rcases List.mem_cons.1 hb with rfl | hb
    · exact (h.reach block hblock).trans hopened
    · exact h.reach b (hmem b hb)

end Represents

end Liblor.Arena.Pointers
