import Liblor.ArenaModel

/-!
# What the arena functions do

Each function of the allocation path is described once, under the condition that a block lies where
the system put it and that its counters are in order.
-/

namespace Liblor.Arena

section Alignment

variable {value alignment : ℕ}

theorem le_alignUp (value alignment : ℕ) : value ≤ alignUp value alignment := by
  have h := Nat.and_le_right (n := value + (alignment - 1)) (m := alignment - 1)
  unfold alignUp
  omega

theorem alignUp_le (value alignment : ℕ) : alignUp value alignment ≤ value + (alignment - 1) := by
  unfold alignUp
  omega

theorem alignUp_two_pow (value k : ℕ) :
    alignUp value (2 ^ k) = (value + (2 ^ k - 1)) / 2 ^ k * 2 ^ k := by
  unfold alignUp
  rw [Nat.and_two_pow_sub_one_eq_mod]
  have h := Nat.div_add_mod' (value + (2 ^ k - 1)) (2 ^ k)
  omega

theorem dvd_alignUp (h : ∃ k, alignment = 2 ^ k) : alignment ∣ alignUp value alignment := by
  obtain ⟨k, rfl⟩ := h
  rw [alignUp_two_pow]
  exact Nat.dvd_mul_left _ _

/-- Alignment counts from any aligned address. -/
theorem alignUp_add {base : ℕ} (h : ∃ k, alignment = 2 ^ k) (hbase : alignment ∣ base)
    (value : ℕ) :
    alignUp (base + value) alignment = base + alignUp value alignment := by
  obtain ⟨k, rfl⟩ := h
  obtain ⟨c, rfl⟩ := hbase
  have hpos : 0 < 2 ^ k := Nat.two_pow_pos k
  rw [alignUp_two_pow, alignUp_two_pow, Nat.add_assoc, Nat.mul_add_div hpos, Nat.add_mul,
    Nat.mul_comm c]

theorem isPowerOfTwo_of_pow (h : ∃ k, alignment = 2 ^ k) : isPowerOfTwo alignment = true := by
  obtain ⟨k, rfl⟩ := h
  simp [isPowerOfTwo, Nat.and_two_pow_sub_one_eq_mod]

theorem alignForward_eq_some {result : ℕ} (h : alignForward value alignment = some result) :
    result = alignUp value alignment := by
  unfold alignForward at h
  split_ifs at h
  exact (Option.some.inj h).symm

theorem alignForward_of_le (h : value ≤ uintptrMax - (alignment - 1)) :
    alignForward value alignment = some (alignUp value alignment) := by
  unfold alignForward
  rw [if_neg (Nat.not_lt.2 h)]

end Alignment
section Block

variable (platform : Platform)

/-- Where the usable bytes of a block start. -/
def dataStart (block : Block) : ℕ :=
  alignUp (block.address + platform.dataOffset) platform.maxAlignment

/-- A region that a system can hand out: it does not start at `NULL` and ends in the address
space. -/
def InSpace (address size : ℕ) : Prop := 0 < address ∧ address + size ≤ uintptrMax + 1

/-- The counters of a block fit its region, and what a virtual block uses is committed. -/
structure BlockOk (backend : Backend) (block : Block) : Prop where
  region : InSpace block.address block.allocationSize
  positive : 0 < block.allocationSize
  data : blockData platform block = some (dataStart platform block)
  data_end : dataStart platform block + block.capacity ≤ block.address + block.allocationSize
  used_le : block.used ≤ block.capacity
  committed_le : block.committed ≤ block.allocationSize
  used_committed : backend = .virtual → 0 < block.used →
    dataStart platform block + block.used ≤ block.address + block.committed

variable {platform} {os : Os} {arena : LorArena} {block block' : Block} {backend : Backend}

theorem address_le_dataStart (platform : Platform) (block : Block) :
    block.address ≤ dataStart platform block :=
  Nat.le_trans (Nat.le_add_right _ _) (le_alignUp _ _)

theorem dvd_dataStart (platform : Platform) (block : Block) :
    platform.maxAlignment ∣ dataStart platform block :=
  dvd_alignUp platform.maxAlignment_pow

theorem dataStart_le (platform : Platform) (block : Block) :
    dataStart platform block ≤ block.address + blockHeaderSlack platform := by
  obtain ⟨k, hk⟩ := platform.maxAlignment_pow
  have hpos : 0 < 2 ^ k := Nat.two_pow_pos k
  have hle := alignUp_le (block.address + platform.dataOffset) platform.maxAlignment
  unfold dataStart blockHeaderSlack
  omega

theorem blockData_of_region {size : ℕ} (hsize : blockHeaderSlack platform < size)
    (hregion : InSpace block.address size) :
    blockData platform block = some (dataStart platform block) := by
  have hend := hregion.2
  obtain ⟨k, hk⟩ := platform.maxAlignment_pow
  have hpos : 0 < 2 ^ k := Nat.two_pow_pos k
  apply alignForward_of_le
  unfold blockHeaderSlack at hsize
  omega

theorem BlockOk.lower (h : BlockOk platform backend block) {used : ℕ} (hle : used ≤ block.used) :
    BlockOk platform backend { block with used := used } where
  region := h.region
  positive := h.positive
  data := h.data
  data_end := h.data_end
  used_le := Nat.le_trans hle h.used_le
  committed_le := h.committed_le
  used_committed hvirtual hpos := by
    have hcommitted := h.used_committed hvirtual (Nat.lt_of_lt_of_le hpos hle)
    change dataStart platform block + used ≤ block.address + block.committed
    omega

theorem heapBlockNew_spec {capacity : ℕ} (h : heapBlockNew platform os capacity = some block)
    (hpos : 0 < capacity) : os.malloc block.allocationSize = some block.address ∧
      block.used = 0 ∧ block.capacity = capacity ∧
      (InSpace block.address block.allocationSize → backend ≠ .virtual →
        BlockOk platform backend block) := by
  unfold heapBlockNew at h
  dsimp only at h
  split_ifs at h
  cases hmalloc : os.malloc (capacity + blockHeaderSlack platform) with
  | none => simp [hmalloc] at h
  | some address =>
      simp only [hmalloc, Option.some.injEq] at h
      subst block
      refine ⟨hmalloc, rfl, rfl, ?_⟩
      intro hregion hbackend
      refine ⟨hregion, Nat.lt_of_lt_of_le hpos (Nat.le_add_right _ _), ?_, ?_,
        Nat.zero_le _, Nat.le_add_right _ _, fun hvirtual => absurd hvirtual hbackend⟩
      · exact blockData_of_region (Nat.lt_add_of_pos_left hpos) hregion
      · have hstart := dataStart_le platform
          ⟨address, capacity, capacity, 0, capacity + blockHeaderSlack platform⟩
        dsimp only at hstart ⊢
        omega

theorem le_pageAlign {size : ℕ} (h : pageAlign platform size ≠ 0) :
    size ≤ pageAlign platform size := by
  unfold pageAlign at h ⊢
  split_ifs at h ⊢
  · exact Nat.le_refl _
  · contradiction
  · exact le_alignUp _ _

theorem le_virtualReserve {reserveSize minReserve : ℕ}
    (h : virtualReserve platform reserveSize minReserve ≠ 0) :
    minReserve ≤ virtualReserve platform reserveSize minReserve := by
  have hle := le_pageAlign h
  unfold virtualReserve
  split_ifs at hle ⊢ <;> omega

theorem virtualCommit_le {reserveSize commitSize minReserve : ℕ} :
    virtualCommit platform reserveSize commitSize minReserve ≤ reserveSize := by
  unfold virtualCommit
  dsimp only
  split_ifs <;> omega

theorem virtualBlockNew_spec {reserveSize commitSize minCapacity : ℕ}
    (h : virtualBlockNew platform os reserveSize commitSize minCapacity = some block)
    (hpos : 0 < minCapacity) : os.reserveRaw block.allocationSize = some block.address ∧
      block.used = 0 ∧ minCapacity ≤ block.capacity ∧
      (InSpace block.address block.allocationSize → BlockOk platform backend block) := by
  unfold virtualBlockNew at h
  dsimp only at h
  split_ifs at h with _ hreserve
  cases hraw : os.reserveRaw
      (virtualReserve platform reserveSize (minCapacity + blockHeaderSlack platform)) with
  | none => simp [hraw] at h
  | some address =>
      simp only [hraw] at h
      split_ifs at h
      generalize hr : virtualReserve platform reserveSize
        (minCapacity + blockHeaderSlack platform) = reserve at *
      have hle := le_virtualReserve (hr ▸ hreserve)
      rw [hr] at hle
      generalize hc : virtualCommit platform reserve commitSize
        (minCapacity + blockHeaderSlack platform) = commit at *
      have hcommit : commit ≤ reserve := hc ▸ virtualCommit_le
      cases hdata : blockData platform ⟨address, 0, commit, 0, reserve⟩ with
      | none => simp [hdata] at h
      | some data =>
          simp only [hdata, Option.some.injEq] at h
          have hstart : data = dataStart platform block := by
            subst block
            exact alignForward_eq_some hdata
          have haddress := address_le_dataStart platform block
          have hslack := dataStart_le platform block
          subst block
          rw [← hstart] at haddress hslack
          dsimp only at haddress hslack
          refine ⟨hraw, rfl, by dsimp only; omega, ?_⟩
          intro hregion
          refine ⟨hregion, Nat.pos_of_ne_zero hreserve, by rw [← hstart]; exact hdata, ?_,
            Nat.zero_le _, hcommit, fun _ hused => absurd hused (Nat.lt_irrefl 0)⟩
          rw [← hstart]
          dsimp only
          omega

theorem blockNew_spec {minCapacity : ℕ} (h : blockNew platform os arena minCapacity = some block)
    (hpos : 0 < minCapacity) :
    (os.malloc block.allocationSize = some block.address ∨
      os.reserveRaw block.allocationSize = some block.address) ∧
    block.used = 0 ∧ minCapacity ≤ block.capacity ∧
    (InSpace block.address block.allocationSize → BlockOk platform arena.backend block) := by
  unfold blockNew at h
  split_ifs at h with hvirtual hsmall
  · obtain ⟨hraw, hspec⟩ := virtualBlockNew_spec h hpos
    exact ⟨Or.inr hraw, hspec⟩
  · obtain ⟨hmalloc, hused, hcapacity, hok⟩ := heapBlockNew_spec h hpos
    exact ⟨Or.inl hmalloc, hused, Nat.le_of_eq hcapacity.symm, fun hr => hok hr hvirtual⟩
  · obtain ⟨hmalloc, hused, hcapacity, hok⟩ := heapBlockNew_spec h (by omega)
    exact ⟨Or.inl hmalloc, hused, by omega, fun hr => hok hr hvirtual⟩

theorem blockEnsureCommitted_spec {neededUsed commitSize : ℕ}
    (hok : BlockOk platform backend block)
    (h : blockEnsureCommitted platform os block neededUsed commitSize = some block') :
    ∃ committed, block' = { block with committed := committed } ∧ block.committed ≤ committed ∧
      committed ≤ block.allocationSize ∧
      dataStart platform block + neededUsed ≤ block.address + committed ∧
      (committed = block.committed ∨ os.commitRaw (block.address + block.committed)
        (committed - block.committed) = true) := by
  have haddress := address_le_dataStart platform block
  have hend := hok.data_end
  have hcommitted := hok.committed_le
  unfold blockEnsureCommitted at h
  simp only [hok.data] at h
  split_ifs at h with hroom hover henough hover' hsize hclamp hraw hraw hclamp hraw hraw
  all_goals cases h
  · exact ⟨_, rfl, Nat.le_refl _, hcommitted, by omega, Or.inl rfl⟩
  · exact ⟨_, rfl, hcommitted, Nat.le_refl _, by omega, Or.inr hraw⟩
  · have hle := le_alignUp (dataStart platform block - block.address + neededUsed) commitSize
    exact ⟨_, rfl, by omega, by omega, by omega, Or.inr hraw⟩
  · exact ⟨_, rfl, hcommitted, Nat.le_refl _, by omega, Or.inr hraw⟩
  · exact ⟨_, rfl, by omega, by omega, by omega, Or.inr hraw⟩

/-- An allocation from a block starts at the next aligned byte and ends inside the capacity and, for
a virtual block, inside the committed bytes. -/
theorem blockAlloc_spec {size alignment p : ℕ} (hok : BlockOk platform arena.backend block)
    (h : blockAlloc platform os arena block size alignment = some (p, block')) :
    p = alignUp (dataStart platform block + block.used) alignment ∧
    p + size ≤ dataStart platform block + block.capacity ∧
    ∃ committed, block' = { block with
        committed := committed, used := p + size - dataStart platform block } ∧
      block.committed ≤ committed ∧ committed ≤ block.allocationSize ∧
      (arena.backend = .virtual → p + size ≤ block.address + committed) ∧
      (committed = block.committed ∨ os.commitRaw (block.address + block.committed)
        (committed - block.committed) = true) := by
  unfold blockAlloc at h
  have hused := hok.used_le
  simp only [hok.data] at h
  rw [if_neg (Nat.not_lt.2 hused)] at h
  cases hforward : alignForward (dataStart platform block + block.used) alignment with
  | none => simp [hforward] at h
  | some aligned =>
      have haligned := alignForward_eq_some hforward
      have hle := le_alignUp (dataStart platform block + block.used) alignment
      rw [← haligned] at hle
      simp only [hforward] at h
      split_ifs at h with hpadding hsize hvirtual
      · cases hensure : blockEnsureCommitted platform os block
          (block.used + (aligned - (dataStart platform block + block.used)) + size)
          arena.commitSize with
        | none => simp [hensure] at h
        | some block₁ =>
            simp only [hensure, Option.some.injEq, Prod.mk.injEq] at h
            obtain ⟨rfl, rfl⟩ := h
            obtain ⟨committed, rfl, hge, hle', henough, hraw⟩ :=
              blockEnsureCommitted_spec hok hensure
            refine ⟨haligned, by omega, committed, ?_, hge, hle', fun _ => by omega, hraw⟩
            simp only [Block.mk.injEq, true_and, and_true]
            omega
      · simp only [Option.some.injEq, Prod.mk.injEq] at h
        obtain ⟨rfl, rfl⟩ := h
        refine ⟨haligned, by omega, block.committed, ?_, Nat.le_refl _, hok.committed_le,
          fun hv => absurd hv hvirtual, Or.inl rfl⟩
        simp only [Block.mk.injEq, true_and, and_true]
        omega

theorem blockAlloc_ok {size alignment p : ℕ} (hok : BlockOk platform arena.backend block)
    (h : blockAlloc platform os arena block size alignment = some (p, block')) :
    BlockOk platform arena.backend block' := by
  obtain ⟨hp, hend, committed, rfl, hge, hle, hvirtual, -⟩ := blockAlloc_spec hok h
  have hstart := le_alignUp (dataStart platform block + block.used) alignment
  refine ⟨hok.region, hok.positive, hok.data, hok.data_end, ?_, hle, ?_⟩
  · change p + size - dataStart platform block ≤ block.capacity
    omega
  · intro hv _
    have hcommitted := hvirtual hv
    change dataStart platform block + (p + size - dataStart platform block) ≤
      block.address + committed
    omega

end Block

section Allocation

variable {platform : Platform} {os : Os} {arena : LorArena} {size alignment : ℕ}

/-- What `lor_arena__alloc_aligned` does to an initialized arena. -/
inductive Outcome (platform : Platform) (os : Os) (arena : LorArena) (size alignment : ℕ) :
    Option ℕ × LorArena → Prop where
  | refused : Outcome platform os arena size alignment (none, arena)
  | newest {block block' : Block} {older : List Block} {p : ℕ}
      (hblocks : arena.blocks = block :: older)
      (halloc : blockAlloc platform os arena block size alignment = some (p, block')) :
      Outcome platform os arena size alignment (some p, { arena with blocks := block' :: older })
  | grown {block : Block} {minCapacity : ℕ} (hsize : size ≤ minCapacity)
      (hnew : blockNew platform os arena minCapacity = some block) :
      Outcome platform os arena size alignment
        (none, { arena with blocks := block :: arena.blocks })
  | fresh {block block' : Block} {minCapacity p : ℕ} (hsize : size ≤ minCapacity)
      (hnew : blockNew platform os arena minCapacity = some block)
      (halloc : blockAlloc platform os arena block size alignment = some (p, block')) :
      Outcome platform os arena size alignment
        (some p, { arena with blocks := block' :: arena.blocks })

theorem allocFresh_cases (platform : Platform) (os : Os) (arena : LorArena) (size alignment : ℕ) :
    Outcome platform os arena size alignment (allocFresh platform os arena size alignment) := by
  unfold allocFresh
  by_cases hover : alignment > 1 ∧ addOverflowsSize size (alignment - 1)
  · rw [if_pos hover]
    exact .refused
  · rw [if_neg hover]
    dsimp only
    generalize hmin : (if alignment > 1 then size + (alignment - 1) else size) = minCapacity
    have hsize : size ≤ minCapacity := by
      rw [← hmin]
      split_ifs <;> omega
    cases hnew : blockNew platform os arena minCapacity with
    | none => exact .refused
    | some block =>
        dsimp only
        cases halloc : blockAlloc platform os arena block size alignment with
        | none => exact .grown hsize hnew
        | some result => exact .fresh hsize hnew halloc

theorem allocReady_cases (platform : Platform) (os : Os) (arena : LorArena) (size alignment : ℕ) :
    Outcome platform os arena size alignment (allocReady platform os arena size alignment) := by
  unfold allocReady
  cases hblocks : arena.blocks with
  | nil => exact allocFresh_cases platform os arena size alignment
  | cons block older =>
      dsimp only
      cases halloc : blockAlloc platform os arena block size alignment with
      | none => exact allocFresh_cases platform os arena size alignment
      | some result => exact .newest hblocks halloc

theorem initInternal_cases (platform : Platform) (arena : LorArena) (config : Config) :
    (initInternal platform arena config = (false, arena)) ∨
    (arena = arenaInit ∧ ∃ arena', initInternal platform arena config = (true, arena') ∧
      arena'.blocks = []) := by
  by_cases hinit : arena = arenaInit
  · subst arena
    unfold initInternal
    rw [if_neg (not_not.2 rfl)]
    dsimp only
    split_ifs
    · exact Or.inl rfl
    · exact Or.inl rfl
    · exact Or.inr ⟨rfl, _, rfl, rfl⟩
    · exact Or.inr ⟨rfl, _, rfl, rfl⟩
  · unfold initInternal
    rw [if_pos hinit]
    exact Or.inl rfl

/-- The allocation works on the arena that it got or on one that it has initialized itself. -/
theorem allocAligned_cases (platform : Platform) (os : Os) (arena : LorArena)
    (size alignment : ℕ) :
    ∃ arena₀ : LorArena, (arena₀ = arena ∨ arena = arenaInit ∧ arena₀.blocks = []) ∧
      Outcome platform os arena₀ size alignment
        (allocAligned platform os arena size alignment) := by
  unfold allocAligned
  split_ifs
  · exact ⟨arena, Or.inl rfl, .refused⟩
  · rcases initInternal_cases platform arena ⟨.heap, 0, 0, 0⟩ with
      hfail | ⟨hinit, arena', hok, hempty⟩
    · rw [hfail]
      exact ⟨arena, Or.inl rfl, .refused⟩
    · rw [hok]
      exact ⟨arena', Or.inr ⟨hinit, hempty⟩, allocReady_cases _ _ _ _ _⟩
  · exact ⟨arena, Or.inl rfl, allocReady_cases _ _ _ _ _⟩

theorem mulOverflowsSize_iff {count elemSize : ℕ} :
    mulOverflowsSize count elemSize = true ↔ sizeMax < count * elemSize := by
  rcases Nat.eq_zero_or_pos elemSize with rfl | hpos
  · simp [mulOverflowsSize]
  · rw [← Nat.div_lt_iff_lt_mul hpos]
    have hne : elemSize ≠ 0 := Nat.pos_iff_ne_zero.1 hpos
    simp [mulOverflowsSize, hne]

/-- Whatever the arena, a request for nothing or for more than a size can say is refused at once,
and any other request is one aligned allocation. -/
theorem request_cases (platform : Platform) (r : Request) :
    ((∀ os arena, request platform os arena r = (none, arena)) ∧
      (r.size = 0 ∨ sizeMax < r.size)) ∨
    ∀ os arena, request platform os arena r =
      allocAligned platform os arena r.size platform.maxAlignment := by
  have harray : ∀ {count elemSize : ℕ},
      count = 0 ∨ elemSize = 0 ∨ mulOverflowsSize count elemSize = true →
        count * elemSize = 0 ∨ sizeMax < count * elemSize := by
    intro count elemSize hbad
    rcases hbad with rfl | rfl | hover
    · exact Or.inl (Nat.zero_mul _)
    · exact Or.inl (Nat.mul_zero _)
    · exact Or.inr (mulOverflowsSize_iff.1 hover)
  cases r with
  | alloc size => exact Or.inr fun _ _ => rfl
  | allocZero size => exact Or.inr fun _ _ => rfl
  | allocArray count elemSize =>
      by_cases hbad : count = 0 ∨ elemSize = 0 ∨ mulOverflowsSize count elemSize
      · exact Or.inl ⟨fun _ _ => if_pos hbad, harray hbad⟩
      · exact Or.inr fun _ _ => if_neg hbad
  | allocArrayZero count elemSize =>
      by_cases hbad : count = 0 ∨ elemSize = 0 ∨ mulOverflowsSize count elemSize
      · exact Or.inl ⟨fun _ _ => if_pos hbad, harray hbad⟩
      · exact Or.inr fun _ _ => if_neg hbad
  | strdup text =>
      cases text with
      | none => exact Or.inl ⟨fun _ _ => rfl, Or.inl rfl⟩
      | some text =>
          by_cases hbad : text.length = sizeMax
          · exact Or.inl ⟨fun _ _ => if_pos hbad, Or.inr (hbad ▸ Nat.lt_succ_self _)⟩
          · exact Or.inr fun _ _ => if_neg hbad

theorem size_pos_of_alloc {p : ℕ} {arena' : LorArena}
    (h : allocAligned platform os arena size alignment = (some p, arena')) : 0 < size := by
  apply Nat.pos_of_ne_zero
  intro hsize
  unfold allocAligned at h
  rw [if_pos (Or.inl hsize)] at h
  simp at h

end Allocation

end Liblor.Arena
