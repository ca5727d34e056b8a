import Liblor.ArenaPointers

/-!
# The calls on the memory of an arena

Requests, with what they leave in the new allocation, and the calls that walk the chain of blocks. A
walk returns as soon as it may take one step more than there are blocks.
-/

namespace Liblor.Arena.Pointers

open BumpStack RegionHeap

variable {platform : Platform} {os : Os} {heap heap' : Heap} {arena : LorArena} {s : Arena.State}
  {p : Piece}

theorem Represents.congr (h : Represents platform heap arena)
    (hregions : heap'.regions = heap.regions)
    (hcells : ∀ block ∈ arena.blocks, ∀ a, ¬OffHeader block.address a →
      heap'.cells a = heap.cells a) : Represents platform heap' arena :=
  ⟨h.chain, hregions.trans h.regions, h.headers.congr hcells, h.reach, h.paged⟩

/-- What is live can be accessed, and no header lies in it. -/
theorem live_inside (htarget : Target platform) (hsound : Sound platform s)
    (h : Represents platform heap s.arena) (hp : p ∈ s.live) :
    heap.Accessible p.start p.size ∧ ∀ a, p.start ≤ a → a < p.start + p.size →
      ∀ block ∈ s.arena.blocks, OffHeader block.address a := by
  obtain ⟨f, hf, hstart, hend⟩ := hsound.filed.inside p hp
  obtain ⟨block, hblock, rfl⟩ := List.mem_map.1 hf
  change dataStart platform block ≤ p.start at hstart
  change p.start + p.size ≤ dataStart platform block + block.used at hend
  have hok := hsound.blocks block hblock
  have hdata := hok.data_end
  have hused := hok.used_le
  have hpos := hsound.positive p hp
  have hheader := headerSize_le_dataStart htarget block
  constructor
  · refine ⟨regionOf s.arena.backend block, ?_, ?_, ?_⟩
    · rw [h.regions]
      exact List.mem_map_of_mem hblock
    · change block.address ≤ p.start
      omega
    · change p.start + p.size ≤ block.address + opened s.arena.backend block
      unfold opened
      split_ifs with hvirtual
      · have hcommitted := hok.used_committed hvirtual (by omega)
        omega
      · omega
  · intro a hle hlt c hc
    by_cases hsame : c = block
    · subst c
      exact Or.inr (by omega)
    · have hsymm : Std.Symm RegionsApart := ⟨fun _ _ happart => Or.symm happart⟩
      have hapart := hsound.apart.forall hc hblock hsame
      have hend' := (hsound.blocks c hc).data_end
      have hheader' := headerSize_le_dataStart htarget c
      unfold RegionsApart at hapart
      unfold OffHeader
      omega

/-! ## Requests -/

/-- The call answers as the function on the list of blocks does. It changes no cell but in headers
and in the new allocation, and this one holds the bytes. -/
def Answers (platform : Platform) (heap : Heap) (m : Action (Option ℕ × Handle))
    (result : Option ℕ × LorArena) (size : ℕ) (bytes : Option Bytes) : Prop :=
  ∃ heap', Returns m heap (result.1, handleOf result.2) heap' ∧
    Represents platform heap' result.2 ∧
    (∀ a, (∀ block ∈ result.2.blocks, OffHeader block.address a) →
      (∀ start ∈ result.1, a < start ∨ start + size ≤ a) → heap'.cells a = heap.cells a) ∧
    ∀ start ∈ result.1, ∀ b ∈ bytes, heap'.load start b.length = b

theorem Simulates.answers {m : Action (Option ℕ × Handle)} {result : Option ℕ × LorArena}
    (h : Simulates platform heap m result) (size : ℕ) :
    Answers platform heap m result size none := by
  obtain ⟨heap', hreturns, honly, hrep⟩ := h
  refine ⟨heap', hreturns, hrep, fun a ha _ => honly a fun block hblock => ?_, by simp⟩
  obtain ⟨b, hb, rfl⟩ := List.mem_map.1 hblock
  exact ha b hb

theorem Represents.declines (h : Represents platform heap arena) (size : ℕ) (bytes : Option Bytes) :
    Answers platform heap (pure (none, handleOf arena)) (none, arena) size bytes :=
  ⟨heap, .pure _ heap, h, fun _ _ _ => rfl, by simp⟩

theorem allocFilled_answers (h : Represents platform heap arena) (htarget : Target platform)
    (hlegal : os.Legal arena) {size : ℕ} {bytes : Bytes} (hlength : bytes.length = size) :
    Answers platform heap (allocFilled platform os (handleOf arena) size bytes)
      (Arena.allocAligned platform os arena size platform.maxAlignment) size (some bytes) := by
  obtain ⟨heap₁, hreturns, honly, hrep⟩ :=
    allocAligned_simulates h htarget hlegal size platform.maxAlignment
  have hsound := h.chain.sound.allocAligned hlegal size
  cases hresult : Arena.allocAligned platform os arena size platform.maxAlignment with
  | mk result arena' =>
    rw [hresult] at hreturns honly hrep hsound
    have honly' : ∀ a, (∀ block ∈ arena'.blocks, OffHeader block.address a) →
        heap₁.cells a = heap.cells a := by
      intro a ha
      apply honly a
      intro block hblock
      obtain ⟨b, hb, rfl⟩ := List.mem_map.1 hblock
      exact ha b hb
    cases result with
    | none =>
      exact ⟨heap₁, hreturns.bind (.pure _ _), hrep, fun a ha _ => honly' a ha, by simp⟩
    | some start =>
      obtain ⟨haccess, hoff⟩ :=
        live_inside (p := ⟨start, size⟩) htarget hsound hrep List.mem_cons_self
      dsimp only at haccess hoff
      subst size
      refine ⟨heap₁.store start bytes,
        hreturns.bind (.bind (returns_storeBytes haccess) (.pure _ _)), ?_, ?_, ?_⟩
      · refine hrep.congr rfl fun block hblock a ha => cells_store_apart ?_
        by_contra hin
        exact ha (hoff a (by omega) (by omega) block hblock)
      · intro a ha hapart
        rw [cells_store_apart (hapart start rfl), honly' a ha]
      · intro start' hstart' b hb
        obtain rfl := Option.some.inj hstart'
        obtain rfl := Option.some.inj hb
        exact load_store_same

theorem request_answers (h : Represents platform heap arena) (htarget : Target platform)
    (hlegal : os.Legal arena) (r : Request) :
    Answers platform heap (request platform os (handleOf arena) r)
      (Arena.request platform os arena r) r.size (contents r) := by
  cases r with
  | alloc size => exact (allocAligned_simulates h htarget hlegal size _).answers size
  | allocZero size => exact allocFilled_answers h htarget hlegal (List.length_replicate)
  | allocArray count elemSize =>
    change Answers platform heap (allocArray platform os (handleOf arena) count elemSize)
      (Arena.allocArray platform os arena count elemSize) _ _
    unfold allocArray Arena.allocArray
    split_ifs
    · exact h.declines _ _
    · exact (allocAligned_simulates h htarget hlegal _ _).answers _
  | allocArrayZero count elemSize =>
    change Answers platform heap (allocArrayZero platform os (handleOf arena) count elemSize)
      (Arena.allocArrayZero platform os arena count elemSize) _ _
    unfold allocArrayZero Arena.allocArrayZero
    split_ifs
    · exact h.declines _ _
    · exact allocFilled_answers h htarget hlegal (List.length_replicate)
  | strdup text =>
    cases text with
    | none => exact h.declines _ _
    | some text =>
      change Answers platform heap (strdup platform os (handleOf arena) (some text))
        (Arena.strdup platform os arena (some text)) _ _
      unfold strdup Arena.strdup
      dsimp only
      split_ifs
      · exact h.declines _ _
      · exact allocFilled_answers h htarget hlegal (by simp)

/-! ## Walking the chain -/

section Walk

variable {block : Block} {newer older rest : List Block} {fuel : ℕ}

theorem Headers.suffix {blocks : List Block} (h : Headers heap blocks) (hsuffix : rest <:+ blocks) :
    Headers heap rest := by
  obtain ⟨newer, rfl⟩ := hsuffix
  induction newer with
  | nil => exact h
  | cons b newer ih => exact ih h.2

theorem returns_loadNext (h : Represents platform heap arena)
    (hsuffix : block :: older <:+ arena.blocks) :
    Returns (loadNext block.address) heap (older.head?.map Block.address) heap := by
  have hblock : block ∈ arena.blocks := hsuffix.mem List.mem_cons_self
  have hword := (h.headers.suffix hsuffix).1 0 _ rfl
  have hload : Returns (loadWord (nextField block.address)) heap
      ((older.head?.map Block.address).getD 0) heap :=
    hword ▸ returns_loadWord (h.accessible hblock (by decide))
  have hpointer : pointer ((older.head?.map Block.address).getD 0) =
      older.head?.map Block.address := by
    cases older with
    | nil => rfl
    | cons b older =>
      have hpos := (h.chain.blocks b
        (hsuffix.mem (List.mem_cons_of_mem _ List.mem_cons_self))).region.1
      exact if_neg (Nat.ne_of_gt hpos)
  rw [← hpointer]
  exact hload.bind (.pure _ heap)

theorem suffix_of_cons {blocks : List Block} (hsuffix : block :: rest <:+ blocks) :
    rest <:+ blocks :=
  (List.suffix_cons block rest).trans hsuffix

theorem mark_returns (h : Represents platform heap arena) :
    Returns (mark (handleOf arena)) heap (Arena.mark arena) heap := by
  have hhandle : (handleOf arena).blocks = arena.blocks.head?.map Block.address := rfl
  unfold mark Arena.mark
  rw [hhandle]
  cases hblocks : arena.blocks with
  | nil => exact .pure _ heap
  | cons block older =>
    exact (h.returns_used (hblocks ▸ List.mem_cons_self)).bind (.pure _ heap)

theorem sumLoop_returns (h : Represents platform heap arena) {field : ℕ → ℕ} {value : Block → ℕ}
    (hfield : ∀ block ∈ arena.blocks,
      Returns (loadWord (field block.address)) heap (value block) heap)
    (hsuffix : rest <:+ arena.blocks) (hfuel : rest.length < fuel) (total : ℕ) :
    Returns (sumLoop field fuel (rest.head?.map Block.address) total) heap
      (total + (rest.map value).sum) heap := by
  induction rest generalizing fuel total with
  | nil =>
    obtain ⟨fuel, rfl⟩ := Nat.exists_eq_succ_of_ne_zero (Nat.ne_of_gt hfuel)
    exact .pure _ heap
  | cons block rest ih =>
    obtain ⟨fuel, rfl⟩ := Nat.exists_eq_succ_of_ne_zero (Nat.ne_of_gt (Nat.zero_lt_of_lt hfuel))
    rw [List.map_cons, List.sum_cons, ← Nat.add_assoc]
    exact (hfield block (hsuffix.mem List.mem_cons_self)).bind
      ((returns_loadNext h hsuffix).bind
        (ih (suffix_of_cons hsuffix) (Nat.lt_of_succ_lt_succ hfuel) _))

theorem used_returns (h : Represents platform heap arena) (hfuel : arena.blocks.length < fuel) :
    Returns (used fuel (handleOf arena)) heap (Arena.used arena) heap := by
  have hsum := sumLoop_returns h (fun block hblock => h.returns_used hblock)
    (List.suffix_refl _) hfuel 0
  rwa [Nat.zero_add] at hsum

theorem capacity_returns (h : Represents platform heap arena) (hfuel : arena.blocks.length < fuel) :
    Returns (capacity fuel (handleOf arena)) heap (Arena.capacity arena) heap := by
  have hsum := sumLoop_returns h (fun block hblock => h.returns_capacity hblock)
    (List.suffix_refl _) hfuel 0
  rwa [Nat.zero_add] at hsum

/-! ## Emptying blocks -/

theorem apart_congr {blocks blocks' : List Block}
    (hsame : blocks'.map (fun b => (b.address, b.allocationSize)) =
      blocks.map fun b => (b.address, b.allocationSize)) (h : blocks.Pairwise RegionsApart) :
    blocks'.Pairwise RegionsApart := by
  have hkeys : (blocks.map fun b => (b.address, b.allocationSize)).Pairwise fun r t : ℕ × ℕ =>
      r.1 + r.2 ≤ t.1 ∨ t.1 + t.2 ≤ r.1 := List.pairwise_map.2 h
  rw [← hsame] at hkeys
  exact (List.pairwise_map.1 hkeys).imp fun happart => happart

theorem Headers.replace {block' : Block} (h : Headers heap (newer ++ block :: older))
    (haddress : block'.address = block.address)
    (hblock : ∀ next, HeaderAt heap block next → HeaderAt heap' block' next)
    (hothers : ∀ b, b ∈ newer ∨ b ∈ older → ∀ next, HeaderAt heap b next → HeaderAt heap' b next) :
    Headers heap' (newer ++ block' :: older) := by
  induction newer with
  | nil =>
    refine ⟨hblock _ h.1, ?_⟩
    have holder : ∀ rest, (∀ b ∈ rest, b ∈ older) → Headers heap rest → Headers heap' rest := by
      intro rest hrest hheaders
      induction rest with
      | nil => trivial
      | cons b rest ih =>
        exact ⟨hothers b (Or.inr (hrest b List.mem_cons_self)) _ hheaders.1,
          ih (fun c hc => hrest c (List.mem_cons_of_mem _ hc)) hheaders.2⟩
    exact holder older (fun _ hb => hb) h.2
  | cons b newer ih =>
    have hhead : (newer ++ block' :: older).head?.map Block.address =
        (newer ++ block :: older).head?.map Block.address := by
      cases newer with
      | nil => exact congrArg some haddress
      | cons c newer => rfl
    refine ⟨?_, ih h.2 fun c hc => hothers c (hc.imp_left (List.mem_cons_of_mem _))⟩
    change HeaderAt heap' b ((newer ++ block' :: older).head?.map Block.address)
    rw [hhead]
    exact hothers b (Or.inl List.mem_cons_self) _ h.1

theorem Represents.lower (newer : List Block) (h : Represents platform heap arena)
    (htarget : Target platform) (hblocks : arena.blocks = newer ++ block :: older) {level : ℕ}
    (hle : level ≤ block.used) :
    ∃ heap', Returns (storeWord (usedField block.address) level) heap () heap' ∧
      OnlyHeaders [block.address] heap heap' ∧
      Represents platform heap' { arena with
        blocks := newer ++ { block with used := level } :: older } := by
  have hmem : ∀ b, b ∈ newer ∨ b ∈ older → b ∈ arena.blocks := by
    intro b hb
    rw [hblocks, List.mem_append, List.mem_cons]
    exact hb.imp_right Or.inr
  have hblock : block ∈ arena.blocks := hblocks ▸ List.mem_append_right _ List.mem_cons_self
  have hok := h.chain.blocks block hblock
  have hlt := fields_lt hok
  have honly := onlyHeaders_storeWord 3 (by decide) heap block.address level
  have hcases : ∀ {P : Block → Prop}, P { block with used := level } →
      (∀ b, b ∈ newer ∨ b ∈ older → P b) →
      ∀ b ∈ newer ++ { block with used := level } :: older, P b := by
    intro P hhere hothers b hb
    rcases List.mem_append.1 hb with hb | hb
    · exact hothers b (Or.inl hb)
    rcases List.mem_cons.1 hb with rfl | hb
    · exact hhere
    · exact hothers b (Or.inr hb)
  refine ⟨_, returns_storeWord (h.accessible hblock (by decide)), honly, ⟨?_, ?_⟩, ?_, ?_, ?_,
    h.paged⟩
  · exact hcases (hok.lower hle) fun b hb => h.chain.blocks b (hmem b hb)
  · refine apart_congr ?_ (hblocks ▸ h.chain.apart)
    simp only [List.map_append, List.map_cons]
  · change heap.regions = _
    rw [h.regions, hblocks]
    simp only [List.map_append, List.map_cons]
    rfl
  · refine (hblocks ▸ h.headers).replace rfl (fun next hheader => hheader.setUsed (by omega)) ?_
    intro b hb next hheader
    refine hheader.congr fun a ha => honly a fun c hc => ?_
    obtain rfl := List.mem_singleton.1 hc
    have hregion : RegionsApart b block := by
      obtain ⟨-, htail, hacross⟩ := List.pairwise_append.1 (hblocks ▸ h.chain.apart)
      rcases hb with hb | hb
      · exact hacross b hb block List.mem_cons_self
      · exact ((List.pairwise_cons.1 htail).1 b hb).symm
    have hstart := headerSize_le_dataStart htarget b
    have hend := (h.chain.blocks b (hmem b hb)).data_end
    have hstart' := headerSize_le_dataStart htarget block
    have hend' := hok.data_end
    unfold OffHeader at ha ⊢
    unfold RegionsApart at hregion
    omega
  · exact hcases (h.reach block hblock) fun b hb => h.reach b (hmem b hb)

theorem resetLoop_returns (newer : List Block) (h : Represents platform heap arena)
    (htarget : Target platform)
    (hblocks : arena.blocks = newer ++ rest) (hfuel : rest.length < fuel) :
    ∃ heap', Returns (resetLoop fuel (rest.head?.map Block.address)) heap () heap' ∧
      OnlyHeaders (rest.map Block.address) heap heap' ∧
      Represents platform heap' { arena with blocks := newer ++ rest.map clearUsed } := by
  induction rest generalizing fuel newer heap arena with
  | nil =>
    obtain ⟨fuel, rfl⟩ := Nat.exists_eq_succ_of_ne_zero (Nat.ne_of_gt hfuel)
    refine ⟨heap, .pure _ heap, .refl _ _, ?_⟩
    rw [List.map_nil, ← hblocks]
    exact h
  | cons block rest ih =>
    obtain ⟨fuel, rfl⟩ := Nat.exists_eq_succ_of_ne_zero (Nat.ne_of_gt (Nat.zero_lt_of_lt hfuel))
    obtain ⟨heap₁, hstore, honly, hrep⟩ := h.lower newer htarget hblocks (Nat.zero_le _)
    have hsuffix : { block with used := 0 } :: rest <:+
        newer ++ { block with used := 0 } :: rest := List.suffix_append _ _
    obtain ⟨heap₂, hreturns, honly', hrep'⟩ :=
      ih (newer ++ [clearUsed block]) hrep (by simp [clearUsed])
        (Nat.lt_of_succ_lt_succ hfuel)
    refine ⟨heap₂, hstore.bind ((returns_loadNext hrep hsuffix).bind hreturns), ?_, ?_⟩
    · exact (honly.mono (by simp)).trans (honly'.mono fun _ ha => List.mem_cons_of_mem _ ha)
    · simpa using hrep'

theorem reset_returns (h : Represents platform heap arena) (htarget : Target platform)
    (hfuel : arena.blocks.length < fuel) :
    ∃ heap', Returns (reset fuel (handleOf arena)) heap () heap' ∧
      OnlyHeaders (arena.blocks.map Block.address) heap heap' ∧
      Represents platform heap' (Arena.reset arena) :=
  resetLoop_returns [] h htarget rfl hfuel

/-! ## Giving blocks back -/

theorem blockFree_returns (h : Represents platform heap arena)
    (hblocks : arena.blocks = block :: older) (handle : Handle)
    (hbackend : handle.backend = arena.backend) :
    ∃ heap', Returns (blockFree handle block.address) heap () heap' ∧ heap'.cells = heap.cells ∧
      Represents platform heap' { arena with blocks := older } := by
  have hregions : heap.regions = regionOf arena.backend block ::
      older.map (regionOf arena.backend) := by
    rw [h.regions, hblocks]
    rfl
  have hmem : ∀ b ∈ older, b ∈ arena.blocks := fun b hb => hblocks ▸ List.mem_cons_of_mem _ hb
  refine ⟨{ heap with regions := older.map (regionOf arena.backend) }, ?_, rfl,
    ⟨fun b hb => h.chain.blocks b (hmem b hb), ?_⟩, rfl, ?_, fun b hb => h.reach b (hmem b hb),
    h.paged⟩
  · unfold blockFree
    rw [hbackend]
    split_ifs
    · exact (h.returns_allocationSize (hblocks ▸ List.mem_cons_self)).bind
        (returns_release hregions (by simp [regionOf]))
    · exact returns_release hregions (by simp [regionOf])
  · exact (List.pairwise_cons.1 (hblocks ▸ h.chain.apart)).2
  · exact (hblocks ▸ h.headers).2.congr fun _ _ _ _ => rfl

theorem deinitLoop_returns (h : Represents platform heap arena) (handle : Handle)
    (hbackend : handle.backend = arena.backend) (hfuel : arena.blocks.length < fuel) :
    ∃ heap', Returns (deinitLoop handle fuel (arena.blocks.head?.map Block.address)) heap () heap' ∧
      heap'.cells = heap.cells ∧ Represents platform heap' { arena with blocks := [] } := by
  obtain ⟨blocks, backend, blockSize, reserveSize, commitSize⟩ := arena
  induction blocks generalizing fuel heap with
  | nil =>
    obtain ⟨fuel, rfl⟩ := Nat.exists_eq_succ_of_ne_zero (Nat.ne_of_gt hfuel)
    exact ⟨heap, .pure _ heap, rfl, h⟩
  | cons block older ih =>
    obtain ⟨fuel, rfl⟩ := Nat.exists_eq_succ_of_ne_zero (Nat.ne_of_gt (Nat.zero_lt_of_lt hfuel))
    obtain ⟨heap₁, hfree, hcells, hrep⟩ := blockFree_returns h rfl handle hbackend
    obtain ⟨heap₂, hreturns, hcells', hrep'⟩ := ih hrep hbackend (Nat.lt_of_succ_lt_succ hfuel)
    exact ⟨heap₂, (returns_loadNext h (List.suffix_refl _)).bind (hfree.bind hreturns),
      hcells'.trans hcells, hrep'⟩

theorem deinit_returns (h : Represents platform heap arena) (hfuel : arena.blocks.length < fuel) :
    ∃ heap', Returns (deinit fuel (handleOf arena)) heap handleInit heap' ∧
      heap'.cells = heap.cells ∧ heap'.regions = [] := by
  obtain ⟨heap', hreturns, hcells, hrep⟩ := deinitLoop_returns h (handleOf arena) rfl hfuel
  exact ⟨heap', hreturns.bind (.pure _ heap'), hcells, hrep.regions⟩

/-! ## Rewinding -/

theorem hasBlockLoop_returns (h : Represents platform heap arena) (target : ℕ)
    (hsuffix : rest <:+ arena.blocks) (hfuel : rest.length < fuel) :
    Returns (hasBlockLoop target fuel (rest.head?.map Block.address)) heap
      (rest.any fun block => block.address == target) heap := by
  induction rest generalizing fuel with
  | nil =>
    obtain ⟨fuel, rfl⟩ := Nat.exists_eq_succ_of_ne_zero (Nat.ne_of_gt hfuel)
    exact .pure _ heap
  | cons block rest ih =>
    obtain ⟨fuel, rfl⟩ := Nat.exists_eq_succ_of_ne_zero (Nat.ne_of_gt (Nat.zero_lt_of_lt hfuel))
    have hrest := ih (suffix_of_cons hsuffix) (Nat.lt_of_succ_lt_succ hfuel)
    change Returns (if block.address = target then pure true else _) heap _ heap
    rw [List.any_cons]
    by_cases hhere : block.address = target
    · rw [if_pos hhere, beq_iff_eq.2 hhere, Bool.true_or]
      exact .pure true heap
    · rw [if_neg hhere, beq_false_of_ne hhere, Bool.false_or]
      exact (returns_loadNext h hsuffix).bind hrest

theorem rewindLoop_returns (h : Represents platform heap arena) (target : ℕ)
    (hfuel : arena.blocks.length < fuel) :
    ∃ heap', Returns (rewindLoop target fuel (handleOf arena)) heap
        (handleOf { arena with
          blocks := arena.blocks.dropWhile fun block => block.address != target }) heap' ∧
      heap'.cells = heap.cells ∧
      Represents platform heap' { arena with
        blocks := arena.blocks.dropWhile fun block => block.address != target } := by
  obtain ⟨blocks, backend, blockSize, reserveSize, commitSize⟩ := arena
  induction blocks generalizing fuel heap with
  | nil =>
    obtain ⟨fuel, rfl⟩ := Nat.exists_eq_succ_of_ne_zero (Nat.ne_of_gt hfuel)
    exact ⟨heap, .pure _ heap, rfl, h⟩
  | cons block older ih =>
    obtain ⟨fuel, rfl⟩ := Nat.exists_eq_succ_of_ne_zero (Nat.ne_of_gt (Nat.zero_lt_of_lt hfuel))
    by_cases hhere : block.address = target
    · rw [List.dropWhile_cons_of_neg (by simp [hhere])]
      refine ⟨heap, ?_, rfl, h⟩
      change Returns (if block.address = target then pure _ else _) heap _ heap
      rw [if_pos hhere]
      exact .pure _ heap
    · rw [List.dropWhile_cons_of_pos (by simp [hhere])]
      obtain ⟨heap₁, hfree, hcells, hrep⟩ := blockFree_returns h rfl
        { handleOf ⟨block :: older, backend, blockSize, reserveSize, commitSize⟩ with
          blocks := older.head?.map Block.address } rfl
      obtain ⟨heap₂, hreturns, hcells', hrep'⟩ := ih hrep (Nat.lt_of_succ_lt_succ hfuel)
      refine ⟨heap₂, ?_, hcells'.trans hcells, hrep'⟩
      change Returns (if block.address = target then pure _ else _) heap _ heap₂
      rw [if_neg hhere]
      exact (returns_loadNext h (List.suffix_refl _)).bind (hfree.bind hreturns)

theorem rewind_returns (h : Represents platform heap arena) (htarget : Target platform) (m : Mark)
    (hfuel : arena.blocks.length < fuel) :
    ∃ heap', Returns (rewind fuel (handleOf arena) m) heap (handleOf (Arena.rewind arena m)) heap' ∧
      OnlyHeaders (arena.blocks.map Block.address) heap heap' ∧
      Represents platform heap' (Arena.rewind arena m) := by
  unfold rewind Arena.rewind
  cases hm : m.block with
  | none =>
    obtain ⟨heap', hreturns, honly, hrep⟩ := reset_returns h htarget hfuel
    have hhandle : handleOf arena = handleOf (Arena.reset arena) := by
      simp [handleOf, Arena.reset, clearUsed, Function.comp_def]
    refine ⟨heap', hreturns.bind ?_, honly, hrep⟩
    rw [hhandle]
    exact .pure _ heap'
  | some target =>
    have hfound := hasBlockLoop_returns h target (List.suffix_refl _) hfuel
    dsimp only
    unfold hasBlock
    cases hany : arena.blocks.any fun block => block.address == target with
    | false =>
      rw [hany] at hfound
      rw [if_pos rfl]
      exact ⟨heap, hfound.bind (.pure _ heap), .refl _ _, h⟩
    | true =>
      rw [hany] at hfound
      rw [if_neg (by simp)]
      obtain ⟨heap₁, hloop, hcells, hrep⟩ := rewindLoop_returns h target hfuel
      have hsame : OnlyHeaders (arena.blocks.map Block.address) heap heap₁ :=
        fun a _ => congrFun hcells a
      cases hdrop : arena.blocks.dropWhile fun block => block.address != target with
      | nil =>
        obtain ⟨block, hblock, htarget'⟩ := List.any_eq_true.1 hany
        have hall := List.dropWhile_eq_nil_iff.1 hdrop block hblock
        simp [beq_iff_eq.1 htarget'] at hall
      | cons block older =>
        rw [hdrop] at hloop hrep
        have hmem : block.address ∈ arena.blocks.map Block.address :=
          List.mem_map_of_mem ((List.dropWhile_sublist _).mem (hdrop ▸ List.mem_cons_self))
        dsimp only
        by_cases hused : m.used > block.used
        · simp only [if_pos hused]
          refine ⟨heap₁, hfound.bind (hloop.bind ((hrep.returns_used List.mem_cons_self).bind ?_)),
            hsame, hrep⟩
          rw [if_pos hused]
          exact .pure _ heap₁
        · simp only [if_neg hused]
          obtain ⟨heap₂, hstore, honly, hrep'⟩ :=
            hrep.lower [] htarget rfl (Nat.not_lt.1 hused)
          refine ⟨heap₂, hfound.bind (hloop.bind ((hrep.returns_used List.mem_cons_self).bind ?_)),
            hsame.trans (honly.mono (by simpa using hmem)), hrep'⟩
          rw [if_neg hused]
          exact hstore.bind (.pure _ heap₂)

end Walk

/-! ## Loops that may take more steps -/

theorem resetLoop_settles (block : Option ℕ) : Settles fun fuel => resetLoop fuel block := by
  refine settles_of_rounds (fun _ => rfl) (fun fuel ih block h a h' hreturns => ?_) block
  cases block with
  | none => exact hreturns
  | some block =>
    obtain ⟨_, _, hstore, hrest⟩ := hreturns.of_bind
    obtain ⟨next, _, hload, hrest⟩ := hrest.of_bind
    exact hstore.bind (hload.bind (ih next _ _ _ hrest))

theorem deinitLoop_settles (arena : Handle) (block : Option ℕ) :
    Settles fun fuel => deinitLoop arena fuel block := by
  refine settles_of_rounds (fun _ => rfl) (fun fuel ih block h a h' hreturns => ?_) block
  cases block with
  | none => exact hreturns
  | some block =>
    obtain ⟨next, _, hload, hrest⟩ := hreturns.of_bind
    obtain ⟨_, _, hfree, hrest⟩ := hrest.of_bind
    exact hload.bind (hfree.bind (ih next _ _ _ hrest))

theorem hasBlockLoop_settles (target : ℕ) (block : Option ℕ) :
    Settles fun fuel => hasBlockLoop target fuel block := by
  refine settles_of_rounds (fun _ => rfl) (fun fuel ih block h a h' hreturns => ?_) block
  cases block with
  | none => exact hreturns
  | some block =>
    change Returns (if block = target then pure true else _) h a h' at hreturns
    change Returns (if block = target then pure true else _) h a h'
    by_cases hhere : block = target
    · rwa [if_pos hhere] at hreturns ⊢
    · rw [if_neg hhere] at hreturns ⊢
      obtain ⟨next, _, hload, hrest⟩ := hreturns.of_bind
      exact hload.bind (ih next _ _ _ hrest)

theorem rewindLoop_settles (target : ℕ) (arena : Handle) :
    Settles fun fuel => rewindLoop target fuel arena := by
  refine settles_of_rounds (fun _ => rfl) (fun fuel ih arena h a h' hreturns => ?_) arena
  obtain ⟨blocks, backend, blockSize, reserveSize, commitSize⟩ := arena
  cases blocks with
  | none => exact hreturns
  | some block =>
    change Returns (if block = target then pure _ else _) h a h' at hreturns
    change Returns (if block = target then pure _ else _) h a h'
    by_cases hhere : block = target
    · rwa [if_pos hhere] at hreturns ⊢
    · rw [if_neg hhere] at hreturns ⊢
      obtain ⟨next, _, hload, hrest⟩ := hreturns.of_bind
      obtain ⟨_, _, hfree, hrest⟩ := hrest.of_bind
      exact hload.bind (hfree.bind (ih _ _ _ _ hrest))

theorem rewind_settles (arena : Handle) (m : Mark) : Settles fun fuel => rewind fuel arena m := by
  unfold rewind
  cases m.block with
  | none => exact (resetLoop_settles _).bind fun _ => settles_const _
  | some target =>
    refine (hasBlockLoop_settles _ _).bind fun found => ?_
    cases found with
    | false => exact settles_const _
    | true => exact (rewindLoop_settles _ _).bind fun _ => settles_const _

theorem deinit_settles (arena : Handle) : Settles fun fuel => deinit fuel arena :=
  (deinitLoop_settles arena arena.blocks).bind fun _ => settles_const _

end Liblor.Arena.Pointers
