import Liblor.ArenaHeaders

/-!
# The pointer functions return what the list functions do

Each function on the memory of an arena returns, and the memory then represents the arena that the
function of the same name on the list of blocks gives. Beside the headers nothing changes.
-/

namespace Liblor.Arena.Pointers

open BumpStack RegionHeap

variable {platform : Platform} {os : Os} {heap : Heap} {arena : LorArena} {block : Block}
  {older : List Block} {α β : Type}

/-! ## The newest block -/

theorem returns_commitRaw (os : Os) {p n : ℕ} {r : Region} {regions : List Region}
    (hregions : heap.regions = r :: regions) (hr : r.extends p n = true)
    (hothers : ∀ r' ∈ regions, r'.extends p n = false) :
    Returns (commitRaw os p n) heap (os.commitRaw p n)
      { heap with regions :=
        (if os.commitRaw p n then { r with opened := max r.opened (p + n - r.base) } else r) ::
          regions } := by
  unfold commitRaw
  cases hraw : os.commitRaw p n with
  | false =>
    rw [if_neg Bool.false_ne_true, if_neg Bool.false_ne_true, ← hregions]
    exact .pure false heap
  | true =>
    rw [if_pos rfl, if_pos rfl]
    exact .bind (returns_openUp hregions hr hothers) (.pure true _)

/-- The regions of the older blocks are apart from what the newest one commits. -/
theorem older_not_extends (h : Represents platform heap arena)
    (hblocks : arena.blocks = block :: older) {p n : ℕ} (hpos : 0 < n) (hp : block.address ≤ p)
    (hend : p + n ≤ block.address + block.allocationSize) :
    ∀ r ∈ older.map (regionOf arena.backend), r.extends p n = false := by
  intro r hr
  obtain ⟨b, hb, rfl⟩ := List.mem_map.1 hr
  have hapart := (List.pairwise_cons.1 (hblocks ▸ h.chain.apart)).1 b hb
  unfold RegionsApart at hapart
  apply decide_eq_false
  rintro ⟨hbase, -, hsize⟩
  change b.address ≤ p at hbase
  change p + n ≤ b.address + b.allocationSize at hsize
  omega

/-- What a call that works on the newest block does. `result` is what the function on the list of
blocks gives; where it gives nothing the memory stays as it is. -/
def WorksOn (platform : Platform) (heap : Heap) (arena : LorArena) (block : Block)
    (older : List Block) (m : Action α) (value : α) (result : Option Block) : Prop :=
  ∃ heap', Returns m heap value heap' ∧ OnlyHeaders [block.address] heap heap' ∧
    (result = none → heap' = heap) ∧
    Represents platform heap' { arena with blocks := result.getD block :: older }

theorem WorksOn.bind {m : Action β} {f : β → Action α} {b : β} {value : α} {result : Option Block}
    (hm : Returns m heap b heap) (hf : WorksOn platform heap arena block older (f b) value result) :
    WorksOn platform heap arena block older (m >>= f) value result := by
  obtain ⟨heap', hreturns, hrest⟩ := hf
  exact ⟨heap', hm.bind hreturns, hrest⟩

theorem Represents.stays (h : Represents platform heap arena)
    (hblocks : arena.blocks = block :: older) (value : α) :
    WorksOn platform heap arena block older (pure value) value none := by
  refine ⟨heap, .pure value heap, .refl _ _, fun _ => rfl, ?_⟩
  rwa [Option.getD_none, ← hblocks]

theorem Represents.same (h : Represents platform heap arena)
    (hblocks : arena.blocks = block :: older) (value : α) :
    WorksOn platform heap arena block older (pure value) value (some block) := by
  obtain ⟨heap', hreturns, honly, -, hrep⟩ := h.stays hblocks value
  exact ⟨heap', hreturns, honly, by simp, hrep⟩

theorem Represents.commit (h : Represents platform heap arena) (htarget : Target platform)
    (hblocks : arena.blocks = block :: older) (hvirtual : arena.backend = .virtual) {new : ℕ}
    (hmore : block.committed < new) (hle : new ≤ block.allocationSize) :
    WorksOn platform heap arena block older
      (do
        let ok ← commitRaw os (block.address + block.committed) (new - block.committed)
        if ok = false then return false
        else
          storeWord (committedField block.address) new
          return true)
      (os.commitRaw (block.address + block.committed) (new - block.committed))
      (if os.commitRaw (block.address + block.committed) (new - block.committed) then
        some { block with committed := new } else none) := by
  have hblock : block ∈ arena.blocks := hblocks ▸ List.mem_cons_self
  have hok := h.chain.blocks block hblock
  have hlt := fields_lt hok
  have hregions : heap.regions = ⟨block.address, block.allocationSize, block.committed⟩ ::
      older.map (regionOf arena.backend) := by
    rw [h.regions, hblocks, List.map_cons, regionOf, opened, if_pos hvirtual]
  have hextends : (Region.mk block.address block.allocationSize block.committed).extends
      (block.address + block.committed) (new - block.committed) = true := by
    apply decide_eq_true
    dsimp only
    omega
  have hcommit := returns_commitRaw os hregions hextends
    (older_not_extends h hblocks (by omega) (Nat.le_add_right _ _) (by omega))
  cases hraw : os.commitRaw (block.address + block.committed) (new - block.committed) with
  | false =>
    rw [hraw, if_neg Bool.false_ne_true, ← hregions] at hcommit
    simp only [if_neg Bool.false_ne_true]
    exact .bind hcommit (h.stays hblocks false)
  | true =>
    rw [hraw, if_pos rfl] at hcommit
    have hopened : max block.committed (block.address + block.committed + (new - block.committed) -
        block.address) = new := by omega
    rw [hopened] at hcommit
    have hreach := h.reach block hblock
    unfold opened at hreach
    rw [if_pos hvirtual] at hreach
    refine ⟨_, hcommit.bind (.bind (returns_storeWord ?_) (.pure true _)),
      fun a ha => onlyHeaders_storeWord 2 (by decide) heap block.address new a ha, by simp, ?_⟩
    · refine ⟨_, List.mem_cons_self, Nat.le_add_right _ _, ?_⟩
      unfold headerSize at hreach
      unfold committedField
      dsimp only
      omega
    · rw [if_pos rfl]
      refine h.newest htarget hblocks rfl ⟨hok.region, hok.positive, hok.data, hok.data_end,
        hok.used_le, hle, fun hv hu => ?_⟩ rfl ?_ ?_ ?_
        fun a ha => onlyHeaders_storeWord 2 (by decide) heap block.address new a ha
      · exact (hok.used_committed hv hu).trans (Nat.add_le_add_left hmore.le _)
      · unfold opened
        rw [if_pos hvirtual, if_pos hvirtual]
        exact hmore.le
      · exact HeaderAt.setCommitted ((hblocks ▸ h.headers).1.congr fun _ _ => rfl) (by omega)
      · rw [List.map_cons, regionOf, opened, if_pos hvirtual]
        rfl

theorem blockEnsureCommitted_returns (os : Os) (h : Represents platform heap arena)
    (htarget : Target platform) (hblocks : arena.blocks = block :: older)
    (hvirtual : arena.backend = .virtual) (neededUsed commitSize : ℕ) :
    WorksOn platform heap arena block older
      (blockEnsureCommitted platform os block.address neededUsed commitSize)
      (Arena.blockEnsureCommitted platform os block neededUsed commitSize).isSome
      (Arena.blockEnsureCommitted platform os block neededUsed commitSize) := by
  have hblock : block ∈ arena.blocks := hblocks ▸ List.mem_cons_self
  have hok := h.chain.blocks block hblock
  have hdata : blockData platform block.address = some (dataStart platform block) := hok.data
  unfold blockEnsureCommitted Arena.blockEnsureCommitted
  simp only [hdata, hok.data]
  refine .bind (h.returns_capacity hblock) ?_
  by_cases hroom : neededUsed > block.capacity
  · simp only [if_pos hroom]
    exact h.stays hblocks false
  simp only [if_neg hroom]
  by_cases hover : addOverflowsSize (dataStart platform block - block.address) neededUsed = true
  · simp only [if_pos hover]
    exact h.stays hblocks false
  simp only [if_neg hover]
  refine .bind (h.returns_committed hblock) ?_
  generalize hneeded : dataStart platform block - block.address + neededUsed = needed
  by_cases henough : needed ≤ block.committed
  · simp only [if_pos henough]
    exact h.same hblocks true
  simp only [if_neg henough]
  by_cases hround : commitSize ≠ 0 ∧ addOverflowsSize needed (commitSize - 1) = true
  · simp only [if_pos hround]
    exact h.stays hblocks false
  simp only [if_neg hround]
  refine .bind (h.returns_allocationSize hblock) ?_
  have hend := hok.data_end
  have hstart := address_le_dataStart platform block
  generalize hrounded : (if commitSize ≠ 0 then alignUp needed commitSize else needed) = rounded
  have hle : needed ≤ rounded := by
    have hup := le_alignUp needed commitSize
    rw [← hrounded]
    split_ifs <;> omega
  generalize hnew : (if rounded > block.allocationSize then block.allocationSize else rounded) = new
  have hnew' : block.committed < new ∧ new ≤ block.allocationSize := by
    rw [← hnew]
    split_ifs <;> omega
  have hvalue : ∀ ok : Bool,
      (if ok then some { block with committed := new } else none).isSome = ok := by
    intro ok
    cases ok <;> rfl
  rw [hvalue]
  exact h.commit htarget hblocks hvirtual hnew'.1 hnew'.2

theorem Represents.fill (h : Represents platform heap arena) (htarget : Target platform)
    (hblocks : arena.blocks = block :: older) {newUsed : ℕ} (hle : newUsed ≤ block.capacity)
    (hcommitted : arena.backend = .virtual →
      dataStart platform block + newUsed ≤ block.address + block.committed) (value : α) :
    WorksOn platform heap arena block older
      (do
        storeWord (usedField block.address) newUsed
        return value)
      value (some { block with used := newUsed }) := by
  have hblock : block ∈ arena.blocks := hblocks ▸ List.mem_cons_self
  have hok := h.chain.blocks block hblock
  have hlt := fields_lt hok
  have honly := onlyHeaders_storeWord 3 (by decide) heap block.address newUsed
  refine ⟨_, .bind (returns_storeWord (h.accessible hblock (by decide))) (.pure value _), honly,
    by simp, ?_⟩
  refine h.newest htarget hblocks rfl ⟨hok.region, hok.positive, hok.data, hok.data_end, hle,
    hok.committed_le, fun hv _ => hcommitted hv⟩ rfl (Nat.le_refl _) ?_ ?_ honly
  · exact HeaderAt.setUsed (hblocks ▸ h.headers).1 (by omega)
  · change heap.regions = _
    rw [h.regions, hblocks]
    rfl

theorem blockAlloc_returns (os : Os) (h : Represents platform heap arena)
    (htarget : Target platform) (hblocks : arena.blocks = block :: older) (size alignment : ℕ) :
    WorksOn platform heap arena block older
      (blockAlloc platform os (handleOf arena) block.address size alignment)
      ((Arena.blockAlloc platform os arena block size alignment).map Prod.fst)
      ((Arena.blockAlloc platform os arena block size alignment).map Prod.snd) := by
  have hblock : block ∈ arena.blocks := hblocks ▸ List.mem_cons_self
  have hok := h.chain.blocks block hblock
  have hdata : blockData platform block.address = some (dataStart platform block) := hok.data
  unfold blockAlloc Arena.blockAlloc
  simp only [hdata, hok.data]
  refine .bind (h.returns_used hblock) (.bind (h.returns_capacity hblock) ?_)
  rw [if_neg (Nat.not_lt.2 hok.used_le), if_neg (Nat.not_lt.2 hok.used_le)]
  cases hforward : alignForward (dataStart platform block + block.used) alignment with
  | none => exact h.stays hblocks none
  | some aligned =>
    dsimp only
    generalize hpadding : aligned - (dataStart platform block + block.used) = padding
    by_cases hpad : padding > block.capacity - block.used
    · simp only [if_pos hpad]
      exact h.stays hblocks none
    simp only [if_neg hpad]
    by_cases hsize : size > block.capacity - block.used - padding
    · simp only [if_pos hsize]
      exact h.stays hblocks none
    simp only [if_neg hsize]
    generalize hnew : block.used + padding + size = newUsed
    change WorksOn _ _ _ _ _ ((if arena.backend = .virtual then
      blockEnsureCommitted platform os block.address newUsed arena.commitSize else pure true) >>= _)
        _ _
    have hcapacity : newUsed ≤ block.capacity := by
      have hused := hok.used_le
      omega
    by_cases hvirtual : arena.backend = .virtual
    · simp only [if_pos hvirtual]
      obtain ⟨heap₁, hensure, honly, hsame, hrep⟩ :=
        blockEnsureCommitted_returns os h htarget hblocks hvirtual newUsed arena.commitSize
      cases hresult : Arena.blockEnsureCommitted platform os block newUsed arena.commitSize with
      | none =>
        rw [hresult] at hensure hrep
        exact ⟨heap₁, hensure.bind (.pure none _), honly, fun _ => hsame hresult, hrep⟩
      | some block₁ =>
        obtain ⟨committed, rfl, -, -, henough, -⟩ := blockEnsureCommitted_spec hok hresult
        rw [hresult] at hensure hrep
        obtain ⟨heap₂, hfill, honly', -, hrep'⟩ :=
          hrep.fill htarget rfl hcapacity (fun _ => henough) (some aligned)
        exact ⟨heap₂, hensure.bind hfill, honly.trans honly', by simp, hrep'⟩
    · simp only [if_neg hvirtual]
      exact .bind (.pure true heap)
        (h.fill htarget hblocks hcapacity (fun hv => absurd hv hvirtual) (some aligned))

/-! ## A new block -/

theorem writeHeader_returns (heap : Heap) {p c d n : ℕ}
    (haccess : ∀ k, 8 * k + 8 ≤ headerSize → heap.Accessible (p + 8 * k) 8)
    (hcapacity : c < 2 ^ 64) (hcommitted : d < 2 ^ 64) (hsize : n < 2 ^ 64) :
    ∃ heap', Returns (writeHeader p c d n) heap () heap' ∧ heap'.regions = heap.regions ∧
      HeaderAt heap' ⟨p, c, d, 0, n⟩ none ∧ OnlyHeaders [p] heap heap' := by
  have honly := fun k hk heap value => onlyHeaders_storeWord k hk heap p value
  refine ⟨_, .bind (returns_storeWord (haccess 0 (by decide)))
    (.bind (returns_storeWord (haccess 1 (by decide)))
    (.bind (returns_storeWord (haccess 2 (by decide)))
    (.bind (returns_storeWord (haccess 3 (by decide)))
      (returns_storeWord (haccess 4 (by decide)))))), rfl, ?_, ?_⟩
  · exact ((((wordsAt_range heap p 5).set (k := 0) (by decide)).set (k := 1) hcapacity).set (k := 2)
      hcommitted |>.set (k := 3) (by decide)).set (k := 4) hsize
  · exact (honly 0 (by decide) _ _).trans ((honly 1 (by decide) _ _).trans
      ((honly 2 (by decide) _ _).trans ((honly 3 (by decide) _ _).trans (honly 4 (by decide) _ _))))

/-- A block that the system has given room for, before it is linked to the others. -/
structure Created (platform : Platform) (backend : Backend) (heap : Heap) (block : Block)
    (heap' : Heap) : Prop where
  regions : heap'.regions = regionOf backend block :: heap.regions
  header : HeaderAt heap' block none
  only : OnlyHeaders [block.address] heap heap'
  reach : headerSize ≤ opened backend block

/-- A call that creates a block or leaves the memory as it is. -/
def Creates (platform : Platform) (backend : Backend) (heap : Heap) (m : Action (Option ℕ)) :
    Option Block → Prop
  | none => Returns m heap none heap
  | some block => ∃ heap', Returns m heap (some block.address) heap' ∧
      Created platform backend heap block heap'

theorem headerSize_le_slack (htarget : Target platform) :
    headerSize ≤ blockHeaderSlack platform := by
  have hheader := htarget.header
  obtain ⟨k, hk⟩ := platform.maxAlignment_pow
  have hpos : 0 < 2 ^ k := Nat.two_pow_pos k
  unfold blockHeaderSlack
  omega

theorem heapBlockNew_returns (htarget : Target platform) (hlegal : os.Legal arena)
    {backend : Backend} (hbackend : backend ≠ .virtual) (heap : Heap) (capacity : ℕ) :
    Creates platform backend heap (heapBlockNew platform os capacity)
      (Arena.heapBlockNew platform os capacity) := by
  have hslack := headerSize_le_slack htarget
  unfold heapBlockNew Arena.heapBlockNew
  dsimp only
  by_cases hover : addOverflowsSize capacity (blockHeaderSlack platform) = true
  · simp only [if_pos hover]
    exact .pure none heap
  simp only [if_neg hover]
  cases hmalloc : os.malloc (capacity + blockHeaderSlack platform) with
  | none => exact .pure none heap
  | some address =>
    dsimp only
    have hspace := (hlegal _ _ (Or.inl hmalloc)).1
    unfold InSpace uintptrMax at hspace
    obtain ⟨heap', hwrite, hregions, hheader, honly⟩ := writeHeader_returns
      { heap with regions := ⟨address, capacity + blockHeaderSlack platform,
        capacity + blockHeaderSlack platform⟩ :: heap.regions }
      (p := address) (c := capacity) (d := capacity) (n := capacity + blockHeaderSlack platform)
      (fun k hk => ⟨_, List.mem_cons_self, Nat.le_add_right _ _, by dsimp only; omega⟩)
      (by omega) (by omega) (by omega)
    refine ⟨heap', .bind (returns_hold _ _) (.bind hwrite (.pure _ _)), ?_, hheader, honly, ?_⟩
    · rw [hregions, regionOf, opened, if_neg hbackend]
    · rw [opened, if_neg hbackend]
      dsimp only
      omega

theorem headerSize_le_virtualCommit (htarget : Target platform)
    {reserveSize commitSize minReserve : ℕ}
    (hpaged : platform.pageSize ∣ commitSize) (hle : commitSize ≤ sizeMax)
    (hreserve : blockHeaderSlack platform ≤ reserveSize) :
    headerSize ≤ virtualCommit platform reserveSize commitSize minReserve := by
  have hslack := headerSize_le_slack htarget
  have hsmall := htarget.small
  obtain ⟨k, hk⟩ := htarget.page
  have hpos : 0 < platform.pageSize := hk ▸ Nat.two_pow_pos k
  have hpage := platform.pageSize_le
  have halign : ∀ c, c + platform.pageSize ≤ sizeMax + 1 → c ≤ pageAlign platform c := by
    intro c hc
    unfold pageAlign addOverflowsSize
    rw [if_neg (Nat.ne_of_gt hpos), if_neg (by rw [decide_eq_true_iff]; omega)]
    exact le_alignUp _ _
  have hcommit : commitSize + platform.pageSize ≤ sizeMax + 1 := by
    have hdvd : platform.pageSize ∣ sizeMax + 1 := by
      have hlt : k ≤ 64 := by
        by_contra hgt
        have hpow : 2 ^ 64 ≤ 2 ^ k := Nat.pow_le_pow_right (by decide) (by omega)
        rw [← hk] at hpow
        unfold sizeMax at hpage
        omega
      rw [hk]
      exact pow_dvd_pow 2 hlt
    obtain ⟨m, hm⟩ := hpaged
    obtain ⟨n, hn⟩ := hdvd
    have hlt : m < n := by
      by_contra hge
      have hmul := Nat.mul_le_mul_left platform.pageSize (Nat.not_lt.1 hge)
      omega
    have hmul := Nat.mul_le_mul_left platform.pageSize hlt
    rw [Nat.mul_succ] at hmul
    omega
  have hslack' : blockHeaderSlack platform < platform.dataOffset + platform.maxAlignment := by
    obtain ⟨j, hj⟩ := platform.maxAlignment_pow
    have hmax : 0 < 2 ^ j := Nat.two_pow_pos j
    unfold blockHeaderSlack
    omega
  unfold virtualCommit
  dsimp only
  generalize hc : (if commitSize < blockHeaderSlack platform then blockHeaderSlack platform
    else commitSize) = c
  have hc' : blockHeaderSlack platform ≤ c ∧ c + platform.pageSize ≤ sizeMax + 1 := by
    rw [← hc]
    split_ifs <;> omega
  generalize hd : (if c < minReserve ∧ minReserve < defaultCommitSize then minReserve else c) = d
  have hd' : blockHeaderSlack platform ≤ d ∧ d + platform.pageSize ≤ sizeMax + 1 := by
    rw [← hd]
    split_ifs <;> omega
  have hup := halign d hd'.2
  split_ifs <;> omega

theorem virtualBlockNew_returns (h : Represents platform heap arena) (htarget : Target platform)
    (hlegal : os.Legal arena) (hvirtual : arena.backend = .virtual) (reserveSize : ℕ)
    {minCapacity : ℕ} (hpos : 0 < minCapacity) :
    Creates platform arena.backend heap
      (virtualBlockNew platform os reserveSize arena.commitSize minCapacity)
      (Arena.virtualBlockNew platform os reserveSize arena.commitSize minCapacity) := by
  have hslack := headerSize_le_slack htarget
  obtain ⟨hpaged, hfits⟩ := h.paged hvirtual
  unfold virtualBlockNew Arena.virtualBlockNew
  dsimp only
  by_cases hover : addOverflowsSize minCapacity (blockHeaderSlack platform) = true
  · simp only [if_pos hover]
    exact .pure none heap
  simp only [if_neg hover]
  generalize hmin : minCapacity + blockHeaderSlack platform = minReserve
  generalize hreserve : virtualReserve platform reserveSize minReserve = reserve
  by_cases hzero : reserve = 0
  · simp only [if_pos hzero]
    exact .pure none heap
  simp only [if_neg hzero]
  have hle : minReserve ≤ reserve := hreserve ▸ le_virtualReserve (hreserve ▸ hzero)
  generalize hcommit : virtualCommit platform reserve arena.commitSize minReserve = commit
  have hheader : headerSize ≤ commit :=
    hcommit ▸ headerSize_le_virtualCommit htarget hpaged hfits (by omega)
  have hcommit' : commit ≤ reserve := hcommit ▸ virtualCommit_le
  have hne : commit ≠ 0 := by
    unfold headerSize at hheader
    omega
  cases hraw : os.reserveRaw reserve with
  | none => exact .pure none heap
  | some address =>
    dsimp only
    obtain ⟨hspace, hapart⟩ := hlegal _ _ (Or.inr hraw)
    have hregions :
        ({ heap with regions := ⟨address, reserve, 0⟩ :: heap.regions } : Heap).regions =
        ⟨address, reserve, 0⟩ :: heap.regions := rfl
    have hextends : (Region.mk address reserve 0).extends address commit = true := by
      apply decide_eq_true
      dsimp only
      omega
    have hothers : ∀ r ∈ heap.regions, r.extends address commit = false := by
      intro r hr
      rw [h.regions] at hr
      obtain ⟨b, hb, rfl⟩ := List.mem_map.1 hr
      have hregion := hapart b hb
      apply decide_eq_false
      rintro ⟨hbase, -, hsize⟩
      change b.address ≤ address at hbase
      change address + commit ≤ b.address + b.allocationSize at hsize
      omega
    have hcommitted := returns_commitRaw os hregions hextends hothers
    rw [if_pos hne]
    cases hok : os.commitRaw address commit with
    | false =>
      rw [if_pos ⟨hne, rfl⟩]
      rw [hok, if_neg Bool.false_ne_true] at hcommitted
      exact .bind (returns_hold _ _) (.bind hcommitted
        (.bind (returns_release rfl (by simp)) (.pure none _)))
    | true =>
      rw [if_neg (by simp)]
      have hopened : max 0 (address + commit - address) = commit := by omega
      rw [hok, if_pos rfl, hopened] at hcommitted
      have hend : 0 < address ∧ address + reserve ≤ 2 ^ 64 := hspace
      obtain ⟨heap₁, hwrite, hregions₁, hheader₁, honly⟩ := writeHeader_returns
        { heap with regions := ⟨address, reserve, commit⟩ :: heap.regions }
        (p := address) (c := 0) (d := commit) (n := reserve)
        (fun k hk => ⟨_, List.mem_cons_self, Nat.le_add_right _ _, by dsimp only; omega⟩)
        (by decide) (by omega) (by omega)
      have hdata : Arena.blockData platform ⟨address, 0, commit, 0, reserve⟩ =
          some (dataStart platform ⟨address, 0, commit, 0, reserve⟩) :=
        blockData_of_region (Nat.lt_of_lt_of_le (by omega) hle) hspace
      have hdata' : blockData platform address =
          some (dataStart platform ⟨address, 0, commit, 0, reserve⟩) := hdata
      have haccess : heap₁.Accessible (capacityField address) 8 := by
        refine ⟨⟨address, reserve, commit⟩, ?_, Nat.le_add_right _ _, ?_⟩
        · rw [hregions₁]
          exact List.mem_cons_self
        · unfold headerSize at hheader
          unfold capacityField
          dsimp only
          omega
      rw [hdata]
      refine ⟨heap₁.storeWord (capacityField address)
          (reserve - (dataStart platform ⟨address, 0, commit, 0, reserve⟩ - address)),
        .bind (returns_hold _ _) (.bind hcommitted (.bind hwrite ?_)), ?_, ?_, ?_, ?_⟩
      · rw [hdata']
        exact .bind (returns_storeWord haccess) (.pure _ _)
      · rw [regions_storeWord, hregions₁, regionOf, opened, if_pos hvirtual]
      · exact hheader₁.setCapacity (by omega)
      · exact honly.trans (onlyHeaders_storeWord 1 (by decide) heap₁ _ _)
      · rw [opened, if_pos hvirtual]
        exact hheader

theorem blockNew_returns {os : Os} (h : Represents platform heap arena) (htarget : Target platform)
    (hlegal : os.Legal arena) {minCapacity : ℕ} (hpos : 0 < minCapacity) :
    Creates platform arena.backend heap (blockNew platform os (handleOf arena) minCapacity)
      (Arena.blockNew platform os arena minCapacity) := by
  unfold blockNew Arena.blockNew
  change Creates platform arena.backend heap (if arena.backend = .virtual then
    virtualBlockNew platform os arena.reserveSize arena.commitSize minCapacity
    else if arena.blockSize < minCapacity then heapBlockNew platform os minCapacity
    else heapBlockNew platform os arena.blockSize) _
  by_cases hvirtual : arena.backend = .virtual
  · rw [if_pos hvirtual, if_pos hvirtual]
    exact virtualBlockNew_returns h htarget hlegal hvirtual _ hpos
  · rw [if_neg hvirtual, if_neg hvirtual]
    by_cases hsmall : arena.blockSize < minCapacity
    · rw [if_pos hsmall, if_pos hsmall]
      exact heapBlockNew_returns htarget hlegal hvirtual heap _
    · rw [if_neg hsmall, if_neg hsmall]
      exact heapBlockNew_returns htarget hlegal hvirtual heap _

/-! ## Allocation -/

theorem Represents.push (h : Represents platform heap arena) (htarget : Target platform)
    (hlegal : os.Legal arena) {minCapacity : ℕ} (hpos : 0 < minCapacity) {heap₁ : Heap}
    (hnew : Arena.blockNew platform os arena minCapacity = some block)
    (hcreated : Created platform arena.backend heap block heap₁) :
    ∃ heap₂, Returns (storeNext block.address (handleOf arena).blocks) heap₁ () heap₂ ∧
      OnlyHeaders [block.address] heap heap₂ ∧
      Represents platform heap₂ { arena with blocks := block :: arena.blocks } := by
  have hchain := (h.chain.sound.push hlegal hnew hpos).chain
  have hhead : ((arena.blocks.head?.map Block.address).getD 0) < 2 ^ 64 := by
    cases hblocks : arena.blocks with
    | nil => decide
    | cons b older => exact (fields_lt (h.chain.blocks b (hblocks ▸ List.mem_cons_self))).1
  have honly := hcreated.only.trans (onlyHeaders_storeWord 0 (by decide) heap₁ block.address
    ((arena.blocks.head?.map Block.address).getD 0))
  have haccess : heap₁.Accessible (nextField block.address) 8 := by
    refine ⟨regionOf arena.backend block, ?_, Nat.le_add_right _ _, ?_⟩
    · rw [hcreated.regions]
      exact List.mem_cons_self
    · have hreach := hcreated.reach
      unfold headerSize at hreach
      change block.address + 8 * 0 + 8 ≤ block.address + opened arena.backend block
      omega
  refine ⟨_, returns_storeWord haccess, honly, hchain, ?_, ⟨hcreated.header.setNext hhead, ?_⟩, ?_,
    h.paged⟩
  · exact hcreated.regions.trans (congrArg _ h.regions)
  · refine h.headers.congr fun b hb a ha => honly a fun c hc => ?_
    obtain rfl := List.mem_singleton.1 hc
    have hregion := (List.pairwise_cons.1 hchain.apart).1 b hb
    have hstart := headerSize_le_dataStart htarget b
    have hend := (h.chain.blocks b hb).data_end
    have hstart' := headerSize_le_dataStart htarget block
    have hend' := (hchain.blocks block List.mem_cons_self).data_end
    unfold OffHeader at ha ⊢
    unfold RegionsApart at hregion
    omega
  · intro b hb
    rcases List.mem_cons.1 hb with rfl | hb
    · exact hcreated.reach
    · exact h.reach b hb

/-- The call returns what the function on the list of blocks does. -/
def Simulates (platform : Platform) (heap : Heap) (m : Action (Option ℕ × Handle))
    (result : Option ℕ × LorArena) : Prop :=
  ∃ heap', Returns m heap (result.1, handleOf result.2) heap' ∧
    OnlyHeaders (result.2.blocks.map Block.address) heap heap' ∧ Represents platform heap' result.2

theorem Represents.refuses (h : Represents platform heap arena) :
    Simulates platform heap (pure (none, handleOf arena)) (none, arena) :=
  ⟨heap, .pure _ heap, .refl _ _, h⟩

theorem allocFresh_simulates (h : Represents platform heap arena) (htarget : Target platform)
    (hlegal : os.Legal arena) {size : ℕ} (hpos : 0 < size) (alignment : ℕ) :
    Simulates platform heap (allocFresh platform os (handleOf arena) size alignment)
      (Arena.allocFresh platform os arena size alignment) := by
  unfold allocFresh Arena.allocFresh
  by_cases hover : alignment > 1 ∧ addOverflowsSize size (alignment - 1) = true
  · rw [if_pos hover, if_pos hover]
    exact h.refuses
  rw [if_neg hover, if_neg hover]
  dsimp only
  generalize hmin : (if alignment > 1 then size + (alignment - 1) else size) = minCapacity
  have hmin' : 0 < minCapacity := by
    rw [← hmin]
    split_ifs <;> omega
  have hcreates := blockNew_returns h htarget hlegal hmin'
  cases hnew : Arena.blockNew platform os arena minCapacity with
  | none =>
    rw [hnew] at hcreates
    exact ⟨heap, hcreates.bind (.pure _ heap), .refl _ _, h⟩
  | some block =>
    rw [hnew] at hcreates
    obtain ⟨heap₁, hcreate, hcreated⟩ := hcreates
    obtain ⟨heap₂, hlink, honly, hrep⟩ := h.push htarget hlegal hmin' hnew hcreated
    obtain ⟨heap₃, halloc, honly', -, hrep'⟩ :=
      blockAlloc_returns os hrep htarget rfl size alignment
    have hsame : Arena.blockAlloc platform os { arena with blocks := block :: arena.blocks } block
        size alignment = Arena.blockAlloc platform os arena block size alignment := rfl
    rw [hsame] at halloc hrep'
    dsimp only
    cases hresult : Arena.blockAlloc platform os arena block size alignment with
    | none =>
      rw [hresult] at halloc hrep'
      refine ⟨heap₃, hcreate.bind (hlink.bind (halloc.bind (.pure _ _))), ?_, hrep'⟩
      exact (honly.trans honly').mono (by simp)
    | some result =>
      obtain ⟨p, block'⟩ := result
      obtain ⟨-, -, committed, rfl, -⟩ :=
        blockAlloc_spec (hrep.chain.blocks block List.mem_cons_self) hresult
      rw [hresult] at halloc hrep'
      refine ⟨heap₃, hcreate.bind (hlink.bind (halloc.bind (.pure _ _))), ?_, hrep'⟩
      exact (honly.trans honly').mono (by simp)

theorem allocReady_simulates (h : Represents platform heap arena) (htarget : Target platform)
    (hlegal : os.Legal arena) {size : ℕ} (hpos : 0 < size) (alignment : ℕ) :
    Simulates platform heap (allocReady platform os (handleOf arena) size alignment)
      (Arena.allocReady platform os arena size alignment) := by
  have hfresh := allocFresh_simulates h htarget hlegal hpos alignment
  have hhandle : (handleOf arena).blocks = arena.blocks.head?.map Block.address := rfl
  unfold allocReady Arena.allocReady
  rw [hhandle]
  cases hblocks : arena.blocks with
  | nil => exact hfresh
  | cons block older =>
    dsimp only [List.head?_cons, Option.map_some]
    obtain ⟨heap₁, halloc, honly, hsame, hrep⟩ :=
      blockAlloc_returns os h htarget hblocks size alignment
    cases hresult : Arena.blockAlloc platform os arena block size alignment with
    | none =>
      rw [hresult] at halloc hsame
      obtain ⟨heap₂, hreturns, hrest⟩ := hfresh
      rw [hsame rfl] at halloc
      exact ⟨heap₂, halloc.bind hreturns, hrest⟩
    | some result =>
      obtain ⟨p, block'⟩ := result
      obtain ⟨-, -, committed, rfl, -⟩ :=
        blockAlloc_spec (h.chain.blocks block (hblocks ▸ List.mem_cons_self)) hresult
      rw [hresult] at halloc hrep
      refine ⟨heap₁, halloc.bind ?_, honly.mono (by simp), hrep⟩
      have hhandle : handleOf arena = handleOf { arena with
          blocks := { block with
            committed := committed, used := p + size - dataStart platform block } :: older } := by
        simp only [handleOf, hblocks, List.head?_cons, Option.map_some]
      rw [← hhandle]
      exact .pure _ heap₁

theorem handleOf_eq_init : handleOf arena = handleInit ↔ arena = arenaInit := by
  obtain ⟨blocks, backend, blockSize, reserveSize, commitSize⟩ := arena
  simp [handleOf, handleInit, arenaInit]

theorem dvd_pageAlign (htarget : Target platform) {size : ℕ} (hne : pageAlign platform size ≠ 0) :
    platform.pageSize ∣ pageAlign platform size ∧ pageAlign platform size ≤ sizeMax := by
  have hpos : platform.pageSize ≠ 0 := by
    obtain ⟨k, hk⟩ := htarget.page
    rw [hk]
    exact Nat.ne_of_gt (Nat.two_pow_pos k)
  have hle := alignUp_le size platform.pageSize
  have hpage := platform.pageSize_le
  unfold pageAlign addOverflowsSize at hne ⊢
  rw [if_neg hpos] at hne ⊢
  split_ifs at hne ⊢ with hover
  · contradiction
  · rw [decide_eq_true_iff] at hover
    exact ⟨dvd_alignUp htarget.page, by omega⟩

theorem Represents.of_empty (h : Represents platform heap arena) (hempty : arena.blocks = [])
    {arena' : LorArena} (hempty' : arena'.blocks = [])
    (hpaged : arena'.backend = .virtual → platform.pageSize ∣ arena'.commitSize ∧
      arena'.commitSize ≤ sizeMax) : Represents platform heap arena' := by
  refine ⟨⟨?_, ?_⟩, ?_, ?_, ?_, hpaged⟩
  · simp [hempty']
  · simp [hempty']
  · rw [h.regions, hempty, hempty']
    rfl
  · rw [hempty']
    trivial
  · simp [hempty']

theorem initInternal_simulates (h : Represents platform heap arena) (htarget : Target platform)
    (config : Config) :
    initInternal platform (handleOf arena) config =
        ((Arena.initInternal platform arena config).1,
          handleOf (Arena.initInternal platform arena config).2) ∧
      Represents platform heap (Arena.initInternal platform arena config).2 := by
  unfold initInternal Arena.initInternal
  by_cases hinit : arena = arenaInit
  · subst arena
    rw [if_neg (not_not.2 rfl), if_neg (not_not.2 (handleOf_eq_init.2 rfl))]
    have hconfigured : configured config = handleOf (Arena.configured config) := rfl
    have hempty : (Arena.configured config).blocks = [] := rfl
    rw [hconfigured]
    generalize Arena.configured config = fresh at hempty ⊢
    dsimp only [handleOf]
    by_cases hbackend : fresh.backend ≠ .heap ∧ fresh.backend ≠ .virtual
    · rw [if_pos hbackend, if_pos hbackend]
      exact ⟨rfl, h⟩
    rw [if_neg hbackend, if_neg hbackend]
    by_cases hvirtual : fresh.backend = .virtual
    · rw [if_pos hvirtual, if_pos hvirtual]
      by_cases hzero : pageAlign platform fresh.reserveSize = 0 ∨
          pageAlign platform fresh.commitSize = 0
      · rw [if_pos hzero]
        exact ⟨if_pos hzero, h⟩
      · rw [if_neg hzero]
        exact ⟨if_neg hzero, h.of_empty rfl hempty fun _ =>
          dvd_pageAlign htarget (not_or.1 hzero).2⟩
    · rw [if_neg hvirtual, if_neg hvirtual]
      exact ⟨rfl, h.of_empty rfl hempty fun hv => absurd hv hvirtual⟩
  · rw [if_pos hinit, if_pos (mt handleOf_eq_init.1 hinit)]
    exact ⟨rfl, h⟩

theorem allocAligned_simulates (h : Represents platform heap arena) (htarget : Target platform)
    (hlegal : os.Legal arena) (size alignment : ℕ) :
    Simulates platform heap (allocAligned platform os (handleOf arena) size alignment)
      (Arena.allocAligned platform os arena size alignment) := by
  unfold allocAligned Arena.allocAligned
  by_cases hnothing : size = 0 ∨ isPowerOfTwo alignment = false
  · rw [if_pos hnothing, if_pos hnothing]
    exact h.refuses
  rw [if_neg hnothing, if_neg hnothing]
  have hpos : 0 < size := Nat.pos_of_ne_zero (not_or.1 hnothing).1
  change Simulates platform heap (if arena.blockSize = 0 ∧ arena.reserveSize = 0 then _ else _) _
  by_cases hzero : arena.blockSize = 0 ∧ arena.reserveSize = 0
  · rw [if_pos hzero, if_pos hzero]
    obtain ⟨heq, hrep⟩ := initInternal_simulates h htarget ⟨.heap, 0, 0, 0⟩
    rw [heq]
    rcases initInternal_cases platform arena ⟨.heap, 0, 0, 0⟩ with
      hfail | ⟨hinit, arena', hok, hempty⟩
    · rw [hfail]
      exact h.refuses
    · rw [hok] at hrep ⊢
      exact allocReady_simulates hrep htarget (hlegal.of_empty hempty) hpos alignment
  · rw [if_neg hzero, if_neg hzero]
    exact allocReady_simulates h htarget hlegal hpos alignment

end Liblor.Arena.Pointers
