import Liblor.ArenaAccounting

/-!
# Committing on demand

A virtual block grows by whole pages that follow those committed before. The committed size is
rounded with a mask, which finds the multiples of the commit size only when the commit size is a
power of two; an arena rounds the commit size that it is configured with to whole pages and no
further.
-/

namespace Liblor.Arena

open Transition

section Platform

variable (platform : Platform)

/-- The blocks that an allocation in the arena can grow: one that it holds or one that it creates.
-/
def Growable (arena : LorArena) (block : Block) : Prop :=
  block ∈ arena.blocks ∨ ∃ os minCapacity, os.Legal arena ∧ os.Paged platform ∧ 0 < minCapacity ∧
    blockNew platform os arena minCapacity = some block

def neededTotal (block : Block) (neededUsed : ℕ) : ℕ :=
  dataStart platform block - block.address + neededUsed

end Platform

/-- The committed size is the least multiple of the commit size with room for `total` bytes, or the
whole reservation. -/
def Granular (commitSize total : ℕ) (block block' : Block) : Prop :=
  ∃ m, IsLeast {m | commitSize ∣ m ∧ total ≤ m} m ∧
    block'.committed = min m block.allocationSize

/-- The mask takes the remainder off the padded total, or the reservation ends before it matters. -/
def MaskAgrees (commitSize total limit : ℕ) : Prop :=
  let padded := total + (commitSize - 1)
  padded &&& (commitSize - 1) = padded % commitSize ∨
    limit ≤ padded - (padded &&& (commitSize - 1)) ∧ limit ≤ padded - padded % commitSize

variable {platform : Platform} {os : Os} {arena : LorArena} {block block' : Block}

theorem maskAgrees_of_pow {commitSize : ℕ} (h : ∃ k, commitSize = 2 ^ k) (total limit : ℕ) :
    MaskAgrees commitSize total limit := by
  obtain ⟨k, rfl⟩ := h
  exact Or.inl (Nat.and_two_pow_sub_one_eq_mod _ _)

theorem granular_iff {commitSize total : ℕ} (hpos : 0 < commitSize)
    (hgrown : block'.committed = grownTo commitSize block total) :
    Granular commitSize total block block' ↔
      MaskAgrees commitSize total block.allocationSize := by
  have hleast := Extents.isLeast_multiple hpos total
  have hdiv := Nat.div_add_mod' (total + (commitSize - 1)) commitSize
  have hand := Nat.and_le_left (n := total + (commitSize - 1)) (m := commitSize - 1)
  have hmin : Granular commitSize total block block' ↔ block'.committed =
      min ((total + (commitSize - 1)) / commitSize * commitSize) block.allocationSize := by
    constructor
    · rintro ⟨m, hm, heq⟩
      rw [heq, hm.unique hleast]
    · intro heq
      exact ⟨_, hleast, heq⟩
  rw [hmin, hgrown]
  unfold grownTo alignUp MaskAgrees
  dsimp only
  omega

theorem Growable.counted (hpage : ∃ k, platform.pageSize = 2 ^ k)
    (harena : Accounted platform arena) (hvirtual : arena.backend = .virtual)
    (h : Growable platform arena block) :
    Initialized platform arena ∧ Counted platform arena.backend block := by
  have hconfig : Initialized platform arena := by
    rcases harena.config with rfl | hconfig
    · cases hvirtual
    · exact hconfig
  rcases h with hblock | ⟨os, minCapacity, hlegal, hpaged, hpos, hnew⟩
  · exact ⟨hconfig, harena.blocks block hblock⟩
  · exact ⟨hconfig, blockNew_counted hpage hconfig hlegal hpaged hpos hnew⟩

theorem growth_cases (hcounted : Counted platform arena.backend block)
    (hconfig : Initialized platform arena) {neededUsed : ℕ}
    (hgrow : blockEnsureCommitted platform os block neededUsed arena.commitSize = some block')
    (hne : block' ≠ block) :
    block.committed < neededTotal platform block neededUsed ∧
    neededTotal platform block neededUsed ≤ block.allocationSize ∧
    block' = { block with
      committed := grownTo arena.commitSize block (neededTotal platform block neededUsed) } ∧
    os.commitRaw (block.address + block.committed)
      (grownTo arena.commitSize block (neededTotal platform block neededUsed) -
        block.committed) = true := by
  have hend := hcounted.ok.data_end
  have haddress := address_le_dataStart platform block
  have hneeded : neededUsed ≤ block.capacity := by
    by_contra hover
    unfold blockEnsureCommitted at hgrow
    simp only [hcounted.ok.data] at hgrow
    rw [if_pos (Nat.not_le.1 hover)] at hgrow
    cases hgrow
  rw [blockEnsureCommitted_eq hcounted.ok hconfig.commit_pos hneeded] at hgrow
  change (if neededTotal platform block neededUsed ≤ block.committed then some block
    else if addOverflowsSize (neededTotal platform block neededUsed) (arena.commitSize - 1) then
      none
    else if os.commitRaw (block.address + block.committed)
        (grownTo arena.commitSize block (neededTotal platform block neededUsed) -
          block.committed) then
      some { block with
        committed := grownTo arena.commitSize block (neededTotal platform block neededUsed) }
    else none) = some block' at hgrow
  split_ifs at hgrow with henough hover hgrant
  · exact absurd (Option.some.inj hgrow).symm hne
  · refine ⟨Nat.not_le.1 henough, ?_, (Option.some.inj hgrow).symm, hgrant⟩
    unfold neededTotal
    omega

/-- In every state that the calls on a virtual arena can reach, a growth commits a stretch of whole
pages that follows the committed bytes and stays in the reservation. The new committed size is the
least multiple of the commit size exactly when the mask finds it, which it does in every growth when
the commit size is a power of two. -/
theorem growth_granular (platform : Platform) (hpage : ∃ k, platform.pageSize = 2 ^ k)
    (arena : LorArena) (h : Reachable (calls platform) arena) (hvirtual : arena.backend = .virtual)
    (block : Block) (hblock : Growable platform arena block) (os : Os) (neededUsed : ℕ)
    (block' : Block)
    (hgrow : blockEnsureCommitted platform os block neededUsed arena.commitSize = some block')
    (hne : block' ≠ block) :
    (block' = { block with committed := block'.committed } ∧
      block.committed < block'.committed ∧ block'.committed ≤ block.allocationSize ∧
      platform.pageSize ∣ block.address + block.committed ∧
      platform.pageSize ∣ block.address + block'.committed ∧
      os.commitRaw (block.address + block.committed)
        (block'.committed - block.committed) = true) ∧
    (Granular arena.commitSize (neededTotal platform block neededUsed) block block' ↔
      MaskAgrees arena.commitSize (neededTotal platform block neededUsed)
        block.allocationSize) ∧
    ((∃ k, arena.commitSize = 2 ^ k) →
      Granular arena.commitSize (neededTotal platform block neededUsed) block block') := by
  obtain ⟨hconfig, hcounted⟩ := hblock.counted hpage (accounted_of_reachable hpage h) hvirtual
  have hreserved := hcounted.virtual hvirtual
  obtain ⟨hlt, hle, heq, hgrant⟩ := growth_cases hcounted hconfig hgrow hne
  have hgrown : block'.committed =
      grownTo arena.commitSize block (neededTotal platform block neededUsed) := by rw [heq]
  rw [← hgrown] at heq hgrant
  have hbounds := grownTo_bounds arena.commitSize hle
  rw [← hgrown] at hbounds
  have hpages := dvd_grownTo hpage (neededTotal platform block neededUsed) hconfig.commit_pos
    (hconfig.commit_page hvirtual) hreserved.size_page
  rw [← hgrown] at hpages
  have hiff := granular_iff hconfig.commit_pos hgrown
  refine ⟨⟨heq, Nat.lt_of_lt_of_le hlt hbounds.1, hbounds.2, ?_, ?_, hgrant⟩, hiff, ?_⟩
  · exact Nat.dvd_add hreserved.address_page hreserved.committed_page
  · exact Nat.dvd_add hreserved.address_page hpages
  · intro hpow
    exact hiff.2 (maskAgrees_of_pow hpow _ _)

def oneBlock (commitSize : ℕ) : LorArena :=
  Call.run lp64 (Call.run lp64 arenaInit (.init ⟨.virtual, 0, 1048576, commitSize⟩))
    (.request (.alloc 100) (osAt 4096))

theorem oneBlock_reachable (commitSize : ℕ) : Reachable (calls lp64) (oneBlock commitSize) := by
  have h₀ : Run (calls lp64) [] arenaInit := .start rfl
  have h₁ := calls_step h₀ (.init ⟨.virtual, 0, 1048576, commitSize⟩) trivial
  have hempty : ∀ block ∈ (Call.run lp64 arenaInit
      (.init ⟨.virtual, 0, 1048576, commitSize⟩)).blocks,
      block.address + block.allocationSize ≤ 4096 := by
    have hblocks : (Call.run lp64 arenaInit
        (.init ⟨.virtual, 0, 1048576, commitSize⟩)).blocks = [] := by
      change (initInternal lp64 arenaInit _).2.blocks = []
      rcases initInternal_cases lp64 arenaInit ⟨.virtual, 0, 1048576, commitSize⟩ with
        hfail | ⟨-, arena', hok, hnone⟩
      · rw [hfail]
        rfl
      · rw [hok]
        exact hnone
    simp [hblocks]
  have h₂ := calls_step h₁ (.request (.alloc 100) (osAt 4096))
    ⟨osAt_legal (by decide) hempty, osAt_paged (by decide)⟩
  exact ⟨_, h₂⟩

/-- With a commit size of three pages a growth to six pages commits eight. -/
theorem growth_three_pages :
    let arena := oneBlock 12288
    let block : Block := ⟨4096, 1048528, 12288, 100, 1048576⟩
    let block' : Block := { block with committed := 32768 }
    Reachable (calls lp64) arena ∧ arena.backend = .virtual ∧ arena.commitSize = 12288 ∧
      block ∈ arena.blocks ∧
      blockEnsureCommitted lp64 (osAt 4096) block 24528 arena.commitSize = some block' ∧
      neededTotal lp64 block 24528 = 2 * 12288 ∧
      ¬ Granular arena.commitSize (neededTotal lp64 block 24528) block block' := by
  refine ⟨oneBlock_reachable 12288, by decide, by decide, by decide, by decide, by decide, ?_⟩
  rintro ⟨m, hleast, heq⟩
  have hle : m ≤ 24576 := hleast.2 ⟨⟨2, rfl⟩, Nat.le_refl _⟩
  change 32768 = min m 1048576 at heq
  omega

theorem growth_granular_two_pages :
    Granular 8192 20480 ⟨4096, 1048528, 8192, 100, 1048576⟩
      ⟨4096, 1048528, 24576, 100, 1048576⟩ := by
  have h := growth_granular lp64 ⟨12, rfl⟩ (oneBlock 8192) (oneBlock_reachable 8192) (by decide)
    ⟨4096, 1048528, 8192, 100, 1048576⟩ (Or.inl (by decide)) (osAt 4096) 20432
    ⟨4096, 1048528, 24576, 100, 1048576⟩ (by decide) (by decide)
  exact h.2.2 ⟨13, rfl⟩

end Liblor.Arena
