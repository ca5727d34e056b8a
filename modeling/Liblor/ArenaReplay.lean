import Liblor.ArenaBlocks

/-!
# Replaying allocations after a reset

A reset keeps every block but an allocation only looks at the newest one. The older blocks are
therefore never used again, and a replayed sequence that does not fit the newest block acquires
another.
-/

namespace Liblor.Arena

open BumpStack

/-- The two ways to empty an arena without releasing its blocks. -/
inductive Restart where
  | byReset
  | byZeroMark

def Restart.apply : Restart → LorArena → LorArena
  | .byReset, arena => reset arena
  | .byZeroMark, arena => rewind arena markInit

section Model

variable (platform : Platform)

def allocAll (arena : LorArena) : List (Request × Os) → Option LorArena
  | [] => some arena
  | (r, os) :: calls =>
    match request platform os arena r with
    | (none, _) => none
    | (some _, arena) => allocAll arena calls

def CallsLegal (arena : LorArena) : List (Request × Os) → Prop
  | [] => True
  | (r, os) :: calls => os.Legal arena ∧ CallsLegal (request platform os arena r).2 calls

/-- The arena after rounds that each empty it and allocate again. -/
def replay (arena : LorArena) : List (Restart × List (Request × Os)) → Option LorArena
  | [] => some arena
  | (restart, calls) :: rounds =>
    match allocAll platform (restart.apply arena) calls with
    | none => none
    | some arena => replay arena rounds

def Rounds (requests : List Request) (rounds : List (Restart × List (Request × Os))) : Prop :=
  ∀ round ∈ rounds, round.2.map Prod.fst = requests

/-- Any number of rounds succeeds and leaves the blocks as many and the capacity as it was. -/
def Reuses (arena : LorArena) (requests : List Request) : Prop :=
  ∀ rounds, Rounds requests rounds → ∃ arena', replay platform arena rounds = some arena' ∧
    arena'.blocks.length = arena.blocks.length ∧ capacity arena' = capacity arena

/-- What the requests use of a block that has `used` bytes in use, every one aligned. -/
def usedAfter (used : ℕ) : List Request → ℕ
  | [] => used
  | r :: requests => usedAfter (alignUp used platform.maxAlignment + r.size) requests

/-- The requests fit the committed bytes of the newest block. -/
def Fits (arena : LorArena) (requests : List Request) : Prop :=
  ∀ block older, arena.blocks = block :: older →
    usedAfter platform 0 requests ≤ block.capacity ∧ (arena.backend = .virtual →
      dataStart platform block + usedAfter platform 0 requests ≤ block.address + block.committed)

def Configured (arena : LorArena) : Prop := ¬(arena.blockSize = 0 ∧ arena.reserveSize = 0)

end Model

variable {platform : Platform} {os : Os} {arena arena' : LorArena}

@[simp] theorem Restart.apply_eq (restart : Restart) (arena : LorArena) :
    restart.apply arena = reset arena := by
  cases restart with
  | byReset => rfl
  | byZeroMark => exact rewind_none (m := markInit) rfl

theorem le_usedAfter (platform : Platform) (used : ℕ) (requests : List Request) :
    used ≤ usedAfter platform used requests := by
  induction requests generalizing used with
  | nil => exact Nat.le_refl _
  | cons r requests ih =>
      have hle := le_alignUp used platform.maxAlignment
      exact Nat.le_trans (by omega) (ih _)

section Newest

variable {block block' : Block} {older : List Block}

/-- An allocation that fits the committed bytes of a block needs nothing from the system. -/
theorem blockAlloc_of_fits (os : Os) (hok : BlockOk platform arena.backend block) {size : ℕ}
    (hpos : 0 < size) (hfits : alignUp block.used platform.maxAlignment + size ≤ block.capacity)
    (hcommitted : arena.backend = .virtual → dataStart platform block +
      (alignUp block.used platform.maxAlignment + size) ≤ block.address + block.committed) :
    blockAlloc platform os arena block size platform.maxAlignment =
      some (dataStart platform block + alignUp block.used platform.maxAlignment,
        { block with used := alignUp block.used platform.maxAlignment + size }) := by
  have hle := le_alignUp block.used platform.maxAlignment
  have hstart := address_le_dataStart platform block
  have hend := hok.data_end
  obtain ⟨hnull, hregion⟩ := hok.region
  rw [blockAlloc_eq hok hpos, alignUp_add platform.maxAlignment_pow (dvd_dataStart platform block)]
  have hused : dataStart platform block + alignUp block.used platform.maxAlignment + size -
      dataStart platform block = alignUp block.used platform.maxAlignment + size := by omega
  dsimp only
  rw [if_neg (by omega), hused]
  split_ifs with hvirtual
  · have henough := hcommitted hvirtual
    have hensure : blockEnsureCommitted platform os block
        (alignUp block.used platform.maxAlignment + size) arena.commitSize = some block := by
      unfold blockEnsureCommitted addOverflowsSize
      simp only [hok.data]
      have hmax : uintptrMax = sizeMax := rfl
      rw [if_neg (by omega), if_neg (by simp only [decide_eq_true_eq]; omega),
        if_pos (by omega)]
    rw [hensure]
    rfl
  · rfl

end Newest

section Request

variable (platform)

/-- The request asks for some bytes and passes its own checks. -/
def Granted (r : Request) : Prop :=
  0 < r.size ∧ ∀ os arena, request platform os arena r =
    allocAligned platform os arena r.size platform.maxAlignment

variable {platform} {r : Request} {p : ℕ}

theorem granted_of_request (h : request platform os arena r = (some p, arena')) :
    Granted platform r := by
  rcases request_cases platform r with ⟨hrefused, -⟩ | heq
  · rw [hrefused] at h
    simp at h
  · rw [heq] at h
    exact ⟨size_pos_of_alloc h, heq⟩

theorem allocAll_cons {calls : List (Request × Os)}
    (h : allocAll platform arena ((r, os) :: calls) = some arena') :
    ∃ p arena₁, request platform os arena r = (some p, arena₁) ∧
      allocAll platform arena₁ calls = some arena' := by
  unfold allocAll at h
  cases hrequest : request platform os arena r with
  | mk result arena₁ =>
      cases result with
      | none => simp [hrequest] at h
      | some p =>
          simp only [hrequest] at h
          exact ⟨p, arena₁, rfl, h⟩

theorem granted_of_allocAll {calls : List (Request × Os)}
    (h : allocAll platform arena calls = some arena') :
    ∀ r ∈ calls.map Prod.fst, Granted platform r := by
  induction calls generalizing arena with
  | nil => simp
  | cons call calls ih =>
      obtain ⟨r, os⟩ := call
      obtain ⟨p, arena₁, hrequest, hrest⟩ := allocAll_cons h
      intro q hq
      rcases List.mem_cons.1 hq with rfl | hq
      · exact granted_of_request hrequest
      · exact ih hrest q hq

theorem request_of_configured (hr : Granted platform r) (hconfigured : Configured arena) :
    request platform os arena r = allocReady platform os arena r.size platform.maxAlignment := by
  rw [hr.2]
  unfold allocAligned
  have hpow := isPowerOfTwo_of_pow platform.maxAlignment_pow
  have hvalid : ¬(r.size = 0 ∨ isPowerOfTwo platform.maxAlignment = false) := by
    simp [hpow, Nat.ne_of_gt hr.1]
  rw [if_neg hvalid, if_neg hconfigured]

theorem Outcome.granted {size : ℕ} {result : Option ℕ × LorArena}
    (h : Outcome platform os arena size platform.maxAlignment result) :
    result.1 ≠ none → result.2.blocks ≠ [] ∧ (Configured arena → Configured result.2) := by
  cases h with
  | refused => simp
  | newest => exact fun _ => ⟨by simp, id⟩
  | grown => simp
  | fresh => exact fun _ => ⟨by simp, id⟩

theorem configured_of_request (h : request platform os arena r = (some p, arena')) :
    arena'.blocks ≠ [] ∧ Configured arena' := by
  have hgranted := granted_of_request h
  rw [hgranted.2] at h
  by_cases hconfigured : Configured arena
  · rw [← hgranted.2, request_of_configured hgranted hconfigured] at h
    have hout := allocReady_cases platform os arena r.size platform.maxAlignment
    rw [h] at hout
    obtain ⟨hblocks, hkeep⟩ := hout.granted (by simp)
    exact ⟨hblocks, hkeep hconfigured⟩
  · unfold allocAligned at h
    have hpow := isPowerOfTwo_of_pow platform.maxAlignment_pow
    have hvalid : ¬(r.size = 0 ∨ isPowerOfTwo platform.maxAlignment = false) := by
      simp [hpow, Nat.ne_of_gt hgranted.1]
    rw [if_neg hvalid, if_pos (not_not.1 hconfigured)] at h
    by_cases hinit : arena = arenaInit
    · subst hinit
      have hout := allocReady_cases platform os (configured ⟨.heap, 0, 0, 0⟩) r.size
        platform.maxAlignment
      change allocReady platform os (configured ⟨.heap, 0, 0, 0⟩) r.size platform.maxAlignment =
        (some p, arena') at h
      rw [h] at hout
      obtain ⟨hblocks, hkeep⟩ := hout.granted (by simp)
      exact ⟨hblocks, hkeep (by simp [Configured, configured, defaultBlockSize])⟩
    · have hfail : initInternal platform arena ⟨.heap, 0, 0, 0⟩ = (false, arena) := if_pos hinit
      simp [hfail] at h

theorem configured_of_allocAll {calls : List (Request × Os)}
    (h : allocAll platform arena calls = some arena')
    (hstart : calls = [] → arena.blocks ≠ [] ∧ Configured arena) :
    arena'.blocks ≠ [] ∧ Configured arena' := by
  induction calls generalizing arena with
  | nil =>
      cases h
      exact hstart rfl
  | cons call calls ih =>
      obtain ⟨r, os⟩ := call
      obtain ⟨p, arena₁, hrequest, hrest⟩ := allocAll_cons h
      exact ih hrest fun _ => configured_of_request hrequest

end Request

section Replay

variable (platform) in
structure Ready (arena : LorArena) (block : Block) (older : List Block) : Prop where
  blocks : arena.blocks = block :: older
  ok : BlockOk platform arena.backend block
  configured : Configured arena

variable {block : Block} {older : List Block} {calls : List (Request × Os)}
    {requests : List Request}

theorem Ready.restart (h : Ready platform arena block older) (restart : Restart) :
    Ready platform (restart.apply arena) (clearUsed block) (older.map clearUsed) := by
  rw [Restart.apply_eq]
  refine ⟨?_, h.ok.lower (Nat.zero_le _), h.configured⟩
  simp only [reset, h.blocks, List.map_cons]

theorem Ready.bump (h : Ready platform arena block older) {r : Request} {p : ℕ} {block' : Block}
    (halloc : blockAlloc platform os arena block r.size platform.maxAlignment = some (p, block')) :
    Ready platform { arena with blocks := block' :: older } block' older :=
  ⟨rfl, blockAlloc_ok h.ok halloc, h.configured⟩

def withUsed (block : Block) (used : ℕ) : Block := { block with used := used }

theorem allocAll_of_fits (h : Ready platform arena block older)
    (hgranted : ∀ r ∈ calls.map Prod.fst, Granted platform r)
    (hfits : usedAfter platform block.used (calls.map Prod.fst) ≤ block.capacity)
    (hcommitted : arena.backend = .virtual → dataStart platform block +
      usedAfter platform block.used (calls.map Prod.fst) ≤ block.address + block.committed) :
    ∃ arena', allocAll platform arena calls = some arena' ∧ arena'.backend = arena.backend ∧
      Ready platform arena'
        (withUsed block (usedAfter platform block.used (calls.map Prod.fst))) older := by
  induction calls generalizing arena block with
  | nil => exact ⟨arena, rfl, rfl, h⟩
  | cons call calls ih =>
      obtain ⟨r, os⟩ := call
      have hr := hgranted r List.mem_cons_self
      have hle := le_usedAfter platform
        (alignUp block.used platform.maxAlignment + r.size) (calls.map Prod.fst)
      simp only [List.map_cons, usedAfter] at hfits hcommitted
      have halloc := blockAlloc_of_fits os h.ok hr.1 (Nat.le_trans hle hfits)
        (fun hvirtual => Nat.le_trans (Nat.add_le_add_left hle _) (hcommitted hvirtual))
      have hrequest : request platform os arena r =
          (some (dataStart platform block + alignUp block.used platform.maxAlignment),
            { arena with blocks := { block with
                used := alignUp block.used platform.maxAlignment + r.size } :: older }) := by
        rw [request_of_configured hr h.configured]
        unfold allocReady
        simp only [h.blocks, halloc]
      unfold allocAll
      simp only [hrequest]
      exact ih (h.bump halloc) (fun q hq => hgranted q (List.mem_cons_of_mem _ hq)) hfits hcommitted

/-- A request either takes its bytes from the newest block or acquires another block. -/
theorem request_newest (h : Ready platform arena block older) {r : Request} {p : ℕ}
    (hrequest : request platform os arena r = (some p, arena')) :
    (∃ block', blockAlloc platform os arena block r.size platform.maxAlignment =
      some (p, block') ∧ arena' = { arena with blocks := block' :: older }) ∨
    arena'.blocks.length = arena.blocks.length + 1 := by
  rw [request_of_configured (granted_of_request hrequest) h.configured] at hrequest
  have hout := allocReady_cases platform os arena r.size platform.maxAlignment
  rw [hrequest] at hout
  cases hout with
  | newest hblocks halloc =>
      rw [h.blocks] at hblocks
      cases hblocks
      exact Or.inl ⟨_, halloc, rfl⟩
  | fresh => exact Or.inr (by simp)

theorem request_length_le {r : Request} {p : ℕ}
    (hrequest : request platform os arena r = (some p, arena')) :
    arena.blocks.length ≤ arena'.blocks.length := by
  rw [(granted_of_request hrequest).2] at hrequest
  obtain ⟨arena₀, hready, hout⟩ := allocAligned_cases platform os arena r.size
    platform.maxAlignment
  rw [hrequest] at hout
  have hle : arena₀.blocks.length ≤ arena'.blocks.length := by
    cases hout with
    | newest hblocks => simp [hblocks]
    | fresh => simp
  rcases hready with rfl | ⟨hinit, -⟩
  · exact hle
  · simp [hinit, arenaInit]

theorem allocAll_length_le (h : allocAll platform arena calls = some arena') :
    arena.blocks.length ≤ arena'.blocks.length := by
  induction calls generalizing arena with
  | nil =>
      cases h
      exact Nat.le_refl _
  | cons call calls ih =>
      obtain ⟨r, os⟩ := call
      obtain ⟨p, arena₁, hrequest, hrest⟩ := allocAll_cons h
      exact Nat.le_trans (request_length_le hrequest) (ih hrest)

theorem replay_cons {restart : Restart} {rounds : List (Restart × List (Request × Os))}
    (h : replay platform arena ((restart, calls) :: rounds) = some arena') :
    ∃ arena₁, allocAll platform (reset arena) calls = some arena₁ ∧
      replay platform arena₁ rounds = some arena' := by
  unfold replay at h
  rw [Restart.apply_eq] at h
  cases hcalls : allocAll platform (reset arena) calls with
  | none => simp [hcalls] at h
  | some arena₁ =>
      simp only [hcalls] at h
      exact ⟨arena₁, rfl, h⟩

theorem replay_length_le {rounds : List (Restart × List (Request × Os))}
    (h : replay platform arena rounds = some arena') :
    arena.blocks.length ≤ arena'.blocks.length := by
  induction rounds generalizing arena with
  | nil =>
      cases h
      exact Nat.le_refl _
  | cons round rounds ih =>
      obtain ⟨restart, calls⟩ := round
      obtain ⟨arena₁, hcalls, hrest⟩ := replay_cons h
      have hle := Nat.le_trans (allocAll_length_le hcalls) (ih hrest)
      simpa [reset] using hle

def refuse : Os := ⟨fun _ => none, fun _ => none, fun _ _ => false⟩

theorem allocAll_newest (h : Ready platform arena block older)
    (hcalls : allocAll platform arena calls = some arena')
    (hlength : arena'.blocks.length = arena.blocks.length) :
    ∃ committed, Ready platform arena' { block with
        committed := committed, used := usedAfter platform block.used (calls.map Prod.fst) } older ∧
      arena'.backend = arena.backend ∧
        ((∀ call ∈ calls, call.2 = refuse) → committed = block.committed) := by
  induction calls generalizing arena block with
  | nil =>
      cases hcalls
      exact ⟨block.committed, h, rfl, fun _ => rfl⟩
  | cons call calls ih =>
      obtain ⟨r, os⟩ := call
      obtain ⟨p, arena₁, hrequest, hrest⟩ := allocAll_cons hcalls
      have hle := allocAll_length_le hrest
      rcases request_newest h hrequest with ⟨block', halloc, rfl⟩ | hmore
      · have hready := h.bump halloc
        obtain ⟨hp, -, committed, rfl, -, -, -, hos⟩ := blockAlloc_spec h.ok halloc
        have hused : p + r.size - dataStart platform block =
            alignUp block.used platform.maxAlignment + r.size := by
          rw [hp, alignUp_add platform.maxAlignment_pow (dvd_dataStart platform block)]
          omega
        rw [hused] at hready hrest
        have hsame : arena'.blocks.length = older.length + 1 := by
          rw [hlength, h.blocks, List.length_cons]
        obtain ⟨committed', hready', hbackend, hrefuse⟩ := ih hready hrest hsame
        refine ⟨committed', hready', hbackend, ?_⟩
        intro hall
        rw [hrefuse fun call hcall => hall call (List.mem_cons_of_mem _ hcall)]
        rcases hos with hsame | hgrant
        · exact hsame
        · have heq := hall (r, os) List.mem_cons_self
          change os = refuse at heq
          subst heq
          simp [refuse] at hgrant
      · omega

theorem sound_of_no_blocks (hempty : arena.blocks = []) : Sound platform ⟨arena, [], []⟩ := by
  refine ⟨by simp [hempty], by simp [hempty], ?_, .zero (by simp), by simp, by simp⟩
  unfold frames
  rw [hempty]
  exact .nil

theorem sound_of_allocAll {live : List Piece} (h : Sound platform ⟨arena, live, []⟩)
    (hlegal : CallsLegal platform arena calls)
    (hcalls : allocAll platform arena calls = some arena') :
    ∃ live', Sound platform ⟨arena', live', []⟩ := by
  induction calls generalizing arena live with
  | nil =>
      cases hcalls
      exact ⟨live, h⟩
  | cons call calls ih =>
      obtain ⟨r, os⟩ := call
      obtain ⟨p, arena₁, hrequest, hrest⟩ := allocAll_cons hcalls
      obtain ⟨hos, hlegal⟩ := hlegal
      have hstep := h.request hos r
      change Sound platform (State.returned _ r.size (request platform os arena r)) at hstep
      rw [hrequest] at hstep hlegal
      exact ih hstep hlegal hrest

theorem ready_of_allocAll (hempty : arena.blocks = []) (hlegal : CallsLegal platform arena calls)
    (hcalls : allocAll platform arena calls = some arena') (hne : calls ≠ []) :
    ∃ block older, Ready platform arena' block older := by
  obtain ⟨live, hsound⟩ := sound_of_allocAll (sound_of_no_blocks hempty) hlegal hcalls
  obtain ⟨hblocks, hconfigured⟩ := configured_of_allocAll hcalls fun h => absurd h hne
  obtain ⟨block, older, heq⟩ := List.exists_cons_of_ne_nil hblocks
  exact ⟨block, older, heq, hsound.blocks block (heq ▸ List.mem_cons_self), hconfigured⟩

theorem reuses_nil (arena : LorArena) : Reuses platform arena [] := by
  intro rounds hrounds
  induction rounds generalizing arena with
  | nil => exact ⟨arena, rfl, rfl, rfl⟩
  | cons round rounds ih =>
      obtain ⟨restart, calls⟩ := round
      obtain ⟨hcalls, hrest⟩ := List.forall_mem_cons.1 hrounds
      have hnil : calls = [] := List.map_eq_nil_iff.1 hcalls
      subst hnil
      obtain ⟨arena', hreplay, hlength, hcapacity⟩ := ih (restart.apply arena) hrest
      refine ⟨arena', hreplay, ?_, ?_⟩
      · rw [hlength, Restart.apply_eq]
        simp [reset]
      · rw [hcapacity, Restart.apply_eq]
        simp [reset, capacity, Function.comp_def, clearUsed]

theorem capacity_of_ready (h : Ready platform arena block older) :
    capacity arena = block.capacity + (older.map Block.capacity).sum := by
  simp [capacity, h.blocks]

/-- One round of requests that fit leaves the blocks as they were, up to what they use. -/
theorem reuses_of_fits (h : Ready platform arena block older)
    (hgranted : ∀ r ∈ requests, Granted platform r)
    (hfits : usedAfter platform 0 requests ≤ block.capacity)
    (hcommitted : arena.backend = .virtual →
      dataStart platform block + usedAfter platform 0 requests ≤ block.address + block.committed) :
    Reuses platform arena requests := by
  intro rounds hrounds
  induction rounds generalizing arena block older with
  | nil => exact ⟨arena, rfl, rfl, rfl⟩
  | cons round rounds ih =>
      obtain ⟨restart, calls⟩ := round
      obtain ⟨hcalls, hrest⟩ := List.forall_mem_cons.1 hrounds
      change calls.map Prod.fst = requests at hcalls
      subst hcalls
      have hready := h.restart restart
      rw [Restart.apply_eq] at hready
      obtain ⟨arena₁, hall, hbackend, hready₁⟩ := allocAll_of_fits hready hgranted hfits hcommitted
      obtain ⟨arena', hreplay, hlength, hcapacity⟩ :=
        ih hready₁ hfits (fun hvirtual => hcommitted (hbackend ▸ hvirtual)) hrest
      refine ⟨arena', ?_, ?_, ?_⟩
      · unfold replay
        rw [Restart.apply_eq]
        simp only [hall]
        exact hreplay
      · rw [hlength, hready₁.blocks, h.blocks]
        simp
      · rw [hcapacity, capacity_of_ready hready₁, capacity_of_ready h, List.map_map]
        rfl

/-- A round that acquires nothing has fitted the newest block. -/
theorem le_capacity_of_replay (h : Ready platform arena block older)
    {rounds : List (Restart × List (Request × Os))} (hne : rounds ≠ [])
    (hrounds : Rounds requests rounds) (hreplay : replay platform arena rounds = some arena')
    (hlength : arena'.blocks.length = arena.blocks.length) :
    usedAfter platform 0 requests ≤ block.capacity := by
  obtain ⟨⟨restart, calls⟩, rest, rfl⟩ := List.exists_cons_of_ne_nil hne
  obtain ⟨hcalls, -⟩ := List.forall_mem_cons.1 hrounds
  change calls.map Prod.fst = requests at hcalls
  subst hcalls
  obtain ⟨arena₁, hall, hrest⟩ := replay_cons hreplay
  have hready : Ready platform (reset arena) (clearUsed block) (older.map clearUsed) :=
    h.restart .byReset
  have hstart : (reset arena).blocks.length = arena.blocks.length := by simp [reset]
  have hlower := allocAll_length_le hall
  have hupper := replay_length_le hrest
  obtain ⟨committed, hready', -, -⟩ := allocAll_newest hready hall (by omega)
  exact hready'.ok.used_le

theorem fits_of_reuses (h : Ready platform arena block older) (hne : requests ≠ [])
    (hgranted : ∀ r ∈ requests, Granted platform r) (hreuses : Reuses platform arena requests) :
    Fits platform arena requests := by
  intro block' older' hblocks
  rw [h.blocks] at hblocks
  cases hblocks
  -- The system refuses everything, so that only the committed bytes can have been used.
  obtain ⟨arena', hreplay, hlength, -⟩ :=
    hreuses [(.byReset, requests.map fun r => (r, refuse))] (by simp [Rounds, Function.comp_def])
  obtain ⟨arena₁, hall, hdone⟩ := replay_cons hreplay
  cases hdone
  have hstart : (reset arena).blocks.length = arena.blocks.length := by simp [reset]
  obtain ⟨committed, hready', hbackend, hsame⟩ :=
    allocAll_newest (h.restart .byReset) hall (hlength.trans hstart.symm)
  have hcommitted : committed = block.committed := hsame (by simp)
  have hok := hready'.ok
  simp only [List.map_map, Function.comp_def, List.map_id'] at hok
  refine ⟨hok.used_le, ?_⟩
  intro hvirtual
  obtain ⟨r, rest, rfl⟩ := List.exists_cons_of_ne_nil hne
  have hpos : 0 < usedAfter platform 0 (r :: rest) :=
    Nat.lt_of_lt_of_le (hgranted r List.mem_cons_self).1
      (Nat.le_trans (Nat.le_add_left _ _) (le_usedAfter _ _ _))
  have hend := hok.used_committed (hbackend.trans hvirtual) hpos
  rw [hcommitted] at hend
  exact hend

end Replay

/-- After allocations that all succeeded, replaying them any number of times reuses the blocks that
are there exactly when they all fit the committed bytes of the newest block. No system at all lets
a replay go without a new block when they exceed its capacity. -/
theorem reset_reuses_iff (platform : Platform) (arena arena' : LorArena)
    (calls : List (Request × Os)) (hempty : arena.blocks = [])
    (hlegal : CallsLegal platform arena calls)
    (hcalls : allocAll platform arena calls = some arena') :
    (Reuses platform arena' (calls.map Prod.fst) ↔ Fits platform arena' (calls.map Prod.fst)) ∧
    ∀ rounds arena'', rounds ≠ [] → Rounds (calls.map Prod.fst) rounds →
      replay platform arena' rounds = some arena'' →
      arena''.blocks.length = arena'.blocks.length → ∀ block older,
        arena'.blocks = block :: older →
        usedAfter platform 0 (calls.map Prod.fst) ≤ block.capacity := by
  have hgranted := granted_of_allocAll hcalls
  by_cases hnil : calls = []
  · subst hnil
    cases hcalls
    refine ⟨⟨fun _ => ?_, fun _ => reuses_nil arena⟩, ?_⟩
    · intro block older hblocks
      simp [hempty] at hblocks
    · intro _ _ _ _ _ _ block older hblocks
      simp [hempty] at hblocks
  · obtain ⟨block, older, hready⟩ := ready_of_allocAll hempty hlegal hcalls hnil
    refine ⟨⟨?_, ?_⟩, ?_⟩
    · exact fits_of_reuses hready (by simpa using hnil) hgranted
    · intro hfits
      obtain ⟨hcapacity, hcommitted⟩ := hfits block older hready.blocks
      exact reuses_of_fits hready hgranted hcapacity hcommitted
    · intro rounds arena'' hne hrounds hreplay hlength block' older' hblocks
      rw [hready.blocks] at hblocks
      cases hblocks
      exact le_capacity_of_replay hready hne hrounds hreplay hlength

/-- Two small requests share one block and can be replayed for ever. -/
theorem reset_reuses_iff_small :
    let arena : LorArena := ⟨[⟨2 ^ 20, 65536, 65536, 136, 65591⟩], .heap, 65536, 67108864, 65536⟩
    allocAll lp64 arenaInit [(.alloc 100, osAt (2 ^ 20)), (.alloc 24, refuse)] = some arena ∧
      Reuses lp64 arena [.alloc 100, .alloc 24] := by
  intro arena
  have hcalls : allocAll lp64 arenaInit [(.alloc 100, osAt (2 ^ 20)), (.alloc 24, refuse)] =
      some arena := by decide
  have hlegal : CallsLegal lp64 arenaInit [(.alloc 100, osAt (2 ^ 20)), (.alloc 24, refuse)] := by
    refine ⟨osAt_legal (by decide) (by decide), ?_, trivial⟩
    intro size address hregion
    simp [refuse] at hregion
  have hiff := reset_reuses_iff lp64 arenaInit arena _ rfl hlegal hcalls
  refine ⟨hcalls, hiff.1.2 ?_⟩
  intro block older hblocks
  cases hblocks
  exact ⟨by decide, fun hvirtual => absurd hvirtual (by decide)⟩

/-- Two requests that need a block each: replayed, they acquire a third block although the system
grants everything. -/
theorem reset_acquires_block :
    let calls := [(.alloc 40000, osAt (2 ^ 20)), (.alloc 40000, osAt (2 ^ 21))]
    let again := [(.alloc 40000, osAt (2 ^ 22)), (.alloc 40000, osAt (2 ^ 23))]
    CallsLegal lp64 arenaInit calls ∧
    (allocAll lp64 arenaInit calls).map (fun a => (a.blocks.length, capacity a)) =
      some (2, 131072) ∧
    ((allocAll lp64 arenaInit calls).bind fun a => replay lp64 a [(.byReset, again)]).map
      (fun a => (a.blocks.length, capacity a)) = some (3, 196608) ∧
    ¬ ∀ arena', allocAll lp64 arenaInit calls = some arena' →
      Reuses lp64 arena' (calls.map Prod.fst) := by
  intro calls again
  have hfirst : (allocAll lp64 arenaInit calls).map (fun a => (a.blocks.length, capacity a)) =
      some (2, 131072) := by decide
  have hsecond : ((allocAll lp64 arenaInit calls).bind fun a =>
      replay lp64 a [(.byReset, again)]).map (fun a => (a.blocks.length, capacity a)) =
      some (3, 196608) := by decide
  refine ⟨⟨osAt_legal (by decide) (by decide), osAt_legal (by decide) (by decide), trivial⟩,
    hfirst, hsecond, ?_⟩
  intro hclaim
  cases hcalls : allocAll lp64 arenaInit calls with
  | none => simp [hcalls] at hfirst
  | some arena' =>
      obtain ⟨arena'', hreplay, hlength, -⟩ :=
        hclaim arena' hcalls [(.byReset, again)] (by simp [Rounds, calls, again])
      rw [hcalls, Option.map_some, Option.some_inj, Prod.mk.injEq] at hfirst
      rw [hcalls, Option.bind_some, hreplay, Option.map_some, Option.some_inj,
        Prod.mk.injEq] at hsecond
      omega

end Liblor.Arena
