import Liblor.ArenaAlloc
import Liblor.BumpStack
import Liblor.Transition

/-!
# Live allocations never meet

A program drives one arena through any sequence of calls while the system answers as it likes,
except that it does not hand out a region that meets one still held. The allocations that are live
and the marks that can still be rewound to are recorded next to the arena, newest first; a mark
records how many allocations were live when it was taken.
-/

namespace Liblor.Arena

open BumpStack Transition

structure State where
  arena : LorArena
  live : List Piece
  marks : List (Mark × ℕ)

/-- `rewind i` rewinds to the mark that has `i` newer ones, which are given up. -/
inductive Op where
  | init (config : Config)
  | request (r : Request) (os : Os)
  | mark
  | rewind (i : ℕ)
  | reset
  | deinit

/-- Every region that the system hands out lies in the address space and apart from the blocks that
are held. -/
def Os.Legal (os : Os) (arena : LorArena) : Prop :=
  ∀ size address, os.malloc size = some address ∨ os.reserveRaw size = some address →
    InSpace address size ∧ ∀ block ∈ arena.blocks,
      address + size ≤ block.address ∨ block.address + block.allocationSize ≤ address

def Op.Legal (s : State) : Op → Prop
  | .request _ os => os.Legal s.arena
  | .rewind i => i < s.marks.length
  | _ => True

/-- The state once a request for `size` bytes has returned. -/
def State.returned (s : State) (size : ℕ) : Option ℕ × LorArena → State
  | (none, arena) => { s with arena := arena }
  | (some p, arena) => { s with arena := arena, live := ⟨p, size⟩ :: s.live }

/-- The state once the arena has been rewound to the mark with `i` newer ones. -/
def State.rewound (s : State) (i : ℕ) : State :=
  match s.marks.drop i with
  | [] => s
  | (m, depth) :: older => ⟨rewind s.arena m, keep s.live depth, (m, depth) :: older⟩

section Step

variable (platform : Platform)

def step (s : State) : Op → State
  | .init config => { s with arena := (initConfig platform s.arena config).2 }
  | .request r os => s.returned r.size (request platform os s.arena r)
  | .mark => { s with marks := (mark s.arena, s.live.length) :: s.marks }
  | .rewind i => s.rewound i
  | .reset => ⟨reset s.arena, [], []⟩
  | .deinit => ⟨deinit s.arena, [], []⟩

def system : System State Op where
  start s := s = ⟨arenaInit, [], []⟩
  step s op s' := op.Legal s ∧ s' = step platform s op

def frame (block : Block) : Frame ℕ := ⟨block.address, dataStart platform block, block.used⟩

def frames (arena : LorArena) : List (Frame ℕ) := arena.blocks.map (frame platform)

def stackMark (m : Mark × ℕ) : BumpStack.Mark ℕ := ⟨m.1.block, m.1.used, m.2⟩

def RegionsApart (b c : Block) : Prop :=
  b.address + b.allocationSize ≤ c.address ∨ c.address + c.allocationSize ≤ b.address

/-- The blocks are in order and apart, and the live allocations fill them as a stack. -/
structure Sound (s : State) : Prop where
  blocks : ∀ block ∈ s.arena.blocks, BlockOk platform s.arena.backend block
  apart : s.arena.blocks.Pairwise RegionsApart
  filed : Filed (frames platform s.arena) s.live
  marks : MarksOk (frames platform s.arena) s.live (s.marks.map stackMark)
  aligned : ∀ p ∈ s.live, platform.maxAlignment ∣ p.start
  positive : ∀ p ∈ s.live, 0 < p.size

end Step

variable {platform : Platform} {s s' : State} {os : Os}

theorem Sound.frames_apart (h : Sound platform s) :
    (frames platform s.arena).Pairwise FramesApart := by
  unfold frames
  rw [List.pairwise_map]
  apply h.apart.imp_of_mem
  intro b c hb hc hapart
  have hb' := h.blocks b hb
  have hc' := h.blocks c hc
  have hbstart := address_le_dataStart platform b
  have hcstart := address_le_dataStart platform c
  have hbend := hb'.data_end
  have hcend := hc'.data_end
  have hbused := hb'.used_le
  have hcused := hc'.used_le
  unfold RegionsApart at hapart
  change dataStart platform b + b.used ≤ dataStart platform c ∨
    dataStart platform c + c.used ≤ dataStart platform b
  omega

theorem Sound.of_empty (h : Sound platform s) (hempty : s.arena.blocks = []) {arena : LorArena}
    (hempty' : arena.blocks = []) : Sound platform { s with arena := arena } := by
  have hframes : frames platform arena = frames platform s.arena := by
    simp only [frames, hempty, hempty']
  refine ⟨?_, ?_, ?_, ?_, h.aligned, h.positive⟩
  · simp [hempty']
  · simp [hempty']
  · exact hframes ▸ h.filed
  · exact hframes ▸ h.marks

theorem Sound.push (h : Sound platform s) (hlegal : os.Legal s.arena) {block : Block}
    {minCapacity : ℕ} (hnew : blockNew platform os s.arena minCapacity = some block)
    (hpos : 0 < minCapacity) :
    Sound platform { s with arena := { s.arena with blocks := block :: s.arena.blocks } } := by
  obtain ⟨hregion, hused, -, hok⟩ := blockNew_spec hnew hpos
  obtain ⟨hle, hapart⟩ := hlegal _ _ hregion
  have hframe : frame platform block = ⟨block.address, dataStart platform block, 0⟩ := by
    simp only [frame, hused]
  refine ⟨?_, ?_, ?_, ?_, h.aligned, h.positive⟩
  · intro b hb
    rcases List.mem_cons.1 hb with rfl | hb
    · exact hok hle
    · exact h.blocks b hb
  · exact List.pairwise_cons.2 ⟨hapart, h.apart⟩
  · change Filed (frame platform block :: frames platform s.arena) s.live
    rw [hframe]
    exact h.filed.push _ _
  · exact h.marks.push

theorem Sound.bump (h : Sound platform s) {block block' : Block} {older : List Block}
    {size p : ℕ} (hblocks : s.arena.blocks = block :: older)
    (halloc : blockAlloc platform os s.arena block size platform.maxAlignment = some (p, block'))
    (hpos : 0 < size) :
    Sound platform { s with
      arena := { s.arena with blocks := block' :: older }, live := ⟨p, size⟩ :: s.live } := by
  have hok := h.blocks block (hblocks ▸ List.mem_cons_self)
  have hok' := blockAlloc_ok hok halloc
  obtain ⟨hp, hend, committed, rfl, hge, hle, -, -⟩ := blockAlloc_spec hok halloc
  have hstart := le_alignUp (dataStart platform block + block.used) platform.maxAlignment
  have hframes : frames platform s.arena = frame platform block :: older.map (frame platform) := by
    simp only [frames, hblocks, List.map_cons]
  have hfiled := h.filed
  have hmarks := h.marks
  have hapart := h.apart
  rw [hframes] at hfiled hmarks
  rw [hblocks] at hapart
  refine ⟨?_, ?_, ?_, ?_, ?_, ?_⟩
  · intro b hb
    rcases List.mem_cons.1 hb with rfl | hb
    · exact hok'
    · exact h.blocks b (hblocks ▸ List.mem_cons_of_mem _ hb)
  · obtain ⟨hhead, htail⟩ := List.pairwise_cons.1 hapart
    exact List.pairwise_cons.2 ⟨fun c hc => hhead c hc, htail⟩
  · apply hfiled.bump
    · change dataStart platform block + block.used ≤ p
      omega
    · change p + size ≤ dataStart platform block + (p + size - dataStart platform block)
      omega
  · apply hmarks.bump
    change block.used ≤ p + size - dataStart platform block
    omega
  · intro q hq
    rcases List.mem_cons.1 hq with rfl | hq
    · change platform.maxAlignment ∣ p
      exact hp ▸ dvd_alignUp platform.maxAlignment_pow
    · exact h.aligned q hq
  · intro q hq
    rcases List.mem_cons.1 hq with rfl | hq
    · exact hpos
    · exact h.positive q hq

theorem Sound.outcome (h : Sound platform s) (hlegal : os.Legal s.arena) {size : ℕ}
    {result : Option ℕ × LorArena} (hpos : 0 < size)
    (hout : Outcome platform os s.arena size platform.maxAlignment result) :
    Sound platform (s.returned size result) := by
  cases hout with
  | refused => exact h
  | newest hblocks halloc => exact h.bump hblocks halloc hpos
  | grown hsize hnew => exact h.push hlegal hnew (Nat.lt_of_lt_of_le hpos hsize)
  | fresh hsize hnew halloc =>
      have hpush := h.push hlegal hnew (Nat.lt_of_lt_of_le hpos hsize)
      exact hpush.bump rfl halloc hpos

theorem Os.Legal.of_empty {arena : LorArena} (h : os.Legal arena) {arena' : LorArena}
    (hempty : arena'.blocks = []) : os.Legal arena' := by
  intro size address hregion
  refine ⟨(h size address hregion).1, ?_⟩
  simp [hempty]

theorem Sound.allocAligned (h : Sound platform s) (hlegal : os.Legal s.arena) (size : ℕ) :
    Sound platform
      (s.returned size (allocAligned platform os s.arena size platform.maxAlignment)) := by
  rcases Nat.eq_zero_or_pos size with hzero | hpos
  · unfold Arena.allocAligned
    rw [if_pos (Or.inl hzero)]
    exact h
  · obtain ⟨arena₀, hready, hout⟩ := allocAligned_cases platform os s.arena size
      platform.maxAlignment
    rcases hready with rfl | ⟨hinit, hempty⟩
    · exact h.outcome hlegal hpos hout
    · have hnone : s.arena.blocks = [] := by simp [hinit, arenaInit]
      have hreturned := (h.of_empty hnone hempty).outcome (hlegal.of_empty hempty) hpos hout
      unfold State.returned at hreturned ⊢
      exact hreturned

theorem Sound.request (h : Sound platform s) (hlegal : os.Legal s.arena) (r : Request) :
    Sound platform (step platform s (.request r os)) := by
  change Sound platform (s.returned r.size (Arena.request platform os s.arena r))
  rcases request_cases platform r with ⟨heq, -⟩ | heq
  · rw [heq]
    exact h
  · rw [heq]
    exact h.allocAligned hlegal r.size

theorem Sound.init (h : Sound platform s) (config : Config) :
    Sound platform (step platform s (.init config)) := by
  change Sound platform { s with arena := (initInternal platform s.arena config).2 }
  rcases initInternal_cases platform s.arena config with
    hfail | ⟨hinit, arena', hok, hempty⟩
  · rw [hfail]
    exact h
  · rw [hok]
    have hnone : s.arena.blocks = [] := by simp [hinit, arenaInit]
    exact h.of_empty hnone hempty

/-- Emptying every block leaves an arena that any marks taken without blocks fit. -/
theorem Sound.clear (h : Sound platform s) {marks : List (Mark × ℕ)}
    (hmarks : ∀ frames, MarksOk frames [] (marks.map stackMark)) :
    Sound platform ⟨reset s.arena, [], marks⟩ := by
  have hframes : frames platform (reset s.arena) =
      (frames platform s.arena).map fun f => { f with used := 0 } := by
    simp only [frames, reset, List.map_map]
    rfl
  refine ⟨?_, ?_, ?_, hmarks _, by simp, by simp⟩
  · intro b hb
    obtain ⟨c, hc, rfl⟩ := List.mem_map.1 hb
    exact (h.blocks c hc).lower (Nat.zero_le _)
  · exact List.pairwise_map.2 h.apart
  · change Filed (frames platform (reset s.arena)) []
    rw [hframes]
    exact filed_nil _

theorem Sound.mark (h : Sound platform s) : Sound platform (step platform s .mark) := by
  refine ⟨h.blocks, h.apart, h.filed, ?_, h.aligned, h.positive⟩
  have hmark := h.marks.mark h.filed
  have heq : stackMark (Arena.mark s.arena, s.live.length) =
      ⟨(frames platform s.arena).head?.map Frame.id,
        ((frames platform s.arena).head?.map Frame.used).getD 0, s.live.length⟩ := by
    unfold Arena.mark frames stackMark
    cases s.arena.blocks <;> rfl
  rw [← heq] at hmark
  exact hmark

theorem rewind_none {arena : LorArena} {m : Mark} (h : m.block = none) :
    rewind arena m = reset arena := by
  unfold rewind reset
  rw [h]

/-- A mark finds its block by releasing the newer ones. -/
theorem rewind_some {arena : LorArena} {m : Mark} {newer older : List Block} {block : Block}
    (hblocks : arena.blocks = newer ++ block :: older) (hmark : m.block = some block.address)
    (hnewer : ∀ b ∈ newer, b.address ≠ block.address) (hused : m.used ≤ block.used) :
    rewind arena m = { arena with blocks := { block with used := m.used } :: older } := by
  have hhas : hasBlock arena block.address = true := by
    simp [hasBlock, hblocks]
  have hdrop : arena.blocks.dropWhile (fun b => b.address != block.address) = block :: older := by
    rw [hblocks, List.dropWhile_append_of_pos]
    · simp
    · simpa using hnewer
  unfold rewind
  simp only [hmark, hhas, hdrop]
  rw [if_neg (by simp), if_neg (Nat.not_lt.2 hused)]

theorem address_ne {b c : Block} {backend : Backend} (hb : BlockOk platform backend b)
    (hc : BlockOk platform backend c) (h : RegionsApart b c) : b.address ≠ c.address := by
  have hbpos := hb.positive
  have hcpos := hc.positive
  unfold RegionsApart at h
  omega

theorem Sound.rewind (h : Sound platform s) {m : Mark} {depth i : ℕ} {older : List (Mark × ℕ)}
    (hdrop : s.marks.drop i = (m, depth) :: older) :
    Sound platform ⟨Arena.rewind s.arena m, keep s.live depth, (m, depth) :: older⟩ := by
  have hmarks := h.marks.drop i
  rw [← List.map_drop, hdrop] at hmarks
  rcases hmarks.rewind with ⟨hframe, hdepth, hok⟩ | ⟨nf, f, of, hsplit, hframe, hused, hfiled, hok⟩
  · change m.block = none at hframe
    change depth = 0 at hdepth
    subst depth
    rw [rewind_none hframe, keep_zero]
    exact h.clear hok
  · unfold frames at hsplit
    obtain ⟨newer, rest, hblocks, rfl, hrest⟩ := List.map_eq_append_iff.1 hsplit
    obtain ⟨block, tail, rfl, rfl, rfl⟩ := List.map_eq_cons_iff.1 hrest
    change m.block = some block.address at hframe
    change m.used ≤ block.used at hused
    have hapart := h.apart
    rw [hblocks] at hapart
    obtain ⟨-, htail, hacross⟩ := List.pairwise_append.1 hapart
    have hmem : ∀ b ∈ block :: tail, b ∈ s.arena.blocks :=
      fun b hb => hblocks ▸ List.mem_append_right _ hb
    have hblock := h.blocks block (hmem block List.mem_cons_self)
    have hnewer : ∀ b ∈ newer, b.address ≠ block.address := fun b hb =>
      address_ne (h.blocks b (hblocks ▸ List.mem_append_left _ hb)) hblock
        (hacross b hb block List.mem_cons_self)
    rw [rewind_some hblocks hframe hnewer hused]
    obtain ⟨hhead, htail⟩ := List.pairwise_cons.1 htail
    have hkeep : ∀ p ∈ keep s.live depth, p ∈ s.live := fun p hp => List.mem_of_mem_drop hp
    refine ⟨?_, ?_, hfiled, hok, fun p hp => h.aligned p (hkeep p hp),
      fun p hp => h.positive p (hkeep p hp)⟩
    · intro b hb
      rcases List.mem_cons.1 hb with rfl | hb
      · exact hblock.lower hused
      · exact h.blocks b (hmem b (List.mem_cons_of_mem _ hb))
    · exact List.pairwise_cons.2 ⟨fun c hc => hhead c hc, htail⟩

theorem Sound.step (h : Sound platform s) {op : Op} (hlegal : op.Legal s) :
    Sound platform (step platform s op) := by
  cases op with
  | init config => exact h.init config
  | request r os => exact h.request hlegal r
  | mark => exact h.mark
  | rewind i =>
      change Sound platform (s.rewound i)
      unfold State.rewound
      cases hdrop : s.marks.drop i with
      | nil => exact h
      | cons m older => exact h.rewind hdrop
  | reset => exact h.clear fun _ => .zero (by simp)
  | deinit =>
      have hempty : Sound platform ⟨reset s.arena, [], []⟩ := h.clear fun _ => .zero (by simp)
      refine ⟨by simp [Arena.step, deinit, arenaInit], by simp [Arena.step, deinit, arenaInit],
        .nil, .zero (by simp [Arena.step]), hempty.aligned, hempty.positive⟩

theorem run_step {ops : List Op} (hrun : Run (system platform) ops s) (op : Op)
    (hlegal : op.Legal s) : Run (system platform) (ops ++ [op]) (step platform s op) :=
  hrun.step ⟨hlegal, rfl⟩

theorem sound_of_reachable (h : Reachable (system platform) s) : Sound platform s := by
  refine h.invariant (P := Sound platform) ?_ ?_
  · intro s hs
    subst hs
    exact ⟨by simp [arenaInit], by simp [arenaInit], .nil, .zero (by simp), by simp, by simp⟩
  · intro s op s' hsound hstep
    obtain ⟨hlegal, rfl⟩ := hstep
    exact hsound.step hlegal

/-- In every reachable state the live allocations are pairwise disjoint and aligned, and each lies
in the data area, and in the committed bytes, of a block that the arena owns. -/
theorem live_allocations_safe (platform : Platform) (s : State)
    (h : Reachable (system platform) s) :
    s.live.Pairwise Apart ∧ ∀ p ∈ s.live, platform.maxAlignment ∣ p.start ∧
      ∃ block ∈ s.arena.blocks, ∃ data, blockData platform block = some data ∧
        data ≤ p.start ∧ p.start + p.size ≤ data + block.capacity ∧
        (s.arena.backend = .virtual →
          block.address ≤ p.start ∧ p.start + p.size ≤ block.address + block.committed) := by
  have hsound := sound_of_reachable h
  refine ⟨hsound.filed.pairwise_apart hsound.frames_apart, ?_⟩
  intro p hp
  obtain ⟨f, hf, hstart, hend⟩ := hsound.filed.inside p hp
  obtain ⟨block, hblock, rfl⟩ := List.mem_map.1 hf
  change dataStart platform block ≤ p.start at hstart
  change p.start + p.size ≤ dataStart platform block + block.used at hend
  have hok := hsound.blocks block hblock
  have hused := hok.used_le
  have hpos := hsound.positive p hp
  refine ⟨hsound.aligned p hp, block, hblock, _, hok.data, hstart, by omega, ?_⟩
  intro hvirtual
  have hcommitted := hok.used_committed hvirtual (by omega)
  have haddress := address_le_dataStart platform block
  omega

/-- A 64-bit Linux target. -/
def lp64 : Platform where
  maxAlignment := 16
  dataOffset := 40
  pageSize := 4096
  maxAlignment_pow := ⟨4, rfl⟩
  slack_le := by decide
  pageSize_le := by decide

/-- A system that grants one region of each kind at this address and every commit. -/
def osAt (address : ℕ) : Os where
  malloc size := if address + size ≤ uintptrMax then some address else none
  reserveRaw size := if address + size ≤ uintptrMax then some address else none
  commitRaw _ _ := true

theorem osAt_legal {address : ℕ} {arena : LorArena} (hpos : 0 < address)
    (h : ∀ block ∈ arena.blocks, block.address + block.allocationSize ≤ address) :
    (osAt address).Legal arena := by
  intro size a hregion
  have heq : address + size ≤ uintptrMax ∧ address = a := by
    simpa [osAt] using hregion
  obtain ⟨hle, rfl⟩ := heq
  exact ⟨⟨hpos, by omega⟩, fun block hb => Or.inr (h block hb)⟩

/-- Two allocations in a virtual arena, the second after a mark. -/
theorem live_allocations_safe_marked :
    let s := step lp64 (step lp64 (step lp64 (step lp64 ⟨arenaInit, [], []⟩
      (.init ⟨.virtual, 0, 0, 0⟩)) (.request (.alloc 100) (osAt 4096))) .mark)
      (.request (.allocArray 3 8) (osAt (2 ^ 30)))
    s.live = [⟨4256, 24⟩, ⟨4144, 100⟩] ∧ s.live.Pairwise Apart := by
  intro s
  have h₀ : Run (system lp64) [] ⟨arenaInit, [], []⟩ := .start rfl
  have h₁ := run_step h₀ (.init ⟨.virtual, 0, 0, 0⟩) trivial
  have h₂ := run_step h₁ (.request (.alloc 100) (osAt 4096)) (osAt_legal (by decide) (by decide))
  have h₃ := run_step h₂ .mark trivial
  have h₄ :=
    run_step h₃ (.request (.allocArray 3 8) (osAt (2 ^ 30))) (osAt_legal (by decide) (by decide))
  exact ⟨by decide, (live_allocations_safe lp64 s ⟨_, h₄⟩).1⟩

end Liblor.Arena
