import Liblor.ScratchModel

/-!
# What a scratch scope leaves behind

Each of the two arenas of a thread is an arena with marks by itself, since its scopes close in the
reverse order in which they began. So a scope gives back what has been allocated in its arena since
it began, and nothing that has been allocated in the other one.
-/

namespace Liblor.Arena.Scratch

open BumpStack Transition

variable {platform : Platform} {os : Os} {s s' : State} {arena arena' : LorArena}

/-! ## Regions -/

/-- The blocks of the second arena are blocks of the first one. -/
def Within (arena arena' : LorArena) : Prop :=
  ∀ block' ∈ arena'.blocks, ∃ block ∈ arena.blocks,
    block'.address = block.address ∧ block'.allocationSize = block.allocationSize

theorem within_reset (arena : LorArena) : Within arena (reset arena) := by
  intro block hblock
  obtain ⟨old, hold, rfl⟩ := List.mem_map.1 hblock
  exact ⟨old, hold, rfl, rfl⟩

theorem within_rewind (arena : LorArena) (m : Mark) : Within arena (rewind arena m) := by
  unfold rewind
  cases hm : m.block with
  | none => exact within_reset arena
  | some target =>
    dsimp only
    split_ifs with hhas
    · exact fun block hblock => ⟨block, hblock, rfl, rfl⟩
    · cases hdrop : arena.blocks.dropWhile fun block => block.address != target with
      | nil =>
        intro block hblock
        cases hblock
      | cons top older =>
        have hold : ∀ block ∈ top :: older, block ∈ arena.blocks := fun block hblock =>
          (List.dropWhile_sublist _).mem (hdrop ▸ hblock)
        dsimp only
        split_ifs with hused
        · exact fun block hblock => ⟨block, hold block hblock, rfl, rfl⟩
        · intro block hblock
          rcases List.mem_cons.1 hblock with rfl | hblock
          · exact ⟨top, hold top List.mem_cons_self, rfl, rfl⟩
          · exact ⟨block, hold block (List.mem_cons_of_mem _ hblock), rfl, rfl⟩

/-- Each block is in the region of a block of the arena or in one that the system has handed out. -/
def Supplied (os : Os) (arena arena' : LorArena) : Prop :=
  ∀ block' ∈ arena'.blocks,
    (∃ block ∈ arena.blocks,
      block'.address = block.address ∧ block'.allocationSize = block.allocationSize) ∨
    os.malloc block'.allocationSize = some block'.address ∨
      os.reserveRaw block'.allocationSize = some block'.address

theorem Supplied.refl (os : Os) (arena : LorArena) : Supplied os arena arena :=
  fun block hblock => Or.inl ⟨block, hblock, rfl, rfl⟩

theorem Supplied.outcome (hchain : Chain platform arena) (hlegal : os.Legal arena) {size : ℕ}
    (hpos : 0 < size) {result : Option ℕ × LorArena}
    (hout : Outcome platform os arena size platform.maxAlignment result) :
    Supplied os arena result.2 := by
  have hold : ∀ block ∈ arena.blocks, ∃ old ∈ arena.blocks,
      block.address = old.address ∧ block.allocationSize = old.allocationSize :=
    fun block hblock => ⟨block, hblock, rfl, rfl⟩
  cases hout with
  | refused => exact Supplied.refl os arena
  | @newest block block' older p hblocks halloc =>
    obtain ⟨-, -, committed, rfl, -⟩ :=
      blockAlloc_spec (hchain.blocks block (hblocks ▸ List.mem_cons_self)) halloc
    intro b hb
    rcases List.mem_cons.1 hb with rfl | hb
    · exact Or.inl (hold block (hblocks ▸ List.mem_cons_self))
    · exact Or.inl (hold b (hblocks ▸ List.mem_cons_of_mem _ hb))
  | grown hsize hnew =>
    intro b hb
    rcases List.mem_cons.1 hb with rfl | hb
    · exact Or.inr (blockNew_spec hnew (Nat.lt_of_lt_of_le hpos hsize)).1
    · exact Or.inl (hold b hb)
  | fresh hsize hnew halloc =>
    obtain ⟨hregion, -, -, hok⟩ := blockNew_spec hnew (Nat.lt_of_lt_of_le hpos hsize)
    obtain ⟨-, -, committed, rfl, -⟩ := blockAlloc_spec (hok (hlegal _ _ hregion).1) halloc
    intro b hb
    rcases List.mem_cons.1 hb with rfl | hb
    · exact Or.inr hregion
    · exact Or.inl (hold b hb)

theorem supplied_request (hchain : Chain platform arena) (hlegal : os.Legal arena) (r : Request) :
    Supplied os arena (Arena.request platform os arena r).2 := by
  rcases request_cases platform r with ⟨heq, -⟩ | heq
  · rw [heq]
    exact Supplied.refl os arena
  rw [heq]
  rcases Nat.eq_zero_or_pos r.size with hzero | hpos
  · unfold allocAligned
    rw [if_pos (Or.inl hzero)]
    exact Supplied.refl os arena
  obtain ⟨arena₀, hready, hout⟩ := allocAligned_cases platform os arena r.size platform.maxAlignment
  rcases hready with rfl | ⟨hinit, hempty⟩
  · exact Supplied.outcome hchain hlegal hpos hout
  · have hchain₀ : Chain platform arena₀ := ⟨by simp [hempty], by simp [hempty]⟩
    have hsupplied := Supplied.outcome hchain₀ (hlegal.of_empty hempty) hpos hout
    intro block hblock
    rcases hsupplied block hblock with ⟨old, hold, -⟩ | hregion
    · rw [hempty] at hold
      cases hold
    · exact Or.inr hregion

/-- The blocks of two arenas are apart. -/
def ArenasApart (arena other : LorArena) : Prop :=
  ∀ block ∈ arena.blocks, ∀ block' ∈ other.blocks, RegionsApart block block'

theorem ArenasApart.symm {other : LorArena} (h : ArenasApart arena other) :
    ArenasApart other arena :=
  fun block hblock block' hblock' => (h block' hblock' block hblock).symm

theorem ArenasApart.within {other : LorArena} (h : ArenasApart arena other)
    (hwithin : Within arena arena') : ArenasApart arena' other := by
  intro block hblock block' hblock'
  obtain ⟨old, hold, haddress, hsize⟩ := hwithin block hblock
  have hapart := h old hold block' hblock'
  unfold RegionsApart at hapart ⊢
  rwa [haddress, hsize]

theorem ArenasApart.supplied {other : LorArena} (h : ArenasApart arena other)
    (hlegal : os.Legal other) (hsupplied : Supplied os arena arena') :
    ArenasApart arena' other := by
  intro block hblock block' hblock'
  rcases hsupplied block hblock with ⟨old, hold, haddress, hsize⟩ | hregion
  · have hapart := h old hold block' hblock'
    unfold RegionsApart at hapart ⊢
    rwa [haddress, hsize]
  · exact (hlegal _ _ hregion).2 block' hblock'

/-! ## Each arena by itself -/

/-- The marks of the open scopes, each with the number of what was live then. -/
def tracked (scopes : List Scope) : List (Mark × ℕ) :=
  scopes.map fun scope => (scope.mark, scope.kept.length)

/-- What the open scopes of an arena began with lies below what it has now. -/
def Bases : List Scope → LorArena → Prop
  | [], _ => True
  | scope :: scopes, arena =>
    scope.mark = mark scope.base ∧ Above scope.base arena ∧ Bases scopes scope.base

/-- What was live when a scope began has stayed so. -/
def Kept : List Scope → List Piece → Prop
  | [], _ => True
  | scope :: scopes, live => scope.kept <:+ live ∧ Kept scopes scope.kept

/-- The arena has been driven as any other one is, and its scopes are in order. -/
structure InOrder (platform : Platform) (arena : LorArena) (live : List Piece)
    (scopes : List Scope) : Prop where
  driven : ∃ marks, Reachable (system platform) ⟨arena, live, marks⟩ ∧
    (tracked scopes).Sublist marks
  bases : Bases scopes arena
  kept : Kept scopes live

structure Sound (platform : Platform) (s : State) : Prop where
  each : ∀ i, InOrder platform (s.arenas.arena i) (s.live i) (s.scopes i)
  fresh : ∀ i, s.arenas.inited i = false → s.arenas.arena i = arenaInit ∧ s.scopes i = []
  apart : ∀ i j, i ≠ j → ArenasApart (s.arenas.arena i) (s.arenas.arena j)

section InOrder

variable {live : List Piece} {scope : Scope} {scopes : List Scope}

theorem Bases.imp (h : Bases scopes arena)
    (himp : ∀ older, Above older arena → Above older arena') : Bases scopes arena' := by
  cases scopes with
  | nil => trivial
  | cons scope scopes => exact ⟨h.1, himp _ h.2.1, h.2.2⟩

theorem Kept.append (h : Kept scopes live) (newer : List Piece) : Kept scopes (newer ++ live) := by
  cases scopes with
  | nil => trivial
  | cons scope scopes => exact ⟨h.1.trans (List.suffix_append _ _), h.2⟩

theorem keep_of_suffix {kept : List Piece} (h : kept <:+ live) : keep live kept.length = kept :=
  (List.suffix_iff_eq_drop.1 h).symm

/-- Where the first of some chosen elements stands. -/
theorem drop_of_cons_sublist {α : Type*} {a : α} {l l' : List α} (h : (a :: l).Sublist l') :
    ∃ k older, l'.drop k = a :: older ∧ l.Sublist older := by
  induction l' with
  | nil => cases h
  | cons b l' ih =>
    cases h with
    | cons _ h =>
      obtain ⟨k, older, hdrop, hl⟩ := ih h
      exact ⟨k + 1, older, hdrop, hl⟩
    | cons_cons _ h => exact ⟨0, l', rfl, h⟩

theorem InOrder.chain (h : InOrder platform arena live scopes) : Chain platform arena := by
  obtain ⟨marks, hreachable, -⟩ := h.driven
  exact (sound_of_reachable hreachable).chain

theorem inOrder_init (platform : Platform) : InOrder platform arenaInit [] [] :=
  ⟨⟨[], ⟨[], .start rfl⟩, .slnil⟩, trivial, trivial⟩

theorem initInternal_scratch (platform : Platform) :
    initInternal platform arenaInit scratchConfig = (true, configured scratchConfig) := rfl

theorem InOrder.configure (h : InOrder platform arenaInit live scopes) :
    InOrder platform (configured scratchConfig) live scopes := by
  obtain ⟨marks, ⟨ops, hrun⟩, htracked⟩ := h.driven
  refine ⟨⟨marks, ⟨_, run_step hrun (.init scratchConfig) trivial⟩, htracked⟩, ?_, h.kept⟩
  apply h.bases.imp
  intro older habove
  cases habove with
  | empty hempty => exact .empty hempty
  | grown newer hblocks hused hcommitted harena =>
    have hnil := congrArg LorArena.blocks harena
    simp [arenaInit] at hnil

theorem InOrder.mark (h : InOrder platform arena live scopes) :
    InOrder platform arena live (⟨Arena.mark arena, arena, live⟩ :: scopes) := by
  obtain ⟨marks, ⟨ops, hrun⟩, htracked⟩ := h.driven
  exact ⟨⟨_, ⟨_, run_step hrun .mark trivial⟩, htracked.cons_cons _⟩,
    ⟨rfl, Above.refl arena, h.bases⟩, List.suffix_refl _, h.kept⟩

theorem InOrder.request (h : InOrder platform arena live scopes) (hlegal : os.Legal arena)
    (r : Request) :
    InOrder platform (Arena.request platform os arena r).2
      (((Arena.request platform os arena r).1.toList.map fun start => ⟨start, r.size⟩) ++ live)
      scopes := by
  obtain ⟨marks, ⟨ops, hrun⟩, htracked⟩ := h.driven
  have hstep := run_step hrun (.request r os) hlegal
  refine ⟨⟨marks, ?_, htracked⟩, h.bases.imp fun older habove => habove.request h.chain r,
    h.kept.append _⟩
  change Run _ _ (Arena.State.returned _ r.size (Arena.request platform os arena r)) at hstep
  cases hresult : Arena.request platform os arena r with
  | mk result arena' =>
    rw [hresult] at hstep
    cases result <;> exact ⟨_, hstep⟩

theorem InOrder.finish (h : InOrder platform arena live (scope :: scopes)) :
    InOrder platform (rewind arena scope.mark) (keep live scope.kept.length) scopes := by
  obtain ⟨marks, ⟨ops, hrun⟩, htracked⟩ := h.driven
  obtain ⟨hmark, habove, hbases⟩ := h.bases
  obtain ⟨k, older, hdrop, htracked⟩ := drop_of_cons_sublist htracked
  have hk : k < marks.length := by
    by_contra hge
    rw [List.drop_eq_nil_of_le (Nat.not_lt.1 hge)] at hdrop
    cases hdrop
  have hstep := run_step hrun (.rewind k) hk
  change Run _ _ (Arena.State.rewound _ k) at hstep
  unfold Arena.State.rewound at hstep
  simp only [hdrop] at hstep
  refine ⟨⟨_, ⟨_, hstep⟩, htracked.cons _⟩, ?_, ?_⟩
  · rw [hmark]
    exact hbases.imp fun older holder => holder.rewind h.chain habove
  · rw [keep_of_suffix h.kept.1]
    exact h.kept.2

end InOrder

/-! ## Both arenas -/

theorem Sound.update (h : Sound platform s) (i : Fin 2) {live : List Piece} {scopes : List Scope}
    (inited : Fin 2 → Bool) (hi : InOrder platform arena live scopes)
    (hinited : ∀ j, inited j = false → j ≠ i ∧ s.arenas.inited j = false)
    (hapart : ∀ j, j ≠ i → ArenasApart arena (s.arenas.arena j)) :
    Sound platform ⟨⟨Function.update s.arenas.arena i arena, inited⟩,
      Function.update s.live i live, Function.update s.scopes i scopes⟩ where
  each j := by
    by_cases hj : j = i
    · subst j
      simpa only [Function.update_self] using hi
    · simpa only [Function.update_of_ne hj] using h.each j
  fresh j hfalse := by
    obtain ⟨hj, hold⟩ := hinited j hfalse
    simpa only [Function.update_of_ne hj] using h.fresh j hold
  apart j k hne := by
    by_cases hj : j = i
    · subst j
      simpa only [Function.update_self, Function.update_of_ne hne.symm] using hapart k hne.symm
    by_cases hk : k = i
    · subst k
      simpa only [Function.update_self, Function.update_of_ne hne] using (hapart j hne).symm
    · simpa only [Function.update_of_ne hj, Function.update_of_ne hk] using h.apart j k hne

theorem scratchBegin_cases (h : Sound platform s) (conflict : Option (Fin 2)) :
    ∃ i arena, conflict ≠ some i ∧
      (arena = s.arenas.arena i ∨
        s.arenas.inited i = false ∧ arena = configured scratchConfig) ∧
      scratchBegin platform conflict s.arenas =
        (some (i, mark arena), ⟨Function.update s.arenas.arena i arena,
          Function.update s.arenas.inited i true⟩) := by
  have hhere : ∀ i is, conflict ≠ some i → ∃ arena,
      (arena = s.arenas.arena i ∨
        s.arenas.inited i = false ∧ arena = configured scratchConfig) ∧
      beginLoop platform conflict s.arenas (i :: is) =
        (some (i, mark arena), ⟨Function.update s.arenas.arena i arena,
          Function.update s.arenas.inited i true⟩) := by
    intro i is hconflict
    unfold beginLoop
    rw [if_neg hconflict]
    cases hinited : s.arenas.inited i with
    | false =>
      refine ⟨configured scratchConfig, Or.inr ⟨rfl, rfl⟩, ?_⟩
      rw [if_pos rfl, (h.fresh i hinited).1, initInternal_scratch]
    | true =>
      refine ⟨s.arenas.arena i, Or.inl rfl, ?_⟩
      rw [if_neg Bool.true_eq_false_eq_False, Function.update_eq_self, ← hinited,
        Function.update_eq_self]
  by_cases hzero : conflict = some 0
  · obtain ⟨arena, harena, heq⟩ := hhere 1 [] (by simp [hzero])
    refine ⟨1, arena, by simp [hzero], harena, ?_⟩
    unfold scratchBegin beginLoop
    rw [if_pos hzero, heq]
  · obtain ⟨arena, harena, heq⟩ := hhere 0 [1] hzero
    exact ⟨0, arena, hzero, harena, heq⟩

theorem Sound.begin (h : Sound platform s) (conflict : Option (Fin 2)) :
    Sound platform (s.began (scratchBegin platform conflict s.arenas)) := by
  obtain ⟨i, arena, -, harena, heq⟩ := scratchBegin_cases h conflict
  rw [heq]
  have hi : InOrder platform arena (s.live i) (s.scopes i) ∧
      ∀ j, j ≠ i → ArenasApart arena (s.arenas.arena j) := by
    rcases harena with rfl | ⟨hinited, rfl⟩
    · exact ⟨h.each i, fun j hj => h.apart i j hj.symm⟩
    · have hnone := h.each i
      rw [(h.fresh i hinited).1] at hnone
      refine ⟨hnone.configure, fun j hj block hblock => ?_⟩
      cases hblock
  have hupdate := h.update i (Function.update s.arenas.inited i true) hi.1.mark
    (fun j hfalse => ?_) hi.2
  · unfold State.began
    dsimp only
    rw [Function.update_eq_self] at hupdate
    rwa [Function.update_self]
  · by_cases hj : j = i
    · subst j
      rw [Function.update_self] at hfalse
      cases hfalse
    · rw [Function.update_of_ne hj] at hfalse
      exact ⟨hj, hfalse⟩

theorem Sound.request (h : Sound platform s) {i : Fin 2} (hinited : s.arenas.inited i = true)
    (hlegal : ∀ j, os.Legal (s.arenas.arena j)) (r : Request) :
    Sound platform (s.returned i r.size (Arena.request platform os (s.arenas.arena i) r)) := by
  have hupdate := h.update i s.arenas.inited ((h.each i).request (hlegal i) r)
    (fun j hfalse => ⟨fun hj => ?_, hfalse⟩) fun j hj =>
      (h.apart i j hj.symm).supplied (hlegal j)
        (supplied_request (h.each i).chain (hlegal i) r)
  · rwa [Function.update_eq_self] at hupdate
  · subst j
    rw [hinited] at hfalse
    cases hfalse

theorem Sound.finish (h : Sound platform s) {i : Fin 2} {scope : Scope} {scopes : List Scope}
    (hscopes : s.scopes i = scope :: scopes) : Sound platform (s.finished i scope scopes) := by
  have hi := h.each i
  rw [hscopes] at hi
  refine h.update i s.arenas.inited hi.finish (fun j hfalse => ⟨fun hj => ?_, hfalse⟩) fun j hj =>
    (h.apart i j hj.symm).within (within_rewind _ _)
  subst j
  have hnone := (h.fresh i hfalse).2
  rw [hscopes] at hnone
  cases hnone

theorem cleanupLoop_spec (is : List (Fin 2)) {arenas : Arenas}
    (hfresh : ∀ i, arenas.inited i = false → arenas.arena i = arenaInit) :
    (∀ i, (cleanupLoop arenas is).inited i = false →
      (cleanupLoop arenas is).arena i = arenaInit) ∧
    (∀ i, arenas.inited i = false → (cleanupLoop arenas is).inited i = false) ∧
    ∀ i ∈ is, (cleanupLoop arenas is).inited i = false := by
  induction is generalizing arenas with
  | nil => exact ⟨hfresh, fun i hi => hi, by simp⟩
  | cons i is ih =>
    unfold cleanupLoop
    split_ifs with hinited
    · have hstep : ∀ j, j = i ∨ arenas.inited j = false →
          Function.update arenas.inited i false j = false := by
        rintro j (rfl | hj)
        · rw [Function.update_self]
        · by_cases hji : j = i
          · rw [hji, Function.update_self]
          · rwa [Function.update_of_ne hji]
      let released : Arenas := ⟨Function.update arenas.arena i (deinit (arenas.arena i)),
        Function.update arenas.inited i false⟩
      have hfresh' : ∀ j, released.inited j = false → released.arena j = arenaInit := by
        intro j hfalse
        change Function.update arenas.inited i false j = false at hfalse
        change Function.update arenas.arena i (deinit (arenas.arena i)) j = arenaInit
        by_cases hji : j = i
        · rw [hji, Function.update_self, deinit]
        · rw [Function.update_of_ne hji] at hfalse ⊢
          exact hfresh j hfalse
      obtain ⟨harena, hkeeps, hall⟩ := ih hfresh'
      refine ⟨harena, fun j hj => hkeeps j (hstep j (Or.inr hj)), fun j hj => ?_⟩
      rcases List.mem_cons.1 hj with hj | hj
      · exact hkeeps j (hstep j (Or.inl hj))
      · exact hall j hj
    · obtain ⟨harena, hkeeps, hall⟩ := ih hfresh
      refine ⟨harena, hkeeps, fun j hj => ?_⟩
      rcases List.mem_cons.1 hj with rfl | hj
      · exact hkeeps j (Bool.eq_false_of_not_eq_true hinited)
      · exact hall j hj

theorem Sound.cleanup (h : Sound platform s) :
    Sound platform ⟨scratchCleanup s.arenas, fun _ => [], fun _ => []⟩ := by
  obtain ⟨harena, -, hall⟩ := cleanupLoop_spec [0, 1] fun i hi => (h.fresh i hi).1
  have hinit : ∀ i, (scratchCleanup s.arenas).arena i = arenaInit := fun i =>
    harena i (hall i (by fin_cases i <;> simp))
  refine ⟨fun i => ?_, fun i _ => ⟨hinit i, rfl⟩, fun i j _ block hblock => ?_⟩
  · change InOrder platform ((scratchCleanup s.arenas).arena i) [] []
    rw [hinit i]
    exact inOrder_init platform
  · rw [hinit i] at hblock
    cases hblock

theorem Sound.step (h : Sound platform s) {e : Event} (hstep : Step platform s e s') :
    Sound platform s' := by
  cases hstep with
  | begin conflict => exact h.begin conflict
  | request r hinited hlegal => exact h.request hinited hlegal r
  | finish hscopes => exact h.finish hscopes
  | cleanup hscopes => exact h.cleanup

theorem scratch_sound (h : Reachable (scratch platform) s) : Sound platform s := by
  refine h.invariant (P := Sound platform) ?_ fun s e s' hs hstep => hs.step hstep
  intro s hs
  subst hs
  refine ⟨fun i => inOrder_init platform, fun i _ => ⟨rfl, rfl⟩, fun i j _ block hblock => ?_⟩
  cases hblock

/-! ## What a scope promises -/

theorem InOrder.inside {live : List Piece} {scopes : List Scope}
    (h : InOrder platform arena live scopes) : live.Pairwise Apart ∧
    ∀ p ∈ live, platform.maxAlignment ∣ p.start ∧ ∃ block ∈ arena.blocks,
      block.address + platform.dataOffset ≤ p.start ∧
        p.start + p.size ≤ block.address + block.allocationSize := by
  obtain ⟨marks, hreachable, -⟩ := h.driven
  obtain ⟨hapart, hsafe⟩ := live_allocations_safe platform _ hreachable
  refine ⟨hapart, fun p hp => ?_⟩
  obtain ⟨haligned, block, hblock, data, hdata, hstart, hend, -⟩ := hsafe p hp
  have hok := h.chain.blocks block hblock
  rw [hok.data] at hdata
  obtain rfl := Option.some.inj hdata
  have hoffset := le_alignUp (block.address + platform.dataOffset) platform.maxAlignment
  exact ⟨haligned, block, hblock, hoffset.trans hstart, hend.trans hok.data_end⟩

/-- In every reachable state what is live in the two arenas is aligned, lies behind the header of a
block of its own arena and is pairwise apart, also across the arenas. -/
theorem scratch_memory_safe (platform : Platform) (s : State)
    (h : Reachable (scratch platform) s) :
    (s.live 0 ++ s.live 1).Pairwise Apart ∧
    ∀ i, ∀ p ∈ s.live i, platform.maxAlignment ∣ p.start ∧ ∃ block ∈ (s.arenas.arena i).blocks,
      block.address + platform.dataOffset ≤ p.start ∧
        p.start + p.size ≤ block.address + block.allocationSize := by
  have hsound := scratch_sound h
  refine ⟨List.pairwise_append.2 ⟨(hsound.each 0).inside.1, (hsound.each 1).inside.1, ?_⟩,
    fun i => (hsound.each i).inside.2⟩
  intro p hp q hq
  obtain ⟨-, b, hb, hbstart, hbend⟩ := (hsound.each 0).inside.2 p hp
  obtain ⟨-, c, hc, hcstart, hcend⟩ := (hsound.each 1).inside.2 q hq
  have hregions := hsound.apart 0 1 (by decide) b hb c hc
  unfold RegionsApart at hregions
  unfold Apart
  omega

/-- Two allocations, one in each arena. -/
theorem scratch_memory_safe_both :
    let start : State := ⟨⟨fun _ => arenaInit, fun _ => false⟩, fun _ => [], fun _ => []⟩
    let outer := start.began (scratchBegin lp64 none start.arenas)
    let inner := outer.began (scratchBegin lp64 (some 0) outer.arenas)
    let asked := inner.returned 1 50 (request lp64 (osAt 4096) (inner.arenas.arena 1) (.alloc 50))
    let filled := asked.returned 0 100
      (request lp64 (osAt (2 ^ 30)) (asked.arenas.arena 0) (.alloc 100))
    (filled.live 0).length = 1 ∧ (filled.live 1).length = 1 ∧
      (filled.live 0 ++ filled.live 1).Pairwise Apart := by
  intro start outer inner asked filled
  have h₀ : Run (scratch lp64) [] start := .start rfl
  have h₂ := (h₀.step (Step.begin none)).step (Step.begin (some 0))
  have hasked : Step lp64 inner _ asked :=
    .request (.alloc 50) (by decide) fun j => osAt_legal (by decide) (by fin_cases j <;> decide)
  have hfilled : Step lp64 asked _ filled :=
    .request (.alloc 100) (by decide) fun j => osAt_legal (by decide) (by fin_cases j <;> decide)
  exact ⟨by decide, by decide,
    (scratch_memory_safe lp64 filled ⟨_, (h₂.step hasked).step hfilled⟩).1⟩

/-- A scope from its beginning to its end, whatever happens in both arenas while it is open. The
arena that it borrows is not the one in conflict and is afterwards as it was when the scope began.
The other arena keeps what it has got meanwhile. -/
theorem scratch_scope (platform : Platform) (s s₁ : State) (conflict result : Option (Fin 2))
    (h : Reachable (scratch platform) s) (hbegin : Step platform s (.begin conflict result) s₁) :
    ∃ i, result = some i ∧ conflict ≠ some i ∧
      ∀ es s₂ s₃, Steps (scratch platform) s₁ es s₂ → s₂.scopes i = s₁.scopes i →
        Step platform s₂ (.finish i) s₃ →
        misuses (s₂.arenas.arena i) (mark (s₁.arenas.arena i)) = false ∧
        Restores (s₁.arenas.arena i) (s₃.arenas.arena i) ∧
        s₃.live i = s.live i ∧ s₃.scopes i = s.scopes i ∧
        ∀ j, j ≠ i → s₃.arenas.arena j = s₂.arenas.arena j ∧ s₃.live j = s₂.live j := by
  have hsound := scratch_sound h
  cases hbegin with
  | begin =>
    obtain ⟨i, arena, hconflict, -, heq⟩ := scratchBegin_cases hsound conflict
    have hopened := hsound.begin conflict
    rw [heq] at hopened ⊢
    refine ⟨i, rfl, hconflict, ?_⟩
    intro es s₂ s₃ hsteps hopen hfinish
    have hsound₂ := hsteps.invariant (P := Sound platform) (fun _ _ _ hs => hs.step) hopened
    have hi := hsound₂.each i
    simp only [State.began, Function.update_self] at hopen ⊢
    cases hfinish with
    | finish hscopes =>
      rw [hscopes] at hopen
      obtain ⟨rfl, rfl⟩ := List.cons.inj hopen
      rw [hscopes] at hi
      obtain ⟨-, habove, -⟩ := hi.bases
      refine ⟨habove.misuses_eq hi.chain, ?_, ?_, ?_, fun j hj => ?_⟩
      · simpa only [State.finished, scratchEnd, Function.update_self] using habove.restores hi.chain
      · simpa only [State.finished, Function.update_self] using keep_of_suffix hi.kept.1
      · simp only [State.finished, Function.update_self]
      · simp only [State.finished, scratchEnd, Function.update_of_ne hj, and_self]

/-- A helper that allocates in the arena that it borrows, and its result in the other one. -/
theorem scratch_scope_result :
    let start : State := ⟨⟨fun _ => arenaInit, fun _ => false⟩, fun _ => [], fun _ => []⟩
    let outer := start.began (scratchBegin lp64 none start.arenas)
    let inner := outer.began (scratchBegin lp64 (some 0) outer.arenas)
    let asked := inner.returned 1 50 (request lp64 (osAt 4096) (inner.arenas.arena 1) (.alloc 50))
    let filled := asked.returned 0 100
      (request lp64 (osAt (2 ^ 30)) (asked.arenas.arena 0) (.alloc 100))
    (filled.live 0).length = 1 ∧ (filled.live 1).length = 1 ∧
    ∀ s₃, Step lp64 filled (.finish 1) s₃ → s₃.live 1 = [] ∧ s₃.live 0 = filled.live 0 := by
  intro start outer inner asked filled
  have h₀ : Run (scratch lp64) [] start := .start rfl
  have h₁ := h₀.step (Step.begin none)
  have hasked : Step lp64 inner _ asked :=
    .request (.alloc 50) (by decide) fun j => osAt_legal (by decide) (by fin_cases j <;> decide)
  have hfilled : Step lp64 asked _ filled :=
    .request (.alloc 100) (by decide) fun j => osAt_legal (by decide) (by fin_cases j <;> decide)
  refine ⟨by decide, by decide, fun s₃ hfinish => ?_⟩
  obtain ⟨i, hi, -, hscope⟩ := scratch_scope lp64 outer inner (some 0) (some 1) ⟨_, h₁⟩
    (Step.begin (some 0))
  obtain rfl := Option.some.inj hi
  obtain ⟨-, -, hlive, -, hother⟩ := hscope _ filled s₃
    ((Steps.single hasked).step hfilled) rfl hfinish
  exact ⟨hlive, (hother 0 (by decide)).2⟩

end Liblor.Arena.Scratch
