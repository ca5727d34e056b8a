import Liblor.ArenaReplay
import Liblor.LeakLive

/-!
# What a call does to the record table

Every call answers and keeps the records of the heap blocks and of the mappings exact. Whether the
arena records stay exact too is said for each call.
-/

namespace Liblor.Leak

open Arena (Configured)

variable {platform : Arena.Platform} {arenaSize : ℕ} {world world' : World} {arenas : List ℕ}
  {ptr size answer node arena : ℕ}

structure World.Ok (world : World) : Prop where
  heap : (world.heap.map Prod.fst).Nodup
  maps : (world.maps.map Prod.fst).Nodup
  arenas : ∀ x ∈ world.arenas, Configured x.2

/-- The table has the live blocks and mappings, and records of these arenas. -/
structure Tracked (world : World) (arenas : List ℕ) : Prop where
  ok : world.Ok
  recorded : Recorded world.table world.heap arenas world.maps

/-- The call answers, and if the arena records were exact before it then they are afterwards under
the condition and only then. -/
def Settled (world : World) (arenas : List ℕ) (careful : Prop) (result : Option World) : Prop :=
  ∃ world' arenas', result = some world' ∧ Tracked world' arenas' ∧
    (arenas.Perm (liveArenas world) → (arenas'.Perm (liveArenas world') ↔ careful))

theorem Settled.keep (h : Tracked world' arenas)
    (hlive : (liveArenas world').Perm (liveArenas world)) :
    Settled world arenas True (some world') :=
  ⟨world', arenas, rfl, h, fun hperm => iff_of_true (hperm.trans hlive.symm) trivial⟩

theorem Settled.gain (h : Tracked world' (arena :: arenas))
    (hlive : (liveArenas world').Perm (arena :: liveArenas world)) :
    Settled world arenas True (some world') :=
  ⟨world', arena :: arenas, rfl, h, fun hperm =>
    iff_of_true ((hperm.cons arena).trans hlive.symm) trivial⟩

theorem Settled.refl (h : Tracked world arenas) : Settled world arenas True (some world) :=
  Settled.keep h (List.Perm.refl _)

theorem Settled.of_careful {careful : Prop} {result : Option World}
    (h : Settled world arenas True result) (hcareful : careful) :
    Settled world arenas careful result := by
  rw [iff_true_intro hcareful]
  exact h

section Shift

variable {shift : ℕ → ℕ} {moves : ℕ → Prop} [DecidablePred moves] {d : ℤ} {l : List ℕ}

theorem sum_shift (hmoves : ∀ a ∈ l, moves a → (shift a : ℤ) = a + d)
    (hstays : ∀ a ∈ l, ¬moves a → shift a = a) :
    ((l.map shift).map ((↑) : ℕ → ℤ)).sum =
      (l.map ((↑) : ℕ → ℤ)).sum + d * (l.countP fun a => moves a : ℕ) := by
  induction l with
  | nil => simp
  | cons a l ih =>
    have hrest := ih (fun b hb => hmoves b (List.mem_cons_of_mem _ hb))
      fun b hb => hstays b (List.mem_cons_of_mem _ hb)
    have hmove := hmoves a List.mem_cons_self
    have hstay := hstays a List.mem_cons_self
    simp only [List.map_cons, List.sum_cons, hrest, List.countP_cons]
    by_cases ha : moves a
    · simp only [hmove ha, ha, decide_true, if_true, Nat.cast_add, Nat.cast_one]
      ring
    · simp only [hstay ha, ha, decide_false, Bool.false_eq_true, if_false, Nat.add_zero]
      ring

/-- Moving some numbers of a list by a distance does not give the numbers of the list again. -/
theorem perm_shift_iff (hd : d ≠ 0) (hmoves : ∀ a ∈ l, moves a → (shift a : ℤ) = a + d)
    (hstays : ∀ a ∈ l, ¬moves a → shift a = a) :
    l.Perm (l.map shift) ↔ ∀ a ∈ l, ¬moves a := by
  constructor
  · intro hperm a ha hmove
    have hsame := (hperm.map ((↑) : ℕ → ℤ)).sum_eq
    have htotal := sum_shift hmoves hstays
    have hcount : d * (l.countP fun a => moves a : ℕ) = 0 := by omega
    have hzero : (l.countP fun a => moves a) = 0 := by
      rcases mul_eq_zero.1 hcount with hzero | hzero
      · exact absurd hzero hd
      · exact_mod_cast hzero
    rw [List.countP_eq_zero] at hzero
    exact hzero a ha (by simpa using hmove)
  · intro hnone
    apply List.Perm.of_eq
    conv_lhs => rw [← List.map_id l]
    exact List.map_congr_left fun a ha => (hstays a ha (hnone a ha)).symm

end Shift

section Heap

theorem Tracked.allocated (h : Tracked world arenas) (hblock : answer ≠ 0 → FreshBlock world answer)
    (hrecord : FreshRecord world node) (size : ℕ) :
    Tracked { rawMalloc world size answer with
      table := track (rawMalloc world size answer).table .heap answer size node } arenas := by
  unfold rawMalloc
  by_cases hanswer : answer = 0
  · rw [if_pos hanswer]
    unfold track
    rw [if_pos hanswer]
    exact h
  · rw [if_neg hanswer]
    exact ⟨⟨List.nodup_cons.2 ⟨hblock hanswer, h.ok.heap⟩, h.ok.maps, h.ok.arenas⟩,
      h.recorded.trackHeap hanswer hrecord.1 hrecord.2 size⟩

theorem liveArenas_rawMalloc (world : World) (size answer : ℕ) :
    liveArenas (rawMalloc world size answer) = liveArenas world := by
  unfold rawMalloc
  split_ifs <;> rfl

theorem mallocDebug_settled (h : Tracked world arenas)
    (hblock : answer ≠ 0 → FreshBlock world answer) (hrecord : FreshRecord world node) (size : ℕ) :
    Settled world arenas True (some (mallocDebug world size answer node).2) := by
  unfold mallocDebug
  by_cases hsize : size = 0
  · rw [if_pos hsize]
    exact Settled.refl h
  · rw [if_neg hsize]
    apply Settled.keep (h.allocated hblock hrecord size)
    exact List.Perm.of_eq (liveArenas_rawMalloc world size answer)

theorem callocDebug_settled (h : Tracked world arenas)
    (hblock : answer ≠ 0 → FreshBlock world answer)
    (hrecord : FreshRecord world node) (count elemSize : ℕ) :
    Settled world arenas True (some (callocDebug world count elemSize answer node).2) := by
  unfold callocDebug
  split_ifs
  · exact Settled.refl h
  · apply Settled.keep (h.allocated hblock hrecord (count * elemSize))
    exact List.Perm.of_eq (liveArenas_rawMalloc world (count * elemSize) answer)

theorem strdupDebug_settled (h : Tracked world arenas)
    (hblock : answer ≠ 0 → FreshBlock world answer)
    (hrecord : FreshRecord world node) (text : Option Bytes) :
    Settled world arenas True (some (strdupDebug world text answer node).2) := by
  unfold strdupDebug
  cases text with
  | none => exact Settled.refl h
  | some text =>
    dsimp only
    split_ifs
    · exact Settled.refl h
    · exact mallocDebug_settled h hblock hrecord _

theorem lookup_mem {β : Type} {l : List (ℕ × β)} (default : β) (h : ptr ∈ l.map Prod.fst) :
    (ptr, (l.lookup ptr).getD default) ∈ l := by
  induction l with
  | nil => cases h
  | cons b l ih =>
    obtain ⟨p, n⟩ := b
    rw [List.lookup_cons]
    by_cases hp : ptr = p
    · subst hp
      simp
    · have hmem : ptr ∈ l.map Prod.fst := by
        rcases List.mem_cons.1 h with heq | hmem
        · exact absurd heq hp
        · exact hmem
      rw [beq_eq_false_iff_ne.2 hp]
      exact List.mem_cons_of_mem _ (ih hmem)

theorem blockSize_mem (h : ptr ∈ world.heap.map Prod.fst) :
    (ptr, blockSize world ptr) ∈ world.heap := lookup_mem 0 h

theorem nodup_erase {blocks : List (ℕ × ℕ)} (h : (blocks.map Prod.fst).Nodup) (b : ℕ × ℕ) :
    ((blocks.erase b).map Prod.fst).Nodup :=
  h.sublist ((List.erase_sublist).map Prod.fst)

/-- The arenas that go away with their storage count under the address that they had. -/
theorem perm_lost (place : ℕ → ℕ) (objects : List (ℕ × Arena.LorArena)) (lost : List ℕ)
    {gone : ℕ × Arena.LorArena → Bool}
    (hgone : ∀ x ∈ objects, gone x = true → place x.1 = x.1) :
    (((objects.filter fun x => !gone x).map fun x => place x.1) ++
      ((objects.filter gone).map Prod.fst ++ lost)).Perm
      ((objects.map fun x => place x.1) ++ lost) := by
  have hsame : (objects.filter gone).map Prod.fst =
      (objects.filter gone).map fun x => place x.1 := by
    apply List.map_congr_left
    intro x hx
    exact (hgone x (List.mem_of_mem_filter hx) (List.of_mem_filter hx)).symm
  rw [hsame, ← List.append_assoc, ← List.map_append]
  apply List.Perm.append_right
  apply List.Perm.map
  exact List.perm_append_comm.trans (List.filter_append_perm gone objects)

theorem liveArenas_abandon (world : World) (gone : ℕ → Bool) :
    (liveArenas (abandon world gone)).Perm (liveArenas world) :=
  perm_lost id world.arenas world.lost fun _ _ _ => rfl

theorem World.Ok.abandon (h : world.Ok) (gone : ℕ → Bool) : (abandon world gone).Ok :=
  ⟨h.heap, h.maps, fun x hx => h.arenas x (List.mem_of_mem_filter hx)⟩

theorem Tracked.abandon (h : Tracked world arenas) (gone : ℕ → Bool) :
    Tracked (abandon world gone) arenas := ⟨h.ok.abandon gone, h.recorded⟩

/-- Storage that is gone leaves the arenas in it among the live ones. -/
theorem abandon_settled (h : Tracked world arenas) (gone : ℕ → Bool) :
    Settled world arenas True (some (abandon world gone)) :=
  Settled.keep (h.abandon gone) (liveArenas_abandon world gone)

theorem freeDebug_settled (h : Tracked world arenas)
    (hptr : ptr = 0 ∨ ptr ∈ world.heap.map Prod.fst) :
    Settled world arenas True (freeDebug world ptr) := by
  unfold freeDebug
  by_cases hzero : ptr = 0
  · rw [if_pos hzero]
    exact Settled.refl h
  · rw [if_neg hzero]
    have hmem := blockSize_mem (hptr.resolve_left hzero)
    obtain ⟨table', huntrack, hrecorded⟩ := h.recorded.untrackHeap h.ok.heap hmem
    rw [huntrack]
    let gone : ℕ → Bool := fun arena => Inside ptr (blockSize world ptr) arena
    exact Settled.keep ⟨⟨nodup_erase h.ok.heap _, h.ok.maps, (h.ok.abandon gone).arenas⟩, hrecorded⟩
      (liveArenas_abandon world gone)

/-- Where the arena records would have to point after a reallocation. -/
theorem perm_carried (arenaSize : ℕ) (world : World) (ptr size : ℕ) (hanswer : answer ≠ 0) :
    (liveArenas (rawRealloc arenaSize world ptr size answer)).Perm
      ((world.arenas.map Prod.fst).map (carried arenaSize world ptr size answer) ++
        world.lost) := by
  unfold rawRealloc abandon
  rw [if_neg hanswer]
  unfold liveArenas
  dsimp only
  rw [List.map_map, List.map_map]
  exact perm_lost (carried arenaSize world ptr size answer) world.arenas world.lost
    fun x _ hx => if_neg (of_decide_eq_true hx).2

theorem careful_realloc_iff (arenaSize : ℕ) (world : World) (node : ℕ) (hptr : ptr ≠ 0)
    (hsize : size ≠ 0) (hanswer : answer ≠ 0) :
    (liveArenas world).Perm (liveArenas (rawRealloc arenaSize world ptr size answer)) ↔
      Careful world arenaSize (.realloc ptr size answer node) := by
  have hcarried := perm_carried arenaSize world ptr size hanswer
  have hstays : ∀ a ∈ world.arenas.map Prod.fst, ¬Kept arenaSize world ptr size a →
      carried arenaSize world ptr size answer a = a := fun a _ hkept => if_neg hkept
  have hmoves : ∀ a ∈ world.arenas.map Prod.fst, Kept arenaSize world ptr size a →
      (carried arenaSize world ptr size answer a : ℤ) = a + ((answer : ℤ) - ptr) := by
    intro a _ hkept
    have hle := hkept.1
    unfold carried
    rw [if_pos hkept]
    omega
  have hlive : (liveArenas world).Perm (liveArenas (rawRealloc arenaSize world ptr size answer)) ↔
      (world.arenas.map Prod.fst).Perm
        ((world.arenas.map Prod.fst).map (carried arenaSize world ptr size answer)) := by
    constructor
    · exact fun hperm => (List.perm_append_right_iff world.lost).1 (hperm.trans hcarried)
    · exact fun hperm => (hperm.append_right world.lost).trans hcarried.symm
  rw [hlive]
  by_cases hplace : answer = ptr
  · apply iff_of_true
    · apply List.Perm.of_eq
      conv_lhs => rw [← List.map_id (world.arenas.map Prod.fst)]
      apply List.map_congr_left
      intro a ha
      by_cases hkept : Kept arenaSize world ptr size a
      · have hmove := hmoves a ha hkept
        change a = _
        omega
      · exact (hstays a ha hkept).symm
    · exact fun _ _ _ hne => absurd hplace hne
  · rw [perm_shift_iff (by omega) hmoves hstays, List.forall_mem_map]
    exact ⟨fun hnone _ _ _ _ => hnone, fun hcareful => hcareful hptr hsize hanswer hplace⟩

theorem nodup_reallocated {heap : List (ℕ × ℕ)} (hapart : (heap.map Prod.fst).Nodup)
    {old : ℕ} (hmem : (ptr, old) ∈ heap) (hblock : answer = ptr ∨ answer ∉ heap.map Prod.fst) :
    (((answer, size) :: heap.erase (ptr, old)).map Prod.fst).Nodup := by
  refine List.nodup_cons.2 ⟨?_, nodup_erase hapart _⟩
  rcases hblock with rfl | hfresh
  · have hperm := (List.perm_cons_erase hmem).map Prod.fst
    exact (List.nodup_cons.1 (hperm.nodup_iff.1 hapart)).1
  · exact fun hmem => hfresh ((List.erase_sublist.map Prod.fst).subset hmem)

theorem reallocDebug_settled (h : Tracked world arenas)
    (hptr : ptr = 0 ∨ ptr ∈ world.heap.map Prod.fst)
    (hblock : answer = ptr ∨ FreshBlock world answer) (hrecord : FreshRecord world node) :
    Settled world arenas (Careful world arenaSize (.realloc ptr size answer node))
      ((reallocDebug arenaSize world ptr size answer node).map Prod.snd) := by
  unfold reallocDebug
  by_cases hzero : ptr = 0
  · rw [if_pos hzero]
    refine (mallocDebug_settled h ?_ hrecord size).of_careful fun hne => absurd hzero hne
    exact fun hanswer => hblock.resolve_left fun heq => hanswer (heq.trans hzero)
  rw [if_neg hzero]
  by_cases hsize : size = 0
  · rw [if_pos hsize, Option.map_map]
    have hid : (Prod.snd ∘ fun world : World => (0, world)) = id := rfl
    rw [hid, Option.map_id]
    exact (freeDebug_settled h hptr).of_careful fun _ hne => absurd hsize hne
  rw [if_neg hsize]
  have hmem := blockSize_mem (hptr.resolve_left hzero)
  obtain ⟨record, hfind, hne, hvalue, hmoved⟩ := h.recorded.moveHeap h.ok.heap hmem
  rw [hfind]
  dsimp only
  by_cases hanswer : answer = 0
  · rw [if_pos hanswer]
    unfold rawRealloc
    rw [if_pos hanswer]
    exact (Settled.refl h).of_careful fun _ _ hne => absurd hanswer hne
  rw [if_neg hanswer, if_pos hne]
  have hcareful := careful_realloc_iff arenaSize world node hzero hsize hanswer
  unfold rawRealloc abandon at hcareful ⊢
  rw [if_neg hanswer] at hcareful ⊢
  dsimp only at hcareful ⊢
  rw [hvalue]
  refine ⟨_, arenas, rfl, ⟨⟨nodup_reallocated h.ok.heap hmem hblock, h.ok.maps, ?_⟩,
    hmoved (answer, size)⟩, fun hperm => ?_⟩
  · intro x hx
    obtain ⟨y, hy, rfl⟩ := List.mem_map.1 hx
    exact h.ok.arenas y (List.mem_of_mem_filter hy)
  · rw [← hcareful]
    exact ⟨fun hmoved => hperm.symm.trans hmoved, fun hsame => hperm.trans hsame⟩

end Heap

section Arenas

variable {value : Arena.LorArena} {config : Arena.Config}

theorem configured_ne_init (h : Configured value) : value ≠ Arena.arenaInit := by
  rintro rfl
  exact h ⟨rfl, rfl⟩

theorem initInternal_configured (platform : Arena.Platform)
    (h : Arena.initInternal platform Arena.arenaInit config = (true, value)) :
    Configured value := by
  have hblock : (Arena.configured config).blockSize ≠ 0 := by
    unfold Arena.configured
    dsimp only
    split_ifs with hsize
    · exact hsize
    · decide
  unfold Arena.initInternal at h
  rw [if_neg (not_not.2 rfl)] at h
  dsimp only at h
  split_ifs at h
  · cases h
  · cases h
  · obtain rfl := (Prod.mk.inj h).2
    exact fun hzero => hblock hzero.1
  · obtain rfl := (Prod.mk.inj h).2
    exact fun hzero => hblock hzero.1

theorem allocReady_configured (os : Arena.Os) (h : Configured value) (size alignment : ℕ) :
    Configured (Arena.allocReady platform os value size alignment).2 := by
  have hcases := Arena.allocReady_cases platform os value size alignment
  generalize Arena.allocReady platform os value size alignment = result at hcases
  cases hcases <;> exact h

theorem keys_eraseP (objects : List (ℕ × Arena.LorArena)) (arena : ℕ) :
    (objects.eraseP fun x => x.1 == arena).map Prod.fst = (objects.map Prod.fst).erase arena := by
  rw [List.erase_eq_eraseP', List.eraseP_map]
  rfl

theorem arenaAt_of_not_mem (h : arena ∉ world.arenas.map Prod.fst) :
    arenaAt world arena = Arena.arenaInit := by
  have hnone : world.arenas.lookup arena = none := by
    rw [List.lookup_eq_none_iff]
    intro x hx
    rw [bne_iff_ne]
    rintro rfl
    exact h (List.mem_map_of_mem hx)
  unfold arenaAt
  rw [hnone]
  rfl

theorem arenaAt_mem (h : arena ∈ world.arenas.map Prod.fst) :
    (arena, arenaAt world arena) ∈ world.arenas := lookup_mem Arena.arenaInit h

/-- An object that is not `LOR_ARENA_INIT` has its address among the initialized arenas. -/
theorem mem_arenas_iff (h : world.Ok) :
    arena ∈ world.arenas.map Prod.fst ↔ arenaAt world arena ≠ Arena.arenaInit := by
  constructor
  · intro hmem
    exact configured_ne_init (h.arenas _ (arenaAt_mem hmem))
  · intro hne
    by_contra hmem
    exact hne (arenaAt_of_not_mem hmem)

theorem arenas_setArena (h : Configured value) : (setArena world arena value).arenas =
    (arena, value) :: world.arenas.eraseP fun x => x.1 == arena :=
  if_neg (configured_ne_init h)

theorem arenas_setArena_init : (setArena world arena Arena.arenaInit).arenas =
    world.arenas.eraseP fun x => x.1 == arena := by
  unfold setArena
  dsimp only
  rw [if_pos rfl]

theorem liveArenas_setArena (world : World) (arena : ℕ) (h : Configured value) :
    liveArenas (setArena world arena value) =
      arena :: (world.arenas.map Prod.fst).erase arena ++ world.lost := by
  unfold liveArenas
  rw [arenas_setArena h, ← keys_eraseP]
  rfl

theorem liveArenas_setArena_init : liveArenas (setArena world arena Arena.arenaInit) =
    (world.arenas.map Prod.fst).erase arena ++ world.lost := by
  unfold liveArenas
  rw [arenas_setArena_init, keys_eraseP]
  rfl

theorem arenaAt_setArena (h : Configured value) :
    arenaAt (setArena world arena value) arena = value := by
  unfold arenaAt
  rw [arenas_setArena h, List.lookup_cons_self]
  rfl

theorem World.Ok.setArena_init (h : world.Ok) (arena : ℕ) :
    ∀ x ∈ (setArena world arena Arena.arenaInit).arenas, Configured x.2 := by
  intro x hx
  rw [arenas_setArena_init] at hx
  exact h.arenas x (List.mem_of_mem_eraseP hx)

theorem Tracked.setArena (h : Tracked world arenas) (hvalue : Configured value) (arena : ℕ) :
    Tracked (setArena world arena value) arenas := by
  refine ⟨⟨h.ok.heap, h.ok.maps, ?_⟩, h.recorded⟩
  intro x hx
  rw [arenas_setArena hvalue] at hx
  rcases List.mem_cons.1 hx with rfl | hmem
  · exact hvalue
  · exact h.ok.arenas x (List.mem_of_mem_eraseP hmem)

theorem perm_setArena (h : world.Ok) (harena : Configured (arenaAt world arena))
    (hvalue : Configured value) :
    (liveArenas (setArena world arena value)).Perm (liveArenas world) := by
  have hmem := (mem_arenas_iff h).2 (configured_ne_init harena)
  rw [liveArenas_setArena world arena hvalue]
  exact (List.perm_cons_erase hmem).symm.append_right world.lost

theorem setArena_same (h : Tracked world arenas) :
    Tracked (setArena world arena (arenaAt world arena)) arenas ∧
      (liveArenas (setArena world arena (arenaAt world arena))).Perm (liveArenas world) := by
  by_cases hmem : arena ∈ world.arenas.map Prod.fst
  · have hvalue := h.ok.arenas _ (arenaAt_mem hmem)
    exact ⟨h.setArena hvalue arena, perm_setArena h.ok hvalue hvalue⟩
  · rw [arenaAt_of_not_mem hmem, liveArenas_setArena_init, List.erase_of_not_mem hmem]
    exact ⟨⟨⟨h.ok.heap, h.ok.maps, h.ok.setArena_init arena⟩, h.recorded⟩, List.Perm.refl _⟩

/-- An initialization either fails and changes nothing, or makes an object of an address where none
was and records it. -/
theorem initInternal_cases (h : Tracked world arenas) (harena : arena ≠ 0)
    (hrecord : FreshRecord world node) (config : Arena.Config) :
    (∃ world', initInternal platform world arena config true node = (false, world') ∧
      Tracked world' arenas ∧ (liveArenas world').Perm (liveArenas world)) ∨
    ∃ world', initInternal platform world arena config true node = (true, world') ∧
      Tracked world' (arena :: arenas) ∧ (liveArenas world').Perm (arena :: liveArenas world) ∧
      Configured (arenaAt world' arena) := by
  unfold initInternal
  rw [if_neg harena]
  rcases Arena.initInternal_cases platform (arenaAt world arena) config with
    hfail | ⟨hinit, value, hok, -⟩
  · rw [hfail]
    exact Or.inl ⟨_, rfl, setArena_same h⟩
  · rw [hok]
    have hvalue : Configured value := initInternal_configured platform (hinit ▸ hok)
    have hmem : arena ∉ world.arenas.map Prod.fst := fun hmem =>
      (mem_arenas_iff h.ok).1 hmem hinit
    have hset := h.setArena hvalue arena
    have hlive := liveArenas_setArena world arena hvalue
    rw [List.erase_of_not_mem hmem] at hlive
    refine Or.inr ⟨_, rfl, ⟨⟨hset.ok.heap, hset.ok.maps, hset.ok.arenas⟩, ?_⟩,
      List.Perm.of_eq hlive, ?_⟩
    · exact hset.recorded.trackArena harena hrecord.1 hrecord.2
    · change Configured (arenaAt (setArena world arena value) arena)
      rw [arenaAt_setArena hvalue]
      exact hvalue

theorem arenaInitConfig_settled (h : Tracked world arenas) (hrecord : FreshRecord world node)
    (arena : ℕ) (config : Arena.Config) :
    Settled world arenas True (some (arenaInitConfig platform world arena config node).2) := by
  unfold arenaInitConfig
  by_cases harena : arena = 0
  · unfold initInternal
    rw [if_pos harena]
    exact Settled.refl h
  · rcases initInternal_cases h harena hrecord config with
      ⟨world', heq, htracked, hlive⟩ | ⟨world', heq, htracked, hlive, -⟩
    · rw [heq]
      exact Settled.keep htracked hlive
    · rw [heq]
      exact Settled.gain htracked hlive

theorem allocReady_tracked (platform : Arena.Platform) (h : Tracked world arenas)
    (harena : Configured (arenaAt world arena)) (os : Arena.Os) (size alignment : ℕ) :
    Tracked (allocReady platform os world arena size alignment).2 arenas ∧
      (liveArenas (allocReady platform os world arena size alignment).2).Perm
        (liveArenas world) := by
  have hvalue : Configured
      (Arena.allocReady platform os (arenaAt world arena) size alignment).2 :=
    allocReady_configured os harena size alignment
  exact ⟨h.setArena hvalue arena, perm_setArena h.ok harena hvalue⟩

theorem allocAligned_settled (platform : Arena.Platform) (h : Tracked world arenas)
    (hrecord : FreshRecord world node) (os : Arena.Os) (arena size alignment : ℕ) :
    Settled world arenas True
      (some (allocAligned platform os world arena size alignment node).2) := by
  unfold allocAligned
  by_cases hguard : arena = 0 ∨ size = 0 ∨ Arena.isPowerOfTwo alignment = false
  · rw [if_pos hguard]
    exact Settled.refl h
  rw [if_neg hguard]
  by_cases hlazy : (arenaAt world arena).blockSize = 0 ∧ (arenaAt world arena).reserveSize = 0
  · rw [if_pos hlazy]
    rcases initInternal_cases h (not_or.1 hguard).1 hrecord ⟨.heap, 0, 0, 0⟩ with
      ⟨world', heq, htracked, hlive⟩ | ⟨world', heq, htracked, hlive, hready⟩
    · rw [heq]
      exact Settled.keep htracked hlive
    · rw [heq]
      obtain ⟨htracked', hlive'⟩ :=
        allocReady_tracked platform htracked hready os size alignment
      exact Settled.gain htracked' (hlive'.trans hlive)
  · rw [if_neg hlazy]
    obtain ⟨htracked, hlive⟩ :=
      allocReady_tracked platform h hlazy os size alignment
    exact Settled.keep htracked hlive

theorem arenaRequest_cases (platform : Arena.Platform) (os : Arena.Os) (world : World)
    (arena : ℕ) (request : Arena.Request) (node : ℕ) :
    (arenaRequest platform os world arena request node = (none, world) ∧
      Arena.request platform os (arenaAt world arena) request = (none, arenaAt world arena)) ∨
    ∃ size, arenaRequest platform os world arena request node =
        allocAligned platform os world arena size platform.maxAlignment node ∧
      Arena.request platform os (arenaAt world arena) request =
        Arena.allocAligned platform os (arenaAt world arena) size platform.maxAlignment := by
  unfold arenaRequest Arena.request
  cases request with
  | alloc size => exact Or.inr ⟨size, rfl, rfl⟩
  | allocZero size => exact Or.inr ⟨size, rfl, rfl⟩
  | allocArray count elemSize =>
    unfold arenaAllocArray Arena.allocArray
    dsimp only
    split_ifs
    · exact Or.inl ⟨rfl, rfl⟩
    · exact Or.inr ⟨_, rfl, rfl⟩
  | allocArrayZero count elemSize =>
    unfold arenaAllocArrayZero Arena.allocArrayZero
    dsimp only
    split_ifs
    · exact Or.inl ⟨rfl, rfl⟩
    · exact Or.inr ⟨_, rfl, rfl⟩
  | strdup text =>
    unfold arenaStrdup Arena.strdup
    cases text with
    | none => exact Or.inl ⟨rfl, rfl⟩
    | some text =>
      dsimp only
      split_ifs
      · exact Or.inl ⟨rfl, rfl⟩
      · exact Or.inr ⟨_, rfl, rfl⟩

theorem arenaRequest_settled (h : Tracked world arenas) (hrecord : FreshRecord world node)
    (os : Arena.Os) (arena : ℕ) (request : Arena.Request) :
    Settled world arenas True
      (some (arenaRequest platform os world arena request node).2) := by
  rcases arenaRequest_cases platform os world arena request node with
    ⟨hrefused, -⟩ | ⟨size, haligned, -⟩
  · rw [hrefused]
    exact Settled.refl h
  · rw [haligned]
    exact allocAligned_settled platform h hrecord os arena size platform.maxAlignment

theorem allocReady_arena (platform : Arena.Platform) (harena : Configured (arenaAt world arena))
    (os : Arena.Os) (size alignment : ℕ) :
    ((allocReady platform os world arena size alignment).1,
      arenaAt (allocReady platform os world arena size alignment).2 arena) =
        Arena.allocReady platform os (arenaAt world arena) size alignment := by
  have hvalue : Configured
      (Arena.allocReady platform os (arenaAt world arena) size alignment).2 :=
    allocReady_configured os harena size alignment
  exact Prod.ext rfl (arenaAt_setArena hvalue)

/-- The allocation of a leak-checking build does to the arena object what that of any other build
does. -/
theorem allocAligned_arena (platform : Arena.Platform) (h : world.Ok) (harena : arena ≠ 0)
    (os : Arena.Os) (size alignment node : ℕ) :
    ((allocAligned platform os world arena size alignment node).1,
      arenaAt (allocAligned platform os world arena size alignment node).2 arena) =
        Arena.allocAligned platform os (arenaAt world arena) size alignment := by
  unfold allocAligned Arena.allocAligned
  by_cases hguard : size = 0 ∨ Arena.isPowerOfTwo alignment = false
  · rw [if_pos (Or.inr hguard), if_pos hguard]
  rw [if_neg (not_or.2 ⟨harena, hguard⟩), if_neg hguard]
  by_cases hlazy : (arenaAt world arena).blockSize = 0 ∧ (arenaAt world arena).reserveSize = 0
  · rw [if_pos hlazy, if_pos hlazy]
    unfold initInternal
    rw [if_neg harena]
    have hmem : arena ∉ world.arenas.map Prod.fst := fun hmem =>
      h.arenas _ (arenaAt_mem hmem) hlazy
    have hinit := arenaAt_of_not_mem hmem
    rcases Arena.initInternal_cases platform (arenaAt world arena) ⟨.heap, 0, 0, 0⟩ with
      hfail | ⟨-, value, hok, -⟩
    · rw [hfail, hinit]
      refine Prod.ext rfl ?_
      change arenaAt (setArena world arena Arena.arenaInit) arena = Arena.arenaInit
      have hkeys := keys_eraseP world.arenas arena
      rw [List.erase_of_not_mem hmem] at hkeys
      apply arenaAt_of_not_mem
      rw [arenas_setArena_init, hkeys]
      exact hmem
    · rw [hok]
      have hvalue : Configured value := initInternal_configured platform (hinit ▸ hok)
      generalize hworld : ({ setArena world arena value with
        table := track (setArena world arena value).table .arena arena 0 node } : World) = world'
      have hat : arenaAt world' arena = value := by
        subst hworld
        exact arenaAt_setArena hvalue
      have hready := allocReady_arena platform (hat ▸ hvalue : Configured (arenaAt world' arena)) os
        size alignment
      rw [hat] at hready
      subst hworld
      exact hready
  · rw [if_neg hlazy, if_neg hlazy]
    exact allocReady_arena platform hlazy os size alignment

theorem arenaRequest_arena (platform : Arena.Platform) (h : world.Ok) (harena : arena ≠ 0)
    (os : Arena.Os) (request : Arena.Request) (node : ℕ) :
    ((arenaRequest platform os world arena request node).1,
      arenaAt (arenaRequest platform os world arena request node).2 arena) =
        Arena.request platform os (arenaAt world arena) request := by
  rcases arenaRequest_cases platform os world arena request node with
    ⟨hrefused, hrefused'⟩ | ⟨size, haligned, haligned'⟩
  · rw [hrefused, hrefused']
  · rw [haligned, haligned']
    exact allocAligned_arena platform h harena os size platform.maxAlignment node

/-- Releasing the blocks of an arena does not touch the arena itself. -/
theorem mem_freeBlocks :
    arena ∈ (freeBlocks world arena).arenas.map Prod.fst ↔ arena ∈ world.arenas.map Prod.fst := by
  constructor
  · exact fun hmem => (List.filter_sublist.map Prod.fst).subset hmem
  · intro hmem
    obtain ⟨x, hx, rfl⟩ := List.mem_map.1 hmem
    have hkept : (!decide (x.1 ≠ x.1 ∧ ∃ block ∈ (arenaAt world x.1).blocks,
        Inside block.address block.allocationSize x.1)) = true := by simp
    exact List.mem_map_of_mem (List.mem_filter.2 ⟨hx, hkept⟩)

theorem mem_lost_freeBlocks : arena ∈ (freeBlocks world arena).lost ↔ arena ∈ world.lost := by
  refine ⟨fun hmem => ?_, fun hmem => List.mem_append_right _ hmem⟩
  rcases List.mem_append.1 hmem with hgone | hlost
  · obtain ⟨x, hx, rfl⟩ := List.mem_map.1 hgone
    have hgone := of_decide_eq_true (List.mem_filter.1 hx).2
    exact absurd rfl hgone.1
  · exact hlost

theorem arenaDeinit_settled (h : Tracked world arenas) (arena : ℕ) :
    Settled world arenas (Careful world arenaSize (.arenaDeinit arena))
      (arenaDeinit world arena) := by
  unfold arenaDeinit
  by_cases hzero : arena = 0
  · rw [if_pos hzero]
    exact (Settled.refl h).of_careful fun hne => absurd hzero hne
  rw [if_neg hzero]
  obtain ⟨table', huntrack, hrecorded⟩ := h.recorded.untrackArena arena
  have hfreed : (liveArenas (freeBlocks world arena)).Perm (liveArenas world) :=
    liveArenas_abandon world _
  have hok : (freeBlocks world arena).Ok := h.ok.abandon _
  have htable : (freeBlocks world arena).table = world.table := rfl
  dsimp only
  rw [htable, huntrack]
  refine ⟨_, arenas.erase arena, rfl, ⟨⟨hok.heap, hok.maps, ?_⟩, hrecorded⟩, fun hperm => ?_⟩
  · exact hok.setArena_init arena
  have hlive : liveArenas (setArena { freeBlocks world arena with table := table' } arena
      Arena.arenaInit) = ((freeBlocks world arena).arenas.map Prod.fst).erase arena ++
        (freeBlocks world arena).lost := liveArenas_setArena_init
  have hperm' := hperm.trans hfreed.symm
  change (arenas.erase arena).Perm (liveArenas
    (setArena { freeBlocks world arena with table := table' } arena Arena.arenaInit)) ↔ _
  rw [hlive]
  by_cases hmem : arena ∈ (freeBlocks world arena).arenas.map Prod.fst
  · apply iff_of_true
    · rw [← List.erase_append_left _ hmem]
      exact hperm'.erase arena
    · exact fun _ _ => mem_freeBlocks.1 hmem
  · rw [List.erase_of_not_mem hmem]
    change (arenas.erase arena).Perm (liveArenas (freeBlocks world arena)) ↔ _
    constructor
    · intro hsame _ hlost
      have hin : arena ∈ arenas :=
        hperm'.mem_iff.2 (List.mem_append_right _ (mem_lost_freeBlocks.2 hlost))
      have hlength := List.length_erase_of_mem hin
      have hpos := List.length_pos_of_mem hin
      have hequal := (hsame.trans hperm'.symm).length_eq
      omega
    · intro hcareful
      have hout : arena ∉ arenas := by
        intro hin
        rcases List.mem_append.1 (hperm'.mem_iff.1 hin) with hkey | hlost
        · exact hmem hkey
        · exact hmem (mem_freeBlocks.2 (hcareful hzero (mem_lost_freeBlocks.1 hlost)))
      rw [List.erase_of_not_mem hout]
      exact hperm'

end Arenas

section Maps

theorem mmapFileAt_settled (h : Tracked world arenas) {os : MmapOs}
    (hfresh : ∀ data ∈ os.mmap, data ≠ 0 ∧ data ∉ world.maps.map Prod.fst)
    (hrecord : FreshRecord world node) (path : Option Bytes) (mode : LorMmapMode) :
    Settled world arenas True (some (mmapFileAt world path mode os node).2) := by
  unfold mmapFileAt
  split_ifs
  · exact Settled.refl h
  · exact Settled.refl h
  cases os.fstat with
  | none => exact Settled.refl h
  | some stSize =>
    dsimp only
    split_ifs
    · exact Settled.refl h
    · exact Settled.refl h
    cases hmmap : os.mmap with
    | none => exact Settled.refl h
    | some data =>
      obtain ⟨hdata, hnew⟩ := hfresh data hmmap
      apply Settled.keep
      · exact ⟨⟨h.ok.heap, List.nodup_cons.2 ⟨hnew, h.ok.maps⟩, h.ok.arenas⟩,
          h.recorded.trackMap hdata hrecord.1 hrecord.2 _⟩
      · exact List.Perm.refl _

theorem mmapUnmap_settled (h : Tracked world arenas) {map : Option LorMmap}
    (hmap : ∀ m ∈ map, m.data = 0 ∨ (m.data, m.size) ∈ world.maps) :
    Settled world arenas True ((mmapUnmap world map).map Prod.snd) := by
  unfold mmapUnmap
  cases map with
  | none => exact Settled.refl h
  | some map =>
    dsimp only
    by_cases hzero : map.data = 0
    · rw [if_pos hzero]
      exact Settled.refl h
    · rw [if_neg hzero]
      have hmem := (hmap map rfl).resolve_left hzero
      obtain ⟨table', huntrack, hrecorded⟩ := h.recorded.untrackMap h.ok.maps hmem
      rw [huntrack]
      let gone : ℕ → Bool := fun arena => Inside map.data map.size arena
      exact Settled.keep ⟨⟨h.ok.heap, nodup_erase h.ok.maps _, (h.ok.abandon gone).arenas⟩,
        hrecorded⟩ (liveArenas_abandon world gone)

end Maps

/-- Every call that the program and the system may make answers and leaves an exact table, unless
it is one that strands the record of an arena. -/
theorem step_settled (platform : Arena.Platform) (arenaSize : ℕ) (h : Tracked world arenas)
    {call : Call} (hlegal : Legal world call) :
    Settled world arenas (Careful world arenaSize call) (step platform arenaSize world call) := by
  cases call with
  | malloc size answer node => exact mallocDebug_settled h (fun _ => hlegal.1) hlegal.2 size
  | calloc count elemSize answer node =>
    exact callocDebug_settled h (fun _ => hlegal.1) hlegal.2 count elemSize
  | realloc ptr size answer node => exact reallocDebug_settled h hlegal.1 hlegal.2.1 hlegal.2.2
  | free ptr => exact freeDebug_settled h hlegal
  | strdup text answer node => exact strdupDebug_settled h (fun _ => hlegal.1) hlegal.2 text
  | arenaInit arena config node => exact arenaInitConfig_settled h hlegal arena config
  | arenaAlloc os arena request node => exact arenaRequest_settled h hlegal os arena request
  | arenaDeinit arena => exact arenaDeinit_settled h arena
  | mmapFile path mode os node => exact mmapFileAt_settled h hlegal.1 hlegal.2 path mode
  | mmapUnmap map => exact mmapUnmap_settled h hlegal
  | leave place size => exact abandon_settled h _

end Liblor.Leak
