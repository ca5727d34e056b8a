import Liblor.ArenaPointerCalls

/-!
# Runs on the memory of an arena

A program calls the arena functions and writes into what is live; the rest of the process writes
anywhere outside the regions that the arena holds. What a program has last written into an
allocation, or what the allocation was filled with, is recorded next to it.
-/

namespace Liblor.Arena.Pointers

open BumpStack RegionHeap Transition

/-- A live allocation, with those of its bytes that are known. -/
structure Object where
  piece : Piece
  known : ℕ → Option UInt8

def Object.new (start size : ℕ) (bytes : Option Bytes) : Object :=
  ⟨⟨start, size⟩, fun k => (bytes.getD [])[k]?⟩

def Object.write (o : Object) (offset : ℕ) (bytes : Bytes) : Object :=
  { o with
    known := fun k =>
      if offset ≤ k ∧ k < offset + bytes.length then bytes[k - offset]? else o.known k }

structure State where
  heap : Heap
  arena : Handle
  objects : List Object
  marks : List (Mark × ℕ)

inductive Event where
  | call (op : Op)
  | write (i offset : ℕ) (bytes : Bytes)
  | outside (a : ℕ) (byte : UInt8)

def Event.op : Event → Option Op
  | .call op => some op
  | _ => none

/-- Every region that the system hands out lies in the address space and apart from those it has
handed out. -/
def Legal (os : Os) (heap : Heap) : Prop :=
  ∀ size address, os.malloc size = some address ∨ os.reserveRaw size = some address →
    InSpace address size ∧ ∀ r ∈ heap.regions,
      address + size ≤ r.base ∨ r.base + r.size ≤ address

def Event.Legal (s : State) : Event → Prop
  | .call (.request _ os) => Pointers.Legal os s.heap
  | .call (.rewind i) => i < s.marks.length
  | .call _ => True
  | .write i offset bytes => ∃ o, s.objects[i]? = some o ∧ offset + bytes.length ≤ o.piece.size
  | .outside a _ => ∀ r ∈ s.heap.regions, a < r.base ∨ r.base + r.size ≤ a

inductive Step (platform : Platform) : State → Event → State → Prop where
  | init {s : State} (config : Config) :
      Step platform s (.call (.init config))
        { s with arena := (initInternal platform s.arena config).2 }
  | request {s : State} {r : Request} {os : Os} {result : Option ℕ} {arena : Handle} {heap : Heap}
      (hlegal : Legal os s.heap)
      (hreturns : Returns (request platform os s.arena r) s.heap (result, arena) heap) :
      Step platform s (.call (.request r os))
        ⟨heap, arena,
          (result.toList.map fun start => Object.new start r.size (contents r)) ++ s.objects,
          s.marks⟩
  | mark {s : State} {m : Mark} {heap : Heap} (hreturns : Returns (mark s.arena) s.heap m heap) :
      Step platform s (.call .mark) ⟨heap, s.arena, s.objects, (m, s.objects.length) :: s.marks⟩
  | rewind {s : State} {i fuel depth : ℕ} {m : Mark} {older : List (Mark × ℕ)} {arena : Handle}
      {heap : Heap} (hmarks : s.marks.drop i = (m, depth) :: older)
      (hreturns : Returns (rewind fuel s.arena m) s.heap arena heap) :
      Step platform s (.call (.rewind i))
        ⟨heap, arena, s.objects.drop (s.objects.length - depth), (m, depth) :: older⟩
  | reset {s : State} {fuel : ℕ} {heap : Heap}
      (hreturns : Returns (reset fuel s.arena) s.heap () heap) :
      Step platform s (.call .reset) ⟨heap, s.arena, [], []⟩
  | deinit {s : State} {fuel : ℕ} {arena : Handle} {heap : Heap}
      (hreturns : Returns (deinit fuel s.arena) s.heap arena heap) :
      Step platform s (.call .deinit) ⟨heap, arena, [], []⟩
  | write {s : State} {i offset : ℕ} {bytes : Bytes} {o : Object} {heap : Heap}
      (ho : s.objects[i]? = some o) (hin : offset + bytes.length ≤ o.piece.size)
      (hreturns : Returns (storeBytes (o.piece.start + offset) bytes) s.heap () heap) :
      Step platform s (.write i offset bytes)
        { s with heap := heap, objects := s.objects.set i (o.write offset bytes) }
  | outside {s : State} {a : ℕ} {byte : UInt8}
      (ha : ∀ r ∈ s.heap.regions, a < r.base ∨ r.base + r.size ≤ a) :
      Step platform s (.outside a byte)
        { s with heap := { s.heap with cells := Function.update s.heap.cells a byte } }

/-- At first the system has handed out nothing, whatever the memory holds. -/
def memory (platform : Platform) : System State Event where
  start s := s.heap.regions = [] ∧ s.arena = handleInit ∧ s.objects = [] ∧ s.marks = []
  step := Step platform

/-- The memory holds the arena of the other state, and the same is live. -/
structure Refines (platform : Platform) (s : State) (t : Arena.State) : Prop where
  arena : s.arena = handleOf t.arena
  heap : Represents platform s.heap t.arena
  live : s.objects.map Object.piece = t.live
  marks : s.marks = t.marks

/-- The memory holds what is known of each live allocation. -/
def Holds (s : State) : Prop :=
  ∀ o ∈ s.objects, ∀ k, k < o.piece.size → ∀ b ∈ o.known k, s.heap.cells (o.piece.start + k) = b

variable {platform : Platform} {os : Os} {s s' : State} {t : Arena.State} {heap : Heap}

theorem Legal.blocks {arena : LorArena} (hlegal : Legal os heap)
    (h : Represents platform heap arena) :
    os.Legal arena := by
  intro size address hregion
  obtain ⟨hspace, hapart⟩ := hlegal size address hregion
  refine ⟨hspace, fun block hblock => ?_⟩
  exact hapart (regionOf arena.backend block) (h.regions ▸ List.mem_map_of_mem hblock)

/-- What stays live keeps its bytes when only headers and other allocations change. -/
theorem Holds.keep (h : Holds s) {objects : List Object} (hsub : ∀ o ∈ objects, o ∈ s.objects)
    (hcells : ∀ o ∈ objects, ∀ a, o.piece.start ≤ a → a < o.piece.start + o.piece.size →
      heap.cells a = s.heap.cells a) {arena : Handle} {marks : List (Mark × ℕ)} :
    Holds ⟨heap, arena, objects, marks⟩ := by
  intro o ho k hk b hb
  change heap.cells (o.piece.start + k) = b
  rw [hcells o ho _ (Nat.le_add_right _ _) (by omega)]
  exact h o (hsub o ho) k hk b hb

theorem Refines.off_headers (href : Refines platform s t) (htarget : Target platform)
    (hsound : Sound platform t) {o : Object} (ho : o ∈ s.objects) {a : ℕ}
    (hle : o.piece.start ≤ a) (hlt : a < o.piece.start + o.piece.size) :
    ∀ block ∈ t.arena.blocks.map Block.address, OffHeader block a := by
  intro block hblock
  obtain ⟨b, hb, rfl⟩ := List.mem_map.1 hblock
  have hlive : o.piece ∈ t.live := href.live ▸ List.mem_map_of_mem ho
  exact (live_inside htarget hsound href.heap hlive).2 a hle hlt b hb

/-- The state of the list of blocks after an event. -/
def follow (platform : Platform) (t : Arena.State) (e : Event) : Arena.State :=
  (e.op.map (Arena.step platform t)).getD t

theorem refines_init (href : Refines platform s t) (htarget : Target platform) (hholds : Holds s)
    (config : Config) :
    Refines platform { s with arena := (initInternal platform s.arena config).2 }
        (Arena.step platform t (.init config)) ∧
      Holds { s with arena := (initInternal platform s.arena config).2 } := by
  obtain ⟨heq, hrep⟩ := initInternal_simulates href.heap htarget config
  refine ⟨⟨?_, hrep, href.live, href.marks⟩, hholds⟩
  change (initInternal platform s.arena config).2 = _
  rw [href.arena, heq]
  rfl

theorem refines_request (href : Refines platform s t) (htarget : Target platform)
    (hsound : Sound platform t) (hholds : Holds s) {r : Request} {result : Option ℕ}
    {arena : Handle} (hlegal : Legal os s.heap)
    (hreturns : Returns (request platform os s.arena r) s.heap (result, arena) heap) :
    Refines platform ⟨heap, arena,
        (result.toList.map fun start => Object.new start r.size (contents r)) ++ s.objects, s.marks⟩
        (Arena.step platform t (.request r os)) ∧
      Holds ⟨heap, arena,
        (result.toList.map fun start => Object.new start r.size (contents r)) ++ s.objects,
        s.marks⟩ := by
  have hblocks := hlegal.blocks href.heap
  have hsound' := hsound.request hblocks r
  obtain ⟨heap', hreturns', hrep, hkept, hfilled⟩ := request_answers href.heap htarget hblocks r
  rw [href.arena] at hreturns
  obtain ⟨heq, rfl⟩ := hreturns.unique hreturns'
  obtain ⟨rfl, rfl⟩ := Prod.mk.inj heq
  change Refines platform _ (t.returned r.size (Arena.request platform os t.arena r)) ∧ _
  change Sound platform (t.returned r.size (Arena.request platform os t.arena r)) at hsound'
  cases hresult : Arena.request platform os t.arena r with
  | mk result arena' =>
    rw [hresult] at hrep hkept hfilled hsound'
    cases result with
    | none =>
      refine ⟨⟨rfl, hrep, href.live, href.marks⟩, hholds.keep (fun _ ho => ho) ?_⟩
      intro o ho a hle hlt
      refine hkept a ?_ (by simp)
      have hlive : o.piece ∈ t.live := href.live ▸ List.mem_map_of_mem ho
      exact (live_inside htarget hsound' hrep hlive).2 a hle hlt
    | some start =>
      have hlive : (⟨start, r.size⟩ :: s.objects.map Object.piece : List Piece) =
          ⟨start, r.size⟩ :: t.live := congrArg _ href.live
      refine ⟨⟨rfl, hrep, hlive, href.marks⟩, ?_⟩
      intro o ho k hk b hb
      rcases List.mem_cons.1 ho with rfl | ho
      · cases hcontents : contents r with
        | none => simp [Object.new, hcontents] at hb
        | some bytes =>
          rw [hcontents] at hb hfilled
          exact cells_of_load (hfilled start rfl bytes rfl) hb
      · have hmem : o.piece ∈ t.live := href.live ▸ List.mem_map_of_mem ho
        have hpieces := hsound'.filed.pairwise_apart hsound'.frames_apart
        have hapart := (List.pairwise_cons.1 hpieces).1 o.piece hmem
        have hin := live_inside htarget hsound' hrep (List.mem_cons_of_mem _ hmem)
        unfold Apart at hapart
        dsimp only at hapart hin
        rw [← hholds o ho k hk b hb]
        refine hkept _ (hin.2 _ (Nat.le_add_right _ _) (by omega)) ?_
        rintro start' hstart'
        obtain rfl := Option.some.inj hstart'
        omega

theorem refines_mark (href : Refines platform s t) (hholds : Holds s) {m : Mark}
    (hreturns : Returns (mark s.arena) s.heap m heap) :
    Refines platform ⟨heap, s.arena, s.objects, (m, s.objects.length) :: s.marks⟩
        (Arena.step platform t .mark) ∧
      Holds ⟨heap, s.arena, s.objects, (m, s.objects.length) :: s.marks⟩ := by
  rw [href.arena] at hreturns
  obtain ⟨rfl, rfl⟩ := hreturns.unique (mark_returns href.heap)
  refine ⟨⟨href.arena, href.heap, href.live, ?_⟩, hholds⟩
  change (Arena.mark t.arena, s.objects.length) :: s.marks = (Arena.mark t.arena, t.live.length) ::
    t.marks
  rw [← href.live, List.length_map, href.marks]

theorem Refines.holds_sublist (href : Refines platform s t) (htarget : Target platform)
    (hsound : Sound platform t) (hholds : Holds s)
    (honly : OnlyHeaders (t.arena.blocks.map Block.address) s.heap heap) {objects : List Object}
    (hsub : ∀ o ∈ objects, o ∈ s.objects) {arena : Handle} {marks : List (Mark × ℕ)} :
    Holds ⟨heap, arena, objects, marks⟩ :=
  hholds.keep hsub fun o ho _ hle hlt =>
    honly _ (href.off_headers htarget hsound (hsub o ho) hle hlt)

theorem refines_rewind (href : Refines platform s t) (htarget : Target platform)
    (hsound : Sound platform t) (hholds : Holds s) {i fuel depth : ℕ} {m : Mark}
    {older : List (Mark × ℕ)} {arena : Handle} (hmarks : s.marks.drop i = (m, depth) :: older)
    (hreturns : Returns (rewind fuel s.arena m) s.heap arena heap) :
    Refines platform ⟨heap, arena, s.objects.drop (s.objects.length - depth), (m, depth) :: older⟩
        (Arena.step platform t (.rewind i)) ∧
      Holds ⟨heap, arena, s.objects.drop (s.objects.length - depth), (m, depth) :: older⟩ := by
  obtain ⟨heap', hreturns', honly, hrep⟩ :=
    rewind_returns href.heap htarget m (Nat.lt_succ_self t.arena.blocks.length)
  rw [href.arena] at hreturns
  obtain ⟨rfl, rfl⟩ := (rewind_settles _ m).unique hreturns hreturns'
  change Refines platform _ (t.rewound i) ∧ _
  unfold Arena.State.rewound
  rw [← href.marks, hmarks]
  refine ⟨⟨rfl, hrep, ?_, rfl⟩,
    href.holds_sublist htarget hsound hholds honly fun o ho => List.mem_of_mem_drop ho⟩
  change (s.objects.drop (s.objects.length - depth)).map Object.piece = keep t.live depth
  rw [List.map_drop, href.live, ← List.length_map (f := Object.piece), href.live]
  rfl

theorem refines_reset (href : Refines platform s t) (htarget : Target platform) {fuel : ℕ}
    (hreturns : Returns (reset fuel s.arena) s.heap () heap) :
    Refines platform ⟨heap, s.arena, [], []⟩ (Arena.step platform t .reset) ∧
      Holds ⟨heap, s.arena, [], []⟩ := by
  obtain ⟨heap', hreturns', -, hrep⟩ :=
    reset_returns href.heap htarget (Nat.lt_succ_self t.arena.blocks.length)
  rw [href.arena] at hreturns
  obtain ⟨-, rfl⟩ := (resetLoop_settles _).unique hreturns hreturns'
  refine ⟨⟨?_, hrep, rfl, rfl⟩, fun o ho => by simp at ho⟩
  rw [href.arena]
  change handleOf t.arena = handleOf (Arena.reset t.arena)
  simp [handleOf, Arena.reset, clearUsed, Function.comp_def]

theorem refines_deinit (href : Refines platform s t) {fuel : ℕ} {arena : Handle}
    (hreturns : Returns (deinit fuel s.arena) s.heap arena heap) :
    Refines platform ⟨heap, arena, [], []⟩ (Arena.step platform t .deinit) ∧
      Holds ⟨heap, arena, [], []⟩ := by
  obtain ⟨heap', hreturns', -, hregions⟩ :=
    deinit_returns href.heap (Nat.lt_succ_self t.arena.blocks.length)
  rw [href.arena] at hreturns
  obtain ⟨rfl, rfl⟩ := (deinit_settles _).unique hreturns hreturns'
  refine ⟨⟨rfl, ⟨⟨by simp [Arena.step, Arena.deinit, arenaInit],
    by simp [Arena.step, Arena.deinit, arenaInit]⟩, hregions, trivial,
    by simp [Arena.step, Arena.deinit, arenaInit], fun hv => ?_⟩, rfl, rfl⟩,
    fun o ho => by simp at ho⟩
  cases hv

theorem refines_write (href : Refines platform s t) (htarget : Target platform)
    (hsound : Sound platform t) (hholds : Holds s) {i offset : ℕ} {bytes : Bytes} {o : Object}
    (ho : s.objects[i]? = some o) (hin : offset + bytes.length ≤ o.piece.size) :
    Refines platform { s with
        heap := s.heap.store (o.piece.start + offset) bytes,
        objects := s.objects.set i (o.write offset bytes) } t ∧
      Holds { s with
        heap := s.heap.store (o.piece.start + offset) bytes,
        objects := s.objects.set i (o.write offset bytes) } := by
  have hmem := List.mem_of_getElem? ho
  have hoff := fun a hle hlt => href.off_headers htarget hsound hmem (a := a) hle hlt
  have hpieces := hsound.filed.pairwise_apart hsound.frames_apart
  rw [← href.live, List.pairwise_map] at hpieces
  refine ⟨⟨href.arena, href.heap.congr rfl ?_, ?_, href.marks⟩, ?_⟩
  · intro block hblock a ha
    apply cells_store_apart
    by_contra hwithin
    exact ha (hoff a (by omega) (by omega) _ (List.mem_map_of_mem hblock))
  · change (s.objects.set i (o.write offset bytes)).map Object.piece = t.live
    have hpiece : (s.objects.map Object.piece)[i]? = some o.piece := by
      rw [List.getElem?_map, ho]
      rfl
    obtain ⟨hi, heq⟩ := List.getElem?_eq_some_iff.1 hpiece
    change (s.objects.set i (o.write offset bytes)).map Object.piece = _
    rw [List.map_set, ← href.live]
    change (s.objects.map Object.piece).set i o.piece = _
    rw [← heq, List.set_getElem_self]
  · intro o' ho' k hk b hb
    obtain ⟨j, hj⟩ := List.mem_iff_getElem?.1 ho'
    change (s.heap.store (o.piece.start + offset) bytes).cells (o'.piece.start + k) = b
    change (s.objects.set i (o.write offset bytes))[j]? = some o' at hj
    rw [List.getElem?_set] at hj
    split_ifs at hj with hij hlt
    · obtain rfl := Option.some.inj hj
      change (if offset ≤ k ∧ k < offset + bytes.length then bytes[k - offset]? else o.known k) =
        some b at hb
      change (s.heap.store (o.piece.start + offset) bytes).cells (o.piece.start + k) = b
      split_ifs at hb with hrange
      · obtain ⟨hindex, rfl⟩ := List.getElem?_eq_some_iff.1 hb
        rw [← cells_store_same hindex]
        congr 1
        omega
      · rw [cells_store_apart (by omega)]
        exact hholds o hmem k hk b hb
    · have hmem' := List.mem_of_getElem? hj
      have hapart : Apart o.piece o'.piece := by
        obtain ⟨hi, hoi⟩ := List.getElem?_eq_some_iff.1 ho
        obtain ⟨hj, hoj⟩ := List.getElem?_eq_some_iff.1 hj
        rw [← hoi, ← hoj]
        rcases Nat.lt_or_gt_of_ne hij with hlt | hgt
        · exact List.pairwise_iff_getElem.1 hpieces i j hi hj hlt
        · exact Or.symm (List.pairwise_iff_getElem.1 hpieces j i hj hi hgt)
      unfold Apart at hapart
      rw [cells_store_apart (by omega)]
      exact hholds o' hmem' k hk b hb

theorem refines_outside (href : Refines platform s t) (htarget : Target platform)
    (hsound : Sound platform t) (hholds : Holds s) {a : ℕ} (byte : UInt8)
    (ha : ∀ r ∈ s.heap.regions, a < r.base ∨ r.base + r.size ≤ a) :
    Refines platform
        { s with heap := { s.heap with cells := Function.update s.heap.cells a byte } } t ∧
      Holds { s with heap := { s.heap with cells := Function.update s.heap.cells a byte } } := by
  have hblock : ∀ block ∈ t.arena.blocks, a < block.address ∨
      block.address + block.allocationSize ≤ a := fun block hblock =>
    ha (regionOf t.arena.backend block) (href.heap.regions ▸ List.mem_map_of_mem hblock)
  have hother : ∀ a', a' ≠ a → Function.update s.heap.cells a byte a' = s.heap.cells a' :=
    fun a' hne => Function.update_of_ne hne _ _
  refine ⟨⟨href.arena, href.heap.congr rfl fun block hmem a' hoff => hother a' ?_, href.live,
    href.marks⟩, hholds.keep (fun o ho => ho) fun o ho a' hle hlt => hother a' ?_⟩
  · rintro rfl
    have hapart := hblock block hmem
    have hstart := headerSize_le_dataStart htarget block
    have hend := (hsound.blocks block hmem).data_end
    unfold OffHeader at hoff
    omega
  · rintro rfl
    have hlive : o.piece ∈ t.live := href.live ▸ List.mem_map_of_mem ho
    obtain ⟨f, hf, hstart, hend⟩ := hsound.filed.inside _ hlive
    obtain ⟨block, hmem, rfl⟩ := List.mem_map.1 hf
    change dataStart platform block ≤ o.piece.start at hstart
    change o.piece.start + o.piece.size ≤ dataStart platform block + block.used at hend
    have hapart := hblock block hmem
    have haddress := address_le_dataStart platform block
    have hdata := (hsound.blocks block hmem).data_end
    have hused := (hsound.blocks block hmem).used_le
    omega

/-- One event is followed by the list of blocks, by induction on the cases of the step. -/
theorem Refines.step (href : Refines platform s t) (htarget : Target platform)
    (hsound : Sound platform t) (hholds : Holds s) {e : Event} (hstep : Step platform s e s') :
    (∀ op ∈ e.op, op.Legal t) ∧ Refines platform s' (follow platform t e) ∧ Holds s' := by
  cases hstep with
  | init config =>
    exact ⟨by simp [Event.op, Op.Legal], refines_init href htarget hholds config⟩
  | request hlegal hreturns =>
    refine ⟨?_, refines_request href htarget hsound hholds hlegal hreturns⟩
    rintro op hop
    obtain rfl := Option.some.inj hop
    exact hlegal.blocks href.heap
  | mark hreturns => exact ⟨by simp [Event.op, Op.Legal], refines_mark href hholds hreturns⟩
  | @rewind i fuel depth m older arena heap hmarks hreturns =>
    refine ⟨?_, refines_rewind href htarget hsound hholds hmarks hreturns⟩
    rintro op hop
    obtain rfl := Option.some.inj hop
    change i < t.marks.length
    rw [← href.marks]
    by_contra hge
    rw [List.drop_eq_nil_of_le (Nat.not_lt.1 hge)] at hmarks
    cases hmarks
  | reset hreturns => exact ⟨by simp [Event.op, Op.Legal], refines_reset href htarget hreturns⟩
  | deinit hreturns => exact ⟨by simp [Event.op, Op.Legal], refines_deinit href hreturns⟩
  | @write i offset bytes o heap ho hin hreturns =>
    refine ⟨by simp [Event.op], ?_⟩
    have hlive : o.piece ∈ t.live := href.live ▸ List.mem_map_of_mem (List.mem_of_getElem? ho)
    obtain ⟨r, hr, hbase, hend⟩ := (live_inside htarget hsound href.heap hlive).1
    have haccess : s.heap.Accessible (o.piece.start + offset) bytes.length :=
      ⟨r, hr, by omega, by omega⟩
    obtain ⟨-, rfl⟩ := hreturns.unique (returns_storeBytes haccess)
    exact refines_write href htarget hsound hholds ho hin
  | outside ha =>
    exact ⟨by simp [Event.op], refines_outside href htarget hsound hholds _ ha⟩

theorem Refines.start (hstart : (memory platform).start s) :
    Refines platform s ⟨arenaInit, [], []⟩ ∧ Holds s := by
  obtain ⟨hregions, harena, hobjects, hmarks⟩ := hstart
  refine ⟨⟨harena, ⟨⟨by simp [arenaInit], by simp [arenaInit]⟩, hregions, trivial,
    by simp [arenaInit], fun hv => by cases hv⟩, by rw [hobjects]; rfl, hmarks⟩, fun o ho => ?_⟩
  rw [hobjects] at ho
  cases ho

theorem refines_of_run (htarget : Target platform) {es : List Event}
    (h : Run (memory platform) es s) :
    ∃ t, Run (system platform) (es.filterMap Event.op) t ∧ Refines platform s t ∧ Holds s := by
  refine h.invariant (P := fun es s => ∃ t, Run (system platform) (es.filterMap Event.op) t ∧
    Refines platform s t ∧ Holds s) ?_ ?_
  · intro s hs
    exact ⟨_, .start rfl, Refines.start hs⟩
  · rintro es s e s' ⟨t, hrun, href, hholds⟩ hstep
    have hsound := sound_of_reachable ⟨_, hrun⟩
    obtain ⟨hlegal, href', hholds'⟩ := href.step htarget hsound hholds hstep
    refine ⟨follow platform t e, ?_, href', hholds'⟩
    rw [List.filterMap_append]
    cases hop : e.op with
    | none =>
      simpa [hop, follow] using hrun
    | some op =>
      have hstep' := run_step hrun op (hlegal op hop)
      simpa [hop, follow] using hstep'

/-! ## A text -/

theorem lp64_target : Target lp64 := ⟨by decide, ⟨12, rfl⟩, by decide⟩

/-- A text is copied into an arena, and its first character is then overwritten. -/
def textEvents : List Event :=
  [.call (.request (.strdup (some [104, 105])) (osAt 4096)), .write 0 0 [72]]

def textObject : Object := (Object.new 4144 3 (some [104, 105, 0])).write 0 [72]

theorem text_run : ∃ s, Run (memory lp64) textEvents s ∧ s.objects = [textObject] := by
  have hstart : (memory lp64).start ⟨⟨fun _ => 0, []⟩, handleInit, [], []⟩ := ⟨rfl, rfl, rfl, rfl⟩
  obtain ⟨href, -⟩ := Refines.start hstart
  have hlegal : Legal (osAt 4096) ⟨fun _ => 0, []⟩ := by
    have hempty : (osAt 4096).Legal arenaInit := osAt_legal (by decide) (by decide)
    exact fun size address hregion => ⟨(hempty size address hregion).1, by simp⟩
  obtain ⟨heap, hreturns, hrep, -⟩ :=
    request_answers href.heap lp64_target (hlegal.blocks href.heap) (.strdup (some [104, 105]))
  have hresult : (Arena.request lp64 (osAt 4096) arenaInit (.strdup (some [104, 105]))).1 =
      some 4144 := by decide
  rw [hresult] at hreturns
  have haccess : heap.Accessible 4144 1 := by
    unfold Heap.Accessible
    rw [hrep.regions]
    decide
  exact ⟨_, ((Run.start hstart).step (.request hlegal hreturns)).step
    (.write rfl (by decide) (returns_storeBytes haccess)), rfl⟩

/-! ## What holds of every run -/

/-- Every run on the memory is one of the same calls on the list of blocks. The chain that the
`next` pointers form is the list of blocks, the regions that the system has handed out are its
blocks, and the walks that add up fields give the sums over it. -/
theorem memory_refines (platform : Platform) (htarget : Target platform) (es : List Event)
    (s : State) (h : Run (memory platform) es s) :
    ∃ t, Run (system platform) (es.filterMap Event.op) t ∧ Refines platform s t ∧
      ∃ fuel, Returns (used fuel s.arena) s.heap (Arena.used t.arena) s.heap ∧
        Returns (capacity fuel s.arena) s.heap (Arena.capacity t.arena) s.heap := by
  obtain ⟨t, hrun, href, -⟩ := refines_of_run htarget h
  refine ⟨t, hrun, href, t.arena.blocks.length + 1, ?_⟩
  rw [href.arena]
  exact ⟨used_returns href.heap (Nat.lt_succ_self _),
    capacity_returns href.heap (Nat.lt_succ_self _)⟩

theorem memory_refines_text : ∃ s t, Run (memory lp64) textEvents s ∧
    Run (system lp64) [.request (.strdup (some [104, 105])) (osAt 4096)] t ∧
    Refines lp64 s t := by
  obtain ⟨s, hrun, -⟩ := text_run
  obtain ⟨t, hrun', href, -⟩ := memory_refines lp64 lp64_target _ s hrun
  exact ⟨s, t, hrun, hrun', href⟩

/-- No legal event meets undefined behaviour or goes on for ever, and `lor_arena_deinit` leaves no
region behind. -/
theorem calls_return (platform : Platform) (htarget : Target platform) (s : State)
    (h : Reachable (memory platform) s) (e : Event) (hlegal : e.Legal s) :
    ∃ s', Step platform s e s' ∧ (e = .call .deinit → s'.heap.regions = []) := by
  obtain ⟨es, hrun⟩ := h
  obtain ⟨t, hrun', href, -⟩ := refines_of_run htarget hrun
  have hsound := sound_of_reachable ⟨_, hrun'⟩
  have hfuel := Nat.lt_succ_self t.arena.blocks.length
  cases e with
  | call op =>
    cases op with
    | init config => exact ⟨_, .init config, by simp⟩
    | request r os =>
      obtain ⟨heap', hreturns, -⟩ := request_answers href.heap htarget (hlegal.blocks href.heap) r
      rw [← href.arena] at hreturns
      exact ⟨_, .request hlegal hreturns, by simp⟩
    | mark =>
      have hreturns := mark_returns href.heap
      rw [← href.arena] at hreturns
      exact ⟨_, .mark hreturns, by simp⟩
    | rewind i =>
      have hmarks := List.drop_eq_getElem_cons hlegal
      obtain ⟨heap', hreturns, -⟩ := rewind_returns href.heap htarget s.marks[i].1 hfuel
      rw [← href.arena] at hreturns
      exact ⟨_, .rewind hmarks hreturns, by simp⟩
    | reset =>
      obtain ⟨heap', hreturns, -⟩ := reset_returns href.heap htarget hfuel
      rw [← href.arena] at hreturns
      exact ⟨_, .reset hreturns, by simp⟩
    | deinit =>
      obtain ⟨heap', hreturns, -, hregions⟩ := deinit_returns href.heap hfuel
      rw [← href.arena] at hreturns
      exact ⟨_, .deinit hreturns, fun _ => hregions⟩
  | write i offset bytes =>
    obtain ⟨o, ho, hin⟩ := hlegal
    have hlive : o.piece ∈ t.live := href.live ▸ List.mem_map_of_mem (List.mem_of_getElem? ho)
    obtain ⟨r, hr, hbase, hend⟩ := (live_inside htarget hsound href.heap hlive).1
    exact ⟨_, .write ho hin (returns_storeBytes ⟨r, hr, by omega, by omega⟩), by simp⟩
  | outside a byte => exact ⟨_, .outside hlegal, by simp⟩

theorem calls_return_text : ∃ s s', Run (memory lp64) textEvents s ∧ s.objects.length = 1 ∧
    Step lp64 s (.call .deinit) s' ∧ s'.heap.regions = [] := by
  obtain ⟨s, hrun, hobjects⟩ := text_run
  obtain ⟨s', hstep, hregions⟩ := calls_return lp64 lp64_target s ⟨_, hrun⟩ (.call .deinit) trivial
  exact ⟨s, s', hrun, congrArg List.length hobjects, hstep, hregions rfl⟩

/-- What a live allocation was filled with, or what has last been written into it, is what the
memory holds there. -/
theorem contents_kept (platform : Platform) (htarget : Target platform) (s : State)
    (h : Reachable (memory platform) s) :
    ∀ o ∈ s.objects, ∀ k, k < o.piece.size → ∀ b ∈ o.known k,
      s.heap.cells (o.piece.start + k) = b := by
  obtain ⟨es, hrun⟩ := h
  obtain ⟨-, -, -, hholds⟩ := refines_of_run htarget hrun
  exact hholds

theorem contents_kept_text : ∃ s, Run (memory lp64) textEvents s ∧
    s.heap.cells 4144 = 72 ∧ s.heap.cells 4145 = 105 ∧ s.heap.cells 4146 = 0 := by
  obtain ⟨s, hrun, hobjects⟩ := text_run
  have hkept := contents_kept lp64 lp64_target s ⟨_, hrun⟩ textObject (by simp [hobjects])
  exact ⟨s, hrun, hkept 0 (by decide) 72 (by decide), hkept 1 (by decide) 105 (by decide),
    hkept 2 (by decide) 0 (by decide)⟩

end Liblor.Arena.Pointers
