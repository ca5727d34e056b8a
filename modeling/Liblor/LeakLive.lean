import Liblor.LeakTable

/-!
# What the record table should hold

The live resources are the heap blocks, the arenas and the mappings that the program was given and
has not released. An initialized arena is live until it is deinitialized, also where its object went
away with the storage it lay in: it is then reported under the last address of the object.
-/

namespace Liblor.Leak

open DoublyLinked

def heapRecord (block : ℕ × ℕ) : LorLeakRecord := ⟨.heap, block.1, block.2⟩

/-- Arenas are recorded without a size. -/
def arenaRecord (arena : ℕ) : LorLeakRecord := ⟨.arena, arena, 0⟩

def mapRecord (map : ℕ × ℕ) : LorLeakRecord := ⟨.mmap, map.1, map.2⟩

def recordsOf (heap : List (ℕ × ℕ)) (arenas : List ℕ) (maps : List (ℕ × ℕ)) :
    List LorLeakRecord :=
  heap.map heapRecord ++ arenas.map arenaRecord ++ maps.map mapRecord

def liveArenas (world : World) : List ℕ := world.arenas.map Prod.fst ++ world.lost

def resources (world : World) : List LorLeakRecord :=
  recordsOf world.heap (liveArenas world) world.maps

def liveStats (world : World) : LorLeakStats where
  heapCount := world.heap.length
  heapBytes := (world.heap.map Prod.snd).sum
  arenaCount := (liveArenas world).length
  mmapCount := world.maps.length
  mmapBytes := (world.maps.map Prod.snd).sum

/-- The links are in order, there is one record for every live resource, and the two functions give
the numbers and sizes of the live resources. -/
structure Matches (world : World) : Prop where
  records : ∃ records, Holds world.table records ∧ records.Perm (resources world)
  stats : leakcheckStats world.table = some (liveStats world)
  count : leakcheckCount world.table =
    some (world.heap.length + (liveArenas world).length + world.maps.length)

section Legal

variable (world : World)

/-- The system has room for a record. -/
def FreshRecord (node : ℕ) : Prop := node ≠ 0 ∧ node ∉ world.table.allocated

/-- The system does not hand out a live block a second time. -/
def FreshBlock (answer : ℕ) : Prop := answer ∉ world.heap.map Prod.fst

/-- The program passes `NULL` or what it was given and has not released, and the system hands out
what is not in use. -/
def Legal : Call → Prop
  | .malloc _ answer node => FreshBlock world answer ∧ FreshRecord world node
  | .calloc _ _ answer node => FreshBlock world answer ∧ FreshRecord world node
  | .realloc ptr _ answer node => (ptr = 0 ∨ ptr ∈ world.heap.map Prod.fst) ∧
      (answer = ptr ∨ FreshBlock world answer) ∧ FreshRecord world node
  | .free ptr => ptr = 0 ∨ ptr ∈ world.heap.map Prod.fst
  | .strdup _ answer node => FreshBlock world answer ∧ FreshRecord world node
  | .arenaInit _ _ node => FreshRecord world node
  | .arenaAlloc _ _ _ node => FreshRecord world node
  | .arenaDeinit _ => True
  | .mmapFile _ _ os node =>
    (∀ data ∈ os.mmap, data ≠ 0 ∧ data ∉ world.maps.map Prod.fst) ∧ FreshRecord world node
  | .mmapUnmap map => ∀ m ∈ map, m.data = 0 ∨ (m.data, m.size) ∈ world.maps
  | .leave _ _ => True

instance (node : ℕ) : Decidable (FreshRecord world node) :=
  inferInstanceAs (Decidable (_ ∧ _))

instance (answer : ℕ) : Decidable (FreshBlock world answer) :=
  inferInstanceAs (Decidable (_ ∉ _))

instance (call : Call) : Decidable (Legal world call) :=
  match call with
  | .malloc _ _ _ => inferInstanceAs (Decidable (_ ∧ _))
  | .calloc _ _ _ _ => inferInstanceAs (Decidable (_ ∧ _))
  | .realloc _ _ _ _ => inferInstanceAs (Decidable (_ ∧ _ ∧ _))
  | .free _ => inferInstanceAs (Decidable (_ ∨ _))
  | .strdup _ _ _ => inferInstanceAs (Decidable (_ ∧ _))
  | .arenaInit _ _ node => inferInstanceAs (Decidable (FreshRecord world node))
  | .arenaAlloc _ _ _ node => inferInstanceAs (Decidable (FreshRecord world node))
  | .arenaDeinit _ => inferInstanceAs (Decidable True)
  | .mmapFile _ _ _ _ => inferInstanceAs (Decidable (_ ∧ _))
  | .mmapUnmap map => inferInstanceAs (Decidable (∀ m ∈ map, _))
  | .leave _ _ => inferInstanceAs (Decidable True)

/-- The call does not move a block in which an initialized arena lies, and does not deinitialize an
arena that was not initialized at the address of one that went away with its storage. -/
def Careful (arenaSize : ℕ) : Call → Prop
  | .realloc ptr size answer _ => ptr ≠ 0 → size ≠ 0 → answer ≠ 0 → answer ≠ ptr →
      ∀ x ∈ world.arenas, ¬Kept arenaSize world ptr size x.1
  | .arenaDeinit arena => arena ≠ 0 → arena ∈ world.lost → arena ∈ world.arenas.map Prod.fst
  | _ => True

instance (arenaSize : ℕ) (call : Call) : Decidable (Careful world arenaSize call) :=
  match call with
  | .realloc ptr size answer _ => inferInstanceAs (Decidable (ptr ≠ 0 → size ≠ 0 → answer ≠ 0 →
      answer ≠ ptr → ∀ x ∈ world.arenas, ¬Kept arenaSize world ptr size x.1))
  | .arenaDeinit arena => inferInstanceAs (Decidable (arena ≠ 0 → arena ∈ world.lost →
      arena ∈ world.arenas.map Prod.fst))
  | .malloc _ _ _ => inferInstanceAs (Decidable True)
  | .calloc _ _ _ _ => inferInstanceAs (Decidable True)
  | .free _ => inferInstanceAs (Decidable True)
  | .strdup _ _ _ => inferInstanceAs (Decidable True)
  | .arenaInit _ _ _ => inferInstanceAs (Decidable True)
  | .arenaAlloc _ _ _ _ => inferInstanceAs (Decidable True)
  | .mmapFile _ _ _ _ => inferInstanceAs (Decidable True)
  | .mmapUnmap _ => inferInstanceAs (Decidable True)
  | .leave _ _ => inferInstanceAs (Decidable True)

end Legal

section Records

variable {heap maps : List (ℕ × ℕ)} {arenas : List ℕ} {records : List LorLeakRecord}
  {ptr size node : ℕ} {table : Table} {r : LorLeakRecord}

/-- The table has the records of these blocks, arenas and mappings. -/
def Recorded (table : Table) (heap : List (ℕ × ℕ)) (arenas : List ℕ) (maps : List (ℕ × ℕ)) :
    Prop :=
  ∃ records, Holds table records ∧ records.Perm (recordsOf heap arenas maps)

theorem mem_recordsOf : r ∈ recordsOf heap arenas maps ↔
    (∃ b ∈ heap, heapRecord b = r) ∨ (∃ a ∈ arenas, arenaRecord a = r) ∨
      ∃ m ∈ maps, mapRecord m = r := by
  unfold recordsOf
  rw [List.mem_append, List.mem_append, List.mem_map, List.mem_map, List.mem_map, or_assoc]

theorem heap_unique (hapart : (heap.map Prod.fst).Nodup) (hmem : (ptr, size) ∈ heap)
    (hr : r ∈ recordsOf heap arenas maps) (hkind : r.kind = .heap) (hptr : r.ptr = ptr) :
    r = heapRecord (ptr, size) := by
  rcases mem_recordsOf.1 hr with ⟨b, hb, rfl⟩ | ⟨a, -, rfl⟩ | ⟨m, -, rfl⟩
  · rw [List.inj_on_of_nodup_map hapart hb hmem hptr]
  · cases hkind
  · cases hkind

theorem map_unique (hapart : (maps.map Prod.fst).Nodup) (hmem : (ptr, size) ∈ maps)
    (hr : r ∈ recordsOf heap arenas maps) (hkind : r.kind = .mmap) (hptr : r.ptr = ptr) :
    r = mapRecord (ptr, size) := by
  rcases mem_recordsOf.1 hr with ⟨b, -, rfl⟩ | ⟨a, -, rfl⟩ | ⟨m, hm, rfl⟩
  · cases hkind
  · cases hkind
  · rw [List.inj_on_of_nodup_map hapart hm hmem hptr]

theorem arena_unique (hr : r ∈ recordsOf heap arenas maps) (hkind : r.kind = .arena)
    (hptr : r.ptr = ptr) : r = arenaRecord ptr := by
  rcases mem_recordsOf.1 hr with ⟨b, -, rfl⟩ | ⟨a, -, rfl⟩ | ⟨m, -, rfl⟩
  · cases hkind
  · exact congrArg arenaRecord hptr
  · cases hkind

theorem isFor_iff {kind : LorLeakKind} : isFor ptr kind r = true ↔ r.ptr = ptr ∧ r.kind = kind := by
  unfold isFor
  rw [Bool.and_eq_true, beq_iff_eq, beq_iff_eq]

/-- Where one record only has the pointer and the kind, the first one found is that record. -/
theorem eraseP_eq_erase {kind : LorLeakKind} (hr : r.ptr = ptr ∧ r.kind = kind)
    (hunique : ∀ x ∈ records, x.kind = kind → x.ptr = ptr → x = r) :
    records.eraseP (isFor ptr kind) = records.erase r := by
  induction records with
  | nil => rfl
  | cons x records ih =>
    have hrest := ih fun y hy => hunique y (List.mem_cons_of_mem _ hy)
    have hiff : isFor ptr kind x = true ↔ x = r := by
      rw [isFor_iff]
      constructor
      · rintro ⟨hptr, hkind⟩
        exact hunique x List.mem_cons_self hkind hptr
      · rintro rfl
        exact hr
    by_cases hx : x = r
    · rw [List.eraseP_cons_of_pos (hiff.2 hx), hx, List.erase_cons_head]
    · rw [List.eraseP_cons_of_neg (fun h => hx (hiff.1 h)),
        List.erase_cons_tail (by simpa using hx), hrest]

theorem heapRecord_injective : Function.Injective heapRecord := by
  rintro ⟨p, n⟩ ⟨q, m⟩ h
  simpa [heapRecord] using h

theorem mapRecord_injective : Function.Injective mapRecord := by
  rintro ⟨p, n⟩ ⟨q, m⟩ h
  simpa [mapRecord] using h

theorem arenaRecord_injective : Function.Injective arenaRecord := by
  intro a b h
  simpa [arenaRecord] using h

theorem erase_heapRecord {b : ℕ × ℕ} (hb : b ∈ heap) :
    (recordsOf heap arenas maps).erase (heapRecord b) = recordsOf (heap.erase b) arenas maps := by
  have hmem := List.mem_map_of_mem (f := heapRecord) hb
  unfold recordsOf
  rw [List.append_assoc, List.erase_append_left _ hmem, ← List.map_erase heapRecord_injective,
    ← List.append_assoc]

theorem erase_arenaRecord (a : ℕ) :
    (recordsOf heap arenas maps).erase (arenaRecord a) =
      recordsOf heap (arenas.erase a) maps := by
  have hheap : arenaRecord a ∉ heap.map heapRecord := by simp [heapRecord, arenaRecord]
  have hmaps : arenaRecord a ∉ maps.map mapRecord := by simp [mapRecord, arenaRecord]
  unfold recordsOf
  rw [List.append_assoc, List.erase_append_right _ hheap, List.append_assoc,
    List.map_erase arenaRecord_injective]
  by_cases ha : arenaRecord a ∈ arenas.map arenaRecord
  · rw [List.erase_append_left _ ha]
  · rw [List.erase_append_right _ ha, List.erase_of_not_mem hmaps, List.erase_of_not_mem ha]

theorem erase_mapRecord (m : ℕ × ℕ) :
    (recordsOf heap arenas maps).erase (mapRecord m) =
      recordsOf heap arenas (maps.erase m) := by
  have hbefore : mapRecord m ∉ heap.map heapRecord ++ arenas.map arenaRecord := by
    simp [heapRecord, arenaRecord, mapRecord]
  unfold recordsOf
  rw [List.erase_append_right _ hbefore, List.map_erase mapRecord_injective]

theorem cons_heapRecord (b : ℕ × ℕ) :
    recordsOf (b :: heap) arenas maps = heapRecord b :: recordsOf heap arenas maps := rfl

theorem cons_arenaRecord (a : ℕ) :
    (recordsOf heap (a :: arenas) maps).Perm (arenaRecord a :: recordsOf heap arenas maps) :=
  List.perm_middle.append_right _

theorem cons_mapRecord (m : ℕ × ℕ) :
    (recordsOf heap arenas (m :: maps)).Perm (mapRecord m :: recordsOf heap arenas maps) :=
  List.perm_middle

theorem Recorded.unique {arenas' : List ℕ} (h : Recorded table heap arenas maps)
    (h' : Recorded table heap arenas' maps) : arenas.Perm arenas' := by
  obtain ⟨records, hholds, hperm⟩ := h
  obtain ⟨records', hholds', hperm'⟩ := h'
  obtain rfl := hholds.unique hholds'
  have hmiddle := hperm.symm.trans hperm'
  unfold recordsOf at hmiddle
  rw [List.perm_append_right_iff, List.perm_append_left_iff] at hmiddle
  exact (List.map_perm_map_iff arenaRecord_injective).1 hmiddle

theorem Recorded.trackHeap (h : Recorded table heap arenas maps) (hptr : ptr ≠ 0)
    (hnode : node ≠ 0) (hnew : node ∉ table.allocated) (size : ℕ) :
    Recorded (track table .heap ptr size node) ((ptr, size) :: heap) arenas maps := by
  obtain ⟨records, hholds, hperm⟩ := h
  exact ⟨_, hholds.track hptr hnode hnew .heap size, hperm.cons _⟩

theorem Recorded.trackArena (h : Recorded table heap arenas maps) (hptr : ptr ≠ 0)
    (hnode : node ≠ 0) (hnew : node ∉ table.allocated) :
    Recorded (track table .arena ptr 0 node) heap (ptr :: arenas) maps := by
  obtain ⟨records, hholds, hperm⟩ := h
  exact ⟨_, hholds.track hptr hnode hnew .arena 0, (hperm.cons _).trans (cons_arenaRecord ptr).symm⟩

theorem Recorded.trackMap (h : Recorded table heap arenas maps) (hptr : ptr ≠ 0)
    (hnode : node ≠ 0) (hnew : node ∉ table.allocated) (size : ℕ) :
    Recorded (track table .mmap ptr size node) heap arenas ((ptr, size) :: maps) := by
  obtain ⟨records, hholds, hperm⟩ := h
  exact ⟨_, hholds.track hptr hnode hnew .mmap size,
    (hperm.cons _).trans (cons_mapRecord (ptr, size)).symm⟩

/-- Untracking takes away the one record that has the pointer and the kind. -/
theorem Holds.untrack_unique {kind : LorLeakKind} {all : List LorLeakRecord}
    (h : Holds table records) (hperm : records.Perm all) (hr : r.ptr = ptr ∧ r.kind = kind)
    (hunique : ∀ x ∈ all, x.kind = kind → x.ptr = ptr → x = r) :
    ∃ table' records', Leak.untrack table kind ptr = some table' ∧ Holds table' records' ∧
      records'.Perm (all.erase r) := by
  obtain ⟨table', huntrack, hholds⟩ := h.untrack kind ptr
  refine ⟨table', _, huntrack, hholds, ?_⟩
  rw [eraseP_eq_erase hr fun x hx => hunique x (hperm.mem_iff.1 hx)]
  exact hperm.erase r

theorem Recorded.untrackHeap (h : Recorded table heap arenas maps)
    (hapart : (heap.map Prod.fst).Nodup) (hmem : (ptr, size) ∈ heap) :
    ∃ table', untrack table .heap ptr = some table' ∧
      Recorded table' (heap.erase (ptr, size)) arenas maps := by
  obtain ⟨records, hholds, hperm⟩ := h
  obtain ⟨table', records', huntrack, hholds', hperm'⟩ :=
    hholds.untrack_unique (r := heapRecord (ptr, size)) hperm ⟨rfl, rfl⟩
      fun x hx => heap_unique hapart hmem hx
  rw [erase_heapRecord hmem] at hperm'
  exact ⟨table', huntrack, records', hholds', hperm'⟩

theorem Recorded.untrackArena (h : Recorded table heap arenas maps) (ptr : ℕ) :
    ∃ table', untrack table .arena ptr = some table' ∧
      Recorded table' heap (arenas.erase ptr) maps := by
  obtain ⟨records, hholds, hperm⟩ := h
  obtain ⟨table', records', huntrack, hholds', hperm'⟩ :=
    hholds.untrack_unique (r := arenaRecord ptr) hperm ⟨rfl, rfl⟩ fun x hx => arena_unique hx
  rw [erase_arenaRecord] at hperm'
  exact ⟨table', huntrack, records', hholds', hperm'⟩

theorem Recorded.untrackMap (h : Recorded table heap arenas maps)
    (hapart : (maps.map Prod.fst).Nodup) (hmem : (ptr, size) ∈ maps) :
    ∃ table', untrack table .mmap ptr = some table' ∧
      Recorded table' heap arenas (maps.erase (ptr, size)) := by
  obtain ⟨records, hholds, hperm⟩ := h
  obtain ⟨table', records', huntrack, hholds', hperm'⟩ :=
    hholds.untrack_unique (r := mapRecord (ptr, size)) hperm ⟨rfl, rfl⟩
      fun x hx => map_unique hapart hmem hx
  rw [erase_mapRecord] at hperm'
  exact ⟨table', huntrack, records', hholds', hperm'⟩

/-- The record of a block takes over another pointer and another size. -/
theorem Recorded.moveHeap (h : Recorded table heap arenas maps)
    (hapart : (heap.map Prod.fst).Nodup) (hmem : (ptr, size) ∈ heap) :
    ∃ record, find table ptr .heap = some record ∧ record ≠ 0 ∧
      (table.leaks.cell record).value = heapRecord (ptr, size) ∧ ∀ b,
      Recorded { table with leaks := table.leaks.setValue record (heapRecord b) }
        (b :: heap.erase (ptr, size)) arenas maps := by
  obtain ⟨records, hholds, hperm⟩ := h
  have hunique : ∀ x ∈ records, x.kind = .heap → x.ptr = ptr → x = heapRecord (ptr, size) :=
    fun x hx => heap_unique hapart hmem (hperm.mem_iff.1 hx)
  have hrecord : heapRecord (ptr, size) ∈ records :=
    hperm.mem_iff.2 (mem_recordsOf.2 (Or.inl ⟨_, hmem, rfl⟩))
  obtain ⟨record, found, hfind, hne, hfound, hfor, hvalue, hset⟩ :=
    hholds.setValue hrecord (isFor_iff.2 ⟨rfl, rfl⟩)
  have heq := hunique found hfound (isFor_iff.1 hfor).2 (isFor_iff.1 hfor).1
  refine ⟨record, hfind, hne, hvalue.trans heq, fun b => ?_⟩
  obtain ⟨records', hholds', hperm'⟩ := hset (heapRecord b)
  refine ⟨records', hholds', hperm'.trans ?_⟩
  rw [eraseP_eq_erase (r := heapRecord (ptr, size)) ⟨rfl, rfl⟩ hunique, cons_heapRecord,
    ← erase_heapRecord hmem]
  exact (hperm.erase _).cons _

end Records

section Stats

variable {heap maps : List (ℕ × ℕ)} {arenas : List ℕ} {table : Table}

instance : RightCommutative countRecord where
  right_comm stats r r' := by
    rcases r with ⟨_ | _ | _, ptr, size⟩ <;> rcases r' with ⟨_ | _ | _, ptr', size'⟩ <;>
      simp only [countRecord, LorLeakStats.mk.injEq, true_and, and_true] <;> omega

theorem foldl_heap (stats : LorLeakStats) (heap : List (ℕ × ℕ)) :
    (heap.map heapRecord).foldl countRecord stats = { stats with
      heapCount := stats.heapCount + heap.length
      heapBytes := stats.heapBytes + (heap.map Prod.snd).sum } := by
  induction heap generalizing stats with
  | nil => rfl
  | cons b heap ih =>
    simp only [List.map_cons, List.foldl_cons, ih, countRecord, heapRecord, List.length_cons,
      List.sum_cons, LorLeakStats.mk.injEq, and_true]
    omega

theorem foldl_arenas (stats : LorLeakStats) (arenas : List ℕ) :
    (arenas.map arenaRecord).foldl countRecord stats =
      { stats with arenaCount := stats.arenaCount + arenas.length } := by
  induction arenas generalizing stats with
  | nil => rfl
  | cons a arenas ih =>
    simp only [List.map_cons, List.foldl_cons, ih, countRecord, arenaRecord, List.length_cons,
      LorLeakStats.mk.injEq, true_and, and_true]
    omega

theorem foldl_maps (stats : LorLeakStats) (maps : List (ℕ × ℕ)) :
    (maps.map mapRecord).foldl countRecord stats = { stats with
      mmapCount := stats.mmapCount + maps.length
      mmapBytes := stats.mmapBytes + (maps.map Prod.snd).sum } := by
  induction maps generalizing stats with
  | nil => rfl
  | cons m maps ih =>
    simp only [List.map_cons, List.foldl_cons, ih, countRecord, mapRecord, List.length_cons,
      List.sum_cons, LorLeakStats.mk.injEq, true_and]
    omega

theorem Recorded.stats (h : Recorded table heap arenas maps) :
    leakcheckStats table = some ⟨heap.length, (heap.map Prod.snd).sum, arenas.length, maps.length,
      (maps.map Prod.snd).sum⟩ := by
  obtain ⟨records, hholds, hperm⟩ := h
  rw [hholds.stats, hperm.foldl_eq]
  unfold recordsOf
  simp only [List.foldl_append, foldl_heap, foldl_arenas, foldl_maps, Nat.zero_add]

theorem matches_iff {world : World} :
    Matches world ↔ Recorded world.table world.heap (liveArenas world) world.maps := by
  constructor
  · intro h
    exact h.records
  · intro h
    refine ⟨h, h.stats, ?_⟩
    unfold leakcheckCount
    rw [h.stats]
    rfl

end Stats

end Liblor.Leak
