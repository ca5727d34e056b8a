import Liblor.MapUpdate

/-!
# What the removals of a map can do

Backward-shift deletion, the last entry moved into the gap, and the clearing loop, each with the
`drop` calls that it makes.
-/

namespace Liblor.Map

open LinearProbe DenseList

variable {env : Env} {map : LorMap} {world : World} {source : Source}

theorem take_set_last {l : List Entry} {i : ℕ} {x : Entry}
    (h : i = l.length - 1 ∨ l[l.length - 1]? = some x) :
    (l.set i x).take (l.length - 1) = swapRemove l i := by
  rcases List.eq_nil_or_concat' l with rfl | ⟨init, y, rfl⟩
  · rfl
  · rw [swapRemove_concat]
    rcases h with rfl | hx
    · simp [List.set_eq_of_length_le]
    · obtain rfl : y = x := by simpa using hx
      by_cases hi : i < init.length
      · rw [List.set_append_left _ _ hi]
        simp
      · rw [List.set_append_right _ _ (by omega), List.set_eq_of_length_le (l := init) (by omega)]
        simp

theorem keyAt_swapRemove {i j : ℕ} (buckets : List ℕ) (hj : j + 1 < map.size) :
    ((map.withEntries (swapRemove map.entries i)).withBuckets buckets).keyAt j =
      map.keyAt (if j = i then map.size - 1 else j) := by
  simp only [LorMap.keyAt, entries_withBuckets, entries_withEntries, getElem?_swapRemove hj]
  split_ifs <;> rfl

theorem size_swapRemove {i : ℕ} (buckets : List ℕ) :
    ((map.withEntries (swapRemove map.entries i)).withBuckets buckets).size = map.size - 1 :=
  length_swapRemove map.entries i

theorem mem_swapRemove {i : ℕ} (hi : i < map.size) {e : Entry}
    (he : e ∈ swapRemove map.entries i) : e ∈ map.entries :=
  List.mem_of_mem_eraseIdx ((swapRemove_perm hi).mem_iff.mp he)

theorem Inv.swapRemove (h : Inv env map) (hlaw : Lawful env map.config map.keySize) {i : ℕ}
    (hi : i < map.size) {buckets : List ℕ} (hlen : buckets.length = map.bucketCapacity)
    (hindex : Index env ((map.withEntries (swapRemove map.entries i)).withBuckets buckets)
      (· < map.size - 1)) :
    Inv env ((map.withEntries (DenseList.swapRemove map.entries i)).withBuckets buckets) where
  layout := h.layout
  config := h.config
  keys e he := h.keys e (mem_swapRemove hi he)
  values e he := h.values e (mem_swapRemove hi he)
  distinct := by
    intro b hb a hab
    rw [size_swapRemove] at hb
    rw [keyAt_swapRemove buckets (by omega), keyAt_swapRemove buckets (by omega)]
    by_contra heq
    rw [Bool.not_eq_false] at heq
    have ha' : (if a = i then map.size - 1 else a) < map.size := by split_ifs <;> omega
    have hb' : (if b = i then map.size - 1 else b) < map.size := by split_ifs <;> omega
    have hsame := h.index_unique hlaw (h.keyAt_ok hb') ha' hb' heq (hlaw.refl _ (h.keyAt_ok hb'))
    split_ifs at hsame <;> omega
  size_le := by
    rw [size_swapRemove]
    have := h.size_le
    change map.size - 1 ≤ map.capacity
    omega
  room := by
    change map.capacity < buckets.length ∨ map.capacity = 0 ∧ buckets.length = 0
    rw [hlen]
    exact h.room
  bounded := hlen.trans_le h.bounded
  placed := h.placed
  index _ := hindex.of_iff (fun j => by rw [size_swapRemove])

/-- Filling the gap at `i` with the last entry. Its key is looked up while slot `i` already holds a
copy of it and the bucket still names the last slot. -/
theorem fillGap_spec (h : Inv env map) (hlaw : Lawful env map.config map.keySize) {i : ℕ}
    (hi : i < map.size) (gap : Entry) {buckets : List ℕ}
    (hlen : buckets.length = map.bucketCapacity)
    (hindex : Index env (map.withBuckets buckets) (fun j => j ≠ i ∧ j < map.size)) :
    ∃ moved, fillGap env ((map.withEntries (map.entries.set i gap)).withBuckets buckets) i =
        some moved ∧ Inv env moved ∧
      Resized (map.withEntries (swapRemove map.entries i)) moved := by
  have hn : map.bucketCapacity ≠ 0 := by
    have := h.size_eq_zero
    omega
  have hlt := h.size_lt hn
  unfold fillGap
  simp only [size_withBuckets, size_withEntries, entries_withBuckets, entries_withEntries,
    List.length_set, withBuckets_withEntries, withEntries_withEntries, List.set_set]
  rw [← LorMap.size]
  by_cases hlast : i = map.size - 1
  · have hget : (map.entries.set i gap)[map.size - 1]? = some gap := by
      rw [← hlast, List.getElem?_set_self hi]
    have hentries : (map.entries.set i gap).take (map.size - 1) = swapRemove map.entries i :=
      take_set_last (Or.inl hlast)
    have hnot : ¬ i ≠ map.size - 1 := fun hne => hne hlast
    simp only [hget, if_neg hnot, hentries]
    refine ⟨_, rfl, ?_, ⟨rfl, rfl, rfl, rfl, le_rfl⟩⟩
    apply h.swapRemove hlaw hi hlen
    have hkept := hindex.of_iff (fun j => show _ ↔ j < map.size - 1 by omega)
    apply hkept.congr
    · rfl
    · intro j hj
      simp only [idealBucket, keyAt_swapRemove buckets (show j + 1 < map.size by omega),
        if_neg (show j ≠ i by omega)]
      rfl
  · obtain ⟨last, hget⟩ := getElem?_of_lt_size (show map.size - 1 < map.size by omega)
    have hget' : (map.entries.set i gap)[map.size - 1]? = some last := by
      rw [List.getElem?_set_ne hlast, hget]
    simp only [hget', ne_eq, hlast, not_false_eq_true, if_true, Option.bind_eq_bind]
    -- `staged` is the half-updated map that the last key is looked up in.
    obtain ⟨staged, hdef⟩ : ∃ staged, staged =
      (map.withEntries (map.entries.set i last)).withBuckets buckets := ⟨_, rfl⟩
    rw [← hdef]
    have hkeyAt : ∀ j, j ≠ i → staged.keyAt j = map.keyAt j := by
      intro j hj
      rw [hdef, keyAt_withBuckets, keyAt_set_of_ne last hj]
    have hkeyi : staged.keyAt i = last.key.bytes := by
      rw [hdef, keyAt_withBuckets, keyAt_set_self last hi]
    have hlastkey : map.keyAt (map.size - 1) = last.key.bytes := keyAt_of_getElem? hget
    have hlastok := h.keyAt_ok (show map.size - 1 < map.size by omega)
    have hconfig : staged.config = map.config := by rw [hdef]; rfl
    have hcap : staged.bucketCapacity = map.bucketCapacity := by rw [hdef]; exact hlen
    have hbuckets : staged.buckets = buckets := by rw [hdef]; rfl
    have hstaged : Index env staged (fun j => j ≠ i ∧ j < map.size) := by
      apply hindex.congr staged hbuckets
      intro j hj
      simp only [idealBucket, bucketFor, hkeyAt j hj.1, hconfig, hcap, bucketCapacity_withBuckets,
        hlen]
      rfl
    obtain ⟨p, hp, hfind, hpcell⟩ := hstaged.findBucket_of_mem last.key.bytes (fun _ hj => hj.2)
      (show map.size < staged.bucketCapacity by omega)
      ⟨Ne.symm hlast, by omega⟩
      (by
        rw [hkeyAt _ (Ne.symm hlast), ← hlastkey, hconfig]
        exact hlaw.refl _ hlastok)
      (by rw [hkeyAt _ (Ne.symm hlast), hlastkey])
      (by
        intro j hj heq
        rw [hkeyAt j hj.1, ← hlastkey, hconfig] at heq
        exact h.index_unique hlaw hlastok hj.2 (by omega) heq (hlaw.refl _ hlastok))
    rw [hfind]
    have hredirect := hstaged.redirect hp hpcell (j := i) (by simp) (by
      simp only [idealBucket, hkeyi, hkeyAt _ (Ne.symm hlast), hlastkey])
    have hentries : (map.entries.set i last).take (map.size - 1) = swapRemove map.entries i :=
      take_set_last (Or.inr hget)
    simp only [Option.bind_some, hdef, withBuckets_withBuckets, entries_withBuckets,
      entries_withEntries, withBuckets_withEntries, withEntries_withEntries, hentries]
    refine ⟨_, rfl, ?_, ⟨rfl, rfl, rfl, rfl, le_rfl⟩⟩
    apply h.swapRemove hlaw hi (by simpa using hlen)
    have hkept := hredirect.of_iff (fun j => show _ ↔ j < map.size - 1 by omega)
    rw [hbuckets] at hkept
    apply hkept.congr
    · rfl
    · intro j hj
      simp only [idealBucket, keyAt_swapRemove _ (show j + 1 < map.size by omega),
        keyAt_withBuckets]
      by_cases hji : j = i
      · subst j
        rw [if_pos rfl, hlastkey, ← hkeyi, hdef]
        rfl
      · rw [if_neg hji, ← hkeyAt j hji, hdef]
        rfl

/-- Removing the entry whose bucket was found: its slot gets the last entry, whose bucket is
redirected there. -/
theorem removeEntry_spec (world : World) (h : Inv env map)
    (hlaw : Lawful env map.config map.keySize) {i b : ℕ}
    {old : Entry} (hb : b < map.bucketCapacity) (hcell : map.cell b = some i)
    (hold : map.entries[i]? = some old) :
    ∃ moved, removeEntry env world map b =
        some (moved, (world.drop env map.config old.key (map.resources.eraseIdx i)).2) ∧
      Inv env moved ∧ Resized (map.withEntries (swapRemove map.entries i)) moved := by
  have hi : i < map.size := (List.getElem?_eq_some_iff.mp hold).1
  have hbucket : map.bucket b - 1 = i := by rw [cell_eq_some.mp hcell]; rfl
  obtain ⟨a, ha, hlen, hindex⟩ := (h.index (by omega)).eraseBucket (fun _ hj => hj)
    (h.size_lt (by omega)) h.bounded hb hcell
  unfold removeEntry
  simp only [hbucket, ha, Option.bind_eq_bind, Option.bind_some]
  by_cases hdrop : (map.withBuckets a).config.drop.isSome = true
  · obtain ⟨moved, hfill, hinv, hresized⟩ := fillGap_spec h hlaw hi { old with
      key := (world.drop env map.config old.key (map.resources.eraseIdx i)).1 } hlen hindex
    refine ⟨moved, ?_, hinv, hresized⟩
    rw [if_pos hdrop, dropEntry_eq (map.withBuckets a) world hold]
    exact congrArg (Option.bind · _) hfill
  · have hnone : map.config.drop = none := Option.not_isSome_iff_eq_none.mp hdrop
    have hsame : map.withEntries (map.entries.set i old) = map := by
      rw [← (List.getElem?_eq_some_iff.mp hold).2, List.set_getElem_self]
      rfl
    obtain ⟨moved, hfill, hinv, hresized⟩ := fillGap_spec h hlaw hi old hlen hindex
    rw [hsame] at hfill
    refine ⟨moved, ?_, hinv, hresized⟩
    rw [if_neg hdrop, drop_of_none hnone]
    exact congrArg (Option.bind · _) hfill

section Handles

variable {m : LorMap} {entrySize keySize : ℕ} {handle : Option LorMap}

/-- The key argument is one that a lookup in the map will look for. -/
structure Sought (env : Env) (m : LorMap) (entrySize keySize : ℕ) (source : Source) : Prop where
  layout : matchesLayout (some m) entrySize keySize = true
  ne_null : source ≠ .null
  valid : keyValid env m.config (source.read m m.keySize) = true

theorem removeRaw_of_not_sought (world : World) (h : ¬ Sought env m entrySize keySize source) :
    removeRaw env world (some m) entrySize keySize source = some (false, some m, world) := by
  by_cases hnull : source = .null
  · subst hnull
    rfl
  cases hlayout : matchesLayout (some m) entrySize keySize with
  | false => cases source <;> simp [removeRaw, hlayout]
  | true =>
      have hvalid : keyValid env m.config (source.read m m.keySize) = false := by
        by_contra hvalid
        exact h ⟨hlayout, hnull, by simpa using hvalid⟩
      cases source <;> simp [removeRaw, hlayout, hvalid]

theorem removeRaw_of_sought (world : World) (h : Sought env m entrySize keySize source) :
    removeRaw env world (some m) entrySize keySize source = do
      match ← findBucket env m (source.read m m.keySize) with
      | none => return (false, some m, world)
      | some bucket =>
        let (map, world) ← removeEntry env world m bucket
        return (true, some map, world) := by
  have hvalid := h.valid
  cases source with
  | null => exact absurd rfl h.ne_null
  | outside address memory =>
      exact (if_neg (by simp [h.layout])).trans (if_neg (by simp [hvalid]))
  | inside offset => exact (if_neg (by simp [h.layout])).trans (if_neg (by simp [hvalid]))

theorem findRaw_of_sought (h : Sought env m entrySize keySize source) :
    findRaw env (some m) entrySize keySize source = do
      let bucket ← findBucket env m (source.read m m.keySize)
      return bucket.map fun bucket => m.bucket bucket - 1 := by
  have hvalid := h.valid
  cases source with
  | null => exact absurd rfl h.ne_null
  | outside address memory =>
      simp only [findRaw, h.layout, hvalid, Bool.not_true, Bool.false_eq_true, if_false]
  | inside offset =>
      simp only [findRaw, h.layout, hvalid, Bool.not_true, Bool.false_eq_true, if_false]

theorem Sought.keyOk (h : Sought env m entrySize keySize source) (hinv : Inv env m)
    (hs : source.Valid (some m) keySize) :
    KeyOk env m.config m.keySize (source.read m m.keySize) := by
  obtain ⟨-, hks⟩ := matchesLayout_some h.layout
  rw [← hks] at hs
  exact ⟨(hs.readable h.ne_null).length_read hinv, h.valid⟩

theorem findRaw_cases (h : Sought env m entrySize keySize source) (hinv : Inv env m)
    (hlaw : Lawful env m.config m.keySize) (hs : source.Valid (some m) keySize) :
    (∃ i e, findRaw env (some m) entrySize keySize source = some (some i) ∧
        m.entries[i]? = some e ∧
        equal env m.config e.key.bytes (source.read m m.keySize) = true) ∨
      findRaw env (some m) entrySize keySize source = some none ∧
        ∀ i < m.size, equal env m.config (m.keyAt i) (source.read m m.keySize) = false := by
  rw [findRaw_of_sought h]
  obtain ⟨i, hi, heq, b, -, hb, hcell⟩ | ⟨hno, hb⟩ :=
    hinv.findBucket_cases hlaw (h.keyOk hinv hs)
  · obtain ⟨e, he⟩ := getElem?_of_lt_size hi
    rw [keyAt_of_getElem? he] at heq
    refine Or.inl ⟨i, e, ?_, he, heq⟩
    rw [hb]
    simp [cell_eq_some.mp hcell]
  · refine Or.inr ⟨?_, hno⟩
    rw [hb]
    rfl

theorem removeRaw_cases (world : World) (entrySize : ℕ) (hinv : ∀ m, handle = some m → Inv env m)
    (hlaw : ∀ m, handle = some m → Lawful env m.config m.keySize)
    (hs : source.Valid handle keySize) :
    removeRaw env world handle entrySize keySize source = some (false, handle, world) ∧
        (∀ m, handle = some m → Sought env m entrySize keySize source →
          ∀ i < m.size, equal env m.config (m.keyAt i) (source.read m m.keySize) = false) ∨
      ∃ m i old moved, handle = some m ∧ Sought env m entrySize keySize source ∧
        m.entries[i]? = some old ∧
        equal env m.config old.key.bytes (source.read m m.keySize) = true ∧
        removeRaw env world handle entrySize keySize source = some (true, some moved,
          (world.drop env m.config old.key (m.resources.eraseIdx i)).2) ∧
        Inv env moved ∧ Resized (m.withEntries (swapRemove m.entries i)) moved := by
  cases handle with
  | none => exact Or.inl ⟨rfl, by simp⟩
  | some m =>
      by_cases h : Sought env m entrySize keySize source
      swap
      · refine Or.inl ⟨removeRaw_of_not_sought world h, ?_⟩
        intro m' hm' h'
        cases hm'
        exact absurd h' h
      have hkey := h.keyOk (hinv m rfl) hs
      obtain ⟨i, hi, heq, b, hlt, hb, hcell⟩ | ⟨hno, hb⟩ :=
        (hinv m rfl).findBucket_cases (hlaw m rfl) hkey
      · obtain ⟨old, hold⟩ := getElem?_of_lt_size hi
        rw [keyAt_of_getElem? hold] at heq
        obtain ⟨moved, hremove, hminv, hresized⟩ :=
          removeEntry_spec world (hinv m rfl) (hlaw m rfl) hlt hcell hold
        refine Or.inr ⟨m, i, old, moved, rfl, h, hold, heq, ?_, hminv, hresized⟩
        rw [removeRaw_of_sought world h, hb]
        simp only [Option.bind_eq_bind, Option.bind_some, hremove]
        rfl
      · refine Or.inl ⟨?_, ?_⟩
        · rw [removeRaw_of_sought world h, hb]
          rfl
        · intro m' hm' _
          cases hm'
          exact hno

end Handles

/-! ## Clearing -/

/-- The calls of `drop` that clear the slots holding these resources, in order. -/
def dropCalls (resources : List (Option ℕ)) : List DropCall :=
  (List.range resources.length).map fun i => ⟨resources.getD i none, resources.eraseIdx i⟩

theorem resources_getD {i : ℕ} {e : Entry} (he : map.entries[i]? = some e) :
    map.resources.getD i none = e.key.resource := by
  simp [LorMap.resources, List.getD_eq_getElem?_getD, he]

/-- A `drop` leaves the resource of a key in its slot. -/
theorem resources_set {i : ℕ} {old e : Entry} (hold : map.entries[i]? = some old)
    (he : e.key.resource = old.key.resource) :
    (map.withEntries (map.entries.set i e)).resources = map.resources := by
  obtain ⟨hi, hget⟩ := List.getElem?_eq_some_iff.mp hold
  simp only [LorMap.resources, entries_withEntries, List.map_set, he, ← hget]
  apply List.ext_getElem (by simp)
  intro j _ _
  rw [List.getElem_set]
  split_ifs with hij
  · subst hij
    simp
  · rfl

theorem clearLoop_spec (env : Env) {f : FnPtr} (hdrop : map.config.drop = some f) (world : World)
    (is : List ℕ) (hlt : ∀ i ∈ is, i < map.size) :
    ∃ es world', clearLoop env world map is = (map.withEntries es, world') ∧
      world'.resources = world.resources ∧
      world'.drops = (is.map fun i =>
        (⟨map.resources.getD i none, map.resources.eraseIdx i⟩ : DropCall)).reverse ++
          world.drops := by
  induction is generalizing map world with
  | nil => exact ⟨map.entries, world, rfl, rfl, rfl⟩
  | cons i is ih =>
      obtain ⟨old, hold⟩ := getElem?_of_lt_size (hlt i (by simp))
      obtain ⟨e, he⟩ : ∃ e, e = { old with
        key := (world.drop env map.config old.key (map.resources.eraseIdx i)).1 } := ⟨_, rfl⟩
      have hres : e.key.resource = old.key.resource := by
        rw [he]
        simp only [World.drop, hdrop]
      have hdrop' : (map.withEntries (map.entries.set i e)).config.drop = some f := hdrop
      obtain ⟨es, world', hloop, hresources, hdrops⟩ :=
        ih hdrop' (world.drop env map.config old.key (map.resources.eraseIdx i)).2
          (fun j hj => by simpa [LorMap.size] using hlt j (by simp [hj]))
      refine ⟨es, world', ?_, ?_, ?_⟩
      · simp only [clearLoop, dropEntry_eq map world hold, ← he]
        exact hloop
      · rw [hresources]
        simp only [World.drop, hdrop]
      · rw [hdrops, resources_set hold hres]
        simp only [World.drop, hdrop, resources_getD hold, List.map_cons, List.reverse_cons,
          List.append_assoc, List.singleton_append]

theorem clear_spec (env : Env) (world : World) (map : LorMap) :
    ∃ world', clear env world (some map) =
        (some ((map.withEntries []).withBuckets (List.replicate map.bucketCapacity 0)), world') ∧
      world'.resources = world.resources ∧
      world'.drops = (if map.config.drop.isSome then (dropCalls map.resources).reverse else []) ++
        world.drops := by
  by_cases hdrop : map.config.drop.isSome = true
  · obtain ⟨f, hf⟩ := Option.isSome_iff_exists.mp hdrop
    obtain ⟨es, world', hloop, hresources, hdrops⟩ := clearLoop_spec env hf world
      (List.range map.size) (by simp)
    refine ⟨world', ?_, hresources, ?_⟩
    · simp only [clear, if_pos hdrop, hloop]
      rfl
    · rw [hdrops, if_pos hdrop, dropCalls, LorMap.resources, List.length_map]
      rfl
  · exact ⟨world, by simp only [clear, if_neg hdrop], rfl, by rw [if_neg hdrop]; rfl⟩

end Liblor.Map
