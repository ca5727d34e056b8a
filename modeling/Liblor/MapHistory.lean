import Liblor.CrowdedArcs
import Liblor.MapProbing

/-!
# Deletion leaves no trace

Which buckets of a reachable map are occupied depends on the stored keys alone, not on the
insertions and removals that led to it.
-/

namespace Liblor.Map

open LinearProbe Transition

variable {env : Env} {map map' : LorMap} {events : List Event} {s : State} {S : ℕ → Prop} {m : ℕ}

/-- How many occupied buckets a walk from the ideal bucket of `key` meets before it ends. -/
def probeRegion (env : Env) (map : LorMap) (key : Bytes) : Option ℕ :=
  let ideal := bucketFor map (hash env map.config key)
  (insertBucketLoop map (map.bucketCapacity - 1) map.bucketCapacity ideal).map
    (ahead map.bucketCapacity ideal)

theorem isSome_cell (map : LorMap) (p : ℕ) : (map.cell p).isSome ↔ map.bucket p ≠ 0 := by
  rw [Option.isSome_iff_ne_none, ne_eq, cell_eq_none]

/-- Two indices of the same keys at one capacity occupy the same buckets. -/
theorem Index.occupied_unique (h : Index env map S) (h' : Index env map' S)
    (hS : ∀ i, S i → i < m) (hm : m < map.bucketCapacity)
    (hcap : map'.bucketCapacity = map.bucketCapacity)
    (hideal : ∀ i, idealBucket env map' i = idealBucket env map i) {p : ℕ}
    (hp : p < map.bucketCapacity) : (map'.cell p).isSome = (map.cell p).isSome := by
  classical
  obtain ⟨e, he, hempty⟩ := h.exists_empty hS hm
  obtain ⟨e', he', hempty'⟩ := h'.exists_empty hS (hcap ▸ hm)
  have hrange : ∀ i, S i ↔ i ∈ (Finset.range m).filter S := by
    intro i
    rw [Finset.mem_filter, Finset.mem_range]
    exact ⟨fun hi => ⟨hS i hi, hi⟩, And.right⟩
  have hitems := fun i => (h.holds i).trans (hrange i)
  have hitems' := fun i => (h'.holds i).trans (hrange i)
  have hlt := idealBucket_lt env h.power
  have hchain := h'.chained
  have hsep := h'.separated
  rw [hcap, funext hideal] at hchain
  rw [hcap] at hsep he' hitems'
  rw [Bool.eq_iff_iff, h.chained.isSome_iff_crowded h.separated hitems hlt he hempty hp,
    hchain.isSome_iff_crowded hsep hitems' hlt he' hempty' hp]

theorem Index.insertBucketLoop_congr (h : Index env map S)
    (hcap : map'.bucketCapacity = map.bucketCapacity)
    (hsome : ∀ p < map.bucketCapacity, (map'.cell p).isSome = (map.cell p).isSome) (fuel : ℕ)
    {p : ℕ} (hp : p < map.bucketCapacity) :
    insertBucketLoop map' (map.bucketCapacity - 1) fuel p =
      insertBucketLoop map (map.bucketCapacity - 1) fuel p := by
  have hpow' : ∃ k, map'.bucketCapacity = 2 ^ k := hcap ▸ h.power
  have hvacancy := insertBucketLoop_eq_vacancy hpow' fuel p
  rw [hcap] at hvacancy
  rw [hvacancy, insertBucketLoop_eq_vacancy h.power]
  exact vacancy_congr hsome fuel hp

/-- `map` is occupied as `fresh` is, and its keys are found within the regions that `fresh` has. -/
structure NoTrace (env : Env) (map fresh : LorMap) : Prop where
  occupied : ∀ p, map.bucket p ≠ 0 ↔ fresh.bucket p ≠ 0
  region : ∀ key, probeRegion env map key = probeRegion env fresh key
  within : ∀ b i, map.bucket b = i + 1 → ∃ k, probeRegion env fresh (map.keyAt i) = some k ∧
    ahead map.bucketCapacity (idealBucket env map i) b < k

theorem bucket_lt {b : ℕ} (h : map.bucket b ≠ 0) : b < map.bucketCapacity := by
  by_contra hge
  refine h ?_
  rw [LorMap.bucket, List.getD_eq_getElem?_getD, List.getElem?_eq_none (by
    rw [LorMap.bucketCapacity] at hge; omega)]
  rfl

theorem Index.mem_buckets (h : Index env map S) {i : ℕ} : i + 1 ∈ map.buckets ↔ S i := by
  rw [← h.holds]
  constructor
  · intro hmem
    obtain ⟨p, hp, hval⟩ := List.getElem_of_mem hmem
    refine ⟨p, hp, cell_eq_some.2 ?_⟩
    rw [LorMap.bucket, List.getD_eq_getElem _ _ hp, hval]
  · rintro ⟨p, hp, hcell⟩
    rw [← cell_eq_some.1 hcell, LorMap.bucket, List.getD_eq_getElem _ _ hp]
    exact List.getElem_mem hp

theorem Index.noTrace {b : List ℕ} (h : Index env map S)
    (hfresh : Index env (map.withBuckets b) S) (hS : ∀ i, S i → i < m)
    (hm : m < map.bucketCapacity) (hlen : b.length = map.bucketCapacity) :
    NoTrace env map (map.withBuckets b) := by
  have hcap : (map.withBuckets b).bucketCapacity = map.bucketCapacity := hlen
  have hsome : ∀ p < map.bucketCapacity,
      ((map.withBuckets b).cell p).isSome = (map.cell p).isSome := fun p hp =>
    h.occupied_unique hfresh hS hm hcap (fun i => idealBucket_withBuckets hlen i) hp
  have hregion : ∀ key, probeRegion env map key = probeRegion env (map.withBuckets b) key := by
    intro key
    have hideal : bucketFor map (hash env map.config key) < map.bucketCapacity := by
      rw [bucketFor, and_mask h.power]
      exact Nat.mod_lt _ (pos_of_power h.power)
    have hsame : bucketFor (map.withBuckets b) (hash env (map.withBuckets b).config key) =
        bucketFor map (hash env map.config key) := by
      rw [bucketFor, hcap]
      rfl
    simp only [probeRegion, hsame, hcap, h.insertBucketLoop_congr hcap hsome _ hideal]
  refine ⟨?_, hregion, ?_⟩
  · intro p
    by_cases hp : p < map.bucketCapacity
    · rw [← isSome_cell, ← isSome_cell, hsome p hp]
    · have hp' : ¬p < (map.withBuckets b).bucketCapacity := hcap ▸ hp
      exact ⟨fun hne => absurd (bucket_lt hne) hp, fun hne => absurd (bucket_lt hne) hp'⟩
  · intro p i hi
    obtain ⟨e, he, hempty⟩ := h.exists_empty hS hm
    have hideal := idealBucket_lt env h.power i
    obtain ⟨q, hq, hqempty, hres, hpass⟩ := vacancy_spec hideal he hempty
    refine ⟨ahead map.bucketCapacity (idealBucket env map i) q, ?_, ?_⟩
    · rw [← hregion, probeRegion, insertBucketLoop_eq_vacancy h.power]
      change (vacancy map.bucketCapacity map.cell map.bucketCapacity
        (idealBucket env map i)).map _ = _
      rw [hres]
      rfl
    · have hp := bucket_lt (show map.bucket p ≠ 0 by omega)
      by_contra hpast
      have hne : map.bucket q ≠ 0 := by
        refine h.cluster hp (by omega) hq ?_
        rw [hi, Nat.add_sub_cancel]
        omega
      exact hne (cell_eq_none.1 hqempty)

/-- Inserting keys into an empty table, in whatever order. -/
theorem Index.noTrace_of_fill (h : Index env map S) (hS : ∀ i, S i → i < m)
    (hm : m < map.bucketCapacity) {order : List ℕ} (hnodup : order.Nodup)
    (horder : ∀ i, i ∈ order ↔ S i) :
    ∃ fresh, order.foldlM (Map.insertBucket env)
        (map.withBuckets (List.replicate map.bucketCapacity 0)) = some fresh ∧
      NoTrace env map fresh := by
  have hempty : Index env (map.withBuckets (List.replicate map.bucketCapacity 0))
      (fun _ => False) :=
    Index.empty h.power
  have hcap : (map.withBuckets (List.replicate map.bucketCapacity 0)).bucketCapacity =
      map.bucketCapacity := List.length_replicate
  obtain ⟨b, hb, hlen, hindex⟩ :=
    hempty.fill (m := m) (fun _ hi => hi.elim) (by rwa [hcap]) order hnodup
    (fun _ _ hi => hi) (fun i hi => hS i ((horder i).1 hi))
  have hfresh : Index env (map.withBuckets b) S := hindex.of_iff fun i => by
    rw [or_false]
    exact horder i
  exact ⟨map.withBuckets b, hb, h.noTrace hfresh hS hm (hlen.trans hcap)⟩

/-! ## Histories -/

inductive BucketCall where
  | insert (index : ℕ)
  | erase (bucket : ℕ)
  deriving DecidableEq, Repr

def BucketCall.run (env : Env) (map : LorMap) : BucketCall → Option LorMap
  | insert index => insertBucket env map index
  | erase bucket => eraseBucket env map bucket

/-- An entry is inserted while no bucket refers to it; a bucket is erased while it is occupied. -/
def BucketCall.Legal (map : LorMap) : BucketCall → Prop
  | insert index => index < map.size ∧ index + 1 ∉ map.buckets
  | erase bucket => map.bucket bucket ≠ 0

/-- Calls on the buckets of a map whose entries stay, from an empty table on. -/
def bucketSystem (env : Env) (map : LorMap) : System LorMap BucketCall where
  start table := table = map.withBuckets (List.replicate map.bucketCapacity 0)
  step table call table' := call.Legal table ∧ call.run env table = some table'

/-- The table of some stage: the same entries, and a sound index of part of them. -/
def TableOk (env : Env) (map table : LorMap) : Prop :=
  ∃ b, table = map.withBuckets b ∧ b.length = map.bucketCapacity ∧
    ∃ S : ℕ → Prop, Index env table S ∧ ∀ i, S i → i < map.size

theorem bucketSystem_step (hm : map.size < map.bucketCapacity)
    (hbound : map.bucketCapacity ≤ sizeMax + 1) {table table' : LorMap} {call : BucketCall}
    (h : TableOk env map table) (hstep : (bucketSystem env map).step table call table') :
    TableOk env map table' := by
  obtain ⟨b, rfl, hlen, S, hindex, hS⟩ := h
  have hcap : (map.withBuckets b).bucketCapacity = map.bucketCapacity := hlen
  obtain ⟨hlegal, hrun⟩ := hstep
  cases call with
  | insert i =>
    have hi : ¬S i := by
      intro hSi
      exact hlegal.2 (hindex.mem_buckets.2 hSi)
    obtain ⟨c, hc, hclen, hcindex⟩ := hindex.insertBucket hS (hcap ▸ hm) hi
    obtain rfl := Option.some.inj (hc.symm.trans hrun)
    refine ⟨c, rfl, hclen.trans hcap, _, hcindex, ?_⟩
    rintro j (rfl | hj)
    · exact hlegal.1
    · exact hS j hj
  | erase p =>
    have hp : (map.withBuckets b).bucket p ≠ 0 := hlegal
    obtain ⟨c, hc, hclen, hcindex⟩ := hindex.eraseBucket hS (hcap ▸ hm) (hcap ▸ hbound)
      (bucket_lt hp) (cell_of_bucket hp)
    obtain rfl := Option.some.inj (hc.symm.trans hrun)
    exact ⟨c, rfl, hclen.trans hcap, _, hcindex, fun j hj => hS j hj.2⟩

theorem bucketSystem_ok (hpow : ∃ k, map.bucketCapacity = 2 ^ k)
    (hm : map.size < map.bucketCapacity) (hbound : map.bucketCapacity ≤ sizeMax + 1)
    {table : LorMap} (h : Reachable (bucketSystem env map) table) : TableOk env map table := by
  refine h.invariant ?_ fun _ _ _ hok hstep => bucketSystem_step hm hbound hok hstep
  rintro table rfl
  exact ⟨_, rfl, List.length_replicate, _, Index.empty hpow, fun _ hi => hi.elim⟩

theorem Inv.noTrace (h : Inv env map) {order : List ℕ} (horder : order.Perm (List.range map.size)) :
    ∃ fresh, order.foldlM (insertBucket env)
        (map.withBuckets (List.replicate map.bucketCapacity 0)) = some fresh ∧
      NoTrace env map fresh := by
  by_cases hn : map.bucketCapacity = 0
  · have hbuckets : map.buckets = [] := List.length_eq_zero_iff.1 hn
    have hsame : map.withBuckets [] = map := by
      cases map
      cases hbuckets
      rfl
    rw [h.size_eq_zero hn] at horder
    rw [List.perm_nil.1 horder, hn]
    change ∃ fresh, some (map.withBuckets []) = some fresh ∧ _
    rw [hsame]
    refine ⟨map, rfl, fun _ => Iff.rfl, fun _ => rfl, fun b i hi => ?_⟩
    have hlt := bucket_lt (show map.bucket b ≠ 0 by omega)
    omega
  · refine (h.index hn).noTrace_of_fill (fun _ hi => hi) (h.size_lt hn)
      (horder.nodup_iff.2 List.nodup_range) fun i => ?_
    rw [horder.mem_iff, List.mem_range]

/-- Whatever was inserted and erased in a table, the occupied buckets and the probe regions are
those of a fresh table with the surviving keys, inserted in any order. The same holds of every map
that calls of the interface reach. -/
theorem deletion_leaves_no_trace (env : Env) :
    (∀ (map : LorMap) (table : LorMap) (order : List ℕ), (∃ k, map.bucketCapacity = 2 ^ k) →
      map.size < map.bucketCapacity → map.bucketCapacity ≤ sizeMax + 1 →
      Reachable (bucketSystem env map) table → order.Nodup →
      (∀ i, i ∈ order ↔ i + 1 ∈ table.buckets) →
      ∃ fresh, order.foldlM (insertBucket env)
          (map.withBuckets (List.replicate map.bucketCapacity 0)) = some fresh ∧
        NoTrace env table fresh) ∧
    ∀ (s : State) (map : LorMap), Reachable (system env) s → s.map = some map →
      (∃ fresh, fillBuckets env map map.bucketCapacity = some fresh ∧ NoTrace env map fresh) ∧
      ∀ order : List ℕ, order.Perm (List.range map.size) →
        ∃ fresh, order.foldlM (insertBucket env)
            (map.withBuckets (List.replicate map.bucketCapacity 0)) = some fresh ∧
          NoTrace env map fresh := by
  constructor
  · intro map table order hpow hm hbound hreach hnodup horder
    obtain ⟨b, rfl, hlen, S, hindex, hS⟩ := bucketSystem_ok hpow hm hbound hreach
    have hcap : (map.withBuckets b).bucketCapacity = map.bucketCapacity := hlen
    have hstored : ∀ i, i ∈ order ↔ S i := fun i => (horder i).trans hindex.mem_buckets
    have hfill := hindex.noTrace_of_fill hS (hcap ▸ hm) hnodup hstored
    rwa [hcap] at hfill
  · rintro s map ⟨events, hrun⟩ hmap
    have hinv := (run_agrees hrun).inv map hmap
    exact ⟨hinv.noTrace (List.Perm.refl _), fun order => hinv.noTrace⟩

/-- Three keys with one hash and an empty table. -/
def collidingTable : LorMap where
  base := 4096
  entries := [⟨⟨[7], none⟩, [70]⟩, ⟨⟨[8], none⟩, [80]⟩, ⟨⟨[9], none⟩, [90]⟩]
  capacity := 6
  entrySize := 2
  keySize := 1
  buckets := List.replicate 8 0
  config := collidingConfig

theorem deletion_leaves_no_trace_colliding :
    ∃ table fresh, Reachable (bucketSystem collidingEnv collidingTable) table ∧
      table.buckets = [3, 0, 0, 0, 0, 0, 0, 2] ∧
      [2, 1].foldlM (insertBucket collidingEnv) collidingTable = some fresh ∧
      NoTrace collidingEnv table fresh := by
  have hinsert : ∀ (i : ℕ) (b' : List ℕ) {events : List BucketCall} {b : List ℕ},
      Run (bucketSystem collidingEnv collidingTable) events (collidingTable.withBuckets b) →
      i < 3 ∧ i + 1 ∉ b →
      insertBucket collidingEnv (collidingTable.withBuckets b) i =
        some (collidingTable.withBuckets b') →
      Run (bucketSystem collidingEnv collidingTable) (events ++ [.insert i])
        (collidingTable.withBuckets b') := by
    intro i b' events b h hlegal hrun
    exact h.step ⟨hlegal, hrun⟩
  have h0 : Run (bucketSystem collidingEnv collidingTable) []
      (collidingTable.withBuckets (List.replicate 8 0)) := .start rfl
  have h1 := hinsert 0 [0, 0, 0, 0, 0, 0, 0, 1] h0 (by decide) (by decide)
  have h2 := hinsert 1 [2, 0, 0, 0, 0, 0, 0, 1] h1 (by decide) (by decide)
  have h3 := hinsert 2 [2, 3, 0, 0, 0, 0, 0, 1] h2 (by decide) (by decide)
  have hlegal : BucketCall.Legal (collidingTable.withBuckets [2, 3, 0, 0, 0, 0, 0, 1])
    (.erase 7) := by
    change LorMap.bucket _ 7 ≠ 0
    decide
  have herase : eraseBucket collidingEnv (collidingTable.withBuckets [2, 3, 0, 0, 0, 0, 0, 1]) 7 =
      some (collidingTable.withBuckets [3, 0, 0, 0, 0, 0, 0, 2]) := by decide
  have h4 := h3.step ⟨hlegal, herase⟩
  obtain ⟨fresh, hfresh, htrace⟩ :=
    (deletion_leaves_no_trace collidingEnv).1 collidingTable _ [2, 1]
    ⟨3, rfl⟩ (by decide) (by decide) ⟨_, h4⟩ (by decide) (by
      intro i
      change i ∈ [2, 1] ↔ i + 1 ∈ [3, 0, 0, 0, 0, 0, 0, 2]
      simp only [List.mem_cons, List.not_mem_nil, or_false]
      omega)
  exact ⟨_, fresh, ⟨_, h4⟩, rfl, hfresh, htrace⟩

end Liblor.Map
