import Liblor.MapRun

/-!
# The bucket index of every reachable map

`WellIndexed` says what the buckets of a map hold, in the words of the source: bucket values, dense
indices and keys. `Probing` says that the three loops over the buckets, none of which has a bound in
the source, stop within one round of the table.
-/

namespace Liblor.Map

open LinearProbe Transition

variable {env : Env} {map : LorMap} {events : List Event} {s : State}

structure WellIndexed (env : Env) (map : LorMap) : Prop where
  size_le : map.size ≤ map.capacity
  capacity : map.bucketCapacity = 0 ∧ map.capacity = 0 ∨
    (∃ k, map.bucketCapacity = 2 ^ k) ∧ map.capacity < map.bucketCapacity
  bijection : Set.BijOn (fun p => map.bucket p - 1)
    {p | p < map.bucketCapacity ∧ map.bucket p ≠ 0} {i | i < map.size}
  cluster : ∀ p < map.bucketCapacity, map.bucket p ≠ 0 → ∀ q < map.bucketCapacity,
    ahead map.bucketCapacity (idealBucket env map (map.bucket p - 1)) q ≤
      ahead map.bucketCapacity (idealBucket env map (map.bucket p - 1)) p → map.bucket q ≠ 0
  distinct : ∀ i < map.size, ∀ j < map.size, i ≠ j →
    equal env map.config (map.keyAt i) (map.keyAt j) = false

/-- `erase` starts at the bucket of a key, the other two loops anywhere. -/
structure Probing (env : Env) (map : LorMap) : Prop where
  find : ∀ key, (findBucket env map key).isSome
  insert : ∀ start < map.bucketCapacity,
    (insertBucketLoop map (map.bucketCapacity - 1) map.bucketCapacity start).isSome
  erase : ∀ b < map.bucketCapacity, map.bucket b ≠ 0 → (eraseBucket env map b).isSome

theorem cell_of_bucket {p : ℕ} (h : map.bucket p ≠ 0) : map.cell p = some (map.bucket p - 1) :=
  cell_eq_some.mpr (by omega)

theorem Index.bijOn {S : ℕ → Prop} (h : Index env map S) :
    Set.BijOn (fun p => map.bucket p - 1) {p | p < map.bucketCapacity ∧ map.bucket p ≠ 0}
      {i | S i} := by
  refine ⟨?_, ?_, ?_⟩
  · intro p hp
    exact (h.holds _).mp ⟨p, hp.1, cell_of_bucket hp.2⟩
  · intro p hp q hq heq
    change map.bucket p - 1 = map.bucket q - 1 at heq
    have hcell := cell_of_bucket hq.2
    rw [← heq] at hcell
    exact h.separated p hp.1 q hq.1 _ (cell_of_bucket hp.2) hcell
  · intro i hi
    obtain ⟨p, hp, hcell⟩ := (h.holds i).mpr hi
    have hbucket := cell_eq_some.mp hcell
    exact ⟨p, ⟨hp, by omega⟩, by change map.bucket p - 1 = i; omega⟩

theorem Index.cluster {S : ℕ → Prop} (h : Index env map S) {p q : ℕ}
    (hp : p < map.bucketCapacity) (hpb : map.bucket p ≠ 0) (hq : q < map.bucketCapacity)
    (hle : ahead map.bucketCapacity (idealBucket env map (map.bucket p - 1)) q ≤
      ahead map.bucketCapacity (idealBucket env map (map.bucket p - 1)) p) : map.bucket q ≠ 0 := by
  rcases Nat.lt_or_eq_of_le hle with hlt | heq
  · have hsome := h.chained p hp _ (cell_of_bucket hpb) q hq hlt
    intro hzero
    rw [cell_eq_none.mpr hzero] at hsome
    cases hsome
  · rw [ahead_inj (idealBucket_lt env h.power _) hq hp heq]
    exact hpb

theorem Inv.wellIndexed (h : Inv env map) (hlaw : Lawful env map.config map.keySize) :
    WellIndexed env map := by
  refine ⟨h.size_le, ?_, ?_, ?_, ?_⟩
  · rcases Nat.eq_zero_or_pos map.bucketCapacity with hn | hn
    · have := h.room
      exact Or.inl ⟨hn, by omega⟩
    · have := h.room
      exact Or.inr ⟨(h.index hn.ne').power, by omega⟩
  · rcases Nat.eq_zero_or_pos map.bucketCapacity with hn | hn
    · rw [hn, h.size_eq_zero hn]
      simp
    · exact (h.index hn.ne').bijOn
  · intro p hp hpb q hq hle
    exact (h.index (by omega)).cluster hp hpb hq hle
  · intro i hi j hj hij
    rcases Nat.lt_or_gt_of_ne hij with hlt | hgt
    · exact h.distinct j hj i hlt
    · by_contra heq
      rw [Bool.not_eq_false] at heq
      have hback := hlaw.symm _ _ (h.keyAt_ok hi) (h.keyAt_ok hj) heq
      rw [h.distinct i hi j hgt] at hback
      cases hback

/-- A lookup stops at an empty bucket if at no other, whatever the key. -/
theorem Inv.findBucket_isSome (h : Inv env map) (key : Bytes) :
    (findBucket env map key).isSome := by
  by_cases hn : map.bucketCapacity = 0
  · rw [findBucket, if_pos hn]
    rfl
  · have hindex := h.index hn
    obtain ⟨e, he, hempty⟩ := hindex.exists_empty (fun _ hi => hi) (h.size_lt hn)
    have hstart : bucketFor map (hash env map.config key) < map.bucketCapacity := by
      rw [bucketFor, and_mask hindex.power]
      exact Nat.mod_lt _ (by omega)
    rw [findBucket, if_neg hn, findBucketLoop_eq_probe hindex.power]
    obtain ⟨q, -, -, ⟨-, hres⟩ | ⟨i, -, -, hres⟩⟩ :=
      probe_spec (fun i => equal env map.config (map.keyAt i) key) hstart he hempty
    · rw [hres]
      rfl
    · rw [hres]
      rfl

theorem Inv.probing (h : Inv env map) : Probing env map := by
  refine ⟨h.findBucket_isSome, ?_, ?_⟩
  · intro start hstart
    have hindex := h.index (by omega)
    obtain ⟨e, he, hempty⟩ := hindex.exists_empty (fun _ hi => hi) (h.size_lt (by omega))
    obtain ⟨q, -, -, hres, -⟩ := vacancy_spec hstart he hempty
    rw [insertBucketLoop_eq_vacancy hindex.power, hres]
    rfl
  · intro b hb hne
    obtain ⟨a, ha, -⟩ := (h.index (by omega)).eraseBucket (fun _ hi => hi) (h.size_lt (by omega))
      h.bounded hb (cell_of_bucket hne)
    rw [ha]
    rfl

/-- Whatever calls were made, the index represents the dense entries, and no loop over it runs
for more than one round: not from this map, and not inside the next call. -/
theorem run_wellIndexed (h : Run (system env) events s) :
    (∀ map, s.map = some map → WellIndexed env map ∧ Probing env map) ∧
      ∀ op : Op, op.Legal env s.map → ∃ result s', step env s op = some (result, s') := by
  have hagrees := run_agrees h
  constructor
  · intro map hmap
    have hinv := hagrees.inv map hmap
    exact ⟨hinv.wellIndexed (hagrees.lawful map hmap), hinv.probing⟩
  · intro op hop
    obtain ⟨result, s', heq, -⟩ := step_agrees hagrees op hop
    exact ⟨result, s', heq⟩

/-- Two keys with one hash, whose cluster wraps around the end of the table, and the removal of the
first. -/
theorem run_wellIndexed_wrapping : ∃ events s map, Run (system collidingEnv) events s ∧
    s.map = some map ∧ map.buckets = [0, 0, 0, 0, 0, 0, 0, 0, 0, 0, 0, 0, 0, 0, 0, 1] ∧
    WellIndexed collidingEnv map := by
  have h0 : Run (system collidingEnv) [] ⟨none, ⟨0, 0, 0, []⟩⟩ := .start rfl
  have h1 := h0.step ⟨.init 2 1 collidingConfig, _, lawful_collidingConfig, rfl, rfl⟩
  have h2 := h1.step ⟨.set 2 1 (twoBytes 7 70), _, trivial, rfl, rfl⟩
  have h3 := h2.step ⟨.set 2 1 (twoBytes 8 80), _, trivial, rfl, rfl⟩
  have h4 := h3.step ⟨.remove 2 1 (.inside 0), _, show 0 + 1 ≤ 2 * 2 by decide, rfl, rfl⟩
  exact ⟨_, _, _, h4, rfl, rfl, ((run_wellIndexed h4).1 _ rfl).1⟩

end Liblor.Map
