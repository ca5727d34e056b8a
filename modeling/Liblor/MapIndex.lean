import Liblor.LinearProbe
import Liblor.MapModel

/-!
# The bucket index as a linear-probing table

The buckets of a map are a ring of cells holding dense indices, and the ideal cell of an index is
the bucket of the hash of its key. The probing loops of the source are the walks of
`LinearProbe` on that ring, whose size is a power of two so that masking is reduction.
-/

namespace Liblor.Map

open LinearProbe

variable {env : Env} {map : LorMap}

/-- The dense index in a bucket. -/
def LorMap.cell (map : LorMap) (p : ℕ) : Option ℕ :=
  if map.bucket p = 0 then none else some (map.bucket p - 1)

def idealBucket (env : Env) (map : LorMap) (index : ℕ) : ℕ :=
  bucketFor map (hash env map.config (map.keyAt index))

/-- The index is a chained table of exactly the dense indices in `S`. -/
structure Index (env : Env) (map : LorMap) (S : ℕ → Prop) : Prop where
  power : ∃ k, map.bucketCapacity = 2 ^ k
  chained : Chained map.bucketCapacity (idealBucket env map) map.cell
  separated : Separated map.bucketCapacity map.cell
  holds : ∀ i, Holds map.bucketCapacity map.cell i ↔ S i

theorem and_mask {n : ℕ} (h : ∃ k, n = 2 ^ k) (x : ℕ) : x &&& (n - 1) = x % n := by
  obtain ⟨k, rfl⟩ := h
  exact Nat.and_two_pow_sub_one_eq_mod x k

theorem pos_of_power {n : ℕ} (h : ∃ k, n = 2 ^ k) : 0 < n := by
  obtain ⟨k, rfl⟩ := h
  exact Nat.two_pow_pos k

theorem idealBucket_lt (env : Env) (h : ∃ k, map.bucketCapacity = 2 ^ k) (i : ℕ) :
    idealBucket env map i < map.bucketCapacity := by
  rw [idealBucket, bucketFor, and_mask h]
  exact Nat.mod_lt _ (pos_of_power h)

/-! ## Buckets and cells -/

theorem cell_eq_some {p i : ℕ} : map.cell p = some i ↔ map.bucket p = i + 1 := by
  unfold LorMap.cell
  split_ifs with h
  · simp [h]
  · simp only [Option.some.injEq]
    omega

theorem cell_eq_none {p : ℕ} : map.cell p = none ↔ map.bucket p = 0 := by
  unfold LorMap.cell
  split_ifs with h <;> simp [h]

theorem cell_withBuckets_set (map : LorMap) {p : ℕ} (hp : p < map.bucketCapacity) (v : ℕ) :
    (map.withBuckets (map.buckets.set p v)).cell =
      Function.update map.cell p (if v = 0 then none else some (v - 1)) := by
  funext q
  by_cases hqp : q = p
  · subst q
    rw [Function.update_self, LorMap.cell, LorMap.bucket]
    simp only [LorMap.withBuckets, List.getD_eq_getElem?_getD, List.getElem?_set_self hp,
      Option.getD_some]
  · rw [Function.update_of_ne hqp, LorMap.cell, LorMap.cell, LorMap.bucket, LorMap.bucket]
    simp only [LorMap.withBuckets, List.getD_eq_getElem?_getD, List.getElem?_set_ne (Ne.symm hqp)]

@[simp] theorem entries_withEntries (es : List Entry) : (map.withEntries es).entries = es := rfl

@[simp] theorem buckets_withEntries (es : List Entry) :
    (map.withEntries es).buckets = map.buckets := rfl

@[simp] theorem config_withEntries (es : List Entry) :
    (map.withEntries es).config = map.config := rfl

@[simp] theorem bucketCapacity_withEntries (es : List Entry) :
    (map.withEntries es).bucketCapacity = map.bucketCapacity := rfl

@[simp] theorem capacity_withEntries (es : List Entry) :
    (map.withEntries es).capacity = map.capacity := rfl

@[simp] theorem entrySize_withEntries (es : List Entry) :
    (map.withEntries es).entrySize = map.entrySize := rfl

@[simp] theorem keySize_withEntries (es : List Entry) :
    (map.withEntries es).keySize = map.keySize := rfl

@[simp] theorem size_withEntries (es : List Entry) : (map.withEntries es).size = es.length := rfl

@[simp] theorem size_withBuckets (a : List ℕ) : (map.withBuckets a).size = map.size := rfl

@[simp] theorem keyAt_withBuckets (a : List ℕ) (i : ℕ) :
    (map.withBuckets a).keyAt i = map.keyAt i := rfl

@[simp] theorem capacity_withBuckets (a : List ℕ) :
    (map.withBuckets a).capacity = map.capacity := rfl

@[simp] theorem entries_withBuckets (a : List ℕ) :
    (map.withBuckets a).entries = map.entries := rfl

@[simp] theorem config_withBuckets (a : List ℕ) : (map.withBuckets a).config = map.config := rfl

@[simp] theorem withEntries_withEntries (es es' : List Entry) :
    (map.withEntries es).withEntries es' = map.withEntries es' := rfl

@[simp] theorem withBuckets_withEntries (a : List ℕ) (es : List Entry) :
    (map.withBuckets a).withEntries es = (map.withEntries es).withBuckets a := rfl

@[simp] theorem withBuckets_withBuckets (a b : List ℕ) :
    (map.withBuckets a).withBuckets b = map.withBuckets b := rfl

@[simp] theorem withBuckets_buckets : map.withBuckets map.buckets = map := rfl

@[simp] theorem buckets_withBuckets (a : List ℕ) : (map.withBuckets a).buckets = a := rfl

@[simp] theorem bucketCapacity_withBuckets (a : List ℕ) :
    (map.withBuckets a).bucketCapacity = a.length := rfl

theorem idealBucket_withBuckets {a : List ℕ} (ha : a.length = map.bucketCapacity) (i : ℕ) :
    idealBucket env (map.withBuckets a) i = idealBucket env map i := by
  simp only [idealBucket, bucketFor, bucketCapacity_withBuckets, ha]
  rfl

/-! ## The loops of the source are the walks of the table -/

theorem findBucketLoop_eq_probe (hpow : ∃ k, map.bucketCapacity = 2 ^ k) (key : Bytes)
    (fuel p : ℕ) :
    findBucketLoop env map key (map.bucketCapacity - 1) fuel p =
      probe map.bucketCapacity map.cell (fun i => equal env map.config (map.keyAt i) key)
        fuel p := by
  induction fuel generalizing p with
  | zero => rfl
  | succ fuel ih =>
      simp only [findBucketLoop, probe, LorMap.cell, and_mask hpow, ih]
      by_cases h : map.bucket p = 0
      · simp only [if_pos h]
      · simp only [if_neg h]

theorem insertBucketLoop_eq_vacancy (hpow : ∃ k, map.bucketCapacity = 2 ^ k) (fuel p : ℕ) :
    insertBucketLoop map (map.bucketCapacity - 1) fuel p =
      vacancy map.bucketCapacity map.cell fuel p := by
  induction fuel generalizing p with
  | zero => rfl
  | succ fuel ih =>
      simp only [insertBucketLoop, vacancy, LorMap.cell, and_mask hpow, ih]
      by_cases h : map.bucket p = 0 <;> simp [h]

theorem probeDistance_eq_ahead {n : ℕ} (hpow : ∃ k, n = 2 ^ k) (hn : n ≤ sizeMax + 1)
    {ideal actual : ℕ} (hi : ideal < n) (ha : actual < n) :
    probeDistance ideal actual (n - 1) = ahead n ideal actual := by
  have hdvd : n ∣ sizeMax + 1 := by
    obtain ⟨k, rfl⟩ := hpow
    have hk : k ≤ 64 := (Nat.pow_le_pow_iff_right (by norm_num)).mp
      (show 2 ^ k ≤ 2 ^ 64 by simpa [sizeMax] using hn)
    exact show 2 ^ k ∣ 2 ^ 64 from Nat.pow_dvd_pow 2 hk
  obtain ⟨m, hm⟩ := hdvd
  rw [probeDistance, and_mask hpow, hm, ahead]
  have hm1 : 1 ≤ m := by
    by_contra! h
    have : m = 0 := by omega
    subst m
    simp [sizeMax] at hm
  obtain ⟨j, rfl⟩ : ∃ j, m = j + 1 := ⟨m - 1, by omega⟩
  rw [show actual + n * (j + 1) - ideal = actual + n - ideal + n * j by rw [Nat.mul_add]; omega,
    Nat.add_mul_mod_self_left]

theorem eraseBucketLoop_eq_shift (hpow : ∃ k, map.bucketCapacity = 2 ^ k)
    (hn : map.bucketCapacity ≤ sizeMax + 1) (fuel : ℕ) (a : List ℕ) (hole next : ℕ)
    (ha : a.length = map.bucketCapacity) (hh : hole < map.bucketCapacity)
    (hx : next < map.bucketCapacity) (c : ℕ → Option ℕ)
    (hs : shift map.bucketCapacity (idealBucket env map) fuel (map.withBuckets a).cell hole next =
      some c) :
    ∃ b, eraseBucketLoop env (map.bucketCapacity - 1) fuel (map.withBuckets a) hole next =
      some (map.withBuckets b) ∧ b.length = map.bucketCapacity ∧ (map.withBuckets b).cell = c := by
  induction fuel generalizing a hole next with
  | zero => cases hs
  | succ fuel ih =>
      have hset : ∀ v, (map.withBuckets (a.set hole v)).cell =
          Function.update (map.withBuckets a).cell hole (if v = 0 then none else some (v - 1)) :=
        fun v => cell_withBuckets_set (map.withBuckets a) (by simpa [ha] using hh) v
      by_cases hz : (map.withBuckets a).bucket next = 0
      · have hc := cell_eq_none.mpr hz
        simp only [shift, hc, Option.some.injEq] at hs
        refine ⟨a.set hole 0, ?_, by simpa using ha, ?_⟩
        · simp only [eraseBucketLoop, hz, ne_eq, not_true_eq_false, if_false]
          rfl
        · rw [hset 0, ← hs]
          rfl
      · have hc : (map.withBuckets a).cell next = some ((map.withBuckets a).bucket next - 1) :=
          cell_eq_some.mpr (by omega)
        have hideal : bucketFor (map.withBuckets a) (hash env map.config
            (map.keyAt ((map.withBuckets a).bucket next - 1))) =
              idealBucket env map ((map.withBuckets a).bucket next - 1) :=
          idealBucket_withBuckets ha _
        simp only [shift, hc] at hs
        simp only [eraseBucketLoop, ne_eq, hz, not_false_eq_true, if_true]
        change ∃ b, (if probeDistance (bucketFor (map.withBuckets a) (hash env map.config
            (map.keyAt ((map.withBuckets a).bucket next - 1)))) next (map.bucketCapacity - 1) >
              probeDistance (bucketFor (map.withBuckets a) (hash env map.config
            (map.keyAt ((map.withBuckets a).bucket next - 1)))) hole (map.bucketCapacity - 1) then
              eraseBucketLoop env (map.bucketCapacity - 1) fuel
                (map.withBuckets (a.set hole ((map.withBuckets a).bucket next))) next
                  ((next + 1) &&& (map.bucketCapacity - 1))
            else eraseBucketLoop env (map.bucketCapacity - 1) fuel (map.withBuckets a) hole
              ((next + 1) &&& (map.bucketCapacity - 1))) = some (map.withBuckets b) ∧ _
        rw [hideal, probeDistance_eq_ahead hpow hn (idealBucket_lt env hpow _) hx,
          probeDistance_eq_ahead hpow hn (idealBucket_lt env hpow _) hh, and_mask hpow]
        split_ifs at hs ⊢ with hpast
        · apply ih _ _ _ (by simpa using ha) hx (next_lt hx)
          rw [hset, if_neg hz]
          exact hs
        · exact ih _ _ _ ha hh (next_lt hx) hs

/-! ## Index operations -/

namespace Index

variable {S : ℕ → Prop} {m : ℕ}

theorem exists_empty (h : Index env map S) (hS : ∀ i, S i → i < m)
    (hm : m < map.bucketCapacity) : ∃ e < map.bucketCapacity, map.cell e = none :=
  LinearProbe.exists_empty h.separated hm (fun i hi => hS i ((h.holds i).mp hi))

theorem findBucket_of_mem (h : Index env map S) (key : Bytes) (hS : ∀ i, S i → i < m)
    (hm : m < map.bucketCapacity) {i : ℕ} (hi : S i)
    (heq : equal env map.config (map.keyAt i) key = true)
    (hhash : hash env map.config (map.keyAt i) = hash env map.config key)
    (huniq : ∀ j, S j → equal env map.config (map.keyAt j) key = true → j = i) :
    ∃ b < map.bucketCapacity, findBucket env map key = some (some b) ∧ map.cell b = some i := by
  obtain ⟨e, he, hempty⟩ := h.exists_empty hS hm
  obtain ⟨b, hb, hbi⟩ := (h.holds i).mpr hi
  refine ⟨b, hb, ?_, hbi⟩
  have hne : map.bucketCapacity ≠ 0 := by omega
  rw [findBucket, if_neg hne, findBucketLoop_eq_probe h.power, ← hhash]
  apply probe_eq_some h.chained he hempty hb hbi heq (idealBucket_lt env h.power i)
  intro p hp j hj hstop
  have hji := huniq j ((h.holds j).mp ⟨p, hp, hj⟩) hstop
  subst j
  exact h.separated p hp b hb i hj hbi

theorem findBucket_of_forall (h : Index env map S) (hS : ∀ i, S i → i < m)
    (hm : m < map.bucketCapacity) {key : Bytes}
    (hno : ∀ j, S j → equal env map.config (map.keyAt j) key = false) :
    findBucket env map key = some none := by
  obtain ⟨e, he, hempty⟩ := h.exists_empty hS hm
  have hne : map.bucketCapacity ≠ 0 := by omega
  rw [findBucket, if_neg hne, findBucketLoop_eq_probe h.power]
  apply probe_eq_none _ he hempty
  · intro p hp j hj
    exact hno j ((h.holds j).mp ⟨p, hp, hj⟩)
  · rw [bucketFor, and_mask h.power]
    exact Nat.mod_lt _ (pos_of_power h.power)

theorem insertBucket (h : Index env map S) (hS : ∀ i, S i → i < m)
    (hm : m < map.bucketCapacity) {i : ℕ} (hi : ¬ S i) :
    ∃ b, insertBucket env map i = some (map.withBuckets b) ∧ b.length = map.bucketCapacity ∧
      Index env (map.withBuckets b) (fun j => j = i ∨ S j) := by
  obtain ⟨e, he, hempty⟩ := h.exists_empty hS hm
  obtain ⟨q, hq, hqe, hres, hpass⟩ := vacancy_spec (idealBucket_lt env h.power i) he hempty
  refine ⟨map.buckets.set q (i + 1), ?_, by simp [LorMap.bucketCapacity], ?_⟩
  · rw [Map.insertBucket, insertBucketLoop_eq_vacancy h.power]
    change
      (vacancy map.bucketCapacity map.cell map.bucketCapacity (idealBucket env map i)).map _ = _
    rw [hres]
    rfl
  · have hlen : (map.buckets.set q (i + 1)).length = map.bucketCapacity := by
      simp [LorMap.bucketCapacity]
    have hcell := cell_withBuckets_set map hq (i + 1)
    simp only [Nat.add_eq_zero_iff, one_ne_zero, and_false, if_false, Nat.add_sub_cancel] at hcell
    refine ⟨by simpa [hlen] using h.power, ?_, ?_, ?_⟩
    · rw [bucketCapacity_withBuckets, hlen, hcell]
      exact (h.chained.insert hpass).congr (fun j _ => idealBucket_withBuckets hlen j)
    · rw [bucketCapacity_withBuckets, hlen, hcell]
      exact h.separated.insert (fun hi' => hi ((h.holds i).mp hi'))
    · intro j
      rw [bucketCapacity_withBuckets, hlen, hcell, holds_insert hq hqe, h.holds]

theorem eraseBucket (h : Index env map S) (hS : ∀ i, S i → i < m)
    (hm : m < map.bucketCapacity) (hn : map.bucketCapacity ≤ sizeMax + 1) {b i : ℕ}
    (hb : b < map.bucketCapacity) (hi : map.cell b = some i) :
    ∃ a, eraseBucket env map b = some (map.withBuckets a) ∧ a.length = map.bucketCapacity ∧
      Index env (map.withBuckets a) (fun j => j ≠ i ∧ S j) := by
  obtain ⟨e, he, hempty⟩ := h.exists_empty hS hm
  obtain ⟨c, hc, hchain, hsep, hholds⟩ := shift_spec (idealBucket_lt env h.power)
    h.chained h.separated hb hi he hempty
  obtain ⟨a, ha, hlen, hcell⟩ := eraseBucketLoop_eq_shift h.power hn map.bucketCapacity
    map.buckets b ((b + 1) % map.bucketCapacity) rfl hb (next_lt hb) c hc
  refine ⟨a, ?_, hlen, by simpa [hlen] using h.power, ?_, ?_, ?_⟩
  · simpa only [Map.eraseBucket, and_mask h.power, withBuckets_buckets] using ha
  · rw [bucketCapacity_withBuckets, hlen, hcell]
    exact hchain.congr (fun j _ => idealBucket_withBuckets hlen j)
  · rwa [bucketCapacity_withBuckets, hlen, hcell]
  · intro j
    rw [bucketCapacity_withBuckets, hlen, hcell, hholds, h.holds]

/-- The index survives any change of entries that keeps the hashes of the indexed keys. -/
theorem congr (h : Index env map S) (map' : LorMap) (hbuckets : map'.buckets = map.buckets)
    (hideal : ∀ i, S i → idealBucket env map' i = idealBucket env map i) :
    Index env map' S := by
  have hcap : map'.bucketCapacity = map.bucketCapacity := by
    rw [LorMap.bucketCapacity, hbuckets, LorMap.bucketCapacity]
  have hcell : map'.cell = map.cell := by
    funext p
    unfold LorMap.cell LorMap.bucket
    rw [hbuckets]
  refine ⟨hcap ▸ h.power, ?_, ?_, ?_⟩
  · rw [hcap, hcell]
    exact h.chained.congr (fun i hi => hideal i ((h.holds i).mp hi))
  · rw [hcap, hcell]
    exact h.separated
  · rw [hcap, hcell]
    exact h.holds

theorem of_iff {S' : ℕ → Prop} (h : Index env map S) (hS : ∀ i, S i ↔ S' i) : Index env map S' :=
  ⟨h.power, h.chained, h.separated, fun i => (h.holds i).trans (hS i)⟩

/-- Redirecting the bucket of `i` to an index `j` whose key has the same hash. -/
theorem redirect (h : Index env map S) {b i j : ℕ} (hb : b < map.bucketCapacity)
    (hi : map.cell b = some i) (hj : ¬ S j)
    (hideal : idealBucket env map j = idealBucket env map i) :
    Index env (map.withBuckets (map.buckets.set b (j + 1))) (fun k => k = j ∨ k ≠ i ∧ S k) := by
  have hlen : (map.buckets.set b (j + 1)).length = map.bucketCapacity := by
    simp [LorMap.bucketCapacity]
  have hcell := cell_withBuckets_set map hb (j + 1)
  simp only [Nat.add_eq_zero_iff, one_ne_zero, and_false, if_false, Nat.add_sub_cancel] at hcell
  refine ⟨by simpa [hlen] using h.power, ?_, ?_, ?_⟩
  · rw [bucketCapacity_withBuckets, hlen, hcell]
    apply h.chained.replace h.separated hb hi ((idealBucket_withBuckets hlen j).trans hideal)
    intro k _ _
    exact idealBucket_withBuckets hlen k
  · rw [bucketCapacity_withBuckets, hlen, hcell]
    exact h.separated.insert (fun hj' => hj ((h.holds j).mp hj'))
  · intro k
    rw [bucketCapacity_withBuckets, hlen, hcell, holds_replace h.separated hb hi, h.holds]

theorem empty {n : ℕ} (hpow : ∃ k, n = 2 ^ k) :
    Index env (map.withBuckets (List.replicate n 0)) (fun _ => False) := by
  have hcell : ∀ p, (map.withBuckets (List.replicate n 0)).cell p = none := by
    intro p
    rw [cell_eq_none, LorMap.bucket, buckets_withBuckets, List.getD_eq_getElem?_getD,
      List.getElem?_replicate]
    split_ifs <;> rfl
  refine ⟨by simpa using hpow, ?_, ?_, ?_⟩
  · intro p _ i hi
    rw [hcell] at hi
    cases hi
  · intro p _ q _ i hi
    rw [hcell] at hi
    cases hi
  · intro i
    simp only [iff_false]
    rintro ⟨p, _, hi⟩
    rw [hcell] at hi
    cases hi

theorem fill (h : Index env map S) (hS : ∀ i, S i → i < m) (hm : m < map.bucketCapacity)
    (is : List ℕ) (hnodup : is.Nodup) (hnot : ∀ i ∈ is, ¬ S i) (hlt : ∀ i ∈ is, i < m) :
    ∃ b, is.foldlM (Map.insertBucket env) map = some (map.withBuckets b) ∧
      b.length = map.bucketCapacity ∧
      Index env (map.withBuckets b) (fun j => j ∈ is ∨ S j) := by
  induction is generalizing map S with
  | nil => exact ⟨map.buckets, rfl, rfl, h.of_iff (by simp)⟩
  | cons i is ih =>
      obtain ⟨b, hb, hlen, hindex⟩ := h.insertBucket hS hm (hnot i (by simp))
      have hnodup' := List.nodup_cons.mp hnodup
      have hi : i < m := hlt i (by simp)
      obtain ⟨a, ha, halen, haindex⟩ := ih hindex
        (by rintro j (rfl | hj); exacts [hi, hS j hj]) (by simpa [hlen] using hm) hnodup'.2
        (by
          rintro j hj (rfl | hSj)
          · exact hnodup'.1 hj
          · exact hnot j (by simp [hj]) hSj)
        (fun j hj => hlt j (by simp [hj]))
      refine ⟨a, ?_, by simpa [hlen] using halen, haindex.of_iff ?_⟩
      · rw [List.foldlM_cons, hb]
        exact ha
      · intro j
        simp only [List.mem_cons]
        tauto

end Index

end Liblor.Map
