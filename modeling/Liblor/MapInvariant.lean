import Liblor.DenseList
import Liblor.MapIndex

/-!
# The representation invariant of a map

`Lawful` is what the documentation asks of the key callbacks. `Inv` ties the dense entries to the
bucket index; the results below say what a lookup finds in a map with the invariant and which
changes of the entries keep it.
-/

namespace Liblor.Map

open LinearProbe DenseList

/-- A key object that the configuration accepts. -/
def KeyOk (env : Env) (config : Config) (keySize : ℕ) (key : Bytes) : Prop :=
  key.length = keySize ∧ keyValid env config key = true

/-- On accepted keys `equal` is an equivalence that `hash` respects, and a key that `clone` reports
ready is accepted and equal to its source. -/
structure Lawful (env : Env) (config : Config) (keySize : ℕ) : Prop where
  refl : ∀ a, KeyOk env config keySize a → equal env config a a = true
  symm : ∀ a b, KeyOk env config keySize a → KeyOk env config keySize b →
    equal env config a b = true → equal env config b a = true
  trans : ∀ a b c, KeyOk env config keySize a → KeyOk env config keySize b →
    KeyOk env config keySize c → equal env config a b = true → equal env config b c = true →
    equal env config a c = true
  hash_eq : ∀ a b, KeyOk env config keySize a → KeyOk env config keySize b →
    equal env config a b = true → hash env config a = hash env config b
  clone : ∀ f n a, config.clone = some f → KeyOk env config keySize a →
    (env.clone f config.context n a).1 = .ok →
    KeyOk env config keySize (env.clone f config.context n a).2 ∧
      equal env config (env.clone f config.context n a).2 a = true

theorem lawful_configBytes (env : Env) (keySize : ℕ) : Lawful env configBytes keySize where
  refl a _ := beq_self_eq_true a
  symm a b _ _ h := by
    have hab : a = b := eq_of_beq h
    exact hab ▸ beq_self_eq_true a
  trans a b c _ _ _ hab hbc := by
    have h₁ : a = b := eq_of_beq hab
    have h₂ : b = c := eq_of_beq hbc
    exact h₂ ▸ h₁ ▸ beq_self_eq_true a
  hash_eq a b _ _ h := by
    have hab : a = b := eq_of_beq h
    rw [hab]
  clone _ _ _ h := by cases h

structure Inv (env : Env) (map : LorMap) : Prop where
  layout : layoutValid map.entrySize map.keySize = true
  config : configValid map.config = true
  keys : ∀ e ∈ map.entries, KeyOk env map.config map.keySize e.key.bytes
  values : ∀ e ∈ map.entries, e.value.length = map.entrySize - map.keySize
  distinct : ∀ j < map.size, ∀ i < j,
    equal env map.config (map.keyAt i) (map.keyAt j) = false
  size_le : map.size ≤ map.capacity
  room : map.capacity < map.bucketCapacity ∨ map.capacity = 0 ∧ map.bucketCapacity = 0
  bounded : map.bucketCapacity ≤ sizeMax + 1
  placed : map.base + map.capacity * map.entrySize ≤ uintptrMax
  index : map.bucketCapacity ≠ 0 → Index env map (· < map.size)

variable {env : Env} {map : LorMap}

theorem keySize_pos {entrySize keySize : ℕ} (h : layoutValid entrySize keySize = true) :
    0 < keySize ∧ keySize ≤ entrySize := by
  simp only [layoutValid, Bool.and_eq_true, bne_iff_ne, decide_eq_true_eq] at h
  omega

theorem keyAt_of_getElem? {i : ℕ} {e : Entry} (h : map.entries[i]? = some e) :
    map.keyAt i = e.key.bytes := by simp only [LorMap.keyAt, h]

theorem getElem?_of_lt_size {i : ℕ} (h : i < map.size) : ∃ e, map.entries[i]? = some e :=
  ⟨map.entries[i], List.getElem?_eq_getElem h⟩

namespace Inv

theorem size_lt (h : Inv env map) (hn : map.bucketCapacity ≠ 0) :
    map.size < map.bucketCapacity := by
  have := h.size_le
  have := h.room
  omega

theorem size_eq_zero (h : Inv env map) (hn : map.bucketCapacity = 0) : map.size = 0 := by
  have := h.size_le
  have := h.room
  omega

theorem keyAt_ok (h : Inv env map) {i : ℕ} (hi : i < map.size) :
    KeyOk env map.config map.keySize (map.keyAt i) := by
  obtain ⟨e, he⟩ := getElem?_of_lt_size hi
  rw [keyAt_of_getElem? he]
  exact h.keys e (List.mem_of_getElem? he)

/-- Two positions whose keys are equal to one key are the same position. -/
theorem index_unique (h : Inv env map) (hlaw : Lawful env map.config map.keySize) {key : Bytes}
    (hkey : KeyOk env map.config map.keySize key) {i j : ℕ} (hi : i < map.size) (hj : j < map.size)
    (hik : equal env map.config (map.keyAt i) key = true)
    (hjk : equal env map.config (map.keyAt j) key = true) : i = j := by
  have hne : ∀ a b, a < b → b < map.size → equal env map.config (map.keyAt a) key = true →
      equal env map.config (map.keyAt b) key = true → False := by
    intro a b hab hb hak hbk
    have ha := h.keyAt_ok (hab.trans hb)
    have hbo := h.keyAt_ok hb
    have heq := hlaw.trans _ _ _ ha hkey hbo hak (hlaw.symm _ _ hbo hkey hbk)
    rw [h.distinct b hb a hab] at heq
    cases heq
  rcases Nat.lt_trichotomy i j with hlt | heq | hgt
  · exact (hne i j hlt hj hik hjk).elim
  · exact heq
  · exact (hne j i hgt hi hjk hik).elim

/-- A lookup ends, at the bucket of the one entry with an equal key or with the answer that there
is none. -/
theorem findBucket_cases (h : Inv env map) (hlaw : Lawful env map.config map.keySize) {key : Bytes}
    (hkey : KeyOk env map.config map.keySize key) :
    (∃ i < map.size, equal env map.config (map.keyAt i) key = true ∧
        ∃ b < map.bucketCapacity, findBucket env map key = some (some b) ∧ map.cell b = some i) ∨
      ((∀ i < map.size, equal env map.config (map.keyAt i) key = false) ∧
        findBucket env map key = some none) := by
  by_cases hn : map.bucketCapacity = 0
  · refine Or.inr ⟨?_, by rw [findBucket, if_pos hn]⟩
    intro i hi
    have := h.size_eq_zero hn
    omega
  · have hindex := h.index hn
    have hlt := h.size_lt hn
    by_cases hex : ∃ i < map.size, equal env map.config (map.keyAt i) key = true
    · obtain ⟨i, hi, heq⟩ := hex
      obtain ⟨b, hb, hfind, hcell⟩ := hindex.findBucket_of_mem key (fun _ hj => hj) hlt hi heq
        (hlaw.hash_eq _ _ (h.keyAt_ok hi) hkey heq)
        (fun j hj hjk => h.index_unique hlaw hkey hj hi hjk heq)
      exact Or.inl ⟨i, hi, heq, b, hb, hfind, hcell⟩
    · have hno : ∀ j < map.size, equal env map.config (map.keyAt j) key = false := by
        intro j hj
        by_contra hjk
        exact hex ⟨j, hj, by simpa using hjk⟩
      exact Or.inr ⟨hno, hindex.findBucket_of_forall (fun _ hj => hj) hlt hno⟩

end Inv

/-! ## Changes of the dense entries -/

theorem keyAt_set_of_ne {i j : ℕ} (e : Entry) (hne : j ≠ i) :
    (map.withEntries (map.entries.set i e)).keyAt j = map.keyAt j := by
  simp only [LorMap.keyAt, entries_withEntries, List.getElem?_set_ne (Ne.symm hne)]

theorem keyAt_set_self {i : ℕ} (e : Entry) (hi : i < map.size) :
    (map.withEntries (map.entries.set i e)).keyAt i = e.key.bytes := by
  simp only [LorMap.keyAt, entries_withEntries, List.getElem?_set_self hi]

theorem keyAt_append_of_lt {i : ℕ} (e : Entry) (hi : i < map.size) :
    (map.withEntries (map.entries ++ [e])).keyAt i = map.keyAt i := by
  simp only [LorMap.keyAt, entries_withEntries, List.getElem?_append_left hi]

theorem keyAt_append_self (e : Entry) :
    (map.withEntries (map.entries ++ [e])).keyAt map.size = e.key.bytes := by
  simp only [LorMap.keyAt, LorMap.size, entries_withEntries, List.getElem?_concat_length]

/-- An entry object with an accepted key, as wide as the entries of the map. -/
structure EntryOk (env : Env) (map : LorMap) (e : Entry) : Prop where
  key : KeyOk env map.config map.keySize e.key.bytes
  value : e.value.length = map.entrySize - map.keySize

theorem mem_set_cases {α : Type*} {l : List α} {i : ℕ} {x y : α} (h : y ∈ l.set i x) :
    y = x ∨ y ∈ l := by
  rcases List.mem_or_eq_of_mem_set h with h | h
  · exact Or.inr h
  · exact Or.inl h

theorem Inv.set (h : Inv env map) (hlaw : Lawful env map.config map.keySize) {i : ℕ} {e : Entry}
    (hi : i < map.size) (he : EntryOk env map e)
    (heq : equal env map.config (map.keyAt i) e.key.bytes = true) :
    Inv env (map.withEntries (map.entries.set i e)) where
  layout := h.layout
  config := h.config
  keys x hx := by
    rcases mem_set_cases hx with rfl | hx
    · exact he.key
    · exact h.keys x hx
  values x hx := by
    rcases mem_set_cases hx with rfl | hx
    · exact he.value
    · exact h.values x hx
  distinct := by
    have hsame : ∀ j < map.size, KeyOk env map.config map.keySize
          ((map.withEntries (map.entries.set i e)).keyAt j) ∧
        equal env map.config (map.keyAt j)
          ((map.withEntries (map.entries.set i e)).keyAt j) = true := by
      intro j hj
      by_cases hji : j = i
      · subst j
        rw [keyAt_set_self e hi]
        exact ⟨he.key, heq⟩
      · rw [keyAt_set_of_ne e hji]
        exact ⟨h.keyAt_ok hj, hlaw.refl _ (h.keyAt_ok hj)⟩
    intro b hb a hab
    have hb' : b < map.size := by simpa [LorMap.size] using hb
    obtain ⟨haok, haeq⟩ := hsame a (hab.trans hb')
    obtain ⟨hbok, hbeq⟩ := hsame b hb'
    by_contra hne
    rw [Bool.not_eq_false] at hne
    have hab' : a = b := h.index_unique hlaw hbok (hab.trans hb') hb'
      (hlaw.trans _ _ _ (h.keyAt_ok (hab.trans hb')) haok hbok haeq hne) hbeq
    omega
  size_le := by simpa [LorMap.size] using h.size_le
  room := h.room
  bounded := h.bounded
  placed := h.placed
  index hn := by
    have hindex := (h.index hn).congr (map.withEntries (map.entries.set i e)) rfl
      (by
        intro j hj
        unfold idealBucket
        by_cases hji : j = i
        · subst j
          rw [keyAt_set_self e hi, config_withEntries,
            ← hlaw.hash_eq _ _ (h.keyAt_ok hi) he.key heq]
          rfl
        · rw [keyAt_set_of_ne e hji]
          rfl)
    simpa [LorMap.size] using hindex

theorem Inv.clear (h : Inv env map) :
    Inv env ((map.withEntries []).withBuckets (List.replicate map.bucketCapacity 0)) := by
  have hcap : ((map.withEntries []).withBuckets
      (List.replicate map.bucketCapacity 0)).bucketCapacity = map.bucketCapacity :=
    List.length_replicate
  refine ⟨h.layout, h.config, by simp, by simp, by simp [LorMap.size], Nat.zero_le _, ?_, ?_,
    h.placed, ?_⟩
  · rw [hcap]
    exact h.room
  · rw [hcap]
    exact h.bounded
  · intro hn
    rw [hcap] at hn
    have hempty : Index env ((map.withEntries []).withBuckets
        (List.replicate map.bucketCapacity 0)) (fun _ => False) := Index.empty (h.index hn).power
    exact hempty.of_iff (fun i => by simp [LorMap.size])

end Liblor.Map
