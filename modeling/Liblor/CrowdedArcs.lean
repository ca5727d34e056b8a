import Liblor.LinearProbe

/-!
# Occupied cells of a chained table

A cell of a chained table is occupied exactly when some arc that ends there is `Crowded`: at least
as many elements have their ideal cell on the arc as it has cells. The elements and their ideal
cells decide that, so the occupied cells do not depend on the order in which the elements came, nor
on elements that were erased in between.
-/

namespace LinearProbe

variable {α : Type*} {n a e p q i : ℕ} {ideal : α → ℕ} {cell cell' : ℕ → Option α}
    {items : Finset α}

def Crowded (n : ℕ) (ideal : α → ℕ) (items : Finset α) (p : ℕ) : Prop :=
  ∃ a < n, ahead n a p < (items.filter fun x => ahead n a (ideal x) ≤ ahead n a p).card

/-- The empty cell that a walk backwards from `p` meets first. -/
theorem exists_nearest_empty (he : e < n) (hempty : cell e = none) (p : ℕ) :
    ∃ f < n, cell f = none ∧ ∀ g < n, cell g = none → ahead n f p ≤ ahead n g p := by
  obtain ⟨f, hf, hmin⟩ := ((Finset.range n).filter fun g => cell g = none).exists_min_image
    (fun g => ahead n g p) ⟨e, by simp [he, hempty]⟩
  rw [Finset.mem_filter, Finset.mem_range] at hf
  refine ⟨f, hf.1, hf.2, fun g hg hgempty => hmin g ?_⟩
  rw [Finset.mem_filter, Finset.mem_range]
  exact ⟨hg, hgempty⟩

theorem ahead_after (he : e < n) (hp : p < n) (hne : e ≠ p) :
    ahead n ((e + 1) % n) p + 1 = ahead n e p := by
  rw [ahead_eq_ite (next_lt he) hp, ahead_eq_ite he hp, next_eq_ite he]
  split_ifs <;> omega

/-- What an arc without empty cells holds has its ideal cell on the arc. -/
theorem ideal_on_arc (hchain : Chained n ideal cell) (hideal : ∀ x, ideal x < n) {x : α}
    (he : e < n) (hempty : cell e = none) (hp : p < n) (hne : e ≠ p) (hq : q < n)
    (hx : cell q = some x) (hon : ahead n ((e + 1) % n) q ≤ ahead n ((e + 1) % n) p) :
    ahead n ((e + 1) % n) (ideal x) ≤ ahead n ((e + 1) % n) p := by
  by_contra! hoff
  have hi := hideal x
  have hpast : ¬ahead n (ideal x) e < ahead n (ideal x) q := by
    intro hlt
    have hsome := hchain q hq x hx e he hlt
    rw [hempty] at hsome
    cases hsome
  have hqe : q ≠ e := by
    rintro rfl
    rw [hempty] at hx
    cases hx
  rw [ahead_eq_ite (next_lt he) hq, ahead_eq_ite (next_lt he) hp, next_eq_ite he] at hon
  rw [ahead_eq_ite (next_lt he) hp, ahead_eq_ite (next_lt he) hi, next_eq_ite he] at hoff
  rw [ahead_eq_ite hi he, ahead_eq_ite hi hq] at hpast
  split_ifs at hon hoff hpast <;> omega

theorem exists_place (hitems : ∀ x, Holds n cell x ↔ x ∈ items) :
    ∃ place : α → ℕ, ∀ x ∈ items, place x < n ∧ cell (place x) = some x := by
  choose! place hplace using fun x (hx : x ∈ items) => (hitems x).2 hx
  exact ⟨place, hplace⟩

theorem exists_ahead {j : ℕ} (ha : a < n) (hj : j < n) : ∃ q < n, ahead n a q = j := by
  refine ⟨(a + j) % n, Nat.mod_lt _ (by omega), ?_⟩
  rcases Nat.lt_or_ge (a + j) n with hlt | hge
  · rw [Nat.mod_eq_of_lt hlt, ahead_eq_ite ha hlt]
    split_ifs <;> omega
  · have hmod : (a + j) % n = a + j - n := by
      rw [Nat.mod_eq_sub_mod hge, Nat.mod_eq_of_lt (by omega)]
    rw [hmod, ahead_eq_ite ha (by omega)]
    split_ifs <;> omega

theorem Chained.crowded (hchain : Chained n ideal cell) (hsep : Separated n cell)
    (hitems : ∀ x, Holds n cell x ↔ x ∈ items) (hideal : ∀ x, ideal x < n) (he : e < n)
    (hempty : cell e = none) (hp : p < n) (hsome : (cell p).isSome) : Crowded n ideal items p := by
  obtain ⟨f, hf, hfempty, hmin⟩ := exists_nearest_empty he hempty p
  have hne : f ≠ p := by
    rintro rfl
    rw [hfempty] at hsome
    cases hsome
  set start := (f + 1) % n with hstart
  have hstartlt : start < n := next_lt hf
  have hfull : ∀ q < n, ahead n start q ≤ ahead n start p → (cell q).isSome := by
    intro q hq hle
    by_contra hnone
    have hnear := hmin q hq (by simpa using hnone)
    rw [← ahead_after hf hp hne, ← hstart] at hnear
    have hqp := ahead_trans hstartlt hq hp hle
    omega
  obtain ⟨place, hplace⟩ := exists_place hitems
  refine ⟨start, hstartlt, ?_⟩
  -- every cell of the arc is the place of such an element
  have hcells := Finset.card_le_card_of_surjOn
    (s := items.filter fun x => ahead n start (ideal x) ≤ ahead n start p)
    (t := Finset.range (ahead n start p + 1)) (fun x => ahead n start (place x)) (by
      intro j hj
      have hj' : j < ahead n start p + 1 := by simpa using hj
      have hlt := ahead_lt (i := start) hp
      obtain ⟨q, hq, hqj⟩ := exists_ahead hstartlt (show j < n by omega)
      obtain ⟨x, hx⟩ := Option.isSome_iff_exists.1 (hfull q hq (by omega))
      have hmem : x ∈ items := (hitems x).1 ⟨q, hq, hx⟩
      obtain ⟨hplacelt, hcell⟩ := hplace x hmem
      have hq' : place x = q := hsep _ hplacelt q hq x hcell hx
      have hle : ahead n start q ≤ ahead n start p := by omega
      have hon := ideal_on_arc hchain hideal hf hfempty hp hne hq hx hle
      refine ⟨x, by simpa using ⟨hmem, hon⟩, ?_⟩
      change ahead n start (place x) = j
      rw [hq', hqj])
  rw [Finset.card_range] at hcells
  omega

/-- An element whose ideal cell lies on an arc with an empty last cell is stored before that cell.
-/
theorem stored_on_arc (hchain : Chained n ideal cell) (hideal : ∀ x, ideal x < n) {x : α}
    (ha : a < n) (hp : p < n) (hempty : cell p = none) (hq : q < n) (hx : cell q = some x)
    (hon : ahead n a (ideal x) ≤ ahead n a p) : ahead n a q < ahead n a p := by
  have hi := hideal x
  have hpast : ¬ahead n (ideal x) p < ahead n (ideal x) q := by
    intro hlt
    have hsome := hchain q hq x hx p hp hlt
    rw [hempty] at hsome
    cases hsome
  have hqp : ahead n (ideal x) q ≠ ahead n (ideal x) p := by
    intro heq
    rw [ahead_inj hi hq hp heq, hempty] at hx
    cases hx
  exact ahead_lt_of_between ha hi hq hp hon (by omega)

theorem Chained.not_crowded (hchain : Chained n ideal cell)
    (hitems : ∀ x, Holds n cell x ↔ x ∈ items) (hideal : ∀ x, ideal x < n) (hp : p < n)
    (hempty : cell p = none) : ¬Crowded n ideal items p := by
  rintro ⟨a, ha, hcrowded⟩
  obtain ⟨place, hplace⟩ := exists_place hitems
  have hcard := Finset.card_le_card_of_injOn
    (s := items.filter fun x => ahead n a (ideal x) ≤ ahead n a p)
    (t := Finset.range (ahead n a p)) (fun x => ahead n a (place x)) (by
      intro x hx
      have hx' : x ∈ items ∧ ahead n a (ideal x) ≤ ahead n a p := by simpa using hx
      obtain ⟨hlt, hcell⟩ := hplace x hx'.1
      simpa using stored_on_arc hchain hideal ha hp hempty hlt hcell hx'.2) (by
      intro x hx y hy heq
      have hx' : x ∈ items ∧ ahead n a (ideal x) ≤ ahead n a p := by simpa using hx
      have hy' : y ∈ items ∧ ahead n a (ideal y) ≤ ahead n a p := by simpa using hy
      obtain ⟨hxlt, hxcell⟩ := hplace x hx'.1
      obtain ⟨hylt, hycell⟩ := hplace y hy'.1
      rw [ahead_inj ha hxlt hylt heq, hycell] at hxcell
      exact (Option.some.inj hxcell).symm)
  rw [Finset.card_range] at hcard
  omega

theorem Chained.isSome_iff_crowded (hchain : Chained n ideal cell) (hsep : Separated n cell)
    (hitems : ∀ x, Holds n cell x ↔ x ∈ items) (hideal : ∀ x, ideal x < n) (he : e < n)
    (hempty : cell e = none) (hp : p < n) : (cell p).isSome ↔ Crowded n ideal items p := by
  constructor
  · exact hchain.crowded hsep hitems hideal he hempty hp
  · intro hcrowded
    by_contra hnone
    exact hchain.not_crowded hitems hideal hp (by simpa using hnone) hcrowded

theorem vacancy_congr (hsome : ∀ p < n, (cell p).isSome = (cell' p).isSome) (fuel : ℕ)
    (hp : p < n) : vacancy n cell fuel p = vacancy n cell' fuel p := by
  induction fuel generalizing p with
  | zero => rfl
  | succ fuel ih =>
    unfold vacancy
    rw [hsome p hp, ih (next_lt hp)]

end LinearProbe
