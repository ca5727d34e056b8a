import Mathlib

/-!
# Linear probing on a ring of cells

Cells `0 .. n - 1` form a ring, each empty or holding one element, and every element has an ideal
cell. A lookup walks forward from the ideal cell of its key and gives up at the first empty cell,
which is correct as long as the table is `Chained`: no empty cell separates an element from its
ideal cell. Insertion fills the first empty cell of the walk; deletion by backward shift moves
later elements of the cluster into the hole instead of leaving a marker.
-/

namespace LinearProbe

variable {α : Type*} {n : ℕ}

/-- Number of forward steps from cell `i` to cell `p`. -/
def ahead (n i p : ℕ) : ℕ := (p + n - i) % n

theorem ahead_eq_ite {i p : ℕ} (hi : i < n) (hp : p < n) :
    ahead n i p = if i ≤ p then p - i else p + n - i := by
  unfold ahead
  split_ifs with h
  · rw [show p + n - i = p - i + n by omega, Nat.add_mod_right, Nat.mod_eq_of_lt (by omega)]
  · exact Nat.mod_eq_of_lt (by omega)

theorem next_eq_ite {p : ℕ} (hp : p < n) :
    (p + 1) % n = if p + 1 = n then 0 else p + 1 := by
  split_ifs with h
  · rw [h, Nat.mod_self]
  · exact Nat.mod_eq_of_lt (by omega)

theorem next_lt {p : ℕ} (hp : p < n) : (p + 1) % n < n := Nat.mod_lt _ (by omega)

theorem ahead_lt {i p : ℕ} (hp : p < n) : ahead n i p < n := Nat.mod_lt _ (by omega)

@[simp] theorem ahead_self {i : ℕ} : ahead n i i = 0 := by
  unfold ahead
  rw [Nat.add_sub_cancel_left, Nat.mod_self]

theorem ahead_inj {i p q : ℕ} (hi : i < n) (hp : p < n) (hq : q < n)
    (h : ahead n i p = ahead n i q) : p = q := by
  rw [ahead_eq_ite hi hp, ahead_eq_ite hi hq] at h
  split_ifs at h <;> omega

theorem ahead_next {i p : ℕ} (hi : i < n) (hp : p < n) (hne : ahead n i p + 1 < n) :
    ahead n i ((p + 1) % n) = ahead n i p + 1 := by
  rw [ahead_eq_ite hi (next_lt hp), ahead_eq_ite hi hp, next_eq_ite hp]
  rw [ahead_eq_ite hi hp] at hne
  split_ifs at hne ⊢ <;> omega

theorem ahead_trans {i h p : ℕ} (hi : i < n) (hh : h < n) (hp : p < n)
    (hle : ahead n i h ≤ ahead n i p) : ahead n i p = ahead n i h + ahead n h p := by
  rw [ahead_eq_ite hi hh, ahead_eq_ite hi hp] at hle
  rw [ahead_eq_ite hi hh, ahead_eq_ite hi hp, ahead_eq_ite hh hp]
  split_ifs at hle ⊢ <;> omega

/-- Every cell on the way from the ideal cell of a stored element to that element is occupied. -/
def Chained (n : ℕ) (ideal : α → ℕ) (cell : ℕ → Option α) : Prop :=
  ∀ p < n, ∀ x, cell p = some x → ∀ q < n,
    ahead n (ideal x) q < ahead n (ideal x) p → (cell q).isSome

def Separated (n : ℕ) (cell : ℕ → Option α) : Prop :=
  ∀ p < n, ∀ q < n, ∀ x, cell p = some x → cell q = some x → p = q

def Holds (n : ℕ) (cell : ℕ → Option α) (x : α) : Prop := ∃ p < n, cell p = some x

theorem exists_empty {cell : ℕ → Option ℕ} {m : ℕ} (hsep : Separated n cell) (hmn : m < n)
    (hlt : ∀ x, Holds n cell x → x < m) : ∃ e < n, cell e = none := by
  by_contra! hfull
  have hsome : ∀ p < n, ∃ x, cell p = some x := fun p hp =>
    Option.ne_none_iff_exists'.mp (hfull p hp)
  have hmaps : ∀ p ∈ Finset.range n, (cell p).getD 0 ∈ Finset.range m := by
    intro p hp
    obtain ⟨x, hx⟩ := hsome p (Finset.mem_range.mp hp)
    rw [hx]
    exact Finset.mem_range.mpr (hlt x ⟨p, Finset.mem_range.mp hp, hx⟩)
  obtain ⟨p, hp, q, hq, hne, heq⟩ :=
    Finset.exists_ne_map_eq_of_card_lt_of_maps_to (by simpa using hmn) hmaps
  obtain ⟨x, hx⟩ := hsome p (Finset.mem_range.mp hp)
  obtain ⟨y, hy⟩ := hsome q (Finset.mem_range.mp hq)
  rw [hx, hy] at heq
  have hxy : x = y := heq
  subst hxy
  exact hne (hsep p (Finset.mem_range.mp hp) q (Finset.mem_range.mp hq) x hx hy)

theorem Chained.congr {cell : ℕ → Option α} {ideal ideal' : α → ℕ} (h : Chained n ideal cell)
    (hideal : ∀ x, Holds n cell x → ideal' x = ideal x) : Chained n ideal' cell := by
  intro p hp x hx q hq hlt
  rw [hideal x ⟨p, hp, hx⟩] at hlt
  exact h p hp x hx q hq hlt

/-! ## Lookup -/

/-- Walk forward until a cell is empty (`some none`) or its element satisfies `stop`. The outer
`none` means that the walk did not end within its fuel. -/
def probe (n : ℕ) (cell : ℕ → Option α) (stop : α → Bool) : ℕ → ℕ → Option (Option ℕ)
  | 0, _ => none
  | fuel + 1, p =>
    match cell p with
    | none => some none
    | some x => if stop x then some (some p) else probe n cell stop fuel ((p + 1) % n)

def Passed (n : ℕ) (cell : ℕ → Option α) (stop : α → Bool) (s k : ℕ) : Prop :=
  ∀ p < n, ahead n s p < k → ∃ x, cell p = some x ∧ stop x = false

theorem passed_next {cell : ℕ → Option α} {stop : α → Bool} {s p : ℕ} (hs : s < n) (hp : p < n)
    {x : α} (hx : cell p = some x) (hstop : stop x = false)
    (h : Passed n cell stop s (ahead n s p)) : Passed n cell stop s (ahead n s p + 1) := by
  intro q hq hlt
  by_cases he : ahead n s q = ahead n s p
  · rw [ahead_inj hs hq hp he]
    exact ⟨x, hx, hstop⟩
  · exact h q hq (by omega)

theorem probe_from {cell : ℕ → Option α} {stop : α → Bool} {s e : ℕ} (hs : s < n) (he : e < n)
    (hempty : cell e = none) (fuel p : ℕ) (hp : p < n) (hfuel : n ≤ ahead n s p + fuel)
    (hpass : Passed n cell stop s (ahead n s p)) :
    ∃ q < n, Passed n cell stop s (ahead n s q) ∧
      ((cell q = none ∧ probe n cell stop fuel p = some none) ∨
        ∃ x, cell q = some x ∧ stop x = true ∧ probe n cell stop fuel p = some (some q)) := by
  induction fuel generalizing p with
  | zero =>
      have := ahead_lt (i := s) hp
      omega
  | succ fuel ih =>
      cases hc : cell p with
      | none => exact ⟨p, hp, hpass, Or.inl ⟨hc, by simp only [probe, hc]⟩⟩
      | some x =>
          cases hst : stop x with
          | true => exact ⟨p, hp, hpass, Or.inr ⟨x, hc, hst, by simp [probe, hc, hst]⟩⟩
          | false =>
              have hnext := passed_next hs hp hc hst hpass
              have hlt : ahead n s p + 1 < n := by
                by_contra! hge
                obtain ⟨y, hy, _⟩ := hnext e he (by have := ahead_lt (i := s) he; omega)
                rw [hempty] at hy
                cases hy
              rw [← ahead_next hs hp hlt] at hnext
              obtain ⟨q, hq, hpq, hres⟩ := ih ((p + 1) % n) (next_lt hp)
                (by rw [ahead_next hs hp hlt]; omega) hnext
              refine ⟨q, hq, hpq, ?_⟩
              simpa [probe, hc, hst] using hres

/-- A walk from `s` over a ring with an empty cell ends within one round, at the first cell that
is empty or stops it. -/
theorem probe_spec {cell : ℕ → Option α} (stop : α → Bool) {s e : ℕ} (hs : s < n) (he : e < n)
    (hempty : cell e = none) :
    ∃ q < n, Passed n cell stop s (ahead n s q) ∧
      ((cell q = none ∧ probe n cell stop n s = some none) ∨
        ∃ x, cell q = some x ∧ stop x = true ∧ probe n cell stop n s = some (some q)) := by
  apply probe_from hs he hempty n s hs (by simp)
  intro p hp hlt
  simp at hlt

/-- The walk from the ideal cell of a stored element finds it, if no other stored element stops
the walk. -/
theorem probe_eq_some {cell : ℕ → Option α} {stop : α → Bool} {ideal : α → ℕ} {e q : ℕ} {x : α}
    (hchain : Chained n ideal cell) (he : e < n) (hempty : cell e = none) (hq : q < n)
    (hx : cell q = some x) (hstop : stop x = true) (hs : ideal x < n)
    (huniq : ∀ p < n, ∀ y, cell p = some y → stop y = true → p = q) :
    probe n cell stop n (ideal x) = some (some q) := by
  obtain ⟨r, hr, hpass, ⟨hnone, -⟩ | ⟨y, hy, hsy, hres⟩⟩ :=
    probe_spec stop hs he hempty
  · have hbound : ahead n (ideal x) r ≤ ahead n (ideal x) q := by
      by_contra! hlt
      obtain ⟨z, hz, hsz⟩ := hpass q hq hlt
      rw [hx] at hz
      cases hz
      rw [hstop] at hsz
      cases hsz
    have hne : ahead n (ideal x) r ≠ ahead n (ideal x) q := by
      intro heq
      rw [ahead_inj hs hr hq heq, hx] at hnone
      cases hnone
    have hsome := hchain q hq x hx r hr (by omega)
    rw [hnone] at hsome
    cases hsome
  · rw [hres, huniq r hr y hy hsy]

theorem probe_eq_none {cell : ℕ → Option α} {stop : α → Bool} {s e : ℕ} (hs : s < n) (he : e < n)
    (hempty : cell e = none) (hstop : ∀ p < n, ∀ y, cell p = some y → stop y = false) :
    probe n cell stop n s = some none := by
  obtain ⟨q, hq, -, ⟨-, hres⟩ | ⟨y, hy, hsy, -⟩⟩ := probe_spec stop hs he hempty
  · exact hres
  · rw [hstop q hq y hy] at hsy
    cases hsy

/-! ## Insertion -/

def vacancy (n : ℕ) (cell : ℕ → Option α) : ℕ → ℕ → Option ℕ
  | 0, _ => none
  | fuel + 1, p => if (cell p).isSome then vacancy n cell fuel ((p + 1) % n) else some p

theorem vacancy_from {cell : ℕ → Option α} {s e : ℕ} (hs : s < n) (he : e < n)
    (hempty : cell e = none) (fuel p : ℕ) (hp : p < n) (hfuel : n ≤ ahead n s p + fuel)
    (hpass : ∀ q < n, ahead n s q < ahead n s p → (cell q).isSome) :
    ∃ q < n, cell q = none ∧ vacancy n cell fuel p = some q ∧
      ∀ r < n, ahead n s r < ahead n s q → (cell r).isSome := by
  induction fuel generalizing p with
  | zero =>
      have := ahead_lt (i := s) hp
      omega
  | succ fuel ih =>
      cases hc : cell p with
      | none => exact ⟨p, hp, hc, by simp [vacancy, hc], hpass⟩
      | some x =>
          have hnext : ∀ q < n, ahead n s q < ahead n s p + 1 → (cell q).isSome := by
            intro q hq hlt
            by_cases heq : ahead n s q = ahead n s p
            · rw [ahead_inj hs hq hp heq, hc]
              rfl
            · exact hpass q hq (by omega)
          have hlt : ahead n s p + 1 < n := by
            by_contra! hge
            have hsome := hnext e he (by have := ahead_lt (i := s) he; omega)
            rw [hempty] at hsome
            cases hsome
          obtain ⟨q, hq, hqe, hres, hqp⟩ := ih ((p + 1) % n) (next_lt hp)
            (by rw [ahead_next hs hp hlt]; omega) (by rw [ahead_next hs hp hlt]; exact hnext)
          exact ⟨q, hq, hqe, by simpa [vacancy, hc] using hres, hqp⟩

/-- Over a ring with an empty cell the walk from `s` stops within one round, at an empty cell
that only occupied cells precede. -/
theorem vacancy_spec {cell : ℕ → Option α} {s e : ℕ} (hs : s < n) (he : e < n)
    (hempty : cell e = none) :
    ∃ q < n, cell q = none ∧ vacancy n cell n s = some q ∧
      ∀ r < n, ahead n s r < ahead n s q → (cell r).isSome :=
  vacancy_from hs he hempty n s hs (by simp) (by simp)

theorem isSome_update {cell : ℕ → Option α} {q r : ℕ} {x : α} (h : (cell r).isSome) :
    (Function.update cell q (some x) r).isSome := by
  by_cases hr : r = q
  · subst r
    simp
  · rwa [Function.update_of_ne hr]

theorem Chained.insert {cell : ℕ → Option α} {ideal : α → ℕ} {q : ℕ} {x : α}
    (h : Chained n ideal cell)
    (hpass : ∀ r < n, ahead n (ideal x) r < ahead n (ideal x) q → (cell r).isSome) :
    Chained n ideal (Function.update cell q (some x)) := by
  intro p hp y hy r hr hlt
  apply isSome_update
  by_cases hpq : p = q
  · subst p
    rw [Function.update_self] at hy
    cases hy
    exact hpass r hr hlt
  · rw [Function.update_of_ne hpq] at hy
    exact h p hp y hy r hr hlt

theorem Separated.insert {cell : ℕ → Option α} {q : ℕ} {x : α} (h : Separated n cell)
    (hx : ¬ Holds n cell x) : Separated n (Function.update cell q (some x)) := by
  intro p hp r hr y hpy hry
  by_cases hpq : p = q <;> by_cases hrq : r = q
  · rw [hpq, hrq]
  · subst p
    rw [Function.update_self] at hpy
    rw [Function.update_of_ne hrq, ← hpy] at hry
    exact absurd ⟨r, hr, hry⟩ hx
  · subst r
    rw [Function.update_self] at hry
    rw [Function.update_of_ne hpq, ← hry] at hpy
    exact absurd ⟨p, hp, hpy⟩ hx
  · rw [Function.update_of_ne hpq] at hpy
    rw [Function.update_of_ne hrq] at hry
    exact h p hp r hr y hpy hry

theorem holds_insert {cell : ℕ → Option α} {q : ℕ} {x : α} (hq : q < n) (hempty : cell q = none)
    (y : α) : Holds n (Function.update cell q (some x)) y ↔ y = x ∨ Holds n cell y := by
  constructor
  · rintro ⟨p, hp, hy⟩
    by_cases hpq : p = q
    · subst p
      rw [Function.update_self] at hy
      exact Or.inl (Option.some.inj hy).symm
    · rw [Function.update_of_ne hpq] at hy
      exact Or.inr ⟨p, hp, hy⟩
  · rintro (rfl | ⟨p, hp, hy⟩)
    · exact ⟨q, hq, Function.update_self ..⟩
    · refine ⟨p, hp, ?_⟩
      have hpq : p ≠ q := by
        intro h
        rw [h, hempty] at hy
        cases hy
      rwa [Function.update_of_ne hpq]

/-! ## Renaming a stored element -/

section replace

variable {cell : ℕ → Option α} {b : ℕ} {x y : α}

theorem Chained.replace {ideal ideal' : α → ℕ} (h : Chained n ideal cell)
    (hsep : Separated n cell) (hb : b < n) (hx : cell b = some x) (hy : ideal' y = ideal x)
    (hideal : ∀ z, Holds n cell z → z ≠ x → ideal' z = ideal z) :
    Chained n ideal' (Function.update cell b (some y)) := by
  intro p hp z hz q hq hlt
  apply isSome_update
  by_cases hpb : p = b
  · subst p
    rw [Function.update_self] at hz
    cases hz
    rw [hy] at hlt
    exact h b hb x hx q hq hlt
  · rw [Function.update_of_ne hpb] at hz
    have hzx : z ≠ x := by
      intro he
      subst z
      exact hpb (hsep p hp b hb x hz hx)
    rw [hideal z ⟨p, hp, hz⟩ hzx] at hlt
    exact h p hp z hz q hq hlt

theorem holds_replace (hsep : Separated n cell) (hb : b < n) (hx : cell b = some x) (z : α) :
    Holds n (Function.update cell b (some y)) z ↔ z = y ∨ z ≠ x ∧ Holds n cell z := by
  constructor
  · intro ⟨p, hp, hz⟩
    by_cases hpb : p = b
    · subst p
      rw [Function.update_self] at hz
      exact Or.inl (Option.some.inj hz).symm
    · rw [Function.update_of_ne hpb] at hz
      refine Or.inr ⟨?_, p, hp, hz⟩
      intro he
      subst z
      exact hpb (hsep p hp b hb x hz hx)
  · rintro (rfl | ⟨hne, p, hp, hz⟩)
    · exact ⟨b, hb, Function.update_self ..⟩
    · refine ⟨p, hp, ?_⟩
      have hpb : p ≠ b := by
        intro he
        subst p
        rw [hx] at hz
        exact hne (Option.some.inj hz).symm
      rwa [Function.update_of_ne hpb]

end replace

/-! ## Deletion by backward shift -/

/-- Close the hole at `hole`: scan forward from `next` up to the first empty cell, moving into the
hole every element whose walk passes it; the cell such an element leaves is the new hole. -/
def shift (n : ℕ) (ideal : α → ℕ) : ℕ → (ℕ → Option α) → ℕ → ℕ → Option (ℕ → Option α)
  | 0, _, _, _ => none
  | fuel + 1, cell, hole, next =>
    match cell next with
    | none => some (Function.update cell hole none)
    | some x =>
      if ahead n (ideal x) next > ahead n (ideal x) hole then
        shift n ideal fuel (Function.update cell hole (some x)) next ((next + 1) % n)
      else shift n ideal fuel cell hole ((next + 1) % n)

/-- State of a backward shift that is to leave exactly the elements `S` in the ring. The hole
still counts as occupied: its stale element keeps the walks of the later elements connected. -/
structure Shifting (n : ℕ) (ideal : α → ℕ) (S : α → Prop) (cell : ℕ → Option α)
    (hole next : ℕ) : Prop where
  hole_lt : hole < n
  next_lt : next < n
  next_ne : next ≠ hole
  chained : ∀ p < n, p ≠ hole → ∀ x, cell p = some x → ∀ q < n,
    ahead n (ideal x) q < ahead n (ideal x) p → (cell q).isSome
  filled : ∀ p < n, ahead n hole p < ahead n hole next → (cell p).isSome
  scanned : ∀ p < n, p ≠ hole → ahead n hole p < ahead n hole next → ∀ x, cell p = some x →
    ahead n (ideal x) p ≤ ahead n (ideal x) hole
  separated : ∀ p < n, p ≠ hole → ∀ q < n, q ≠ hole → ∀ x, cell p = some x → cell q = some x →
    p = q
  holds : ∀ x, (∃ p < n, p ≠ hole ∧ cell p = some x) ↔ S x

theorem ahead_lt_of_between {i h q p : ℕ} (hi : i < n) (hh : h < n) (hq : q < n) (hp : p < n)
    (hle : ahead n i h ≤ ahead n i p) (hlt : ahead n h q < ahead n h p) :
    ahead n i q < ahead n i p := by
  rw [ahead_eq_ite hi hh, ahead_eq_ite hi hp] at hle
  rw [ahead_eq_ite hh hq, ahead_eq_ite hh hp] at hlt
  rw [ahead_eq_ite hi hq, ahead_eq_ite hi hp]
  split_ifs at hle hlt ⊢ <;> omega

theorem ahead_next_self {p : ℕ} (hp : p < n) (hn : 1 < n) : ahead n p ((p + 1) % n) = 1 := by
  rw [ahead_next hp hp (by simpa using hn), ahead_self]

theorem shifting_start {ideal : α → ℕ} {cell : ℕ → Option α} {b : ℕ} {x : α}
    (hchain : Chained n ideal cell) (hsep : Separated n cell) (hb : b < n) (hn : 1 < n)
    (hx : cell b = some x) :
    Shifting n ideal (fun y => y ≠ x ∧ Holds n cell y) cell b ((b + 1) % n) where
  hole_lt := hb
  next_lt := next_lt hb
  next_ne := by
    intro h
    have := ahead_next_self hb hn
    rw [h, ahead_self] at this
    omega
  chained p hp _ := hchain p hp
  filled p hp hlt := by
    rw [ahead_next_self hb hn] at hlt
    rw [ahead_inj hb hp hb (by simp; omega), hx]
    rfl
  scanned p hp hne hlt := by
    rw [ahead_next_self hb hn] at hlt
    exact absurd (ahead_inj hb hp hb (by simp; omega)) hne
  separated p hp _ q hq _ := hsep p hp q hq
  holds y := by
    constructor
    · rintro ⟨p, hp, hne, hy⟩
      refine ⟨?_, p, hp, hy⟩
      rintro rfl
      exact hne (hsep p hp b hb y hy hx)
    · rintro ⟨hne, p, hp, hy⟩
      refine ⟨p, hp, ?_, hy⟩
      rintro rfl
      rw [hx] at hy
      exact hne (Option.some.inj hy).symm

theorem Shifting.move {ideal : α → ℕ} {S : α → Prop} {cell : ℕ → Option α} {hole next : ℕ} {x : α}
    (h : Shifting n ideal S cell hole next) (hx : cell next = some x)
    (hpast : ahead n (ideal x) next > ahead n (ideal x) hole) :
    Shifting n ideal S (Function.update cell hole (some x)) next ((next + 1) % n) := by
  have hn : 1 < n := by have := h.hole_lt; have := h.next_lt; have := h.next_ne; omega
  refine ⟨h.next_lt, LinearProbe.next_lt h.next_lt, ?_, ?_, ?_, ?_, ?_, ?_⟩
  · intro he
    have := ahead_next_self h.next_lt hn
    rw [he, ahead_self] at this
    omega
  · intro p hp hne y hy q hq hlt
    apply isSome_update
    by_cases hph : p = hole
    · subst p
      rw [Function.update_self] at hy
      cases hy
      exact h.chained next h.next_lt h.next_ne x hx q hq (by omega)
    · rw [Function.update_of_ne hph] at hy
      exact h.chained p hp hph y hy q hq hlt
  · intro p hp hlt
    rw [ahead_next_self h.next_lt hn] at hlt
    rw [ahead_inj h.next_lt hp h.next_lt (by simp; omega)]
    apply isSome_update
    rw [hx]
    rfl
  · intro p hp hne hlt
    rw [ahead_next_self h.next_lt hn] at hlt
    exact absurd (ahead_inj h.next_lt hp h.next_lt (by simp; omega)) hne
  · intro p hp hpn q hq hqn y hpy hqy
    by_cases hph : p = hole <;> by_cases hqh : q = hole
    · rw [hph, hqh]
    · subst p
      rw [Function.update_self] at hpy
      rw [Function.update_of_ne hqh, ← hpy] at hqy
      exact absurd (h.separated q hq hqh next h.next_lt h.next_ne x hqy hx) hqn
    · subst q
      rw [Function.update_self] at hqy
      rw [Function.update_of_ne hph, ← hqy] at hpy
      exact absurd (h.separated p hp hph next h.next_lt h.next_ne x hpy hx) hpn
    · rw [Function.update_of_ne hph] at hpy
      rw [Function.update_of_ne hqh] at hqy
      exact h.separated p hp hph q hq hqh y hpy hqy
  · intro y
    rw [← h.holds y]
    constructor
    · rintro ⟨p, hp, hpn, hy⟩
      by_cases hph : p = hole
      · subst p
        rw [Function.update_self, ← hx] at hy
        exact ⟨next, h.next_lt, h.next_ne, hy⟩
      · rw [Function.update_of_ne hph] at hy
        exact ⟨p, hp, hph, hy⟩
    · rintro ⟨p, hp, hph, hy⟩
      by_cases hpn : p = next
      · subst p
        refine ⟨hole, h.hole_lt, h.next_ne.symm, ?_⟩
        rw [Function.update_self, ← hx, hy]
      · exact ⟨p, hp, hpn, by rwa [Function.update_of_ne hph]⟩

theorem Shifting.keep {ideal : α → ℕ} {S : α → Prop} {cell : ℕ → Option α} {hole next e : ℕ}
    {x : α} (h : Shifting n ideal S cell hole next) (he : e < n) (hempty : cell e = none)
    (hx : cell next = some x) (hstay : ¬ ahead n (ideal x) next > ahead n (ideal x) hole) :
    Shifting n ideal S cell hole ((next + 1) % n) := by
  have hlt : ahead n hole next + 1 < n := by
    by_contra! hge
    have hfilled : (cell e).isSome := by
      by_cases hen : ahead n hole e = ahead n hole next
      · rw [ahead_inj h.hole_lt he h.next_lt hen, hx]
        rfl
      · exact h.filled e he (by have := ahead_lt (i := hole) he; omega)
    rw [hempty] at hfilled
    cases hfilled
  have hstep := ahead_next h.hole_lt h.next_lt hlt
  refine ⟨h.hole_lt, LinearProbe.next_lt h.next_lt, ?_, h.chained, ?_, ?_, h.separated, h.holds⟩
  · intro heq
    rw [heq, ahead_self] at hstep
    omega
  · intro p hp hpl
    by_cases hpn : ahead n hole p = ahead n hole next
    · rw [ahead_inj h.hole_lt hp h.next_lt hpn, hx]
      rfl
    · exact h.filled p hp (by omega)
  · intro p hp hne hpl y hy
    by_cases hpn : ahead n hole p = ahead n hole next
    · rw [ahead_inj h.hole_lt hp h.next_lt hpn] at hy ⊢
      rw [hx] at hy
      cases hy
      omega
    · exact h.scanned p hp hne (by omega) y hy

/-- Once the scan meets an empty cell, clearing the hole disconnects no element. -/
theorem Shifting.finish {ideal : α → ℕ} {S : α → Prop} {cell : ℕ → Option α} {hole next : ℕ}
    (h : Shifting n ideal S cell hole next) (hideal : ∀ x, ideal x < n)
    (hnext : cell next = none) : Chained n ideal (Function.update cell hole none) := by
  intro p hp x hx q hq hlt
  have hph : p ≠ hole := by
    rintro rfl
    rw [Function.update_self] at hx
    cases hx
  rw [Function.update_of_ne hph] at hx
  have hqh : q ≠ hole := by
    rintro rfl
    by_cases hscan : ahead n q p < ahead n q next
    · have := h.scanned p hp hph hscan x hx
      omega
    · have hpn : ahead n q p ≠ ahead n q next := by
        intro heq
        rw [ahead_inj hq hp h.next_lt heq, hnext] at hx
        cases hx
      have hsome := h.chained p hp hph x hx next h.next_lt
        (ahead_lt_of_between (hideal x) hq h.next_lt hp (by omega) (by omega))
      rw [hnext] at hsome
      cases hsome
  rw [Function.update_of_ne hqh]
  exact h.chained p hp hph x hx q hq hlt

theorem shift_from {ideal : α → ℕ} {S : α → Prop} (hideal : ∀ x, ideal x < n) {e : ℕ} (he : e < n)
    (fuel : ℕ) (cell : ℕ → Option α) (hole next : ℕ) (h : Shifting n ideal S cell hole next)
    (hempty : cell e = none) (hfuel : ahead n next e < fuel) :
    ∃ cell', shift n ideal fuel cell hole next = some cell' ∧ Chained n ideal cell' ∧
      Separated n cell' ∧ ∀ x, Holds n cell' x ↔ S x := by
  induction fuel generalizing cell hole next with
  | zero => omega
  | succ fuel ih =>
      cases hc : cell next with
      | none =>
          refine ⟨Function.update cell hole none, by simp only [shift, hc], h.finish hideal hc,
            ?_, ?_⟩
          · intro p hp q hq x hpx hqx
            have hne : ∀ r, Function.update cell hole none r = some x → r ≠ hole := by
              rintro r hr rfl
              rw [Function.update_self] at hr
              cases hr
            have hph := hne p hpx
            have hqh := hne q hqx
            rw [Function.update_of_ne hph] at hpx
            rw [Function.update_of_ne hqh] at hqx
            exact h.separated p hp hph q hq hqh x hpx hqx
          · intro x
            rw [← h.holds x]
            constructor
            · rintro ⟨p, hp, hx⟩
              have hph : p ≠ hole := by
                rintro rfl
                rw [Function.update_self] at hx
                cases hx
              exact ⟨p, hp, hph, by rwa [Function.update_of_ne hph] at hx⟩
            · rintro ⟨p, hp, hph, hx⟩
              exact ⟨p, hp, by rwa [Function.update_of_ne hph]⟩
      | some x =>
          have hne : e ≠ next := by
            rintro rfl
            rw [hempty] at hc
            cases hc
          have hn : 1 < n := by have := h.hole_lt; have := h.next_lt; have := h.next_ne; omega
          have hstep : ahead n ((next + 1) % n) e < fuel := by
            have hpos : ahead n next ((next + 1) % n) ≤ ahead n next e := by
              rw [ahead_next_self h.next_lt hn]
              by_contra! hlt
              exact hne (ahead_inj h.next_lt he h.next_lt (by simp; omega))
            have := ahead_trans h.next_lt (LinearProbe.next_lt h.next_lt) he hpos
            rw [ahead_next_self h.next_lt hn] at this
            omega
          by_cases hpast : ahead n (ideal x) next > ahead n (ideal x) hole
          · have heh : e ≠ hole := by
              rintro rfl
              have hpos : ahead n e e < ahead n e next := by
                rw [ahead_self]
                by_contra! hle
                exact h.next_ne (ahead_inj he h.next_lt he (by simp; omega))
              have := h.filled e he hpos
              rw [hempty] at this
              cases this
            have hrec := ih (Function.update cell hole (some x)) next ((next + 1) % n)
              (h.move hc hpast) (by rwa [Function.update_of_ne heh]) hstep
            simpa only [shift, hc, if_pos hpast] using hrec
          · have hrec := ih cell hole ((next + 1) % n) (h.keep he hempty hc hpast) hempty hstep
            simpa only [shift, hc, if_neg hpast] using hrec

/-- Backward shift removes exactly the element at `b` and leaves a chained table. -/
theorem shift_spec {ideal : α → ℕ} {cell : ℕ → Option α} {b e : ℕ} {x : α}
    (hideal : ∀ x, ideal x < n) (hchain : Chained n ideal cell) (hsep : Separated n cell)
    (hb : b < n) (hx : cell b = some x) (he : e < n) (hempty : cell e = none) :
    ∃ cell', shift n ideal n cell b ((b + 1) % n) = some cell' ∧ Chained n ideal cell' ∧
      Separated n cell' ∧ ∀ y, Holds n cell' y ↔ y ≠ x ∧ Holds n cell y := by
  have hne : e ≠ b := by
    rintro rfl
    rw [hempty] at hx
    cases hx
  exact shift_from hideal he n cell b _
    (shifting_start hchain hsep hb (by omega) hx) hempty (ahead_lt he)

end LinearProbe
