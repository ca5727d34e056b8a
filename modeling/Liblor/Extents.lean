import Mathlib

/-!
# Stretches of addresses

Rounding a length up to a multiple of a unit, by division and by clearing the bits of a mask, and
the total length of stretches that lie apart.
-/

namespace Extents

universe u

theorem isLeast_multiple {unit : ℕ} (hpos : 0 < unit) (n : ℕ) :
    IsLeast {m | unit ∣ m ∧ n ≤ m} ((n + (unit - 1)) / unit * unit) := by
  have hdiv := Nat.div_add_mod' (n + (unit - 1)) unit
  have hmod := Nat.mod_lt (n + (unit - 1)) hpos
  constructor
  · constructor
    · exact Nat.dvd_mul_left _ _
    · omega
  · rintro _ ⟨⟨c, rfl⟩, hle⟩
    rw [Nat.mul_comm unit c]
    apply Nat.mul_le_mul_right
    apply Nat.lt_succ_iff.1
    rw [Nat.div_lt_iff_lt_mul hpos, Nat.succ_mul, Nat.mul_comm c unit]
    omega

/-- Clearing the bits of a mask that ends in `k` ones leaves a multiple of `2 ^ k`. -/
theorem two_pow_dvd_cleared {k mask : ℕ} (h : 2 ^ k ∣ mask + 1) (x : ℕ) :
    2 ^ k ∣ x - (x &&& mask) := by
  have hmask : mask % 2 ^ k = 2 ^ k - 1 := by
    obtain ⟨c, hc⟩ := h
    have hpos := Nat.two_pow_pos k
    cases c with
    | zero => simp at hc
    | succ c =>
        have heq : mask = 2 ^ k - 1 + 2 ^ k * c := by
          rw [Nat.mul_succ] at hc
          omega
        rw [heq, Nat.add_mul_mod_self_left, Nat.mod_eq_of_lt (by omega)]
  have hlow : (x &&& mask) % 2 ^ k = x % 2 ^ k := by
    rw [Nat.and_mod_two_pow, hmask, Nat.and_two_pow_sub_one_eq_mod, Nat.mod_mod]
  exact (Nat.modEq_iff_dvd' Nat.and_le_left).1 hlow

section Apart

variable {α : Type u} (start size : α → ℕ)

/-- The addresses that some stretches cover. -/
def covered : List α → Finset ℕ
  | [] => ∅
  | a :: l => Finset.Ico (start a) (start a + size a) ∪ covered l

variable {start size} {l : List α}

theorem mem_covered {x : ℕ} :
    x ∈ covered start size l ↔ ∃ a ∈ l, start a ≤ x ∧ x < start a + size a := by
  induction l with
  | nil => simp [covered]
  | cons a l ih => simp [covered, ih]

theorem card_covered
    (h : l.Pairwise fun a b => start a + size a ≤ start b ∨ start b + size b ≤ start a) :
    (covered start size l).card = (l.map size).sum := by
  induction l with
  | nil => rfl
  | cons a l ih =>
      obtain ⟨hhead, htail⟩ := List.pairwise_cons.1 h
      have hdisjoint : Disjoint (Finset.Ico (start a) (start a + size a))
          (covered start size l) := by
        rw [Finset.disjoint_left]
        intro x hx hx'
        obtain ⟨b, hb, hlo, hhi⟩ := mem_covered.1 hx'
        have hapart := hhead b hb
        have hin := Finset.mem_Ico.1 hx
        omega
      simp only [covered, List.map_cons, List.sum_cons]
      rw [Finset.card_union_of_disjoint hdisjoint, ih htail, Nat.card_Ico]
      omega

/-- Stretches that lie apart between two addresses are not longer together than the distance. -/
theorem sum_size_le {lo hi : ℕ}
    (h : l.Pairwise fun a b => start a + size a ≤ start b ∨ start b + size b ≤ start a)
    (hbounds : ∀ a ∈ l, lo ≤ start a ∧ start a + size a ≤ hi) :
    (l.map size).sum ≤ hi - lo := by
  have hsub : covered start size l ⊆ Finset.Ico lo hi := by
    intro x hx
    obtain ⟨a, ha, hlo, hhi⟩ := mem_covered.1 hx
    have hin := hbounds a ha
    exact Finset.mem_Ico.2 ⟨by omega, by omega⟩
  have hcard := Finset.card_le_card hsub
  rw [card_covered h, Nat.card_Ico] at hcard
  exact hcard

end Apart

end Extents
