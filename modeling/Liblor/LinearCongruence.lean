import Mathlib

/-!
# Linear congruential sequences modulo a power of two

The sequence `x ↦ a * x + c` modulo `2 ^ k` where four divides `a - 1` and `c` is odd. What `n`
steps add is an odd number times a geometric sum, and lifting the exponent says that the sum has as
many factors two as `n`; hence the sequence returns after `2 ^ k` steps and not before. The words
that carry the sequence are any type with values that are distinct modulo `2 ^ k`.
-/

namespace LinearCongruence

open Finset

def affine (a c x : ℤ) : ℤ := a * x + c

variable {a c : ℤ} {k : ℕ}

theorem iterate_affine_sub (a c x : ℤ) (n : ℕ) :
    (affine a c)^[n] x - x = ((a - 1) * x + c) * ∑ i ∈ range n, a ^ i := by
  induction n with
  | zero => simp
  | succ n ih =>
      have hgeom : (a - 1) * ∑ i ∈ range n, a ^ i = a ^ n - 1 := mul_geom_sum a n
      rw [Function.iterate_succ_apply', affine, sum_range_succ]
      linear_combination a * ih + ((a - 1) * x + c) * hgeom

/-- A geometric sum with such a ratio has the factors two of its number of terms. -/
theorem two_pow_dvd_geom_sum (ha : 4 ∣ a - 1) (n : ℕ) :
    (2 : ℤ) ^ k ∣ ∑ i ∈ range n, a ^ i ↔ 2 ^ k ∣ n := by
  rcases eq_or_ne a 1 with rfl | hne
  · simp only [one_pow, sum_const, card_range, nsmul_eq_mul, mul_one]
    exact_mod_cast Iff.rfl
  have hodd : ¬ 2 ∣ a := by omega
  have hfinite : FiniteMultiplicity (2 : ℤ) (a - 1) :=
    Int.finiteMultiplicity_iff.2 ⟨by simp, sub_ne_zero.2 hne⟩
  have hlift := Int.two_pow_sub_pow' n ha hodd
  rw [one_pow, ← mul_geom_sum a n, emultiplicity_mul Int.prime_two] at hlift
  have hsame : emultiplicity 2 (∑ i ∈ range n, a ^ i) = emultiplicity (2 : ℤ) n := by
    exact ENat.add_right_injective_of_ne_top (finiteMultiplicity_iff_emultiplicity_ne_top.1 hfinite)
      hlift
  rw [pow_dvd_iff_le_emultiplicity, hsame, ← pow_dvd_iff_le_emultiplicity]
  exact_mod_cast Iff.rfl

theorem two_pow_dvd_iterate_sub (ha : 4 ∣ a - 1) (hc : ¬ 2 ∣ c) (x : ℤ) (n : ℕ) :
    (2 : ℤ) ^ k ∣ (affine a c)^[n] x - x ↔ 2 ^ k ∣ n := by
  have heven : 2 ∣ (a - 1) * x := Dvd.dvd.mul_right (by omega) x
  have hodd : IsCoprime ((2 : ℤ) ^ k) ((a - 1) * x + c) := by
    apply IsCoprime.pow_left
    rw [Int.prime_two.coprime_iff_not_dvd]
    omega
  rw [iterate_affine_sub, ← two_pow_dvd_geom_sum ha]
  constructor
  · exact hodd.dvd_of_dvd_mul_left
  · intro hdvd
    exact hdvd.mul_left _

section Words

variable {σ : Type*} {f : σ → σ} {value : σ → ℤ}

/-- The words follow the sequence modulo `2 ^ k`. -/
structure Follows (f : σ → σ) (value : σ → ℤ) (a c : ℤ) (k : ℕ) : Prop where
  step : ∀ s, value (f s) ≡ affine a c (value s) [ZMOD 2 ^ k]
  inj : ∀ s t, value s ≡ value t [ZMOD 2 ^ k] → s = t

theorem Follows.iterate (h : Follows f value a c k) (s : σ) (n : ℕ) :
    value (f^[n] s) ≡ (affine a c)^[n] (value s) [ZMOD 2 ^ k] := by
  induction n with
  | zero => rfl
  | succ n ih =>
      rw [Function.iterate_succ_apply', Function.iterate_succ_apply']
      exact (h.step _).trans ((ih.mul_left a).add_right c)

theorem Follows.iterate_eq_self (h : Follows f value a c k) (ha : 4 ∣ a - 1) (hc : ¬ 2 ∣ c)
    (s : σ) (n : ℕ) : f^[n] s = s ↔ 2 ^ k ∣ n := by
  rw [← two_pow_dvd_iterate_sub ha hc (value s) n, ← Int.modEq_iff_dvd]
  have hvalue := h.iterate s n
  constructor
  · intro hback
    rw [hback] at hvalue
    exact hvalue
  · intro hback
    exact h.inj _ _ (hvalue.trans hback.symm)

/-- Two counts below the period lead to the same word only if they are the same. -/
theorem Follows.iterate_injOn (h : Follows f value a c k) (ha : 4 ∣ a - 1) (hc : ¬ 2 ∣ c) (s : σ)
    {i j : ℕ} (hj : j < 2 ^ k) (hle : i ≤ j) (heq : f^[i] s = f^[j] s) : i = j := by
  obtain ⟨d, rfl⟩ := Nat.exists_eq_add_of_le hle
  rw [Nat.add_comm, Function.iterate_add_apply] at heq
  have hdvd := (h.iterate_eq_self ha hc _ d).1 heq.symm
  have hzero := Nat.eq_zero_of_dvd_of_lt hdvd (by omega)
  omega

/-- Where there are only `2 ^ k` words, each is met exactly once in a period. -/
theorem Follows.iterate_bijective (h : Follows f value a c k) (ha : 4 ∣ a - 1) (hc : ¬ 2 ∣ c)
    (hcard : Nat.card σ = 2 ^ k) (s : σ) :
    Function.Bijective fun n : Fin (2 ^ k) => f^[n] s := by
  have hfinite : Finite σ := Nat.finite_of_card_ne_zero (by rw [hcard]; positivity)
  rw [Nat.bijective_iff_injective_and_card, hcard, Nat.card_eq_fintype_card, Fintype.card_fin]
  refine ⟨?_, rfl⟩
  intro i j heq
  apply Fin.ext
  rcases Nat.le_total i j with hle | hle
  · exact h.iterate_injOn ha hc s j.isLt hle heq
  · exact (h.iterate_injOn ha hc s i.isLt hle heq.symm).symm

end Words

end LinearCongruence
