import Liblor.Machine

/-!
# Doubling a capacity

The loop by which arrays and strings choose a capacity: doubling until the required one is reached,
or the required one itself where doubling again would leave `size_t`.
-/

namespace Liblor

/-- `none` means that the loop has not stopped. -/
def growthLoop (required : ℕ) : ℕ → ℕ → Option ℕ
  | 0, _ => none
  | fuel + 1, result =>
    if result < required then
      if result > sizeMax / 2 then some required else growthLoop required fuel (result * 2)
    else some result

theorem growthLoop_spec (required fuel result : ℕ) (hfuel : sizeMax / 2 < result * 2 ^ fuel) :
    ∃ c, growthLoop required (fuel + 1) result = some c ∧ required ≤ c ∧ result ≤ c := by
  induction fuel generalizing result with
  | zero =>
      rw [Nat.pow_zero, Nat.mul_one] at hfuel
      by_cases hlt : result < required
      · exact ⟨required, by rw [growthLoop, if_pos hlt, if_pos hfuel], Nat.le_refl _, hlt.le⟩
      · exact ⟨result, by rw [growthLoop, if_neg hlt], by omega, Nat.le_refl _⟩
  | succ fuel ih =>
      by_cases hlt : result < required
      · by_cases hbig : result > sizeMax / 2
        · exact ⟨required, by rw [growthLoop, if_pos hlt, if_pos hbig], Nat.le_refl _, hlt.le⟩
        · obtain ⟨c, hc, hreq, hres⟩ := ih (result * 2)
            (by rw [Nat.pow_succ] at hfuel; rw [Nat.mul_assoc, Nat.mul_comm 2]; exact hfuel)
          exact ⟨c, by rw [growthLoop, if_pos hlt, if_neg hbig, hc], hreq, by omega⟩
      · exact ⟨result, by rw [growthLoop, if_neg hlt], by omega, Nat.le_refl _⟩

/-- From eight on, the loop stops within 64 rounds. -/
theorem growthLoop_stops {start : ℕ} (hstart : 8 ≤ start) (required : ℕ) :
    ∃ c, growthLoop required 64 start = some c ∧ required ≤ c ∧ start ≤ c := by
  apply growthLoop_spec
  calc
    sizeMax / 2 < 8 * 2 ^ 63 := by norm_num [sizeMax]
    _ ≤ start * 2 ^ 63 := Nat.mul_le_mul_right _ hstart

/-- The loop stops before twice the required capacity. -/
theorem growthLoop_lt {required fuel result c : ℕ} (h : growthLoop required fuel result = some c)
    (hlt : result < required) : c < 2 * required := by
  induction fuel generalizing result with
  | zero => cases h
  | succ fuel ih =>
      rw [growthLoop, if_pos hlt] at h
      by_cases hbig : result > sizeMax / 2
      · rw [if_pos hbig] at h
        cases h
        omega
      · rw [if_neg hbig] at h
        by_cases hnext : result * 2 < required
        · exact ih h hnext
        · cases fuel with
          | zero => cases h
          | succ fuel =>
              rw [growthLoop, if_neg hnext] at h
              cases h
              omega

theorem growthLoop_le {required fuel result c : ℕ} (h : growthLoop required fuel result = some c) :
    result ≤ c := by
  induction fuel generalizing result with
  | zero => cases h
  | succ fuel ih =>
      rw [growthLoop] at h
      split_ifs at h
      · cases h
        omega
      · have hle := ih h
        omega
      · cases h
        exact le_rfl

/-- A grown capacity that a doubling did not leave `size_t` for is at least twice the one before. -/
theorem growthLoop_twice {required fuel result c : ℕ} (h : growthLoop required fuel result = some c)
    (hlt : result < required) (hc : c ≤ sizeMax / 2) : 2 * result ≤ c := by
  cases fuel with
  | zero => cases h
  | succ fuel =>
      rw [growthLoop, if_pos hlt] at h
      split_ifs at h with hbig
      · cases h
        omega
      · have hle := growthLoop_le h
        omega

theorem growthLoop_grown {first current required c : ℕ}
    (h : growthLoop required 64 (if current < first then first else current) = some c)
    (hcurrent : current = 0 ∨ first ≤ current) (hlt : current < required) (hc : c ≤ sizeMax / 2) :
    first ≤ c ∧ 2 * current ≤ c ∧ (c = first ∨ c < 2 * required) := by
  by_cases hsmall : current < first
  · rw [if_pos hsmall] at h
    have hle := growthLoop_le h
    have hzero : current = 0 := by omega
    refine ⟨hle, by omega, ?_⟩
    by_cases hrequired : first < required
    · exact Or.inr (growthLoop_lt h hrequired)
    · rw [growthLoop, if_neg hrequired] at h
      cases h
      exact Or.inl rfl
  · rw [if_neg hsmall] at h
    have hle := growthLoop_le h
    exact ⟨by omega, growthLoop_twice h hlt hc, Or.inr (growthLoop_lt h hlt)⟩

end Liblor
