import Liblor.RandomPeriod
import Liblor.Rejection

/-!
# Bounded values

What the loop of `lor_random_bounded_u32` does with a draw, how many draws give each value, and that
it stops. It stops for odd increments only: a generator that stands still may never be accepted.
-/

namespace Liblor.LorRandom

open Rejection

/-- The loop ends with a draw and returns the value. -/
def Accepted (bound draw value : UInt32) : Prop :=
  ∀ (random : LorRandom) (fuel : ℕ), (u32 random).1 = draw →
    boundedU32 random bound (fuel + 1) = some (value, (u32 random).2)

/-- The loop goes on with the next draw. -/
def Rejected (bound draw : UInt32) : Prop :=
  ∀ (random : LorRandom) (fuel : ℕ), (u32 random).1 = draw →
    boundedU32 random bound (fuel + 1) = boundedU32 (u32 random).2 bound fuel

variable {bound draw value : UInt32} {random : LorRandom}

theorem toNat_pos (hbound : bound ≠ 0) : 0 < bound.toNat :=
  UInt32.lt_iff_toNat_lt.1 (UInt32.pos_iff_ne_zero.2 hbound)

theorem toNat_threshold (hbound : bound ≠ 0) :
    ((0 - bound) % bound).toNat = 2 ^ 32 % bound.toNat := by
  have hlt := bound.toNat_lt
  have hpos := toNat_pos hbound
  have hzero : (0 : UInt32).toNat = 0 := rfl
  have hsub : (2 ^ 32 - bound.toNat) % 2 ^ 32 = 2 ^ 32 - bound.toNat := Nat.mod_eq_of_lt (by omega)
  rw [UInt32.toNat_mod, UInt32.toNat_sub, hzero, Nat.add_zero, hsub, sub_mod_self hlt.le]

theorem threshold_le_iff (hbound : bound ≠ 0) :
    (0 - bound) % bound ≤ draw ↔ 2 ^ 32 % bound.toNat ≤ draw.toNat := by
  rw [UInt32.le_iff_toNat_le, toNat_threshold hbound]

theorem exists_draw (draw : UInt32) : ∃ random : LorRandom, (u32 random).1 = draw := by
  have hcard := card_permuted_eq draw
  have hnonempty : Nonempty {state : UInt64 // permuted state = draw} := by
    apply (Nat.card_ne_zero.1 _).1
    rw [hcard]
    norm_num
  obtain ⟨state, hstate⟩ := hnonempty
  exact ⟨⟨state, 1⟩, hstate⟩

theorem boundedU32_succ (hbound : bound ≠ 0) (random : LorRandom) (fuel : ℕ) :
    boundedU32 random bound (fuel + 1) = if (0 - bound) % bound ≤ (u32 random).1 then
      some ((u32 random).1 % bound, (u32 random).2)
    else boundedU32 (u32 random).2 bound fuel := by
  rw [boundedU32, if_neg hbound, boundedLoop_succ, boundedU32, if_neg hbound]

theorem accepted_iff (hbound : bound ≠ 0) :
    Accepted bound draw value ↔ (0 - bound) % bound ≤ draw ∧ draw % bound = value := by
  constructor
  · intro h
    obtain ⟨random, rfl⟩ := exists_draw draw
    have hzero := h random 0 rfl
    rw [boundedU32_succ hbound] at hzero
    split_ifs at hzero with hle
    · exact ⟨hle, congrArg Prod.fst (Option.some.inj hzero)⟩
    · rw [boundedU32, if_neg hbound] at hzero
      cases hzero
  · rintro ⟨hle, rfl⟩ random fuel rfl
    rw [boundedU32_succ hbound, if_pos hle]

theorem rejected_iff (hbound : bound ≠ 0) :
    Rejected bound draw ↔ draw < (0 - bound) % bound := by
  rw [← UInt32.not_le]
  constructor
  · intro h hle
    obtain ⟨random, rfl⟩ := exists_draw draw
    have hzero := h random 0 rfl
    rw [boundedU32_succ hbound, if_pos hle, boundedU32, if_neg hbound] at hzero
    cases hzero
  · rintro hle random fuel rfl
    rw [boundedU32_succ hbound, if_neg hle]

section Count

theorem lt_iff_exists_toNat (x : ℕ) : x < 2 ^ 32 ↔ ∃ draw : UInt32, draw.toNat = x := by
  constructor
  · intro hlt
    exact ⟨UInt32.ofNat x, UInt32.toNat_ofNat_of_lt hlt⟩
  · rintro ⟨draw, rfl⟩
    exact draw.toNat_lt

theorem toNat_injective : Function.Injective UInt32.toNat := fun _ _ h => UInt32.toNat_inj.1 h

theorem card_accepted_draws (hbound : bound ≠ 0) (hvalue : value < bound) :
    Nat.card {draw // Accepted bound draw value} = 2 ^ 32 / bound.toNat := by
  have hpos := toNat_pos hbound
  have hlt : value.toNat < bound.toNat := UInt32.lt_iff_toNat_lt.1 hvalue
  rw [← card_accepted (2 ^ 32) hpos hlt, ← card_subtype_eq toNat_injective lt_iff_exists_toNat]
  apply Nat.card_congr
  apply Equiv.subtypeEquivRight
  intro draw
  rw [accepted_iff hbound, threshold_le_iff hbound, ← UInt32.toNat_inj, UInt32.toNat_mod]

theorem card_rejected_draws (hbound : bound ≠ 0) :
    Nat.card {draw // Rejected bound draw} < bound.toNat := by
  have hpos := toNat_pos hbound
  have hcard := card_rejected (2 ^ 32) hpos
  rw [← card_subtype_eq toNat_injective lt_iff_exists_toNat] at hcard
  rw [Nat.card_congr (Equiv.subtypeEquivRight _)]
  · exact hcard
  · intro draw
    rw [rejected_iff hbound, ← UInt32.not_le, threshold_le_iff hbound, Nat.not_le]

end Count

theorem boundedU32_lt (hbound : bound ≠ 0) {fuel : ℕ} {random' : LorRandom}
    (h : boundedU32 random bound fuel = some (value, random')) : value < bound := by
  induction fuel generalizing random with
  | zero =>
      rw [boundedU32, if_neg hbound] at h
      cases h
  | succ fuel ih =>
      rw [boundedU32_succ hbound] at h
      split_ifs at h
      · cases h
        exact UInt32.mod_lt _ (UInt32.pos_iff_ne_zero.2 hbound)
      · exact ih h

/-- Bounded values are below the bound, each is given by as many draws as any other, and fewer draws
than the bound are rejected. -/
theorem bounded_uniform (bound : UInt32) (hbound : bound ≠ 0) :
    (∀ (random : LorRandom) (fuel : ℕ) (value : UInt32) (random' : LorRandom),
        boundedU32 random bound fuel = some (value, random') → value < bound) ∧
      (∀ value, value < bound →
        Nat.card {draw // Accepted bound draw value} = 2 ^ 32 / bound.toNat) ∧
      Nat.card {draw // Rejected bound draw} < bound.toNat :=
  ⟨fun _ _ _ _ h => boundedU32_lt hbound h, fun _ h => card_accepted_draws hbound h,
    card_rejected_draws hbound⟩

theorem bounded_uniform_seven :
    Nat.card {draw // Accepted 7 draw 3} = 2 ^ 32 / 7 ∧ Nat.card {draw // Rejected 7 draw} < 7 := by
  obtain ⟨-, hcard, hrejected⟩ := bounded_uniform 7 (by decide)
  exact ⟨hcard 3 (by decide), hrejected⟩

/-! ## The end of the loop -/

/-- The loop returns the first draw that reaches the threshold. -/
theorem boundedU32_first (hbound : bound ≠ 0) {n : ℕ}
    (hreach : (0 - bound) % bound ≤ (u32 (after random n)).1)
    (hbefore : ∀ m, m < n → ¬ (0 - bound) % bound ≤ (u32 (after random m)).1) {fuel : ℕ}
    (hfuel : n < fuel) :
    boundedU32 random bound fuel =
      some ((u32 (after random n)).1 % bound, after random (n + 1)) := by
  induction n generalizing random fuel with
  | zero =>
      obtain ⟨fuel, rfl⟩ := Nat.exists_eq_succ_of_ne_zero (Nat.ne_of_gt hfuel)
      rw [after_zero] at hreach
      rw [boundedU32_succ hbound, if_pos hreach, after_succ, after_zero, after_zero]
  | succ n ih =>
      obtain ⟨fuel, rfl⟩ := Nat.exists_eq_succ_of_ne_zero (Nat.ne_zero_of_lt hfuel)
      have hfirst := hbefore 0 (Nat.succ_pos n)
      rw [after_zero] at hfirst
      rw [after_succ] at hreach
      rw [boundedU32_succ hbound, if_neg hfirst, after_succ, after_succ random (n + 1)]
      apply ih hreach
      · intro m hm
        have hlater := hbefore (m + 1) (Nat.succ_lt_succ hm)
        rw [after_succ] at hlater
        exact hlater
      · exact Nat.lt_of_succ_lt_succ hfuel

/-- With an odd increment some draw of the cycle reaches the threshold, and the loop returns the
first that does. -/
theorem bounded_stops (random : LorRandom) (hodd : Odd random.increment.toNat) (bound : UInt32)
    (hbound : bound ≠ 0) :
    ∃ n, n < 2 ^ 64 ∧ (0 - bound) % bound ≤ (u32 (after random n)).1 ∧
      (∀ m, m < n → ¬ (0 - bound) % bound ≤ (u32 (after random m)).1) ∧
      ∀ fuel, n < fuel → boundedU32 random bound fuel =
        some ((u32 (after random n)).1 % bound, after random (n + 1)) := by
  have hexists : ∃ n, (0 - bound) % bound ≤ (u32 (after random n)).1 := by
    obtain ⟨n, -, hreach⟩ := exists_drawn_ge hodd ((0 - bound) % bound)
    exact ⟨n, hreach⟩
  obtain ⟨n, hn, hreach⟩ := exists_drawn_ge hodd ((0 - bound) % bound)
  have hbefore : ∀ m, m < Nat.find hexists →
      ¬ (0 - bound) % bound ≤ (u32 (after random m)).1 := fun m hm => Nat.find_min hexists hm
  refine ⟨Nat.find hexists, (Nat.find_min' hexists hreach).trans_lt hn, Nat.find_spec hexists,
    hbefore, ?_⟩
  intro fuel hfuel
  exact boundedU32_first hbound (Nat.find_spec hexists) hbefore hfuel

theorem bounded_stops_zero :
    ∃ n, n < 2 ^ 64 ∧ (0 - 3) % 3 ≤ (u32 (after ⟨0, 1⟩ n)).1 ∧
      (∀ m, m < n → ¬ (0 - 3) % 3 ≤ (u32 (after ⟨0, 1⟩ m)).1) ∧
      ∀ fuel, n < fuel → boundedU32 ⟨0, 1⟩ 3 fuel =
        some ((u32 (after ⟨0, 1⟩ n)).1 % 3, after ⟨0, 1⟩ (n + 1)) :=
  bounded_stops ⟨0, 1⟩ (by decide) 3 (by decide)

/-- The generator without an increment draws zeros, which a bound of three never accepts. -/
example : boundedU32 ⟨0, 0⟩ 3 16 = none := by decide

end Liblor.LorRandom
