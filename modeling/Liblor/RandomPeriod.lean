import Liblor.LinearCongruence
import Liblor.RandomModel
import Liblor.WordBits

/-!
# The period of the generator and the values in it

The state follows a linear congruence modulo `2 ^ 64` whose multiplier is one more than a multiple
of four, so an odd increment makes it meet every state once. A draw loses of the mixed state its
rotation and its low bits, and nothing else.
-/

namespace Liblor.LorRandom

open LinearCongruence WordBits

/-- The generator after `n` draws. -/
def after (random : LorRandom) (n : ℕ) : LorRandom := (fun random => (u32 random).2)^[n] random

/-- How a draw moves the state. -/
def advance (increment state : UInt64) : UInt64 := state * pcgMultiplier + increment

variable {random : LorRandom}

theorem u32_snd (random : LorRandom) :
    (u32 random).2 = ⟨advance random.increment random.state, random.increment⟩ := rfl

theorem u32_increment (random : LorRandom) : (u32 random).2.increment = random.increment := by
  cases random
  rfl

theorem u64_increment (random : LorRandom) : (u64 random).2.increment = random.increment := by
  change (u32 (u32 random).2).2.increment = random.increment
  exact (u32_increment _).trans (u32_increment random)

theorem after_zero (random : LorRandom) : after random 0 = random := rfl

theorem after_succ (random : LorRandom) (n : ℕ) :
    after random (n + 1) = after (u32 random).2 n := Function.iterate_succ_apply _ _ _

theorem after_eq (random : LorRandom) (n : ℕ) :
    after random n = ⟨(advance random.increment)^[n] random.state, random.increment⟩ := by
  induction n generalizing random with
  | zero => rfl
  | succ n ih =>
      rw [after_succ, u32_snd, ih, Function.iterate_succ_apply]

/-! ## The state -/

theorem toNat_mul_add (state multiplier increment : UInt64) :
    (state * multiplier + increment).toNat =
      (state.toNat * multiplier.toNat + increment.toNat) % 2 ^ 64 := by
  rw [UInt64.toNat_add, UInt64.toNat_mul, Nat.mod_add_mod]

theorem toNat_advance (increment state : UInt64) : (advance increment state).toNat =
    (state.toNat * pcgMultiplier.toNat + increment.toNat) % 2 ^ 64 := toNat_mul_add _ _ _

theorem eq_of_modEq {s t : UInt64} (h : (s.toNat : ℤ) ≡ t.toNat [ZMOD (2 ^ 64 : ℕ)]) : s = t := by
  have hmod : s.toNat ≡ t.toNat [MOD 2 ^ 64] := Int.natCast_modEq_iff.1 h
  rw [Nat.ModEq, Nat.mod_eq_of_lt s.toNat_lt, Nat.mod_eq_of_lt t.toNat_lt] at hmod
  exact UInt64.toNat_inj.1 hmod

theorem advance_follows (increment : UInt64) : Follows (advance increment)
    (fun state => (state.toNat : ℤ)) pcgMultiplier.toNat increment.toNat 64 where
  step state := by
    rw [toNat_advance, affine, mul_comm]
    push_cast
    exact Int.mod_modEq _ _
  inj s t h := by
    apply eq_of_modEq
    push_cast
    exact h

theorem four_dvd_multiplier : (4 : ℤ) ∣ (pcgMultiplier.toNat : ℤ) - 1 := by decide

theorem card_uInt64 : Nat.card UInt64 = 2 ^ 64 := by
  rw [← card_bitVec 64]
  exact Nat.card_congr ⟨UInt64.toBitVec, UInt64.ofBitVec, fun _ => rfl, fun _ => rfl⟩

theorem card_uInt32 : Nat.card UInt32 = 2 ^ 32 := by
  rw [← card_bitVec 32]
  exact Nat.card_congr ⟨UInt32.toBitVec, UInt32.ofBitVec, fun _ => rfl, fun _ => rfl⟩

theorem not_two_dvd_of_odd (hodd : Odd random.increment.toNat) :
    ¬ (2 : ℤ) ∣ random.increment.toNat := by
  obtain ⟨k, hk⟩ := hodd
  omega

theorem advance_bijective (hodd : Odd random.increment.toNat) : Function.Bijective
    fun n : Fin (2 ^ 64) => (advance random.increment)^[n] random.state :=
  (advance_follows random.increment).iterate_bijective four_dvd_multiplier
    (not_two_dvd_of_odd hodd) card_uInt64 random.state

theorem after_eq_self (hodd : Odd random.increment.toNat) (n : ℕ) :
    after random n = random ↔ 2 ^ 64 ∣ n := by
  rw [← (advance_follows random.increment).iterate_eq_self four_dvd_multiplier
    (not_two_dvd_of_odd hodd) random.state n, after_eq]
  constructor
  · intro h
    exact congrArg LorRandom.state h
  · intro h
    rw [h]

theorem existsUnique_after (hodd : Odd random.increment.toNat) (state : UInt64) :
    ∃! n, n < 2 ^ 64 ∧ (after random n).state = state := by
  obtain ⟨n, hn, hunique⟩ := (advance_bijective hodd).existsUnique state
  refine ⟨n, ⟨n.isLt, ?_⟩, ?_⟩
  · rw [after_eq]
    exact hn
  · rintro m ⟨hm, hstate⟩
    rw [after_eq] at hstate
    exact congrArg Fin.val (hunique ⟨m, hm⟩ hstate)

/-! ## The values -/

/-- The state mixed with a shift of itself: the rotation is its high bits, and the bits that are
rotated are in its middle. -/
def mixed (state : UInt64) : BitVec 64 := state.toBitVec ^^^ (state.toBitVec >>> 18)

theorem or_shifts (x r : UInt32) (hr : r.toNat < 32) :
    ((x >>> r) ||| (x <<< ((0 - r) &&& 31))).toBitVec = x.toBitVec.rotateRight r.toNat := by
  have hright : (r.toBitVec % 32).toNat = r.toNat := by
    rw [BitVec.toNat_umod]
    exact Nat.mod_eq_of_lt hr
  have hleft : (((0 - r) &&& 31).toBitVec % 32).toNat = (32 - r.toNat) % 32 := by
    have hmask : (31 : UInt32).toNat = 2 ^ 5 - 1 := rfl
    have hzero : (0 : UInt32).toNat = 0 := rfl
    rw [BitVec.toNat_umod, UInt32.toNat_toBitVec, UInt32.toNat_and, hmask,
      Nat.and_two_pow_sub_one_eq_mod, UInt32.toNat_sub, hzero]
    change _ % 32 = _
    omega
  rw [BitVec.rotateRight_def, Nat.mod_eq_of_lt hr, UInt32.toBitVec_or, UInt32.toBitVec_shiftRight,
    UInt32.toBitVec_shiftLeft, BitVec.ushiftRight_eq', BitVec.shiftLeft_eq', hright, hleft]
  -- where nothing is rotated out, the code shifts by 0 and the rotation by 32
  by_cases hzero : r.toNat = 0
  · rw [hzero]
    simp
  · rw [Nat.mod_eq_of_lt (by omega)]

theorem toNat_high (state : UInt64) : (state.toBitVec >>> 59).toNat < 32 := by
  rw [BitVec.toNat_ushiftRight, Nat.shiftRight_eq_div_pow]
  exact Nat.div_lt_of_lt_mul state.toNat_lt

theorem toNat_rotation (state : UInt64) :
    (state >>> 59).toUInt32.toNat = (state.toBitVec >>> 59).toNat := by
  have hsmall := toNat_high state
  rw [UInt64.toNat_toUInt32]
  exact Nat.mod_eq_of_lt (Nat.lt_trans hsmall (by decide))

theorem permuted_toBitVec (state : UInt64) : (permuted state).toBitVec =
    ((mixed state >>> 27).setWidth 32).rotateRight (state.toBitVec >>> 59).toNat := by
  have hrotation := toNat_rotation state
  have hr : (state >>> 59).toUInt32.toNat < 32 := by
    rw [hrotation]
    exact toNat_high state
  rw [permuted, or_shifts _ _ hr, hrotation, mixed, BitVec.xor_comm]
  rfl

/-- What is drawn, the rotation, and the bits that are shifted out. -/
def parts (state : UInt64) : UInt32 × (BitVec 5 × BitVec 27) :=
  (permuted state, (mixed state >>> 59).setWidth 5, (mixed state).setWidth 27)

theorem mixed_injective : Function.Injective mixed := by
  intro s t heq
  exact UInt64.toBitVec_inj.1 (xorShiftRight_injective (by decide : 0 < 18) heq)

theorem mixed_high (state : UInt64) : mixed state >>> 59 = state.toBitVec >>> 59 := by
  apply BitVec.eq_of_getLsbD_eq
  intro i _
  rw [mixed, BitVec.getLsbD_ushiftRight, BitVec.getLsbD_xor, BitVec.getLsbD_ushiftRight,
    BitVec.getLsbD_of_ge _ (18 + (59 + i)) (by omega), Bool.xor_false, BitVec.getLsbD_ushiftRight]

theorem parts_injective : Function.Injective parts := by
  intro s t heq
  simp only [parts, Prod.mk.injEq] at heq
  obtain ⟨hvalue, hrotation, hlow⟩ := heq
  have hhigh : s.toBitVec >>> 59 = t.toBitVec >>> 59 := by
    rw [mixed_high, mixed_high] at hrotation
    have hbits := congrArg BitVec.toNat hrotation
    rw [BitVec.toNat_setWidth, BitVec.toNat_setWidth, Nat.mod_eq_of_lt (toNat_high s),
      Nat.mod_eq_of_lt (toNat_high t)] at hbits
    exact BitVec.eq_of_toNat_eq hbits
  have hmid : (mixed s >>> 27).setWidth 32 = (mixed t >>> 27).setWidth 32 := by
    have hbits := congrArg UInt32.toBitVec hvalue
    rw [permuted_toBitVec, permuted_toBitVec, hhigh] at hbits
    exact rotateRight_injective (toNat_high t) hbits
  apply mixed_injective
  apply eq_of_parts hlow hmid
  rw [mixed_high, mixed_high, hhigh]

theorem parts_bijective : Function.Bijective parts := by
  have hfinite : Finite (UInt32 × (BitVec 5 × BitVec 27)) := by
    apply Nat.finite_of_card_ne_zero
    rw [Nat.card_prod, Nat.card_prod, card_uInt32, card_bitVec, card_bitVec]
    norm_num
  rw [Nat.bijective_iff_injective_and_card]
  refine ⟨parts_injective, ?_⟩
  rw [Nat.card_prod, Nat.card_prod, card_uInt32, card_uInt64, card_bitVec, card_bitVec]
  norm_num

theorem card_permuted_eq (value : UInt32) :
    Nat.card {state : UInt64 // permuted state = value} = 2 ^ 32 := by
  have hcard := card_fiber parts_bijective value
  rw [Nat.card_prod, card_bitVec, card_bitVec] at hcard
  exact hcard.trans (by norm_num)

theorem card_drawn (hodd : Odd random.increment.toNat) (value : UInt32) :
    Nat.card {n : Fin (2 ^ 64) // (u32 (after random n)).1 = value} = 2 ^ 32 := by
  rw [← card_permuted_eq value]
  apply Nat.card_congr
  apply Equiv.subtypeEquiv (Equiv.ofBijective _ (advance_bijective hodd))
  intro n
  rw [after_eq]
  rfl

/-! ## The operations -/

inductive Op where
  | seed (seed stream : UInt64)
  | u32
  | u64
  | boundedU32 (bound : UInt32)

/-- The generator that a call leaves; a bounded draw may take as many rounds as there are states. -/
def step (random : LorRandom) : Op → Option LorRandom
  | .seed seed stream => some (random.seed seed stream)
  | .u32 => some (u32 random).2
  | .u64 => some (u64 random).2
  | .boundedU32 bound => (boundedU32 random bound (2 ^ 64)).map Prod.snd

theorem seed_increment (random : LorRandom) (seed stream : UInt64) :
    (random.seed seed stream).increment = (stream <<< 1) ||| 1 := rfl

theorem odd_or_one (x : UInt64) : Odd (x ||| 1).toNat := by
  have hone : (1 : UInt64).toNat = 1 := rfl
  have hbit : (x.toNat ||| 1).testBit 0 = true := by
    rw [Nat.testBit_or, Nat.testBit_zero 1]
    exact Bool.or_true _
  rw [Nat.testBit_zero] at hbit
  rw [UInt64.toNat_or, hone, Nat.odd_iff]
  exact of_decide_eq_true hbit

theorem boundedLoop_succ (bound threshold : UInt32) (fuel : ℕ) (random : LorRandom) :
    boundedLoop bound threshold (fuel + 1) random = if (u32 random).1 ≥ threshold then
      some ((u32 random).1 % bound, (u32 random).2)
    else boundedLoop bound threshold fuel (u32 random).2 := rfl

theorem boundedLoop_returns {bound threshold : UInt32} {fuel n : ℕ} (hn : n < fuel)
    (h : threshold ≤ (u32 (after random n)).1) :
    ∃ value random', boundedLoop bound threshold fuel random = some (value, random') ∧
      random'.increment = random.increment := by
  induction fuel generalizing random n with
  | zero => exact absurd hn (Nat.not_lt_zero n)
  | succ fuel ih =>
      rw [boundedLoop_succ]
      by_cases hfirst : (u32 random).1 ≥ threshold
      · rw [if_pos hfirst]
        exact ⟨_, _, rfl, u32_increment random⟩
      · rw [if_neg hfirst]
        cases n with
        | zero =>
            rw [after_zero] at h
            exact absurd h hfirst
        | succ n =>
            rw [after_succ] at h
            obtain ⟨value, random', heq, hsame⟩ := ih (Nat.lt_of_succ_lt_succ hn) h
            exact ⟨value, random', heq, hsame.trans (u32_increment random)⟩

theorem exists_drawn_ge (hodd : Odd random.increment.toNat) (threshold : UInt32) :
    ∃ n, n < 2 ^ 64 ∧ threshold ≤ (u32 (after random n)).1 := by
  have hcard := card_drawn hodd threshold
  have hnonempty : Nonempty {n : Fin (2 ^ 64) // (u32 (after random n)).1 = threshold} := by
    apply (Nat.card_ne_zero.1 _).1
    rw [hcard]
    norm_num
  obtain ⟨n, hn⟩ := hnonempty
  refine ⟨n, n.isLt, ?_⟩
  rw [hn]
  exact UInt32.le_refl threshold

theorem boundedU32_returns (hodd : Odd random.increment.toNat) (bound : UInt32) :
    ∃ value random', boundedU32 random bound (2 ^ 64) = some (value, random') ∧
      random'.increment = random.increment := by
  unfold boundedU32
  by_cases hbound : bound = 0
  · rw [if_pos hbound]
    exact ⟨_, _, rfl, rfl⟩
  · rw [if_neg hbound]
    obtain ⟨n, hn, hdrawn⟩ := exists_drawn_ge hodd ((0 - bound) % bound)
    exact boundedLoop_returns hn hdrawn

theorem step_odd (hodd : Odd random.increment.toNat) (op : Op) :
    ∃ random', step random op = some random' ∧ Odd random'.increment.toNat := by
  cases op with
  | seed seed stream =>
      refine ⟨_, rfl, ?_⟩
      rw [seed_increment]
      exact odd_or_one _
  | u32 =>
      refine ⟨_, rfl, ?_⟩
      rw [u32_increment]
      exact hodd
  | u64 =>
      refine ⟨_, rfl, ?_⟩
      rw [u64_increment]
      exact hodd
  | boundedU32 bound =>
      obtain ⟨value, random', heq, hsame⟩ := boundedU32_returns hodd bound
      refine ⟨random', ?_, hsame ▸ hodd⟩
      rw [step, heq]
      rfl

/-- With an odd increment the generator returns to its state after `2 ^ 64` draws and not before,
meets every state once on the way and draws every value `2 ^ 32` times; every operation returns and
leaves an odd increment, and seeding does so whatever was there. -/
theorem full_period (random : LorRandom) (hodd : Odd random.increment.toNat) :
    (∀ n, after random n = random ↔ 2 ^ 64 ∣ n) ∧
      (∀ state, ∃! n, n < 2 ^ 64 ∧ (after random n).state = state) ∧
      (∀ value, Nat.card {n : Fin (2 ^ 64) // (u32 (after random n)).1 = value} = 2 ^ 32) ∧
      (∀ op, ∃ random', step random op = some random' ∧ Odd random'.increment.toNat) ∧
      ∀ (garbage : LorRandom) (seed stream : UInt64),
        Odd (garbage.seed seed stream).increment.toNat := by
  refine ⟨after_eq_self hodd, existsUnique_after hodd, card_drawn hodd, step_odd hodd, ?_⟩
  intro garbage seed stream
  rw [seed_increment]
  exact odd_or_one _

/-- Of `LOR_RANDOM_INIT`. -/
theorem full_period_init :
    Nat.card {n : Fin (2 ^ 64) // (u32 (after ⟨6364136223846793006, 1⟩ n)).1 = 0} = 2 ^ 32 :=
  (full_period ⟨6364136223846793006, 1⟩ (by decide)).2.2.1 0

example : (u32 ((⟨6364136223846793006, 1⟩ : LorRandom).seed 42 54)).1 = 0xa15c02b7 := by decide

end Liblor.LorRandom
