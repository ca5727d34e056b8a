import Mathlib

/-!
# Bijections on words

Mixing a word with a right shift of itself loses nothing, and neither does a rotation. Where the
first part of a bijection onto pairs takes each value equally often, `card_fiber` counts how often.
-/

namespace WordBits

variable {w : ℕ}

/-- The bits are recovered from the top: bit `i` of the result is bit `i` mixed with bit `i + k`. -/
theorem xorShiftRight_injective {k : ℕ} (hk : 0 < k) :
    Function.Injective fun x : BitVec w => x ^^^ (x >>> k) := by
  intro x y heq
  have hbits : ∀ i, (x.getLsbD i ^^ x.getLsbD (k + i)) = (y.getLsbD i ^^ y.getLsbD (k + i)) := by
    intro i
    have hbit := congrArg (fun z => BitVec.getLsbD z i) heq
    simpa only [BitVec.getLsbD_xor, BitVec.getLsbD_ushiftRight] using hbit
  have htop : ∀ m i, w ≤ i + m → x.getLsbD i = y.getLsbD i := by
    intro m
    induction m with
    | zero =>
        intro i hi
        rw [BitVec.getLsbD_of_ge x i hi, BitVec.getLsbD_of_ge y i hi]
    | succ m ih =>
        intro i hi
        have hhigh := ih (k + i) (by omega)
        have hmix := hbits i
        rw [hhigh] at hmix
        exact Bool.xor_left_inj.1 hmix
  apply BitVec.eq_of_getLsbD_eq
  intro i _
  exact htop w i (Nat.le_add_left w i)

theorem rotateRight_injective {r : ℕ} (hr : r < w) :
    Function.Injective fun x : BitVec w => x.rotateRight r := by
  intro x y heq
  have hbits : ∀ i, (x.rotateRight r).getLsbD i = (y.rotateRight r).getLsbD i := by
    intro i
    exact congrArg (fun z => BitVec.getLsbD z i) heq
  apply BitVec.eq_of_getLsbD_eq
  intro i hi
  by_cases hlow : i < r
  · have hbit := hbits (w - r + i)
    rw [BitVec.getLsbD_rotateRight_of_lt hr, BitVec.getLsbD_rotateRight_of_lt hr,
      decide_eq_false (by omega : ¬ w - r + i < w - r), decide_eq_true (by omega : w - r + i < w),
      Nat.add_sub_cancel_left] at hbit
    exact hbit
  · have hbit := hbits (i - r)
    rw [BitVec.getLsbD_rotateRight_of_lt hr, BitVec.getLsbD_rotateRight_of_lt hr,
      decide_eq_true (by omega : i - r < w - r), (by omega : r + (i - r) = i)] at hbit
    exact hbit

theorem eq_of_parts {x y : BitVec w} {i j : ℕ} (hlow : x.setWidth i = y.setWidth i)
    (hmid : (x >>> i).setWidth j = (y >>> i).setWidth j) (hhigh : x >>> (i + j) = y >>> (i + j)) :
    x = y := by
  apply BitVec.eq_of_getLsbD_eq
  intro n _
  rcases Nat.lt_or_ge n i with hn | hn
  · have hbit := congrArg (fun z => BitVec.getLsbD z n) hlow
    simpa [BitVec.getLsbD_setWidth, hn] using hbit
  obtain ⟨n, rfl⟩ := Nat.exists_eq_add_of_le hn
  rcases Nat.lt_or_ge n j with hn | hn
  · have hbit := congrArg (fun z => BitVec.getLsbD z n) hmid
    simpa [BitVec.getLsbD_setWidth, BitVec.getLsbD_ushiftRight, hn] using hbit
  obtain ⟨n, rfl⟩ := Nat.exists_eq_add_of_le hn
  have hbit := congrArg (fun z => BitVec.getLsbD z n) hhigh
  simpa [BitVec.getLsbD_ushiftRight, Nat.add_assoc] using hbit

@[simp] theorem card_bitVec (w : ℕ) : Nat.card (BitVec w) = 2 ^ w := by
  rw [Nat.card_congr BitVec.equivFin.toEquiv, Nat.card_fin]

/-- The first part of a bijection onto pairs takes each value as often as there are second parts. -/
theorem card_fiber {α β γ : Type*} {f : α → β × γ} (h : Function.Bijective f) (b : β) :
    Nat.card {a // (f a).1 = b} = Nat.card γ := by
  apply Nat.card_congr
  refine ⟨fun a => (f a.1).2, fun c => ⟨(Equiv.ofBijective f h).symm (b, c), ?_⟩, ?_, ?_⟩
  · exact congrArg Prod.fst ((Equiv.ofBijective f h).apply_symm_apply (b, c))
  · rintro ⟨a, rfl⟩
    apply Subtype.ext
    exact (Equiv.ofBijective f h).symm_apply_apply a
  · intro c
    exact congrArg Prod.snd ((Equiv.ofBijective f h).apply_symm_apply (b, c))

end WordBits
