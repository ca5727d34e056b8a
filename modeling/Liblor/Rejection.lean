import Mathlib

/-!
# Drawing a residue by rejection

A uniform draw below `n` is taken modulo `b` when it is not below the threshold `n % b`. What is
left then is a multiple of `b`, so that every residue has as many draws as any other.
-/

namespace Rejection

variable {n b : ℕ}

/-- The threshold in the form that needs no number above `n`. -/
theorem sub_mod_self (h : b ≤ n) : (n - b) % b = n % b := (Nat.mod_eq_sub_mod h).symm

theorem threshold_lt (n : ℕ) (hb : 0 < b) : n % b < b := Nat.mod_lt n hb

theorem card_range_mod (n : ℕ) (hb : 0 < b) {v : ℕ} (hv : v < b) :
    ((Finset.range n).filter fun x => x % b = v).card =
      n / b + if v < n % b then 1 else 0 := by
  have hcount := Nat.count_modEq_card n hb v
  rw [Nat.count_eq_card_filter_range, Nat.mod_eq_of_lt hv] at hcount
  rw [← hcount]
  congr 1
  apply Finset.filter_congr
  intro x _
  rw [Nat.ModEq, Nat.mod_eq_of_lt hv]

/-- Every residue has the same number of accepted draws. -/
theorem card_accepted (n : ℕ) (hb : 0 < b) {v : ℕ} (hv : v < b) :
    ((Finset.range n).filter fun x => n % b ≤ x ∧ x % b = v).card = n / b := by
  have hall := card_range_mod n hb hv
  have hrejected := card_range_mod (n % b) hb hv
  rw [Nat.div_eq_of_lt (threshold_lt n hb), Nat.zero_add, Nat.mod_mod] at hrejected
  have hle : n % b ≤ n := Nat.mod_le n b
  have hsplit : (Finset.range n).filter (fun x => x % b = v) =
      (Finset.range n).filter (fun x => n % b ≤ x ∧ x % b = v) ∪
        (Finset.range (n % b)).filter (fun x => x % b = v) := by
    ext x
    simp only [Finset.mem_union, Finset.mem_filter, Finset.mem_range]
    constructor
    · rintro ⟨hx, hmod⟩
      rcases Nat.lt_or_ge x (n % b) with hlow | hhigh
      · exact Or.inr ⟨hlow, hmod⟩
      · exact Or.inl ⟨hx, hhigh, hmod⟩
    · rintro (⟨hx, -, hmod⟩ | ⟨hx, hmod⟩)
      · exact ⟨hx, hmod⟩
      · exact ⟨hx.trans_le hle, hmod⟩
  have hdisjoint : Disjoint ((Finset.range n).filter fun x => n % b ≤ x ∧ x % b = v)
      ((Finset.range (n % b)).filter fun x => x % b = v) := by
    rw [Finset.disjoint_left]
    intro x hx hx'
    have hhigh := (Finset.mem_filter.1 hx).2.1
    have hlow := Finset.mem_range.1 (Finset.mem_filter.1 hx').1
    omega
  rw [hsplit, Finset.card_union_of_disjoint hdisjoint, hrejected] at hall
  omega

theorem card_rejected (n : ℕ) (hb : 0 < b) :
    ((Finset.range n).filter fun x => x < n % b).card < b := by
  have hsubset : (Finset.range n).filter (fun x => x < n % b) ⊆ Finset.range (n % b) := by
    intro x hx
    exact Finset.mem_range.2 (Finset.mem_filter.1 hx).2
  have hcard := Finset.card_le_card hsubset
  rw [Finset.card_range] at hcard
  exact hcard.trans_lt (threshold_lt n hb)

/-- Counting a property of the numbers below `n` through a type that stands for them. -/
theorem card_subtype_eq {α : Type*} {toNat : α → ℕ} (hinj : Function.Injective toNat)
    (hrange : ∀ x, x < n ↔ ∃ a, toNat a = x) (p : ℕ → Prop) [DecidablePred p] :
    Nat.card {a // p (toNat a)} = ((Finset.range n).filter p).card := by
  have hmem : ∀ a : {a // p (toNat a)}, toNat a.1 ∈ (Finset.range n).filter p := by
    intro a
    exact Finset.mem_filter.2 ⟨Finset.mem_range.2 ((hrange _).2 ⟨a.1, rfl⟩), a.2⟩
  have hbijective : Function.Bijective
      fun a : {a // p (toNat a)} =>
        (⟨toNat a.1, hmem a⟩ : {x // x ∈ (Finset.range n).filter p}) := by
    constructor
    · intro a a' heq
      exact Subtype.ext (hinj (congrArg Subtype.val heq))
    · rintro ⟨x, hx⟩
      obtain ⟨hlt, hp⟩ := Finset.mem_filter.1 hx
      obtain ⟨a, rfl⟩ := (hrange x).1 (Finset.mem_range.1 hlt)
      exact ⟨⟨a, hp⟩, rfl⟩
  rw [Nat.card_congr (Equiv.ofBijective _ hbijective), Nat.card_eq_fintype_card, Fintype.card_coe]

end Rejection
