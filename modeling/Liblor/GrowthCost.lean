import Liblor.GeometricGrowth
import Liblor.Growth

/-!
# The cost of the doubling loop

Containers that choose their capacities with the loop grow geometrically, as long as no capacity is
more than half of what `size_t` can hold.
-/

namespace Liblor

open GeometricGrowth Transition

universe u v

/-- The capacity is unchanged, or that of the growth to a size for which it was too small. -/
def GrowsTo (first current required next : ℕ) : Prop :=
  next = current ∨
    current < required ∧
      growthLoop required 64 (if current < first then first else current) = some next ∧
      next ≤ sizeMax / 2

theorem GrowsTo.same (first current required : ℕ) : GrowsTo first current required current :=
  Or.inl rfl

variable {σ : Type u} {ε : Type v} {step : σ → ε → Option σ} {size capacity : σ → ℕ}
  {asked : σ → ε → ℕ} {first : ℕ}

theorem GrowsTo.doubles {s s' : σ} {e : ε} (hcapacity : capacity s = 0 ∨ first ≤ capacity s)
    (h : GrowsTo first (capacity s) (asked s e) (capacity s')) :
    capacity s' = capacity s ∨ Doubles capacity asked first s e s' := by
  refine h.imp_right fun ⟨hlt, hgrown, hle⟩ => ?_
  obtain ⟨hfirst, htwice, hasked⟩ := growthLoop_grown hgrown hcapacity hlt hle
  exact ⟨hfirst, htwice, hasked⟩

/-- The moves of a run whose calls grow by the loop. -/
theorem growth_bounds {I : σ → Prop} {L : σ → ε → Prop} (hfirst : 0 < first)
    (hkeeps : ∀ s e s', I s → L s e → step s e = some s' → I s')
    (hsize : ∀ s, I s → size s ≤ capacity s)
    (hgrows : ∀ s e s', L s e → step s e = some s' →
      GrowsTo first (capacity s) (asked s e) (capacity s'))
    {s : σ} {es : List ε} (hs : I s) (hzero : capacity s = 0) (hL : EachStep step L s es) :
    let total := count step size capacity asked ⟨0, 0, 0⟩ s es
    total.moved ≤ 2 * total.peak ∧
      (2 ≤ total.moves → first * 2 ^ (total.moves - 2) < total.peak) := by
  let J : σ → Prop := fun s => I s ∧ (capacity s = 0 ∨ first ≤ capacity s)
  have hkeeps' : ∀ s e s', J s → L s e → step s e = some s' → J s' := by
    intro s e s' hJ he hstep
    refine ⟨hkeeps s e s' hJ.1 he hstep, ?_⟩
    rcases (hgrows s e s' he hstep).doubles hJ.2 with hsame | hdoubles
    · rw [hsame]
      exact hJ.2
    · exact Or.inr hdoubles.first_le
  have hstart : J s := ⟨hs, Or.inl hzero⟩
  exact count_bounds hfirst hkeeps' (fun s hJ => hsize s hJ.1)
    (fun s e s' hJ he hstep => (hgrows s e s' he hstep).doubles hJ.2) hstart hzero hL

end Liblor
