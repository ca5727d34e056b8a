import Liblor.Transition

/-!
# Capacities that double

A container moves its elements when its capacity changes. If a changed capacity is at least twice
the one before, and less than twice what was asked for, then all moves of a run together move fewer
than twice as many elements as were ever asked for at once, and there are logarithmically many
moves.
-/

namespace GeometricGrowth

open Transition

universe u v

variable {σ : Type u} {ε : Type v}

/-- The elements moved so far, in how many moves, and the largest size that was asked for. -/
structure Tally where
  moved : ℕ
  moves : ℕ
  peak : ℕ
  deriving DecidableEq, Repr

section Count

variable (step : σ → ε → Option σ) (size capacity : σ → ℕ) (asked : σ → ε → ℕ)

def Tally.next (tally : Tally) (s : σ) (e : ε) (s' : σ) : Tally :=
  if capacity s' = capacity s then { tally with peak := max tally.peak (asked s e) }
  else ⟨tally.moved + size s, tally.moves + 1, max tally.peak (asked s e)⟩

def count : Tally → σ → List ε → Tally
  | tally, _, [] => tally
  | tally, s, e :: es =>
    match step s e with
    | none => tally
    | some s' => count (tally.next size capacity asked s e s') s' es

/-- A step that changes the capacity, which is `first` if nothing larger was asked for. -/
structure Doubles (first : ℕ) (s : σ) (e : ε) (s' : σ) : Prop where
  first_le : first ≤ capacity s'
  twice_le : 2 * capacity s ≤ capacity s'
  lt_asked : capacity s' = first ∨ capacity s' < 2 * asked s e

end Count

/-- Each move took place when half of today's capacity, a quarter of it, and so on was full. -/
inductive Accounted (first : ℕ) (tally : Tally) : ℕ → Prop where
  | empty (hmoved : tally.moved = 0) (hmoves : tally.moves = 0) : Accounted first tally 0
  | grown {capacity : ℕ} (hmoved : tally.moved + first ≤ capacity) (hmoves : 0 < tally.moves)
      (hpower : first * 2 ^ (tally.moves - 1) ≤ capacity)
      (hpeak : capacity = first ∨ capacity < 2 * tally.peak) : Accounted first tally capacity

section Bound

variable {step : σ → ε → Option σ} {size capacity : σ → ℕ} {asked : σ → ε → ℕ} {first : ℕ}
  {tally : Tally} {s s' : σ} {e : ε}

theorem Accounted.same (h : Accounted first tally (capacity s)) (hsame : capacity s' = capacity s) :
    Accounted first (tally.next size capacity asked s e s') (capacity s') := by
  rw [Tally.next, if_pos hsame, hsame]
  generalize capacity s = c at h
  cases h with
  | empty hmoved hmoves => exact .empty hmoved hmoves
  | grown hmoved hmoves hpower hpeak =>
    refine .grown hmoved hmoves hpower (hpeak.imp_right fun hlt => ?_)
    have hle := le_max_left tally.peak (asked s e)
    change c < 2 * max tally.peak (asked s e)
    omega

theorem Accounted.doubled (h : Accounted first tally (capacity s)) (hsize : size s ≤ capacity s)
    (hne : capacity s' ≠ capacity s) (hdoubles : Doubles capacity asked first s e s') :
    Accounted first (tally.next size capacity asked s e s') (capacity s') := by
  obtain ⟨hfirst, htwice, hasked⟩ := hdoubles
  have hpeak : capacity s' = first ∨ capacity s' < 2 * max tally.peak (asked s e) := by
    have hle := le_max_right tally.peak (asked s e)
    omega
  rw [Tally.next, if_neg hne]
  generalize capacity s = c at h hsize htwice
  cases h with
  | empty hmoved hmoves =>
    have hzero : tally.moved + size s + first = first := by omega
    have hone : first * 2 ^ (tally.moves + 1 - 1) = first := by
      rw [hmoves, Nat.zero_add, Nat.sub_self, Nat.pow_zero, Nat.mul_one]
    exact .grown (hzero.trans_le hfirst) (Nat.succ_pos _) (hone.trans_le hfirst) hpeak
  | grown hmoved hmoves hpower =>
    have hpower' : first * 2 ^ (tally.moves + 1 - 1) = 2 * (first * 2 ^ (tally.moves - 1)) := by
      have hmoves' : tally.moves + 1 - 1 = tally.moves - 1 + 1 := by omega
      rw [hmoves', Nat.pow_succ]
      ring
    have hmoved' : tally.moved + size s + first ≤ 2 * c := by omega
    refine .grown (hmoved'.trans htwice) (Nat.succ_pos _) ?_ hpeak
    rw [hpower']
    exact (Nat.mul_le_mul_left 2 hpower).trans htwice

/-- Fewer elements were moved than twice the largest size, and a second move or a later one was made
for a size that had doubled with each move. -/
theorem Accounted.bounds {c : ℕ} (h : Accounted first tally c) (hfirst : 0 < first) :
    tally.moved ≤ 2 * tally.peak ∧
      (2 ≤ tally.moves → first * 2 ^ (tally.moves - 2) < tally.peak) := by
  cases h with
  | empty hmoved hmoves =>
    refine ⟨hmoved.trans_le (Nat.zero_le _), fun hle => ?_⟩
    omega
  | grown hmoved hmoves hpower hpeak =>
    refine ⟨by omega, fun hle => ?_⟩
    have hsplit : first * 2 ^ (tally.moves - 1) = 2 * (first * 2 ^ (tally.moves - 2)) := by
      have hmoves' : tally.moves - 1 = tally.moves - 2 + 1 := by omega
      rw [hmoves', Nat.pow_succ]
      ring
    have hpos : first ≤ first * 2 ^ (tally.moves - 2) :=
      Nat.le_mul_of_pos_right _ (Nat.two_pow_pos _)
    omega

variable {I : σ → Prop} {L : σ → ε → Prop}

theorem count_accounted (hkeeps : ∀ s e s', I s → L s e → step s e = some s' → I s')
    (hsize : ∀ s, I s → size s ≤ capacity s)
    (hgrows : ∀ s e s', I s → L s e → step s e = some s' →
      capacity s' = capacity s ∨ Doubles capacity asked first s e s')
    {es : List ε} (hs : I s) (hL : EachStep step L s es) (h : Accounted first tally (capacity s)) :
    ∃ c, Accounted first (count step size capacity asked tally s es) c := by
  induction es generalizing s tally with
  | nil => exact ⟨_, h⟩
  | cons e es ih =>
    unfold count
    cases hstep : step s e with
    | none => exact ⟨_, h⟩
    | some s' =>
      refine ih (hkeeps s e s' hs hL.1 hstep) (hL.2 s' hstep) ?_
      by_cases hsame : capacity s' = capacity s
      · exact h.same hsame
      · exact h.doubled (hsize s hs) hsame ((hgrows s e s' hs hL.1 hstep).resolve_left hsame)

theorem count_bounds (hfirst : 0 < first)
    (hkeeps : ∀ s e s', I s → L s e → step s e = some s' → I s')
    (hsize : ∀ s, I s → size s ≤ capacity s)
    (hgrows : ∀ s e s', I s → L s e → step s e = some s' →
      capacity s' = capacity s ∨ Doubles capacity asked first s e s')
    {es : List ε} (hs : I s) (hzero : capacity s = 0) (hL : EachStep step L s es) :
    let total := count step size capacity asked ⟨0, 0, 0⟩ s es
    total.moved ≤ 2 * total.peak ∧
      (2 ≤ total.moves → first * 2 ^ (total.moves - 2) < total.peak) := by
  have hstart : Accounted first ⟨0, 0, 0⟩ (capacity s) := by
    rw [hzero]
    exact .empty rfl rfl
  obtain ⟨c, hc⟩ := count_accounted hkeeps hsize hgrows hs hL hstart
  exact hc.bounds hfirst

end Bound

end GeometricGrowth
