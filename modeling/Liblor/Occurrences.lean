import Mathlib

/-!
# Leftmost occurrences and exact splitting

A list is split at the leftmost occurrences of a separator that do not overlap: the first occurrence
ends the first piece, and the search starts again behind it. `Cuts` names the positions of those
occurrences and `Pieces` what they leave.
-/

namespace Occurrences

variable {α : Type*} {d s p rest : List α} {ps : List (List α)} {i j k : ℕ}

def OccursAt (d s : List α) (i : ℕ) : Prop := d <+: s.drop i

theorem occursAt_drop : OccursAt d (s.drop k) i ↔ OccursAt d s (k + i) := by
  unfold OccursAt
  rw [List.drop_drop]

theorem OccursAt.add_length_le (h : OccursAt d s i) (hd : d ≠ []) : i + d.length ≤ s.length := by
  have hlen := h.length_le
  rw [List.length_drop] at hlen
  have hpos := List.length_pos_iff.2 hd
  omega

theorem OccursAt.split (h : OccursAt d s i) :
    s = s.take i ++ d ++ s.drop (i + d.length) := by
  obtain ⟨t, ht⟩ := h
  have hrest : s.drop (i + d.length) = t := by
    rw [← List.drop_drop, ← ht, List.drop_left]
  rw [hrest, List.append_assoc, ht, List.take_append_drop]

theorem infix_iff_occursAt : d <:+: s ↔ ∃ i, OccursAt d s i := by
  constructor
  · rintro ⟨a, b, h⟩
    refine ⟨a.length, b, ?_⟩
    rw [← h, List.append_assoc, List.drop_left]
  · rintro ⟨i, h⟩
    exact h.isInfix.trans (s.drop_suffix i).isInfix

theorem OccursAt.append_right (h : OccursAt d p i) (hi : i ≤ p.length) :
    OccursAt d (p ++ rest) i := by
  unfold OccursAt
  rw [List.drop_append_of_le_length hi]
  exact h.trans (List.prefix_append _ _)

/-- What a search for the leftmost occurrence answers. -/
def FirstAt (d s : List α) : Option ℕ → Prop
  | some i => OccursAt d s i ∧ ∀ j < i, ¬OccursAt d s j
  | none => ∀ i, ¬OccursAt d s i

theorem FirstAt.unique {r r' : Option ℕ} (h : FirstAt d s r) (h' : FirstAt d s r') : r = r' := by
  cases r with
  | none =>
    cases r' with
    | none => rfl
    | some i' => exact absurd h'.1 (h i')
  | some i =>
    cases r' with
    | none => exact absurd h.1 (h' i)
    | some i' =>
      have hle : i ≤ i' := not_lt.1 fun hlt => h.2 i' hlt h'.1
      have hge : i' ≤ i := not_lt.1 fun hlt => h'.2 i hlt h.1
      rw [le_antisymm hle hge]

/-- The leftmost occurrences of `d` from `k` on that do not overlap, in order. -/
inductive Cuts (d s : List α) : ℕ → List ℕ → Prop where
  | done {k : ℕ} (h : ∀ j, k ≤ j → ¬OccursAt d s j) : Cuts d s k []
  | next {k i : ℕ} {cuts : List ℕ} (hle : k ≤ i) (hat : OccursAt d s i)
      (hfirst : ∀ j, k ≤ j → j < i → ¬OccursAt d s j) (htail : Cuts d s (i + d.length) cuts) :
      Cuts d s k (i :: cuts)

/-- What those occurrences leave of `s`. -/
inductive Pieces (d : List α) : List α → List (List α) → Prop where
  | last {s : List α} (h : ∀ i, ¬OccursAt d s i) : Pieces d s [s]
  | piece {s : List α} {i : ℕ} {ps : List (List α)} (hat : OccursAt d s i)
      (hfirst : ∀ j < i, ¬OccursAt d s j) (htail : Pieces d (s.drop (i + d.length)) ps) :
      Pieces d s (s.take i :: ps)

theorem Pieces.ne_nil (h : Pieces d s ps) : ps ≠ [] := by
  cases h with
  | last _ => exact List.cons_ne_nil _ _
  | piece _ _ _ => exact List.cons_ne_nil _ _

theorem intercalate_cons (hne : ps ≠ []) :
    d.intercalate (p :: ps) = p ++ d ++ d.intercalate ps := by
  cases ps with
  | nil => exact absurd rfl hne
  | cons q qs => simp only [List.intercalate, List.intersperse_cons_cons, List.flatten_cons,
      List.append_assoc]

theorem Pieces.join (h : Pieces d s ps) : d.intercalate ps = s := by
  induction h with
  | last _ => simp only [List.intercalate, List.intersperse_singleton, List.flatten_singleton]
  | piece hat _ htail ih =>
    rw [intercalate_cons htail.ne_nil, ih]
    exact hat.split.symm

theorem Pieces.not_infix (hd : d ≠ []) (h : Pieces d s ps) : ∀ p ∈ ps, ¬d <:+: p := by
  induction h with
  | last hnone =>
    intro p hp hin
    rw [List.mem_singleton.1 hp] at hin
    obtain ⟨i, hi⟩ := infix_iff_occursAt.1 hin
    exact hnone i hi
  | @piece s i ps hat hfirst htail ih =>
    intro p hp hin
    rcases List.mem_cons.1 hp with rfl | hmem
    · obtain ⟨j, hj⟩ := infix_iff_occursAt.1 hin
      have hbound := hj.add_length_le hd
      have hlen := List.length_take_le i s
      have hpos := List.length_pos_iff.2 hd
      have hwhole : OccursAt d (s.take i ++ s.drop i) j := hj.append_right (by omega)
      rw [List.take_append_drop] at hwhole
      exact hfirst j (by omega) hwhole
    · exact ih p hmem hin

theorem Pieces.length_le (hd : d ≠ []) (h : Pieces d s ps) : ps.length ≤ s.length + 1 := by
  induction h with
  | last _ => exact Nat.succ_le_succ (Nat.zero_le _)
  | piece hat _ _ ih =>
    have hbound := hat.add_length_le hd
    have hpos := List.length_pos_iff.2 hd
    rw [List.length_drop] at ih
    simp only [List.length_cons]
    omega

end Occurrences
