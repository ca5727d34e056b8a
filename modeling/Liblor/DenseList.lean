import Mathlib

/-!
# Dense arrays as lists

Removal by moving the last element into the gap, and slices of an array laid out as consecutive
blocks of one size.
-/

namespace DenseList

variable {α : Type*}

/-- Remove position `i` by moving the last element there. -/
def swapRemove (l : List α) (i : ℕ) : List α :=
  match l.getLast? with
  | some x => (l.set i x).dropLast
  | none => []

theorem swapRemove_concat (init : List α) (x : α) (i : ℕ) :
    swapRemove (init ++ [x]) i = init.set i x := by
  unfold swapRemove
  simp only [List.getLast?_concat]
  by_cases hi : i < init.length
  · rw [List.set_append_left _ _ hi, List.dropLast_concat]
  · rw [List.set_append_right _ _ (by omega), List.set_eq_of_length_le (l := init) (by omega)]
    obtain he | he : i - init.length = 0 ∨ 1 ≤ i - init.length := by omega
    · rw [he, List.set_cons_zero, List.dropLast_concat]
    · rw [List.set_eq_of_length_le (by simpa using he), List.dropLast_concat]

theorem length_swapRemove (l : List α) (i : ℕ) : (swapRemove l i).length = l.length - 1 := by
  rcases List.eq_nil_or_concat' l with rfl | ⟨init, x, rfl⟩
  · rfl
  · simp [swapRemove_concat]

theorem swapRemove_perm {l : List α} {i : ℕ} (hi : i < l.length) :
    (swapRemove l i).Perm (l.eraseIdx i) := by
  rcases List.eq_nil_or_concat' l with rfl | ⟨init, x, rfl⟩
  · simp at hi
  · rw [swapRemove_concat]
    rw [List.length_append, List.length_singleton] at hi
    by_cases hlt : i < init.length
    · rw [List.eraseIdx_append_of_lt_length hlt]
      have hset := List.getElem_cons_eraseIdx_perm (l := init.set i x) (n := i) (by simpa using hlt)
      rw [List.getElem_set_self, List.eraseIdx_set_eq] at hset
      exact hset.symm.trans (List.perm_append_singleton x _).symm
    · have he : i = init.length := by omega
      subst i
      rw [List.set_eq_of_length_le le_rfl, List.eraseIdx_append_of_length_le le_rfl]
      simp

/-- Removing position `i` changes no other position but `i` itself, which gets the last element. -/
theorem getElem?_swapRemove {l : List α} {i j : ℕ} (hj : j + 1 < l.length) :
    (swapRemove l i)[j]? = if j = i then l[l.length - 1]? else l[j]? := by
  rcases List.eq_nil_or_concat' l with rfl | ⟨init, x, rfl⟩
  · simp at hj
  · rw [List.length_append, List.length_singleton] at hj
    rw [swapRemove_concat, List.getElem?_set]
    split_ifs with h1 h2 h3 h4 h5
    · simp
    · omega
    · omega
    · omega
    · omega
    · rw [List.getElem?_append_left (by omega)]

section blocks

variable {n : ℕ} {blocks : List (List α)}

theorem length_flatten (h : ∀ b ∈ blocks, b.length = n) :
    blocks.flatten.length = blocks.length * n := by
  induction blocks with
  | nil => simp
  | cons b blocks ih =>
      rw [List.flatten_cons, List.length_append, ih (fun c hc => h c (by simp [hc])),
        h b (by simp), List.length_cons]
      ring

/-- Block `i` is the slice of `n` elements that starts at `i * n`. -/
theorem take_drop_flatten (h : ∀ b ∈ blocks, b.length = n) {i : ℕ} {b : List α}
    (hi : blocks[i]? = some b) : (blocks.flatten.drop (i * n)).take n = b := by
  induction blocks generalizing i with
  | nil => simp at hi
  | cons c blocks ih =>
      have hc := h c (by simp)
      cases i with
      | zero =>
          have hcb : c = b := by simpa using hi
          subst hcb
          rw [Nat.zero_mul, List.drop_zero, List.flatten_cons, List.take_append_of_le_length
            (by omega), List.take_of_length_le (by omega)]
      | succ i =>
          rw [List.flatten_cons, Nat.succ_mul, Nat.add_comm, ← hc, List.drop_append, hc]
          simp only [List.drop_of_length_le (show c.length ≤ n + i * n by omega),
            Nat.add_sub_cancel_left, List.nil_append]
          exact ih (fun d hd => h d (by simp [hd])) (by simpa using hi)

end blocks

theorem map_getD_range {l : List α} (d : α) {k n : ℕ} (h : k + n ≤ l.length) :
    (List.range n).map (fun i => l.getD (k + i) d) = (l.drop k).take n := by
  apply List.ext_getElem
  · rw [List.length_map, List.length_range, List.length_take, List.length_drop]
    omega
  · intro i hi _
    have hi' : i < n := by simpa using hi
    simp [List.getD_eq_getElem?_getD, show k + i < l.length by omega]

end DenseList
