import Mathlib.Data.List.Basic

/-!
# Interleavings of commuting steps

A line that interleaves two sequences of steps. Where every step of the one commutes with every step
of the other, also in whether they are possible at all, all interleavings end in the same state.
-/

namespace CommutingSteps

variable {α σ : Type*} {as bs line line' : List α} {step : σ → α → Option σ} {P : σ → Prop}
  {a b : α} {s : σ}

/-- The third list has the elements of the other two, those of each in their order. -/
inductive Interleaves : List α → List α → List α → Prop where
  | nil : Interleaves [] [] []
  | left {a : α} {as bs line : List α} (h : Interleaves as bs line) :
      Interleaves (a :: as) bs (a :: line)
  | right {b : α} {as bs line : List α} (h : Interleaves as bs line) :
      Interleaves as (b :: bs) (b :: line)

theorem Interleaves.mem (h : Interleaves as bs line) (ha : a ∈ line) : a ∈ as ∨ a ∈ bs := by
  induction h with
  | nil => cases ha
  | left _ ih =>
    rcases List.mem_cons.1 ha with rfl | hmem
    · exact Or.inl List.mem_cons_self
    · exact (ih hmem).imp_left (List.mem_cons_of_mem _)
  | right _ ih =>
    rcases List.mem_cons.1 ha with rfl | hmem
    · exact Or.inr List.mem_cons_self
    · exact (ih hmem).imp_right (List.mem_cons_of_mem _)

/-- The steps `a` and `b` may change places in the states of `P`. -/
def Swap (step : σ → α → Option σ) (P : σ → Prop) (a b : α) : Prop :=
  ∀ s, P s → (step s a).bind (step · b) = (step s b).bind (step · a)

theorem foldlM_cons (step : σ → α → Option σ) (s : σ) (a : α) (as : List α) :
    (a :: as).foldlM step s = (step s a).bind (as.foldlM step) := rfl

theorem bind_congr_of {x : Option σ} {f g : σ → Option σ} (h : ∀ s, x = some s → f s = g s) :
    x.bind f = x.bind g := by
  cases x with
  | none => rfl
  | some s => exact h s rfl

/-- A step moves through all that it commutes with. -/
theorem foldlM_move (hkeep : ∀ s a s', P s → step s a = some s' → P s') (hs : P s)
    (hswap : ∀ a ∈ as, Swap step P a b) :
    (b :: (as ++ bs)).foldlM step s = (as ++ b :: bs).foldlM step s := by
  induction as generalizing s with
  | nil => rfl
  | cons a as ih =>
    have hrest : ∀ s', step s a = some s' →
        (b :: (as ++ bs)).foldlM step s' = (as ++ b :: bs).foldlM step s' :=
      fun s' hstep => ih (hkeep s a s' hs hstep) fun a' ha' => hswap a' (List.mem_cons_of_mem _ ha')
    calc (b :: (a :: as ++ bs)).foldlM step s
        = ((step s b).bind (step · a)).bind ((as ++ bs).foldlM step) := by
          rw [Option.bind_assoc]
          rfl
      _ = ((step s a).bind (step · b)).bind ((as ++ bs).foldlM step) := by
          rw [hswap a List.mem_cons_self s hs]
      _ = (step s a).bind ((b :: (as ++ bs)).foldlM step) := by
          rw [Option.bind_assoc]
          rfl
      _ = (step s a).bind ((as ++ b :: bs).foldlM step) := bind_congr_of hrest

/-- A run over an interleaving ends like the run over one sequence and then the other. -/
theorem Interleaves.foldlM_eq (h : Interleaves as bs line)
    (hkeep : ∀ s a s', P s → step s a = some s' → P s')
    (hswap : ∀ a ∈ as, ∀ b ∈ bs, Swap step P a b) (hs : P s) :
    line.foldlM step s = (as ++ bs).foldlM step s := by
  induction h generalizing s with
  | nil => rfl
  | @left a as bs line _ ih =>
    have hrest : ∀ s', step s a = some s' →
        line.foldlM step s' = (as ++ bs).foldlM step s' :=
      fun s' hstep => ih (fun a' ha' => hswap a' (List.mem_cons_of_mem _ ha'))
        (hkeep s a s' hs hstep)
    rw [List.cons_append, foldlM_cons, foldlM_cons]
    exact bind_congr_of hrest
  | @right b as bs line _ ih =>
    have hrest : ∀ s', step s b = some s' →
        line.foldlM step s' = (as ++ bs).foldlM step s' :=
      fun s' hstep => ih (fun a' ha' b' hb' => hswap a' ha' b' (List.mem_cons_of_mem _ hb'))
        (hkeep s b s' hs hstep)
    rw [← foldlM_move hkeep hs fun a' ha' => hswap a' ha' b List.mem_cons_self, foldlM_cons,
      foldlM_cons]
    exact bind_congr_of hrest

end CommutingSteps
