import Mathlib

/-!
# Wait sets of condition variables

Each condition has a set of parked waiters. A signal takes at least one waiter out of the set of its
condition if there is one, a broadcast takes out all. A waiter that has been taken out and has not
run since is woken; the counting lemma says that woken waiters do not get fewer by notices, and that
every signal adds one unless nobody is left to be woken.
-/

namespace ConditionVariable

variable {κ ι : Type*} [DecidableEq κ]

inductive Notice (κ : Type*) where
  | signal (on : κ)
  | broadcast (on : κ)
  deriving DecidableEq

/-- What the wait sets can be after some notices. -/
inductive Delivers : (κ → Finset ι) → List (Notice κ) → (κ → Finset ι) → Prop where
  | nil (parked : κ → Finset ι) : Delivers parked [] parked
  | signal {parked parked' : κ → Finset ι} {on : κ} {notices : List (Notice κ)}
      (remaining : Finset ι) (hsub : remaining ⊆ parked on)
      (hwakes : parked on ≠ ∅ → remaining ≠ parked on)
      (hrest : Delivers (Function.update parked on remaining) notices parked') :
      Delivers parked (.signal on :: notices) parked'
  | broadcast {parked parked' : κ → Finset ι} {on : κ} {notices : List (Notice κ)}
      (hrest : Delivers (Function.update parked on ∅) notices parked') :
      Delivers parked (.broadcast on :: notices) parked'

def signals (on : κ) (notices : List (Notice κ)) : ℕ := notices.count (.signal on)

variable {parked parked' : κ → Finset ι} {notices : List (Notice κ)} {on : κ} {i : ι}

theorem Delivers.subset (h : Delivers parked notices parked') (on : κ) :
    parked' on ⊆ parked on := by
  induction h with
  | nil parked => exact Finset.Subset.refl _
  | @signal _ _ first _ remaining hsub hwakes hrest ih =>
      by_cases heq : on = first
      · subst heq
        rw [Function.update_self] at ih
        exact ih.trans hsub
      · rwa [Function.update_of_ne heq] at ih
  | @broadcast _ _ first _ hrest ih =>
      by_cases heq : on = first
      · subst heq
        rw [Function.update_self] at ih
        exact ih.trans (Finset.empty_subset _)
      · rwa [Function.update_of_ne heq] at ih

/-- Nobody is left, or each signal has taken out a waiter of its own. -/
theorem Delivers.card (h : Delivers parked notices parked') (on : κ) :
    parked' on = ∅ ∨ (parked' on).card + signals on notices ≤ (parked on).card := by
  induction h with
  | nil parked => exact Or.inr (Nat.le_refl _)
  | @signal parked _ first notices remaining hsub hwakes hrest ih =>
      by_cases heq : on = first
      · subst heq
        rw [Function.update_self] at ih
        rcases ih with hnone | hle
        · exact Or.inl hnone
        by_cases hempty : parked on = ∅
        · left
          apply Finset.subset_empty.1
          exact (hrest.subset on).trans (by rw [Function.update_self, ← hempty]; exact hsub)
        · right
          have hless : remaining.card < (parked on).card :=
            Finset.card_lt_card (hsub.ssubset_of_ne (hwakes hempty))
          rw [signals, List.count_cons_self]
          unfold signals at hle
          omega
      · rw [Function.update_of_ne heq] at ih
        have hother : signals on (.signal first :: notices) = signals on notices :=
          List.count_cons_of_ne (fun h => heq (Notice.signal.inj h).symm)
        rwa [hother]
  | @broadcast parked _ first notices hrest ih =>
      have hother : signals on (.broadcast first :: notices) = signals on notices :=
        List.count_cons_of_ne (by simp)
      rw [hother]
      by_cases heq : on = first
      · subst heq
        left
        apply Finset.subset_empty.1
        have hsub := hrest.subset on
        rwa [Function.update_self] at hsub
      · rwa [Function.update_of_ne heq] at ih

theorem Delivers.broadcast_empty (h : Delivers parked notices parked')
    (hmem : .broadcast on ∈ notices) : parked' on = ∅ := by
  induction h with
  | nil parked => exact absurd hmem List.not_mem_nil
  | signal remaining hsub hwakes hrest ih =>
      apply ih
      rcases List.mem_cons.1 hmem with heq | hmem
      · cases heq
      · exact hmem
  | broadcast hrest ih =>
      rcases List.mem_cons.1 hmem with heq | hmem
      · cases heq
        apply Finset.subset_empty.1
        have hsub := hrest.subset on
        rwa [Function.update_self] at hsub
      · exact ih hmem

variable [DecidableEq ι]

/-- The wait sets without this waiter. -/
def leave (parked : κ → Finset ι) (i : ι) : κ → Finset ι := fun on => (parked on).erase i

/-- The wait sets when this waiter has parked. -/
def park (parked : κ → Finset ι) (on : κ) (i : ι) : κ → Finset ι :=
  Function.update parked on (insert i (parked on))

/-- The woken waiters after one of the waiters has left and sent its notices. -/
theorem Delivers.woken (h : Delivers (leave parked i) notices parked') {waiters : Finset ι}
    (hsub : parked on ⊆ waiters) :
    parked' on = ∅ ∨ ((waiters \ parked on).erase i).card + signals on notices ≤
      (waiters.erase i \ parked' on).card := by
  rcases h.card on with hnone | hle
  · exact Or.inl hnone
  right
  have herase : (waiters \ parked on).erase i = waiters.erase i \ (parked on).erase i := by
    ext j
    simp only [Finset.mem_erase, Finset.mem_sdiff]
    tauto
  have hsub' : (parked on).erase i ⊆ waiters.erase i := Finset.erase_subset_erase i hsub
  have hbefore := Finset.card_sdiff_add_card_eq_card hsub'
  have hafter := Finset.card_sdiff_add_card_eq_card ((h.subset on).trans hsub')
  change (parked' on).card + _ ≤ ((parked on).erase i).card at hle
  rw [herase]
  omega

end ConditionVariable
