import Mathlib

/-!
# Runs of a labelled transition system

A run is built from its end: the last step is the outermost constructor, so that an invariant is
carried by one induction. Labels are kept in the order in which they happened.
-/

namespace Transition

universe u v

structure System (σ : Type u) (ε : Type v) where
  start : σ → Prop
  step : σ → ε → σ → Prop

inductive Run {σ : Type u} {ε : Type v} (M : System σ ε) : List ε → σ → Prop where
  | start {s : σ} (h : M.start s) : Run M [] s
  | step {es : List ε} {s s' : σ} {e : ε} (h : Run M es s) (hstep : M.step s e s') :
      Run M (es ++ [e]) s'

variable {σ : Type u} {ε : Type v} {M : System σ ε}

theorem Run.last {es : List ε} {e : ε} {s : σ} (h : Run M (es ++ [e]) s) :
    ∃ s', Run M es s' ∧ M.step s' e s := by
  generalize hall : es ++ [e] = all at h
  cases h with
  | start => simp at hall
  | step hrun hstep =>
    obtain ⟨rfl, hlast⟩ := List.append_inj' hall rfl
    cases hlast
    exact ⟨_, hrun, hstep⟩

def Reachable (M : System σ ε) (s : σ) : Prop := ∃ es, Run M es s

/-- What holds at the start and survives a step holds along every run. -/
theorem Run.invariant {P : List ε → σ → Prop} (hstart : ∀ s, M.start s → P [] s)
    (hstep : ∀ es s e s', P es s → M.step s e s' → P (es ++ [e]) s') {es : List ε} {s : σ}
    (h : Run M es s) : P es s := by
  induction h with
  | start h => exact hstart _ h
  | step _ hs ih => exact hstep _ _ _ _ ih hs

theorem Reachable.invariant {P : σ → Prop} (hstart : ∀ s, M.start s → P s)
    (hstep : ∀ s e s', P s → M.step s e s' → P s') {s : σ} (h : Reachable M s) : P s := by
  obtain ⟨es, hrun⟩ := h
  exact hrun.invariant (P := fun _ s => P s) hstart (fun _ => hstep)

/-- Some steps from one state to another. -/
inductive Steps (M : System σ ε) : σ → List ε → σ → Prop where
  | refl (s : σ) : Steps M s [] s
  | step {s s' s'' : σ} {es : List ε} {e : ε} (h : Steps M s es s') (hstep : M.step s' e s'') :
      Steps M s (es ++ [e]) s''

theorem Steps.single {s s' : σ} {e : ε} (h : M.step s e s') : Steps M s [e] s' :=
  (Steps.refl s).step h

theorem Steps.trans {s s' s'' : σ} {es es' : List ε} (h : Steps M s es s')
    (h' : Steps M s' es' s'') : Steps M s (es ++ es') s'' := by
  induction h' with
  | refl => rwa [List.append_nil]
  | step _ hstep ih =>
    rw [← List.append_assoc]
    exact ih.step hstep

/-- If a measure can be decreased while it is not zero, it can be brought down to zero. -/
theorem Steps.exhaust {P : σ → Prop} (measure : σ → ℕ)
    (hstep : ∀ s, P s → measure s ≠ 0 → ∃ e s', M.step s e s' ∧ P s' ∧ measure s' < measure s)
    {s : σ} (hs : P s) : ∃ es s', Steps M s es s' ∧ P s' ∧ measure s' = 0 := by
  induction hn : measure s using Nat.strong_induction_on generalizing s with
  | h n ih =>
    by_cases hzero : measure s = 0
    · exact ⟨[], s, .refl s, hs, hzero⟩
    · obtain ⟨e, s', he, hs', hlt⟩ := hstep s hs hzero
      obtain ⟨es, s'', hes, hs'', hzero'⟩ := ih (measure s') (hn ▸ hlt) hs' rfl
      exact ⟨[e] ++ es, s'', (Steps.single he).trans hes, hs'', hzero'⟩

theorem Steps.invariant {P : σ → Prop} (hstep : ∀ s e s', P s → M.step s e s' → P s') {s s' : σ}
    {es : List ε} (h : Steps M s es s') (hs : P s) : P s' := by
  induction h with
  | refl => exact hs
  | step _ he ih => exact hstep _ _ _ ih he

section Program

variable (step : σ → ε → Option σ)

/-- The program answers every call, and the property holds in every state that it comes to. -/
def Throughout (P : σ → Prop) : σ → List ε → Prop
  | s, [] => P s
  | s, e :: es => P s ∧ ∃ s' ∈ step s e, Throughout P s' es

/-- The property holds of every call and the state before it. -/
def EachStep (Q : σ → ε → Prop) : σ → List ε → Prop
  | _, [] => True
  | s, e :: es => Q s e ∧ ∀ s' ∈ step s e, EachStep Q s' es

instance (Q : σ → ε → Prop) [∀ s e, Decidable (Q s e)] :
    ∀ s es, Decidable (EachStep step Q s es)
  | _, [] => inferInstanceAs (Decidable True)
  | s, e :: es =>
    haveI := fun s' => instDecidableEachStep Q s' es
    inferInstanceAs (Decidable (Q s e ∧ ∀ s' ∈ step s e, EachStep step Q s' es))

variable {step}

theorem Throughout.last {P : σ → Prop} {s : σ} {es : List ε} (h : Throughout step P s es) :
    ∃ s' ∈ es.foldlM step s, P s' := by
  induction es generalizing s with
  | nil => exact ⟨s, rfl, h⟩
  | cons e es ih =>
    obtain ⟨-, s', hs', hrest⟩ := h
    obtain ⟨t, ht, hP⟩ := ih hrest
    refine ⟨t, ?_, hP⟩
    rw [List.foldlM_cons, Option.mem_def.1 hs']
    exact ht

/-- What an invariant implies holds throughout. -/
theorem throughout_of_invariant {I P : σ → Prop} {L : σ → ε → Prop}
    (hanswers : ∀ s e, I s → L s e → ∃ s' ∈ step s e, I s') (himplies : ∀ s, I s → P s) {s : σ}
    {es : List ε} (hI : I s) (hL : EachStep step L s es) : Throughout step P s es := by
  induction es generalizing s with
  | nil => exact himplies s hI
  | cons e es ih =>
    obtain ⟨s', hs', hI'⟩ := hanswers s e hI hL.1
    exact ⟨himplies s hI, s', hs', ih hI' (hL.2 s' hs')⟩

/-- A property that a call keeps under one condition only holds throughout the runs whose calls all
meet the condition, and in no others. -/
theorem throughout_iff {I P : σ → Prop} {L Q : σ → ε → Prop}
    (hanswers : ∀ s e, I s → L s e → ∃ s' ∈ step s e, I s')
    (hkeeps : ∀ s e s', I s → P s → L s e → s' ∈ step s e → (P s' ↔ Q s e)) {s : σ} {es : List ε}
    (hI : I s) (hP : P s) (hL : EachStep step L s es) :
    Throughout step P s es ↔ EachStep step Q s es := by
  induction es generalizing s with
  | nil => exact ⟨fun _ => trivial, fun _ => hP⟩
  | cons e es ih =>
    obtain ⟨s', hs', hI'⟩ := hanswers s e hI hL.1
    have hkeep := hkeeps s e s' hI hP hL.1 hs'
    have honly : ∀ s'' ∈ step s e, s'' = s' := fun s'' hs'' => Option.mem_unique hs'' hs'
    constructor
    · rintro ⟨-, s'', hs'', hrest⟩
      obtain rfl := honly s'' hs''
      have hP' : P s'' := by
        cases es with
        | nil => exact hrest
        | cons e' es => exact hrest.1
      refine ⟨hkeep.1 hP', fun t ht => ?_⟩
      obtain rfl := honly t ht
      exact (ih hI' hP' (hL.2 t ht)).1 hrest
    · rintro ⟨hQ, hrest⟩
      have hP' := hkeep.2 hQ
      exact ⟨hP, s', hs', (ih hI' hP' (hL.2 s' hs')).2 (hrest s' hs')⟩

end Program

end Transition
