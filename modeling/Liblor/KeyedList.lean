import Mathlib

/-!
# Lists of keyed entries as partial functions

A list of entries with pairwise different keys stands for a partial function on the keys, up to an
equivalence `same` on the `valid` keys. Adding, replacing and removing an entry are updates of that
function.
-/

namespace KeyedList

universe u v w

variable {K : Type u} {V : Type v} {E : Type w}

/-- `same` is an equivalence on the keys that are `valid`. -/
structure EquivOn (valid : K → Prop) (same : K → K → Prop) : Prop where
  refl : ∀ a, valid a → same a a
  symm : ∀ a b, valid a → valid b → same a b → same b a
  trans : ∀ a b c, valid a → valid b → valid c → same a b → same b c → same a c

section Contents

variable (same : K → K → Prop) [DecidableRel same]

def put (key : K) (value : V) (f : K → Option V) : K → Option V :=
  fun k => if same key k then some value else f k

def erase (key : K) (f : K → Option V) : K → Option V :=
  fun k => if same key k then none else f k

end Contents

section Lists

variable (valid : K → Prop) (same : K → K → Prop) (key : E → K) (value : E → V)

/-- A valid key is the key of at most one position. -/
def Unique (l : List E) : Prop :=
  ∀ k, valid k → ∀ (i j : ℕ) (x y : E), l[i]? = some x → l[j]? = some y →
    same (key x) k → same (key y) k → i = j

def Represents (l : List E) (f : K → Option V) : Prop :=
  ∀ k v, valid k → (f k = some v ↔ ∃ e ∈ l, same (key e) k ∧ value e = v)

end Lists

namespace Represents

variable {valid : K → Prop} {same : K → K → Prop} {key : E → K} {value : E → V} {l : List E}
  {f : K → Option V}

theorem nil : Represents valid same key value [] (fun _ => none) := by
  intro k v _
  simp

theorem perm {l' : List E} (h : Represents valid same key value l f) (hperm : l'.Perm l) :
    Represents valid same key value l' f := by
  intro k v hk
  rw [h k v hk]
  simp only [hperm.mem_iff]

theorem eq_none (h : Represents valid same key value l f) {k : K} (hk : valid k)
    (hno : ∀ e ∈ l, ¬ same (key e) k) : f k = none := by
  by_contra hne
  obtain ⟨v, hv⟩ := Option.ne_none_iff_exists'.mp hne
  obtain ⟨e, he, hek, -⟩ := (h k v hk).mp hv
  exact hno e he hek

variable [DecidableRel same]

theorem append (h : Represents valid same key value l f) (hsame : EquivOn valid same)
    (hvalid : ∀ e ∈ l, valid (key e)) {k : K} (hk : valid k) {e : E} (he : valid (key e))
    (hek : same (key e) k) (hno : ∀ x ∈ l, ¬ same (key x) k) :
    Represents valid same key value (l ++ [e]) (put same k (value e) f) := by
  intro k' v hk'
  simp only [List.mem_append, List.mem_singleton]
  by_cases hkk : same k k'
  · simp only [put, if_pos hkk, Option.some.injEq]
    constructor
    · intro hv
      exact ⟨e, Or.inr rfl, hsame.trans _ _ _ he hk hk' hek hkk, hv⟩
    · intro hx
      obtain ⟨x, hx | rfl, hxk, hv⟩ := hx
      · have hkk' := hsame.symm _ _ hk hk' hkk
        exact (hno x hx (hsame.trans _ _ _ (hvalid x hx) hk' hk hxk hkk')).elim
      · exact hv
  · simp only [put, if_neg hkk, h k' v hk']
    constructor
    · intro hx
      obtain ⟨x, hx, hxk, hv⟩ := hx
      exact ⟨x, Or.inl hx, hxk, hv⟩
    · intro hx
      obtain ⟨x, hx | rfl, hxk, hv⟩ := hx
      · exact ⟨x, hx, hxk, hv⟩
      · exact (hkk (hsame.trans _ _ _ hk he hk' (hsame.symm _ _ he hk hek) hxk)).elim

theorem set (h : Represents valid same key value l f) (hsame : EquivOn valid same)
    (hvalid : ∀ e ∈ l, valid (key e)) (hunique : Unique valid same key l) {k : K} (hk : valid k)
    {i : ℕ} {old e : E} (hold : l[i]? = some old) (holdk : same (key old) k) (he : valid (key e))
    (hek : same (key e) k) :
    Represents valid same key value (l.set i e) (put same k (value e) f) := by
  have hi : i < l.length := (List.getElem?_eq_some_iff.mp hold).1
  intro k' v hk'
  by_cases hkk : same k k'
  · have hkk' := hsame.symm _ _ hk hk' hkk
    simp only [put, if_pos hkk, Option.some.injEq]
    constructor
    · intro hv
      exact ⟨e, List.mem_set hi e, hsame.trans _ _ _ he hk hk' hek hkk, hv⟩
    · intro hx
      obtain ⟨x, hx, hxk, hv⟩ := hx
      obtain ⟨j, hj⟩ := List.mem_iff_getElem?.mp hx
      by_cases hji : j = i
      · subst j
        rw [List.getElem?_set_self hi] at hj
        cases hj
        exact hv
      · rw [List.getElem?_set_ne (Ne.symm hji)] at hj
        have hxv := hvalid x (List.mem_of_getElem? hj)
        exact (hji (hunique k hk j i x old hj hold
          (hsame.trans _ _ _ hxv hk' hk hxk hkk') holdk)).elim
  · simp only [put, if_neg hkk, h k' v hk']
    constructor
    · intro hx
      obtain ⟨x, hx, hxk, hv⟩ := hx
      obtain ⟨j, hj⟩ := List.mem_iff_getElem?.mp hx
      have hji : i ≠ j := by
        intro hij
        subst hij
        have hox : old = x := Option.some.inj (hold.symm.trans hj)
        rw [hox] at holdk
        exact hkk (hsame.trans _ _ _ hk (hvalid x hx) hk'
          (hsame.symm _ _ (hvalid x hx) hk holdk) hxk)
      refine ⟨x, List.mem_iff_getElem?.mpr ⟨j, ?_⟩, hxk, hv⟩
      rw [List.getElem?_set_ne hji, hj]
    · intro hx
      obtain ⟨x, hx, hxk, hv⟩ := hx
      rcases List.mem_or_eq_of_mem_set hx with hx | hx
      · exact ⟨x, hx, hxk, hv⟩
      · subst x
        exact (hkk (hsame.trans _ _ _ hk he hk' (hsame.symm _ _ he hk hek) hxk)).elim

theorem eraseIdx (h : Represents valid same key value l f) (hsame : EquivOn valid same)
    (hvalid : ∀ e ∈ l, valid (key e)) (hunique : Unique valid same key l) {k : K} (hk : valid k)
    {i : ℕ} {old : E} (hold : l[i]? = some old) (holdk : same (key old) k) :
    Represents valid same key value (l.eraseIdx i) (erase same k f) := by
  have holdv := hvalid old (List.mem_of_getElem? hold)
  intro k' v hk'
  by_cases hkk : same k k'
  · have hkk' := hsame.symm _ _ hk hk' hkk
    simp only [erase, if_pos hkk, reduceCtorEq, false_iff, not_exists, not_and]
    intro x hx hxk
    obtain ⟨j, hj, hji⟩ := List.mem_eraseIdx_iff_getElem?.mp hx
    have hxv := hvalid x (List.mem_of_mem_eraseIdx hx)
    exact (hj (hunique k hk j i x old hji hold (hsame.trans _ _ _ hxv hk' hk hxk hkk') holdk)).elim
  · simp only [erase, if_neg hkk, h k' v hk']
    constructor
    · intro hx
      obtain ⟨x, hx, hxk, hv⟩ := hx
      obtain ⟨j, hj⟩ := List.mem_iff_getElem?.mp hx
      have hji : j ≠ i := by
        intro hji
        subst hji
        rw [hold] at hj
        cases hj
        exact hkk (hsame.trans _ _ _ hk holdv hk' (hsame.symm _ _ holdv hk holdk) hxk)
      exact ⟨x, List.mem_eraseIdx_iff_getElem?.mpr ⟨j, hji, hj⟩, hxk, hv⟩
    · intro hx
      obtain ⟨x, hx, hxk, hv⟩ := hx
      exact ⟨x, List.mem_of_mem_eraseIdx hx, hxk, hv⟩

end Represents

/-! ## Counting keys up to sameness -/

/-- The classes of valid keys with property `P`. -/
def classes (valid : K → Prop) (same : K → K → Prop) (P : K → Prop) : Set (Set K) :=
  {C | ∃ k, valid k ∧ P k ∧ C = {x | valid x ∧ same k x}}

theorem classes_eq_range {valid : K → Prop} {same : K → K → Prop} {key : E → K} {l : List E}
    (hsame : EquivOn valid same) (hvalid : ∀ e ∈ l, valid (key e)) {P : K → Prop}
    (hP : ∀ k, valid k → (P k ↔ ∃ e ∈ l, same (key e) k)) :
    classes valid same P =
      Set.range fun i : Fin l.length => {x | valid x ∧ same (key l[i]) x} := by
  ext C
  constructor
  · intro hC
    obtain ⟨k, hk, hPk, rfl⟩ := hC
    obtain ⟨e, he, hek⟩ := (hP k hk).mp hPk
    obtain ⟨i, hi, rfl⟩ := List.getElem_of_mem he
    refine ⟨⟨i, hi⟩, ?_⟩
    have hev := hvalid _ he
    ext x
    constructor
    · intro hx
      exact ⟨hx.1, hsame.trans _ _ _ hk hev hx.1 (hsame.symm _ _ hev hk hek) hx.2⟩
    · intro hx
      exact ⟨hx.1, hsame.trans _ _ _ hev hk hx.1 hek hx.2⟩
  · intro hC
    obtain ⟨i, rfl⟩ := hC
    have he := List.getElem_mem i.isLt
    have hev := hvalid _ he
    exact ⟨key l[i], hev, (hP _ hev).mpr ⟨_, he, hsame.refl _ hev⟩, rfl⟩

theorem ncard_classes {valid : K → Prop} {same : K → K → Prop} {key : E → K} {l : List E}
    (hsame : EquivOn valid same) (hvalid : ∀ e ∈ l, valid (key e))
    (hunique : Unique valid same key l) {P : K → Prop}
    (hP : ∀ k, valid k → (P k ↔ ∃ e ∈ l, same (key e) k)) :
    (classes valid same P).ncard = l.length := by
  have hinj : Function.Injective
      fun i : Fin l.length => {x | valid x ∧ same (key l[i]) x} := by
    intro i j hij
    have hi := hvalid l[i] (List.getElem_mem i.isLt)
    have hclass : {x | valid x ∧ same (key l[i]) x} = {x | valid x ∧ same (key l[j]) x} := hij
    have hmem : key l[i] ∈ {x | valid x ∧ same (key l[j]) x} := by
      rw [← hclass]
      exact ⟨hi, hsame.refl _ hi⟩
    exact Fin.ext (hunique _ hi i j _ _ (List.getElem?_eq_getElem i.isLt)
      (List.getElem?_eq_getElem j.isLt) (hsame.refl _ hi) hmem.2)
  rw [classes_eq_range hsame hvalid hP, ← Set.image_univ, Set.ncard_image_of_injective _ hinj,
    Set.ncard_univ, Nat.card_eq_fintype_card, Fintype.card_fin]

theorem classes_mono {valid : K → Prop} {same : K → K → Prop} {P Q : K → Prop}
    (h : ∀ k, valid k → P k → Q k) : classes valid same P ⊆ classes valid same Q := by
  intro C hC
  obtain ⟨k, hk, hPk, hC⟩ := hC
  exact ⟨k, hk, h k hk hPk, hC⟩

/-- A property of keys that equal keys share is read off its classes. -/
theorem of_classes_subset {valid : K → Prop} {same : K → K → Prop} (hsame : EquivOn valid same)
    {P Q : K → Prop} (hcongr : ∀ a b, valid a → valid b → same a b → P a → P b)
    (h : classes valid same Q ⊆ classes valid same P) {k : K} (hk : valid k) (hQ : Q k) : P k := by
  obtain ⟨a, ha, hPa, hclass⟩ := h ⟨k, hk, hQ, rfl⟩
  have hmem : k ∈ {x | valid x ∧ same a x} := by
    rw [← hclass]
    exact ⟨hk, hsame.refl k hk⟩
  exact hcongr a k ha hk hmem.2 hPa

end KeyedList
