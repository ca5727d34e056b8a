import Mathlib.Data.List.Basic

/-!
# Intrusive doubly linked lists

Cells lie at addresses and link to both neighbours; address zero ends the list. A store represents a
list of addressed values when every cell of the list links to the addresses around it. The
operations that only write links are described on the represented list, and so is a walk that is
given a bound on its steps and answers nothing when it has not come to the end within them.
-/

namespace DoublyLinked

variable {α β : Type*}

structure Cell (α : Type*) where
  next : ℕ
  prev : ℕ
  value : α

structure Store (α : Type*) where
  head : ℕ
  cell : ℕ → Cell α

namespace Store

def write (store : Store α) (address : ℕ) (cell : Cell α) : Store α :=
  { store with cell := Function.update store.cell address cell }

def setNext (store : Store α) (address next : ℕ) : Store α :=
  store.write address { store.cell address with next := next }

def setPrev (store : Store α) (address prev : ℕ) : Store α :=
  store.write address { store.cell address with prev := prev }

def setValue (store : Store α) (address : ℕ) (value : α) : Store α :=
  store.write address { store.cell address with value := value }

def pushFront (store : Store α) (address : ℕ) (value : α) : Store α :=
  let store := store.write address ⟨store.head, 0, value⟩
  let store := if store.head ≠ 0 then store.setPrev store.head address else store
  { store with head := address }

def unlink (store : Store α) (address : ℕ) : Store α :=
  let store :=
    if (store.cell address).prev ≠ 0 then
      store.setNext (store.cell address).prev (store.cell address).next
    else { store with head := (store.cell address).next }
  if (store.cell address).next ≠ 0 then
    store.setPrev (store.cell address).next (store.cell address).prev
  else store

/-- The first cell from an address on whose value passes the test, or zero. -/
def search (store : Store α) (test : α → Bool) : ℕ → ℕ → Option ℕ
  | 0, address => if address = 0 then some 0 else none
  | steps + 1, address =>
    if address = 0 then some 0
    else if test (store.cell address).value then some address
    else search store test steps (store.cell address).next

def fold (store : Store α) (f : β → α → β) : ℕ → ℕ → β → Option β
  | 0, address, acc => if address = 0 then some acc else none
  | steps + 1, address, acc =>
    if address = 0 then some acc
    else fold store f steps (store.cell address).next (f acc (store.cell address).value)

end Store

/-- The address of the first cell, or the one behind the list. -/
def firstOr (behind : ℕ) : List (ℕ × α) → ℕ
  | [] => behind
  | (address, _) :: _ => address

/-- The address of the last cell, or the one before the list. -/
def lastOr (before : ℕ) : List (ℕ × α) → ℕ
  | [] => before
  | (address, _) :: l => lastOr address l

/-- The cells of a list are linked to each other and to the addresses before and behind it. -/
def Segment (cell : ℕ → Cell α) (before behind : ℕ) : List (ℕ × α) → Prop
  | [] => True
  | (address, value) :: l =>
    address ≠ 0 ∧ cell address = ⟨firstOr behind l, before, value⟩ ∧ Segment cell address behind l

structure Represents (store : Store α) (l : List (ℕ × α)) : Prop where
  head : store.head = firstOr 0 l
  links : Segment store.cell 0 0 l
  apart : (l.map Prod.fst).Nodup

section Segment

variable {cell cell' : ℕ → Cell α} {before behind address : ℕ} {value : α} {l l₁ l₂ : List (ℕ × α)}

theorem firstOr_append (behind : ℕ) (l₁ l₂ : List (ℕ × α)) :
    firstOr behind (l₁ ++ l₂) = firstOr (firstOr behind l₂) l₁ := by
  cases l₁ with
  | nil => rfl
  | cons x l₁ => rfl

theorem segment_append : Segment cell before behind (l₁ ++ l₂) ↔
    Segment cell before (firstOr behind l₂) l₁ ∧ Segment cell (lastOr before l₁) behind l₂ := by
  induction l₁ generalizing before with
  | nil => simp [Segment, lastOr]
  | cons x l₁ ih =>
    simp only [List.cons_append, Segment, lastOr, firstOr_append, ih]
    tauto

/-- A segment reads only its own cells. -/
theorem Segment.congr (h : Segment cell before behind l)
    (heq : ∀ x ∈ l, cell' x.1 = cell x.1) : Segment cell' before behind l := by
  induction l generalizing before with
  | nil => trivial
  | cons x l ih =>
    obtain ⟨hne, hcell, hrest⟩ := h
    refine ⟨hne, ?_, ih hrest fun y hy => heq y (List.mem_cons_of_mem _ hy)⟩
    rw [heq x List.mem_cons_self, hcell]

theorem Segment.update (h : Segment cell before behind l) (hout : address ∉ l.map Prod.fst)
    (new : Cell α) : Segment (Function.update cell address new) before behind l := by
  apply h.congr
  intro x hx
  apply Function.update_of_ne
  rintro rfl
  exact hout (List.mem_map_of_mem hx)

theorem Segment.ne_zero (h : Segment cell before behind l) : ∀ x ∈ l, x.1 ≠ 0 := by
  induction l generalizing before with
  | nil => simp
  | cons x l ih =>
    intro y hy
    rcases List.mem_cons.1 hy with rfl | hmem
    · exact h.1
    · exact ih h.2.2 y hmem

theorem firstOr_ne_zero (h : Segment cell before behind l) (hne : l ≠ []) : firstOr 0 l ≠ 0 := by
  cases l with
  | nil => contradiction
  | cons x l => exact h.1

theorem lastOr_mem (before : ℕ) (hne : l ≠ []) : lastOr before l ∈ l.map Prod.fst := by
  induction l generalizing before with
  | nil => contradiction
  | cons x l ih =>
    simp only [lastOr, List.map_cons]
    by_cases hl : l = []
    · subst hl
      exact List.mem_cons_self
    · exact List.mem_cons_of_mem _ (ih x.1 hl)

theorem lastOr_ne_zero (h : Segment cell before behind l) (hne : l ≠ []) : lastOr 0 l ≠ 0 := by
  obtain ⟨x, hx, heq⟩ := List.mem_map.1 (lastOr_mem 0 hne)
  rw [← heq]
  exact h.ne_zero x hx

theorem Segment.setNext (h : Segment cell before behind l) (hapart : (l.map Prod.fst).Nodup)
    (hne : l ≠ []) (next : ℕ) :
    Segment (Function.update cell (lastOr before l) { cell (lastOr before l) with next := next })
      before next l := by
  induction l generalizing before with
  | nil => contradiction
  | cons x l ih =>
    obtain ⟨hzero, hcell, hrest⟩ := h
    obtain ⟨hout, hapart⟩ := List.nodup_cons.1 hapart
    by_cases hl : l = []
    · subst hl
      refine ⟨hzero, ?_, trivial⟩
      simp only [lastOr, Function.update_self, hcell, firstOr]
    · have hlast := lastOr_mem x.1 hl
      refine ⟨hzero, ?_, ih hrest hapart hl⟩
      have hkeep : x.1 ≠ lastOr x.1 l := fun heq => hout (heq ▸ hlast)
      change Function.update cell (lastOr x.1 l) _ x.1 = _
      rw [Function.update_of_ne hkeep, hcell]
      cases l with
      | nil => contradiction
      | cons y l => rfl

theorem Segment.setPrev (h : Segment cell before behind l) (hapart : (l.map Prod.fst).Nodup)
    (hne : l ≠ []) (prev : ℕ) :
    Segment (Function.update cell (firstOr 0 l) { cell (firstOr 0 l) with prev := prev })
      prev behind l := by
  cases l with
  | nil => contradiction
  | cons x l =>
    obtain ⟨hzero, hcell, hrest⟩ := h
    obtain ⟨hout, -⟩ := List.nodup_cons.1 hapart
    refine ⟨hzero, ?_, hrest.update hout _⟩
    simp only [firstOr, Function.update_self, hcell]

theorem Segment.unique {l' : List (ℕ × α)} (h : Segment cell before 0 l)
    (h' : Segment cell before 0 l') (hfirst : firstOr 0 l = firstOr 0 l') : l = l' := by
  induction l generalizing before l' with
  | nil =>
    cases l' with
    | nil => rfl
    | cons x l' => exact absurd hfirst.symm h'.1
  | cons x l ih =>
    obtain ⟨hne, hcell, hrest⟩ := h
    cases l' with
    | nil => exact absurd hfirst hne
    | cons y l' =>
      obtain ⟨-, hcell', hrest'⟩ := h'
      change x.1 = y.1 at hfirst
      rw [← hfirst, hcell, Cell.mk.injEq] at hcell'
      obtain ⟨hnext, -, hvalue⟩ := hcell'
      rw [← hfirst] at hrest'
      rw [ih hrest hrest' hnext, Prod.ext hfirst hvalue]

end Segment

section Operations

variable {store : Store α} {address steps : ℕ} {value : α} {l l₁ l₂ l' : List (ℕ × α)}

theorem represents_nil (cell : ℕ → Cell α) : Represents ⟨0, cell⟩ [] :=
  ⟨rfl, trivial, List.nodup_nil⟩

theorem Represents.pushFront (h : Represents store l) (hne : address ≠ 0)
    (hnew : address ∉ l.map Prod.fst) (value : α) :
    Represents (store.pushFront address value) ((address, value) :: l) := by
  refine ⟨rfl, ?_, List.nodup_cons.2 ⟨hnew, h.apart⟩⟩
  have hkept := h.links.update hnew ⟨store.head, 0, value⟩
  by_cases hl : l = []
  · subst hl
    refine ⟨hne, ?_, trivial⟩
    simp [Store.pushFront, Store.write, h.head, firstOr]
  · have hfirst := firstOr_ne_zero h.links hl
    have hmem : firstOr 0 l ∈ l.map Prod.fst := by
      cases l with
      | nil => contradiction
      | cons x l => exact List.mem_cons_self
    have hother : address ≠ firstOr 0 l := fun heq => hnew (heq ▸ hmem)
    have hlinked := hkept.setPrev h.apart hl address
    refine ⟨hne, ?_, ?_⟩
    · simp [Store.pushFront, Store.write, Store.setPrev, h.head, hfirst,
        Function.update_of_ne hother]
    · simpa [Store.pushFront, Store.write, Store.setPrev, h.head, hfirst] using hlinked

theorem Represents.split (h : Represents store (l₁ ++ (address, value) :: l₂)) :
    address ≠ 0 ∧ store.cell address = ⟨firstOr 0 l₂, lastOr 0 l₁, value⟩ ∧
      Segment store.cell 0 address l₁ ∧ Segment store.cell address 0 l₂ := by
  obtain ⟨hleft, hne, hcell, hright⟩ := segment_append.1 h.links
  exact ⟨hne, hcell, hleft, hright⟩

theorem Represents.split_apart (h : Represents store (l₁ ++ (address, value) :: l₂)) :
    (l₁.map Prod.fst).Nodup ∧ (l₂.map Prod.fst).Nodup ∧ address ∉ l₁.map Prod.fst ∧
      address ∉ l₂.map Prod.fst ∧ ∀ x ∈ l₁.map Prod.fst, x ∉ l₂.map Prod.fst := by
  have hapart := h.apart
  rw [List.map_append, List.map_cons, List.nodup_append] at hapart
  obtain ⟨hleft, hright, hdisjoint⟩ := hapart
  obtain ⟨hout, hright⟩ := List.nodup_cons.1 hright
  refine ⟨hleft, hright, fun hmem => hdisjoint _ hmem _ List.mem_cons_self rfl, hout, ?_⟩
  exact fun x hx hx' => hdisjoint x hx x (List.mem_cons_of_mem _ hx') rfl

/-- The cell before, or the head of the list, now leads past the cell. -/
theorem Represents.bypass (h : Represents store (l₁ ++ (address, value) :: l₂)) :
    ∃ store' : Store α,
      (if (store.cell address).prev ≠ 0 then
        store.setNext (store.cell address).prev (store.cell address).next
      else { store with head := (store.cell address).next }) = store' ∧
      store'.head = firstOr 0 (l₁ ++ l₂) ∧ store'.cell address = store.cell address ∧
      Segment store'.cell 0 (firstOr 0 l₂) l₁ ∧ Segment store'.cell address 0 l₂ := by
  refine ⟨_, rfl, ?_⟩
  obtain ⟨hne, hcell, hleft, hright⟩ := h.split
  obtain ⟨hnodup, -, hout, -, hdisjoint⟩ := h.split_apart
  by_cases hl : l₁ = []
  · subst hl
    rw [if_neg (by simp [hcell, lastOr])]
    exact ⟨by simp [hcell], rfl, trivial, hright⟩
  · have hlast := lastOr_ne_zero hleft hl
    have hmem := lastOr_mem 0 hl
    have hother : address ≠ lastOr 0 l₁ := fun heq => hout (heq ▸ hmem)
    rw [hcell, if_pos hlast]
    refine ⟨?_, ?_, hleft.setNext hnodup hl _, hright.update (hdisjoint _ hmem) _⟩
    · change store.head = _
      rw [h.head]
      cases l₁ with
      | nil => contradiction
      | cons x l₁ => rfl
    · change Function.update store.cell (lastOr 0 l₁) _ address = _
      rw [Function.update_of_ne hother, hcell]

theorem Represents.unlink (h : Represents store (l₁ ++ (address, value) :: l₂)) :
    Represents (store.unlink address) (l₁ ++ l₂) := by
  obtain ⟨hne, hcell, -, -⟩ := h.split
  obtain ⟨hleft, hright, -, -, hdisjoint⟩ := h.split_apart
  obtain ⟨store', hstore, hhead, hsame, hbefore, hbehind⟩ := h.bypass
  have hapart : ((l₁ ++ l₂).map Prod.fst).Nodup := by
    rw [List.map_append]
    refine List.nodup_append.2 ⟨hleft, hright, ?_⟩
    rintro x hx y hy rfl
    exact hdisjoint x hx hy
  unfold Store.unlink
  rw [hstore]
  dsimp only
  rw [hsame, hcell]
  by_cases hl : l₂ = []
  · subst hl
    rw [if_neg (by simp [firstOr])]
    exact ⟨hhead, segment_append.2 ⟨hbefore, trivial⟩, hapart⟩
  · have hfirst := firstOr_ne_zero hbehind hl
    have hout : firstOr 0 l₂ ∉ l₁.map Prod.fst := by
      intro hmem
      apply hdisjoint _ hmem
      cases l₂ with
      | nil => contradiction
      | cons x l₂ => exact List.mem_cons_self
    rw [if_pos hfirst]
    refine ⟨hhead, segment_append.2 ⟨hbefore.update hout _, ?_⟩, hapart⟩
    exact hbehind.setPrev hright hl _

theorem Represents.setValue (h : Represents store (l₁ ++ (address, value) :: l₂)) (value' : α) :
    Represents (store.setValue address value') (l₁ ++ (address, value') :: l₂) := by
  obtain ⟨hne, hcell, hbefore, hbehind⟩ := h.split
  obtain ⟨-, -, hleft, hright, -⟩ := h.split_apart
  constructor
  · change store.head = _
    rw [h.head, firstOr_append, firstOr_append]
    rfl
  · refine segment_append.2 ⟨hbefore.update hleft _, hne, ?_, hbehind.update hright _⟩
    simp only [Store.setValue, Store.write, Function.update_self, hcell]
  · have hapart := h.apart
    rw [List.map_append, List.map_cons] at hapart ⊢
    exact hapart

theorem search_eq {before : ℕ} (h : Segment store.cell before 0 l) (test : α → Bool)
    (hsteps : l.length ≤ steps) : store.search test steps (firstOr 0 l) =
      some (firstOr 0 (l.filter fun x => test x.2)) := by
  induction l generalizing before steps with
  | nil => cases steps <;> rfl
  | cons x l ih =>
    obtain ⟨hne, hcell, hrest⟩ := h
    cases steps with
    | zero => simp at hsteps
    | succ steps =>
      change store.search test (steps + 1) x.1 = _
      simp only [Store.search, if_neg hne, hcell]
      cases htest : test x.2 with
      | true => simp [htest, firstOr]
      | false =>
        rw [if_neg Bool.false_ne_true, ih hrest (Nat.le_of_succ_le_succ hsteps)]
        simp [htest]

theorem Represents.search_none (h : Represents store l) {test : α → Bool}
    (hsteps : l.length ≤ steps) (hnone : ∀ x ∈ l, test x.2 = false) :
    store.search test steps store.head = some 0 := by
  have hempty : (l.filter fun x => test x.2) = [] := by
    rw [List.filter_eq_nil_iff]
    exact fun x hx => by simp [hnone x hx]
  rw [h.head, search_eq h.links test hsteps, hempty]
  rfl

theorem Represents.search_some (h : Represents store (l₁ ++ (address, value) :: l₂))
    {test : α → Bool} (hsteps : (l₁ ++ (address, value) :: l₂).length ≤ steps)
    (hbefore : ∀ x ∈ l₁, test x.2 = false) (htest : test value = true) :
    store.search test steps store.head = some address := by
  have hempty : (l₁.filter fun x => test x.2) = [] := by
    rw [List.filter_eq_nil_iff]
    exact fun x hx => by simp [hbefore x hx]
  rw [h.head, search_eq h.links test hsteps, List.filter_append, hempty]
  simp [htest, firstOr]

theorem fold_eq {before : ℕ} (h : Segment store.cell before 0 l) (f : β → α → β) (acc : β)
    (hsteps : l.length ≤ steps) : store.fold f steps (firstOr 0 l) acc =
      some ((l.map Prod.snd).foldl f acc) := by
  induction l generalizing before steps acc with
  | nil => cases steps <;> rfl
  | cons x l ih =>
    obtain ⟨hne, hcell, hrest⟩ := h
    cases steps with
    | zero => simp at hsteps
    | succ steps =>
      change store.fold f (steps + 1) x.1 acc = _
      simp only [Store.fold, if_neg hne, hcell]
      exact ih hrest (f acc x.2) (Nat.le_of_succ_le_succ hsteps)

/-- A store represents one list only. -/
theorem Represents.unique (h : Represents store l) (h' : Represents store l') : l = l' :=
  h.links.unique h'.links (h.head.symm.trans h'.head)

end Operations

end DoublyLinked
