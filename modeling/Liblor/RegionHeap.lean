import Mathlib
import Liblor.LittleEndian

/-!
# A heap of regions with checked access

A system hands out regions of addresses and takes them back. Only the bytes of a region that are
open can be accessed. An access to any other byte has no result, and neither has giving back what is
not held, so an action that returns has not met undefined behaviour.
-/

namespace RegionHeap

structure Region where
  base : ℕ
  size : ℕ
  opened : ℕ
  deriving DecidableEq

structure Heap where
  cells : ℕ → UInt8
  regions : List Region

namespace Heap

def Accessible (h : Heap) (p n : ℕ) : Prop :=
  ∃ r ∈ h.regions, r.base ≤ p ∧ p + n ≤ r.base + r.opened

instance (h : Heap) (p n : ℕ) : Decidable (h.Accessible p n) :=
  inferInstanceAs (Decidable (∃ r ∈ h.regions, r.base ≤ p ∧ p + n ≤ r.base + r.opened))

def load (h : Heap) (p n : ℕ) : List UInt8 := (List.range n).map fun i => h.cells (p + i)

def store (h : Heap) (p : ℕ) (bytes : List UInt8) : Heap :=
  { h with cells := fun a => if p ≤ a then (bytes[a - p]?).getD (h.cells a) else h.cells a }

def word (h : Heap) (p : ℕ) : ℕ := LittleEndian.decode (h.load p 8)

def storeWord (h : Heap) (p value : ℕ) : Heap := h.store p (LittleEndian.encode 8 value)

end Heap

abbrev Action := StateT Heap Option

def storeBytes (p : ℕ) (bytes : List UInt8) : Action Unit := fun h =>
  if h.Accessible p bytes.length then some ((), h.store p bytes) else none

def loadWord (p : ℕ) : Action ℕ := fun h => if h.Accessible p 8 then some (h.word p, h) else none

def storeWord (p value : ℕ) : Action Unit := storeBytes p (LittleEndian.encode 8 value)

/-- The system hands out a region. -/
def hold (r : Region) : Action Unit := fun h => some ((), { h with regions := r :: h.regions })

/-- The region that `holds` is given back. -/
def release (holds : Region → Bool) : Action Unit := fun h =>
  if h.regions.any holds then some ((), { h with regions := h.regions.eraseP holds }) else none

def Region.extends (r : Region) (p n : ℕ) : Bool :=
  decide (r.base ≤ p ∧ p ≤ r.base + r.opened ∧ p + n ≤ r.base + r.size)

/-- The bytes from `p` on are opened. They continue those of a region that are open already. -/
def openUp (p n : ℕ) : Action Unit := fun h =>
  if h.regions.any fun r => r.extends p n then
    some ((), { h with
      regions := h.regions.map fun r =>
        if r.extends p n then { r with opened := max r.opened (p + n - r.base) } else r })
  else none

section Cells

variable {h h' : Heap} {p q n value : ℕ} {bytes : List UInt8}

@[simp] theorem regions_store : (h.store p bytes).regions = h.regions := rfl

@[simp] theorem regions_storeWord : (h.storeWord p value).regions = h.regions := rfl

@[simp] theorem length_load : (h.load p n).length = n := by
  simp only [Heap.load, List.length_map, List.length_range]

theorem cells_store_apart {a : ℕ} (ha : a < p ∨ p + bytes.length ≤ a) :
    (h.store p bytes).cells a = h.cells a := by
  unfold Heap.store
  dsimp only
  split_ifs with hle
  · rw [List.getElem?_eq_none (by omega)]
    rfl
  · rfl

theorem cells_storeWord_apart {a : ℕ} (ha : a < p ∨ p + 8 ≤ a) :
    (h.storeWord p value).cells a = h.cells a :=
  cells_store_apart (by rwa [LittleEndian.length_encode])

theorem cells_store_same {i : ℕ} (hi : i < bytes.length) :
    (h.store p bytes).cells (p + i) = bytes[i] := by
  unfold Heap.store
  dsimp only
  rw [if_pos (Nat.le_add_right p i), Nat.add_sub_cancel_left, List.getElem?_eq_getElem hi]
  rfl

theorem load_congr (hcells : ∀ i, i < n → h'.cells (p + i) = h.cells (p + i)) :
    h'.load p n = h.load p n :=
  List.map_congr_left fun i hi => hcells i (List.mem_range.1 hi)

theorem word_congr (hcells : ∀ i, i < 8 → h'.cells (p + i) = h.cells (p + i)) :
    h'.word p = h.word p :=
  congrArg LittleEndian.decode (load_congr hcells)

theorem load_store_same : (h.store p bytes).load p bytes.length = bytes := by
  apply List.ext_getElem
  · rw [length_load]
  · intro i hi hi'
    simp only [Heap.load, List.getElem_map, List.getElem_range]
    exact cells_store_same hi'

theorem cells_of_load (hload : h.load p bytes.length = bytes) {k : ℕ} {b : UInt8}
    (hb : bytes[k]? = some b) : h.cells (p + k) = b := by
  obtain ⟨hk, rfl⟩ := List.getElem?_eq_some_iff.1 hb
  have hcell : (h.load p bytes.length)[k]? = some bytes[k] := by rw [hload, hb]
  simpa [Heap.load, hk] using hcell

theorem word_storeWord_same (hvalue : value < 2 ^ 64) : (h.storeWord p value).word p = value := by
  have hload : (h.storeWord p value).load p 8 = LittleEndian.encode 8 value := by
    have hstored : (h.storeWord p value).load p (LittleEndian.encode 8 value).length =
        LittleEndian.encode 8 value := load_store_same
    rwa [LittleEndian.length_encode] at hstored
  unfold Heap.word
  rw [hload, LittleEndian.decode_encode_of_lt (by omega)]

theorem word_storeWord_apart (hq : q + 8 ≤ p ∨ p + 8 ≤ q) :
    (h.storeWord p value).word q = h.word q :=
  word_congr fun i hi => cells_storeWord_apart (by omega)

/-- These words stand one after the other from `p` on. -/
def WordsAt (h : Heap) (p : ℕ) (values : List ℕ) : Prop :=
  ∀ i v, values[i]? = some v → h.word (p + 8 * i) = v

theorem wordsAt_range (h : Heap) (p n : ℕ) :
    WordsAt h p ((List.range n).map fun i => h.word (p + 8 * i)) := by
  intro i v hv
  rw [List.getElem?_map, Option.map_eq_some_iff] at hv
  obtain ⟨j, hj, rfl⟩ := hv
  obtain ⟨hlt, rfl⟩ := List.getElem?_eq_some_iff.1 hj
  rw [List.getElem_range]

theorem WordsAt.congr {values : List ℕ} (hwords : WordsAt h p values)
    (hcells : ∀ a, p ≤ a → a < p + 8 * values.length → h'.cells a = h.cells a) :
    WordsAt h' p values := by
  intro i v hv
  have hi : i < values.length := (List.getElem?_eq_some_iff.1 hv).1
  rw [← hwords i v hv]
  exact word_congr fun j hj => hcells _ (by omega) (by omega)

theorem WordsAt.set {values : List ℕ} (hwords : WordsAt h p values) {k : ℕ}
    (hvalue : value < 2 ^ 64) :
    WordsAt (h.storeWord (p + 8 * k) value) p (values.set k value) := by
  intro i v hv
  rw [List.getElem?_set] at hv
  split_ifs at hv with hki hk
  · subst k
    cases hv
    exact word_storeWord_same hvalue
  · rw [← hwords i v hv]
    exact word_storeWord_apart (by omega)

end Cells

/-! ## Running an action -/

section Returns

variable {α β : Type} {h h' h'' : Heap} {p n value : ℕ} {bytes : List UInt8}

/-- The action has this result. -/
def Returns (m : Action α) (h : Heap) (a : α) (h' : Heap) : Prop := m h = some (a, h')

theorem Returns.pure (a : α) (h : Heap) : Returns (Pure.pure a) h a h := rfl

theorem Returns.bind {m : Action α} {f : α → Action β} {a : α} {b : β} (hm : Returns m h a h')
    (hf : Returns (f a) h' b h'') : Returns (m >>= f) h b h'' := by
  change (m h).bind (fun result => f result.1 result.2) = some (b, h'')
  rw [hm]
  exact hf

theorem Returns.unique {m : Action α} {a b : α} (ha : Returns m h a h') (hb : Returns m h b h'') :
    a = b ∧ h' = h'' := by
  unfold Returns at ha hb
  rw [ha] at hb
  exact Prod.mk.inj (Option.some.inj hb)

theorem Returns.of_bind {m : Action α} {f : α → Action β} {b : β}
    (hreturns : Returns (m >>= f) h b h'') :
    ∃ a h', Returns m h a h' ∧ Returns (f a) h' b h'' := by
  change (m h).bind (fun result => f result.1 result.2) = some (b, h'') at hreturns
  obtain ⟨⟨a, h'⟩, hm, hf⟩ := Option.bind_eq_some_iff.1 hreturns
  exact ⟨a, h', hm, hf⟩

/-- A loop that may take one step more has the same result. -/
def Settles (m : ℕ → Action α) : Prop :=
  ∀ fuel h a h', Returns (m fuel) h a h' → Returns (m (fuel + 1)) h a h'

theorem Settles.bind {m : ℕ → Action α} {f : ℕ → α → Action β} (hm : Settles m)
    (hf : ∀ a, Settles fun fuel => f fuel a) : Settles fun fuel => m fuel >>= f fuel := by
  intro fuel h b h'' hreturns
  obtain ⟨a, h', hfirst, hrest⟩ := hreturns.of_bind
  exact (hm fuel h a h' hfirst).bind (hf a fuel h' b h'' hrest)

theorem settles_const (m : Action α) : Settles fun _ => m := fun _ _ _ _ hreturns => hreturns

/-- A loop settles if a round keeps what the remaining rounds have settled. -/
theorem settles_of_rounds {f : ℕ → β → Action α} (hzero : ∀ x, f 0 x = failure)
    (hround : ∀ fuel, (∀ x h a h', Returns (f fuel x) h a h' → Returns (f (fuel + 1) x) h a h') →
      ∀ x h a h', Returns (f (fuel + 1) x) h a h' → Returns (f (fuel + 2) x) h a h') (x : β) :
    Settles fun fuel => f fuel x := by
  intro fuel
  induction fuel generalizing x with
  | zero =>
    intro h a h' hreturns
    change Returns (f 0 x) h a h' at hreturns
    rw [hzero x] at hreturns
    cases hreturns
  | succ fuel ih => exact hround fuel ih x

theorem Settles.le {m : ℕ → Action α} (hm : Settles m) {fuel fuel' : ℕ} (hle : fuel ≤ fuel') {a : α}
    (hreturns : Returns (m fuel) h a h') : Returns (m fuel') h a h' := by
  induction hle with
  | refl => exact hreturns
  | step _ ih => exact hm _ _ _ _ ih

theorem Settles.unique {m : ℕ → Action α} (hm : Settles m) {fuel fuel' : ℕ} {a b : α}
    (ha : Returns (m fuel) h a h') (hb : Returns (m fuel') h b h'') : a = b ∧ h' = h'' :=
  (hm.le (Nat.le_max_left fuel fuel') ha).unique (hm.le (Nat.le_max_right fuel fuel') hb)

theorem returns_loadWord (haccess : h.Accessible p 8) : Returns (loadWord p) h (h.word p) h :=
  if_pos haccess

theorem returns_storeBytes (haccess : h.Accessible p bytes.length) :
    Returns (storeBytes p bytes) h () (h.store p bytes) :=
  if_pos haccess

theorem returns_storeWord (haccess : h.Accessible p 8) :
    Returns (storeWord p value) h () (h.storeWord p value) :=
  returns_storeBytes (by rwa [LittleEndian.length_encode])

theorem returns_hold (r : Region) (h : Heap) :
    Returns (hold r) h () { h with regions := r :: h.regions } := rfl

theorem returns_release {holds : Region → Bool} {r : Region} {regions : List Region}
    (hregions : h.regions = r :: regions) (hr : holds r = true) :
    Returns (release holds) h () { h with regions := regions } := by
  unfold Returns release
  rw [hregions, if_pos (by simp [hr]), List.eraseP_cons_of_pos hr]

/-- No other region has its open bytes continued. -/
theorem returns_openUp {r : Region} {regions : List Region} (hregions : h.regions = r :: regions)
    (hr : r.extends p n = true) (hothers : ∀ r' ∈ regions, r'.extends p n = false) :
    Returns (openUp p n) h ()
      { h with regions := { r with opened := max r.opened (p + n - r.base) } :: regions } := by
  unfold Returns openUp
  rw [hregions, if_pos (by simp [hr]), List.map_cons, if_pos hr]
  have hsame : (regions.map fun r' => if r'.extends p n then
      { r' with opened := max r'.opened (p + n - r'.base) } else r') = regions := by
    rw [List.map_congr_left (g := id), List.map_id]
    intro r' hr'
    rw [hothers r' hr']
    rfl
  rw [hsame]

end Returns

end RegionHeap
