import Mathlib

/-!
# Pruning a sequence of nested zones

A word opens zones, closes them and has points in between. Each position is labelled with its index,
and scanning the word matches a closing position with the newest zone that is open. A pruning leaves
out closing positions without a zone, some points, and some zones with everything inside them.
-/

namespace NestedZones

inductive Kind where
  | opening
  | closing
  | point
  deriving DecidableEq, Repr

/-- The zones that are open, newest first, the pairs that have been matched and the closing
positions that found no zone. -/
structure Scan where
  stack : List ℕ
  pairs : List (ℕ × ℕ)
  strays : List ℕ

def Scan.next (s : Scan) (e : Kind × ℕ) : Scan :=
  match e.1, s.stack with
  | .opening, stack => { s with stack := e.2 :: stack }
  | .point, _ => s
  | .closing, [] => { s with strays := s.strays ++ [e.2] }
  | .closing, b :: stack => { s with stack := stack, pairs := s.pairs ++ [(b, e.2)] }

def scan (word : List (Kind × ℕ)) : Scan := word.foldl Scan.next ⟨[], [], []⟩

/-- Each position with its index. -/
def indexed (word : List Kind) : List (Kind × ℕ) := word.zipIdx

/-- What a pruning keeps of a word while zones are open; a zone is given by the index of its opening
and by whether it is kept. Inside a zone that is left out nothing is kept, and a closing position is
kept with its zone. -/
inductive Pruned : List (ℕ × Bool) → List Kind → List (Kind × ℕ) → Prop where
  | nil : Pruned [] [] []
  | stray {word : List Kind} {kept : List (Kind × ℕ)} (h : Pruned [] word kept) :
      Pruned [] (word ++ [Kind.closing]) kept
  | dropPoint {zones : List (ℕ × Bool)} {word : List Kind} {kept : List (Kind × ℕ)}
      (h : Pruned zones word kept) : Pruned zones (word ++ [Kind.point]) kept
  | keepPoint {zones : List (ℕ × Bool)} {word : List Kind} {kept : List (Kind × ℕ)}
      (hzones : ∀ z ∈ zones, z.2) (h : Pruned zones word kept) :
      Pruned zones (word ++ [Kind.point]) (kept ++ [(Kind.point, word.length)])
  | dropZone {zones : List (ℕ × Bool)} {word : List Kind} {kept : List (Kind × ℕ)}
      (h : Pruned zones word kept) :
      Pruned ((word.length, false) :: zones) (word ++ [Kind.opening]) kept
  | keepZone {zones : List (ℕ × Bool)} {word : List Kind} {kept : List (Kind × ℕ)}
      (hzones : ∀ z ∈ zones, z.2) (h : Pruned zones word kept) :
      Pruned ((word.length, true) :: zones) (word ++ [Kind.opening])
        (kept ++ [(Kind.opening, word.length)])
  | endDropped {b : ℕ} {zones : List (ℕ × Bool)} {word : List Kind} {kept : List (Kind × ℕ)}
      (h : Pruned ((b, false) :: zones) word kept) : Pruned zones (word ++ [Kind.closing]) kept
  | endKept {b : ℕ} {zones : List (ℕ × Bool)} {word : List Kind} {kept : List (Kind × ℕ)}
      (h : Pruned ((b, true) :: zones) word kept) :
      Pruned zones (word ++ [Kind.closing]) (kept ++ [(Kind.closing, word.length)])

/-- How the open zones change at position `n`, which is kept or not. -/
inductive ZoneStep (n : ℕ) : Kind → Bool → List (ℕ × Bool) → List (ℕ × Bool) → Prop where
  | stray : ZoneStep n .closing false [] []
  | dropPoint {zones : List (ℕ × Bool)} : ZoneStep n .point false zones zones
  | keepPoint {zones : List (ℕ × Bool)} (hzones : ∀ z ∈ zones, z.2) :
      ZoneStep n .point true zones zones
  | dropZone {zones : List (ℕ × Bool)} : ZoneStep n .opening false zones ((n, false) :: zones)
  | keepZone {zones : List (ℕ × Bool)} (hzones : ∀ z ∈ zones, z.2) :
      ZoneStep n .opening true zones ((n, true) :: zones)
  | endDropped {b : ℕ} {zones : List (ℕ × Bool)} :
      ZoneStep n .closing false ((b, false) :: zones) zones
  | endKept {b : ℕ} {zones : List (ℕ × Bool)} (hzones : ∀ z ∈ zones, z.2) :
      ZoneStep n .closing true ((b, true) :: zones) zones

/-- A word in which every zone is closed. -/
inductive Balanced : List Kind → Prop where
  | nil : Balanced []
  | point {word : List Kind} (h : Balanced word) : Balanced (word ++ [Kind.point])
  | zone {word inner : List Kind} (h : Balanced word) (hinner : Balanced inner) :
      Balanced (word ++ .opening :: inner ++ [Kind.closing])

/-- A word in which this number of zones is open. -/
inductive Unclosed : ℕ → List Kind → Prop where
  | balanced {word : List Kind} (h : Balanced word) : Unclosed 0 word
  | zone {n : ℕ} {word inner : List Kind} (h : Unclosed n word) (hinner : Balanced inner) :
      Unclosed (n + 1) (word ++ .opening :: inner)

/-- The positions that go: those that close no zone, the points given, and the zones given, which
reach from their opening to the closing that matches it or else to the end. -/
def LeftOut (s : Scan) (points zones : List ℕ) (i : ℕ) : Prop :=
  i ∈ s.strays ∨ i ∈ points ∨ ∃ b ∈ zones, b ≤ i ∧ ∀ e, (b, e) ∈ s.pairs → i ≤ e

/-- What is kept is the word without some points, some zones and the closings of no zone. -/
def IsPruning (word : List Kind) (kept : List (Kind × ℕ)) : Prop :=
  ∃ points zones : List ℕ, (∀ i ∈ points, word[i]? = some .point) ∧
    (∀ b ∈ zones, word[b]? = some .opening) ∧ kept.Sublist (indexed word) ∧
    ∀ kind i, word[i]? = some kind →
      ((kind, i) ∈ kept ↔ ¬ LeftOut (scan (indexed word)) points zones i)

section Scan

theorem scan_concat (word : List (Kind × ℕ)) (e : Kind × ℕ) :
    scan (word ++ [e]) = (scan word).next e := by
  simp [scan, List.foldl_append]

theorem indexed_concat (word : List Kind) (kind : Kind) :
    indexed (word ++ [kind]) = indexed word ++ [(kind, word.length)] := by
  simp [indexed, List.zipIdx_append]

theorem mem_indexed {word : List Kind} {kind : Kind} {i : ℕ} :
    (kind, i) ∈ indexed word ↔ word[i]? = some kind := List.mem_zipIdx_iff_getElem?

variable {s : Scan} {i b : ℕ} {stack : List ℕ}

theorem next_opening : s.next (.opening, i) = { s with stack := i :: s.stack } := rfl

theorem next_point : s.next (.point, i) = s := rfl

theorem next_stray (h : s.stack = []) :
    s.next (.closing, i) = { s with strays := s.strays ++ [i] } := by
  simp only [Scan.next, h]

theorem next_closing (h : s.stack = b :: stack) :
    s.next (.closing, i) = { s with stack := stack, pairs := s.pairs ++ [(b, i)] } := by
  simp only [Scan.next, h]

/-- The indices of a scan lie below the length of the word, and an opening that has been matched is
not open. -/
structure Scan.Sound (s : Scan) (n : ℕ) : Prop where
  stack : ∀ b ∈ s.stack, b < n
  pairs : ∀ p ∈ s.pairs, p.1 < n ∧ p.2 < n
  strays : ∀ i ∈ s.strays, i < n
  fresh : ∀ p ∈ s.pairs, p.1 ∉ s.stack
  nodup : s.stack.Nodup

theorem Scan.Sound.mono {n m : ℕ} (h : s.Sound n) (hnm : n ≤ m) : s.Sound m where
  stack := fun b hb => (h.stack b hb).trans_le hnm
  pairs := fun p hp => ⟨(h.pairs p hp).1.trans_le hnm, (h.pairs p hp).2.trans_le hnm⟩
  strays := fun i hi => (h.strays i hi).trans_le hnm
  fresh := h.fresh
  nodup := h.nodup

theorem Scan.Sound.next {n : ℕ} (h : s.Sound n) (kind : Kind) :
    (s.next (kind, n)).Sound (n + 1) := by
  have hle := h.mono (Nat.le_succ n)
  cases kind with
  | opening =>
      rw [next_opening]
      refine ⟨?_, hle.pairs, hle.strays, ?_, ?_⟩
      · intro b hb
        rcases List.mem_cons.1 hb with rfl | hb
        · exact Nat.lt_succ_self _
        · exact hle.stack b hb
      · intro p hp hmem
        rcases List.mem_cons.1 hmem with heq | hmem
        · have hlt := (h.pairs p hp).1
          omega
        · exact h.fresh p hp hmem
      · exact List.nodup_cons.2 ⟨fun hmem => Nat.lt_irrefl n (h.stack n hmem), h.nodup⟩
  | point => exact hle
  | closing =>
      rcases hstack : s.stack with _ | ⟨b, stack⟩
      · rw [next_stray hstack]
        refine ⟨hle.stack, hle.pairs, ?_, hle.fresh, hle.nodup⟩
        intro i hi
        rcases List.mem_append.1 hi with hi | hi
        · exact hle.strays i hi
        · rw [List.mem_singleton.1 hi]
          exact Nat.lt_succ_self _
      · rw [next_closing hstack]
        have hnodup := h.nodup
        rw [hstack, List.nodup_cons] at hnodup
        have hsub : ∀ b' ∈ stack, b' ∈ s.stack := by
          intro b' hb'
          rw [hstack]
          exact List.mem_cons_of_mem _ hb'
        have hb : b < n + 1 := hle.stack b (by rw [hstack]; exact List.mem_cons_self)
        refine ⟨fun b' hb' => hle.stack b' (hsub b' hb'), ?_, hle.strays, ?_, hnodup.2⟩
        · intro p hp
          rcases List.mem_append.1 hp with hp | hp
          · exact hle.pairs p hp
          · rw [List.mem_singleton.1 hp]
            exact ⟨hb, Nat.lt_succ_self _⟩
        · intro p hp
          rcases List.mem_append.1 hp with hp | hp
          · exact fun hmem => h.fresh p hp (hsub _ hmem)
          · rw [List.mem_singleton.1 hp]
            exact hnodup.1

theorem scan_sound (word : List Kind) : (scan (indexed word)).Sound word.length := by
  induction word using List.reverseRecOn with
  | nil => exact ⟨by simp [indexed, scan], by simp [indexed, scan], by simp [indexed, scan],
      by simp [indexed, scan], by simp [indexed, scan]⟩
  | append_singleton word kind ih =>
      rw [indexed_concat, scan_concat, List.length_append]
      exact ih.next kind

end Scan

variable {zones : List (ℕ × Bool)} {word : List Kind} {kept : List (Kind × ℕ)}

/-- What is kept with the next position, when it is kept or not. -/
def keepIf (isKept : Bool) (kept : List (Kind × ℕ)) (e : Kind × ℕ) : List (Kind × ℕ) :=
  if isKept then kept ++ [e] else kept

theorem Pruned.step {zones' : List (ℕ × Bool)} {kind : Kind} {isKept : Bool}
    (h : Pruned zones word kept) (hstep : ZoneStep word.length kind isKept zones zones') :
    Pruned zones' (word ++ [kind]) (keepIf isKept kept (kind, word.length)) := by
  cases hstep with
  | stray => exact .stray h
  | dropPoint => exact .dropPoint h
  | keepPoint hzones => exact .keepPoint hzones h
  | dropZone => exact .dropZone h
  | keepZone hzones => exact .keepZone hzones h
  | endDropped => exact .endDropped h
  | endKept => exact .endKept h

section Matched

/-- How the scans of a word and of a pruning agree. Every pair of the pruning is a pair of the word,
and a pair of the word whose opening is kept is kept as a pair. -/
structure Matched (zones : List (ℕ × Bool)) (word : List Kind) (kept : List (Kind × ℕ)) : Prop where
  stack : (scan (indexed word)).stack = zones.map Prod.fst
  keptStack : (scan kept).stack = (zones.filter Prod.snd).map Prod.fst
  sublist : kept.Sublist (indexed word)
  pairs : ∀ p ∈ (scan kept).pairs, p ∈ (scan (indexed word)).pairs
  ends : ∀ p ∈ (scan (indexed word)).pairs, (.opening, p.1) ∈ kept →
    p ∈ (scan kept).pairs ∧ (.closing, p.2) ∈ kept
  dropped : ∀ b, (b, false) ∈ zones → ∀ kind, (kind, b) ∉ kept

theorem Matched.below (h : Matched zones word kept) : ∀ z ∈ zones, z.1 < word.length := by
  intro z hz
  apply (scan_sound word).stack
  rw [h.stack]
  exact List.mem_map_of_mem hz

theorem index_lt (h : kept.Sublist (indexed word)) {kind : Kind} {i : ℕ} (hi : (kind, i) ∈ kept) :
    i < word.length := by
  have hmem := mem_indexed.1 (h.subset hi)
  exact (List.getElem?_eq_some_iff.1 hmem).1

theorem not_mem_length (h : kept.Sublist (indexed word)) (kind : Kind) :
    (kind, word.length) ∉ kept :=
  fun hmem => Nat.lt_irrefl _ (index_lt h hmem)

theorem sublist_concat (h : kept.Sublist (indexed word)) (kind : Kind) :
    kept.Sublist (indexed (word ++ [kind])) := by
  rw [indexed_concat]
  exact h.trans (List.sublist_append_left _ _)

theorem concat_sublist (h : kept.Sublist (indexed word)) (kind : Kind) :
    (kept ++ [(kind, word.length)]).Sublist (indexed (word ++ [kind])) := by
  rw [indexed_concat]
  exact h.append (List.Sublist.refl _)

theorem Matched.ends_append (h : Matched zones word kept) (kind : Kind) :
    ∀ p ∈ (scan (indexed word)).pairs, (.opening, p.1) ∈ kept ++ [(kind, word.length)] →
      p ∈ (scan kept).pairs ∧ (.closing, p.2) ∈ kept ++ [(kind, word.length)] := by
  intro p hp hopening
  have hlt := ((scan_sound word).pairs p hp).1
  rcases List.mem_append.1 hopening with hopening | hlast
  · obtain ⟨hpair, hclosing⟩ := h.ends p hp hopening
    exact ⟨hpair, List.mem_append_left _ hclosing⟩
  · simp only [List.mem_singleton, Prod.mk.injEq] at hlast
    omega

theorem Matched.stray (h : Matched [] word kept) : Matched [] (word ++ [Kind.closing]) kept := by
  have hnext : scan (indexed (word ++ [Kind.closing])) = { scan (indexed word) with
      strays := (scan (indexed word)).strays ++ [word.length] } := by
    rw [indexed_concat, scan_concat, next_stray h.stack]
  refine ⟨?_, h.keptStack, sublist_concat h.sublist _, ?_, ?_, by simp⟩
  all_goals rw [hnext]
  · exact h.stack
  · exact h.pairs
  · exact h.ends

theorem Matched.dropPoint (h : Matched zones word kept) :
    Matched zones (word ++ [Kind.point]) kept := by
  have hnext : scan (indexed (word ++ [Kind.point])) = scan (indexed word) := by
    rw [indexed_concat, scan_concat, next_point]
  refine ⟨?_, h.keptStack, sublist_concat h.sublist _, ?_, ?_, h.dropped⟩
  all_goals rw [hnext]
  · exact h.stack
  · exact h.pairs
  · exact h.ends

theorem Matched.keepPoint (hzones : ∀ z ∈ zones, z.2) (h : Matched zones word kept) :
    Matched zones (word ++ [Kind.point]) (kept ++ [(Kind.point, word.length)]) := by
  have hnext : scan (indexed (word ++ [Kind.point])) = scan (indexed word) := by
    rw [indexed_concat, scan_concat, next_point]
  have hkept : scan (kept ++ [(Kind.point, word.length)]) = scan kept := by
    rw [scan_concat, next_point]
  refine ⟨?_, ?_, concat_sublist h.sublist _, ?_, ?_, ?_⟩
  · rw [hnext]
    exact h.stack
  · rw [hkept]
    exact h.keptStack
  · rw [hnext, hkept]
    exact h.pairs
  · rw [hnext, hkept]
    exact h.ends_append _
  · intro b hb
    have hfalse := hzones _ hb
    simp at hfalse

theorem Matched.dropZone (h : Matched zones word kept) :
    Matched ((word.length, false) :: zones) (word ++ [Kind.opening]) kept := by
  have hnext : scan (indexed (word ++ [Kind.opening])) = { scan (indexed word) with
      stack := word.length :: (scan (indexed word)).stack } := by
    rw [indexed_concat, scan_concat, next_opening]
  refine ⟨?_, h.keptStack, sublist_concat h.sublist _, ?_, ?_, ?_⟩
  · rw [hnext, h.stack]
    rfl
  · rw [hnext]
    exact h.pairs
  · rw [hnext]
    exact h.ends
  · intro b hb kind
    rcases List.mem_cons.1 hb with heq | hb
    · cases heq
      exact not_mem_length h.sublist kind
    · exact h.dropped b hb kind

theorem Matched.keepZone (hzones : ∀ z ∈ zones, z.2) (h : Matched zones word kept) :
    Matched ((word.length, true) :: zones) (word ++ [Kind.opening])
      (kept ++ [(Kind.opening, word.length)]) := by
  have hnext : scan (indexed (word ++ [Kind.opening])) = { scan (indexed word) with
      stack := word.length :: (scan (indexed word)).stack } := by
    rw [indexed_concat, scan_concat, next_opening]
  have hkept : scan (kept ++ [(Kind.opening, word.length)]) = { scan kept with
      stack := word.length :: (scan kept).stack } := by
    rw [scan_concat, next_opening]
  refine ⟨?_, ?_, concat_sublist h.sublist _, ?_, ?_, ?_⟩
  · rw [hnext, h.stack]
    rfl
  · rw [hkept, h.keptStack]
    rfl
  · rw [hnext, hkept]
    exact h.pairs
  · rw [hnext, hkept]
    exact h.ends_append _
  · intro b hb
    rcases List.mem_cons.1 hb with heq | hb
    · simp at heq
    · have hfalse := hzones _ hb
      simp at hfalse

theorem Matched.endDropped {b : ℕ} (h : Matched ((b, false) :: zones) word kept) :
    Matched zones (word ++ [Kind.closing]) kept := by
  have hnext : scan (indexed (word ++ [Kind.closing])) = { scan (indexed word) with
      stack := zones.map Prod.fst
      pairs := (scan (indexed word)).pairs ++ [(b, word.length)] } := by
    rw [indexed_concat, scan_concat, next_closing h.stack]
  refine ⟨?_, h.keptStack, sublist_concat h.sublist _, ?_, ?_, ?_⟩
  · rw [hnext]
  · rw [hnext]
    exact fun p hp => List.mem_append_left _ (h.pairs p hp)
  · rw [hnext]
    intro p hp hopening
    rcases List.mem_append.1 hp with hp | hp
    · exact h.ends p hp hopening
    · rw [List.mem_singleton.1 hp] at hopening
      exact absurd hopening (h.dropped b List.mem_cons_self _)
  · exact fun b' hb' => h.dropped b' (List.mem_cons_of_mem _ hb')

theorem Matched.endKept {b : ℕ} (h : Matched ((b, true) :: zones) word kept) :
    Matched zones (word ++ [Kind.closing]) (kept ++ [(Kind.closing, word.length)]) := by
  have hnext : scan (indexed (word ++ [Kind.closing])) = { scan (indexed word) with
      stack := zones.map Prod.fst
      pairs := (scan (indexed word)).pairs ++ [(b, word.length)] } := by
    rw [indexed_concat, scan_concat, next_closing h.stack]
  have hkept : scan (kept ++ [(Kind.closing, word.length)]) = { scan kept with
      stack := (zones.filter Prod.snd).map Prod.fst
      pairs := (scan kept).pairs ++ [(b, word.length)] } := by
    rw [scan_concat, next_closing h.keptStack]
  refine ⟨?_, ?_, concat_sublist h.sublist _, ?_, ?_, ?_⟩
  · rw [hnext]
  · rw [hkept]
  · rw [hnext, hkept]
    intro p hp
    rcases List.mem_append.1 hp with hp | hp
    · exact List.mem_append_left _ (h.pairs p hp)
    · exact List.mem_append_right _ hp
  · rw [hnext, hkept]
    intro p hp hopening
    rcases List.mem_append.1 hp with hp | hp
    · obtain ⟨hpair, hclosing⟩ := h.ends_append .closing p hp hopening
      exact ⟨List.mem_append_left _ hpair, hclosing⟩
    · rw [List.mem_singleton.1 hp]
      exact ⟨List.mem_append_right _ List.mem_cons_self,
        List.mem_append_right _ List.mem_cons_self⟩
  · intro b' hb' kind hmem
    rcases List.mem_append.1 hmem with hmem | hmem
    · exact h.dropped b' (List.mem_cons_of_mem _ hb') kind hmem
    · have hlt := h.below _ (List.mem_cons_of_mem _ hb')
      simp only [List.mem_singleton, Prod.mk.injEq] at hmem
      omega

theorem Pruned.matched (h : Pruned zones word kept) : Matched zones word kept := by
  induction h with
  | nil => exact ⟨rfl, rfl, .slnil, by simp [scan], by simp [indexed, scan], by simp⟩
  | stray _ ih => exact ih.stray
  | dropPoint _ ih => exact ih.dropPoint
  | keepPoint hzones _ ih => exact ih.keepPoint hzones
  | dropZone _ ih => exact ih.dropZone
  | keepZone hzones _ ih => exact ih.keepZone hzones
  | endDropped _ ih => exact ih.endDropped
  | endKept _ ih => exact ih.endKept

end Matched

section Unclosed

variable {n : ℕ} {stream : List Kind}

theorem Unclosed.point (h : Unclosed n stream) : Unclosed n (stream ++ [Kind.point]) := by
  cases h with
  | balanced h => exact .balanced h.point
  | zone h hinner =>
      rw [List.append_assoc]
      exact .zone h hinner.point

theorem Unclosed.opening (h : Unclosed n stream) : Unclosed (n + 1) (stream ++ [Kind.opening]) :=
  .zone h .nil

theorem Unclosed.append_zone {inner : List Kind} (h : Unclosed n stream) (hinner : Balanced inner) :
    Unclosed n (stream ++ .opening :: inner ++ [Kind.closing]) := by
  cases h with
  | balanced h => exact .balanced (h.zone hinner)
  | zone h hfirst =>
      have hzone := Unclosed.zone h (hfirst.zone hinner)
      simpa only [List.append_assoc, List.cons_append] using hzone

theorem Unclosed.closing (h : Unclosed (n + 1) stream) : Unclosed n (stream ++ [Kind.closing]) := by
  cases h with
  | zone h hinner => exact h.append_zone hinner

theorem Unclosed.close (h : Unclosed n stream) :
    Balanced (stream ++ List.replicate n .closing) := by
  induction n generalizing stream with
  | zero =>
      cases h with
      | balanced h => simpa using h
  | succ n ih =>
      have hclosed := ih h.closing
      rwa [List.append_assoc, List.singleton_append] at hclosed

theorem Pruned.unclosed (h : Pruned zones word kept) :
    Unclosed (zones.filter Prod.snd).length (kept.map Prod.fst) := by
  induction h with
  | nil => exact .balanced .nil
  | stray _ ih => exact ih
  | dropPoint _ ih => exact ih
  | keepPoint _ _ ih =>
      rw [List.map_append]
      exact ih.point
  | dropZone _ ih => exact ih
  | keepZone _ _ ih =>
      rw [List.map_append]
      exact ih.opening
  | endDropped _ ih => exact ih
  | endKept _ ih =>
      rw [List.map_append]
      exact ih.closing

end Unclosed

section LeftOut

variable {s : Scan} {n i b e : ℕ} {kind : Kind} {points points' gone gone' : List ℕ}

theorem mem_strays_next (hi : i < n) : i ∈ (s.next (kind, n)).strays ↔ i ∈ s.strays := by
  cases kind with
  | opening => rw [next_opening]
  | point => rw [next_point]
  | closing =>
      rcases hstack : s.stack with _ | ⟨b, stack⟩
      · rw [next_stray hstack, List.mem_append, List.mem_singleton]
        constructor
        · rintro (hmem | rfl)
          · exact hmem
          · exact absurd hi (Nat.lt_irrefl _)
        · exact Or.inl
      · rw [next_closing hstack]

theorem pairs_next (s : Scan) (kind : Kind) (n : ℕ) : (s.next (kind, n)).pairs = s.pairs ∨
    ∃ b ∈ s.stack, kind = .closing ∧ (s.next (kind, n)).pairs = s.pairs ++ [(b, n)] := by
  cases kind with
  | opening => exact Or.inl rfl
  | point => exact Or.inl rfl
  | closing =>
      rcases hstack : s.stack with _ | ⟨b, stack⟩
      · rw [next_stray hstack]
        exact Or.inl rfl
      · rw [next_closing hstack]
        exact Or.inr ⟨b, List.mem_cons_self, rfl, rfl⟩

theorem le_pairs_next (hi : i ≤ n) :
    (∀ e, (b, e) ∈ (s.next (kind, n)).pairs → i ≤ e) ↔ ∀ e, (b, e) ∈ s.pairs → i ≤ e := by
  rcases pairs_next s kind n with hsame | ⟨b', -, -, hnew⟩
  · rw [hsame]
  · rw [hnew]
    constructor
    · exact fun h e he => h e (List.mem_append_left _ he)
    · intro h e he
      rcases List.mem_append.1 he with he | he
      · exact h e he
      · simp only [List.mem_singleton, Prod.mk.injEq] at he
        omega

theorem leftOut_next (hi : i < n) (hpoints : ∀ j < n, j ∈ points' ↔ j ∈ points)
    (hgone : ∀ j < n, j ∈ gone' ↔ j ∈ gone) :
    LeftOut (s.next (kind, n)) points' gone' i ↔ LeftOut s points gone i := by
  have hzone : (∃ b ∈ gone', b ≤ i ∧ ∀ e, (b, e) ∈ (s.next (kind, n)).pairs → i ≤ e) ↔
      ∃ b ∈ gone, b ≤ i ∧ ∀ e, (b, e) ∈ s.pairs → i ≤ e := by
    constructor
    · rintro ⟨b, hb, hbi, hend⟩
      exact ⟨b, (hgone b (hbi.trans_lt hi)).1 hb, hbi, (le_pairs_next hi.le).1 hend⟩
    · rintro ⟨b, hb, hbi, hend⟩
      exact ⟨b, (hgone b (hbi.trans_lt hi)).2 hb, hbi, (le_pairs_next hi.le).2 hend⟩
  rw [LeftOut, LeftOut, mem_strays_next hi, hpoints i hi, hzone]

/-- The points and zones that go when a pruning leaves these zones open. -/
structure LeavesOut (zones : List (ℕ × Bool)) (word : List Kind) (kept : List (Kind × ℕ))
    (points gone : List ℕ) : Prop where
  flags : zones.Pairwise fun newer older => newer.2 → older.2
  point_of_mem : ∀ i ∈ points, word[i]? = some .point
  opening_of_mem : ∀ b ∈ gone, word[b]? = some .opening
  gone_of_open : ∀ b, (b, false) ∈ zones → b ∈ gone
  open_or_closed : ∀ b ∈ gone, (b, false) ∈ zones ∨ ∃ e, (b, e) ∈ (scan (indexed word)).pairs
  kept : ∀ kind i, word[i]? = some kind →
    ((kind, i) ∈ kept ↔ ¬ LeftOut (scan (indexed word)) points gone i)

theorem getElem?_concat_of_some (h : word[i]? = some kind) (last : Kind) :
    (word ++ [last])[i]? = some kind := by
  rw [List.getElem?_append_left (List.getElem?_eq_some_iff.1 h).1, h]

theorem lt_of_some (h : word[i]? = some kind) : i < word.length :=
  (List.getElem?_eq_some_iff.1 h).1

theorem mem_append_last (hi : i < n) (l : List ℕ) : i ∈ l ++ [n] ↔ i ∈ l := by
  simp [hi.ne]

/-- One more position: what is to show is that the new position is kept exactly when it is not left
out. -/
theorem LeavesOut.kept_concat {kept' : List (Kind × ℕ)} (last : Kind)
    (h : LeavesOut zones word kept points gone)
    (hpoints : ∀ j < word.length, j ∈ points' ↔ j ∈ points)
    (hgone : ∀ j < word.length, j ∈ gone' ↔ j ∈ gone)
    (hkept : ∀ kind, ∀ j < word.length, (kind, j) ∈ kept' ↔ (kind, j) ∈ kept)
    (hlast : (last, word.length) ∈ kept' ↔
      ¬ LeftOut ((scan (indexed word)).next (last, word.length)) points' gone' word.length) :
    ∀ kind i, (word ++ [last])[i]? = some kind →
      ((kind, i) ∈ kept' ↔ ¬ LeftOut (scan (indexed (word ++ [last]))) points' gone' i) := by
  intro kind i hi
  rw [indexed_concat, scan_concat]
  rcases Nat.lt_or_ge i word.length with hlt | hge
  · rw [List.getElem?_append_left hlt] at hi
    rw [hkept kind i hlt, h.kept kind i hi, leftOut_next hlt hpoints hgone]
  · have heq : i = word.length := by
      have hlt := lt_of_some hi
      rw [List.length_append, List.length_singleton] at hlt
      omega
    subst heq
    rw [List.getElem?_concat_length] at hi
    cases hi
    exact hlast

/-- The new position lies in a zone that goes exactly when such a zone is open, or begins or ends
here. -/
theorem LeavesOut.in_zone (last : Kind) (h : LeavesOut zones word kept points gone)
    (hzone : ∃ b ∈ gone, b ≤ word.length ∧
      ∀ e, (b, e) ∈ ((scan (indexed word)).next (last, word.length)).pairs → word.length ≤ e) :
    ∃ b, (b, false) ∈ zones := by
  obtain ⟨b, hb, -, hend⟩ := hzone
  rcases h.open_or_closed b hb with hopen | ⟨e, he⟩
  · exact ⟨b, hopen⟩
  · have hle := (le_pairs_next le_rfl).1 hend e he
    have hlt := ((scan_sound word).pairs _ he).2
    exact absurd hle (Nat.not_le.2 hlt)

theorem LeavesOut.last_kept (last : Kind) (h : LeavesOut zones word kept points gone)
    (hstrays : ((scan (indexed word)).next (last, word.length)).strays =
      (scan (indexed word)).strays)
    (hzones : ∀ z ∈ zones, z.2) :
    (last, word.length) ∈ kept ++ [(last, word.length)] ↔
      ¬ LeftOut ((scan (indexed word)).next (last, word.length)) points gone word.length := by
  refine iff_of_true (List.mem_append_right _ List.mem_cons_self) ?_
  rintro (hstray | hpoint | hzone)
  · rw [hstrays] at hstray
    exact Nat.lt_irrefl _ ((scan_sound word).strays _ hstray)
  · exact Nat.lt_irrefl _ (lt_of_some (h.point_of_mem _ hpoint))
  · obtain ⟨b, hb⟩ := h.in_zone last hzone
    have hfalse := hzones _ hb
    simp at hfalse

theorem mem_kept_concat (kind last : Kind) (hi : i < n) :
    (kind, i) ∈ kept ++ [(last, n)] ↔ (kind, i) ∈ kept := by
  simp [hi.ne]

theorem open_or_closed_concat (last : Kind)
    (h : (b, false) ∈ zones ∨ ∃ e, (b, e) ∈ (scan (indexed word)).pairs) :
    (b, false) ∈ zones ∨ ∃ e, (b, e) ∈ (scan (indexed (word ++ [last]))).pairs := by
  rcases h with hopen | ⟨e, he⟩
  · exact Or.inl hopen
  · rw [indexed_concat, scan_concat]
    rcases pairs_next (scan (indexed word)) last word.length with hsame | ⟨b', -, -, hnew⟩
    · rw [hsame]
      exact Or.inr ⟨e, he⟩
    · rw [hnew]
      exact Or.inr ⟨e, List.mem_append_left _ he⟩

theorem LeavesOut.stray (h : LeavesOut [] word kept points gone) (hm : Matched [] word kept) :
    LeavesOut [] (word ++ [Kind.closing]) kept points gone where
  flags := h.flags
  point_of_mem := fun i hi => getElem?_concat_of_some (h.point_of_mem i hi) _
  opening_of_mem := fun b hb => getElem?_concat_of_some (h.opening_of_mem b hb) _
  gone_of_open := h.gone_of_open
  open_or_closed := fun b hb => open_or_closed_concat _ (h.open_or_closed b hb)
  kept := by
    refine h.kept_concat _ (fun _ _ => Iff.rfl) (fun _ _ => Iff.rfl) (fun _ _ _ => Iff.rfl) ?_
    refine iff_of_false (not_mem_length hm.sublist _) (not_not.2 (Or.inl ?_))
    rw [next_stray hm.stack]
    exact List.mem_append_right _ List.mem_cons_self

theorem LeavesOut.dropPoint (h : LeavesOut zones word kept points gone)
    (hm : Matched zones word kept) :
    LeavesOut zones (word ++ [Kind.point]) kept (points ++ [word.length]) gone where
  flags := h.flags
  point_of_mem := by
    intro i hi
    rcases List.mem_append.1 hi with hi | hi
    · exact getElem?_concat_of_some (h.point_of_mem i hi) _
    · rw [List.mem_singleton.1 hi]
      exact List.getElem?_concat_length
  opening_of_mem := fun b hb => getElem?_concat_of_some (h.opening_of_mem b hb) _
  gone_of_open := h.gone_of_open
  open_or_closed := fun b hb => open_or_closed_concat _ (h.open_or_closed b hb)
  kept := by
    refine h.kept_concat _ (fun _ hj => mem_append_last hj _) (fun _ _ => Iff.rfl)
      (fun _ _ _ => Iff.rfl) ?_
    exact iff_of_false (not_mem_length hm.sublist _)
      (not_not.2 (Or.inr (Or.inl (List.mem_append_right _ List.mem_cons_self))))

theorem LeavesOut.keepPoint (hzones : ∀ z ∈ zones, z.2)
    (h : LeavesOut zones word kept points gone) :
    LeavesOut zones (word ++ [Kind.point]) (kept ++ [(Kind.point, word.length)]) points gone where
  flags := h.flags
  point_of_mem := fun i hi => getElem?_concat_of_some (h.point_of_mem i hi) _
  opening_of_mem := fun b hb => getElem?_concat_of_some (h.opening_of_mem b hb) _
  gone_of_open := h.gone_of_open
  open_or_closed := fun b hb => open_or_closed_concat _ (h.open_or_closed b hb)
  kept := h.kept_concat _ (fun _ _ => Iff.rfl) (fun _ _ => Iff.rfl)
    (fun kind _ hj => mem_kept_concat kind _ hj) (h.last_kept _ rfl hzones)

theorem LeavesOut.dropZone (h : LeavesOut zones word kept points gone)
    (hm : Matched zones word kept) :
    LeavesOut ((word.length, false) :: zones) (word ++ [Kind.opening]) kept points
      (gone ++ [word.length]) where
  flags := List.pairwise_cons.2 ⟨by simp, h.flags⟩
  point_of_mem := fun i hi => getElem?_concat_of_some (h.point_of_mem i hi) _
  opening_of_mem := by
    intro b hb
    rcases List.mem_append.1 hb with hb | hb
    · exact getElem?_concat_of_some (h.opening_of_mem b hb) _
    · rw [List.mem_singleton.1 hb]
      exact List.getElem?_concat_length
  gone_of_open := by
    intro b hb
    rcases List.mem_cons.1 hb with heq | hb
    · cases heq
      exact List.mem_append_right _ List.mem_cons_self
    · exact List.mem_append_left _ (h.gone_of_open b hb)
  open_or_closed := by
    intro b hb
    rcases List.mem_append.1 hb with hb | hb
    · rcases open_or_closed_concat .opening (h.open_or_closed b hb) with hopen | hclosed
      · exact Or.inl (List.mem_cons_of_mem _ hopen)
      · exact Or.inr hclosed
    · rw [List.mem_singleton.1 hb]
      exact Or.inl List.mem_cons_self
  kept := by
    refine h.kept_concat _ (fun _ _ => Iff.rfl) (fun _ hj => mem_append_last hj _)
      (fun _ _ _ => Iff.rfl) ?_
    refine iff_of_false (not_mem_length hm.sublist _) (not_not.2 (Or.inr (Or.inr ?_)))
    refine ⟨word.length, List.mem_append_right _ List.mem_cons_self, le_rfl, ?_⟩
    rw [le_pairs_next le_rfl]
    exact fun e he => absurd ((scan_sound word).pairs _ he).1 (Nat.lt_irrefl _)

theorem LeavesOut.keepZone (hzones : ∀ z ∈ zones, z.2)
    (h : LeavesOut zones word kept points gone) :
    LeavesOut ((word.length, true) :: zones) (word ++ [Kind.opening])
      (kept ++ [(Kind.opening, word.length)]) points gone where
  flags := List.pairwise_cons.2 ⟨fun z hz _ => hzones z hz, h.flags⟩
  point_of_mem := fun i hi => getElem?_concat_of_some (h.point_of_mem i hi) _
  opening_of_mem := fun b hb => getElem?_concat_of_some (h.opening_of_mem b hb) _
  gone_of_open := by
    intro b hb
    rcases List.mem_cons.1 hb with heq | hb
    · simp at heq
    · exact h.gone_of_open b hb
  open_or_closed := by
    intro b hb
    rcases open_or_closed_concat .opening (h.open_or_closed b hb) with hopen | hclosed
    · exact Or.inl (List.mem_cons_of_mem _ hopen)
    · exact Or.inr hclosed
  kept := h.kept_concat _ (fun _ _ => Iff.rfl) (fun _ _ => Iff.rfl)
    (fun kind _ hj => mem_kept_concat kind _ hj) (h.last_kept _ rfl hzones)

theorem LeavesOut.endDropped (h : LeavesOut ((b, false) :: zones) word kept points gone)
    (hm : Matched ((b, false) :: zones) word kept) :
    LeavesOut zones (word ++ [Kind.closing]) kept points gone where
  flags := (List.pairwise_cons.1 h.flags).2
  point_of_mem := fun i hi => getElem?_concat_of_some (h.point_of_mem i hi) _
  opening_of_mem := fun b' hb' => getElem?_concat_of_some (h.opening_of_mem b' hb') _
  gone_of_open := fun b' hb' => h.gone_of_open b' (List.mem_cons_of_mem _ hb')
  open_or_closed := by
    intro b' hb'
    rcases open_or_closed_concat .closing (h.open_or_closed b' hb') with hopen | hclosed
    · rcases List.mem_cons.1 hopen with heq | hopen
      · cases heq
        rw [indexed_concat, scan_concat, next_closing hm.stack]
        exact Or.inr ⟨word.length, List.mem_append_right _ List.mem_cons_self⟩
      · exact Or.inl hopen
    · exact Or.inr hclosed
  kept := by
    refine h.kept_concat _ (fun _ _ => Iff.rfl) (fun _ _ => Iff.rfl) (fun _ _ _ => Iff.rfl) ?_
    refine iff_of_false (not_mem_length hm.sublist _) (not_not.2 (Or.inr (Or.inr ?_)))
    have hopen : b ∈ (scan (indexed word)).stack := by
      rw [hm.stack]
      exact List.mem_cons_self
    refine ⟨b, h.gone_of_open b List.mem_cons_self, ((scan_sound word).stack b hopen).le, ?_⟩
    rw [le_pairs_next le_rfl]
    exact fun e he => absurd hopen ((scan_sound word).fresh _ he)

theorem LeavesOut.endKept (h : LeavesOut ((b, true) :: zones) word kept points gone)
    (hm : Matched ((b, true) :: zones) word kept) :
    LeavesOut zones (word ++ [Kind.closing]) (kept ++ [(Kind.closing, word.length)])
      points gone where
  flags := (List.pairwise_cons.1 h.flags).2
  point_of_mem := fun i hi => getElem?_concat_of_some (h.point_of_mem i hi) _
  opening_of_mem := fun b' hb' => getElem?_concat_of_some (h.opening_of_mem b' hb') _
  gone_of_open := fun b' hb' => h.gone_of_open b' (List.mem_cons_of_mem _ hb')
  open_or_closed := by
    intro b' hb'
    rcases open_or_closed_concat .closing (h.open_or_closed b' hb') with hopen | hclosed
    · rcases List.mem_cons.1 hopen with heq | hopen
      · simp at heq
      · exact Or.inl hopen
    · exact Or.inr hclosed
  kept := by
    have hzones : ∀ z ∈ (b, true) :: zones, z.2 := by
      intro z hz
      rcases List.mem_cons.1 hz with rfl | hz
      · rfl
      · exact (List.pairwise_cons.1 h.flags).1 z hz rfl
    refine h.kept_concat _ (fun _ _ => Iff.rfl) (fun _ _ => Iff.rfl)
      (fun kind _ hj => mem_kept_concat kind _ hj) (h.last_kept _ ?_ hzones)
    rw [next_closing hm.stack]

theorem Pruned.leavesOut (h : Pruned zones word kept) :
    ∃ points gone, LeavesOut zones word kept points gone := by
  induction h with
  | nil => exact ⟨[], [], .nil, by simp, by simp, by simp, by simp, by simp⟩
  | stray h ih =>
      obtain ⟨points, gone, hout⟩ := ih
      exact ⟨_, _, hout.stray h.matched⟩
  | dropPoint h ih =>
      obtain ⟨points, gone, hout⟩ := ih
      exact ⟨_, _, hout.dropPoint h.matched⟩
  | keepPoint hzones _ ih =>
      obtain ⟨points, gone, hout⟩ := ih
      exact ⟨_, _, hout.keepPoint hzones⟩
  | dropZone h ih =>
      obtain ⟨points, gone, hout⟩ := ih
      exact ⟨_, _, hout.dropZone h.matched⟩
  | keepZone hzones _ ih =>
      obtain ⟨points, gone, hout⟩ := ih
      exact ⟨_, _, hout.keepZone hzones⟩
  | endDropped h ih =>
      obtain ⟨points, gone, hout⟩ := ih
      exact ⟨_, _, hout.endDropped h.matched⟩
  | endKept h ih =>
      obtain ⟨points, gone, hout⟩ := ih
      exact ⟨_, _, hout.endKept h.matched⟩

theorem Pruned.isPruning (h : Pruned zones word kept) : IsPruning word kept := by
  obtain ⟨points, gone, hout⟩ := h.leavesOut
  exact ⟨points, gone, hout.point_of_mem, hout.opening_of_mem, h.matched.sublist, hout.kept⟩

end LeftOut

end NestedZones
