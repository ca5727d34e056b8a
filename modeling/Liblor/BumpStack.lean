import Mathlib

/-!
# Bump allocation in a stack of frames

Pieces are cut from the newest frame in increasing order. A mark remembers a frame, its fill level
and the number of pieces that existed; rewinding to it drops the newer frames and the newer pieces.
The frames, the pieces and the marks are lists with the newest element first.
-/

namespace BumpStack

universe u

structure Frame (ι : Type u) where
  id : ι
  base : ℕ
  used : ℕ

structure Piece where
  start : ℕ
  size : ℕ
  deriving DecidableEq

structure Mark (ι : Type u) where
  frame : Option ι
  used : ℕ
  depth : ℕ

variable {ι : Type u}

/-- The pieces lie between `base` and `top`, each below the one that was cut after it. -/
inductive Packed (base : ℕ) : ℕ → List Piece → Prop where
  | nil {top : ℕ} : Packed base top []
  | cons {top : ℕ} {p : Piece} {ps : List Piece} (hbase : base ≤ p.start)
      (htop : p.start + p.size ≤ top) (hrest : Packed base p.start ps) : Packed base top (p :: ps)

/-- Each frame holds a run of the pieces; newer frames hold newer pieces. -/
inductive Filed : List (Frame ι) → List Piece → Prop where
  | nil : Filed [] []
  | cons {f : Frame ι} {fs : List (Frame ι)} {older : List Piece} (here : List Piece)
      (hpacked : Packed f.base (f.base + f.used) here) (hrest : Filed fs older) :
      Filed (f :: fs) (here ++ older)

/-- The pieces that a mark of this depth keeps. -/
def keep (pieces : List Piece) (depth : ℕ) : List Piece := pieces.drop (pieces.length - depth)

/-- Every mark can be rewound to, and after it every mark that is older. A mark without a frame was
taken before there was any, and so were those before it. -/
inductive MarksOk : List (Frame ι) → List Piece → List (Mark ι) → Prop where
  | zero {frames : List (Frame ι)} {pieces : List Piece} {marks : List (Mark ι)}
      (h : ∀ m ∈ marks, m.frame = none ∧ m.depth = 0) : MarksOk frames pieces marks
  | held {older : List (Frame ι)} {f : Frame ι} {pieces : List Piece} {used depth : ℕ}
      {marks : List (Mark ι)} (newer : List (Frame ι)) (hused : used ≤ f.used)
      (hdepth : depth ≤ pieces.length)
      (hfiled : Filed ({ f with used := used } :: older) (keep pieces depth))
      (holder : MarksOk ({ f with used := used } :: older) (keep pieces depth) marks) :
      MarksOk (newer ++ f :: older) pieces (⟨some f.id, used, depth⟩ :: marks)

section Packed

variable {base top : ℕ} {pieces : List Piece}

theorem Packed.mono {top' : ℕ} (h : Packed base top pieces) (hle : top ≤ top') :
    Packed base top' pieces := by
  cases h with
  | nil => exact .nil
  | cons hbase htop hrest => exact .cons hbase (Nat.le_trans htop hle) hrest

theorem Packed.bounds (h : Packed base top pieces) :
    ∀ p ∈ pieces, base ≤ p.start ∧ p.start + p.size ≤ top := by
  induction h with
  | nil => simp
  | cons hbase htop _ ih =>
      intro q hq
      rcases List.mem_cons.1 hq with rfl | hq
      · exact ⟨hbase, htop⟩
      · obtain ⟨hb, ht⟩ := ih q hq
        exact ⟨hb, by omega⟩

theorem Packed.pairwise (h : Packed base top pieces) :
    pieces.Pairwise fun p q => q.start + q.size ≤ p.start := by
  induction h with
  | nil => exact .nil
  | cons _ _ hrest ih => exact .cons (fun q hq => (hrest.bounds q hq).2) ih

end Packed

section Filed

variable {frames : List (Frame ι)} {pieces : List Piece} {f : Frame ι}

theorem Filed.push (h : Filed frames pieces) (id : ι) (base : ℕ) :
    Filed (⟨id, base, 0⟩ :: frames) pieces :=
  .cons [] .nil h

theorem Filed.bump (h : Filed (f :: frames) pieces) {p : Piece} {used : ℕ}
    (hstart : f.base + f.used ≤ p.start) (hend : p.start + p.size ≤ f.base + used) :
    Filed ({ f with used := used } :: frames) (p :: pieces) := by
  cases h with
  | cons _ hpacked hrest =>
      exact .cons (p :: _)
        (.cons (Nat.le_trans (Nat.le_add_right _ _) hstart) hend (hpacked.mono hstart)) hrest

theorem filed_nil (frames : List (Frame ι)) : Filed frames [] := by
  induction frames with
  | nil => exact .nil
  | cons f frames ih => exact .cons [] .nil ih

theorem Filed.eq_nil (h : Filed ([] : List (Frame ι)) pieces) : pieces = [] := by
  cases h
  rfl

theorem Filed.inside (h : Filed frames pieces) : ∀ p ∈ pieces,
    ∃ f ∈ frames, f.base ≤ p.start ∧ p.start + p.size ≤ f.base + f.used := by
  induction h with
  | nil => simp
  | cons _ hpacked _ ih =>
      intro p hp
      rcases List.mem_append.1 hp with hp | hp
      · exact ⟨_, List.mem_cons_self, hpacked.bounds p hp⟩
      · obtain ⟨f, hf, hin⟩ := ih p hp
        exact ⟨f, List.mem_cons_of_mem _ hf, hin⟩

def Apart (p q : Piece) : Prop := p.start + p.size ≤ q.start ∨ q.start + q.size ≤ p.start

def FramesApart (f g : Frame ι) : Prop :=
  f.base + f.used ≤ g.base ∨ g.base + g.used ≤ f.base

/-- Where the frames do not meet, no two pieces do. -/
theorem Filed.pairwise_apart (h : Filed frames pieces) (hapart : frames.Pairwise FramesApart) :
    pieces.Pairwise Apart := by
  induction h with
  | nil => exact .nil
  | cons _ hpacked hrest ih =>
      obtain ⟨hf, hfs⟩ := List.pairwise_cons.1 hapart
      apply List.pairwise_append.2
      refine ⟨hpacked.pairwise.imp Or.inr, ih hfs, ?_⟩
      intro p hp q hq
      obtain ⟨g, hg, hgstart, hgend⟩ := hrest.inside q hq
      have hp := hpacked.bounds p hp
      have hmeet := hf g hg
      unfold FramesApart at hmeet
      unfold Apart
      omega

end Filed

section MarksOk

variable {frames : List (Frame ι)} {pieces : List Piece} {marks : List (Mark ι)} {f : Frame ι}

theorem keep_cons {p : Piece} {depth : ℕ} (h : depth ≤ pieces.length) :
    keep (p :: pieces) depth = keep pieces depth := by
  unfold keep
  rw [List.length_cons, Nat.sub_add_comm h, List.drop_succ_cons]

@[simp] theorem keep_length : keep pieces pieces.length = pieces := by simp [keep]

@[simp] theorem keep_zero : keep pieces 0 = [] := by simp [keep]

theorem MarksOk.push (h : MarksOk frames pieces marks) : MarksOk (f :: frames) pieces marks := by
  cases h with
  | zero h => exact .zero h
  | held newer hused hdepth hfiled holder =>
      exact .held (f :: newer) hused hdepth hfiled holder

theorem MarksOk.bump (h : MarksOk (f :: frames) pieces marks) {p : Piece} {used : ℕ}
    (hle : f.used ≤ used) : MarksOk ({ f with used := used } :: frames) (p :: pieces) marks := by
  generalize hfs : f :: frames = fs at h
  cases h with
  | zero h => exact .zero h
  | @held older g _ used' depth marks newer hused hdepth hfiled holder =>
      rw [← keep_cons hdepth] at hfiled holder
      have hdepth' : depth ≤ (p :: pieces).length := Nat.le_succ_of_le hdepth
      cases newer with
      | nil =>
          cases hfs
          exact .held [] (f := { f with used := used }) (Nat.le_trans hused hle) hdepth'
            hfiled holder
      | cons n newer =>
          cases hfs
          exact .held ({ f with used := used } :: newer) hused hdepth' hfiled holder

theorem MarksOk.mark (hfiled : Filed frames pieces) (h : MarksOk frames pieces marks) :
    MarksOk frames pieces
      (⟨frames.head?.map Frame.id, (frames.head?.map Frame.used).getD 0,
        pieces.length⟩ :: marks) := by
  cases frames with
  | nil =>
      have hnil := hfiled.eq_nil
      subst hnil
      refine .zero ?_
      intro m hm
      rcases List.mem_cons.1 hm with rfl | hm
      · exact ⟨rfl, rfl⟩
      · generalize hfs : ([] : List (Frame ι)) = fs at h
        cases h with
        | zero h => exact h m hm
        | held => simp at hfs
  | cons f fs =>
      exact .held [] (Nat.le_refl _) (Nat.le_refl _) (by simpa using hfiled)
        (by simpa using h)

theorem length_keep {depth : ℕ} (h : depth ≤ pieces.length) :
    (keep pieces depth).length = depth := by
  unfold keep
  rw [List.length_drop]
  omega

theorem keep_keep {depth depth' : ℕ} (h : depth ≤ pieces.length) (h' : depth' ≤ depth) :
    keep (keep pieces depth) depth' = keep pieces depth' := by
  have hlength := length_keep h
  unfold keep at hlength ⊢
  rw [List.drop_drop, hlength]
  congr 1
  omega

theorem MarksOk.tail {m : Mark ι} (h : MarksOk frames pieces (m :: marks)) :
    MarksOk frames pieces marks := by
  cases h with
  | zero h => exact .zero fun m hm => h m (List.mem_cons_of_mem _ hm)
  | @held older f _ used depth _ newer hused hdepth hfiled holder =>
      generalize hfs : { f with used := used } :: older = fs at holder
      cases holder with
      | zero h => exact .zero h
      | @held older' g _ used' depth' _ newer' hused' hdepth' hfiled' holder' =>
          rw [length_keep hdepth] at hdepth'
          rw [keep_keep hdepth hdepth'] at hfiled' holder'
          cases newer' with
          | nil =>
              cases hfs
              exact .held newer (f := f) (Nat.le_trans hused' hused) (Nat.le_trans hdepth' hdepth)
                hfiled' holder'
          | cons n newer' =>
              cases hfs
              have hheld := MarksOk.held (newer ++ f :: newer') hused'
                (Nat.le_trans hdepth' hdepth) hfiled' holder'
              simpa using hheld

theorem MarksOk.drop (h : MarksOk frames pieces marks) (i : ℕ) :
    MarksOk frames pieces (marks.drop i) := by
  induction i generalizing marks with
  | zero => exact h
  | succ i ih =>
      cases marks with
      | nil => exact h
      | cons m marks => exact ih h.tail

/-- What rewinding to the newest mark finds, and that this mark can be used again. -/
theorem MarksOk.rewind {m : Mark ι} (h : MarksOk frames pieces (m :: marks)) :
    (m.frame = none ∧ m.depth = 0 ∧ ∀ frames, MarksOk frames [] (m :: marks)) ∨
    ∃ newer f older, frames = newer ++ f :: older ∧ m.frame = some f.id ∧ m.used ≤ f.used ∧
      Filed ({ f with used := m.used } :: older) (keep pieces m.depth) ∧
      MarksOk ({ f with used := m.used } :: older) (keep pieces m.depth) (m :: marks) := by
  cases h with
  | zero h =>
      obtain ⟨hframe, hdepth⟩ := h m List.mem_cons_self
      exact Or.inl ⟨hframe, hdepth, fun _ => .zero h⟩
  | @held older f _ used depth _ newer hused hdepth hfiled holder =>
      refine Or.inr ⟨newer, f, older, rfl, rfl, hused, hfiled, ?_⟩
      have hlength := length_keep hdepth
      rw [← keep_keep hdepth (Nat.le_refl _)] at hfiled holder
      exact .held [] (f := { f with used := used }) (Nat.le_refl _)
        (Nat.le_of_eq hlength.symm) hfiled holder

end MarksOk

end BumpStack
