import Liblor.ViewChop

/-!
# Chains of view operations

Views derived from a source view by any chain of operations stay inside the source, and every
operation on them answers.
-/

namespace Liblor.StringView

open OwnedString Occurrences

variable {memory : Memory} {source view v w d : LorStringView} {bytes ds : Bytes} {i n o : ℕ}

inductive ViewCall where
  | slice (offset size : ℕ)
  | takeLeft (size : ℕ)
  | takeRight (size : ℕ)
  | chopLeft (size : ℕ)
  | chopRight (size : ℕ)
  | trim
  | trimLeft
  | trimRight
  | split (delimiter : LorStringView)
  | chop (delimiter : LorStringView)
  deriving DecidableEq, Repr

/-- Every view that the call returns, stores, or leaves in its argument. -/
def ViewCall.run (memory : Memory) (view : LorStringView) : ViewCall → Option (List LorStringView)
  | slice offset size => (svSlice view offset size).map fun result => [result]
  | takeLeft size => (svTakeLeft view size).map fun result => [result]
  | takeRight size => (svTakeRight view size).map fun result => [result]
  | chopLeft size => (svChopLeft view size).map fun (result, view) => [result, view]
  | chopRight size => (svChopRight view size).map fun (result, view) => [result, view]
  | trim => (svTrim memory view).map fun result => [result]
  | trimLeft => (svTrimLeft memory view).map fun result => [result]
  | trimRight => (svTrimRight memory view).map fun result => [result]
  | split delimiter =>
    (svSplit memory view delimiter).map fun (_, before, after) => [before, after]
  | chop delimiter => (svChop memory view delimiter).map fun (_, view, part) => [view, part]

/-- A delimiter is a valid view over bytes that may be read. -/
def ViewCall.Allowed (memory : Memory) : ViewCall → Prop
  | split delimiter => ∃ ds, Holds memory delimiter ds
  | chop delimiter => ∃ ds, Holds memory delimiter ds
  | _ => True

/-- The views that some chain of calls produces from `source`. -/
inductive Derived (memory : Memory) (source : LorStringView) : LorStringView → Prop where
  | source : Derived memory source source
  | call {view result : LorStringView} {results : List LorStringView} {c : ViewCall}
      (h : Derived memory source view) (hc : c.Allowed memory)
      (hrun : c.run memory view = some results) (hresult : result ∈ results) :
      Derived memory source result

/-- The empty initializer view, or a contiguous sub-range of the source. -/
def Within (source view : LorStringView) : Prop :=
  view = viewInit ∨
    (source.data ≤ view.data ∧ view.data + view.size ≤ source.data + source.size)

theorem Within.refl (v : LorStringView) : Within v v := Or.inr ⟨le_rfl, le_rfl⟩

theorem Within.part (hv : svIsValid v = true) (h : Within source v) (ho : o + n ≤ v.size) :
    Within source (subview v o n) := by
  have hnull := svIsValid_iff.1 hv
  by_cases hdata : v.data = 0
  · left
    obtain rfl : n = 0 := by
      have hsize := hnull hdata
      omega
    simp only [subview, svOffset, hdata, ne_eq, not_true_eq_false, if_false, viewInit]
  · rcases h with hinit | ⟨hlow, hhigh⟩
    · rw [hinit] at hdata
      exact absurd rfl hdata
    · right
      simp only [subview, svOffset, ne_eq, hdata, not_false_eq_true, if_true]
      constructor <;> omega

/-- A view of the kind every call produces. -/
def Sound (memory : Memory) (source view : LorStringView) : Prop :=
  (∃ bytes, Holds memory view bytes) ∧ Within source view

theorem sound_init : Sound memory source viewInit := ⟨⟨[], holds_init⟩, Or.inl rfl⟩

theorem Sound.part (h : Sound memory source v) (ho : o + n ≤ v.size) :
    Sound memory source (subview v o n) := by
  obtain ⟨⟨bytes, hbytes⟩, hwithin⟩ := h
  exact ⟨⟨_, hbytes.part ho⟩, hwithin.part hbytes.valid ho⟩

theorem svSplit_empty (hd : d.size = 0) : svSplit memory v d = some (false, v, viewInit) := by
  simp only [svSplit, hd, ne_eq, not_true_eq_false, if_false, Option.bind_eq_bind,
    Option.bind_some, Option.pure_def]

theorem svChop_empty (hd : d.size = 0) : svChop memory v d = some (false, v, viewInit) := by
  simp only [svChop, hd, beq_self_eq_true, Bool.or_true, if_true]

theorem ViewCall.run_sound {c : ViewCall} (h : Sound memory source v) (hc : c.Allowed memory) :
    ∃ results, c.run memory v = some results ∧ ∀ result ∈ results, Sound memory source result := by
  obtain ⟨⟨bytes, hbytes⟩, -⟩ := id h
  have hv := hbytes.valid
  cases c with
  | slice offset size =>
    refine ⟨_, by rw [run, svSlice_eq hv, Option.map_some], ?_⟩
    simpa using h.part (by omega)
  | takeLeft size =>
    refine ⟨_, by rw [run, svTakeLeft_eq hv, Option.map_some], ?_⟩
    simpa using h.part (by omega)
  | takeRight size =>
    refine ⟨_, by rw [run, svTakeRight_eq hv, Option.map_some], ?_⟩
    simpa using h.part (by omega)
  | chopLeft size =>
    refine ⟨_, by rw [run, svChopLeft_eq hv, Option.map_some], ?_⟩
    simpa using ⟨h.part (by omega), h.part (by omega)⟩
  | chopRight size =>
    refine ⟨_, by rw [run, svChopRight_eq hv, Option.map_some], ?_⟩
    simpa using ⟨h.part (by omega), h.part (by omega)⟩
  | trimLeft =>
    obtain ⟨o, ho, htrim⟩ := svTrimLeft_eq hbytes
    refine ⟨_, by rw [run, htrim, Option.map_some], ?_⟩
    simpa using h.part (by omega)
  | trimRight =>
    obtain ⟨n, hn, htrim⟩ := svTrimRight_eq hbytes
    refine ⟨_, by rw [run, htrim, Option.map_some], ?_⟩
    simpa using h.part (by omega)
  | trim =>
    obtain ⟨o, ho, hleft⟩ := svTrimLeft_eq hbytes
    have hmid := h.part (show o + (v.size - o) ≤ v.size by omega)
    obtain ⟨bytes', hbytes'⟩ := hmid.1
    obtain ⟨n, hn, hright⟩ := svTrimRight_eq hbytes'
    refine ⟨_, by rw [run, svTrim, hleft, Option.bind_eq_bind, Option.bind_some, hright,
      Option.map_some], ?_⟩
    simpa using hmid.part (by omega)
  | split delimiter =>
    obtain ⟨ds, hds⟩ := hc
    by_cases hsize : delimiter.size = 0
    · refine ⟨_, by rw [run, svSplit_empty hsize, Option.map_some], ?_⟩
      simpa using ⟨h, sound_init⟩
    · have hne := hds.size_ne_zero.1 hsize
      obtain ⟨found, hfirst, hsplit⟩ := svSplit_spec hbytes hds hne
      refine ⟨_, by rw [run, hsplit, Option.map_some], ?_⟩
      cases found with
      | none => simpa [splitAt] using ⟨h, sound_init⟩
      | some i =>
        have hbound := FirstAt.bound hbytes hds hne hfirst
        simpa [splitAt] using ⟨h.part (by omega), h.part (by omega)⟩
  | chop delimiter =>
    obtain ⟨ds, hds⟩ := hc
    by_cases hsize : delimiter.size = 0
    · refine ⟨_, by rw [run, svChop_empty hsize, Option.map_some], ?_⟩
      simpa using ⟨h, sound_init⟩
    · have hne := hds.size_ne_zero.1 hsize
      obtain ⟨found, hfirst, hchop⟩ := svChop_spec hbytes hds hne
      refine ⟨_, by rw [run, hchop, Option.map_some], ?_⟩
      cases found with
      | none => simpa [chopAt] using ⟨h.part (by omega), h⟩
      | some i =>
        have hbound := FirstAt.bound hbytes hds hne hfirst
        simpa [chopAt] using ⟨h.part (by omega), h.part (by omega)⟩

theorem Derived.sound (hsource : Holds memory source bytes) (h : Derived memory source v) :
    Sound memory source v := by
  induction h with
  | source => exact ⟨⟨bytes, hsource⟩, Within.refl source⟩
  | call _ hc hrun hresult ih =>
    obtain ⟨results, hrun', hsound⟩ := ViewCall.run_sound ih hc
    obtain rfl := Option.some.inj (hrun'.symm.trans hrun)
    exact hsound _ hresult

/-- The two parts of a view, side by side. -/
theorem Holds.parts_append {k : ℕ} (h : Holds memory v bytes) (hk : k ≤ v.size) :
    ∃ left right, Holds memory (subview v 0 k) left ∧
      Holds memory (subview v k (v.size - k)) right ∧ left ++ right = bytes := by
  have hleft := h.part (show 0 + k ≤ v.size by omega)
  rw [List.drop_zero] at hleft
  exact ⟨_, _, hleft, h.rest hk, List.take_append_drop k bytes⟩

/-- Whatever chain of operations is applied to a view and to the views derived from it, every view
is valid and stays inside the source, every further operation answers, so that no subtraction wraps
around and no byte outside is read, and the two results of a chop fill the view it was applied to.
-/
theorem derived_views_stay_inside (hsource : Holds memory source bytes)
    (h : Derived memory source v) :
    svIsValid v = true ∧ Within source v ∧
      (∀ c : ViewCall, c.Allowed memory → (c.run memory v).isSome) ∧
      ∃ content, Holds memory v content ∧
        (∀ size, ∃ result rest left right, svChopLeft v size = some (result, rest) ∧
          Holds memory result left ∧ Holds memory rest right ∧ left ++ right = content ∧
          left.length = min size v.size) ∧
        (∀ size, ∃ result rest left right, svChopRight v size = some (result, rest) ∧
          Holds memory result right ∧ Holds memory rest left ∧ left ++ right = content ∧
          right.length = min size v.size) := by
  obtain ⟨⟨content, hcontent⟩, hwithin⟩ := h.sound hsource
  refine ⟨hcontent.valid, hwithin, ?_, content, hcontent, ?_, ?_⟩
  · intro c hc
    obtain ⟨results, hrun, -⟩ := ViewCall.run_sound ⟨⟨content, hcontent⟩, hwithin⟩ hc
    rw [hrun]
    rfl
  · intro size
    obtain ⟨left, right, hleft, hright, happend⟩ :=
      hcontent.parts_append (show min size v.size ≤ v.size by omega)
    exact ⟨_, _, left, right, svChopLeft_eq hcontent.valid, hleft, hright, happend, hleft.length⟩
  · intro size
    obtain ⟨left, right, hleft, hright, happend⟩ :=
      hcontent.parts_append (show v.size - min size v.size ≤ v.size by omega)
    rw [show v.size - (v.size - min size v.size) = min size v.size by omega] at hright
    exact ⟨_, _, left, right, svChopRight_eq hcontent.valid, hright, hleft, happend, hright.length⟩

theorem derived_views_stay_inside_trimmed :
    Within ⟨100, 4⟩ ⟨102, 2⟩ ∧
      (ViewCall.run commaMemory ⟨102, 2⟩ (.chop ⟨200, 1⟩)).isSome := by
  have hview : Holds commaMemory ⟨100, 4⟩ [0x61, 0x2C, 0x2C, 0x62] := ⟨by decide, by decide⟩
  have hcomma : ViewCall.Allowed commaMemory (.chop ⟨200, 1⟩) :=
    ⟨[0x2C], by decide, by decide⟩
  have hrun : ViewCall.run commaMemory ⟨100, 4⟩ (.chop ⟨200, 1⟩) =
      some [⟨102, 2⟩, ⟨100, 1⟩] := by decide
  have hderived : Derived commaMemory ⟨100, 4⟩ ⟨102, 2⟩ :=
    Derived.call Derived.source hcomma hrun List.mem_cons_self
  obtain ⟨_, hwithin, hanswers, _⟩ := derived_views_stay_inside hview hderived
  exact ⟨hwithin, hanswers _ hcomma⟩

end Liblor.StringView
