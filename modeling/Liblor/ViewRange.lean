import Liblor.ViewModel
import Liblor.Occurrences

/-!
# What the view operations compute

A view over readable memory is described by the bytes it `Holds`. Every operation on it answers,
with a view whose place in the source and whose bytes are given by its arguments after clamping.
-/

namespace Liblor.StringView

open OwnedString Occurrences

/-- A valid view whose bytes may be read. -/
structure Holds (memory : Memory) (view : LorStringView) (bytes : Bytes) : Prop where
  valid : svIsValid view = true
  read : readBytes memory view.data view.size = some bytes

variable {memory : Memory} {view v w d : LorStringView} {bytes ds : Bytes} {i j n o a : ℕ}

theorem svIsValid_iff : svIsValid view = true ↔ (view.data = 0 → view.size = 0) := by
  simp only [svIsValid, Bool.or_eq_true, bne_iff_ne, ne_eq, beq_iff_eq]
  tauto

theorem readBytes_eq_some_iff : readBytes memory a n = some bytes ↔
    bytes.length = n ∧ ∀ i < n, memory (a + i) = bytes[i]? := by
  induction n generalizing a bytes with
  | zero =>
    simp only [readBytes, Option.some.injEq, List.length_eq_zero_iff]
    constructor
    · intro h
      exact ⟨h.symm, fun i hi => absurd hi (Nat.not_lt_zero i)⟩
    · intro h
      exact h.1.symm
  | succ n ih =>
    simp only [readBytes, Option.bind_eq_bind, Option.bind_eq_some_iff, Option.pure_def,
      Option.some.injEq]
    constructor
    · rintro ⟨value, hvalue, rest, hrest, rfl⟩
      obtain ⟨hlen, hread⟩ := ih.1 hrest
      refine ⟨by rw [List.length_cons, hlen], fun i hi => ?_⟩
      cases i with
      | zero => simpa using hvalue
      | succ i =>
        rw [List.getElem?_cons_succ, ← hread i (by omega)]
        congr 1
        omega
    · rintro ⟨hlen, hread⟩
      cases bytes with
      | nil => simp at hlen
      | cons value rest =>
        refine ⟨value, by simpa using hread 0 (by omega), rest, ih.2 ⟨by simpa using hlen, ?_⟩, rfl⟩
        intro i hi
        have h := hread (i + 1) (by omega)
        rw [List.getElem?_cons_succ] at h
        rw [← h]
        congr 1
        omega

theorem Holds.length (h : Holds memory v bytes) : bytes.length = v.size :=
  (readBytes_eq_some_iff.1 h.read).1

theorem Holds.load (h : Holds memory v bytes) (hi : i < v.size) :
    memory (v.data + i) = bytes[i]? := (readBytes_eq_some_iff.1 h.read).2 i hi

theorem Holds.load_get (h : Holds memory v bytes) (hi : i < bytes.length) :
    memory (v.data + i) = some bytes[i] := by
  rw [h.load (by rw [← h.length]; exact hi), List.getElem?_eq_getElem hi]

theorem holds_init : Holds memory viewInit [] := ⟨by decide, rfl⟩

theorem readBytes_part (h : readBytes memory a n = some bytes) (ho : o + i ≤ n) :
    readBytes memory (a + o) i = some ((bytes.drop o).take i) := by
  obtain ⟨hlen, hread⟩ := readBytes_eq_some_iff.1 h
  refine readBytes_eq_some_iff.2 ⟨by rw [List.length_take, List.length_drop]; omega, ?_⟩
  intro k hk
  rw [List.getElem?_take_of_lt hk, List.getElem?_drop, ← hread (o + k) (by omega), Nat.add_assoc]

/-- The `n` bytes of `view` from `o` on. -/
def subview (view : LorStringView) (o n : ℕ) : LorStringView := ⟨svOffset view o, n⟩

theorem Holds.part (h : Holds memory v bytes) (ho : o + n ≤ v.size) :
    Holds memory (subview v o n) ((bytes.drop o).take n) := by
  have hvalid := svIsValid_iff.1 h.valid
  by_cases hdata : v.data = 0
  · have hsize := hvalid hdata
    obtain rfl : n = 0 := by omega
    refine ⟨svIsValid_iff.2 fun _ => rfl, ?_⟩
    rw [List.take_zero]
    rfl
  · constructor
    · refine svIsValid_iff.2 fun hzero => ?_
      simp only [subview, svOffset, ne_eq, hdata, not_false_eq_true, if_true] at hzero
      omega
    · simp only [subview, svOffset, ne_eq, hdata, not_false_eq_true, if_true]
      exact readBytes_part h.read ho

theorem Holds.rest (h : Holds memory v bytes) (ho : o ≤ v.size) :
    Holds memory (subview v o (v.size - o)) (bytes.drop o) := by
  have hpart := h.part (show o + (v.size - o) ≤ v.size by omega)
  rwa [List.take_of_length_le (by rw [List.length_drop, h.length])] at hpart

theorem Holds.size_ne_zero (hd : Holds memory d ds) : d.size ≠ 0 ↔ ds ≠ [] := by
  rw [← hd.length, ne_eq, ne_eq, List.length_eq_zero_iff]

theorem svSlice_eq_subview (hvalid : svIsValid v = true) (ho : o + n ≤ v.size) :
    svSlice v o n = some (subview v o n) := by
  have hroom : ¬o > v.size := by omega
  have hfit : ¬n > v.size - o := by omega
  have hnull := svIsValid_iff.1 hvalid
  simp only [svSlice, hvalid, Bool.not_true, Bool.false_eq_true, if_false, if_neg hroom,
    subSize_eq (show o ≤ v.size by omega), Option.bind_eq_bind, Option.bind_some, if_neg hfit,
    Option.pure_def, Option.some.injEq, svFromParts, subview]
  refine if_neg fun h => ?_
  simp only [svOffset] at h
  split_ifs at h <;> omega

/-- Offset and size are clamped to the view. -/
theorem svSlice_eq (hvalid : svIsValid v = true) : svSlice v o n =
    some (subview v (min o v.size) (min n (v.size - min o v.size))) := by
  rw [← svSlice_eq_subview hvalid (by omega)]
  have hsub : subSize v.size (min o v.size) = some (v.size - min o v.size) := subSize_eq (by omega)
  have ho : (if o > v.size then v.size else o) = min o v.size := by split_ifs <;> omega
  have hn : (if n > v.size - min o v.size then v.size - min o v.size else n) =
      min n (v.size - min o v.size) := by split_ifs <;> omega
  have ho' : ¬min o v.size > v.size := by omega
  have hn' : ¬min n (v.size - min o v.size) > v.size - min o v.size := by omega
  simp only [svSlice, hvalid, Bool.not_true, Bool.false_eq_true, if_false, ho, hsub,
    Option.bind_eq_bind, Option.bind_some, hn, if_neg ho', if_neg hn']

theorem svTakeLeft_eq (hvalid : svIsValid v = true) :
    svTakeLeft v n = some (subview v 0 (min n v.size)) := by
  unfold svTakeLeft
  rw [svSlice_eq hvalid, Nat.zero_min, Nat.sub_zero]

theorem svTakeRight_eq (hvalid : svIsValid v = true) :
    svTakeRight v n = some (subview v (v.size - min n v.size) (min n v.size)) := by
  have hn : (if n > v.size then v.size else n) = min n v.size := by split_ifs <;> omega
  simp only [svTakeRight, hvalid, Bool.not_true, Bool.false_eq_true, if_false, hn,
    subSize_eq (show min n v.size ≤ v.size by omega), Option.bind_eq_bind, Option.bind_some]
  exact svSlice_eq_subview hvalid (by omega)

theorem svChopLeft_eq (hvalid : svIsValid v = true) : svChopLeft v n =
    some (subview v 0 (min n v.size), subview v (min n v.size) (v.size - min n v.size)) := by
  simp only [svChopLeft, hvalid, Bool.not_true, Bool.false_eq_true, if_false, svTakeLeft_eq hvalid,
    Option.bind_eq_bind, Option.bind_some, subview]
  rw [subSize_eq (show min n v.size ≤ v.size by omega)]
  simp only [Option.bind_some]
  rw [svSlice_eq_subview hvalid (by omega)]
  rfl

theorem subview_zero (v : LorStringView) : subview v 0 n = { v with size := n } := by
  simp only [subview, svOffset]
  split_ifs with h
  · rfl
  · rw [not_not.1 h]

theorem svChopRight_eq (hvalid : svIsValid v = true) : svChopRight v n =
    some (subview v (v.size - min n v.size) (min n v.size),
      subview v 0 (v.size - min n v.size)) := by
  simp only [svChopRight, hvalid, Bool.not_true, Bool.false_eq_true, if_false,
    svTakeRight_eq hvalid, Option.bind_eq_bind, Option.bind_some, subview_zero]
  have hle : (subview v (v.size - min n v.size) (min n v.size)).size ≤ v.size :=
    Nat.min_le_right _ _
  rw [subSize_eq hle]
  rfl

theorem trimLeftLoop_eq (hread : ∀ k, o ≤ k → k < o + n → (memory (a + k)).isSome) :
    ∃ offset, trimLeftLoop memory a n o = some offset ∧ o ≤ offset ∧ offset ≤ o + n := by
  induction n generalizing o with
  | zero => exact ⟨o, rfl, le_rfl, le_rfl⟩
  | succ n ih =>
    obtain ⟨value, hvalue⟩ := Option.isSome_iff_exists.1 (hread o le_rfl (by omega))
    simp only [trimLeftLoop, hvalue, Option.bind_eq_bind, Option.bind_some, Option.pure_def]
    by_cases hspace : asciiSpace value = true
    · obtain ⟨offset, hloop, hle, hlt⟩ := ih (o := o + 1) fun k hk hkn =>
        hread k (by omega) (by omega)
      rw [if_pos hspace]
      exact ⟨offset, hloop, by omega, by omega⟩
    · rw [if_neg hspace]
      exact ⟨o, rfl, le_rfl, by omega⟩

theorem trimRightLoop_eq (hread : ∀ k < n, (memory (a + k)).isSome) :
    ∃ size, trimRightLoop memory a n = some size ∧ size ≤ n := by
  induction n with
  | zero => exact ⟨0, rfl, le_rfl⟩
  | succ n ih =>
    obtain ⟨value, hvalue⟩ := Option.isSome_iff_exists.1 (hread n (Nat.lt_succ_self n))
    simp only [trimRightLoop, hvalue, Option.bind_eq_bind, Option.bind_some, Option.pure_def]
    by_cases hspace : asciiSpace value = true
    · obtain ⟨size, hloop, hle⟩ := ih fun k hk => hread k (by omega)
      rw [if_pos hspace]
      exact ⟨size, hloop, by omega⟩
    · rw [if_neg hspace]
      exact ⟨n + 1, rfl, le_rfl⟩

theorem Holds.readable (h : Holds memory v bytes) (hi : i < v.size) :
    (memory (v.data + i)).isSome := by
  rw [h.load_get (by rw [h.length]; exact hi)]
  rfl

theorem svTrimLeft_eq (h : Holds memory v bytes) :
    ∃ o ≤ v.size, svTrimLeft memory v = some (subview v o (v.size - o)) := by
  have hread : ∀ k, 0 ≤ k → k < 0 + v.size → (memory (v.data + k)).isSome :=
    fun k _ hk => h.readable (by omega)
  obtain ⟨o, hloop, -, hle⟩ := trimLeftLoop_eq hread
  refine ⟨o, by omega, ?_⟩
  simp only [svTrimLeft, h.valid, Bool.not_true, Bool.false_eq_true, if_false, hloop,
    Option.bind_eq_bind, Option.bind_some, subSize_eq (show o ≤ v.size by omega)]
  exact svSlice_eq_subview h.valid (by omega)

theorem svTrimRight_eq (h : Holds memory v bytes) :
    ∃ n ≤ v.size, svTrimRight memory v = some (subview v 0 n) := by
  have hread : ∀ k < v.size, (memory (v.data + k)).isSome := fun k hk => h.readable hk
  obtain ⟨n, hloop, hle⟩ := trimRightLoop_eq hread
  refine ⟨n, hle, ?_⟩
  simp only [svTrimRight, h.valid, Bool.not_true, Bool.false_eq_true, if_false, hloop,
    Option.bind_eq_bind, Option.bind_some]
  exact svSlice_eq_subview h.valid (by omega)

/-- Both ranges are read, and they are equal exactly where the needle occurs. -/
theorem memcmpEqual_eq (h : Holds memory v bytes) (hd : Holds memory d ds)
    (hi : i + d.size ≤ v.size) :
    ∃ same, memcmpEqual memory (v.data + i) d.data d.size = some same ∧
      (same = true ↔ OccursAt ds bytes i) := by
  refine ⟨(bytes.drop i).take d.size == ds, ?_, ?_⟩
  · simp only [memcmpEqual, readBytes_part h.read hi, hd.read, Option.bind_eq_bind,
      Option.bind_some, Option.pure_def]
  · rw [beq_iff_eq, ← hd.length, OccursAt, List.prefix_iff_eq_take, eq_comm]

theorem occursAt_getElem? (hat : OccursAt ds bytes i) (hne : ds ≠ []) : bytes[i]? = ds[0]? := by
  obtain ⟨rest, hrest⟩ := hat
  have h0 : (bytes.drop i)[0]? = ds[0]? := by
    rw [← hrest, List.getElem?_append_left (List.length_pos_iff.2 hne)]
  rwa [List.getElem?_drop, Nat.add_zero] at h0

/-- Up to position `i` nothing was found; `n` positions are left to try. -/
theorem findLoop_spec (h : Holds memory v bytes) (hd : Holds memory d ds) (hne : ds ≠ [])
    (hn : i + n + d.size = v.size + 1) (hbefore : ∀ j < i, ¬OccursAt ds bytes j) :
    ∃ found, findLoop memory v d n i = some found ∧ FirstAt ds bytes found := by
  have hpos : 0 < d.size := by
    rw [← hd.length]
    exact List.length_pos_iff.2 hne
  induction n generalizing i with
  | zero =>
    refine ⟨none, rfl, fun j hat => ?_⟩
    have hbound := hat.add_length_le hne
    rw [h.length, hd.length] at hbound
    exact hbefore j (by omega) hat
  | succ n ih =>
    obtain ⟨value, hvalue⟩ := Option.isSome_iff_exists.1 (h.readable (show i < v.size by omega))
    obtain ⟨first, hfirst⟩ := Option.isSome_iff_exists.1 (hd.readable hpos)
    obtain ⟨same, hsame, hiff⟩ := memcmpEqual_eq h hd (show i + d.size ≤ v.size by omega)
    have hnext : ¬OccursAt ds bytes i →
        ∃ found, findLoop memory v d n (i + 1) = some found ∧ FirstAt ds bytes found := by
      intro hno
      refine ih (by omega) fun j hj => ?_
      rcases Nat.lt_succ_iff_lt_or_eq.1 hj with hlt | rfl
      · exact hbefore j hlt
      · exact hno
    rw [Nat.add_zero] at hfirst
    simp only [findLoop, hvalue, hfirst, hsame, Option.bind_eq_bind, Option.bind_some,
      Option.pure_def]
    by_cases heq : value = first
    · subst heq
      simp only [beq_self_eq_true, if_true]
      by_cases hfound : same = true
      · rw [if_pos hfound]
        exact ⟨some i, rfl, hiff.1 hfound, hbefore⟩
      · rw [if_neg hfound]
        exact hnext fun hat => hfound (hiff.2 hat)
    · have hno : ¬OccursAt ds bytes i := by
        intro hat
        have hbytes := occursAt_getElem? hat hne
        rw [← h.load (by omega), ← hd.load hpos, hvalue, Nat.add_zero, hfirst] at hbytes
        exact heq (Option.some.inj hbytes)
      have hbeq : (value == first) = false := beq_eq_false_iff_ne.2 heq
      simp only [hbeq, Bool.false_eq_true, if_false]
      exact hnext hno

theorem svFind_spec (h : Holds memory v bytes) (hd : Holds memory d ds) (hne : ds ≠ []) :
    ∃ found, svFind memory v d = some found ∧ FirstAt ds bytes found := by
  have hpos : d.size ≠ 0 := by
    rw [← hd.length]
    exact (List.length_pos_iff.2 hne).ne'
  by_cases hlong : d.size > v.size
  · refine ⟨none, by simp [svFind, hlong], fun i hat => ?_⟩
    have hbound := hat.add_length_le hne
    rw [h.length, hd.length] at hbound
    omega
  · obtain ⟨found, hloop, hfirst⟩ := findLoop_spec h hd hne
      (show 0 + (v.size - d.size + 1) + d.size = v.size + 1 by omega)
      fun j hj => absurd hj (Nat.not_lt_zero j)
    refine ⟨found, ?_, hfirst⟩
    simp only [svFind, h.valid, hd.valid, Bool.not_true, Bool.false_or, decide_eq_true_eq,
      if_neg hlong, if_neg hpos, subSize_eq (show d.size ≤ v.size by omega), Option.bind_eq_bind,
      Option.bind_some]
    exact hloop

end Liblor.StringView
