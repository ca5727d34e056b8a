import Liblor.ViewRange

/-!
# Chopping a view

Calling `lor_sv_chop` until it answers zero splits the bytes of a view at the leftmost occurrences
of the delimiter that do not overlap.
-/

namespace Liblor.StringView

open OwnedString Occurrences

variable {memory : Memory} {view v w d : LorStringView} {bytes ds : Bytes} {i n : ℕ}

/-- What `lor_sv_split` answers when the search answered `found`. -/
def splitAt (v : LorStringView) (dsize : ℕ) : Option ℕ → Bool × LorStringView × LorStringView
  | some i => (true, subview v 0 i, subview v (i + dsize) (v.size - i - dsize))
  | none => (false, v, viewInit)

/-- What `lor_sv_chop` answers then. -/
def chopAt (v : LorStringView) (dsize : ℕ) : Option ℕ → Bool × LorStringView × LorStringView
  | some i => (true, subview v (i + dsize) (v.size - i - dsize), subview v 0 i)
  | none => (false, subview v v.size 0, v)

theorem FirstAt.bound (h : Holds memory v bytes) (hd : Holds memory d ds) (hne : ds ≠ [])
    (hfirst : FirstAt ds bytes (some i)) : i + d.size ≤ v.size := by
  rw [← h.length, ← hd.length]
  exact hfirst.1.add_length_le hne

theorem svSplit_spec (h : Holds memory v bytes) (hd : Holds memory d ds) (hne : ds ≠ []) :
    ∃ found, FirstAt ds bytes found ∧ svSplit memory v d = some (splitAt v d.size found) := by
  obtain ⟨found, hfind, hfirst⟩ := svFind_spec h hd hne
  refine ⟨found, hfirst, ?_⟩
  simp only [svSplit, ne_eq, hd.size_ne_zero.2 hne, not_false_eq_true, if_true, hfind,
    Option.bind_eq_bind, Option.bind_some, Option.pure_def]
  cases found with
  | none => rfl
  | some i =>
    have hbound := FirstAt.bound h hd hne hfirst
    have hmin : min i v.size = i := by omega
    simp only [svTakeLeft_eq h.valid, hmin, Option.bind_some,
      subSize_eq (show i ≤ v.size by omega), subSize_eq (show d.size ≤ v.size - i by omega),
      svSlice_eq_subview h.valid (show i + d.size + (v.size - i - d.size) ≤ v.size by omega)]
    rfl

theorem svChop_spec (h : Holds memory v bytes) (hd : Holds memory d ds) (hne : ds ≠ []) :
    ∃ found, FirstAt ds bytes found ∧ svChop memory v d = some (chopAt v d.size found) := by
  obtain ⟨found, hfirst, hsplit⟩ := svSplit_spec h hd hne
  refine ⟨found, hfirst, ?_⟩
  have hsize : (d.size == 0) = false := beq_eq_false_iff_ne.2 (hd.size_ne_zero.2 hne)
  simp only [svChop, h.valid, hd.valid, hsize, Bool.not_true, Bool.or_self, Bool.false_eq_true,
    if_false, hsplit, Option.bind_eq_bind, Option.bind_some, Option.pure_def]
  cases found with
  | none =>
    simp only [splitAt, Bool.false_eq_true, if_false,
      svSlice_eq_subview h.valid (show v.size + 0 ≤ v.size by omega), Option.bind_some]
    rfl
  | some i => rfl

/-- At most `calls` calls; the parts in order and what is left in the view. -/
def chopLoop (chop : LorStringView → Option (Bool × LorStringView × LorStringView)) :
    ℕ → LorStringView → Option (List LorStringView × LorStringView)
  | 0, _ => none
  | calls + 1, view => do
    let (found, view, part) ← chop view
    if found then
      let (parts, view) ← chopLoop chop calls view
      return (part :: parts, view)
    else return ([part], view)

theorem chopLoop_last {chop : LorStringView → Option (Bool × LorStringView × LorStringView)}
    {calls : ℕ} {p : LorStringView} (h : chop v = some (false, w, p)) :
    chopLoop chop (calls + 1) v = some ([p], w) := by
  simp only [chopLoop, h, Option.bind_eq_bind, Option.bind_some, Bool.false_eq_true, if_false,
    Option.pure_def]

theorem chopLoop_next {chop : LorStringView → Option (Bool × LorStringView × LorStringView)}
    {calls : ℕ} {p last : LorStringView} {parts : List LorStringView}
    (h : chop v = some (true, w, p)) (hrest : chopLoop chop calls w = some (parts, last)) :
    chopLoop chop (calls + 1) v = some (p :: parts, last) := by
  simp only [chopLoop, h, Option.bind_eq_bind, Option.bind_some, if_true, hrest, Option.pure_def]

theorem subview_subview {o m k : ℕ} : subview (subview v o m) i k = subview v (o + i) k := by
  by_cases hdata : v.data = 0
  · simp only [subview, svOffset, hdata, ne_eq, not_true_eq_false, if_false]
  · have hne : v.data + o ≠ 0 := by omega
    simp only [subview, svOffset, ne_eq, hdata, not_false_eq_true, if_true, hne, Nat.add_assoc]

def startIn (v p : LorStringView) : ℕ := p.data - v.data

theorem startIn_subview {o : ℕ} (hv : svIsValid v = true) (ho : o ≤ v.size) :
    startIn v (subview v o n) = o := by
  have hnull := svIsValid_iff.1 hv
  simp only [startIn, subview, svOffset]
  split_ifs <;> omega

/-- The parts of a chopped view: their bytes, and where the delimiters between them stood. -/
structure ChopResult (memory : Memory) (v : LorStringView) (bytes ds : Bytes) (start : ℕ)
    (parts : List LorStringView) (last : LorStringView) : Prop where
  empty : last.size = 0
  pieces : ∃ pieces, List.Forall₂ (Holds memory) parts pieces ∧
    Pieces ds (bytes.drop start) pieces
  cuts : Cuts ds bytes start (parts.dropLast.map fun p => startIn v p + p.size)

theorem ChopResult.ne_nil {start : ℕ} {parts : List LorStringView} {last : LorStringView}
    (h : ChopResult memory v bytes ds start parts last) : parts ≠ [] := by
  obtain ⟨pieces, hparts, hpieces⟩ := h.pieces
  intro hnil
  subst hnil
  cases hparts
  exact hpieces.ne_nil rfl

example : chopLoop (svChop (fun a => ([0x61, 0x61, 0x61, 0x62, 0x61, 0x61] : Bytes)[a - 100]?) ·
    ⟨104, 2⟩) 5 ⟨100, 4⟩ = some ([⟨100, 0⟩, ⟨102, 2⟩], ⟨104, 0⟩) := by decide

theorem chopLoop_spec (h : Holds memory v bytes) (hd : Holds memory d ds) (hne : ds ≠ [])
    {calls o : ℕ} (ho : o ≤ v.size) (hcalls : v.size - o < calls) :
    ∃ parts last,
      chopLoop (svChop memory · d) calls (subview v o (v.size - o)) = some (parts, last) ∧
      ChopResult memory v bytes ds o parts last := by
  induction calls generalizing o with
  | zero => exact absurd hcalls (Nat.not_lt_zero _)
  | succ calls ih =>
    have hrest := h.rest ho
    have hstart : startIn v (subview v o (v.size - o)) = o := startIn_subview h.valid ho
    have hsize : (subview v o (v.size - o)).size = v.size - o := rfl
    obtain ⟨found, hfirst, hchop⟩ := svChop_spec hrest hd hne
    cases found with
    | none =>
      have hnone : ∀ j, o ≤ j → ¬OccursAt ds bytes j := by
        intro j hj hat
        refine hfirst (j - o) (occursAt_drop.2 ?_)
        rwa [Nat.add_sub_cancel' hj]
      refine ⟨_, _, chopLoop_last hchop, rfl, ⟨[bytes.drop o], ?_, Pieces.last hfirst⟩, ?_⟩
      · exact List.Forall₂.cons hrest List.Forall₂.nil
      · exact Cuts.done hnone
    | some i =>
      have hbound := FirstAt.bound hrest hd hne hfirst
      have hpos := hd.size_ne_zero.2 hne
      have hlen := hd.length
      rw [hsize] at hbound
      have hafter : subview (subview v o (v.size - o)) (i + d.size) (v.size - o - i - d.size) =
          subview v (o + (i + d.size)) (v.size - (o + (i + d.size))) := by
        rw [subview_subview]
        congr 1
        omega
      have hbefore : subview (subview v o (v.size - o)) 0 i = subview v o i := by
        rw [subview_subview, Nat.add_zero]
      simp only [chopAt, hsize, hafter, hbefore] at hchop
      obtain ⟨parts, last, hloop, hres⟩ := ih (o := o + (i + d.size)) (by omega) (by omega)
      obtain ⟨pieces, hparts, hpieces⟩ := hres.pieces
      refine ⟨_, _, chopLoop_next hchop hloop, hres.empty, ⟨(bytes.drop o).take i :: pieces,
        List.Forall₂.cons (h.part (by omega)) hparts, Pieces.piece hfirst.1 hfirst.2 ?_⟩, ?_⟩
      · rw [List.drop_drop, hlen]
        exact hpieces
      · rw [List.dropLast_cons_of_ne_nil hres.ne_nil, List.map_cons, startIn_subview h.valid ho]
        refine Cuts.next (Nat.le_add_right _ _) (occursAt_drop.1 hfirst.1) ?_ ?_
        · intro j hj hlt hat
          refine hfirst.2 (j - o) (by change j < o + i at hlt; omega) (occursAt_drop.2 ?_)
          rwa [Nat.add_sub_cancel' hj]
        · have hcuts := hres.cuts
          rw [← Nat.add_assoc, ← hlen] at hcuts
          exact hcuts

theorem chopLoop_congr {f g : LorStringView → Option (Bool × LorStringView × LorStringView)}
    {P : LorStringView → Prop} (hfg : ∀ w, P w → f w = g w)
    (hnext : ∀ w w' p, P w → g w = some (true, w', p) → P w') {calls : ℕ} (hv : P v) :
    chopLoop f calls v = chopLoop g calls v := by
  induction calls generalizing v with
  | zero => rfl
  | succ calls ih =>
    cases hg : g v with
    | none => simp only [chopLoop, hfg v hv, hg, Option.bind_eq_bind, Option.bind_none]
    | some answer =>
      obtain ⟨found, w, p⟩ := answer
      cases found with
      | false => rw [chopLoop_last hg, chopLoop_last ((hfg v hv).trans hg)]
      | true =>
        simp only [chopLoop, hfg v hv, hg, Option.bind_eq_bind, Option.bind_some, if_true,
          ih (hnext v w p hv hg)]

theorem chopLoop_mono {chop : LorStringView → Option (Bool × LorStringView × LorStringView)}
    {calls calls' : ℕ} {r : List LorStringView × LorStringView}
    (h : chopLoop chop calls v = some r) (hle : calls ≤ calls') :
    chopLoop chop calls' v = some r := by
  induction calls generalizing v calls' r with
  | zero => cases h
  | succ calls ih =>
    obtain ⟨k, rfl⟩ : ∃ k, calls' = k + 1 := ⟨calls' - 1, by omega⟩
    simp only [chopLoop, Option.bind_eq_bind, Option.bind_eq_some_iff] at h ⊢
    obtain ⟨⟨found, w, p⟩, hchop, hrest⟩ := h
    refine ⟨_, hchop, ?_⟩
    cases found with
    | false => exact hrest
    | true =>
      simp only [if_true, Option.bind_eq_some_iff] at hrest ⊢
      obtain ⟨r', hr', hr⟩ := hrest
      exact ⟨r', ih hr' (by omega), hr⟩

/-- The first part is that of the first call, and the only one if nothing was found. -/
theorem chopLoop_head {chop : LorStringView → Option (Bool × LorStringView × LorStringView)}
    {calls : ℕ} {found : Bool} {p last : LorStringView} {parts : List LorStringView}
    (hloop : chopLoop chop calls v = some (parts, last)) (h : chop v = some (found, w, p)) :
    parts.head? = some p ∧ (found = true ↔ 1 < parts.length) := by
  have hne : ∀ {calls w parts last}, chopLoop chop calls w = some (parts, last) → parts ≠ [] := by
    intro calls w parts last hrun
    cases calls with
    | zero => cases hrun
    | succ calls =>
      simp only [chopLoop, Option.bind_eq_bind, Option.bind_eq_some_iff] at hrun
      obtain ⟨⟨found, w', p'⟩, -, hrest⟩ := hrun
      split_ifs at hrest with hf
      · obtain ⟨r, -, hr⟩ := Option.bind_eq_some_iff.1 hrest
        cases hr
        exact List.cons_ne_nil _ _
      · cases hrest
        exact List.cons_ne_nil _ _
  cases calls with
  | zero => cases hloop
  | succ calls =>
    cases found with
    | false =>
      rw [chopLoop_last h] at hloop
      cases hloop
      exact ⟨rfl, by simp⟩
    | true =>
      simp only [chopLoop, h, Option.bind_eq_bind, Option.bind_some, if_true,
        Option.bind_eq_some_iff] at hloop
      obtain ⟨⟨parts', last'⟩, hrun, hr⟩ := hloop
      cases hr
      have hpos := List.length_pos_iff.2 (hne hrun)
      exact ⟨rfl, by simp only [List.length_cons]; simp only [true_iff]; omega⟩

theorem readBytes_update {slot a : ℕ} {c : UInt8} (h : readBytes memory a n = some bytes)
    (hslot : slot < a ∨ a + n ≤ slot) :
    readBytes (Function.update memory slot (some c)) a n = some bytes := by
  obtain ⟨hlen, hread⟩ := readBytes_eq_some_iff.1 h
  refine readBytes_eq_some_iff.2 ⟨hlen, fun k hk => ?_⟩
  rw [Function.update_of_ne (by omega), hread k hk]

/-- The parameter object of a call does not change what the call answers. -/
theorem svChopChar_eq {slot : ℕ} {c : UInt8} (h : Holds memory v bytes) (hd : Holds memory d [c])
    (hslot : slot ≠ 0) (hout : slot < v.data ∨ v.data + v.size ≤ slot) :
    svChopChar memory slot v c = svChop memory v d := by
  have hv : Holds (Function.update memory slot (some c)) v bytes :=
    ⟨h.valid, readBytes_update h.read hout⟩
  have hparts : svFromParts slot 1 = ⟨slot, 1⟩ := if_neg fun hnull => hslot hnull.1
  have hlocal : Holds (Function.update memory slot (some c)) ⟨slot, 1⟩ [c] := by
    refine ⟨svIsValid_iff.2 fun hzero => absurd hzero hslot, ?_⟩
    simp only [readBytes, Function.update_self, Option.bind_eq_bind, Option.bind_some,
      Option.pure_def]
  obtain ⟨found, hfirst, hchop⟩ := svChop_spec h hd (List.cons_ne_nil c [])
  obtain ⟨found', hfirst', hchop'⟩ := svChop_spec hv hlocal (List.cons_ne_nil c [])
  have hsize : d.size = 1 := hd.length.symm
  unfold svChopChar
  rw [hparts, hchop', hchop, hfirst'.unique hfirst, hsize]

theorem chopLoop_char {c : UInt8} {slot : LorStringView → ℕ} (h : Holds memory v bytes)
    (hd : Holds memory d [c])
    (hslot : ∀ w, slot w ≠ 0 ∧ (slot w < v.data ∨ v.data + v.size ≤ slot w)) (calls : ℕ) :
    chopLoop (fun w => svChopChar memory (slot w) w c) calls v =
      chopLoop (svChop memory · d) calls v := by
  have hne : [c] ≠ [] := List.cons_ne_nil c []
  refine chopLoop_congr (P := fun w => ∃ o ≤ v.size, w = subview v o (v.size - o)) ?_ ?_
    ⟨0, Nat.zero_le _, (subview_zero v).symm⟩
  · rintro w ⟨o, ho, rfl⟩
    refine svChopChar_eq (h.part (by omega)) hd (hslot _).1 ?_
    have hout := (hslot (subview v o (v.size - o))).2
    have hnull := svIsValid_iff.1 h.valid
    simp only [subview, svOffset] at hout ⊢
    split_ifs at hout ⊢ <;> omega
  · rintro w w' p ⟨o, ho, rfl⟩ hchop
    have hrest := h.rest ho
    obtain ⟨found, hfirst, hchop'⟩ := svChop_spec hrest hd hne
    have hanswer := Option.some.inj (hchop'.symm.trans hchop)
    cases found with
    | none => cases hanswer
    | some i =>
      have hbound := FirstAt.bound hrest hd hne hfirst
      have hview := congrArg (fun answer => answer.2.1) hanswer
      simp only [chopAt, subview_subview] at hview
      change i + d.size ≤ v.size - o at hbound
      refine ⟨o + (i + d.size), by omega, hview.symm.trans ?_⟩
      congr 1
      change v.size - o - i - d.size = _
      omega

/-- `lor_sv_split` answers the first part and the bytes that the later parts and delimiters fill. -/
theorem svSplit_rest {calls : ℕ} {parts : List LorStringView} {last : LorStringView}
    {pieces : List Bytes} (h : Holds memory v bytes) (hd : Holds memory d ds) (hne : ds ≠ [])
    (hloop : chopLoop (svChop memory · d) calls v = some (parts, last))
    (hpieces : Pieces ds bytes pieces) :
    ∃ found before after, svSplit memory v d = some (found, before, after) ∧
      parts.head? = some before ∧ Holds memory after (ds.intercalate pieces.tail) ∧
      (found = true ↔ 1 < parts.length) := by
  obtain ⟨found, hfirst, hsplit⟩ := svSplit_spec h hd hne
  obtain ⟨found', hfirst', hchop⟩ := svChop_spec h hd hne
  obtain rfl := hfirst'.unique hfirst
  cases found' with
  | none =>
    obtain ⟨hhead, hlen⟩ := chopLoop_head hloop hchop
    refine ⟨false, v, viewInit, hsplit, hhead, ?_, hlen⟩
    cases hpieces with
    | last _ => exact holds_init
    | piece hat _ _ => exact absurd hat (hfirst _)
  | some i =>
    obtain ⟨hhead, hlen⟩ := chopLoop_head hloop hchop
    refine ⟨true, _, _, hsplit, hhead, ?_, hlen⟩
    have hbound := FirstAt.bound h hd hne hfirst
    have hafter := h.rest hbound
    rw [Nat.sub_add_eq, ← hd.length] at hafter
    rw [← hd.length]
    cases hpieces with
    | last hnone => exact absurd hfirst.1 (hnone i)
    | piece hat hbefore htail =>
      have hsame := FirstAt.unique (r := some _) ⟨hat, hbefore⟩ hfirst
      rw [List.tail_cons, htail.join, Option.some.inj hsame]
      exact hafter

/-- Repeated calls of `lor_sv_chop` end, and split the bytes at the leftmost occurrences of the
delimiter; `lor_sv_chop_char` and `lor_sv_split` agree. -/
theorem chop_splits_exactly (h : Holds memory v bytes) (hd : Holds memory d ds) (hne : ds ≠ []) :
    ∃ parts last pieces,
      (∀ calls > v.size, chopLoop (svChop memory · d) calls v = some (parts, last)) ∧
      parts.length ≤ v.size + 1 ∧ last.size = 0 ∧
      List.Forall₂ (Holds memory) parts pieces ∧ ds.intercalate pieces = bytes ∧
      (∀ p ∈ pieces, ¬ds <:+: p) ∧
      Cuts ds bytes 0 (parts.dropLast.map fun p => startIn v p + p.size) ∧
      (∀ (slot : LorStringView → ℕ) (c : UInt8), ds = [c] →
        (∀ w, slot w ≠ 0 ∧ (slot w < v.data ∨ v.data + v.size ≤ slot w)) →
        ∀ calls > v.size, chopLoop (fun w => svChopChar memory (slot w) w c) calls v =
          some (parts, last)) ∧
      ∃ found before after, svSplit memory v d = some (found, before, after) ∧
        parts.head? = some before ∧ Holds memory after (ds.intercalate pieces.tail) ∧
        (found = true ↔ 1 < parts.length) := by
  have hcalls : v.size - 0 < v.size + 1 := by omega
  obtain ⟨parts, last, hloop, hres⟩ := chopLoop_spec h hd hne (Nat.zero_le v.size) hcalls
  have hwhole : subview v 0 (v.size - 0) = v := subview_zero v
  rw [hwhole] at hloop
  obtain ⟨pieces, hparts, hpieces⟩ := hres.pieces
  rw [List.drop_zero] at hpieces
  have hrun : ∀ calls > v.size, chopLoop (svChop memory · d) calls v = some (parts, last) :=
    fun calls hcalls => chopLoop_mono hloop hcalls
  refine ⟨parts, last, pieces, hrun, ?_, hres.empty, hparts, hpieces.join,
    hpieces.not_infix hne, hres.cuts, ?_, svSplit_rest h hd hne hloop hpieces⟩
  · rw [hparts.length_eq, ← h.length]
    exact hpieces.length_le hne
  · intro slot c hc hslot calls hcalls
    subst hc
    rw [chopLoop_char h hd hslot]
    exact hrun calls hcalls

/-- The bytes `a,,b` at address 100 and a comma at address 200. -/
def commaMemory : Memory := fun address =>
  if address < 200 then ([0x61, 0x2C, 0x2C, 0x62] : Bytes)[address - 100]?
  else ([0x2C] : Bytes)[address - 200]?

theorem chop_splits_exactly_comma : ∃ parts last,
    chopLoop (svChop commaMemory · ⟨200, 1⟩) 5 ⟨100, 4⟩ = some (parts, last) ∧
      chopLoop (svChopChar commaMemory 300 · 0x2C) 5 ⟨100, 4⟩ = some (parts, last) ∧
      parts.length ≤ 5 ∧ last.size = 0 := by
  have hview : Holds commaMemory ⟨100, 4⟩ [0x61, 0x2C, 0x2C, 0x62] := ⟨by decide, by decide⟩
  have hcomma : Holds commaMemory ⟨200, 1⟩ [0x2C] := ⟨by decide, by decide⟩
  obtain ⟨parts, last, _, hloop, hlen, hempty, _, _, _, _, hchar, _⟩ :=
    chop_splits_exactly hview hcomma (by decide)
  exact ⟨parts, last, hloop 5 (by decide),
    hchar (fun _ => 300) 0x2C rfl (fun _ => ⟨by decide, Or.inr (by decide)⟩) 5 (by decide),
    hlen, hempty⟩

end Liblor.StringView
