import Liblor.NestedZones

/-!
# Prunings that leave out only what does not fit

Whether a position fits may depend on the number of zones that are open in what has been kept before
it. When outside the zones that are left out exactly the positions that do not fit are left out, a
position is not kept if and only if it closes no zone, does not fit, or lies in a zone whose opening
does not fit.
-/

namespace NestedZones

def openAt (kept : List (Kind × ℕ)) (i : ℕ) : ℕ :=
  (scan (kept.filter fun e => e.2 < i)).stack.length

/-- The position lies behind the opening `b`, and not behind the closing that matches it. -/
def InZone (word : List Kind) (b i : ℕ) : Prop :=
  word[b]? = some .opening ∧ b < i ∧ ∀ e, (b, e) ∈ (scan (indexed word)).pairs → i ≤ e

/-- The causes for which a position is not kept; `unfit i n` is that position `i` does not fit when
`n` zones are open. -/
def Lost (unfit : ℕ → ℕ → Prop) (word : List Kind) (kept : List (Kind × ℕ)) (i : ℕ) : Prop :=
  i ∈ (scan (indexed word)).strays ∨ unfit i (openAt kept i) ∨
    ∃ b, unfit b (openAt kept b) ∧ InZone word b i

/-- A pruning in which every position that is not kept has a cause, and no other has. -/
structure Caused (unfit : ℕ → ℕ → Prop) (zones : List (ℕ × Bool)) (word : List Kind)
    (kept : List (Kind × ℕ)) : Prop where
  outermost : ∀ inner b outer, zones = inner ++ (b, false) :: outer → (∀ z ∈ outer, z.2) →
    unfit b (openAt kept b)
  causes : ∀ i < word.length, (∀ kind, (kind, i) ∉ kept) ↔ Lost unfit word kept i

section Scan

theorem mem_of_mem_stack {l : List (Kind × ℕ)} {b : ℕ} (h : b ∈ (scan l).stack) :
    (.opening, b) ∈ l := by
  induction l using List.reverseRecOn with
  | nil => exact absurd h List.not_mem_nil
  | append_singleton l e ih =>
      rw [scan_concat] at h
      obtain ⟨kind, i⟩ := e
      cases kind with
      | opening =>
          rcases List.mem_cons.1 h with rfl | hold
          · exact List.mem_append_right _ List.mem_cons_self
          · exact List.mem_append_left _ (ih hold)
      | point => exact List.mem_append_left _ (ih h)
      | closing =>
          apply List.mem_append_left
          apply ih
          rcases hstack : (scan l).stack with _ | ⟨b', stack⟩
          · rw [next_stray hstack, hstack] at h
            exact h
          · rw [next_closing hstack] at h
            exact List.mem_cons_of_mem _ h

theorem open_or_matched {word : List Kind} {b : ℕ} (h : word[b]? = some .opening) :
    b ∈ (scan (indexed word)).stack ∨ ∃ e, (b, e) ∈ (scan (indexed word)).pairs := by
  induction word using List.reverseRecOn with
  | nil => cases h
  | append_singleton word kind ih =>
      rw [indexed_concat, scan_concat]
      rcases Nat.lt_or_ge b word.length with hlt | hge
      · rw [List.getElem?_append_left hlt] at h
        rcases ih h with hopen | ⟨e, he⟩
        · cases kind with
          | opening => exact Or.inl (List.mem_cons_of_mem _ hopen)
          | point => exact Or.inl hopen
          | closing =>
              rcases hstack : (scan (indexed word)).stack with _ | ⟨b', stack⟩
              · rw [hstack] at hopen
                exact absurd hopen List.not_mem_nil
              · rw [next_closing hstack]
                rw [hstack] at hopen
                rcases List.mem_cons.1 hopen with rfl | hopen
                · exact Or.inr ⟨_, List.mem_append_right _ List.mem_cons_self⟩
                · exact Or.inl hopen
        · right
          rcases pairs_next (scan (indexed word)) kind word.length with hsame | ⟨b', -, -, hnew⟩
          · rw [hsame]
            exact ⟨e, he⟩
          · rw [hnew]
            exact ⟨e, List.mem_append_left _ he⟩
      · have hlast := lt_of_some h
        rw [List.length_append, List.length_singleton] at hlast
        have heq : b = word.length := by omega
        subst heq
        rw [List.getElem?_concat_length] at h
        cases h
        exact Or.inl List.mem_cons_self

end Scan

section OpenAt

variable {word : List Kind} {kept : List (Kind × ℕ)} {zones : List (ℕ × Bool)} {i : ℕ}

theorem openAt_concat (kind : Kind) {n : ℕ} (hi : i ≤ n) :
    openAt (kept ++ [(kind, n)]) i = openAt kept i := by
  have hnot : ¬ n < i := by omega
  simp [openAt, List.filter_append, hnot]

theorem openAt_length (h : Matched zones word kept) :
    openAt kept word.length = (zones.filter Prod.snd).length := by
  have hall : kept.filter (fun e => e.2 < word.length) = kept := by
    rw [List.filter_eq_self]
    intro e he
    simpa using index_lt h.sublist he
  rw [openAt, hall, h.keptStack, List.length_map]

end OpenAt

section Lost

variable {unfit unfit' : ℕ → ℕ → Prop} {word : List Kind} {kept kept' : List (Kind × ℕ)}
  {zones zones' : List (ℕ × Bool)} {last kind : Kind} {b i : ℕ}

theorem inZone_concat (hi : i ≤ word.length) :
    InZone (word ++ [last]) b i ↔ InZone word b i := by
  have hends : (∀ e, (b, e) ∈ (scan (indexed (word ++ [last]))).pairs → i ≤ e) ↔
      ∀ e, (b, e) ∈ (scan (indexed word)).pairs → i ≤ e := by
    rw [indexed_concat, scan_concat]
    exact le_pairs_next hi
  rw [InZone, InZone, hends]
  refine and_congr_left fun hrest => ?_
  rw [List.getElem?_append_left (by omega)]

theorem lost_concat (hi : i < word.length)
    (hunfit : ∀ j < word.length, ∀ n, unfit' j n ↔ unfit j n)
    (hkept : ∀ j ≤ word.length, openAt kept' j = openAt kept j) :
    Lost unfit' (word ++ [last]) kept' i ↔ Lost unfit word kept i := by
  have hzone : (∃ b, unfit' b (openAt kept' b) ∧ InZone (word ++ [last]) b i) ↔
      ∃ b, unfit b (openAt kept b) ∧ InZone word b i := by
    apply exists_congr
    intro b
    rw [inZone_concat hi.le]
    refine and_congr_left fun hin => ?_
    have hb : b < word.length := hin.2.1.trans hi
    rw [hunfit b hb, hkept b hb.le]
  rw [Lost, Lost, hzone, hunfit i hi, hkept i hi.le, indexed_concat, scan_concat,
    mem_strays_next hi]

theorem Caused.not_inZone (h : Caused unfit zones word kept) (hm : Matched zones word kept)
    (hzones : ∀ z ∈ zones, z.2) (hunfit : unfit b (openAt kept b)) :
    ¬ InZone word b word.length := by
  rintro ⟨hopening, hlt, hend⟩
  rcases open_or_matched hopening with hopen | ⟨e, he⟩
  · rw [hm.stack, List.mem_map] at hopen
    obtain ⟨z, hz, rfl⟩ := hopen
    have hkept : z.1 ∈ (scan kept).stack := by
      rw [hm.keptStack]
      exact List.mem_map_of_mem (List.mem_filter.2 ⟨hz, hzones z hz⟩)
    have hnone := (h.causes z.1 hlt).2 (Or.inr (Or.inl hunfit))
    exact hnone _ (mem_of_mem_stack hkept)
  · have hbefore := ((scan_sound word).pairs _ he).2
    exact absurd (hend e he) (Nat.not_le.2 hbefore)

/-- Of the zones that are left out, one is the outermost. -/
theorem exists_outermost (h : ¬ ∀ z ∈ zones, z.2) :
    ∃ inner b outer, zones = inner ++ (b, false) :: outer ∧ ∀ z ∈ outer, z.2 := by
  induction zones with
  | nil => exact absurd (by simp) h
  | cons z zones ih =>
      by_cases hrest : ∀ z ∈ zones, z.2
      · obtain ⟨b, flag⟩ := z
        cases flag with
        | false => exact ⟨[], b, zones, rfl, hrest⟩
        | true =>
            refine absurd (fun z hz => ?_) h
            rcases List.mem_cons.1 hz with rfl | hz
            · rfl
            · exact hrest z hz
      · obtain ⟨inner, b, outer, rfl, houter⟩ := ih hrest
        exact ⟨z :: inner, b, outer, rfl, houter⟩

theorem Caused.inZone (h : Caused unfit zones word kept) (hm : Matched zones word kept)
    (hzones : ¬ ∀ z ∈ zones, z.2) :
    ∃ b, unfit b (openAt kept b) ∧ InZone word b word.length := by
  obtain ⟨inner, b, outer, rfl, houter⟩ := exists_outermost hzones
  have hopen : b ∈ (scan (indexed word)).stack := by
    rw [hm.stack]
    simp
  refine ⟨b, h.outermost inner b outer rfl houter, ?_, (scan_sound word).stack b hopen, ?_⟩
  · exact mem_indexed.1 (mem_of_mem_stack hopen)
  · exact fun e he => absurd hopen ((scan_sound word).fresh _ he)

theorem last_stray (h : Matched zones word kept) :
    word.length ∈ (scan (indexed (word ++ [last]))).strays ↔ last = .closing ∧ zones = [] := by
  have hnot : word.length ∉ (scan (indexed word)).strays :=
    fun hmem => Nat.lt_irrefl _ ((scan_sound word).strays _ hmem)
  rw [indexed_concat, scan_concat]
  cases last with
  | opening => simpa [next_opening] using hnot
  | point => simpa [next_point] using hnot
  | closing =>
      rcases zones with _ | ⟨⟨b, flag⟩, zones⟩
      · rw [next_stray h.stack]
        simp
      · rw [next_closing h.stack]
        simpa using hnot

theorem Caused.lost_last (h : Caused unfit zones word kept) (hm : Matched zones word kept)
    (hunfit : ∀ j < word.length, ∀ n, unfit' j n ↔ unfit j n)
    (hkept : ∀ j ≤ word.length, openAt kept' j = openAt kept j) :
    Lost unfit' (word ++ [last]) kept' word.length ↔ (last = .closing ∧ zones = []) ∨
      unfit' word.length (zones.filter Prod.snd).length ∨ ¬ ∀ z ∈ zones, z.2 := by
  have hzone : (∃ b, unfit' b (openAt kept' b) ∧ InZone (word ++ [last]) b word.length) ↔
      ¬ ∀ z ∈ zones, z.2 := by
    constructor
    · rintro ⟨b, hb, hin⟩ hzones
      rw [inZone_concat le_rfl] at hin
      rw [hunfit b hin.2.1, hkept b hin.2.1.le] at hb
      exact h.not_inZone hm hzones hb hin
    · intro hzones
      obtain ⟨b, hb, hin⟩ := h.inZone hm hzones
      refine ⟨b, ?_, (inZone_concat le_rfl).2 hin⟩
      rwa [hunfit b hin.2.1, hkept b hin.2.1.le]
  rw [Lost, last_stray hm, hkept _ le_rfl, openAt_length hm, hzone]

/-- One more position: what is to show is that it has a cause exactly when it is not kept. -/
theorem Caused.concat (h : Caused unfit zones word kept)
    (hunfit : ∀ j < word.length, ∀ n, unfit' j n ↔ unfit j n)
    (hkept : kept' = kept ∨ kept' = kept ++ [(last, word.length)])
    (houtermost : ∀ inner b outer, zones' = inner ++ (b, false) :: outer → (∀ z ∈ outer, z.2) →
      unfit' b (openAt kept' b))
    (hlast : (∀ kind, (kind, word.length) ∉ kept') ↔
      Lost unfit' (word ++ [last]) kept' word.length) :
    Caused unfit' zones' (word ++ [last]) kept' where
  outermost := houtermost
  causes := by
    intro i hi
    rw [List.length_append, List.length_singleton] at hi
    rcases Nat.lt_succ_iff_lt_or_eq.1 hi with hlt | rfl
    · have hopenAt : ∀ j ≤ word.length, openAt kept' j = openAt kept j := by
        intro j hj
        rcases hkept with rfl | rfl
        · rfl
        · exact openAt_concat last hj
      rw [lost_concat hlt hunfit hopenAt, ← h.causes i hlt]
      rcases hkept with rfl | rfl
      · rfl
      · exact forall_congr' fun kind => not_congr (mem_kept_concat kind last hlt)
    · exact hlast

theorem Caused.drop (h : Caused unfit zones word kept) (hm : Matched zones word kept)
    (hunfit : ∀ j < word.length, ∀ n, unfit' j n ↔ unfit j n)
    (hcause : (last = .closing ∧ zones = []) ∨
      unfit' word.length (zones.filter Prod.snd).length ∨ ¬ ∀ z ∈ zones, z.2)
    (hzones : zones' <:+ zones ∨ last ≠ .closing ∧ zones' = (word.length, false) :: zones) :
    Caused unfit' zones' (word ++ [last]) kept := by
  have hold : ∀ inner b outer, zones = inner ++ (b, false) :: outer → (∀ z ∈ outer, z.2) →
      unfit' b (openAt kept b) := by
    intro inner b outer heq houter
    have hlt := hm.below (b, false) (by rw [heq]; simp)
    exact (hunfit b hlt _).2 (h.outermost inner b outer heq houter)
  refine h.concat hunfit (Or.inl rfl) ?_ ?_
  · intro inner b outer heq houter
    rcases hzones with ⟨front, hsuffix⟩ | ⟨hlast, rfl⟩
    · rw [heq, ← List.append_assoc] at hsuffix
      exact hold _ b outer hsuffix.symm houter
    · rcases inner with _ | ⟨z, inner⟩
      · cases heq
        rw [openAt_length hm]
        rcases hcause with ⟨hclosing, -⟩ | hcause | hcause
        · exact absurd hclosing hlast
        · exact hcause
        · exact absurd houter hcause
      · exact hold inner b outer (List.cons.inj heq).2 houter
  · refine iff_of_true (not_mem_length hm.sublist) ?_
    rw [h.lost_last hm hunfit fun _ _ => rfl]
    exact hcause

theorem Caused.keep (h : Caused unfit zones word kept) (hm : Matched zones word kept)
    (hunfit : ∀ j < word.length, ∀ n, unfit' j n ↔ unfit j n) (hzones : ∀ z ∈ zones, z.2)
    (hstray : ¬ (last = .closing ∧ zones = []))
    (hfits : ¬ unfit' word.length (zones.filter Prod.snd).length) (hzones' : ∀ z ∈ zones', z.2) :
    Caused unfit' zones' (word ++ [last]) (kept ++ [(last, word.length)]) := by
  refine h.concat hunfit (Or.inr rfl) ?_ ?_
  · rintro inner b outer rfl -
    have hfalse := hzones' (b, false) (by simp)
    cases hfalse
  · refine iff_of_false (fun hnone => hnone last (List.mem_append_right _ List.mem_cons_self)) ?_
    rw [h.lost_last hm hunfit fun _ hj => openAt_concat last hj]
    rintro (hclosing | hunfit | hdropped)
    · exact hstray hclosing
    · exact hfits hunfit
    · exact hdropped hzones

/-- An opening or a point is left out when it does not fit or lies in a zone that is left out, and
only then. -/
theorem Caused.step {isKept : Bool} (h : Caused unfit zones word kept)
    (hm : Matched zones word kept) (hstep : ZoneStep word.length last isKept zones zones')
    (hunfit : ∀ j < word.length, ∀ n, unfit' j n ↔ unfit j n)
    (hfits : last ≠ .closing → (isKept = false ↔
      unfit' word.length (zones.filter Prod.snd).length ∨ ¬ ∀ z ∈ zones, z.2))
    (hclosing : last = .closing → ∀ n, ¬ unfit' word.length n) :
    Caused unfit' zones' (word ++ [last]) (keepIf isKept kept (last, word.length)) := by
  have hkept (hne : last ≠ .closing) (htrue : isKept = true) :
      ¬ unfit' word.length (zones.filter Prod.snd).length := by
    intro hunfit
    have hfalse := (hfits hne).2 (Or.inl hunfit)
    rw [htrue] at hfalse
    cases hfalse
  cases hstep with
  | stray => exact h.drop hm hunfit (Or.inl ⟨rfl, rfl⟩) (Or.inl List.suffix_rfl)
  | dropPoint =>
      exact h.drop hm hunfit (Or.inr ((hfits nofun).1 rfl)) (Or.inl List.suffix_rfl)
  | keepPoint hzones => exact h.keep hm hunfit hzones nofun (hkept nofun rfl) hzones
  | dropZone => exact h.drop hm hunfit (Or.inr ((hfits nofun).1 rfl)) (Or.inr ⟨nofun, rfl⟩)
  | keepZone hzones =>
      refine h.keep hm hunfit hzones nofun (hkept nofun rfl) ?_
      exact List.forall_mem_cons.2 ⟨rfl, hzones⟩
  | endDropped =>
      exact h.drop hm hunfit (Or.inr (Or.inr (by simp))) (Or.inl (List.suffix_cons _ _))
  | endKept hzones =>
      refine h.keep hm hunfit ?_ (by simp) (hclosing rfl _) hzones
      exact List.forall_mem_cons.2 ⟨rfl, hzones⟩

theorem caused_nil : Caused unfit [] [] [] where
  outermost := by
    intro inner b outer heq
    simp at heq
  causes := by
    intro i hi
    exact absurd hi (Nat.not_lt_zero _)

end Lost

end NestedZones
