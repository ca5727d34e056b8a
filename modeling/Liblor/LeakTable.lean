import Liblor.LeakModel

/-!
# The record table as a list

Behind the links the table is the list of its records, the newest first. Tracking puts a record in
front, untracking removes the first one for a pointer and a kind, and both leave the links in order.
-/

namespace Liblor.Leak

open DoublyLinked

variable {table : Table} {entries : List (ℕ × LorLeakRecord)} {records : List LorLeakRecord}
  {kind : LorLeakKind} {ptr size node : ℕ}

/-- The links are in order and lead to every allocated record. -/
structure Lists (table : Table) (entries : List (ℕ × LorLeakRecord)) : Prop where
  links : Represents table.leaks entries
  allocated : (entries.map Prod.fst).Perm table.allocated

theorem Lists.length_le (h : Lists table entries) : entries.length ≤ table.allocated.length := by
  rw [← h.allocated.length_eq, List.length_map]

theorem Lists.unique {entries' : List (ℕ × LorLeakRecord)} (h : Lists table entries)
    (h' : Lists table entries') : entries = entries' :=
  h.links.unique h'.links

theorem Lists.track (h : Lists table entries) (hptr : ptr ≠ 0) (hnode : node ≠ 0)
    (hnew : node ∉ table.allocated) (kind : LorLeakKind) (size : ℕ) :
    Lists (track table kind ptr size node) ((node, ⟨kind, ptr, size⟩) :: entries) := by
  unfold Leak.track insert
  rw [if_neg hptr, if_neg hnode]
  constructor
  · exact h.links.pushFront hnode (fun hmem => hnew (h.allocated.mem_iff.1 hmem)) _
  · exact h.allocated.cons node

/-- Where the search ends: at the first record for the pointer and the kind, or at the end. -/
theorem Lists.find (h : Lists table entries) (ptr : ℕ) (kind : LorLeakKind) :
    (find table ptr kind = some 0 ∧ ∀ x ∈ entries, isFor ptr kind x.2 = false) ∨
    ∃ before record value behind, entries = before ++ (record, value) :: behind ∧
      record ≠ 0 ∧ isFor ptr kind value = true ∧ (∀ x ∈ before, isFor ptr kind x.2 = false) ∧
      find table ptr kind = some record := by
  by_cases hsome : ∃ x ∈ entries, isFor ptr kind x.2 = true
  · right
    obtain ⟨x, hx, htest⟩ := hsome
    obtain ⟨⟨record, value⟩, before, behind, hbefore, hvalue, rfl, -⟩ :=
      List.exists_of_eraseP (p := fun x => isFor ptr kind x.2) hx htest
    have hfirst : ∀ x ∈ before, isFor ptr kind x.2 = false := fun x hx => by
      simpa using hbefore x hx
    refine ⟨before, record, value, behind, rfl, h.links.split.1, hvalue, hfirst, ?_⟩
    exact h.links.search_some h.length_le hfirst hvalue
  · left
    have hnone : ∀ x ∈ entries, isFor ptr kind x.2 = false := fun x hx => by
      by_contra htest
      exact hsome ⟨x, hx, by simpa using htest⟩
    exact ⟨h.links.search_none h.length_le hnone, hnone⟩

theorem eraseP_first {before : List (ℕ × LorLeakRecord)} {value : LorLeakRecord} (record : ℕ)
    (behind : List (ℕ × LorLeakRecord)) (hbefore : ∀ x ∈ before, isFor ptr kind x.2 = false)
    (hvalue : isFor ptr kind value = true) :
    (before ++ (record, value) :: behind).eraseP (fun x => isFor ptr kind x.2) =
      before ++ behind := by
  rw [List.eraseP_append_right _ fun x hx => by simp [hbefore x hx]]
  congr 1
  exact List.eraseP_cons_of_pos (p := fun x : ℕ × LorLeakRecord => isFor ptr kind x.2) hvalue

theorem Lists.untrack (h : Lists table entries) (kind : LorLeakKind) (ptr : ℕ) :
    ∃ table', untrack table kind ptr = some table' ∧
      Lists table' (entries.eraseP fun x => isFor ptr kind x.2) := by
  unfold Leak.untrack
  rcases h.find ptr kind with ⟨hfind, hnone⟩ |
    ⟨before, record, value, behind, rfl, hne, hvalue, hbefore, hfind⟩
  · rw [hfind]
    refine ⟨table, by simp, ?_⟩
    rw [List.eraseP_of_forall_not fun x hx => by simp [hnone x hx]]
    exact h
  · rw [hfind]
    refine ⟨remove table record, by simp [hne], ?_⟩
    rw [eraseP_first record behind hbefore hvalue]
    refine ⟨h.links.unlink, ?_⟩
    have hmiddle : ((before ++ (record, value) :: behind).map Prod.fst).Perm
        (record :: (before ++ behind).map Prod.fst) := by
      rw [List.map_append, List.map_append]
      exact List.perm_middle
    have herase := (hmiddle.symm.trans h.allocated).erase record
    rw [List.erase_cons_head] at herase
    exact herase

/-- The table without the addresses of its records. -/
def Holds (table : Table) (records : List LorLeakRecord) : Prop :=
  ∃ entries, Lists table entries ∧ entries.map Prod.snd = records

theorem Holds.unique {records' : List LorLeakRecord} (h : Holds table records)
    (h' : Holds table records') : records = records' := by
  obtain ⟨entries, hlists, rfl⟩ := h
  obtain ⟨entries', hlists', rfl⟩ := h'
  rw [hlists.unique hlists']

theorem Holds.track (h : Holds table records) (hptr : ptr ≠ 0) (hnode : node ≠ 0)
    (hnew : node ∉ table.allocated) (kind : LorLeakKind) (size : ℕ) :
    Holds (track table kind ptr size node) (⟨kind, ptr, size⟩ :: records) := by
  obtain ⟨entries, hlists, rfl⟩ := h
  exact ⟨_, hlists.track hptr hnode hnew kind size, rfl⟩

theorem Holds.untrack (h : Holds table records) (kind : LorLeakKind) (ptr : ℕ) :
    ∃ table', untrack table kind ptr = some table' ∧
      Holds table' (records.eraseP (isFor ptr kind)) := by
  obtain ⟨entries, hlists, rfl⟩ := h
  obtain ⟨table', huntrack, hlists'⟩ := hlists.untrack kind ptr
  exact ⟨table', huntrack, _, hlists', (List.eraseP_map (p := isFor ptr kind)).symm⟩

theorem Holds.setValue (h : Holds table records) {value : LorLeakRecord}
    (hmem : value ∈ records) (hfor : isFor ptr kind value = true) :
    ∃ record found, find table ptr kind = some record ∧ record ≠ 0 ∧ found ∈ records ∧
      isFor ptr kind found = true ∧ (table.leaks.cell record).value = found ∧
      ∀ value', ∃ records',
        Holds { table with leaks := table.leaks.setValue record value' } records' ∧
        records'.Perm (value' :: records.eraseP (isFor ptr kind)) := by
  obtain ⟨entries, hlists, rfl⟩ := h
  rcases hlists.find ptr kind with ⟨-, hnone⟩ |
    ⟨before, record, found, behind, rfl, hne, hfound, hbefore, hfind⟩
  · obtain ⟨x, hx, rfl⟩ := List.mem_map.1 hmem
    rw [hnone x hx] at hfor
    contradiction
  · refine ⟨record, found, hfind, hne, by simp, hfound, ?_, ?_⟩
    · rw [hlists.links.split.2.1]
    · intro value'
      refine ⟨_, ⟨before ++ (record, value') :: behind, ⟨hlists.links.setValue value', ?_⟩, rfl⟩,
        ?_⟩
      · have hallocated := hlists.allocated
        rw [List.map_append, List.map_cons] at hallocated ⊢
        exact hallocated
      · have herase := congrArg (List.map Prod.snd)
          (eraseP_first record behind hbefore hfound)
        rw [List.eraseP_map]
        change List.Perm _ (value' :: (List.eraseP (fun x => isFor ptr kind x.2) _).map Prod.snd)
        rw [herase, List.map_append, List.map_append]
        exact List.perm_middle

theorem Holds.stats (h : Holds table records) :
    leakcheckStats table = some (records.foldl countRecord ⟨0, 0, 0, 0, 0⟩) := by
  obtain ⟨entries, hlists, rfl⟩ := h
  unfold leakcheckStats
  rw [hlists.links.head]
  exact fold_eq hlists.links.links countRecord _ hlists.length_le

end Liblor.Leak
