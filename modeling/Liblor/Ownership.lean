import Liblor.Handles

/-!
# Owned keys are dropped exactly once

Along every run the resources created are those dropped and those in the slots of the live maps,
each once, and a resource stays with the handle that it was created for.
-/

namespace Liblor.Handles

open Map LorSet Transition

variable {env : Env} {s s' : State}

/-- The resources held by all handles. -/
def State.held (s : State) : List (Option ℕ) := (s.maps.map heldBy).flatten

def State.dropped (s : State) : List (Option ℕ) := s.world.drops.map DropCall.resource

/-- The resource in dense slot `i` of handle `h`. -/
def State.slot (s : State) (h i : ℕ) : Option ℕ :=
  (s.get h).bind fun m => (m.entries[i]?).bind fun e => e.key.resource

/-- The invariant: the account of the whole program, and who each held resource was made for. -/
structure Ledger (s : State) : Prop where
  account : Account s.world s.held
  untagged : ∀ h, Untagged (s.get h)
  makers : s.makers.length = s.world.resources
  made : ∀ h r, r ∈ heldBy (s.get h) → ∃ k, r = some k ∧ s.makers[k]? = some h

theorem held_put {h : ℕ} (hlt : h < s.maps.length) (handle : Option LorMap) (world : World) :
    (s.put h handle world).held.Perm
      (heldBy handle ++ ((s.maps.eraseIdx h).map heldBy).flatten) := by
  rw [State.held, maps_put, ← List.flatten_cons, ← List.map_cons]
  exact ((set_perm hlt).map heldBy).flatten

theorem held_get {h : ℕ} (hlt : h < s.maps.length) :
    s.held.Perm (heldBy (s.get h) ++ ((s.maps.eraseIdx h).map heldBy).flatten) := by
  have hget : s.get h = s.maps[h] := by
    simp [State.get, List.getD_eq_getElem?_getD, hlt]
  rw [State.held, hget, ← List.flatten_cons, ← List.map_cons]
  exact ((List.getElem_cons_eraseIdx_perm hlt).symm.map heldBy).flatten

/-- What an operation on one handle does to the account of the program. -/
theorem Ledger.put (hs : Ledger s) {h : ℕ} (hlt : h < s.maps.length) {handle : Option LorMap}
    {world : World} (hmoves : Moves s.world (s.get h) world handle) :
    Ledger (s.put h handle world) where
  account := (hmoves.account _ (hs.account.perm (held_get hlt).symm)).perm (held_put hlt _ _)
  untagged h' := by
    by_cases heq : h' = h
    · subst h'
      rw [get_put_self hlt]
      exact hmoves.untagged (hs.untagged h)
    · rw [get_put_of_ne heq]
      exact hs.untagged h'
  makers := by
    have := hmoves.le
    have := hs.makers
    simp only [State.put, List.length_append, List.length_replicate]
    omega
  made h' r hr := by
    have hold : ∀ {k g : ℕ}, s.makers[k]? = some g →
        (s.put h handle world).makers[k]? = some g := by
      intro k g hk
      rw [State.put, List.getElem?_append_left (List.getElem?_eq_some_iff.mp hk).1, hk]
    by_cases heq : h' = h
    · subst h'
      rw [get_put_self hlt] at hr
      rcases hmoves.origin r hr with hr | ⟨k, rfl, hle, hk⟩
      · obtain ⟨k, rfl, hk⟩ := hs.made h r hr
        exact ⟨k, rfl, hold hk⟩
      · refine ⟨k, rfl, ?_⟩
        rw [State.put, List.getElem?_append_right (by rw [hs.makers]; exact hle),
          List.getElem?_replicate, if_pos (by rw [hs.makers]; omega)]
    · rw [get_put_of_ne heq] at hr
      obtain ⟨k, rfl, hk⟩ := hs.made h' r hr
      exact ⟨k, rfl, hold hk⟩

theorem ledger_of_start (hstart : (system env).start s) : Ledger s := by
  obtain ⟨hnone, hresources, hdrops, hmakers⟩ := hstart
  have hheld : s.held = [] := by
    rw [State.held, List.flatten_eq_nil_iff]
    intro l hl
    obtain ⟨handle, hhandle, rfl⟩ := List.mem_map.mp hl
    rw [hnone handle hhandle]
    rfl
  refine ⟨⟨?_, ?_⟩, ?_, ?_, ?_⟩
  · rw [hheld, hdrops, hresources]
    exact List.Perm.refl _
  · rw [hdrops]
    intro call hcall
    cases hcall
  · intro h m hm
    rw [get_of_start hnone] at hm
    cases hm
  · rw [hmakers, hresources]
    rfl
  · intro h r hr
    rw [get_of_start hnone] at hr
    cases hr

theorem Op.Legal.target_lt {op : Op} (h : op.Legal env s) : op.target < s.maps.length := by
  cases op with
  | call h' op => exact h.1
  | algebra r elementSize a b op => exact h

theorem run_ledger {events : List (Op × Result)} (hrun : Run (system env) events s) :
    Ledger s := by
  induction hrun with
  | start hstart => exact ledger_of_start hstart
  | step hrun hstep ih =>
      obtain ⟨result, s₁, handle', world', heq, rfl, -, hmoves⟩ :=
        step_moves (run_sound hrun) _ hstep.1
      rw [hstep.2] at heq
      cases heq
      exact ih.put hstep.1.target_lt hmoves

/-! ## Slots -/

theorem slot_eq_some (hs : Ledger s) {h i k : ℕ} :
    s.slot h i = some k ↔ (heldBy (s.get h))[i]? = some (some k) := by
  unfold State.slot
  cases hget : s.get h with
  | none => simp [heldBy]
  | some m =>
      have hunowned : m.config.clone = none → ∀ e ∈ m.entries, e.key.resource = none :=
        hs.untagged h m hget
      cases hclone : m.config.clone with
      | none =>
          rw [heldBy, held_of_none hclone]
          simp only [Option.bind_some, List.getElem?_nil, reduceCtorEq, iff_false]
          intro hslot
          obtain ⟨e, he, hres⟩ := Option.bind_eq_some_iff.mp hslot
          rw [hunowned hclone e (List.mem_of_getElem? he)] at hres
          cases hres
      | some f =>
          rw [heldBy, held_of_isSome (by simp [hclone]), LorMap.resources, List.getElem?_map]
          cases hentry : m.entries[i]? with
          | none => simp [hentry]
          | some e => simp [hentry]

theorem get_lt {h : ℕ} {r : Option ℕ} (hr : r ∈ heldBy (s.get h)) : h < s.maps.length := by
  by_contra hge
  have hnone : s.get h = none := by
    simp [State.get, List.getD_eq_getElem?_getD, List.getElem?_eq_none (not_lt.mp hge)]
  rw [hnone] at hr
  cases hr

theorem get_eq_getElem {h : ℕ} (hlt : h < s.maps.length) : s.get h = s.maps[h] := by
  simp [State.get, List.getD_eq_getElem?_getD, hlt]

theorem mem_held_iff (hs : Ledger s) {k : ℕ} :
    some k ∈ s.held ↔ ∃ h i, s.slot h i = some k := by
  simp only [slot_eq_some hs]
  constructor
  · intro hk
    obtain ⟨l, hl, hkl⟩ := List.mem_flatten.mp hk
    obtain ⟨handle, hhandle, rfl⟩ := List.mem_map.mp hl
    obtain ⟨h, hlt, rfl⟩ := List.getElem_of_mem hhandle
    obtain ⟨i, hi⟩ := List.mem_iff_getElem?.mp hkl
    exact ⟨h, i, by rw [get_eq_getElem hlt]; exact hi⟩
  · intro hk
    obtain ⟨h, i, hi⟩ := hk
    have hmem := List.mem_of_getElem? hi
    have hlt := get_lt hmem
    rw [get_eq_getElem hlt] at hmem
    exact List.mem_flatten.mpr ⟨_, List.mem_map.mpr ⟨_, List.getElem_mem hlt, rfl⟩, hmem⟩

theorem slot_unique (hs : Ledger s) {h i h' i' k : ℕ} (hk : s.slot h i = some k)
    (hk' : s.slot h' i' = some k) : h = h' ∧ i = i' := by
  rw [slot_eq_some hs] at hk hk'
  have hnodup : s.held.Nodup := (List.nodup_append.mp hs.account.nodup).2.1
  obtain ⟨heach, hdisjoint⟩ := List.nodup_flatten.mp hnodup
  have hlt := get_lt (List.mem_of_getElem? hk)
  have hlt' := get_lt (List.mem_of_getElem? hk')
  rw [get_eq_getElem hlt] at hk
  rw [get_eq_getElem hlt'] at hk'
  have hne : ∀ a b (ha : a < s.maps.length) (hb : b < s.maps.length), a < b →
      some k ∈ heldBy s.maps[a] → some k ∈ heldBy s.maps[b] → False := by
    intro a b ha hb hab hmem hmem'
    have hpair := List.pairwise_iff_getElem.mp hdisjoint a b (by simpa using ha)
      (by simpa using hb) hab
    rw [List.getElem_map, List.getElem_map] at hpair
    exact hpair hmem hmem'
  rcases Nat.lt_trichotomy h h' with hhh | hhh | hhh
  · exact (hne h h' hlt hlt' hhh (List.mem_of_getElem? hk) (List.mem_of_getElem? hk')).elim
  · subst h'
    refine ⟨rfl, ?_⟩
    have hl := heach _ (List.mem_map.mpr ⟨_, List.getElem_mem hlt, rfl⟩)
    obtain ⟨hi, hik⟩ := List.getElem?_eq_some_iff.mp hk
    obtain ⟨hi', hik'⟩ := List.getElem?_eq_some_iff.mp hk'
    exact (hl.getElem_inj_iff).mp (hik.trans hik'.symm)
  · exact (hne h' h hlt' hlt hhh (List.mem_of_getElem? hk') (List.mem_of_getElem? hk)).elim

/-! ## The states between calls -/

/-- What holds of resources and `drop` calls between two operations. -/
structure DroppedOnce (s : State) : Prop where
  live : ∀ k < s.world.resources, some k ∉ s.dropped ↔ ∃ h i, s.slot h i = some k
  created : ∀ h i k, s.slot h i = some k → k < s.world.resources
  one_slot : ∀ h i h' i' k, s.slot h i = some k → s.slot h' i' = some k → h = h' ∧ i = i'
  owned : ∀ h m i, s.get h = some m → m.config.clone.isSome → i < m.size →
    ∃ k, s.slot h i = some k
  once : s.dropped.Nodup
  cloned : ∀ call ∈ s.world.drops, ∃ k < s.world.resources, call.resource = some k
  alone : ∀ call ∈ s.world.drops, call.resource ∉ call.others
  kept : ∀ h i k, s.slot h i = some k → s.makers[k]? = some h
  released : ∀ h, s.get h = none → ∀ k, s.makers[k]? = some h → some k ∈ s.dropped

theorem Ledger.droppedOnce (hs : Ledger s) : DroppedOnce s := by
  have hbalance := hs.account.balance
  have hdisjoint := (List.nodup_append.mp hs.account.nodup).2.2
  have hsplit : ∀ k, k < s.world.resources ↔ some k ∈ s.dropped ∨ some k ∈ s.held := by
    intro k
    have hmem := hbalance.mem_iff (a := some k)
    rw [List.mem_append] at hmem
    rw [State.dropped, hmem]
    simp
  have hall : ∀ r, r ∈ s.dropped ∨ r ∈ s.held → ∃ k < s.world.resources, r = some k := by
    intro r hr
    have hmem := hbalance.mem_iff.mp (List.mem_append.mpr hr)
    obtain ⟨k, hk, rfl⟩ := List.mem_map.mp hmem
    exact ⟨k, List.mem_range.mp hk, rfl⟩
  refine ⟨?_, ?_, fun h i h' i' k => slot_unique hs, ?_, (List.nodup_append.mp hs.account.nodup).1,
    ?_, hs.account.alone, ?_, ?_⟩
  · intro k hk
    rw [← mem_held_iff hs]
    constructor
    · intro hnot
      exact ((hsplit k).mp hk).resolve_left hnot
    · intro hheld hdropped
      exact hdisjoint _ hdropped _ hheld rfl
  · intro h i k hk
    exact (hsplit k).mpr (Or.inr ((mem_held_iff hs).mpr ⟨h, i, hk⟩))
  · intro h m i hm hclone hi
    have hi' : i < m.resources.length := by simpa [LorMap.resources, LorMap.size] using hi
    have hheld : (heldBy (s.get h))[i]? = some m.resources[i] := by
      rw [hm, heldBy, held_of_isSome hclone, List.getElem?_eq_getElem hi']
    obtain ⟨k, hk, -⟩ := hs.made h _ (List.mem_of_getElem? hheld)
    exact ⟨k, (slot_eq_some hs).mpr (by rw [hheld, hk])⟩
  · intro call hcall
    exact hall _ (Or.inl (List.mem_map.mpr ⟨call, hcall, rfl⟩))
  · intro h i k hk
    obtain ⟨k', hk', hmade⟩ := hs.made h _ (List.mem_of_getElem? ((slot_eq_some hs).mp hk))
    rw [Option.some.inj hk']
    exact hmade
  · intro h hnull k hk
    have hlt : k < s.world.resources := by
      rw [← hs.makers]
      exact (List.getElem?_eq_some_iff.mp hk).1
    rcases (hsplit k).mp hlt with hdropped | hheld
    · exact hdropped
    · obtain ⟨h', i, hslot⟩ := (mem_held_iff hs).mp hheld
      have hmem := List.mem_of_getElem? ((slot_eq_some hs).mp hslot)
      obtain ⟨k', hk', hmade⟩ := hs.made h' _ hmem
      rw [← Option.some.inj hk', hk] at hmade
      rw [← Option.some.inj hmade, hnull] at hmem
      cases hmem

/-- Between any two calls every owned key is in one slot or dropped once, the next call returns and
drops nothing that another handle holds, and a handle that is released or whose algebra failed has
nothing left. -/
theorem owned_keys_dropped_once {events : List (Op × Result)} (hrun : Run (system env) events s) :
    DroppedOnce s ∧ ∀ op : Op, op.Legal env s → ∃ result s', step env s op = some (result, s') ∧
      (∀ call ∈ s'.world.drops, ∀ h, h ≠ op.target → ∀ i k, s.slot h i = some k →
        call.resource ≠ some k) ∧
      (op = .call op.target .deinit → s'.get op.target = none) ∧
      (∀ r elementSize a b operation, op = .algebra r elementSize a b operation →
        s.get r = none → result ≠ .status .ok → s'.get r = none) := by
  have hsound := run_sound hrun
  have hledger := run_ledger hrun
  refine ⟨hledger.droppedOnce, ?_⟩
  intro op hop
  obtain ⟨result, s', handle', world', heq, hs', -, hmoves⟩ := step_moves hsound op hop
  have hledger' : Ledger s' := by
    rw [hs']
    exact hledger.put hop.target_lt hmoves
  refine ⟨result, s', heq, ?_, ?_, ?_⟩
  · intro call hcall h hne i k hslot hcallk
    have hslot' : s'.slot h i = some k := by
      rw [State.slot, step_frame heq hne]
      exact hslot
    have honce := hledger'.droppedOnce
    apply (honce.live k (honce.created h i k hslot')).mpr ⟨h, i, hslot'⟩
    rw [← hcallk]
    exact List.mem_map.mpr ⟨call, hcall, rfl⟩
  · intro hdeinit
    rw [hdeinit] at heq
    simp only [step, Map.step, deinit, Option.map_some, Option.some.injEq, Prod.mk.injEq] at heq
    rw [← heq.2]
    exact get_put_self hop.target_lt
  · intro r elementSize a b operation hop' hnull hresult
    subst hop'
    obtain ⟨status, handle₁, world₁, heq₁, -, hcase⟩ :=
      operation_cases s.world (hsound a) (hsound b) elementSize operation
    rw [step, hnull, algebra_eq, heq₁] at heq
    cases heq
    obtain ⟨-, rfl⟩ | ⟨hok, -⟩ := hcase
    · exact get_put_self hop
    · exact absurd (congrArg Result.status hok) hresult

/-- Byte keys that are cloned by copying them. -/
def cloningEnv : Env where
  hash _ _ _ := 0
  equal _ _ a b := a == b
  keyValid _ _ _ := true
  clone _ _ _ key := (.ok, key)
  drop _ _ key := key
  malloc n _ := some (4096 * (n + 1))
  freed _ := 0

def cloningConfig : Config := ⟨some 1, some 1, none, some 1, some 1, 0⟩

theorem lawful_cloningConfig : Lawful cloningEnv cloningConfig 1 where
  refl _ _ := beq_self_eq_true _
  symm _ _ _ _ h := beq_iff_eq.mpr (eq_of_beq h).symm
  trans _ _ _ _ _ _ hab hbc := beq_iff_eq.mpr ((eq_of_beq hab).trans (eq_of_beq hbc))
  hash_eq _ _ _ _ _ := rfl
  clone _ _ _ _ h _ := ⟨h, beq_self_eq_true _⟩

/-- A set of one owned key is copied by a union with itself, which clones the key twice and drops
the first clone, and is then released. -/
theorem owned_keys_dropped_once_union : ∃ s : State, s.world.resources = 3 ∧ s.get 0 = none ∧
    size (s.get 1) = 1 ∧ DroppedOnce s := by
  have h0 : Run (system cloningEnv) [] ⟨[none, none], ⟨0, 0, 0, []⟩, []⟩ :=
    .start ⟨by simp, rfl, rfl, rfl⟩
  have h1 := run_call h0 0 (.init 1 1 cloningConfig) (by decide) lawful_cloningConfig rfl
  have h2 := run_call h1 0 (.set 1 1 (.outside 0 fun _ => 7)) (by decide) trivial rfl
  have h3 := run_algebra h2 1 1 0 0 .union (by decide) rfl
  have h4 := run_call h3 0 .deinit (by decide) trivial rfl
  exact ⟨_, rfl, rfl, rfl, (owned_keys_dropped_once h4).1⟩

end Liblor.Handles
