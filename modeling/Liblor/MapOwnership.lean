import Liblor.MapRun

/-!
# Who owns a cloned key

Each successful `clone` creates a resource. `Account` balances the resources created so far against
the `drop` calls made and the resources still held, each exactly once; the operations of a map move
resources between the two sides, whatever else is held elsewhere.
-/

namespace Liblor.Map

open DenseList

variable {env : Env} {map : LorMap} {world world' : World} {source : Source}

/-- The resources that the slots of a map own. -/
def LorMap.held (map : LorMap) : List (Option ℕ) :=
  if map.config.clone.isSome then map.resources else []

def heldBy : Option LorMap → List (Option ℕ)
  | none => []
  | some map => map.held

/-- The keys of a map without `clone` carry no resource. -/
def Untagged (handle : Option LorMap) : Prop :=
  ∀ m, handle = some m → m.config.clone = none → ∀ e ∈ m.entries, e.key.resource = none

/-- Every resource created is dropped or held, once, nothing else was dropped, and no dropped
resource was in another slot of the map at that moment. -/
structure Account (world : World) (held : List (Option ℕ)) : Prop where
  balance : (world.drops.map DropCall.resource ++ held).Perm ((List.range world.resources).map some)
  alone : ∀ call ∈ world.drops, call.resource ∉ call.others

namespace Account

variable {held : List (Option ℕ)}

theorem nodup (h : Account world held) : (world.drops.map DropCall.resource ++ held).Nodup :=
  h.balance.nodup_iff.mpr (List.nodup_range.map (Option.some_injective ℕ))

theorem perm {held' : List (Option ℕ)} (h : Account world held) (hperm : held'.Perm held) :
    Account world held' :=
  ⟨(hperm.append_left _).trans h.balance, h.alone⟩

theorem quiet (h : Account world held) (hquiet : Quiet world world') : Account world' held := by
  refine ⟨?_, ?_⟩
  · rw [hquiet.drops, hquiet.resources]
    exact h.balance
  · rw [hquiet.drops]
    exact h.alone

theorem create (h : Account world held) (hresources : world'.resources = world.resources + 1)
    (hdrops : world'.drops = world.drops) : Account world' (some world.resources :: held) := by
  refine ⟨?_, by rw [hdrops]; exact h.alone⟩
  rw [hdrops, hresources, List.range_succ, List.map_append]
  exact List.perm_middle.trans ((h.balance.cons _).trans
    (List.perm_append_singleton (some world.resources) _).symm)

theorem drop {r : Option ℕ} {others : List (Option ℕ)} (h : Account world (r :: held))
    (hothers : ∀ o ∈ others, o ∈ held) (hresources : world'.resources = world.resources)
    (hdrops : world'.drops = ⟨r, others⟩ :: world.drops) : Account world' held := by
  constructor
  · rw [hdrops, hresources]
    exact List.perm_middle.symm.trans h.balance
  · intro call hcall
    rw [hdrops] at hcall
    rcases List.mem_cons.mp hcall with heq | hcall
    · subst heq
      intro hmem
      exact (List.nodup_cons.mp (List.nodup_append.mp h.nodup).2.1).1 (hothers r hmem)
    · exact h.alone call hcall

theorem map_resource_dropCalls (l : List (Option ℕ)) :
    (dropCalls l).map DropCall.resource = l := by
  apply List.ext_getElem (by simp [dropCalls])
  intro i _ hi
  simp [dropCalls, List.getD_eq_getElem?_getD, hi]

theorem dropCalls_alone {l : List (Option ℕ)} (h : l.Nodup) :
    ∀ call ∈ dropCalls l, call.resource ∉ call.others := by
  intro call hcall
  simp only [dropCalls, List.mem_map, List.mem_range] at hcall
  obtain ⟨i, hi, rfl⟩ := hcall
  have hget : l.getD i none = l[i] := by simp [List.getD_eq_getElem?_getD, hi]
  rw [hget]
  have hcons := (List.getElem_cons_eraseIdx_perm hi).nodup_iff.mpr h
  exact (List.nodup_cons.mp hcons).1

theorem dropAll {l : List (Option ℕ)} (h : Account world (l ++ held))
    (hresources : world'.resources = world.resources)
    (hdrops : world'.drops = (dropCalls l).reverse ++ world.drops) : Account world' held := by
  constructor
  · rw [hdrops, hresources, List.map_append, List.map_reverse, map_resource_dropCalls]
    have hswap : (l.reverse ++ world.drops.map DropCall.resource).Perm
        (world.drops.map DropCall.resource ++ l) :=
      ((List.reverse_perm l).append_right _).trans List.perm_append_comm
    have happend := hswap.append_right held
    rw [List.append_assoc (world.drops.map DropCall.resource)] at happend
    exact happend.trans h.balance
  · intro call hcall
    rw [hdrops] at hcall
    rcases List.mem_append.mp hcall with hcall | hcall
    · have hl : l.Nodup := (List.nodup_append.mp (List.nodup_append.mp h.nodup).2.1).1
      exact dropCalls_alone hl call (List.mem_reverse.mp hcall)
    · exact h.alone call hcall

end Account

/-! ## Operations move resources -/

/-- What an operation on a handle does to the resources, in any surroundings. -/
structure Moves (world : World) (handle : Option LorMap) (world' : World)
    (handle' : Option LorMap) : Prop where
  le : world.resources ≤ world'.resources
  account : ∀ rest, Account world (heldBy handle ++ rest) → Account world' (heldBy handle' ++ rest)
  origin : ∀ r ∈ heldBy handle', r ∈ heldBy handle ∨
    ∃ k, r = some k ∧ world.resources ≤ k ∧ k < world'.resources
  untagged : Untagged handle → Untagged handle'

theorem Moves.trans {a b c : World} {x y z : Option LorMap} (h : Moves a x b y)
    (h' : Moves b y c z) : Moves a x c z where
  le := h.le.trans h'.le
  account rest hrest := h'.account rest (h.account rest hrest)
  origin r hr := by
    rcases h'.origin r hr with hr | ⟨k, rfl, hk, hlt⟩
    · rcases h.origin r hr with hr | ⟨k, rfl, hk, hlt⟩
      · exact Or.inl hr
      · exact Or.inr ⟨k, rfl, hk, hlt.trans_le h'.le⟩
    · exact Or.inr ⟨k, rfl, h.le.trans hk, hlt⟩
  untagged hu := h'.untagged (h.untagged hu)

theorem Moves.of_quiet {handle handle' : Option LorMap} (hquiet : Quiet world world')
    (hheld : heldBy handle' = heldBy handle) (huntagged : Untagged handle → Untagged handle') :
    Moves world handle world' handle' where
  le := hquiet.resources.ge
  account rest h := by
    rw [hheld]
    exact h.quiet hquiet
  origin r hr := Or.inl (hheld ▸ hr)
  untagged := huntagged

theorem Moves.refl (world : World) (handle : Option LorMap) : Moves world handle world handle :=
  .of_quiet (Quiet.refl world) rfl id

theorem held_of_none (h : map.config.clone = none) : map.held = [] := by
  simp [LorMap.held, h]

theorem held_of_isSome (h : map.config.clone.isSome) : map.held = map.resources := by
  rw [LorMap.held, if_pos h]

theorem held_withEntries (h : map.config.clone.isSome) (es : List Entry) :
    heldBy (some (map.withEntries es)) = es.map fun e => e.key.resource := by
  rw [heldBy, held_of_isSome (show (map.withEntries es).config.clone.isSome from h)]
  rfl

theorem held_resized {moved : LorMap} (h : Resized map moved) : moved.held = map.held := by
  unfold LorMap.held LorMap.resources
  rw [h.config, h.entries]

theorem untagged_resized {moved : LorMap} (h : Resized map moved) (hu : Untagged (some map)) :
    Untagged (some moved) := by
  intro m hm hnone e he
  cases hm
  rw [h.config] at hnone
  rw [h.entries] at he
  exact hu map rfl hnone e he

theorem held_fresh {entrySize keySize : ℕ} {config : Config}
    (h : Fresh map entrySize keySize config) : map.held = [] := by
  unfold LorMap.held LorMap.resources
  rw [h.entries]
  split_ifs <;> rfl

theorem untagged_fresh {entrySize keySize : ℕ} {config : Config}
    (h : Fresh map entrySize keySize config) : Untagged (some map) := by
  intro m hm _ e he
  cases hm
  rw [h.entries] at he
  cases he

theorem drop_resources (env : Env) (world : World) (config : Config) (key : Key)
    (others : List (Option ℕ)) :
    (world.drop env config key others).2.resources = world.resources := by
  unfold World.drop
  split <;> rfl

theorem drop_drops {config : Config} (h : config.drop.isSome) (key : Key)
    (others : List (Option ℕ)) :
    (world.drop env config key others).2.drops = ⟨key.resource, others⟩ :: world.drops := by
  obtain ⟨f, hf⟩ := Option.isSome_iff_exists.mp h
  simp only [World.drop, hf]

theorem Inv.drop_isSome (h : Inv env map) (hclone : map.config.clone.isSome) :
    map.config.drop.isSome := by
  rw [← Option.ne_none_iff_isSome] at hclone ⊢
  exact fun hnone => hclone (h.drop_isNone_iff.mp hnone)

theorem set_perm {α : Type*} {l : List α} {i : ℕ} {x : α} (h : i < l.length) :
    (l.set i x).Perm (x :: l.eraseIdx i) := by
  have hset := List.getElem_cons_eraseIdx_perm (l := l.set i x) (n := i) (by simpa using h)
  rw [List.getElem_set_self, List.eraseIdx_set_eq] at hset
  exact hset.symm

/-- The entry argument of a map without `clone` brings no resource into it. -/
theorem entry_resource_none (hu : Untagged (some map)) (hnone : map.config.clone = none) :
    (source.entry map).key.resource = none := by
  cases source with
  | null => rfl
  | outside address memory => rfl
  | inside offset =>
      simp only [Source.entry, Entry.ofBytes]
      split_ifs
      · cases hget : map.entries[offset / map.entrySize]? with
        | none => rfl
        | some e => exact hu map rfl hnone e (List.mem_of_getElem? hget)
      · rfl

/-! ## Updates -/

/-- The resource of a stored entry is a new one, or the map owns nothing. -/
theorem Stored.account {e : Entry} (h : Stored env world map source e world')
    (hclone : map.config.clone.isSome) {held : List (Option ℕ)} (hacc : Account world held) :
    Account world' (e.key.resource :: held) := by
  obtain ⟨hnone, -, -⟩ | ⟨-, hres, hnext⟩ := h.resource
  · rw [hnone] at hclone
    cases hclone
  · rw [hres]
    exact hacc.create hnext h.drops

theorem Stored.quiet {e : Entry} (h : Stored env world map source e world')
    (hclone : map.config.clone = none) : Quiet world world' := by
  obtain ⟨-, -, hnext⟩ | ⟨hsome, -, -⟩ := h.resource
  · exact ⟨hnext, h.drops⟩
  · rw [hclone] at hsome
    cases hsome

theorem Stored.le {e : Entry} (h : Stored env world map source e world') :
    world.resources ≤ world'.resources := by
  obtain ⟨-, -, hnext⟩ | ⟨-, -, hnext⟩ := h.resource <;> omega

theorem Stored.untagged {e : Entry} (h : Stored env world map source e world')
    (hclone : map.config.clone = none) (hu : Untagged (some map)) : e.key.resource = none := by
  obtain ⟨-, hres, -⟩ | ⟨hsome, -, -⟩ := h.resource
  · rw [hres]
    exact entry_resource_none hu hclone
  · rw [hclone] at hsome
    cases hsome

/-- A map without `clone` owns nothing before and after a change of its entries. -/
theorem Moves.of_clone_none {es : List Entry} (hclone : map.config.clone = none)
    (hquiet : Quiet world world')
    (hes : Untagged (some map) → ∀ e ∈ es, e.key.resource = none) :
    Moves world (some map) world' (some (map.withEntries es)) := by
  apply Moves.of_quiet hquiet
  · rw [heldBy, heldBy, held_of_none hclone, held_of_none (show (map.withEntries es).config.clone =
      none from hclone)]
  · intro hu m hm _ e he
    cases hm
    exact hes hu e he

theorem abandoned_moves {e : Entry} {w₁ w₂ : World} (h : Inv env map) (created : Bool)
    (hcreated : created = true → map.entries = []) (hstored : Stored env world map source e w₁)
    (hquiet : Quiet w₁ w₂) :
    Moves world (some map) (w₂.drop env map.config e.key map.resources).2
      (if created then none else some map) := by
  have hheld : heldBy (if created then none else some map) = map.held := by
    cases created with
    | false => rfl
    | true => simp [heldBy, LorMap.held, LorMap.resources, hcreated rfl]
  have hu : Untagged (some map) → Untagged (if created then none else some map) := by
    intro hu
    cases created with
    | false => exact hu
    | true => intro m hm; cases hm
  cases hclone : map.config.clone with
  | none =>
      rw [drop_of_none (h.drop_isNone_iff.mpr hclone)]
      have hq := (hstored.quiet hclone).trans hquiet
      exact Moves.of_quiet hq hheld hu
  | some f =>
      have hsome : map.config.clone.isSome := by simp [hclone]
      have hresources := drop_resources env w₂ map.config e.key map.resources
      refine ⟨?_, ?_, ?_, hu⟩
      · rw [hresources, hquiet.resources]
        exact hstored.le
      · intro rest hacc
        rw [hheld]
        refine ((hstored.account hsome hacc).quiet hquiet).drop ?_ hresources
          (drop_drops (h.drop_isSome hsome) e.key map.resources)
        intro o ho
        rw [heldBy, held_of_isSome hsome]
        exact List.mem_append_left rest ho
      · intro r hr
        rw [hheld] at hr
        exact Or.inl hr

theorem replaced_moves {i : ℕ} {old e : Entry} {w₁ : World} (h : Inv env map)
    (hold : map.entries[i]? = some old) (hstored : Stored env world map source e w₁) :
    Moves world (some map) (w₁.drop env map.config old.key (map.resources.eraseIdx i)).2
      (some (map.withEntries (map.entries.set i e))) := by
  obtain ⟨hi, hget⟩ := List.getElem?_eq_some_iff.mp hold
  cases hclone : map.config.clone with
  | none =>
      rw [drop_of_none (h.drop_isNone_iff.mpr hclone)]
      apply Moves.of_clone_none hclone (hstored.quiet hclone)
      intro hu x hx
      rcases List.mem_or_eq_of_mem_set hx with hx | hx
      · exact hu map rfl hclone x hx
      · subst x
        exact hstored.untagged hclone hu
  | some f =>
      have hsome : map.config.clone.isSome := by simp [hclone]
      have hi' : i < map.resources.length := by simpa [LorMap.resources] using hi
      have hheld : heldBy (some (map.withEntries (map.entries.set i e))) =
          map.resources.set i e.key.resource := by
        rw [held_withEntries hsome, List.map_set]
        rfl
      have hold' : map.resources[i] = old.key.resource := by
        simp [LorMap.resources, hget]
      have hbefore : (old.key.resource :: map.resources.eraseIdx i).Perm map.resources := by
        rw [← hold']
        exact List.getElem_cons_eraseIdx_perm hi'
      have hresources := drop_resources env w₁ map.config old.key
        (map.resources.eraseIdx i)
      refine ⟨?_, ?_, ?_, ?_⟩
      · rw [hresources]
        exact hstored.le
      · intro rest hacc
        rw [heldBy, held_of_isSome hsome] at hacc
        have hnew := hstored.account hsome hacc
        have hold : Account w₁ (old.key.resource ::
            (e.key.resource :: map.resources.eraseIdx i ++ rest)) :=
          hnew.perm ((List.Perm.swap _ _ _).trans ((hbefore.append_right rest).cons _))
        rw [hheld]
        refine (hold.drop ?_ hresources (drop_drops (h.drop_isSome hsome) _ _)).perm
          ((set_perm hi').append_right rest)
        intro o ho
        exact List.mem_append_left rest (List.mem_cons_of_mem _ ho)
      · intro r hr
        rw [hheld] at hr
        rcases List.mem_or_eq_of_mem_set hr with hr | hr
        · left
          rw [heldBy, held_of_isSome hsome]
          exact hr
        · right
          obtain ⟨hnone, -, -⟩ | ⟨-, hres, hnext⟩ := hstored.resource
          · rw [hnone] at hsome
            cases hsome
          · refine ⟨world.resources, hr.trans hres, le_rfl, ?_⟩
            rw [hresources]
            omega
      · intro _ m hm hnone
        cases hm
        rw [config_withEntries, hclone] at hnone
        cases hnone

theorem appended_moves {e : Entry} {moved : LorMap} {w₁ w₂ : World}
    (hstored : Stored env world map source e w₁) (hquiet : Quiet w₁ w₂)
    (hresized : Resized (map.withEntries (map.entries ++ [e])) moved) :
    Moves world (some map) w₂ (some moved) := by
  have hmoved : Moves w₂ (some (map.withEntries (map.entries ++ [e]))) w₂ (some moved) :=
    Moves.of_quiet (Quiet.refl w₂) (held_resized hresized) (untagged_resized hresized)
  refine Moves.trans ?_ hmoved
  cases hclone : map.config.clone with
  | none =>
      apply Moves.of_clone_none hclone ((hstored.quiet hclone).trans hquiet)
      intro hu x hx
      rcases List.mem_append.mp hx with hx | hx
      · exact hu map rfl hclone x hx
      · rw [List.mem_singleton.mp hx]
        exact hstored.untagged hclone hu
  | some f =>
      have hsome : map.config.clone.isSome := by simp [hclone]
      have hheld : heldBy (some (map.withEntries (map.entries ++ [e]))) =
          map.resources ++ [e.key.resource] := by
        rw [held_withEntries hsome, List.map_append]
        rfl
      refine ⟨?_, ?_, ?_, ?_⟩
      · rw [hquiet.resources]
        exact hstored.le
      · intro rest hacc
        rw [heldBy, held_of_isSome hsome] at hacc
        rw [hheld]
        exact ((hstored.account hsome hacc).quiet hquiet).perm
          ((List.perm_append_singleton e.key.resource map.resources).append_right rest)
      · intro r hr
        rw [hheld] at hr
        rcases List.mem_append.mp hr with hr | hr
        · left
          rw [heldBy, held_of_isSome hsome]
          exact hr
        · right
          obtain ⟨hnone, -, -⟩ | ⟨-, hres, hnext⟩ := hstored.resource
          · rw [hnone] at hsome
            cases hsome
          · refine ⟨world.resources, (List.mem_singleton.mp hr).trans hres, le_rfl, ?_⟩
            rw [hquiet.resources]
            omega
      · intro _ m hm hnone
        cases hm
        rw [config_withEntries, hclone] at hnone
        cases hnone

theorem SetOutcome.moves {created : Bool} {status : Status} {handle' : Option LorMap}
    (h : Inv env map) (hcreated : created = true → map.entries = [])
    (hout : SetOutcome env world map created source status handle' world') :
    Moves world (some map) world' handle' := by
  cases hout with
  | rejected _ hquiet => exact Moves.of_quiet hquiet rfl id
  | abandoned _ hstored hquiet => exact abandoned_moves h created hcreated hstored hquiet
  | replaced hold _ hstored => exact replaced_moves h hold hstored
  | appended _ hstored hquiet hresized => exact appended_moves hstored hquiet hresized

/-! ## The operations -/

variable {handle handle' : Option LorMap} {status : Status} {entrySize keySize : ℕ}

theorem fresh_moves {config : Config} (hquiet : Quiet world world')
    (hfresh : Fresh map entrySize keySize config) : Moves world none world' (some map) :=
  .of_quiet hquiet (held_fresh hfresh) (fun _ => untagged_fresh hfresh)

theorem initRaw_moves {config : Config}
    (heq : initRaw env world handle entrySize keySize config = (status, handle', world')) :
    Moves world handle world' handle' := by
  obtain ⟨status₁, handle₁, w₁, heq₁, hquiet, hcase⟩ :=
    initRaw_cases env world handle entrySize keySize config
  rw [heq] at heq₁
  cases heq₁
  obtain ⟨-, rfl⟩ | ⟨-, rfl, -, -, header, rfl, hfresh⟩ := hcase
  · exact .of_quiet hquiet rfl id
  · exact fresh_moves hquiet hfresh

theorem reserveRaw_moves {required : ℕ} (hinv : ∀ m, handle = some m → Inv env m)
    (heq : reserveRaw env world handle entrySize keySize required =
      some (status, handle', world')) : Moves world handle world' handle' := by
  obtain ⟨status₁, handle₁, w₁, heq₁, hquiet, hcase⟩ :=
    reserveRaw_cases world handle entrySize keySize required hinv
  rw [heq] at heq₁
  cases heq₁
  obtain ⟨-, rfl⟩ | ⟨-, -, rfl⟩ | ⟨-, header, moved, rfl, -, -, hresized, rfl | ⟨rfl, hfresh⟩⟩ :=
    hcase
  · exact .of_quiet hquiet rfl id
  · exact .of_quiet hquiet rfl id
  · exact .of_quiet hquiet (held_resized hresized) (untagged_resized hresized)
  · exact (fresh_moves hquiet hfresh).trans
      (.of_quiet (Quiet.refl _) (held_resized hresized) (untagged_resized hresized))

theorem setRaw_moves (hinv : ∀ m, handle = some m → Inv env m)
    (hlaw : ∀ m, handle = some m → Lawful env m.config m.keySize)
    (hs : source.Valid handle entrySize)
    (heq : setRaw env world handle entrySize keySize source = some (status, handle', world')) :
    Moves world handle world' handle' := by
  obtain ⟨status₁, handle₁, w', heq₁, -, hcase⟩ := setRaw_cases world keySize hinv hlaw hs
  rw [heq] at heq₁
  cases heq₁
  obtain ⟨-, rfl, hquiet⟩ | ⟨map, created, w₁, htarget, hquiet, hout, -⟩ := hcase
  · exact .of_quiet hquiet rfl id
  · rcases htarget.handle with ⟨hsome, rfl⟩ | ⟨hnone, -, hfresh⟩
    · subst hsome
      exact (Moves.of_quiet hquiet rfl id).trans (hout.moves htarget.inv (by simp))
    · subst hnone
      exact (fresh_moves hquiet hfresh).trans
        (hout.moves htarget.inv (fun _ => hfresh.entries))

theorem removeRaw_moves {removed : Bool} (hinv : ∀ m, handle = some m → Inv env m)
    (hlaw : ∀ m, handle = some m → Lawful env m.config m.keySize)
    (hs : source.Valid handle keySize)
    (heq : removeRaw env world handle entrySize keySize source =
      some (removed, handle', world')) : Moves world handle world' handle' := by
  obtain ⟨heq₁, -⟩ | ⟨m, i, old, moved, rfl, -, hold, -, heq₁, -, hresized⟩ :=
    removeRaw_cases world entrySize hinv hlaw hs
  · rw [heq] at heq₁
    cases heq₁
    exact .refl world handle
  rw [heq] at heq₁
  cases heq₁
  have hmoved : ∀ w, Moves w (some (m.withEntries (swapRemove m.entries i))) w (some moved) :=
    fun w => .of_quiet (Quiet.refl w) (held_resized hresized) (untagged_resized hresized)
  refine Moves.trans ?_ (hmoved _)
  obtain ⟨hi, hget⟩ := List.getElem?_eq_some_iff.mp hold
  cases hclone : m.config.clone with
  | none =>
      rw [drop_of_none ((hinv m rfl).drop_isNone_iff.mpr hclone)]
      apply Moves.of_clone_none hclone (Quiet.refl world)
      intro hu x hx
      exact hu m rfl hclone x (List.mem_of_mem_eraseIdx ((swapRemove_perm hi).mem_iff.mp hx))
  | some f =>
      have hsome : m.config.clone.isSome := by simp [hclone]
      have hi' : i < m.resources.length := by simpa [LorMap.resources] using hi
      have hheld : (heldBy (some (m.withEntries (swapRemove m.entries i)))).Perm
          (m.resources.eraseIdx i) := by
        rw [held_withEntries hsome, LorMap.resources, List.eraseIdx_map]
        exact (swapRemove_perm hi).map _
      have hold' : m.resources[i] = old.key.resource := by
        simp [LorMap.resources, hget]
      have hbefore : (old.key.resource :: m.resources.eraseIdx i).Perm m.resources := by
        rw [← hold']
        exact List.getElem_cons_eraseIdx_perm hi'
      have hresources := drop_resources env world m.config old.key
        (m.resources.eraseIdx i)
      refine ⟨hresources.ge, ?_, ?_, ?_⟩
      · intro rest hacc
        rw [heldBy, held_of_isSome hsome] at hacc
        have hold : Account world (old.key.resource :: (m.resources.eraseIdx i ++ rest)) :=
          hacc.perm (hbefore.append_right rest)
        refine (hold.drop ?_ hresources (drop_drops ((hinv m rfl).drop_isSome hsome) _ _)).perm
          (hheld.append_right rest)
        intro o ho
        exact List.mem_append_left rest ho
      · intro r hr
        left
        rw [heldBy, held_of_isSome hsome]
        exact List.mem_of_mem_eraseIdx (hheld.mem_iff.mp hr)
      · intro _ m' hm' hnone
        cases hm'
        rw [config_withEntries, hclone] at hnone
        cases hnone

theorem clear_moves (hinv : ∀ m, handle = some m → Inv env m)
    (heq : clear env world handle = (handle', world')) :
    Moves world handle world' handle' ∧ heldBy handle' = [] := by
  cases handle with
  | none =>
      cases heq
      exact ⟨.refl world none, rfl⟩
  | some m =>
      obtain ⟨w₁, heq₁, hresources, hdrops⟩ := clear_spec env world m
      rw [heq] at heq₁
      cases heq₁
      have hheld : heldBy (some ((m.withEntries []).withBuckets
          (List.replicate m.bucketCapacity 0))) = [] := by
        simp [heldBy, LorMap.held, LorMap.resources]
      refine ⟨⟨hresources.ge, ?_, ?_, ?_⟩, hheld⟩
      · intro rest hacc
        rw [hheld, List.nil_append]
        cases hclone : m.config.clone with
        | none =>
            rw [(hinv m rfl).drop_isNone_iff.mpr hclone] at hdrops
            rw [heldBy, held_of_none hclone] at hacc
            exact hacc.quiet ⟨hresources, hdrops⟩
        | some f =>
            have hsome : m.config.clone.isSome := by simp [hclone]
            rw [if_pos ((hinv m rfl).drop_isSome hsome)] at hdrops
            rw [heldBy, held_of_isSome hsome] at hacc
            exact hacc.dropAll hresources hdrops
      · intro r hr
        rw [hheld] at hr
        cases hr
      · intro _ m' hm' _ e he
        cases hm'
        cases he

theorem deinit_moves (hinv : ∀ m, handle = some m → Inv env m)
    (heq : deinit env world handle = (handle', world')) :
    Moves world handle world' handle' ∧ handle' = none := by
  obtain ⟨hclear, hheld⟩ := clear_moves hinv
    (show clear env world handle = ((clear env world handle).1, world') by
      simp only [deinit, Prod.mk.injEq] at heq
      rw [← heq.2])
  simp only [deinit, Prod.mk.injEq] at heq
  obtain ⟨rfl, -⟩ := heq
  refine ⟨hclear.trans (.of_quiet (Quiet.refl _) hheld.symm ?_), rfl⟩
  intro _ m hm
  cases hm

theorem step_moves {s s' : State} {op : Op} {result : Result}
    (hinv : ∀ m, s.map = some m → Inv env m)
    (hlaw : ∀ m, s.map = some m → Lawful env m.config m.keySize) (hop : op.Legal env s.map)
    (hstep : step env s op = some (result, s')) : Moves s.world s.map s'.world s'.map := by
  cases op with
  | init entrySize keySize config =>
      simp only [step, Option.some.injEq, Prod.mk.injEq] at hstep
      obtain ⟨-, rfl⟩ := hstep
      exact initRaw_moves rfl
  | reserve entrySize keySize required =>
      simp only [step, Option.map_eq_some_iff] at hstep
      obtain ⟨⟨status, map, world⟩, heq, hs'⟩ := hstep
      cases hs'
      exact reserveRaw_moves hinv heq
  | set entrySize keySize entry =>
      simp only [step, Option.map_eq_some_iff] at hstep
      obtain ⟨⟨status, map, world⟩, heq, hs'⟩ := hstep
      cases hs'
      exact setRaw_moves hinv hlaw hop heq
  | remove entrySize keySize key =>
      simp only [step, Option.map_eq_some_iff] at hstep
      obtain ⟨⟨removed, map, world⟩, heq, hs'⟩ := hstep
      cases hs'
      exact removeRaw_moves hinv hlaw hop heq
  | clear =>
      simp only [step, Option.some.injEq, Prod.mk.injEq] at hstep
      obtain ⟨-, rfl⟩ := hstep
      exact (clear_moves hinv rfl).1
  | deinit =>
      simp only [step, Option.some.injEq, Prod.mk.injEq] at hstep
      obtain ⟨-, rfl⟩ := hstep
      exact (deinit_moves hinv rfl).1

end Liblor.Map
