import Liblor.HeaderModel

/-!
# The order of the modules

Both traversals are depth-first searches over the names of the modules. They succeed if all
dependencies are known and none of them is circular; then the modules come once each, behind their
dependencies, and the dependency macros of a module are those of the modules that it depends on,
directly or not.
-/

namespace Liblor.SingleHeader

open Preprocessor DepthFirst Relation

variable {modules : List Module} {β : Type} {label : Module → β}

section Names

theorem mem_of_modulesByName {name : Text} {m : Module} (h : modulesByName modules name = some m) :
    m ∈ modules ∧ m.name = name := by
  have hname := List.find?_some (p := fun m : Module => m.name == name) h
  exact ⟨List.mem_reverse.1 (List.mem_of_find?_eq_some h), beq_iff_eq.1 hname⟩

theorem modulesByName_of_mem (hnames : (modules.map Module.name).Nodup) {m : Module}
    (hm : m ∈ modules) : modulesByName modules m.name = some m := by
  cases hfind : modulesByName modules m.name with
  | none =>
      have hnone := List.find?_eq_none.1 hfind m (List.mem_reverse.2 hm)
      simp at hnone
  | some n =>
      obtain ⟨hn, hname⟩ := mem_of_modulesByName hfind
      rw [List.inj_on_of_nodup_map hnames hn hm hname]

theorem modulesByName_eq_none {name : Text} (h : name ∉ modules.map Module.name) :
    modulesByName modules name = none := by
  cases hfind : modulesByName modules name with
  | none => rfl
  | some m =>
      obtain ⟨hm, rfl⟩ := mem_of_modulesByName hfind
      exact absurd (List.mem_map_of_mem hm) h

variable (label) in
theorem expand_of_mem (hnames : (modules.map Module.name).Nodup) {m : Module} (hm : m ∈ modules) :
    expand modules label m.name = .ok (m.dependencies, label m) := by
  rw [expand, modulesByName_of_mem hnames hm]

theorem expand_ok {name : Text} {children : List Text} {b : β}
    (h : expand modules label name = .ok (children, b)) :
    ∃ m ∈ modules, m.name = name ∧ m.dependencies = children ∧ label m = b := by
  unfold expand at h
  split at h
  · cases h
  · next m hm =>
      cases h
      obtain ⟨hmem, hname⟩ := mem_of_modulesByName hm
      exact ⟨m, hmem, hname, rfl, rfl⟩

theorem expand_known {name : Text} {children : List Text} {b : β}
    (h : expand modules label name = .ok (children, b)) :
    name ∈ (modules.map Module.name).toFinset := by
  obtain ⟨m, hm, rfl, -⟩ := expand_ok h
  exact List.mem_toFinset.2 (List.mem_map_of_mem hm)

theorem card_names (modules : List Module) :
    (modules.map Module.name).toFinset.card < modules.length + 1 := by
  have hcard := List.toFinset_card_le (modules.map Module.name)
  rw [List.length_map] at hcard
  omega

end Names

/-! ## Paths -/

section Paths

variable (label) in
theorem edge_of_mem (hnames : (modules.map Module.name).Nodup) {m : Module} (hm : m ∈ modules)
    {d : Text} (hd : d ∈ m.dependencies) : Edge (expand modules label) m.name d :=
  ⟨m.dependencies, label m, expand_of_mem label hnames hm, hd⟩

theorem edge_of_depends (hnames : (modules.map Module.name).Nodup) {m n : Module}
    (h : Depends modules m n) : Edge (expand modules label) m.name n.name :=
  edge_of_mem label hnames h.1 h.2.2

theorem depends_of_edge (hnames : (modules.map Module.name).Nodup) (hknown : ¬ HasUnknown modules)
    {m : Module} (hm : m ∈ modules) {d : Text} (h : Edge (expand modules label) m.name d) :
    ∃ n, n.name = d ∧ Depends modules m n := by
  obtain ⟨children, b, hexpand, hd⟩ := h
  rw [expand_of_mem label hnames hm] at hexpand
  cases hexpand
  have hmem : d ∈ modules.map Module.name := by
    by_contra hunknown
    exact hknown ⟨m, hm, d, hd, hunknown⟩
  obtain ⟨n, hn, rfl⟩ := List.mem_map.1 hmem
  exact ⟨n, rfl, hm, hn, hd⟩

theorem mem_of_transGen {m n : Module} (h : TransGen (Depends modules) m n) : n ∈ modules := by
  obtain ⟨k, -, hlast⟩ := TransGen.tail'_iff.1 h
  exact hlast.2.1

variable (label) in
theorem transGen_depends (hnames : (modules.map Module.name).Nodup) (hknown : ¬ HasUnknown modules)
    {m : Module} (hm : m ∈ modules) {d : Text} :
    TransGen (Edge (expand modules label)) m.name d ↔
      ∃ n, n.name = d ∧ TransGen (Depends modules) m n := by
  constructor
  · intro h
    induction h with
    | single hedge =>
        obtain ⟨n, rfl, hdepends⟩ := depends_of_edge hnames hknown hm hedge
        exact ⟨n, rfl, TransGen.single hdepends⟩
    | tail _ hedge ih =>
        obtain ⟨n, rfl, hpath⟩ := ih
        obtain ⟨n', rfl, hdepends⟩ := depends_of_edge hnames hknown (mem_of_transGen hpath) hedge
        exact ⟨n', rfl, hpath.tail hdepends⟩
  · rintro ⟨n, rfl, hpath⟩
    exact hpath.lift Module.name fun _ _ hdepends => edge_of_depends hnames hdepends

variable (label) in
theorem sane_names (hnames : (modules.map Module.name).Nodup) :
    Sane (expand modules label) (modules.map Module.name) ↔
      ¬ (HasUnknown modules ∨ HasCycle modules) := by
  rw [not_or]
  constructor
  · intro hsane
    constructor
    · rintro ⟨m, hm, d, hd, hunknown⟩
      have hreach := ReflTransGen.single (edge_of_mem label hnames hm hd)
      obtain ⟨⟨children, b, hexpand⟩, -⟩ := hsane _ (List.mem_map_of_mem hm) d hreach
      rw [expand, modulesByName_eq_none hunknown] at hexpand
      cases hexpand
    · rintro ⟨m, hcycle⟩
      have hm : m ∈ modules := by
        obtain ⟨k, hfirst, -⟩ := TransGen.head'_iff.1 hcycle
        exact hfirst.1
      exact (hsane _ (List.mem_map_of_mem hm) _ ReflTransGen.refl).2
        (hcycle.lift Module.name fun _ _ hdepends => edge_of_depends hnames hdepends)
  · rintro ⟨hknown, hacyclic⟩ r hr a hreach
    obtain ⟨m, hm, rfl⟩ := List.mem_map.1 hr
    obtain ⟨n, hn, rfl⟩ : ∃ n ∈ modules, n.name = a := by
      rcases reflTransGen_iff_eq_or_transGen.1 hreach with rfl | hpath
      · exact ⟨m, hm, rfl⟩
      · obtain ⟨n, hname, hdepends⟩ := (transGen_depends label hnames hknown hm).1 hpath
        exact ⟨n, mem_of_transGen hdepends, hname⟩
    refine ⟨⟨_, _, expand_of_mem label hnames hn⟩, fun hcycle => ?_⟩
    obtain ⟨n', hname, hpath⟩ := (transGen_depends label hnames hknown hn).1 hcycle
    rw [List.inj_on_of_nodup_map hnames (mem_of_transGen hpath) hn hname] at hpath
    exact hacyclic ⟨n, hpath⟩

end Paths

/-! ## `order_modules` -/

section Order

variable {fuel : ℕ} {s : Search Text Module} {order : List Text}

/-- The names of the modules that a search has not begun to visit. -/
def unvisited (modules : List Module) (s : Search Text Module) : Finset Text :=
  (modules.map Module.name).toFinset \ s.visiting

/-- A state that a search can be in before it visits something under `below`. -/
structure Ready (modules : List Module) (fuel : ℕ) (s : Search Text Module) (order : List Text)
    (below : List Text) : Prop where
  fuel_lt : (unvisited modules s).card < fuel
  sound : Sound (expand modules id) s order
  below : ∀ d ∈ below, Below (expand modules id) s d
  visiting : ∀ d ∈ s.visiting, d ∈ modules.map Module.name

theorem visit_outcome {a : Text} (h : Ready modules fuel s order [a]) :
    Outcome (expand modules id) cyclicDependency s order [a]
      (visit (expand modules id) cyclicDependency fuel s a) :=
  visit_spec (fun _ _ _ => expand_known) fuel s order a h.fuel_lt h.sound
    (h.below a List.mem_cons_self)

/-- An unknown dependency is refused at once, as it has not been visited. -/
theorem visit_unknown {a : Text} (h : Ready modules fuel s order [a])
    (hunknown : modulesByName modules a = none) :
    visit (expand modules id) cyclicDependency fuel s a = .error (some (unknownDependency a)) := by
  have hfuel := h.fuel_lt
  obtain ⟨n, rfl⟩ : ∃ n, fuel = n + 1 := ⟨fuel - 1, by omega⟩
  have hexpand : expand modules id a = .error (unknownDependency a) := by
    rw [expand, hunknown]
  have hvisited : a ∉ s.visited := by
    intro hmem
    obtain ⟨children, b, hknown, -⟩ := h.sound.finished.known ((h.sound.visited a).1 hmem)
    rw [hexpand] at hknown
    cases hknown
  have hvisiting : a ∉ s.visiting := by
    intro hmem
    obtain ⟨m, hm, rfl⟩ := List.mem_map.1 (h.visiting a hmem)
    have hnone := List.find?_eq_none.1 hunknown m (List.mem_reverse.2 hm)
    simp at hnone
  rw [visit, if_neg hvisited, if_neg hvisiting, hexpand]

/-- The loop over dependencies visits them as the search does, if visits of modules do. -/
theorem visitDependencies_eq
    (hvisit : ∀ (s : Search Text Module) (order : List Text) (m : Module), m ∈ modules →
      Ready modules fuel s order [m.name] → visitModule modules fuel s m =
        visit (expand modules id) cyclicDependency fuel s m.name)
    (dependencies : List Text) (h : Ready modules fuel s order dependencies) :
    dependencies.foldlM (visitDependency modules (visitModule modules fuel)) s =
      visitAll (expand modules id) cyclicDependency fuel s dependencies := by
  induction dependencies generalizing s order with
  | nil => rfl
  | cons d dependencies ih =>
      have hready : Ready modules fuel s order [d] := by
        refine ⟨h.fuel_lt, h.sound, ?_, h.visiting⟩
        rw [List.forall_mem_singleton]
        exact h.below d List.mem_cons_self
      have hfirst : visitDependency modules (visitModule modules fuel) s d =
          visit (expand modules id) cyclicDependency fuel s d := by
        unfold visitDependency
        cases hfind : modulesByName modules d with
        | none => exact (visit_unknown hready hfind).symm
        | some m =>
            obtain ⟨hm, rfl⟩ := mem_of_modulesByName hfind
            exact hvisit s order m hm hready
      have houtcome := visit_outcome hready
      rw [visitAll, List.foldlM_cons, List.foldlM_cons, hfirst]
      cases hresult : visit (expand modules id) cyclicDependency fuel s d with
      | error e => rfl
      | ok s' =>
          rw [hresult] at houtcome
          cases houtcome with
          | ok more hmore =>
              have hunvisited : unvisited modules s' = unvisited modules s := by
                rw [unvisited, unvisited, hmore.visiting]
              have hready' : Ready modules fuel s' (order ++ more) dependencies := by
                refine ⟨hunvisited ▸ h.fuel_lt, hmore.sound, ?_, ?_⟩
                · intro d' hd' v hv
                  rw [hmore.visiting] at hv
                  exact h.below d' (List.mem_cons_of_mem _ hd') v hv
                · rw [hmore.visiting]
                  exact h.visiting
              exact ih hready'

theorem visitModule_eq (hnames : (modules.map Module.name).Nodup) (fuel : ℕ)
    (s : Search Text Module) (order : List Text) (m : Module) (hm : m ∈ modules)
    (h : Ready modules fuel s order [m.name]) :
    visitModule modules fuel s m =
      visit (expand modules id) cyclicDependency fuel s m.name := by
  induction fuel generalizing s order m with
  | zero => exact absurd h.fuel_lt (Nat.not_lt_zero _)
  | succ fuel ih =>
      have hexpand := expand_of_mem id hnames hm
      rw [visitModule, visit]
      by_cases hvisited : m.name ∈ s.visited
      · rw [if_pos hvisited, if_pos hvisited]
      rw [if_neg hvisited, if_neg hvisited]
      by_cases hvisiting : m.name ∈ s.visiting
      · rw [if_pos hvisiting, if_pos hvisiting]
      rw [if_neg hvisiting, if_neg hvisiting, hexpand]
      have hready : Ready modules fuel { s with visiting := insert m.name s.visiting } order
          m.dependencies := by
        refine ⟨?_, ⟨h.sound.visited, h.sound.finished⟩, ?_, ?_⟩
        · have hmem : m.name ∈ unvisited modules s := Finset.mem_sdiff.2
            ⟨List.mem_toFinset.2 (List.mem_map_of_mem hm), hvisiting⟩
          have herase : unvisited modules { s with visiting := insert m.name s.visiting } =
              (unvisited modules s).erase m.name := by
            rw [unvisited, unvisited, Finset.sdiff_insert]
          have hpositive := Finset.card_pos.2 ⟨m.name, hmem⟩
          have hfuel := h.fuel_lt
          rw [herase, Finset.card_erase_of_mem hmem]
          omega
        · intro d hd v hv
          have hedge := edge_of_mem id hnames hm hd
          rcases Finset.mem_insert.1 hv with rfl | hv
          · exact TransGen.single hedge
          · exact (h.below m.name List.mem_cons_self v hv).tail hedge
        · intro d hd
          rcases Finset.mem_insert.1 hd with rfl | hd
          · exact List.mem_map_of_mem hm
          · exact h.visiting d hd
      rw [visitDependencies_eq ih m.dependencies hready, visitAll]
      dsimp only
      generalize m.dependencies.foldlM (visit (expand modules id) cyclicDependency fuel)
        { s with visiting := insert m.name s.visiting } = result
      cases result with
      | error e => rfl
      | ok s' => rfl

theorem foldlM_visitDependency (hnames : (modules.map Module.name).Nodup) (s : Search Text Module)
    (roots : List Module) (hroots : ∀ m ∈ roots, m ∈ modules) :
    (roots.map Module.name).foldlM (visitDependency modules (visitModule modules fuel)) s =
      roots.foldlM (visitModule modules fuel) s := by
  induction roots generalizing s with
  | nil => rfl
  | cons m roots ih =>
      have hm := hroots m List.mem_cons_self
      rw [List.map_cons, List.foldlM_cons, List.foldlM_cons, visitDependency,
        modulesByName_of_mem hnames hm]
      dsimp only
      congr 1
      funext s'
      exact ih s' fun n hn => hroots n (List.mem_cons_of_mem _ hn)

theorem orderModules_eq (hnames : (modules.map Module.name).Nodup) :
    orderModules modules = (visitAll (expand modules id) cyclicDependency (modules.length + 1)
      .empty (modules.map Module.name)).map Search.result := by
  have hready : Ready modules (modules.length + 1) .empty [] (modules.map Module.name) := by
    refine ⟨?_, ⟨by simp [Search.empty], Finished.nil⟩, ?_, ?_⟩
    · exact (Finset.card_le_card Finset.sdiff_subset).trans_lt (card_names modules)
    · intro d hd v hv
      simp [Search.empty] at hv
    · intro d hd
      simp [Search.empty] at hd
  rw [orderModules, ← visitDependencies_eq (visitModule_eq hnames _) _ hready,
    foldlM_visitDependency hnames _ _ fun _ hm => hm]

/-- `order_modules` fails exactly if a dependency is unknown or circular. -/
theorem orderModules_error (hnames : (modules.map Module.name).Nodup) :
    (∃ message, orderModules modules = .error (some message)) ↔
      HasUnknown modules ∨ HasCycle modules := by
  have hsane := sane_names id hnames
  rw [orderModules_eq hnames]
  constructor
  · rintro ⟨message, herror⟩
    by_contra hgood
    obtain ⟨s, order, hok, -⟩ := search_sane cyclicDependency
      (fun _ _ _ => expand_known) (card_names modules) (hsane.2 hgood)
    rw [hok] at herror
    cases herror
  · intro hbad
    obtain ⟨message, herror, -⟩ := search_insane cyclicDependency
      (fun _ _ _ => expand_known) (card_names modules) fun h => hsane.1 h hbad
    rw [herror]
    exact ⟨message, rfl⟩

/-- What a search has recorded belongs to modules. -/
theorem modules_of_finished {order : List Text} {result : List β}
    (h : Finished (expand modules label) order result) :
    ∃ found : List Module, (∀ m ∈ found, m ∈ modules) ∧ found.map Module.name = order ∧
      found.map label = result := by
  have hrecorded := h.recorded
  clear h
  induction hrecorded with
  | nil => exact ⟨[], by simp, rfl, rfl⟩
  | cons hfirst _ ih =>
      obtain ⟨children, hexpand⟩ := hfirst
      obtain ⟨m, hm, rfl, -, rfl⟩ := expand_ok hexpand
      obtain ⟨found, hfound, rfl, rfl⟩ := ih
      exact ⟨m :: found, List.forall_mem_cons.2 ⟨hm, hfound⟩, rfl, rfl⟩

/-- Otherwise it lists every module once, behind its dependencies. -/
theorem orderModules_ok (hnames : (modules.map Module.name).Nodup)
    (hgood : ¬ (HasUnknown modules ∨ HasCycle modules)) :
    ∃ ordered, orderModules modules = .ok ordered ∧ ordered.Perm modules ∧
      ∀ first m rest, ordered = first ++ m :: rest →
        ∀ d ∈ m.dependencies, ∃ n ∈ first, n.name = d := by
  obtain ⟨s, order, hok, hfinished, horder⟩ := search_sane cyclicDependency
    (fun _ _ _ => expand_known) (card_names modules) ((sane_names id hnames).2 hgood)
  obtain ⟨found, hfound, rfl, hresult⟩ := modules_of_finished hfinished
  rw [List.map_id] at hresult
  refine ⟨found, ?_, ?_, ?_⟩
  · rw [orderModules_eq hnames, hok, hresult]
    rfl
  · refine (List.perm_ext_iff_of_nodup hfinished.nodup.of_map hnames.of_map).2 fun m => ?_
    refine ⟨hfound m, fun hm => ?_⟩
    have hmem := (horder m.name).2 ⟨_, List.mem_map_of_mem hm, ReflTransGen.refl⟩
    obtain ⟨n, hn, hname⟩ := List.mem_map.1 hmem
    rwa [List.inj_on_of_nodup_map hnames (hfound n hn) hm hname] at hn
  · intro first m rest hsplit d hd
    have hm : m ∈ modules := hfound m (by simp [hsplit])
    have horder' : found.map Module.name =
        first.map Module.name ++ m.name :: rest.map Module.name := by
      rw [hsplit, List.map_append, List.map_cons]
    obtain ⟨n, hn, rfl⟩ := List.mem_map.1 (hfinished.before horder' (edge_of_mem id hnames hm hd))
    exact ⟨n, hn, rfl⟩

end Order

/-! ## `module_dependency_macros` -/

theorem moduleDependencyMacros_ok (hnames : (modules.map Module.name).Nodup)
    (hgood : ¬ (HasUnknown modules ∨ HasCycle modules)) {m : Module} (hm : m ∈ modules) :
    ∃ macros, moduleDependencyMacros m modules = .ok macros ∧
      ∀ x, x ∈ macros ↔ ∃ n, TransGen (Depends modules) m n ∧ n.enableMacro = x := by
  have hsane : Sane (expand modules Module.enableMacro) m.dependencies := by
    intro d hd a hreach
    have hedge := edge_of_mem Module.enableMacro hnames hm hd
    exact (sane_names _ hnames).2 hgood _ (List.mem_map_of_mem hm) a (hreach.head hedge)
  obtain ⟨s, order, hok, hfinished, horder⟩ := search_sane cyclicDependency
    (fun _ _ _ => expand_known) (card_names modules) hsane
  obtain ⟨found, hfound, rfl, hresult⟩ := modules_of_finished hfinished
  have hreached : ∀ a, a ∈ found.map Module.name ↔
      ∃ n, n.name = a ∧ TransGen (Depends modules) m n := by
    intro a
    rw [horder, ← transGen_depends Module.enableMacro hnames (fun h => hgood (Or.inl h)) hm,
      TransGen.head'_iff]
    constructor
    · rintro ⟨d, hd, hreach⟩
      exact ⟨d, edge_of_mem _ hnames hm hd, hreach⟩
    · rintro ⟨d, ⟨children, b, hexpand, hd⟩, hreach⟩
      rw [expand_of_mem _ hnames hm] at hexpand
      cases hexpand
      exact ⟨d, hd, hreach⟩
  refine ⟨s.result, by rw [moduleDependencyMacros, hok]; rfl, fun x => ?_⟩
  rw [← hresult, List.mem_map]
  constructor
  · rintro ⟨n, hn, rfl⟩
    obtain ⟨n', hname, hpath⟩ := (hreached n.name).1 (List.mem_map_of_mem hn)
    rw [List.inj_on_of_nodup_map hnames (mem_of_transGen hpath) (hfound n hn) hname] at hpath
    exact ⟨n, hpath, rfl⟩
  · rintro ⟨n, hpath, rfl⟩
    obtain ⟨n', hn', hname⟩ := List.mem_map.1 ((hreached n.name).2 ⟨n, rfl, hpath⟩)
    rw [List.inj_on_of_nodup_map hnames (hfound n' hn') (mem_of_transGen hpath) hname] at hn'
    exact ⟨n, hn', rfl⟩

end Liblor.SingleHeader
