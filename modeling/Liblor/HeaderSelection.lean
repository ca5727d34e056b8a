import Liblor.HeaderOrder

/-!
# The macros that the single header enables

The emitted block is read as rules: the modules that a macro enables, and then for each module the
modules that it depends on. The dependencies of a module come with those of its dependencies, so
that one pass over the rules is enough, in whatever order they stand.
-/

namespace Liblor.SingleHeader

open Preprocessor Relation

/-! ## Reading the block -/

section Read

/-- Lines without breaks and comments that are read as these. -/
def Read (sources : List Text) (lines : List Line) : Prop :=
  sources.mapM line = some lines ∧ ∀ source ∈ sources, '\n' ∉ source ∧ '/' ∉ source

theorem Read.nil : Read [] [] := ⟨rfl, by simp⟩

theorem Read.append {sources sources' : List Text} {lines lines' : List Line}
    (h : Read sources lines) (h' : Read sources' lines') :
    Read (sources ++ sources') (lines ++ lines') := by
  refine ⟨?_, List.forall_mem_append.2 ⟨h.2, h'.2⟩⟩
  rw [List.mapM_append, h.1, h'.1]
  rfl

theorem Read.cons {source : Text} {l : Line} {sources : List Text} {lines : List Line}
    (hline : line source = some l) (hplain : '\n' ∉ source ∧ '/' ∉ source)
    (h : Read sources lines) : Read (source :: sources) (l :: lines) := by
  refine ⟨?_, List.forall_mem_cons.2 ⟨hplain, h.2⟩⟩
  rw [List.mapM_cons, hline, h.1]
  rfl

theorem read_endif : Read ["#endif".toList] [.endif] :=
  Read.nil.cons line_endif (by decide)

theorem not_mem_append {first second : Text} (hfirst : '\n' ∉ first ∧ '/' ∉ first)
    (hsecond : '\n' ∉ second ∧ '/' ∉ second) :
    '\n' ∉ first ++ second ∧ '/' ∉ first ++ second := by
  simp only [List.mem_append, not_or]
  exact ⟨⟨hfirst.1, hsecond.1⟩, hfirst.2, hsecond.2⟩

theorem read_defines (macros : List MacroName) :
    Read (macros.map defineLine) ((macros.map MacroName.text).map .define) := by
  induction macros with
  | nil => exact Read.nil
  | cons x macros ih =>
      exact ih.cons (line_define x.isName) (not_mem_append (by decide) x.isName.not_mem)

theorem read_group {source : Text} {c : Condition} (hline : line source = some (.condition c))
    (hplain : '\n' ∉ source ∧ '/' ∉ source) (macros : List MacroName) :
    Read (source :: macros.map defineLine ++ ["#endif".toList])
      (Guarded.mk c (macros.map MacroName.text)).lines :=
  ((read_defines macros).append read_endif).cons hline hplain

theorem not_mem_tests (separator : Text) (hseparator : '\n' ∉ separator ∧ '/' ∉ separator)
    {write : Text → Text} (hwrite : ∀ n, IsName n → '\n' ∉ write n ∧ '/' ∉ write n)
    (macros : List MacroName) :
    '\n' ∉ separator.intercalate (macros.map fun x => write x.text) ∧
      '/' ∉ separator.intercalate (macros.map fun x => write x.text) := by
  constructor
  · refine not_mem_intercalate hseparator.1 fun source hs => ?_
    obtain ⟨x, -, rfl⟩ := List.mem_map.1 hs
    exact (hwrite _ x.isName).1
  · refine not_mem_intercalate hseparator.2 fun source hs => ?_
    obtain ⟨x, -, rfl⟩ := List.mem_map.1 hs
    exact (hwrite _ x.isName).2

theorem not_mem_definedText {n : Text} (h : IsName n) :
    '\n' ∉ definedText n ∧ '/' ∉ definedText n :=
  not_mem_append (not_mem_append (by decide) h.not_mem) (by decide)

theorem not_mem_undefinedText {n : Text} (h : IsName n) :
    '\n' ∉ undefinedText n ∧ '/' ∉ undefinedText n := by
  have hbang : '\n' ∉ ['!'] ∧ '/' ∉ ['!'] := by decide
  exact not_mem_append hbang (not_mem_definedText h)

theorem isName_of_mem (macros : List MacroName) : ∀ n ∈ macros.map MacroName.text, IsName n := by
  intro n hn
  obtain ⟨x, -, rfl⟩ := List.mem_map.1 hn
  exact x.isName

/-- Lines that are read as groups that follow the rules, each behind an empty line. -/
def Realizes (sources : List Text) (rules : List Rule) : Prop :=
  ∃ groups, List.Forall₂ Guarded.Follows groups rules ∧
    Read sources (groups.flatMap fun g => Line.text :: g.lines)

theorem Realizes.nil : Realizes [] [] := ⟨[], List.Forall₂.nil, Read.nil⟩

theorem Realizes.append {sources sources' : List Text} {rules rules' : List Rule}
    (h : Realizes sources rules) (h' : Realizes sources' rules') :
    Realizes (sources ++ sources') (rules ++ rules') := by
  obtain ⟨groups, hfollows, hread⟩ := h
  obtain ⟨groups', hfollows', hread'⟩ := h'
  refine ⟨groups ++ groups', List.rel_append hfollows hfollows', ?_⟩
  rw [List.flatMap_append]
  exact hread.append hread'

theorem realizes_group {source : Text} {c : Condition} {r : Rule} (macros : List MacroName)
    (hline : line source = some (.condition c)) (hplain : '\n' ∉ source ∧ '/' ∉ source)
    (hcondition : ∀ now, c.eval now = r.triggers.any now)
    (hnames : macros.map MacroName.text = r.names) :
    Realizes ([] :: source :: macros.map defineLine ++ ["#endif".toList]) [r] := by
  refine ⟨[⟨c, macros.map MacroName.text⟩], .cons ⟨hnames, hcondition⟩ .nil, ?_⟩
  rw [List.flatMap_singleton]
  exact (read_group hline hplain macros).cons line_blank (by decide)

/-- The rules of the modules that other macros enable. -/
def enabledByRules (m : Module) : List Rule :=
  if m.enabledBy = [] then [] else [⟨m.enabledBy.map MacroName.text, [m.enableMacro.text]⟩]

theorem realizes_enabledBy (m : Module) : Realizes (emitEnabledBy m) (enabledByRules m) := by
  unfold emitEnabledBy enabledByRules
  cases henabledBy : m.enabledBy with
  | nil => exact Realizes.nil
  | cons x rest =>
      rw [if_neg (List.cons_ne_nil _ _), if_neg (List.cons_ne_nil _ _)]
      obtain ⟨c, hread, heval⟩ := condition_some x.text (rest.map MacroName.text)
        (isName_of_mem (x :: rest))
      have htests : (x :: rest).map (fun x => definedText x.text) =
          (x.text :: rest.map MacroName.text).map definedText := by
        simp
      have hplain := not_mem_tests " || ".toList (by decide) (fun n => not_mem_definedText)
        (x :: rest)
      refine realizes_group [m.enableMacro] ?_ (not_mem_append (by decide) hplain) heval rfl
      rw [line_if, htests, hread]
      rfl

theorem realizes_flatMap {emit : Module → List Text} {rules : Module → List Rule}
    (h : ∀ m, Realizes (emit m) (rules m)) (modules : List Module) :
    Realizes (modules.flatMap emit) (modules.flatMap rules) := by
  induction modules with
  | nil => exact Realizes.nil
  | cons m modules ih => exact (h m).append ih

/-- The rule that defines the macros of all modules on which a module depends. -/
def IsDependencyRule (modules : List Module) (m : Module) (r : Rule) : Prop :=
  r.triggers = [m.enableMacro.text] ∧
    ∀ x, x ∈ r.names ↔ ∃ n, TransGen (Depends modules) m n ∧ n.enableMacro.text = x

/-- The rules are those of the modules that depend on others. -/
structure AreDependencyRules (modules ms : List Module) (rules : List Rule) : Prop where
  sound : ∀ r ∈ rules, ∃ m ∈ ms, IsDependencyRule modules m r
  complete : ∀ m ∈ ms, ∀ n, TransGen (Depends modules) m n →
    ∃ r ∈ rules, IsDependencyRule modules m r

variable {modules : List Module}

theorem realizes_emitDependencies (hnames : (modules.map Module.name).Nodup)
    (hgood : ¬ (HasUnknown modules ∨ HasCycle modules)) {m : Module} (hm : m ∈ modules) :
    ∃ lines rules, emitDependencies modules m = .ok lines ∧ Realizes lines rules ∧
      AreDependencyRules modules [m] rules := by
  obtain ⟨macros, hok, hmacros⟩ := moduleDependencyMacros_ok hnames hgood hm
  rw [emitDependencies, hok]
  dsimp only
  by_cases hnil : macros = []
  · refine ⟨_, [], rfl, ?_, by simp, ?_⟩
    · rw [if_pos hnil]
      exact Realizes.nil
    · intro m' hm' n hpath
      rw [List.mem_singleton.1 hm'] at hpath
      have hmem := (hmacros n.enableMacro).2 ⟨n, hpath, rfl⟩
      rw [hnil] at hmem
      cases hmem
  · have hrule : IsDependencyRule modules m ⟨[m.enableMacro.text], macros.map MacroName.text⟩ := by
      refine ⟨rfl, fun x => ?_⟩
      rw [List.mem_map]
      constructor
      · rintro ⟨y, hy, rfl⟩
        obtain ⟨n, hpath, rfl⟩ := (hmacros y).1 hy
        exact ⟨n, hpath, rfl⟩
      · rintro ⟨n, hpath, rfl⟩
        exact ⟨n.enableMacro, (hmacros _).2 ⟨n, hpath, rfl⟩, rfl⟩
    refine ⟨_, [⟨[m.enableMacro.text], macros.map MacroName.text⟩], rfl, ?_, ?_, ?_⟩
    · rw [if_neg hnil]
      exact realizes_group macros (line_ifdef m.enableMacro.isName)
        (not_mem_append (by decide) m.enableMacro.isName.not_mem)
        (fun now => by simp [Condition.eval]) rfl
    · rw [List.forall_mem_singleton]
      exact ⟨m, List.mem_cons_self, hrule⟩
    · intro m' hm' n hpath
      rw [List.mem_singleton.1 hm']
      exact ⟨_, List.mem_cons_self, hrule⟩

theorem realizes_dependencies (hnames : (modules.map Module.name).Nodup)
    (hgood : ¬ (HasUnknown modules ∨ HasCycle modules)) (ms : List Module)
    (hms : ∀ m ∈ ms, m ∈ modules) :
    ∃ blocks rules, ms.mapM (emitDependencies modules) = .ok blocks ∧
      Realizes blocks.flatten rules ∧ AreDependencyRules modules ms rules := by
  induction ms with
  | nil => exact ⟨[], [], rfl, Realizes.nil, by simp, by simp⟩
  | cons m ms ih =>
      obtain ⟨lines, first, hlines, hrealizes, hfirst⟩ :=
        realizes_emitDependencies hnames hgood (hms m List.mem_cons_self)
      obtain ⟨blocks, rest, hblocks, hrealizes', hrest⟩ :=
        ih fun n hn => hms n (List.mem_cons_of_mem _ hn)
      refine ⟨lines :: blocks, first ++ rest, ?_, hrealizes.append hrealizes', ?_, ?_⟩
      · rw [List.mapM_cons, hlines, hblocks]
        rfl
      · intro r hr
        rcases List.mem_append.1 hr with hr | hr
        · obtain ⟨n, hn, hrule⟩ := hfirst.sound r hr
          rw [List.mem_singleton.1 hn] at hrule
          exact ⟨m, List.mem_cons_self, hrule⟩
        · obtain ⟨n, hn, hrule⟩ := hrest.sound r hr
          exact ⟨n, List.mem_cons_of_mem _ hn, hrule⟩
      · intro n hn k hpath
        rcases List.mem_cons.1 hn with rfl | hn
        · obtain ⟨r, hr, hrule⟩ := hfirst.complete n List.mem_cons_self k hpath
          exact ⟨r, List.mem_append_left _ hr, hrule⟩
        · obtain ⟨r, hr, hrule⟩ := hrest.complete n hn k hpath
          exact ⟨r, List.mem_append_right _ hr, hrule⟩

/-- `LOR_ENABLE_ALL` is defined by the block if no module is enabled. -/
def allUnlessSome (modules : List Module) (S : Macros) : Macros :=
  if modules.all fun m => !S m.enableMacro.text then define S enableAll else S

def allRule (modules : List Module) : Rule :=
  ⟨[enableAll], modules.map fun m => m.enableMacro.text⟩

/-- The macros that are defined when it comes to the dependencies. -/
def chosenMacros (modules : List Module) (S : Macros) : Macros :=
  (modules.flatMap enabledByRules).foldl Rule.run ((allRule modules).run (allUnlessSome modules S))

theorem uncomment_selectionComment :
    uncomment .outside (['\n'].intercalate selectionComment) = [' '] ∧
      after .outside (['\n'].intercalate selectionComment) = .outside := by
  decide +kernel

def enableAllName : MacroName := ⟨enableAll, by decide⟩

theorem define_enableAll : "#define LOR_ENABLE_ALL".toList = defineLine enableAllName := by decide

theorem ifdef_enableAll : "#ifdef LOR_ENABLE_ALL".toList = "#ifdef ".toList ++ enableAll :=
  by decide

theorem read_noModules (hne : modules ≠ []) : ∃ c,
    Read (("#if ".toList ++ " && ".toList.intercalate ((modules.map Module.enableMacro).map
        fun x => undefinedText x.text)) :: [enableAllName].map defineLine ++ ["#endif".toList])
      (Guarded.mk c [enableAll]).lines ∧
    ∀ S : Macros, (Guarded.mk c [enableAll]).run S = allUnlessSome modules S := by
  obtain ⟨m, rest, rfl⟩ := List.exists_cons_of_ne_nil hne
  obtain ⟨c, hread, heval⟩ := condition_none m.enableMacro.text
    ((rest.map Module.enableMacro).map MacroName.text)
    (isName_of_mem (m.enableMacro :: rest.map Module.enableMacro))
  have htests : ((m :: rest).map Module.enableMacro).map (fun x => undefinedText x.text) =
      (m.enableMacro.text :: (rest.map Module.enableMacro).map MacroName.text).map
        undefinedText := by
    simp
  have hplain := not_mem_tests " && ".toList (by decide) (fun n => not_mem_undefinedText)
    ((m :: rest).map Module.enableMacro)
  refine ⟨c, read_group ?_ (not_mem_append (by decide) hplain) [enableAllName], fun S => ?_⟩
  · rw [line_if, htests, hread]
    rfl
  · have hall : c.eval S = (m :: rest).all fun m => !S m.enableMacro.text := by
      rw [heval, List.map_map, List.all_cons, List.all_cons, List.all_map]
      rfl
    rw [Guarded.run, hall]
    rfl

theorem realizes_all (modules : List Module) :
    Realizes ([] :: "#ifdef LOR_ENABLE_ALL".toList ::
      (modules.map Module.enableMacro).map defineLine ++ ["#endif".toList]) [allRule modules] := by
  have hline : line "#ifdef LOR_ENABLE_ALL".toList = some (.condition (.defined enableAll)) := by
    rw [ifdef_enableAll]
    exact line_ifdef enableAllName.isName
  refine realizes_group (modules.map Module.enableMacro) hline (by decide) (fun now => ?_) ?_
  · simp [Condition.eval, allRule]
  · simp [allRule]

/-- What the preprocessor makes of the block. -/
theorem preprocess_emitModuleSelection (hnames : (modules.map Module.name).Nodup)
    (hgood : ¬ (HasUnknown modules ∨ HasCycle modules)) (hne : modules ≠ []) :
    ∃ block rules, emitModuleSelection modules = .ok block ∧
      AreDependencyRules modules modules rules ∧
      ∀ S, preprocess block S = some (rules.foldl Rule.run (chosenMacros modules S)) := by
  obtain ⟨blocks, rules, hblocks, hdependencies, hrules⟩ :=
    realizes_dependencies hnames hgood modules fun _ hm => hm
  obtain ⟨c, hnone, hrun⟩ := read_noModules hne
  obtain ⟨groups, hfollows, hgroups⟩ := ((realizes_all modules).append
    (realizes_flatMap realizes_enabledBy modules)).append hdependencies
  have hread := hnone.append hgroups
  refine ⟨_, rules, by rw [emitModuleSelection, hblocks], hrules, fun S => ?_⟩
  have hlines : ((Guarded.mk c [enableAll]).lines ++
      groups.flatMap fun g => Line.text :: g.lines).foldlM step ⟨S, []⟩ =
        some ⟨rules.foldl Rule.run (chosenMacros modules S), []⟩ := by
    rw [List.foldlM_append, foldlM_group, hrun]
    change (groups.flatMap fun g => Line.text :: g.lines).foldlM step _ = _
    rw [foldlM_groups, foldl_groups hfollows, List.foldl_append, List.foldl_append]
    rfl
  have hprocess := preprocess_lines uncomment_selectionComment.1 uncomment_selectionComment.2
    hread.2 hread.1 S _ hlines
  rw [← intercalate_append _ (by decide)] at hprocess
  rw [define_enableAll, ← hprocess, List.map_cons, List.map_nil]
  generalize selectionComment = comment
  simp only [List.append_assoc, List.cons_append, List.nil_append]

end Read

/-! ## What the rules define -/

section Select

variable {modules : List Module} {S : Macros}

theorem MacroName.eq_of_text {x y : MacroName} (h : x.text = y.text) : x = y := by
  cases x with
  | mk text isName =>
      cases y with
      | mk text' isName' =>
          cases h
          rfl

theorem module_of_text (hmacros : (modules.map Module.enableMacro).Nodup) {m n : Module}
    (hm : m ∈ modules) (hn : n ∈ modules) (h : m.enableMacro.text = n.enableMacro.text) : m = n :=
  List.inj_on_of_nodup_map hmacros hm hn (MacroName.eq_of_text h)

theorem allUnlessSome_apply (x : Text) : allUnlessSome modules S x = true ↔
    S x = true ∨ NoneEnabled modules S ∧ x = enableAll := by
  have hall : (modules.all fun m => !S m.enableMacro.text) = true ↔ NoneEnabled modules S := by
    simp [NoneEnabled, List.all_eq_true]
  rw [allUnlessSome]
  split_ifs with h
  · rw [define, and_iff_right (hall.1 h)]
    simp
  · rw [or_iff_left fun hboth => h (hall.2 hboth.1)]

theorem mem_enabledByRules {r : Rule} (h : r ∈ modules.flatMap enabledByRules) :
    ∃ m ∈ modules, r = ⟨m.enabledBy.map MacroName.text, [m.enableMacro.text]⟩ := by
  obtain ⟨m, hm, hr⟩ := List.mem_flatMap.1 h
  unfold enabledByRules at hr
  split_ifs at hr
  · cases hr
  · exact ⟨m, hm, List.mem_singleton.1 hr⟩

theorem enabledByRules_mem {m : Module} (hm : m ∈ modules) {t : MacroName} (ht : t ∈ m.enabledBy) :
    ⟨m.enabledBy.map MacroName.text, [m.enableMacro.text]⟩ ∈ modules.flatMap enabledByRules := by
  refine List.mem_flatMap.2 ⟨m, hm, ?_⟩
  rw [enabledByRules, if_neg (List.ne_nil_of_mem ht)]
  exact List.mem_cons_self

theorem allRule_apply (x : Text) :
    (allRule modules).run (allUnlessSome modules S) x = true ↔
      S x = true ∨ NoneEnabled modules S ∧ x = enableAll ∨
        (S enableAll = true ∨ NoneEnabled modules S) ∧ ∃ m ∈ modules, m.enableMacro.text = x := by
  have hall : (∃ t ∈ (allRule modules).triggers, allUnlessSome modules S t = true) ↔
      S enableAll = true ∨ NoneEnabled modules S := by
    simp [allRule, allUnlessSome_apply]
  have hnames : x ∈ (allRule modules).names ↔ ∃ m ∈ modules, m.enableMacro.text = x := by
    simp [allRule]
  rw [Rule.run_apply, hall, hnames, allUnlessSome_apply, or_assoc]

theorem chosenMacros_apply
    (henabledBy : ∀ m ∈ modules, ∀ x ∈ m.enabledBy, x ∉ modules.map Module.enableMacro) (x : Text) :
    chosenMacros modules S x = true ↔ S x = true ∨ NoneEnabled modules S ∧ x = enableAll ∨
      ∃ m ∈ modules, Chosen modules S m ∧ m.enableMacro.text = x := by
  have hforeign : ∀ m ∈ modules, ∀ n ∈ modules, ∀ t ∈ m.enabledBy, t.text ≠ n.enableMacro.text := by
    intro m hm n hn t ht hsame
    rw [MacroName.eq_of_text hsame] at ht
    exact henabledBy m hm _ ht (List.mem_map_of_mem hn)
  rw [chosenMacros, foldl_rules]
  · constructor
    · rintro (hx | ⟨r, hr, ⟨t, ht, hdefined⟩, hx⟩)
      · rcases (allRule_apply x).1 hx with hx | hx | ⟨hall, m, hm, rfl⟩
        · exact Or.inl hx
        · exact Or.inr (Or.inl hx)
        · exact Or.inr (Or.inr ⟨m, hm, hall.elim (fun h => Or.inr (Or.inr (Or.inl h)))
            (fun h => Or.inr (Or.inl h)), rfl⟩)
      · obtain ⟨m, hm, rfl⟩ := mem_enabledByRules hr
        obtain ⟨y, hy, rfl⟩ := List.mem_map.1 ht
        refine Or.inr (Or.inr ⟨m, hm, ?_, (List.mem_singleton.1 hx).symm⟩)
        rcases (allRule_apply y.text).1 hdefined with hS | hnone | ⟨-, n, hn, hsame⟩
        · exact Or.inr (Or.inr (Or.inr ⟨y, hy, hS⟩))
        · exact Or.inr (Or.inl hnone.1)
        · exact absurd hsame.symm (hforeign m hm n hn y hy)
    · rintro (hx | hx | ⟨m, hm, hchosen, rfl⟩)
      · exact Or.inl ((allRule_apply x).2 (Or.inl hx))
      · exact Or.inl ((allRule_apply x).2 (Or.inr (Or.inl hx)))
      · rcases hchosen with hS | hnone | hall | ⟨y, hy, hS⟩
        · exact Or.inl ((allRule_apply _).2 (Or.inl hS))
        · exact Or.inl ((allRule_apply _).2 (Or.inr (Or.inr ⟨Or.inr hnone, m, hm, rfl⟩)))
        · exact Or.inl ((allRule_apply _).2 (Or.inr (Or.inr ⟨Or.inl hall, m, hm, rfl⟩)))
        · exact Or.inr ⟨_, enabledByRules_mem hm hy, ⟨y.text, List.mem_map_of_mem hy,
            (allRule_apply _).2 (Or.inl hS)⟩, List.mem_cons_self⟩
  · -- No trigger is the macro of a module, so that the rules do not act on one another.
    intro r hr r' hr' t ht hmem
    obtain ⟨n, hn, rfl⟩ := mem_enabledByRules hr
    obtain ⟨m, hm, rfl⟩ := mem_enabledByRules hr'
    obtain ⟨y, hy, rfl⟩ := List.mem_map.1 ht
    exact absurd (List.mem_singleton.1 hmem) (hforeign m hm n hn y hy)

/-- Whether a macro is defined behind the block. -/
def IsDefined (modules : List Module) (S : Macros) (x : Text) : Prop :=
  S x = true ∨ NoneEnabled modules S ∧ x = enableAll ∨
    ∃ m, Selected modules S m ∧ m.enableMacro.text = x

theorem dependencies_apply (hmacros : (modules.map Module.enableMacro).Nodup)
    (henabledBy : ∀ m ∈ modules, ∀ x ∈ m.enabledBy, x ∉ modules.map Module.enableMacro)
    {rules : List Rule} (hrules : AreDependencyRules modules modules rules) (x : Text) :
    rules.foldl Rule.run (chosenMacros modules S) x = true ↔ IsDefined modules S x := by
  have hchosen : ∀ m ∈ modules,
      chosenMacros modules S m.enableMacro.text = true ↔ Chosen modules S m := by
    intro m hm
    rw [chosenMacros_apply henabledBy]
    constructor
    · rintro (hS | hnone | ⟨n, hn, hn', hsame⟩)
      · exact Or.inl hS
      · exact Or.inr (Or.inl hnone.1)
      · rwa [module_of_text hmacros hn hm hsame] at hn'
    · exact fun h => Or.inr (Or.inr ⟨m, hm, h, rfl⟩)
  rw [foldl_rules]
  · constructor
    · rintro (hx | ⟨r, hr, ⟨t, ht, hdefined⟩, hx⟩)
      · rcases (chosenMacros_apply henabledBy x).1 hx with hx | hx | ⟨m, hm, hm', rfl⟩
        · exact Or.inl hx
        · exact Or.inr (Or.inl hx)
        · exact Or.inr (Or.inr ⟨m, ⟨m, hm, hm', ReflTransGen.refl⟩, rfl⟩)
      · obtain ⟨m, hm, htriggers, hnames⟩ := hrules.sound r hr
        rw [htriggers, List.mem_singleton] at ht
        rw [ht, hchosen m hm] at hdefined
        obtain ⟨n, hpath, rfl⟩ := (hnames x).1 hx
        exact Or.inr (Or.inr ⟨n, ⟨m, hm, hdefined, hpath.to_reflTransGen⟩, rfl⟩)
    · rintro (hx | hx | ⟨n, ⟨m, hm, hm', hpath⟩, rfl⟩)
      · exact Or.inl ((chosenMacros_apply henabledBy x).2 (Or.inl hx))
      · exact Or.inl ((chosenMacros_apply henabledBy x).2 (Or.inr (Or.inl hx)))
      · rcases reflTransGen_iff_eq_or_transGen.1 hpath with rfl | hpath
        · exact Or.inl ((hchosen _ hm).2 hm')
        · obtain ⟨r, hr, htriggers, hnames⟩ := hrules.complete m hm n hpath
          refine Or.inr ⟨r, hr, ⟨m.enableMacro.text, ?_, (hchosen m hm).2 hm'⟩,
            (hnames _).2 ⟨n, hpath, rfl⟩⟩
          rw [htriggers]
          exact List.mem_cons_self
  · -- What a rule adds, the rules that its names trigger do not exceed: dependencies are
    -- transitive.
    intro r hr r' hr' t ht hmem y hy
    obtain ⟨m, hm, -, hnames⟩ := hrules.sound r hr
    obtain ⟨n, hn, htriggers, hnames'⟩ := hrules.sound r' hr'
    rw [htriggers, List.mem_singleton] at ht
    rw [ht] at hmem
    obtain ⟨n', hpath, hsame⟩ := (hnames _).1 hmem
    rw [module_of_text hmacros (mem_of_transGen hpath) hn hsame] at hpath
    obtain ⟨k, hpath', rfl⟩ := (hnames' y).1 hy
    exact (hnames _).2 ⟨k, hpath.trans hpath', rfl⟩

theorem mem_of_selected {m : Module} (h : Selected modules S m) : m ∈ modules := by
  obtain ⟨root, hroot, -, hpath⟩ := h
  rcases reflTransGen_iff_eq_or_transGen.1 hpath with rfl | hpath
  · exact hroot
  · exact mem_of_transGen hpath

/-- Of the macros of the modules, those of the selected ones are defined. -/
theorem isDefined_module (hmacros : (modules.map Module.enableMacro).Nodup) {m : Module}
    (hm : m ∈ modules) : IsDefined modules S m.enableMacro.text ↔ Selected modules S m := by
  constructor
  · rintro (hS | hnone | ⟨n, hn, hsame⟩)
    · exact ⟨m, hm, Or.inl hS, ReflTransGen.refl⟩
    · exact ⟨m, hm, Or.inr (Or.inl hnone.1), ReflTransGen.refl⟩
    · rwa [module_of_text hmacros (mem_of_selected hn) hm hsame] at hn
  · exact fun h => Or.inr (Or.inr ⟨m, h, rfl⟩)

/-- Other macros are left alone, but for the one that stands for all modules. -/
theorem isDefined_other {x : Text} (hx : x ∉ modules.map fun m => m.enableMacro.text) :
    IsDefined modules S x ↔ S x = true ∨ NoneEnabled modules S ∧ x = enableAll := by
  have hmodule : ¬ ∃ m, Selected modules S m ∧ m.enableMacro.text = x := by
    rintro ⟨m, hm, rfl⟩
    exact hx (List.mem_map.2 ⟨m, mem_of_selected hm, rfl⟩)
  rw [IsDefined, or_iff_left hmodule]

end Select

/-! ## The order of the modules -/

section Permuted

variable {modules modules' : List Module}

theorem depends_perm (h : modules'.Perm modules) : Depends modules' = Depends modules := by
  funext m n
  simp only [Depends, h.mem_iff]

theorem hasUnknown_perm (h : modules'.Perm modules) : HasUnknown modules' ↔ HasUnknown modules := by
  simp only [HasUnknown, h.mem_iff, (h.map Module.name).mem_iff]

theorem hasCycle_perm (h : modules'.Perm modules) : HasCycle modules' ↔ HasCycle modules := by
  rw [HasCycle, HasCycle, depends_perm h]

theorem noneEnabled_perm (h : modules'.Perm modules) (S : Macros) :
    NoneEnabled modules' S ↔ NoneEnabled modules S := by
  simp only [NoneEnabled, h.mem_iff]

theorem isDefined_perm (h : modules'.Perm modules) (S : Macros) (x : Text) :
    IsDefined modules' S x ↔ IsDefined modules S x := by
  simp only [IsDefined, Selected, Chosen, noneEnabled_perm h, depends_perm h, h.mem_iff]

/-- The macros behind the block, in whatever order the modules are given. -/
theorem preprocess_perm (hnames : (modules.map Module.name).Nodup)
    (hmacros : (modules.map Module.enableMacro).Nodup)
    (hgood : ¬ (HasUnknown modules ∨ HasCycle modules)) (hne : modules ≠ [])
    (henabledBy : ∀ m ∈ modules, ∀ x ∈ m.enabledBy, x ∉ modules.map Module.enableMacro)
    (h : modules'.Perm modules) : ∃ block, emitModuleSelection modules' = .ok block ∧
      ∀ S, ∃ selected, preprocess block S = some selected ∧
        ∀ x, selected x = true ↔ IsDefined modules S x := by
  have hgood' : ¬ (HasUnknown modules' ∨ HasCycle modules') := by
    rwa [hasUnknown_perm h, hasCycle_perm h]
  have hne' : modules' ≠ [] := by
    rintro rfl
    exact hne h.nil_eq.symm
  have hmacros' := (h.map Module.enableMacro).nodup_iff.2 hmacros
  have henabledBy' : ∀ m ∈ modules', ∀ x ∈ m.enabledBy, x ∉ modules'.map Module.enableMacro := by
    intro m hm x hx hmem
    exact henabledBy m (h.mem_iff.1 hm) x hx ((h.map Module.enableMacro).mem_iff.1 hmem)
  obtain ⟨block, rules, hblock, hrules, hpreprocess⟩ :=
    preprocess_emitModuleSelection ((h.map Module.name).nodup_iff.2 hnames) hgood' hne'
  refine ⟨block, hblock, fun S => ⟨_, hpreprocess S, fun x => ?_⟩⟩
  rw [← isDefined_perm h]
  exact dependencies_apply hmacros' henabledBy' hrules x

end Permuted

/-- Modules are ordered behind their dependencies, if these are known and not circular; and then the
block enables exactly the modules that the user asks for and those that they depend on. -/
theorem module_selection (modules : List Module) (hnames : (modules.map Module.name).Nodup)
    (hmacros : (modules.map Module.enableMacro).Nodup) :
    ((∃ message, orderModules modules = .error (some message)) ↔
      HasUnknown modules ∨ HasCycle modules) ∧
    (¬ (HasUnknown modules ∨ HasCycle modules) →
      (∃ ordered, orderModules modules = .ok ordered ∧ ordered.Perm modules ∧
        ∀ first m rest, ordered = first ++ m :: rest →
          ∀ d ∈ m.dependencies, ∃ n ∈ first, n.name = d) ∧
      (modules ≠ [] →
        (∀ m ∈ modules, ∀ x ∈ m.enabledBy, x ∉ modules.map Module.enableMacro) →
        ∀ S : Macros, ∃ selected : Macros,
          (∀ m ∈ modules, selected m.enableMacro.text = true ↔ Selected modules S m) ∧
          (∀ x, x ∉ modules.map (fun m => m.enableMacro.text) →
            (selected x = true ↔ S x = true ∨ NoneEnabled modules S ∧ x = enableAll)) ∧
          ∀ modules' : List Module, modules'.Perm modules →
            ∃ block, emitModuleSelection modules' = .ok block ∧
              preprocess block S = some selected)) := by
  refine ⟨orderModules_error hnames, fun hgood => ⟨orderModules_ok hnames hgood, ?_⟩⟩
  intro hne henabledBy S
  obtain ⟨_, -, hselected⟩ :=
    preprocess_perm hnames hmacros hgood hne henabledBy (List.Perm.refl modules)
  obtain ⟨selected, -, hdefined⟩ := hselected S
  refine ⟨selected, fun m hm => ?_, fun x hx => ?_, fun modules' h => ?_⟩
  · rw [hdefined, isDefined_module hmacros hm]
  · rw [hdefined, isDefined_other hx]
  · obtain ⟨block, hblock, hselected'⟩ := preprocess_perm hnames hmacros hgood hne henabledBy h
    obtain ⟨selected', hpreprocess, hdefined'⟩ := hselected' S
    refine ⟨block, hblock, ?_⟩
    rw [hpreprocess]
    congr 1
    funext x
    rw [Bool.eq_iff_iff, hdefined', hdefined]

section Instances

def statusModule : Module := ⟨"status".toList, ⟨"LOR_ENABLE_STATUS".toList, by decide⟩, [], []⟩

def featuresModule : Module :=
  ⟨"features".toList, ⟨"LOR_ENABLE_FEATURES".toList, by decide⟩, [], []⟩

def memoryModule : Module :=
  ⟨"memory".toList, ⟨"LOR_ENABLE_MEMORY".toList, by decide⟩, ["features".toList],
    [⟨"LOR_LEAKCHECK".toList, by decide⟩]⟩

def threeModules : List Module := [memoryModule, statusModule, featuresModule]

/-- The macros that a user defines. -/
def userMacros (macros : List Text) : Macros := fun x => decide (x ∈ macros)

theorem orderModules_threeModules :
    orderModules threeModules = .ok [featuresModule, memoryModule, statusModule] := by
  decide +kernel

theorem module_selection_threeModules :
    (∃ ordered, orderModules threeModules = .ok ordered ∧ ordered.Perm threeModules) ∧
      ∃ selected : Macros,
        (∀ m ∈ threeModules, selected m.enableMacro.text = true ↔
          Selected threeModules (userMacros ["LOR_LEAKCHECK".toList]) m) ∧
        ∃ block, emitModuleSelection threeModules = .ok block ∧
          preprocess block (userMacros ["LOR_LEAKCHECK".toList]) = some selected := by
  obtain ⟨herror, hselection⟩ := module_selection threeModules (by decide) (by decide)
  have hgood : ¬ (HasUnknown threeModules ∨ HasCycle threeModules) := by
    intro hbad
    obtain ⟨message, hmessage⟩ := herror.2 hbad
    rw [orderModules_threeModules] at hmessage
    cases hmessage
  obtain ⟨⟨ordered, hordered, hperm, -⟩, hblock⟩ := hselection hgood
  obtain ⟨selected, hselected, -, hemit⟩ :=
    hblock (List.cons_ne_nil _ _) (by decide) (userMacros ["LOR_LEAKCHECK".toList])
  exact ⟨⟨ordered, hordered, hperm⟩, selected, hselected, hemit _ (List.Perm.refl _)⟩

/-- With `LOR_ENABLE_ALL` a module is there that no enabled one depends on, and without any modules
the block has an `#if` without a condition. -/
theorem enable_all_selects_more :
    (¬ (∃ root ∈ [statusModule, featuresModule],
        userMacros [enableAll, statusModule.enableMacro.text] root.enableMacro.text = true ∧
          ReflTransGen (Depends [statusModule, featuresModule]) root featuresModule) ∧
      (∃ m ∈ [statusModule, featuresModule],
        userMacros [enableAll, statusModule.enableMacro.text] m.enableMacro.text = true) ∧
      (∀ m ∈ [statusModule, featuresModule], m.enabledBy = []) ∧
      (emitModuleSelection [statusModule, featuresModule]).map
        (fun block => (preprocess block (userMacros [enableAll, statusModule.enableMacro.text])).map
          fun selected => selected featuresModule.enableMacro.text) = .ok (some true)) ∧
    ∃ block, emitModuleSelection [] = .ok block ∧ ∀ S, preprocess block S = none := by
  refine ⟨⟨?_, by decide, by decide, by decide +kernel⟩, _, rfl, fun S => ?_⟩
  · rintro ⟨root, hroot, henabled, hpath⟩
    rcases ReflTransGen.cases_head hpath with rfl | ⟨m, hdepends, -⟩
    · exact absurd henabled (by decide)
    · have hnone : ∀ root ∈ [statusModule, featuresModule], root.dependencies = [] := by decide
      have hmem := hdepends.2.2
      rw [hnone root hroot] at hmem
      exact List.not_mem_nil hmem
  · have hlines : (emitModuleSelection []).map
        (fun block => ((uncomment .outside block).splitOn '\n').mapM line) = .ok none := by
      decide +kernel
    exact preprocess_unread (Except.ok.inj hlines) S

end Instances

end Liblor.SingleHeader
