import Liblor.DepthFirst
import Liblor.PreprocessorText

/-!
# Module selection of the single header

The functions of `gen_single_header.py` that order the modules of a manifest and emit the block of
the single header that selects some of them. Of a module only the keys that they read are there; a
key that is missing is an empty list. A `ValueError` is its message, and `.error none` stands for a
recursion that does not come to an end.
-/

namespace Liblor.SingleHeader

open Preprocessor DepthFirst

structure MacroName where
  text : Text
  isName : IsName text
  deriving DecidableEq

structure Module where
  name : Text
  enableMacro : MacroName
  dependencies : List Text
  enabledBy : List MacroName
  deriving DecidableEq

/-- The last of the modules with a name, as in a dictionary made from them. -/
def modulesByName (modules : List Module) (name : Text) : Option Module :=
  modules.reverse.find? fun m => m.name == name

def cyclicDependency (name : Text) : Text := "cyclic module dependency involving ".toList ++ name

def unknownDependency (name : Text) : Text := "unknown module dependency: ".toList ++ name

/-- The dependencies of the module with a name, and what is recorded of the module. -/
def expand {β : Type} (modules : List Module) (label : Module → β) (name : Text) :
    Except Text (List Text × β) :=
  match modulesByName modules name with
  | none => .error (unknownDependency name)
  | some m => .ok (m.dependencies, label m)

/-- In `module_dependency_macros`, `visit` looks a name up after the test for a cycle. -/
def moduleDependencyMacros (m : Module) (modules : List Module) :
    Except (Option Text) (List MacroName) :=
  (visitAll (expand modules Module.enableMacro) cyclicDependency (modules.length + 1) .empty
    m.dependencies).map Search.result

/-- What the loop over the dependencies does with one of them. -/
def visitDependency (modules : List Module)
    (visit : Search Text Module → Module → Except (Option Text) (Search Text Module))
    (s : Search Text Module) (dependencyName : Text) : Except (Option Text) (Search Text Module) :=
  match modulesByName modules dependencyName with
  | none => .error (some (unknownDependency dependencyName))
  | some dependency => visit s dependency

/-- In `order_modules`, `visit` takes modules, and the loop over the dependencies looks them up. -/
def visitModule (modules : List Module) :
    ℕ → Search Text Module → Module → Except (Option Text) (Search Text Module)
  | 0, _, _ => .error none
  | fuel + 1, s, m =>
    if m.name ∈ s.visited then .ok s
    else if m.name ∈ s.visiting then .error (some (cyclicDependency m.name))
    else
      match m.dependencies.foldlM (visitDependency modules (visitModule modules fuel))
          { s with visiting := insert m.name s.visiting } with
      | .error e => .error e
      | .ok s => .ok ⟨s.visiting.erase m.name, insert m.name s.visited, s.result ++ [m]⟩

def orderModules (modules : List Module) : Except (Option Text) (List Module) :=
  (modules.foldlM (visitModule modules (modules.length + 1)) .empty).map Search.result

def selectionComment : List Text := [
  "/* Module selection".toList,
  "   If no LOR_ENABLE_* macro is defined, every stable module is enabled.".toList,
  "   Define one or more LOR_ENABLE_* macros before including this header".toList,
  "   to include only those modules. */".toList]

def enableAll : Text := "LOR_ENABLE_ALL".toList

def defineLine (macroName : MacroName) : Text := "#define ".toList ++ macroName.text

def emitEnabledBy (m : Module) : List Text :=
  if m.enabledBy = [] then []
  else
    let condition := " || ".toList.intercalate (m.enabledBy.map fun x => definedText x.text)
    [[], "#if ".toList ++ condition, defineLine m.enableMacro, "#endif".toList]

def emitDependencies (modules : List Module) (m : Module) : Except (Option Text) (List Text) :=
  match moduleDependencyMacros m modules with
  | .error e => .error e
  | .ok dependencies => .ok (
    if dependencies = [] then []
    else [[], "#ifdef ".toList ++ m.enableMacro.text] ++ dependencies.map defineLine ++
      ["#endif".toList])

def emitModuleSelection (modules : List Module) : Except (Option Text) Text :=
  let enableMacros := modules.map Module.enableMacro
  let noModules := " && ".toList.intercalate (enableMacros.map fun x => undefinedText x.text)
  match modules.mapM (emitDependencies modules) with
  | .error e => .error e
  | .ok blocks =>
    let out := selectionComment ++
      ["#if ".toList ++ noModules, "#define LOR_ENABLE_ALL".toList, "#endif".toList,
        [], "#ifdef LOR_ENABLE_ALL".toList] ++
      enableMacros.map defineLine ++ ["#endif".toList] ++
      modules.flatMap emitEnabledBy ++ blocks.flatten
    .ok (['\n'].intercalate out ++ ['\n'])

/-! ## What a manifest says -/

/-- `m` names `n` as a dependency. -/
def Depends (modules : List Module) (m n : Module) : Prop :=
  m ∈ modules ∧ n ∈ modules ∧ n.name ∈ m.dependencies

def HasUnknown (modules : List Module) : Prop :=
  ∃ m ∈ modules, ∃ d ∈ m.dependencies, d ∉ modules.map Module.name

def HasCycle (modules : List Module) : Prop := ∃ m, Relation.TransGen (Depends modules) m m

/-! ## What the user asks for -/

/-- No module is enabled by its macro. -/
def NoneEnabled (modules : List Module) (S : Macros) : Prop :=
  ∀ m ∈ modules, S m.enableMacro.text = false

/-- A module that is there whether or not another one depends on it. -/
def Chosen (modules : List Module) (S : Macros) (m : Module) : Prop :=
  S m.enableMacro.text = true ∨ NoneEnabled modules S ∨ S enableAll = true ∨
    ∃ x ∈ m.enabledBy, S x.text = true

def Selected (modules : List Module) (S : Macros) (m : Module) : Prop :=
  ∃ root ∈ modules, Chosen modules S root ∧ Relation.ReflTransGen (Depends modules) root m

end Liblor.SingleHeader
