import Liblor.Preprocessor

/-!
# Texts that the preprocessor reads

Comments, conditions and directives are read as what they are written for.
-/

namespace Preprocessor

/-! ## Comments -/

section Comments

/-- Text behind a place where no comment is open is read on its own. -/
theorem uncomment_append {place : Place} {first : Text} (h : after place first = .outside)
    (second : Text) :
    uncomment place (first ++ second) = uncomment place first ++ uncomment .outside second := by
  induction first generalizing place with
  | nil =>
      have hplace : place = .outside := h
      rw [hplace]
      rfl
  | cons c first ih =>
      have hrest : uncomment (scan place c).1 (first ++ second) =
          uncomment (scan place c).1 first ++ uncomment .outside second := ih h
      rw [List.cons_append, uncomment, hrest, uncomment, List.append_assoc]

theorem uncomment_plain {text : Text} (h : '/' ∉ text) : uncomment .outside text = text := by
  induction text with
  | nil => rfl
  | cons c text ih =>
      rw [List.mem_cons, not_or] at h
      have hscan : scan .outside c = (.outside, [c]) := if_neg (Ne.symm h.1)
      rw [uncomment, hscan, ih h.2]
      rfl

end Comments

/-! ## Names -/

section Names

variable {n rest : Text}

theorem ne_of_isNameChar {c d : Char} (h : isNameChar c = true) (hd : isNameChar d = false) :
    c ≠ d := by
  rintro rfl
  rw [h] at hd
  cases hd

theorem isNameChar_plain {c : Char} (h : isNameChar c = true) :
    c ≠ ' ' ∧ c ≠ '\t' ∧ c ≠ '\n' ∧ c ≠ '/' :=
  ⟨ne_of_isNameChar h (by decide), ne_of_isNameChar h (by decide),
    ne_of_isNameChar h (by decide), ne_of_isNameChar h (by decide)⟩

theorem IsName.isNameChar (h : IsName n) {c : Char} (hc : c ∈ n) : isNameChar c = true :=
  List.all_eq_true.1 h.2.1 c hc

theorem IsName.not_mem (h : IsName n) : '\n' ∉ n ∧ '/' ∉ n :=
  ⟨fun hmem => (isNameChar_plain (h.isNameChar hmem)).2.2.1 rfl,
    fun hmem => (isNameChar_plain (h.isNameChar hmem)).2.2.2 rfl⟩

theorem IsName.ne_nil (h : IsName n) : n ≠ [] := by
  rintro rfl
  cases h.1

theorem skipSpace_cons {c : Char} (hspace : c ≠ ' ') (htab : c ≠ '\t') (text : Text) :
    skipSpace (c :: text) = c :: text := by
  rw [skipSpace, List.dropWhile_cons, beq_false_of_ne hspace, beq_false_of_ne htab]
  rfl

theorem skipSpace_name (h : IsName n) (rest : Text) : skipSpace (n ++ rest) = n ++ rest := by
  cases n with
  | nil => exact absurd rfl h.ne_nil
  | cons c n =>
      obtain ⟨hspace, htab, -⟩ := isNameChar_plain (h.isNameChar List.mem_cons_self)
      exact skipSpace_cons hspace htab _

/-- What ends a name. -/
def Ends (rest : Text) : Prop := ∀ c ∈ rest.head?, isNameChar c = false

theorem takeWhile_ends {word : Text} (h : word.all isNameChar = true) (hrest : Ends rest) :
    (word ++ rest).takeWhile isNameChar = word ∧ (word ++ rest).dropWhile isNameChar = rest := by
  have hword := List.all_eq_true.1 h
  rw [List.takeWhile_append_of_pos hword, List.dropWhile_append_of_pos hword]
  cases rest with
  | nil => simp
  | cons c rest =>
      rw [List.takeWhile_cons, List.dropWhile_cons, hrest c rfl]
      simp

theorem name_append (h : IsName n) (hrest : Ends rest) : name (n ++ rest) = some (n, rest) := by
  obtain ⟨htake, hdrop⟩ := takeWhile_ends h.2.1 hrest
  rw [name, htake, hdrop, if_pos h]

theorem ends_nil : Ends [] := by
  intro c hc
  cases hc

theorem lastName_name (h : IsName n) : lastName (' ' :: n) = some n := by
  have hspace : skipSpace (' ' :: n) = skipSpace n := rfl
  have hskip := skipSpace_name h []
  have hread := name_append h ends_nil
  rw [List.append_nil] at hskip hread
  rw [lastName, hspace, hskip, hread]
  rfl

end Names

/-! ## Conditions -/

section Conditions

/-- `defined(n)`. -/
def definedText (n : Text) : Text := "defined(".toList ++ n ++ [')']

/-- A reader that passes over a space in front. -/
def SkipsSpace (item : Reader Condition) : Prop := ∀ text, item (' ' :: text) = item text

theorem skipsSpace_primary (fuel : ℕ) : SkipsSpace (primary fuel) := by
  intro text
  cases fuel with
  | zero => rfl
  | succ fuel => rfl

theorem SkipsSpace.chain {item : Reader Condition} (h : SkipsSpace item) (operator : Text)
    (combine : Condition → Condition → Condition) (fuel : ℕ) :
    SkipsSpace (chain item operator combine fuel) := by
  intro text
  cases fuel with
  | zero => rfl
  | succ fuel => rw [Preprocessor.chain, Preprocessor.chain, h text]

theorem operand_name {n : Text} (h : IsName n) (rest : Text) :
    operand ('(' :: (n ++ ')' :: rest)) = some (.defined n, skipSpace rest) := by
  have hends : Ends (')' :: rest) := by
    intro c hc
    cases hc
    decide
  rw [operand, skipSpace_cons (by decide) (by decide), List.head?_cons, if_pos rfl, List.tail_cons,
    skipSpace_name h, name_append h hends]
  dsimp only
  rw [skipSpace_cons (by decide) (by decide), List.head?_cons, if_pos rfl, List.tail_cons]

theorem toList_defined : "defined".toList = ['d', 'e', 'f', 'i', 'n', 'e', 'd'] := by decide

theorem toList_definedOpen : "defined(".toList = ['d', 'e', 'f', 'i', 'n', 'e', 'd', '('] := by
  decide

theorem skipsSpace_conjunction (fuel : ℕ) : SkipsSpace (conjunction fuel) :=
  (skipsSpace_primary fuel).chain _ _ _

theorem skipsSpace_disjunction (fuel : ℕ) : SkipsSpace (disjunction fuel) :=
  (skipsSpace_conjunction fuel).chain _ _ _

theorem primary_defined {n : Text} (h : IsName n) (fuel : ℕ) (rest : Text) :
    primary (fuel + 1) (definedText n ++ rest) = some (.defined n, skipSpace rest) := by
  have htext : definedText n ++ rest =
      ['d', 'e', 'f', 'i', 'n', 'e', 'd'] ++ '(' :: (n ++ ')' :: rest) := by
    unfold definedText
    simp only [toList_definedOpen, List.append_assoc, List.cons_append, List.nil_append]
  have hends : Ends ('(' :: (n ++ ')' :: rest)) := by
    intro c hc
    cases hc
    decide
  have hword : ['d', 'e', 'f', 'i', 'n', 'e', 'd'].all isNameChar = true := by decide
  obtain ⟨htake, hdrop⟩ := takeWhile_ends hword hends
  have hskip : skipSpace (['d', 'e', 'f', 'i', 'n', 'e', 'd'] ++ '(' :: (n ++ ')' :: rest)) =
      ['d', 'e', 'f', 'i', 'n', 'e', 'd'] ++ '(' :: (n ++ ')' :: rest) :=
    skipSpace_cons (by decide) (by decide) _
  rw [htext, primary, hskip, if_neg (by simp), htake, hdrop, toList_defined, if_pos rfl,
    operand_name h]

theorem primary_not (fuel : ℕ) (text : Text) :
    primary (fuel + 1) ('!' :: text) =
      (primary fuel text).map fun (c, rest) => (.not c, rest) := rfl

/-- The condition that a chain over a list of names is. -/
def combineAll (combine : Condition → Condition → Condition) (write : Text → Condition) (n : Text) :
    List Text → Condition
  | [] => write n
  | n' :: names => combine (write n) (combineAll combine write n' names)

/-- A chain is read up to what does not go on with its operator. -/
theorem chain_intercalate {item : Reader Condition} {operator : Text}
    {combine : Condition → Condition → Condition} {text : Text → Text} {write : Text → Condition}
    {P : Text → Prop} {rest : Text} {names : List Text} {fuel : ℕ} (n : Text)
    (hskips : SkipsSpace item)
    (hitem : ∀ m ∈ n :: names, ∀ rest, P rest →
      item (text m ++ rest) = some (write m, skipSpace rest))
    (hP : ∀ text, P (' ' :: (operator ++ ' ' :: text)))
    (hoperator : ∀ text, skipSpace (operator ++ text) = operator ++ text)
    (hrest : P rest) (hend : operator.isPrefixOf (skipSpace rest) = false)
    (hfuel : names.length < fuel) :
    chain item operator combine fuel
        ((' ' :: operator ++ [' ']).intercalate ((n :: names).map text) ++ rest) =
      some (combineAll combine write n names, skipSpace rest) := by
  induction names generalizing n fuel with
  | nil =>
      obtain ⟨k, rfl⟩ : ∃ k, fuel = k + 1 :=
        ⟨fuel - 1, by simp only [List.length_nil] at hfuel; omega⟩
      rw [List.map_cons, List.map_nil, List.intercalate_singleton, chain,
        hitem n List.mem_cons_self rest hrest]
      simp only [hend, Bool.false_eq_true, if_false]
      rfl
  | cons n' names ih =>
      rw [List.length_cons] at hfuel
      obtain ⟨k, rfl⟩ : ∃ k, fuel = k + 1 := ⟨fuel - 1, by omega⟩
      have hnext :=
        ih n' (fun m hm => hitem m (List.mem_cons_of_mem _ hm)) (Nat.lt_of_succ_lt_succ hfuel)
      rw [List.map_cons, List.map_cons, List.intercalate_cons_cons, ← List.map_cons]
      simp only [List.append_assoc, List.cons_append, List.nil_append]
      simp only [List.cons_append] at hnext
      have hskip (text : Text) : skipSpace (' ' :: (operator ++ ' ' :: text)) =
        operator ++ ' ' :: text :=
        hoperator (' ' :: text)
      rw [chain, hitem n List.mem_cons_self _ (hP _)]
      dsimp only
      rw [hskip, if_pos (by simp), List.drop_left, (hskips.chain operator combine k) _, hnext]
      rfl

theorem eval_combineAll_and (macros : Macros) (write : Text → Condition) (n : Text)
    (names : List Text) : (combineAll .and write n names).eval macros =
      (n :: names).all fun m => (write m).eval macros := by
  induction names generalizing n with
  | nil => simp [combineAll]
  | cons n' names ih =>
      rw [combineAll, Condition.eval, ih]
      rfl

theorem eval_combineAll_or (macros : Macros) (write : Text → Condition) (n : Text)
    (names : List Text) : (combineAll .or write n names).eval macros =
      (n :: names).any fun m => (write m).eval macros := by
  induction names generalizing n with
  | nil => simp [combineAll]
  | cons n' names ih =>
      rw [combineAll, Condition.eval, ih]
      rfl

theorem length_le_intercalate (separator : Text) (h : 0 < separator.length) (text : Text → Text)
    (n : Text) (names : List Text) :
    names.length ≤ (separator.intercalate ((n :: names).map text)).length := by
  induction names generalizing n with
  | nil => exact Nat.zero_le _
  | cons n' names ih =>
      have hrest := ih n'
      rw [List.map_cons] at hrest
      rw [List.map_cons, List.map_cons, List.intercalate_cons_cons, List.length_append,
        List.length_append, List.length_cons]
      omega

/-- `!defined(n)`. -/
def undefinedText (n : Text) : Text := '!' :: definedText n

theorem primary_undefined {n : Text} (h : IsName n) (fuel : ℕ) (rest : Text) :
    primary (fuel + 2) (undefinedText n ++ rest) = some (.not (.defined n), skipSpace rest) := by
  have htext : undefinedText n ++ rest = '!' :: (definedText n ++ rest) := rfl
  rw [htext, primary_not, primary_defined h]
  rfl

theorem condition_of_conjunction {text : Text} {c : Condition}
    (h : conjunction (text.length + 2) text = some (c, [])) : condition (' ' :: text) = some c := by
  have hread := (skipsSpace_conjunction _ text).trans h
  have hdisjunction : disjunction (text.length + 2) (' ' :: text) = some (c, []) := by
    rw [disjunction, chain, hread]
    rfl
  rw [condition, List.length_cons, hdisjunction]

theorem condition_none (n : Text) (names : List Text) (h : ∀ m ∈ n :: names, IsName m) :
    ∃ c, condition (' ' :: " && ".toList.intercalate ((n :: names).map undefinedText)) = some c ∧
      ∀ macros, c.eval macros = (n :: names).all fun m => !macros m := by
  have hseparator : " && ".toList = ' ' :: ['&', '&'] ++ [' '] := by decide
  rw [hseparator]
  have hlength := length_le_intercalate (' ' :: ['&', '&'] ++ [' ']) (by simp) undefinedText n
    names
  have hread : ∀ fuel, names.length < fuel + 2 → conjunction (fuel + 2)
      ((' ' :: ['&', '&'] ++ [' ']).intercalate ((n :: names).map undefinedText) ++ []) =
        some (combineAll .and (fun m => .not (.defined m)) n names, []) := by
    intro fuel hfuel
    refine chain_intercalate (P := fun _ => True) n (skipsSpace_primary _) ?_ (fun _ => trivial) ?_
      trivial rfl hfuel
    · intro m hm rest _
      exact primary_undefined (h m hm) fuel rest
    · exact fun text => skipSpace_cons (by decide) (by decide) _
  refine ⟨combineAll .and (fun m => .not (.defined m)) n names, condition_of_conjunction ?_,
    fun macros => eval_combineAll_and macros _ n names⟩
  rw [List.append_nil] at hread
  exact hread _ (by omega)

theorem conjunction_defined {n : Text} (h : IsName n) (fuel : ℕ) {rest : Text}
    (hrest : ['&', '&'].isPrefixOf (skipSpace rest) = false) :
    conjunction (fuel + 1) (definedText n ++ rest) = some (.defined n, skipSpace rest) := by
  rw [conjunction, chain, primary_defined h]
  dsimp only
  rw [hrest]
  rfl

theorem condition_some (n : Text) (names : List Text) (h : ∀ m ∈ n :: names, IsName m) :
    ∃ c, condition (' ' :: " || ".toList.intercalate ((n :: names).map definedText)) = some c ∧
      ∀ macros, c.eval macros = (n :: names).any macros := by
  have hseparator : " || ".toList = ' ' :: ['|', '|'] ++ [' '] := by decide
  rw [hseparator]
  have hlength := length_le_intercalate (' ' :: ['|', '|'] ++ [' ']) (by simp) definedText n names
  have hread : ∀ fuel, names.length < fuel + 1 → disjunction (fuel + 1)
      ((' ' :: ['|', '|'] ++ [' ']).intercalate ((n :: names).map definedText) ++ []) =
        some (combineAll .or .defined n names, []) := by
    intro fuel hfuel
    refine chain_intercalate (P := fun rest => ['&', '&'].isPrefixOf (skipSpace rest) = false) n
      (skipsSpace_conjunction _) ?_ (fun _ => rfl) ?_ rfl rfl hfuel
    · intro m hm rest hrest
      exact conjunction_defined (h m hm) fuel hrest
    · exact fun text => skipSpace_cons (by decide) (by decide) _
  refine ⟨combineAll .or .defined n names, ?_, fun macros => eval_combineAll_or macros _ n names⟩
  rw [List.append_nil] at hread
  rw [condition, List.length_cons, (skipsSpace_disjunction _ _).trans (hread _ (by omega))]

end Conditions

/-! ## Lines -/

section Lines

theorem line_directive {word rest : Text} (hne : word ≠ []) (hword : word.all isNameChar = true)
    (hrest : Ends rest) : line ('#' :: (word ++ rest)) = directive word rest := by
  obtain ⟨htake, hdrop⟩ := takeWhile_ends hword hrest
  have hskip : skipSpace (word ++ rest) = word ++ rest := by
    cases word with
    | nil => exact absurd rfl hne
    | cons c word =>
        obtain ⟨hspace, htab, -⟩ := isNameChar_plain (List.all_eq_true.1 hword c List.mem_cons_self)
        exact skipSpace_cons hspace htab _
  rw [line, skipSpace_cons (by decide) (by decide), List.head?_cons, if_pos rfl, List.tail_cons,
    hskip]
  dsimp only
  rw [htake, hdrop]

theorem ends_space (rest : Text) : Ends (' ' :: rest) := by
  intro c hc
  cases hc
  decide

theorem line_if (text : Text) :
    line ("#if ".toList ++ text) = (condition (' ' :: text)).map .condition := by
  have htext : "#if ".toList ++ text = '#' :: ("if".toList ++ ' ' :: text) := by
    have hliteral : "#if ".toList = '#' :: ("if".toList ++ [' ']) := by decide
    rw [hliteral]
    simp only [List.append_assoc, List.cons_append, List.nil_append]
  rw [htext, line_directive (by decide) (by decide) (ends_space text), directive, if_pos rfl]

theorem line_ifdef {n : Text} (h : IsName n) :
    line ("#ifdef ".toList ++ n) = some (.condition (.defined n)) := by
  have htext : "#ifdef ".toList ++ n = '#' :: ("ifdef".toList ++ ' ' :: n) := by
    have hliteral : "#ifdef ".toList = '#' :: ("ifdef".toList ++ [' ']) := by decide
    rw [hliteral]
    simp only [List.append_assoc, List.cons_append, List.nil_append]
  rw [htext, line_directive (by decide) (by decide) (ends_space n), directive, if_neg (by decide),
    if_pos rfl, lastName_name h]
  rfl

theorem line_define {n : Text} (h : IsName n) :
    line ("#define ".toList ++ n) = some (.define n) := by
  have htext : "#define ".toList ++ n = '#' :: ("define".toList ++ ' ' :: n) := by
    have hliteral : "#define ".toList = '#' :: ("define".toList ++ [' ']) := by decide
    rw [hliteral]
    simp only [List.append_assoc, List.cons_append, List.nil_append]
  have hspace : skipSpace (' ' :: n) = skipSpace n := rfl
  have hskip := skipSpace_name h []
  have hread := name_append h ends_nil
  rw [List.append_nil] at hskip hread
  rw [htext, line_directive (by decide) (by decide) (ends_space n), directive, if_neg (by decide),
    if_neg (by decide), if_pos rfl, hspace, hskip, hread]
  rfl

theorem line_endif : line "#endif".toList = some .endif := by decide

theorem line_blank : line [] = some .text := rfl

theorem not_mem_intercalate {c : Char} {separator : Text} {sources : List Text}
    (hseparator : c ∉ separator) (h : ∀ source ∈ sources, c ∉ source) :
    c ∉ separator.intercalate sources := by
  induction sources with
  | nil => simp
  | cons source sources ih =>
      have hsource := h source List.mem_cons_self
      have hrest := ih fun s hs => h s (List.mem_cons_of_mem _ hs)
      by_cases hnil : sources = []
      · rw [hnil, List.intercalate_singleton]
        exact hsource
      · rw [List.intercalate_cons_of_ne_nil hnil]
        simp only [List.mem_append, not_or]
        exact ⟨⟨hsource, hseparator⟩, hrest⟩

theorem intercalate_concat_nil (separator : Text) {sources : List Text} (h : sources ≠ []) :
    separator.intercalate (sources ++ [[]]) = separator.intercalate sources ++ separator := by
  induction sources with
  | nil => exact absurd rfl h
  | cons source sources ih =>
      by_cases hnil : sources = []
      · rw [hnil]
        simp
      · rw [List.cons_append, List.intercalate_cons_of_ne_nil (by simp),
          List.intercalate_cons_of_ne_nil hnil, ih hnil]
        simp only [List.append_assoc]

theorem intercalate_append (separator : Text) {sources : List Text} (h : sources ≠ [])
    (rest : List Text) : separator.intercalate (sources ++ rest) =
      separator.intercalate (separator.intercalate sources :: rest) := by
  by_cases hrest : rest = []
  · rw [hrest, List.append_nil, List.intercalate_singleton]
  rw [List.intercalate_cons_of_ne_nil hrest]
  induction sources with
  | nil => exact absurd rfl h
  | cons source sources ih =>
      by_cases hnil : sources = []
      · rw [hnil, List.intercalate_singleton, List.singleton_append,
          List.intercalate_cons_of_ne_nil hrest]
      · rw [List.cons_append, List.intercalate_cons_of_ne_nil (by simp [hnil]),
          List.intercalate_cons_of_ne_nil hnil, ih hnil]
        simp only [List.append_assoc]

theorem preprocess_unread {text : Text}
    (h : ((uncomment .outside text).splitOn '\n').mapM line = none) (macros : Macros) :
    preprocess text macros = none := by
  rw [preprocess, h]

/-- A text of a comment and of lines that are read. -/
theorem preprocess_lines {comment : Text} {sources : List Text} {lines : List Line}
    (hcomment : uncomment .outside comment = [' ']) (hclosed : after .outside comment = .outside)
    (hplain : ∀ source ∈ sources, '\n' ∉ source ∧ '/' ∉ source)
    (hread : sources.mapM line = some lines) (macros final : Macros)
    (hrun : lines.foldlM step ⟨macros, []⟩ = some ⟨final, []⟩) :
    preprocess (['\n'].intercalate (comment :: sources) ++ ['\n']) macros = some final := by
  have hmore : sources ++ [[]] ≠ [] := by simp
  have hplain' : ∀ source ∈ sources ++ [[]], '\n' ∉ source ∧ '/' ∉ source := by
    rw [List.forall_mem_append, List.forall_mem_singleton]
    exact ⟨hplain, by simp, by simp⟩
  have huncomment : uncomment .outside (['\n'].intercalate (comment :: sources) ++ ['\n']) =
      ['\n'].intercalate ([' '] :: (sources ++ [[]])) := by
    have hslash : '/' ∉ ['\n'] ++ ['\n'].intercalate (sources ++ [[]]) := by
      rw [List.mem_append, not_or]
      exact ⟨by decide, not_mem_intercalate (by decide) fun source hs => (hplain' source hs).2⟩
    rw [← intercalate_concat_nil _ (by simp), List.cons_append,
      List.intercalate_cons_of_ne_nil hmore, List.intercalate_cons_of_ne_nil hmore,
      List.append_assoc, uncomment_append hclosed, hcomment, uncomment_plain hslash,
      List.append_assoc]
  have hsplit : (['\n'].intercalate ([' '] :: (sources ++ [[]]))).splitOn '\n' =
      [' '] :: (sources ++ [[]]) := by
    apply List.splitOn_intercalate
    · rw [List.forall_mem_cons]
      exact ⟨by decide, fun source hs => (hplain' source hs).1⟩
    · simp
  have hspace : line [' '] = some Line.text := rfl
  have hlines : ([' '] :: (sources ++ [[]])).mapM line = some (.text :: (lines ++ [.text])) := by
    rw [List.mapM_cons, List.mapM_append, hread, hspace]
    rfl
  have hfinal : (Line.text :: (lines ++ [.text])).foldlM step ⟨macros, []⟩ = some ⟨final, []⟩ := by
    have htext : step ⟨macros, []⟩ Line.text = some ⟨macros, []⟩ := rfl
    rw [List.foldlM_cons, htext]
    change (lines ++ [Line.text]).foldlM step ⟨macros, []⟩ = _
    rw [List.foldlM_append, hrun]
    rfl
  rw [preprocess, huncomment, hsplit, hlines]
  dsimp only
  rw [hfinal]

end Lines

end Preprocessor
