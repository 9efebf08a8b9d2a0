import GeminiCpp.Cli.Args

/-! Command lines and what they say. The parser accepts exactly the command lines, and recovers
what they say, whatever the values of the options look like. -/
namespace GeminiCpp.Cli

/-- The names can be told apart, and stand for themselves in a word. -/
structure Spec.Clear (spec : Spec) : Prop where
  disjoint : ∀ name ∈ spec.valueOptions, name ∉ spec.flags
  nonempty : ∀ name, name ∈ spec.valueOptions ∨ name ∈ spec.flags → name ≠ []
  plain : ∀ name, name ∈ spec.valueOptions ∨ name ∈ spec.flags → 0x3D ∉ name

/-- An item of a command line: `--name=value`, `--name value`, `--name`, or a positional word. -/
inductive Item (spec : Spec)
  | inlined (name value : Bytes) (h : name ∈ spec.valueOptions)
  | spaced (name value : Bytes) (h : name ∈ spec.valueOptions)
  | flag (name : Bytes) (h : name ∈ spec.flags)
  | word (arg : Bytes) (h : startsWith arg dashes = false)

namespace Item
variable {spec : Spec}

def words : Item spec → List Bytes
  | .inlined name value _ => [dashes ++ (name ++ 0x3D :: value)]
  | .spaced name value _ => [dashes ++ name, value]
  | .flag name _ => [dashes ++ name]
  | .word arg _ => [arg]

/-- The value that the item gives to an option. -/
def valueOf (option : Bytes) : Item spec → Option Bytes
  | .inlined name value _ => if name = option then some value else none
  | .spaced name value _ => if name = option then some value else none
  | .flag .. => none
  | .word .. => none

def flagName : Item spec → Option Bytes
  | .flag name _ => some name
  | _ => none

def positional : Item spec → Option Bytes
  | .word arg _ => some arg
  | _ => none

/-- What the item adds to the members. -/
def apply (a : Args) : Item spec → Args
  | .inlined name value _ => a.emplace name value
  | .spaced name value _ => a.emplace name value
  | .flag name _ => a.insertFlag name
  | .word arg _ => a.pushBack arg

end Item

/-- The members after a command line. -/
def Args.after {spec : Spec} (a : Args) (items : List (Item spec)) (rest : Option (List Bytes)) :
    Args :=
  let a := items.foldl Item.apply a
  { a with positional := a.positional ++ rest.getD [] }

/-- The words behind the end of the options, if that is marked. -/
def trailing : Option (List Bytes) → List Bytes
  | none => []
  | some rest => dashes :: rest

def commandLine {spec : Spec} (items : List (Item spec)) (rest : Option (List Bytes)) :
    List Bytes := items.flatMap Item.words ++ trailing rest

theorem startsWith_dashes (tail : Bytes) : startsWith (dashes ++ tail) dashes = true :=
  List.isPrefixOf_iff_prefix.mpr (List.prefix_append dashes tail)

theorem exists_of_startsWith {arg : Bytes} (h : startsWith arg dashes = true) :
    ∃ tail, arg = dashes ++ tail := by
  obtain ⟨tail, htail⟩ := List.isPrefixOf_iff_prefix.mp h
  exact ⟨tail, htail.symm⟩

theorem findIdx?_of_not_mem {name : Bytes} (h : 0x3D ∉ name) :
    name.findIdx? (· = 0x3D) = none := by
  rw [List.findIdx?_eq_none_iff]
  intro b hb
  apply decide_eq_false
  intro heq
  rw [heq] at hb
  exact h hb

theorem splitInline_of_not_mem {name : Bytes} (h : 0x3D ∉ name) :
    splitInline name = (name, none) := by
  simp only [splitInline, findIdx?_of_not_mem h]

/-- The name ends at the first `=`, so the value may contain others. -/
theorem splitInline_append {name value : Bytes} (h : 0x3D ∉ name) :
    splitInline (name ++ 0x3D :: value) = (name, some value) := by
  have hfind : (name ++ 0x3D :: value).findIdx? (· = 0x3D) = some name.length := by
    rw [List.findIdx?_append, findIdx?_of_not_mem h, List.findIdx?_cons]
    simp
  simp only [splitInline, hfind]
  rw [List.take_left]
  simp

theorem eq_of_splitInline_none {word name : Bytes} (h : splitInline word = (name, none)) :
    word = name := by
  simp only [splitInline] at h
  split at h
  · cases h
  · exact congrArg Prod.fst h

theorem eq_of_splitInline_some {word name value : Bytes}
    (h : splitInline word = (name, some value)) : word = name ++ 0x3D :: value := by
  simp only [splitInline] at h
  split at h
  · next eq hfind =>
    obtain ⟨hlt, heq, -⟩ := List.findIdx?_eq_some_iff_getElem.mp hfind
    cases h
    have hbyte : word[eq] = 0x3D := of_decide_eq_true heq
    rw [← hbyte, ← List.drop_eq_getElem_cons hlt, List.take_append_drop]
  · cases h

namespace Args
variable {spec : Spec} {name value : Bytes} {inlineValue : Option Bytes}

/-- A word that starts with dashes is an option, and not the end of the options. -/
theorem option_tests {tail : Bytes} (h : tail ≠ []) :
    ¬ (false || !startsWith (dashes ++ tail) dashes ||
        decide (dashes ++ tail = ascii "-")) = true ∧
      dashes ++ tail ≠ dashes ∧ (dashes ++ tail).drop 2 = tail := by
  refine ⟨?_, ?_, rfl⟩
  · rw [startsWith_dashes, Bool.not_true, Bool.false_or, Bool.false_or, decide_eq_true_eq]
    intro hdash
    have hlength := congrArg List.length hdash
    rw [List.length_append] at hlength
    have hdashes : dashes.length = 2 := rfl
    have hone : (ascii "-").length = 1 := rfl
    omega
  · intro hdashes
    exact h (List.append_right_eq_self.mp hdashes)

section Option
variable {tail : Bytes} (htail : tail ≠ []) (rest : List Bytes) (a : Args)
include htail

theorem parseWords_inlined (hflag : name ∉ spec.flags) (hvalue : name ∈ spec.valueOptions)
    (hsplit : splitInline tail = (name, some value)) :
    a.parseWords spec false ((dashes ++ tail) :: rest) =
      (a.emplace name value).parseWords spec false rest := by
  obtain ⟨hopt, hsep, hdrop⟩ := option_tests htail
  rw [parseWords_cons, if_neg hopt, if_neg hsep, hdrop, hsplit]
  simp only [if_neg hflag, if_pos hvalue]

theorem parseWords_spaced (hflag : name ∉ spec.flags) (hvalue : name ∈ spec.valueOptions)
    (hsplit : splitInline tail = (name, none)) :
    a.parseWords spec false ((dashes ++ tail) :: value :: rest) =
      (a.emplace name value).parseWords spec false rest := by
  obtain ⟨hopt, hsep, hdrop⟩ := option_tests htail
  rw [parseWords_cons, if_neg hopt, if_neg hsep, hdrop, hsplit]
  simp only [if_neg hflag, if_pos hvalue]

theorem parseWords_flag (hflag : name ∈ spec.flags) (hsplit : splitInline tail = (name, none)) :
    a.parseWords spec false ((dashes ++ tail) :: rest) =
      (a.insertFlag name).parseWords spec false rest := by
  obtain ⟨hopt, hsep, hdrop⟩ := option_tests htail
  rw [parseWords_cons, if_neg hopt, if_neg hsep, hdrop, hsplit]
  simp only [if_pos hflag]

/-- A flag with a value, an option without one, and a name that is neither. -/
theorem parseWords_error (hsplit : splitInline tail = (name, inlineValue))
    (h : (name ∈ spec.flags ∧ inlineValue ≠ none) ∨
      (name ∉ spec.flags ∧ name ∈ spec.valueOptions ∧ inlineValue = none ∧ rest = []) ∨
      (name ∉ spec.flags ∧ name ∉ spec.valueOptions)) :
    ∃ before behind, a.parseWords spec false ((dashes ++ tail) :: rest) =
      (some (before ++ name ++ behind), a) := by
  obtain ⟨hopt, hsep, hdrop⟩ := option_tests htail
  rw [parseWords_cons, if_neg hopt, if_neg hsep, hdrop, hsplit]
  rcases h with ⟨hflag, hvalue⟩ | ⟨hflag, hvalue, rfl, rfl⟩ | ⟨hflag, hvalue⟩
  · obtain ⟨value, rfl⟩ := Option.ne_none_iff_exists'.mp hvalue
    simp only [if_pos hflag]
    exact ⟨_, _, rfl⟩
  · simp only [if_neg hflag, if_pos hvalue]
    exact ⟨_, _, rfl⟩
  · simp only [if_neg hflag, if_neg hvalue]
    exact ⟨_, [], by rw [List.append_nil]⟩

end Option

theorem parseWords_word {arg : Bytes} (h : startsWith arg dashes = false) (rest : List Bytes)
    (a : Args) :
    a.parseWords spec false (arg :: rest) = (a.pushBack arg).parseWords spec false rest := by
  have htest : (false || !startsWith arg dashes || decide (arg = ascii "-")) = true := by
    rw [h]
    rfl
  rw [parseWords_cons, if_pos htest]

/-- An item takes its own words and no others. -/
theorem parseWords_item (hclear : spec.Clear) (item : Item spec) (rest : List Bytes) (a : Args) :
    a.parseWords spec false (item.words ++ rest) = (item.apply a).parseWords spec false rest := by
  cases item with
  | inlined name value h =>
    exact parseWords_inlined (by simp) rest a (hclear.disjoint name h) h
      (splitInline_append (hclear.plain name (Or.inl h)))
  | spaced name value h =>
    exact parseWords_spaced (hclear.nonempty name (Or.inl h)) rest a (hclear.disjoint name h) h
      (splitInline_of_not_mem (hclear.plain name (Or.inl h)))
  | flag name h =>
    exact parseWords_flag (hclear.nonempty name (Or.inr h)) rest a h
      (splitInline_of_not_mem (hclear.plain name (Or.inr h)))
  | word arg h => exact parseWords_word h rest a

theorem parseWords_items (hclear : spec.Clear) (items : List (Item spec)) (rest : List Bytes)
    (a : Args) :
    a.parseWords spec false (items.flatMap Item.words ++ rest) =
      (items.foldl Item.apply a).parseWords spec false rest := by
  induction items generalizing a with
  | nil => rfl
  | cons item items ih =>
    rw [List.flatMap_cons, List.append_assoc, parseWords_item hclear]
    exact ih (item.apply a)

/-- Behind the end of the options every word is positional. -/
theorem parseWords_done (words : List Bytes) (a : Args) :
    a.parseWords spec true words = (none, { a with positional := a.positional ++ words }) := by
  induction words generalizing a with
  | nil => rw [parseWords_nil, List.append_nil]
  | cons arg words ih =>
    rw [parseWords_cons, if_pos (by rfl), ih]
    simp only [pushBack, List.append_assoc, List.singleton_append]

theorem parseWords_dashes (rest : List Bytes) (a : Args) :
    a.parseWords spec false (dashes :: rest) = a.parseWords spec true rest := by
  have htests : ¬ (false || !startsWith dashes dashes || decide (dashes = ascii "-")) = true := by
    decide
  rw [parseWords_cons, if_neg htests, if_pos rfl]

theorem parseWords_trailing (rest : Option (List Bytes)) (a : Args) :
    a.parseWords spec false (trailing rest) =
      (none, { a with positional := a.positional ++ rest.getD [] }) := by
  cases rest with
  | none =>
    rw [trailing, parseWords_nil, Option.getD_none, List.append_nil]
  | some words =>
    rw [trailing, parseWords_dashes, parseWords_done, Option.getD_some]

theorem parseWords_commandLine (hclear : spec.Clear) (items : List (Item spec))
    (rest : Option (List Bytes)) (a : Args) :
    a.parseWords spec false (commandLine items rest) = (none, a.after items rest) := by
  rw [commandLine, parseWords_items hclear, parseWords_trailing]
  rfl

/-- An accepted option is an item, which is one word or two. -/
theorem exists_option {tail : Bytes} {rest : List Bytes} {a a' : Args} (htail : tail ≠ [])
    (h : a.parseWords spec false ((dashes ++ tail) :: rest) = (none, a')) :
    ∃ (item : Item spec) (rest' : List Bytes), (dashes ++ tail) :: rest = item.words ++ rest' ∧
      rest'.length ≤ rest.length ∧ (item.apply a).parseWords spec false rest' = (none, a') := by
  rcases hsplit : splitInline tail with ⟨name, inlineValue⟩
  have herror : ∀ {before behind : Bytes}, a.parseWords spec false ((dashes ++ tail) :: rest) ≠
      (some (before ++ name ++ behind), a) := by
    intro before behind heq
    rw [heq] at h
    cases h
  have hfails := @parseWords_error spec name inlineValue tail htail rest a hsplit
  by_cases hflag : name ∈ spec.flags
  · cases inlineValue with
    | some value =>
      obtain ⟨before, behind, heq⟩ := hfails (Or.inl ⟨hflag, Option.some_ne_none value⟩)
      exact absurd heq herror
    | none =>
      rw [parseWords_flag htail rest a hflag hsplit] at h
      rw [eq_of_splitInline_none hsplit]
      exact ⟨.flag name hflag, rest, rfl, Nat.le_refl _, h⟩
  by_cases hvalue : name ∈ spec.valueOptions
  · cases inlineValue with
    | some value =>
      rw [parseWords_inlined htail rest a hflag hvalue hsplit] at h
      rw [eq_of_splitInline_some hsplit]
      exact ⟨.inlined name value hvalue, rest, rfl, Nat.le_refl _, h⟩
    | none =>
      rcases rest with _ | ⟨value, rest⟩
      · obtain ⟨before, behind, heq⟩ := hfails (Or.inr (Or.inl ⟨hflag, hvalue, rfl, rfl⟩))
        exact absurd heq herror
      · rw [parseWords_spaced htail rest a hflag hvalue hsplit] at h
        rw [eq_of_splitInline_none hsplit]
        exact ⟨.spaced name value hvalue, rest, rfl, Nat.le_succ _, h⟩
  · obtain ⟨before, behind, heq⟩ := hfails (Or.inr (Or.inr ⟨hflag, hvalue⟩))
    exact absurd heq herror

/-- One more item before a command line. -/
theorem exists_commandLine_cons (item : Item spec) {words : List Bytes} {a a' : Args}
    (h : ∃ (items : List (Item spec)) (rest : Option (List Bytes)),
      words = commandLine items rest ∧ a' = (item.apply a).after items rest) :
    ∃ (items : List (Item spec)) (rest : Option (List Bytes)),
      item.words ++ words = commandLine items rest ∧ a' = a.after items rest := by
  obtain ⟨items, rest, rfl, hafter⟩ := h
  refine ⟨item :: items, rest, ?_, hafter⟩
  rw [commandLine, commandLine, List.flatMap_cons, List.append_assoc]

/-- Every accepted list of words is a command line, and says what the members hold. -/
theorem exists_commandLine {words : List Bytes} {a a' : Args}
    (h : a.parseWords spec false words = (none, a')) :
    ∃ (items : List (Item spec)) (rest : Option (List Bytes)),
      words = commandLine items rest ∧ a' = a.after items rest := by
  induction hlength : words.length using Nat.strong_induction_on generalizing words a with
  | _ n ih =>
    rcases words with _ | ⟨arg, rest⟩
    · rw [parseWords_nil] at h
      cases h
      exact ⟨[], none, rfl, by simp [after]⟩
    rw [List.length_cons] at hlength
    by_cases hstart : startsWith arg dashes = true
    · obtain ⟨tail, rfl⟩ := exists_of_startsWith hstart
      by_cases htail : tail = []
      · obtain rfl := htail
        rw [List.append_nil, parseWords_dashes, parseWords_done] at h
        cases h
        exact ⟨[], some rest, rfl, rfl⟩
      · obtain ⟨item, rest', hwords, hle, hrest⟩ := exists_option htail h
        rw [hwords]
        exact exists_commandLine_cons item (ih rest'.length (by omega) hrest rfl)
    · have hword : startsWith arg dashes = false := by simpa using hstart
      rw [parseWords_word hword] at h
      exact exists_commandLine_cons (.word arg hword) (ih rest.length (by omega) h rfl)

end Args

/-- What a list of items says. -/
def optionValues {spec : Spec} (option : Bytes) (items : List (Item spec)) : List Bytes :=
  items.filterMap (Item.valueOf option)

def positionals {spec : Spec} (items : List (Item spec)) : List Bytes :=
  items.filterMap Item.positional

def flagNames {spec : Spec} (items : List (Item spec)) : List Bytes :=
  items.filterMap Item.flagName

namespace Item
variable {spec : Spec}

theorem getAll_emplace (a : Args) (name value option : Bytes) :
    (a.emplace name value).getAll option =
      a.getAll option ++ (if name = option then some value else none).toList := by
  simp only [Args.getAll, Args.emplace, MultiMap.equalRange_emplace, List.map_append]
  split_ifs <;> rfl

theorem getAll_apply (a : Args) (item : Item spec) (option : Bytes) :
    (item.apply a).getAll option = a.getAll option ++ (item.valueOf option).toList := by
  cases item with
  | inlined name value _ => exact getAll_emplace a name value option
  | spaced name value _ => exact getAll_emplace a name value option
  | flag name _ => exact (List.append_nil _).symm
  | word arg _ => exact (List.append_nil _).symm

theorem positional_apply (a : Args) (item : Item spec) :
    (item.apply a).positional = a.positional ++ item.positional.toList := by
  cases item with
  | word arg _ => rfl
  | inlined name value _ => exact (List.append_nil _).symm
  | spaced name value _ => exact (List.append_nil _).symm
  | flag name _ => exact (List.append_nil _).symm

theorem mem_flags_apply (a : Args) (item : Item spec) (name : Bytes) :
    name ∈ (item.apply a).flags ↔ name ∈ a.flags ∨ item.flagName = some name := by
  cases item with
  | flag name' _ =>
    simp only [apply, Args.insertFlag, Finset.mem_insert, flagName, Option.some.injEq]
    rw [or_comm, eq_comm]
  | inlined name' value _ => simp [apply, Args.emplace, flagName]
  | spaced name' value _ => simp [apply, Args.emplace, flagName]
  | word arg _ => simp [apply, Args.pushBack, flagName]

/-- The members keep everything the items say, in order. -/
theorem foldl_apply (items : List (Item spec)) (a : Args) :
    (∀ option, (items.foldl apply a).getAll option = a.getAll option ++ optionValues option items) ∧
      (items.foldl apply a).positional = a.positional ++ positionals items ∧
      ∀ name, name ∈ (items.foldl apply a).flags ↔ name ∈ a.flags ∨ name ∈ flagNames items := by
  induction items generalizing a with
  | nil =>
    refine ⟨fun option => (List.append_nil _).symm, (List.append_nil _).symm, fun name => ?_⟩
    simp [flagNames]
  | cons item items ih =>
    obtain ⟨hvalues, hpositional, hflags⟩ := ih (item.apply a)
    refine ⟨fun option => ?_, ?_, fun name => ?_⟩
    · rw [List.foldl_cons, hvalues, getAll_apply, List.append_assoc]
      cases hvalue : item.valueOf option <;> simp [optionValues, hvalue]
    · rw [List.foldl_cons, hpositional, positional_apply, List.append_assoc]
      cases hword : item.positional <;> simp [positionals, hword]
    · rw [List.foldl_cons, hflags, mem_flags_apply, or_assoc]
      cases hname : item.flagName with
      | none => simp [flagNames, hname]
      | some name' => simp [flagNames, hname, eq_comm]

end Item

theorem Args.get_eq_getLast? (a : Args) (name : Bytes) : a.get name = (a.getAll name).getLast? := by
  rw [get, getAll, List.getLast?_map]

/-- Parsing undoes rendering: values that look like options, separators or assignments do not
shift the parse. -/
theorem Args.parse_commandLine {spec : Spec} (h : spec.Clear) (program : List Bytes)
    (items : List (Item spec)) (rest : Option (List Bytes)) :
    ∃ a, Args.init.parse (program ++ commandLine items rest) program.length spec = (none, a) ∧
      a.positional = positionals items ++ rest.getD [] ∧
      ∀ name, a.getAll name = optionValues name items ∧
        a.get name = (optionValues name items).getLast? ∧
        (a.flag name ↔ name ∈ flagNames items) := by
  obtain ⟨hvalues, hpositional, hflags⟩ := Item.foldl_apply items Args.init
  refine ⟨init.after items rest, ?_, ?_, fun name => ?_⟩
  · rw [parse, List.drop_left, parseWords_commandLine h]
  · change (items.foldl Item.apply init).positional ++ rest.getD [] = _
    rw [hpositional]
    rfl
  · have hall : (items.foldl Item.apply init).getAll name = optionValues name items := hvalues name
    refine ⟨hall, ?_, ?_⟩
    · rw [get_eq_getLast?]
      exact congrArg List.getLast? hall
    · have hmem : name ∈ (init.after items rest).flags ↔
          name ∈ init.flags ∨ name ∈ flagNames items := hflags name
      rw [flag, decide_eq_true_eq, hmem]
      simp [init]

/-- Values that look like an option, like the end of the options and like an assignment. -/
theorem Args.parse_commandLine_lookalikes :
    let spec : Spec := ⟨{ascii "k"}, {ascii "f"}⟩
    let items : List (Item spec) :=
      [.spaced (ascii "k") (ascii "--f") (by decide), .spaced (ascii "k") dashes (by decide),
        .inlined (ascii "k") (ascii "--k=") (by decide), .word (ascii "-") (by decide),
        .flag (ascii "f") (by decide)]
    ∃ a, Args.init.parse ([ascii "gemini"] ++ commandLine items (some [ascii "--k"])) 1 spec =
        (none, a) ∧
      a.positional = positionals items ++ [ascii "--k"] ∧
      ∀ name, a.getAll name = optionValues name items ∧
        a.get name = (optionValues name items).getLast? ∧
        (a.flag name ↔ name ∈ flagNames items) := by
  intro spec items
  have hnames : ∀ name, name ∈ spec.valueOptions ∨ name ∈ spec.flags →
      name = ascii "k" ∨ name = ascii "f" := fun name h =>
    h.imp Finset.mem_singleton.mp Finset.mem_singleton.mp
  have hclear : spec.Clear := by
    refine ⟨by decide, fun name h => ?_, fun name h => ?_⟩
    · rcases hnames name h with rfl | rfl <;> decide
    · rcases hnames name h with rfl | rfl <;> decide
  exact Args.parse_commandLine hclear [ascii "gemini"] items (some [ascii "--k"])

end GeminiCpp.Cli
