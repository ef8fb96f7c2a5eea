import Mathlib.Algebra.Order.Group.Nat
import Mathlib.Data.List.Forall2
import Mathlib.Data.List.Induction
import Mathlib.Data.List.Nodup
import Mathlib.Data.List.TakeWhile
import Whatsup.CLib.Buffer

/-!
# The option tables of `whatsup`

`_cmdline_parse` adds the options of the loaded modules to the two tables that `getopt_long` reads,
a string of letters and an array of long options, and writes down for each module which letters are
its own. An option whose letter is taken is passed over, and a module without room for the next one
loses the rest of its options. Loading the modules, their other data and what is done with the
options that are given are left out, and so are the flag of a long option, which is always `NULL`,
and the type and the description of a module option.

The built-in options are 17, but their number is set to 16, so that the first long name of a module
takes the place of the last of them. `optionTables_iff` says for which modules the tables have all
the names that they should have, and `cmdlineOptions_eq` what the tables are: those of the options
that are entered.
-/

set_option autoImplicit false
set_option relaxedAutoImplicit false

namespace Whatsup

open CLib

/-! ### The tables -/

/-- `struct whatsup_option`, but for the entry that ends an array of them. -/
structure WhatsupOption where
  option : Char
  optionArg : Option (List Char)
  optionLong : Option (List Char)
  nonzero : option ≠ '\x00'
deriving DecidableEq

/-- `struct option` of `getopt_long`. -/
structure LongOption where
  name : Option (List Char)
  hasArg : ℕ
  val : Char
deriving DecidableEq

/-- The entry that ends a table. -/
def LongOption.zero : LongOption :=
  ⟨none, 0, '\x00'⟩

/-- The built-in long options. -/
def builtinOptions : List LongOption :=
  [⟨some "help".toList, 0, 'h'⟩, ⟨some "version".toList, 0, 'v'⟩, ⟨some "hostname".toList, 1, 'o'⟩,
    ⟨some "port".toList, 1, 'p'⟩, ⟨some "updown".toList, 0, 'b'⟩, ⟨some "up".toList, 0, 'u'⟩,
    ⟨some "down".toList, 0, 'd'⟩, ⟨some "count".toList, 0, 't'⟩, ⟨some "hostrange".toList, 0, 'q'⟩,
    ⟨some "comma".toList, 0, 'c'⟩, ⟨some "newline".toList, 0, 'n'⟩, ⟨some "space".toList, 0, 's'⟩,
    ⟨some "module".toList, 1, 'm'⟩, ⟨some "last-up-time".toList, 0, 'r'⟩,
      ⟨some "log".toList, 0, 'l'⟩,
    ⟨some "log-file".toList, 1, 'f'⟩, ⟨some "log-poll".toList, 1, 'e'⟩]

/-- What `soptions` starts with. -/
def soptionsInit : List Char :=
  "hvo:p:budtqcnsrm:lf:e:".toList

/-- The array `loptions`: the built-in options, and zeros behind them. -/
def loptionsInit : List LongOption :=
  builtinOptions ++ List.replicate 16 .zero

/-- `soptions`, `loptions` and `loptions_len`. -/
structure OptionTables where
  soptions : List Char
  loptions : List LongOption
  loptionsLen : ℕ
deriving DecidableEq

/-- The tables at first. -/
def OptionTables.init : OptionTables :=
  ⟨soptionsInit, loptionsInit, 16⟩

/-- The long options that `getopt_long` comes by: those before the first entry without a name. -/
def OptionTables.longOptions (tables : OptionTables) : List LongOption :=
  tables.loptions.takeWhile (·.name.isSome)

/-! ### Entering options -/

/-- `loptions[pos] = entry`, if that is inside of the array. -/
def writeOption (loptions : List LongOption) (pos : ℕ) (entry : LongOption) :
    Option (List LongOption) :=
  if pos < loptions.length then some (loptions.set pos entry) else none

/-- The entry of a long option. -/
def WhatsupOption.longOption (option : WhatsupOption) (name : List Char) : LongOption :=
  ⟨some name, if option.optionArg.isSome then 1 else 0, option.option⟩

/-- Entering the letter of an option in `soptions`, with a colon if the option has an argument. -/
def enterLetter (option : WhatsupOption) (soptions : List Char) : Option (List Char) := do
  let soptions ← strcat 65 soptions [option.option]
  if option.optionArg.isSome then strcat 65 soptions [':'] else some soptions

/-- Entering the long name of an option, if it has one. -/
def enterName (option : WhatsupOption) (loptions : List LongOption) (loptionsLen : ℕ) :
    Option (List LongOption × ℕ) :=
  match option.optionLong with
  | none => some (loptions, loptionsLen)
  | some name => do
    let loptions ← writeOption loptions loptionsLen (option.longOption name)
    let loptions ← writeOption loptions (loptionsLen + 1) .zero
    some (loptions, loptionsLen + 1)

/-- Entering an option, unless a write is outside of its array: the tables, and the letters of its
module. -/
def enterOption (option : WhatsupOption) (tables : OptionTables) (optionsTowatch : List Char) :
    Option (OptionTables × List Char) := do
  let optionsTowatch ← strcat 64 optionsTowatch [option.option]
  let soptions ← enterLetter option tables.soptions
  let (loptions, loptionsLen) ← enterName option tables.loptions tables.loptionsLen
  some (⟨soptions, loptions, loptionsLen⟩, optionsTowatch)

/-- The loop over the options of a module. -/
def loadOptions : List WhatsupOption → OptionTables → List Char → Option (OptionTables × List Char)
  | [], tables, optionsTowatch => some (tables, optionsTowatch)
  | option :: options, tables, optionsTowatch =>
    if 64 ≤ optionsTowatch.length then some (tables, optionsTowatch)
    else if option.option ∈ tables.soptions then loadOptions options tables optionsTowatch
    else if 63 ≤ tables.soptions.length then some (tables, optionsTowatch)
    else if 32 ≤ tables.loptionsLen then some (tables, optionsTowatch)
    else
      match enterOption option tables optionsTowatch with
      | none => none
      | some (tables, optionsTowatch) => loadOptions options tables optionsTowatch

/-- The loop over the modules: the tables, and the letters of each of them. -/
def loadModuleOptions : List (List WhatsupOption) → OptionTables →
    Option (OptionTables × List (List Char))
  | [], tables => some (tables, [])
  | options :: modules, tables =>
    match loadOptions options tables [] with
    | none => none
    | some (tables, optionsTowatch) =>
      (loadModuleOptions modules tables).map fun result ↦ (result.1, optionsTowatch :: result.2)

/-- The tables that `_cmdline_parse` builds for the options of the modules. -/
def cmdlineOptions (modules : List (List WhatsupOption)) :
    Option (OptionTables × List (List Char)) :=
  loadModuleOptions modules .init

/-- The tables have all the names that they should have, every letter has one module at most, and
the tables are inside of their arrays and have an end. -/
structure OptionTables.Complete (modules : List (List WhatsupOption)) (tables : OptionTables)
    (optionsTowatch : List (List Char)) :
    Prop where
  builtin : ∀ entry ∈ builtinOptions, entry ∈ tables.longOptions
  named : List.Forall₂ (fun options letters ↦ ∀ option ∈ options, option.option ∈ letters →
    ∀ name ∈ option.optionLong,
    ∃ entry ∈ tables.longOptions, entry.name = some name ∧ entry.val = option.option) modules
      optionsTowatch
  letters : optionsTowatch.flatten.Nodup
  inside : tables.soptions.length < 65 ∧ (∀ letters ∈ optionsTowatch, letters.length < 64) ∧
    tables.loptions.length = 33
  ended : tables.loptions[tables.longOptions.length]? = some .zero

/-! ### The options that are entered -/

/-- What an option adds to the option string. -/
def WhatsupOption.text (option : WhatsupOption) : List Char :=
  option.option :: if option.optionArg.isSome then [':'] else []

/-- The option string with these options. -/
def soptionsOf (entered : List WhatsupOption) : List Char :=
  soptionsInit ++ entered.flatMap WhatsupOption.text

/-- The long options of these options. -/
def enteredLong (entered : List WhatsupOption) : List LongOption :=
  entered.filterMap fun option ↦ option.optionLong.map option.longOption

/-- The array with these long options: the first of them has taken the place of the last built-in
one. -/
def longTable (extra : List LongOption) : List LongOption :=
  if extra = [] then loptionsInit else builtinOptions.take 16 ++
    (extra ++ List.replicate (17 - extra.length) .zero)

/-- The tables with these options. -/
def tablesOf (entered : List WhatsupOption) : OptionTables :=
  ⟨soptionsOf entered, longTable (enteredLong entered), 16 + (enteredLong entered).length⟩

/-- There is no room for one more option. -/
def Full (entered : List WhatsupOption) : Prop :=
  63 ≤ (soptionsOf entered).length ∨ 16 ≤ (enteredLong entered).length

instance (entered : List WhatsupOption) : Decidable (Full entered) :=
  inferInstanceAs (Decidable (_ ∨ _))

/-- The options that are entered with one more. -/
def enter (entered : List WhatsupOption) (option : WhatsupOption) : List WhatsupOption :=
  if option.option ∈ soptionsOf entered ∨ Full entered then entered else entered ++ [option]

/-- The letters of a module, behind the options that are entered. -/
def newLetters (entered options : List WhatsupOption) : List Char :=
  ((options.foldl enter entered).drop entered.length).map (·.option)

@[simp]
theorem tablesOf_soptions (entered : List WhatsupOption) : (tablesOf entered).soptions =
    soptionsOf entered :=
  rfl

@[simp]
theorem tablesOf_loptionsLen (entered : List WhatsupOption) :
    (tablesOf entered).loptionsLen = 16 + (enteredLong entered).length :=
  rfl

theorem soptionsOf_append (entered : List WhatsupOption) (option : WhatsupOption) :
    soptionsOf (entered ++ [option]) = soptionsOf entered ++ option.text := by
  simp [soptionsOf]

theorem enteredLong_append (entered : List WhatsupOption) (option : WhatsupOption) :
    enteredLong (entered ++ [option]) = enteredLong entered ++
      (option.optionLong.map option.longOption).toList := by
  cases hlong : option.optionLong <;> simp [enteredLong, hlong]

/-- Every option takes a place in the option string. -/
theorem length_le_soptionsOf (entered : List WhatsupOption) : entered.length + 22 ≤
    (soptionsOf entered).length := by
  induction entered using List.reverseRecOn with
  | nil => decide
  | append_singleton entered option ih =>
    rw [soptionsOf_append, List.length_append, List.length_append, List.length_singleton,
      WhatsupOption.text,
      List.length_cons]
    omega

theorem longTable_length {extra : List LongOption} (h : extra.length ≤ 16) :
    (longTable extra).length = 33 := by
  unfold longTable
  split_ifs
  · rfl
  · have hbuiltin : (builtinOptions.take 16).length = 16 := rfl
    rw [List.length_append, List.length_append, List.length_replicate, hbuiltin]
    omega

/-- Assumes: room for one more long option. It is entered, and the end of the table behind it. -/
theorem writeOption_longTable {extra : List LongOption} (h : extra.length < 16)
    (entry : LongOption) :
    ∃ written, writeOption (longTable extra) (16 + extra.length) entry = some written ∧
      writeOption written (16 + extra.length + 1) .zero = some (longTable (extra ++ [entry])) := by
  have hlength := longTable_length (le_of_lt h)
  refine ⟨(longTable extra).set (16 + extra.length) entry, if_pos (by omega), ?_⟩
  rw [writeOption, if_pos (by rw [List.length_set]; omega)]
  congr 1
  unfold longTable
  rw [if_neg (List.append_ne_nil_of_right_ne_nil extra (List.cons_ne_nil entry []))]
  split_ifs with hextra
  · subst hextra
    rfl
  · obtain ⟨room, hroom⟩ : ∃ room, 17 - extra.length = room + 2 := ⟨15 - extra.length, by omega⟩
    have hroom' : 17 - (extra ++ [entry]).length = room + 1 := by
      rw [List.length_append, List.length_singleton]
      omega
    have hbuiltin : (builtinOptions.take 16).length = 16 := rfl
    have hfront : (builtinOptions.take 16 ++ extra).length = 16 + extra.length := by
      rw [List.length_append, hbuiltin]
    rw [hroom, hroom', ← List.append_assoc, List.set_append_right _ _ hfront.le,
      List.set_append_right _ _ (by omega), hfront,
      Nat.sub_self, Nat.add_sub_cancel_left, List.replicate_succ, List.replicate_succ,
        List.set_cons_zero, List.set_cons_succ,
      List.set_cons_zero, ← List.append_assoc]
    simp

/-- Assumes: room for one more option. Its letter is entered. -/
theorem enterLetter_eq {entered : List WhatsupOption} (hroom : (soptionsOf entered).length < 63)
    (option : WhatsupOption) :
    enterLetter option (soptionsOf entered) = some (soptionsOf (entered ++ [option])) := by
  have hletter : strcat 65 (soptionsOf entered) [option.option] =
      some (soptionsOf entered ++ [option.option]) :=
    if_pos (by rw [List.length_singleton]; omega)
  rw [enterLetter, hletter, soptionsOf_append, WhatsupOption.text]
  simp only [Option.bind_eq_bind, Option.bind_some]
  split_ifs
  · rw [strcat,
      if_pos (by rw [List.length_append, List.length_singleton, List.length_singleton]; omega),
      List.append_assoc]
    rfl
  · rfl

/-- Assumes: room for one more option. Its name is entered. -/
theorem enterName_eq {entered : List WhatsupOption} (hroom : (enteredLong entered).length < 16)
    (option : WhatsupOption) :
    enterName option (longTable (enteredLong entered)) (16 + (enteredLong entered).length) =
      some (longTable (enteredLong (entered ++ [option])),
        16 + (enteredLong (entered ++ [option])).length) := by
  rw [enterName, enteredLong_append]
  cases option.optionLong with
  | none => simp
  | some name =>
    obtain ⟨written, hentry, hend⟩ := writeOption_longTable hroom (option.longOption name)
    simp only [Option.bind_eq_bind, hentry, Option.bind_some, hend, Option.map_some,
      Option.toList_some, List.length_append,
      List.length_singleton]
    rfl

/-- Assumes: room for one more option. It is entered. -/
theorem enterOption_eq {entered : List WhatsupOption} (hroom : ¬Full entered)
    {optionsTowatch : List Char}
    (hletters : optionsTowatch.length ≤ entered.length) (option : WhatsupOption) :
    enterOption option (tablesOf entered) optionsTowatch =
      some (tablesOf (entered ++ [option]), optionsTowatch ++ [option.option]) := by
  obtain ⟨hshort, hlong⟩ := not_or.mp hroom
  have hplaces := length_le_soptionsOf entered
  have hwatch : strcat 64 optionsTowatch [option.option] =
      some (optionsTowatch ++ [option.option]) :=
    if_pos (by rw [List.length_singleton]; omega)
  rw [enterOption, hwatch]
  simp only [tablesOf, Option.bind_eq_bind, Option.bind_some, enterLetter_eq (not_le.mp hshort),
    enterName_eq (not_le.mp hlong)]

/-! ### The options of all modules -/

/-- Without room no option is entered. -/
theorem foldl_enter_full {entered : List WhatsupOption} (h : Full entered)
    (options : List WhatsupOption) :
    options.foldl enter entered = entered := by
  induction options with
  | nil => rfl
  | cons option options ih =>
    rw [List.foldl_cons, enter, if_pos (Or.inr h)]
    exact ih

/-- The options that are entered stay, and those behind them are from the list, with letters that
were not taken. -/
theorem exists_foldl_enter (options : List WhatsupOption) :
    ∀ entered, ∃ new, options.foldl enter entered = entered ++ new ∧
      ∀ option ∈ new, option ∈ options ∧ option.option ∉ soptionsOf entered := by
  induction options with
  | nil => exact fun entered ↦
    ⟨[], (List.append_nil _).symm, fun _ hnew ↦ absurd hnew List.not_mem_nil⟩
  | cons option options ih =>
    intro entered
    rw [List.foldl_cons]
    by_cases htaken : option.option ∈ soptionsOf entered ∨ Full entered
    · obtain ⟨new, hnew, hfrom⟩ := ih entered
      rw [enter, if_pos htaken]
      exact ⟨new, hnew, fun other hother ↦
        ⟨List.mem_cons_of_mem _ (hfrom other hother).1, (hfrom other hother).2⟩⟩
    · obtain ⟨new, hnew, hfrom⟩ := ih (entered ++ [option])
      rw [enter, if_neg htaken, hnew, List.append_assoc]
      refine ⟨_, rfl, fun other hother ↦ ?_⟩
      rcases List.mem_cons.mp hother with rfl | hother
      · exact ⟨List.mem_cons_self, fun hmem ↦ htaken (Or.inl hmem)⟩
      · refine ⟨List.mem_cons_of_mem _ (hfrom other hother).1, fun hmem ↦ (hfrom other hother).2 ?_⟩
        rw [soptionsOf_append]
        exact List.mem_append_left _ hmem

/-- The letters of a module are those of the options that it enters. -/
theorem newLetters_eq {entered options new : List WhatsupOption}
    (h : options.foldl enter entered = entered ++ new) :
    newLetters entered options = new.map (·.option) := by
  rw [newLetters, h, List.drop_left]

theorem newLetters_full {entered : List WhatsupOption} (h : Full entered)
    (options : List WhatsupOption) :
    newLetters entered options = [] := by
  rw [newLetters, foldl_enter_full h, List.drop_length]
  rfl

/-- The loop over the options of a module enters them. -/
theorem loadOptions_eq (options : List WhatsupOption) :
    ∀ {entered : List WhatsupOption} {optionsTowatch : List Char}, optionsTowatch.length ≤
      entered.length →
      loadOptions options (tablesOf entered) optionsTowatch =
        some (tablesOf (options.foldl enter entered),
          optionsTowatch ++ newLetters entered options) := by
  induction options with
  | nil =>
    intro entered optionsTowatch _
    simp [loadOptions, newLetters]
  | cons option options ih =>
    intro entered optionsTowatch hletters
    have hplaces := length_le_soptionsOf entered
    -- a loop that is left for want of room leaves the tables as every further round would
    have hfull : Full entered → some (tablesOf entered, optionsTowatch) =
        some (tablesOf ((option :: options).foldl enter entered),
            optionsTowatch ++ newLetters entered (option :: options)) :=
      fun hfull ↦ by rw [foldl_enter_full hfull, newLetters_full hfull, List.append_nil]
    rw [loadOptions, tablesOf_soptions, tablesOf_loptionsLen]
    by_cases hwatch : 64 ≤ optionsTowatch.length
    · rw [if_pos hwatch]
      exact hfull (Or.inl (by omega))
    rw [if_neg hwatch]
    by_cases htaken : option.option ∈ soptionsOf entered
    · have hpassed : enter entered option = entered := if_pos (Or.inl htaken)
      rw [if_pos htaken, ih hletters, List.foldl_cons, newLetters, newLetters,
        List.foldl_cons, hpassed]
    rw [if_neg htaken]
    by_cases hshort : 63 ≤ (soptionsOf entered).length
    · rw [if_pos hshort]
      exact hfull (Or.inl hshort)
    rw [if_neg hshort]
    by_cases hlong : 32 ≤ 16 + (enteredLong entered).length
    · rw [if_pos hlong]
      exact hfull (Or.inr (by omega))
    have hroom : ¬Full entered := not_or.mpr ⟨hshort, by omega⟩
    have hentered : enter entered option = entered ++ [option] :=
      if_neg (not_or.mpr ⟨htaken, hroom⟩)
    obtain ⟨new, hnew, -⟩ := exists_foldl_enter options (entered ++ [option])
    have hnext : optionsTowatch.length + 1 ≤ (entered ++ [option]).length := by
      rw [List.length_append, List.length_singleton]
      omega
    have hall : (option :: options).foldl enter entered = entered ++ option :: new := by
      rw [List.foldl_cons, hentered, hnew, List.append_assoc]
      rfl
    rw [if_neg hlong, enterOption_eq hroom hletters]
    simp only
    rw [ih (by rwa [List.length_append]), newLetters_eq hnew, newLetters_eq hall, hall, hnew,
      List.append_assoc,
      List.append_assoc]
    rfl

/-- The letters of the modules, behind the options that are entered. -/
def lettersOf : List WhatsupOption → List (List WhatsupOption) → List (List Char)
  | _, [] => []
  | entered, options :: modules =>
    newLetters entered options :: lettersOf (options.foldl enter entered) modules

/-- The loop over the modules enters all their options. -/
theorem loadModuleOptions_eq (modules : List (List WhatsupOption)) :
    ∀ entered, loadModuleOptions modules (tablesOf entered) =
      some (tablesOf (modules.flatten.foldl enter entered), lettersOf entered modules) := by
  induction modules with
  | nil => exact fun _ ↦ rfl
  | cons options modules ih =>
    intro entered
    rw [loadModuleOptions, loadOptions_eq options (Nat.zero_le _), List.flatten_cons,
      List.foldl_append]
    simp only [ih, Option.map_some, List.nil_append]
    rfl

/-- The tables are those of the options that are entered, one after another. -/
theorem cmdlineOptions_eq (modules : List (List WhatsupOption)) :
    cmdlineOptions modules = some (tablesOf (modules.flatten.foldl enter []),
      lettersOf [] modules) :=
  loadModuleOptions_eq modules []

/-! ### What the tables have -/

/-- The options that are entered have different letters, none of which is taken by a built-in
option, and they fit. -/
structure Enterable (entered : List WhatsupOption) : Prop where
  nodup : (entered.map (·.option)).Nodup
  new : ∀ option ∈ entered, option.option ∉ soptionsInit
  short : (soptionsOf entered).length ≤ 64
  long : (enteredLong entered).length ≤ 16

theorem option_mem_soptionsOf {entered : List WhatsupOption} {option : WhatsupOption}
    (h : option ∈ entered) :
    option.option ∈ soptionsOf entered :=
  List.mem_append_right _ (List.mem_flatMap.mpr ⟨option, h, List.mem_cons_self⟩)

theorem Enterable.enter {entered : List WhatsupOption} (h : Enterable entered)
    (option : WhatsupOption) :
    Enterable (enter entered option) := by
  unfold Whatsup.enter
  split_ifs with htaken
  · exact h
  · obtain ⟨htaken, hroom⟩ := not_or.mp htaken
    obtain ⟨hshort, hlong⟩ := not_or.mp hroom
    refine ⟨?_, ?_, ?_, ?_⟩
    · rw [List.map_append, List.map_singleton, List.nodup_append]
      refine ⟨h.nodup, List.nodup_singleton _, fun letter hletter other hother ↦ ?_⟩
      obtain ⟨earlier, hearlier, rfl⟩ := List.mem_map.mp hletter
      intro heq
      have htaken' := option_mem_soptionsOf hearlier
      rw [heq, List.mem_singleton.mp hother] at htaken'
      exact htaken htaken'
    · refine List.forall_mem_append.mpr ⟨h.new, List.forall_mem_singleton.mpr
        fun hbuiltin ↦ htaken ?_⟩
      exact List.mem_append_left _ hbuiltin
    · rw [soptionsOf_append, List.length_append, WhatsupOption.text, List.length_cons]
      split_ifs <;> simp only [List.length_singleton, List.length_nil] <;> omega
    · rw [enteredLong_append, List.length_append]
      cases option.optionLong <;> simp only [Option.map_none, Option.map_some, Option.toList_none,
        Option.toList_some,
        List.length_nil, List.length_singleton] <;> omega

theorem Enterable.foldl {entered : List WhatsupOption} (h : Enterable entered)
    (options : List WhatsupOption) :
    Enterable (options.foldl Whatsup.enter entered) := by
  induction options generalizing entered with
  | nil => exact h
  | cons option options ih => exact ih (h.enter option)

theorem enterable_nil : Enterable [] :=
  ⟨List.nodup_nil, fun _ h ↦ absurd h List.not_mem_nil, by decide, by decide⟩

theorem exists_of_mem_enteredLong {entered : List WhatsupOption} {entry : LongOption}
    (h : entry ∈ enteredLong entered) :
    ∃ option ∈ entered, ∃ name, option.optionLong = some name ∧ entry = option.longOption name := by
  obtain ⟨option, hoption, hentry⟩ := List.mem_filterMap.mp h
  obtain ⟨name, hname, rfl⟩ := Option.map_eq_some_iff.mp hentry
  exact ⟨option, hoption, name, hname, rfl⟩

theorem enteredLong_eq_nil_iff {entered : List WhatsupOption} :
    enteredLong entered = [] ↔ ∀ option ∈ entered, option.optionLong = none := by
  simp [enteredLong, List.filterMap_eq_nil_iff]

/-- The long options that `getopt_long` comes by. -/
theorem longOptions_tablesOf {entered : List WhatsupOption} (h : Enterable entered) :
    (tablesOf entered).longOptions =
      if enteredLong entered = [] then builtinOptions else builtinOptions.take 16 ++
        enteredLong entered := by
  unfold OptionTables.longOptions tablesOf longTable
  split_ifs with hlong
  · rfl
  · have hnames : ∀ entry ∈ builtinOptions.take 16 ++ enteredLong entered,
        entry.name.isSome = true := by
      refine List.forall_mem_append.mpr ⟨by decide, fun entry hentry ↦ ?_⟩
      obtain ⟨option, -, name, -, rfl⟩ := exists_of_mem_enteredLong hentry
      rfl
    obtain ⟨room, hroom⟩ : ∃ room, 17 - (enteredLong entered).length = room + 1 :=
      ⟨16 - (enteredLong entered).length, by have := h.long; omega⟩
    rw [← List.append_assoc, List.takeWhile_append_of_pos hnames, hroom, List.replicate_succ,
      List.takeWhile_cons_of_neg (by decide),
      List.append_nil]

/-- The entry behind them ends the table. -/
theorem ended_tablesOf {entered : List WhatsupOption} (h : Enterable entered) :
    (tablesOf entered).loptions[(tablesOf entered).longOptions.length]? = some .zero := by
  rw [longOptions_tablesOf h]
  unfold tablesOf longTable
  split_ifs with hlong
  · rfl
  · obtain ⟨room, hroom⟩ : ∃ room, 17 - (enteredLong entered).length = room + 1 :=
      ⟨16 - (enteredLong entered).length, by have := h.long; omega⟩
    rw [hroom, ← List.append_assoc, List.getElem?_append_right le_rfl, Nat.sub_self]
    rfl

/-- The letters of all modules are those of the options that are entered. -/
theorem flatten_lettersOf (modules : List (List WhatsupOption)) :
    ∀ entered, (lettersOf entered modules).flatten = newLetters entered modules.flatten := by
  induction modules with
  | nil => exact fun entered ↦ by simp [lettersOf, newLetters]
  | cons options modules ih =>
    intro entered
    obtain ⟨new, hnew, -⟩ := exists_foldl_enter options entered
    obtain ⟨behind, hbehind, -⟩ := exists_foldl_enter modules.flatten (entered ++ new)
    have hall : (options ++ modules.flatten).foldl enter entered = entered ++ (new ++ behind) := by
      rw [List.foldl_append, hnew, hbehind, List.append_assoc]
    rw [lettersOf, List.flatten_cons, ih, List.flatten_cons, newLetters_eq hnew, hnew,
      newLetters_eq hbehind, newLetters_eq hall,
      List.map_append]

/-- A property of every module and its letters, for a module behind others. -/
theorem forall₂_lettersOf {P : List WhatsupOption → List Char → Prop}
    (modules : List (List WhatsupOption)) :
    ∀ entered, List.Forall₂ P modules (lettersOf entered modules) ↔
      ∀ before options after, modules = before ++ options :: after →
        P options (newLetters (before.flatten.foldl enter entered) options) := by
  induction modules with
  | nil =>
    intro entered
    refine ⟨fun _ before options after h ↦ absurd h (by simp), fun _ ↦ .nil⟩
  | cons first modules ih =>
    intro entered
    rw [lettersOf, List.forall₂_cons, ih]
    constructor
    · rintro ⟨hfirst, hmodules⟩ before options after h
      cases before with
      | nil =>
        obtain ⟨rfl, -⟩ := List.cons.inj h
        exact hfirst
      | cons other before =>
        obtain ⟨rfl, hbehind⟩ := List.cons.inj h
        rw [List.flatten_cons, List.foldl_append]
        exact hmodules before options after hbehind
    · intro h
      refine ⟨h [] first modules rfl, fun before options after hbehind ↦ ?_⟩
      have hnext := h (first :: before) options after (congrArg (first :: ·) hbehind)
      rwa [List.flatten_cons, List.foldl_append] at hnext

/-- The options that are entered of a list. -/
def enteredOf (options : List WhatsupOption) : List WhatsupOption :=
  options.foldl enter []

theorem enterable_enteredOf (options : List WhatsupOption) : Enterable (enteredOf options) :=
  enterable_nil.foldl options

theorem exists_enteredOf_append (before options : List WhatsupOption) :
    ∃ new, enteredOf (before ++ options) = enteredOf before ++ new ∧
      newLetters (enteredOf before) options = new.map (·.option) ∧
      ∀ option ∈ new, option ∈ options ∧ option.option ∉ soptionsOf (enteredOf before) := by
  obtain ⟨new, hnew, hfrom⟩ := exists_foldl_enter options (enteredOf before)
  exact ⟨new, by rw [enteredOf, List.foldl_append]; exact hnew, newLetters_eq hnew, hfrom⟩

/-- Every letter has one module at most, the tables are inside of their arrays, and they have an
end. -/
theorem tablesOf_always (modules : List (List WhatsupOption)) :
    (lettersOf [] modules).flatten.Nodup ∧
      ((tablesOf (enteredOf modules.flatten)).soptions.length < 65 ∧
        (∀ letters ∈ lettersOf [] modules, letters.length < 64) ∧
        (tablesOf (enteredOf modules.flatten)).loptions.length = 33) ∧
      (tablesOf (enteredOf modules.flatten)).loptions[
        (tablesOf (enteredOf modules.flatten)).longOptions.length]? = some .zero := by
  have hentered := enterable_enteredOf modules.flatten
  have hletters : (lettersOf [] modules).flatten = (enteredOf modules.flatten).map (·.option) := by
    rw [flatten_lettersOf, newLetters]
    rfl
  have hplaces := length_le_soptionsOf (enteredOf modules.flatten)
  have hshort := hentered.short
  refine ⟨hletters ▸ hentered.nodup, ⟨Nat.lt_succ_of_le hshort, fun letters hmem ↦
    ?_, longTable_length hentered.long⟩,
    ended_tablesOf hentered⟩
  have hlength := (List.sublist_flatten_of_mem hmem).length_le
  rw [hletters, List.length_map] at hlength
  omega

/-- No letter of a module is the one of an option of it with a long name. -/
def NoLongNames (modules : List (List WhatsupOption)) : Prop :=
  ∀ before options after, modules = before ++ options :: after → ∀ option ∈ options,
    option.option ∈ newLetters (enteredOf before.flatten) options → option.optionLong = none

theorem NoLongNames.enteredLong_eq_nil {modules : List (List WhatsupOption)}
    (h : NoLongNames modules) :
    enteredLong (enteredOf modules.flatten) = [] := by
  induction modules using List.reverseRecOn with
  | nil => rfl
  | append_singleton modules options ih =>
    have hbefore : NoLongNames modules := fun before other after hsplit ↦
      h before other (after ++ [options]) (by rw [hsplit, List.append_assoc]; rfl)
    obtain ⟨new, hnew, hletters, hfrom⟩ := exists_enteredOf_append modules.flatten options
    rw [List.flatten_append, List.flatten_singleton, hnew, enteredLong_eq_nil_iff]
    refine List.forall_mem_append.mpr ⟨enteredLong_eq_nil_iff.mp (ih hbefore),
      fun option hoption ↦ ?_⟩
    exact h modules options [] rfl option
      (hfrom option hoption).1 (hletters ▸ List.mem_map_of_mem hoption)

/-- The letter of an option that is entered is no built-in one. -/
theorem not_mem_soptionsInit {before options : List WhatsupOption} {letter : Char}
    (h : letter ∈ newLetters (enteredOf before) options) : letter ∉ soptionsInit := by
  obtain ⟨new, hnew, hletters, hfrom⟩ := exists_enteredOf_append before options
  obtain ⟨option, hoption, rfl⟩ := List.mem_map.mp (hletters ▸ h)
  exact fun hbuiltin ↦ (hfrom option hoption).2 (List.mem_append_left _ hbuiltin)

/-- The tables have all the names that they should have if and only if no long name should be among
them. -/
theorem complete_iff (modules : List (List WhatsupOption)) :
    (tablesOf (enteredOf modules.flatten)).Complete modules (lettersOf [] modules) ↔
      NoLongNames modules := by
  have hentered := enterable_enteredOf modules.flatten
  obtain ⟨hletters, hinside, hended⟩ := tablesOf_always modules
  constructor
  · intro h
    have hnone : enteredLong (enteredOf modules.flatten) = [] := by
      by_contra hlong
      have hlast := h.builtin ⟨some "log-poll".toList, 1, 'e'⟩ (by decide)
      rw [longOptions_tablesOf hentered, if_neg hlong] at hlast
      rcases List.mem_append.mp hlast with hbuiltin | hmodule
      · exact absurd hbuiltin (by decide)
      · obtain ⟨option, hoption, name, -, hentry⟩ := exists_of_mem_enteredLong hmodule
        have hletter : 'e' = option.option := congrArg LongOption.val hentry
        exact hentered.new option hoption (hletter ▸ by decide)
    intro before options after hsplit option hoption hletter
    by_contra hlong
    obtain ⟨name, hname⟩ := Option.ne_none_iff_exists'.mp hlong
    obtain ⟨entry, hentry, -, hval⟩ :=
      (forall₂_lettersOf modules []).mp h.named before options after hsplit option hoption
        hletter name hname
    rw [longOptions_tablesOf hentered, if_pos hnone] at hentry
    have hbuiltin : ∀ entry ∈ builtinOptions, entry.val ∈ soptionsInit := by decide
    exact not_mem_soptionsInit hletter (hval ▸ hbuiltin entry hentry)
  · intro h
    have hlongOptions : (tablesOf (enteredOf modules.flatten)).longOptions = builtinOptions := by
      rw [longOptions_tablesOf hentered, if_pos h.enteredLong_eq_nil]
    refine ⟨fun entry hentry ↦ hlongOptions.symm ▸ hentry, ?_, hletters, hinside, hended⟩
    refine (forall₂_lettersOf modules []).mpr fun before options after hsplit option hoption hletter
      name hname ↦ ?_
    exact absurd ((h before options after hsplit option hoption hletter).symm.trans hname) (by simp)

/-! ### The modules for which they do -/

/-- The option string with the letters of some options, if there were room for all of them. -/
def shortOptions (options : List WhatsupOption) : List Char :=
  options.foldl (fun soptions option ↦ if option.option ∈ soptions then soptions else soptions ++
    option.text) soptionsInit

/-- Every option of a module with a long name has a letter that is a built-in one, or the one of an
option of a module before, or that comes first in its module where the option string has no room
left. -/
def LongNamesPassedOver (modules : List (List WhatsupOption)) : Prop :=
  ∀ before options after, modules = before ++ options :: after →
    ∀ option ∈ options, option.optionLong ≠ none →
    option.option ∈ soptionsInit ∨ (∃ other ∈ before.flatten, other.option = option.option) ∨
      63 ≤ (shortOptions (before.flatten ++ options.takeWhile (·.option ≠ option.option))).length

theorem shortOptions_append (options : List WhatsupOption) (option : WhatsupOption) :
    shortOptions (options ++ [option]) =
      if option.option ∈ shortOptions options then shortOptions options else shortOptions options ++
        option.text := by
  rw [shortOptions, List.foldl_append]
  rfl

theorem enteredOf_append (options : List WhatsupOption) (option : WhatsupOption) :
    enteredOf (options ++ [option]) = enter (enteredOf options) option := by
  rw [enteredOf, List.foldl_append]
  rfl

/-- The letters of the option string are built-in ones and those of the options. -/
theorem mem_shortOptions {options : List WhatsupOption} {letter : Char}
    (h : letter ∈ shortOptions options) :
    letter ∈ soptionsInit ∨ ∃ option ∈ options, option.option = letter := by
  induction options using List.reverseRecOn with
  | nil => exact Or.inl h
  | append_singleton options option ih =>
    have hbefore : letter ∈ shortOptions options → letter ∈ soptionsInit ∨
        ∃ other ∈ options ++ [option], other.option = letter :=
      fun hletter ↦ (ih hletter).imp_right fun ⟨other, hother, hsame⟩ ↦
        ⟨other, List.mem_append_left _ hother, hsame⟩
    rw [shortOptions_append] at h
    split_ifs at h
    · exact hbefore h
    · rcases List.mem_append.mp h with h | h
      · exact hbefore h
      · rcases List.mem_cons.mp h with rfl | h
        · exact Or.inr ⟨option, List.mem_append_right _ List.mem_cons_self, rfl⟩
        · split_ifs at h
          · rw [List.mem_singleton.mp h]
            exact Or.inl (by decide)
          · exact absurd h List.not_mem_nil

theorem option_mem_shortOptions {options : List WhatsupOption} {option : WhatsupOption}
    (h : option ∈ options) :
    option.option ∈ shortOptions options := by
  induction options using List.reverseRecOn with
  | nil => exact absurd h List.not_mem_nil
  | append_singleton options other ih =>
    rw [shortOptions_append]
    rcases List.mem_append.mp h with h | h
    · split_ifs
      · exact ih h
      · exact List.mem_append_left _ (ih h)
    · obtain rfl := List.mem_singleton.mp h
      split_ifs with hmem
      · exact hmem
      · exact List.mem_append_right _ List.mem_cons_self

theorem shortOptions_length_le (options : List WhatsupOption) (option : WhatsupOption) :
    (shortOptions options).length ≤ (shortOptions (options ++ [option])).length := by
  rw [shortOptions_append]
  split_ifs
  · exact le_rfl
  · rw [List.length_append]
    exact Nat.le_add_right _ _

/-- As long as there is room, the option string is the one without bounds. -/
theorem soptionsOf_enteredOf (options : List WhatsupOption) :
    (soptionsOf (enteredOf options)).length ≤ (shortOptions options).length ∧
      (Full (enteredOf options) ∨ soptionsOf (enteredOf options) = shortOptions options) := by
  induction options using List.reverseRecOn with
  | nil => exact ⟨le_rfl, Or.inr (List.append_nil _)⟩
  | append_singleton options option ih =>
    have hlonger := shortOptions_length_le options option
    rw [enteredOf_append, enter]
    by_cases hfull : Full (enteredOf options)
    · rw [if_pos (Or.inr hfull)]
      exact ⟨ih.1.trans hlonger, Or.inl hfull⟩
    · have hsame := ih.2.resolve_left hfull
      by_cases htaken : option.option ∈ soptionsOf (enteredOf options)
      · rw [if_pos (Or.inl htaken), shortOptions_append, ← hsame, if_pos htaken]
        exact ⟨le_rfl, Or.inr rfl⟩
      · rw [if_neg (not_or.mpr ⟨htaken, hfull⟩), soptionsOf_append, shortOptions_append, ← hsame,
          if_neg htaken]
        exact ⟨le_rfl, Or.inr rfl⟩

/-- Assumes: an option string without room. No option is entered behind it. -/
theorem full_of_shortOptions {options : List WhatsupOption}
    (h : 63 ≤ (shortOptions options).length) :
    Full (enteredOf options) :=
  (soptionsOf_enteredOf options).2.elim id fun hsame ↦ Or.inl (hsame ▸ h)

/-- The options in front of the first with a letter, and that option. -/
theorem exists_first_option {options : List WhatsupOption} {option : WhatsupOption}
    (h : option ∈ options) :
    ∃ first behind, options = options.takeWhile (·.option ≠ option.option) ++ first :: behind ∧
      first.option = option.option := by
  have hne : options.dropWhile (·.option ≠ option.option) ≠ [] := fun hnil ↦ by
    have hall := List.dropWhile_eq_nil_iff.mp hnil option h
    exact of_decide_eq_true hall rfl
  obtain ⟨first, behind, hcons⟩ := List.exists_cons_of_ne_nil hne
  refine ⟨first, behind, ?_, ?_⟩
  · rw [← hcons, List.takeWhile_append_dropWhile]
  · have hhead :=
      List.head_dropWhile_not (fun other : WhatsupOption ↦
      decide (other.option ≠ option.option)) hne
    simp only [hcons, List.head_cons, decide_eq_false_iff_not, not_not] at hhead
    exact hhead

/-- Assumes: modules whose long names are passed over. None is entered. -/
theorem LongNamesPassedOver.noLongNames {modules : List (List WhatsupOption)}
    (h : LongNamesPassedOver modules) :
    NoLongNames modules := by
  intro before options after hsplit option hoption hletter
  by_contra hlong
  obtain ⟨new, hnew, hletters, hfrom⟩ := exists_enteredOf_append before.flatten options
  obtain ⟨entered, hentered, hsame⟩ := List.mem_map.mp (hletters ▸ hletter)
  rcases h before options after hsplit option hoption hlong with hbuiltin | ⟨other, hother,
    heq⟩ | hroom
  · exact not_mem_soptionsInit hletter hbuiltin
  · have hroom : ¬Full (enteredOf before.flatten) := fun hfull ↦ by
      rw [newLetters_full hfull] at hletter
      exact absurd hletter List.not_mem_nil
    have htaken := (hfrom entered hentered).2
    rw [(soptionsOf_enteredOf before.flatten).2.resolve_left hroom, hsame, ← heq] at htaken
    exact htaken (option_mem_shortOptions hother)
  · obtain ⟨first, behind, hfirst, -⟩ := exists_first_option hoption
    obtain ⟨new', hnew', hletters', hfrom'⟩ :=
      exists_enteredOf_append before.flatten (options.takeWhile (·.option ≠ option.option))
    have hstop : enteredOf (before.flatten ++ options) =
        enteredOf (before.flatten ++ options.takeWhile (·.option ≠ option.option)) := by
      conv_lhs => rw [hfirst, ← List.append_assoc, enteredOf, List.foldl_append]
      exact foldl_enter_full (full_of_shortOptions hroom) _
    obtain rfl : new = new' := List.append_cancel_left (hnew.symm.trans (hstop.trans hnew'))
    have hbefore := List.mem_takeWhile_imp (hfrom' entered hentered).1
    exact of_decide_eq_true hbefore hsame

/-- Assumes: modules that enter no long name. Those that they have are passed over. -/
theorem NoLongNames.passedOver {modules : List (List WhatsupOption)} (h : NoLongNames modules) :
    LongNamesPassedOver modules := by
  intro before options after hsplit option hoption hlong
  by_contra hneither
  obtain ⟨hbuiltin, hneither⟩ := not_or.mp hneither
  obtain ⟨hother, hroom⟩ := not_or.mp hneither
  obtain ⟨first, behind, hfirst, hsame⟩ := exists_first_option hoption
  generalize hfront : options.takeWhile (·.option ≠ option.option) = front at hfirst hroom
  have hnone : enteredLong (enteredOf (before.flatten ++ front)) = [] := by
    obtain ⟨new, hnew, -, -⟩ := exists_enteredOf_append (before.flatten ++ front)
      (first :: behind ++ after.flatten)
    have hall : modules.flatten = before.flatten ++ front ++
        (first :: behind ++ after.flatten) := by
      rw [hsplit, hfirst]
      simp
    have hlong := h.enteredLong_eq_nil
    rw [hall, hnew, enteredLong_eq_nil_iff] at hlong
    exact enteredLong_eq_nil_iff.mpr fun entered hentered ↦
      hlong entered (List.mem_append_left _ hentered)
  have hlength := (soptionsOf_enteredOf (before.flatten ++ front)).1
  have hplace : ¬Full (enteredOf (before.flatten ++ front)) :=
    not_or.mpr ⟨by omega, by rw [hnone, List.length_nil]; omega⟩
  have hfree : first.option ∉ soptionsOf (enteredOf (before.flatten ++ front)) := by
    rw [(soptionsOf_enteredOf (before.flatten ++ front)).2.resolve_left hplace, hsame]
    intro hmem
    rcases mem_shortOptions hmem with hinit | ⟨other, hmem, heq⟩
    · exact hbuiltin hinit
    · rcases List.mem_append.mp hmem with hmem | hmem
      · exact hother ⟨other, hmem, heq⟩
      · rw [← hfront] at hmem
        have hearlier := List.mem_takeWhile_imp hmem
        exact of_decide_eq_true hearlier heq
  obtain ⟨new, hnew, hletters, -⟩ := exists_enteredOf_append before.flatten options
  obtain ⟨early, hearly, -, -⟩ := exists_enteredOf_append before.flatten front
  obtain ⟨late, hlate, -, -⟩ := exists_enteredOf_append (before.flatten ++ front ++ [first]) behind
  have hentered : enteredOf (before.flatten ++ front ++ [first]) =
      enteredOf (before.flatten ++ front) ++ [first] := by
    rw [enteredOf_append, enter, if_neg (not_or.mpr ⟨hfree, hplace⟩)]
  have hall : before.flatten ++ options = before.flatten ++ front ++ [first] ++ behind := by
    rw [hfirst]
    simp
  rw [hall, hlate, hentered, hearly, List.append_assoc, List.append_assoc] at hnew
  have hletter : option.option ∈ newLetters (enteredOf before.flatten) options := by
    rw [hletters, ← List.append_cancel_left hnew, ← hsame]
    exact List.mem_map_of_mem (List.mem_append_right _ List.mem_cons_self)
  exact hlong (h before options after hsplit option hoption hletter)

theorem noLongNames_iff (modules : List (List WhatsupOption)) : NoLongNames modules ↔
    LongNamesPassedOver modules :=
  ⟨NoLongNames.passedOver, LongNamesPassedOver.noLongNames⟩

/-- The tables have all the names that they should have, for no other modules than those whose long
names are passed over. -/
theorem optionTables_iff (modules : List (List WhatsupOption)) :
    (∃ tables optionsTowatch, cmdlineOptions modules = some (tables, optionsTowatch) ∧
      tables.Complete modules optionsTowatch) ↔
      LongNamesPassedOver modules := by
  rw [← noLongNames_iff, ← complete_iff]
  constructor
  · rintro ⟨tables, optionsTowatch, htables, hcomplete⟩
    obtain ⟨rfl, rfl⟩ :=
      Prod.mk.inj (Option.some.inj ((cmdlineOptions_eq modules).symm.trans htables))
    exact hcomplete
  · exact fun h ↦ ⟨_, _, cmdlineOptions_eq modules, h⟩

/-- The option of the `cerebro` monitor module. -/
def monitorOption : WhatsupOption :=
  ⟨'M', none, some "monitor".toList, by decide⟩

/-- The monitor option takes the place of `log-poll`. -/
theorem not_complete_monitor :
    ¬ ∀ modules : List (List WhatsupOption), ∃ tables optionsTowatch,
      cmdlineOptions modules = some (tables, optionsTowatch) ∧
      tables.Complete modules optionsTowatch := by
  intro h
  obtain ⟨tables, optionsTowatch, htables, hcomplete⟩ := h [[monitorOption]]
  have hlast := hcomplete.builtin ⟨some "log-poll".toList, 1, 'e'⟩ (by decide)
  obtain ⟨rfl, -⟩ := Prod.mk.inj (Option.some.inj ((cmdlineOptions_eq _).symm.trans htables))
  exact absurd hlast (by decide)

end Whatsup
