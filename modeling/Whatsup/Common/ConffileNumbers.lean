import Mathlib.Data.List.Forall2
import Whatsup.CLib.IntConstant
import Whatsup.CLib.Outcome
import Whatsup.Common.ConffileCounts

/-!
# The numbers of a configuration file

The arguments of the options of the types `INT` and `LIST_INT` are meant to be integer constants
that fit an `int`. `intArg_eq_some_iff` says what is accepted: the empty argument as well, a
constant behind blanks, and every constant that fits a `long`, of which the callback gets what an
`int` keeps of it. `numbersRead_iff` says for which arguments that makes no difference, and
`conffileParseline_intOption` what follows for an option that `conffile_int` stores.
-/

set_option autoImplicit false
set_option relaxedAutoImplicit false

namespace Whatsup

open CLib

/-! ### Arguments -/

/-- A text is an integer constant with a value that fits an `int`. -/
def IntText (text : List Char) (value : ℤ) : Prop :=
  SignedConstant text value ∧ -2147483648 ≤ value ∧ value < 2147483648

/-- A text is an integer constant with a value that fits a `long`. -/
def LongText (text : List Char) (value : ℤ) : Prop :=
  SignedConstant text value ∧ -9223372036854775808 ≤ value ∧ value ≤ 9223372036854775807

/-- Assumes: a constant behind blanks. It is accepted if it fits a `long`. -/
theorem intArg_constant {arg : List Char} {value : ℤ}
    (h : SignedConstant (arg.dropWhile isSpace) value) :
    intArg arg =
      if -9223372036854775808 ≤ value ∧
      value ≤ 9223372036854775807 then some (toInt value) else none := by
  unfold intArg
  rw [strtol_constant h]
  by_cases hlow : value < -9223372036854775808
  · rw [if_pos hlow, if_neg fun hlong ↦ absurd hlong.1 (not_le.mpr hlow)]
    rfl
  by_cases hhigh : 9223372036854775807 < value
  · rw [if_neg hlow, if_pos hhigh, if_neg fun hlong ↦ absurd hlong.2 (not_le.mpr hhigh)]
    rfl
  · rw [if_neg hlow, if_neg hhigh, if_pos ⟨not_lt.mp hlow, not_lt.mp hhigh⟩]
    rfl

/-- Assumes: an argument that is not empty, and no constant behind blanks. It is not accepted. -/
theorem intArg_none {arg : List Char} (hne : arg ≠ [])
    (h : ¬∃ value, SignedConstant (arg.dropWhile isSpace) value) :
    intArg arg = none := by
  unfold intArg
  exact if_pos (Or.inr (strtol_rest hne h))

/-- What is accepted for a number, and what is delivered of it. -/
theorem intArg_eq_some_iff {arg : List Char} {delivered : ℤ} :
    intArg arg = some delivered ↔
      arg = [] ∧ delivered = 0 ∨ ∃ value, LongText (arg.dropWhile isSpace) value ∧
      delivered = toInt value := by
  constructor
  · intro h
    by_cases hne : arg = []
    · subst hne
      exact Or.inl ⟨rfl, (Option.some.inj h).symm.trans toInt_zero⟩
    by_cases hconstant : ∃ value, SignedConstant (arg.dropWhile isSpace) value
    · obtain ⟨value, hvalue⟩ := hconstant
      rw [intArg_constant hvalue] at h
      split_ifs at h with hlong
      exact Or.inr ⟨value, ⟨hvalue, hlong⟩, (Option.some.inj h).symm⟩
    · rw [intArg_none hne hconstant] at h
      exact absurd h (by simp)
  · rintro (⟨rfl, rfl⟩ | ⟨value, hlong, rfl⟩)
    · exact congrArg some toInt_zero
    · rw [intArg_constant hlong.1, if_pos hlong.2]

theorem IntText.intArg_eq {text : List Char} {value : ℤ} (h : IntText text value) : intArg text =
    some value := by
  have hdrop := h.1.dropWhile
  rw [intArg_constant (hdrop.symm ▸ h.1), if_pos ⟨by linarith [h.2.1], by linarith [h.2.2]⟩,
    toInt_eq_self h.2.1 h.2.2]

theorem mapM_intArg {args : List (List Char)} {values : List ℤ}
    (h : List.Forall₂ IntText args values) :
    args.mapM intArg = some values :=
  mapM_eq_some_iff.mpr (h.imp fun _ _ ↦ IntText.intArg_eq)

section Doubles

variable {D : Type} [Zero D] (strtod : List Char → D × Bool × List Char)

/-- The data that numbers are delivered as. -/
def intData (optionType : ConffileOptionType) (values : List ℤ) : ConffileData D :=
  if optionType = .int then { ConffileData.zero with intval := values.headD 0 }
    else { ConffileData.zero with intlist := values }

/-- Assumes: as many arguments as the option takes. They are delivered if all are accepted. -/
theorem conffileData_int {option : ConffileOption D} {args : List (List Char)}
    (htype : option.optionType = .int ∨ option.optionType = .listInt)
    (hnumargs : checkNumargs option args.length = none) :
    conffileData strtod option.optionType args =
      (args.mapM intArg).map (intData option.optionType) := by
  rcases htype with htype | htype
  · obtain ⟨arg, rfl⟩ : ∃ arg, args = [arg] := by
      refine List.length_eq_one_iff.mp ?_
      have hmissing : args ≠ [] := fun hnil ↦ by simp [checkNumargs, htype, hnil] at hnumargs
      have hmany : ¬1 < args.length := fun hmore ↦ by
        simp [checkNumargs, htype, hmissing, hmore] at hnumargs
      have hpos := List.length_pos_of_ne_nil hmissing
      omega
    rw [htype, List.mapM_cons, List.mapM_nil]
    cases harg : intArg arg with
    | none => simp [conffileData, harg]
    | some value => simp [conffileData, harg, intData]
  · rw [htype]
    rfl

/-- Assumes: a line that names an option with numbers, with arguments that are as many as the option
takes, and not one time too often. The callback is called with what is accepted of them. -/
theorem conffileParseline_numbers {cf : Conffile D} {option : ConffileOption D} {line : List Char}
    {args : List (List Char)}
    {st : ConffileState D} (htype : option.optionType = .int ∨ option.optionType = .listInt)
    (hfind : cf.options.find? (·.namedIn cf.flags line) = some option)
    (hlength : (lineName line).length < 255)
    (hmax : ¬(0 < option.maxCount ∧
      option.maxCount < (st.increment option.countPtr).count option.countPtr))
    (hargs : conffileParseArgs 64 (lineBehind line) = .ok args)
    (hnumargs : checkNumargs option args.length = none) :
    conffileParseline strtod cf line st =
      match args.mapM intArg with
      | none => (st.increment option.countPtr).fail .parseArgInvalid
      | some values =>
          (st.increment option.countPtr).callback cf option (intData option.optionType values) := by
  have htext : lineText line ≠ [] := fun hnil ↦ by
    have hnamed := List.find?_some hfind
    exact absurd hnamed (by simp [ConffileOption.namedIn, hnil])
  have hignore : option.optionType ≠ .ignore := by
    rcases htype with htype | htype <;> simp [htype]
  rw [conffileParseline_eq, if_neg htext, if_neg (not_le.mpr hlength), ← find_namedIn htext, hfind]
  simp only [conffileParseOption]
  rw [if_neg hignore, if_neg hmax, hargs]
  simp only [hnumargs, conffileData_int strtod htype hnumargs]
  cases args.mapM intArg with
  | none => rfl
  | some values => rfl

/-- The numbers of a line are read: if the arguments are integer constants that fit an `int`, the
callback is called with their values, and otherwise parsing fails without a call. -/
def NumbersRead (cf : Conffile D) (option : ConffileOption D) (line : List Char)
    (args : List (List Char)) (st : ConffileState D) :
    Prop :=
  (∀ values, List.Forall₂ IntText args values →
    conffileParseline strtod cf line st =
      (st.increment option.countPtr).callback cf option (intData option.optionType values)) ∧
  ((¬∃ values, List.Forall₂ IntText args values) →
    conffileParseline strtod cf line st = (st.increment option.countPtr).fail .parseArgInvalid)

/-- Assumes: a line that names an option with numbers, with arguments that are as many as the option
takes, and not one time too often. The numbers are read if and only if all arguments are integer
constants that fit an `int`, or one of them is neither empty nor, behind blanks, an integer constant
that fits a `long`. -/
theorem numbersRead_iff (cf : Conffile D) (option : ConffileOption D) (line : List Char)
    (args : List (List Char))
    (st : ConffileState D) (hlegitimate : option.legitimate) (htype : option.optionType = .int ∨
      option.optionType = .listInt)
    (hfind : cf.options.find? (·.namedIn cf.flags line) = some option)
    (hlength : (lineName line).length < 255)
    (hmax : ¬(0 < option.maxCount ∧
      option.maxCount < (st.increment option.countPtr).count option.countPtr))
    (hargs : conffileParseArgs 64 (lineBehind line) = .ok args)
    (hnumargs : checkNumargs option args.length = none) :
    NumbersRead strtod cf option line args st ↔
      (∃ values, List.Forall₂ IntText args values) ∨
        ∃ arg ∈ args, arg ≠ [] ∧ ¬∃ value, LongText (arg.dropWhile isSpace) value := by
  have hline := conffileParseline_numbers strtod htype hfind hlength hmax hargs hnumargs
  constructor
  · intro h
    by_contra hneither
    obtain ⟨hnone, hlong⟩ := not_or.mp hneither
    cases haccepted : args.mapM intArg with
    | none =>
      obtain ⟨arg, harg, hrejected⟩ := mapM_eq_none_iff.mp haccepted
      refine hlong ⟨arg, harg, fun hnil ↦ ?_, fun ⟨value, hvalue⟩ ↦ ?_⟩
      · rw [intArg_eq_some_iff.mpr (Or.inl ⟨hnil, rfl⟩)] at hrejected
        exact absurd hrejected (by simp)
      · rw [intArg_eq_some_iff.mpr (Or.inr ⟨value, hvalue, rfl⟩)] at hrejected
        exact absurd hrejected (by simp)
    | some values =>
      rw [haccepted] at hline
      exact callback_ne_fail (option.exists_callbackFunc hlegitimate (by
        rcases htype with htype | htype <;> simp [htype]))
        (hline.symm.trans (h.2 hnone))
  · rintro (⟨values, hvalues⟩ | ⟨arg, harg, hne, hlong⟩)
    · refine ⟨fun values' hvalues' ↦ ?_, fun hnone ↦ absurd ⟨values, hvalues⟩ hnone⟩
      rw [hline, mapM_intArg hvalues']
    · have hrejected : intArg arg = none := by
        by_contra hsome
        obtain ⟨delivered, hdelivered⟩ := Option.ne_none_iff_exists'.mp hsome
        rcases intArg_eq_some_iff.mp hdelivered with ⟨hnil, -⟩ | ⟨value, hvalue, -⟩
        · exact hne hnil
        · exact hlong ⟨value, hvalue⟩
      have hnone : args.mapM intArg = none := mapM_eq_none_iff.mpr ⟨arg, harg, hrejected⟩
      refine ⟨fun values hvalues ↦ ?_, fun _ ↦ by rw [hline, hnone]⟩
      exact absurd (hnone.symm.trans (mapM_intArg hvalues)) (by simp)

/-! ### `conffile_int` -/

/-- `conffile_int`, for the calls so far. -/
def conffileInt (calls : List (ConffileCall D)) : ℤ × Option ConffileErr :=
  match calls.getLast?.bind (·.optionPtr) with
  | none => (-1, some .parameters)
  | some _ => (0, none)

/-- The `int` that `conffile_int` leaves at a pointer. -/
def conffileIntAt (ptr : ℕ) (initial : ℤ) (calls : List (ConffileCall D)) : ℤ :=
  calls.foldl (fun value call ↦ if call.optionPtr = some ptr then call.data.intval else value)
    initial

/-- An option that `conffile_int` stores, once at most. -/
def intOption (optionname : String) (optionTypeArg : ℤ) (countPtr optionPtr : ℕ) :
    ConffileOption D :=
  ⟨some optionname.toList, .int, optionTypeArg, some conffileInt, 1, 0, some countPtr,
    some optionPtr, 0⟩

/-- pingd's `ping_period`. -/
def pingPeriodOption : ℕ → ℕ → ConffileOption D :=
  intOption "ping_period" (-1)

/-- pingd's `pingd_server_port`. -/
def pingdServerPortOption : ℕ → ℕ → ConffileOption D :=
  intOption "pingd_server_port" (-1)

/-- pingd's `ping_socket_receive_buffer`. -/
def pingSocketReceiveBufferOption : ℕ → ℕ → ConffileOption D :=
  intOption "ping_socket_receive_buffer" (-1)

/-- nodeupdown's `port`. -/
def portOption : ℕ → ℕ → ConffileOption D :=
  intOption "port" 0

/-- nodeupdown's `timeout_len`. -/
def timeoutLenOption : ℕ → ℕ → ConffileOption D :=
  intOption "timeout_len" 0

omit [Zero D] in
/-- Such an option is called. -/
theorem callback_intOption (cf : Conffile D) (optionname : String) (optionTypeArg : ℤ)
    (countPtr optionPtr : ℕ)
    (data : ConffileData D) (st : ConffileState D) :
    st.callback cf (intOption optionname optionTypeArg countPtr optionPtr) data =
      ({ st with
          calls := st.calls ++
            [cf.call (intOption optionname optionTypeArg countPtr optionPtr) data]
          errnum := .success }, true) := by
  have hvalue :
      conffileInt
      (st.calls ++ [cf.call (intOption optionname optionTypeArg countPtr optionPtr) data]) =
      (0, none) := by
    unfold conffileInt
    rw [List.getLast?_concat]
    rfl
  unfold ConffileState.callback
  dsimp only [intOption]
  rw [show conffileInt
    (st.calls ++ [⟨data, some optionname.toList, .int, some optionPtr, 0, cf.appPtr, cf.appData⟩]) =
    (0, none)
    from hvalue]
  rfl

/-- Assumes: the first line with the name of such an option, whose argument is an integer constant
that fits an `int`. Its value is stored. -/
theorem conffileParseline_intOption {cf : Conffile D} {optionname : String} {optionTypeArg : ℤ}
    {countPtr optionPtr : ℕ}
    {line arg : List Char} {value : ℤ} (h : IntText arg value)
    (hfind : cf.options.find? (·.namedIn cf.flags line) =
      some (intOption optionname optionTypeArg countPtr optionPtr))
    (hlength : (lineName line).length < 255)
    (hargs : conffileParseArgs 64 (lineBehind line) = .ok [arg])
    {st : ConffileState D} (hcount : st.count (some countPtr) = 0) (initial : ℤ) :
    ∃ st', conffileParseline strtod cf line st = (st', true) ∧
      conffileIntAt optionPtr initial st'.calls = value := by
  have hfirst : (st.increment (some countPtr)).count (some countPtr) = 1 := by
    rw [count_increment, if_pos rfl, hcount]
    rfl
  have hline := conffileParseline_numbers strtod (Or.inl rfl) hfind hlength (fun hmany ↦ by
    have hmany : (1 : ℤ) < (st.increment (some countPtr)).count (some countPtr) := hmany.2
    omega) hargs rfl
  rw [mapM_intArg (.cons h .nil)] at hline
  refine ⟨_, hline.trans (callback_intOption cf optionname optionTypeArg countPtr optionPtr _ _),
    ?_⟩
  unfold conffileIntAt
  rw [List.foldl_concat]
  exact if_pos rfl

end Doubles

/-- A parse of a line with the options of pingd that are numbers. -/
def pingdNumbers : Conffile ℤ :=
  ⟨[pingPeriodOption 0 1, pingdServerPortOption 2 3, pingSocketReceiveBufferOption 4 5], none, 0, 0⟩

/-- A hexadecimal number. -/
theorem numbersRead_iff_pingPeriod :
    NumbersRead (fun _ ↦ (0, false, [])) pingdNumbers (pingPeriodOption 0 1)
      "ping_period 0x1E".toList ["0x1E".toList]
        ⟨.success, fun _ ↦ 0, []⟩ ↔
      (∃ values, List.Forall₂ IntText ["0x1E".toList] values) ∨
        ∃ arg ∈ ["0x1E".toList], arg ≠ [] ∧ ¬∃ value, LongText (arg.dropWhile isSpace) value :=
  numbersRead_iff (fun _ ↦ (0, false, [])) pingdNumbers (pingPeriodOption 0 1)
    "ping_period 0x1E".toList ["0x1E".toList]
    ⟨.success, fun _ ↦ 0, []⟩ (by decide) (Or.inl rfl) (List.find?_cons_of_pos (by decide))
      (by decide) (by decide)
    (by decide +kernel) rfl

/-- A number that fits a `long` but not an `int`. -/
theorem not_numbersRead_large :
    ¬ ∀ (strtod : List Char → ℤ × Bool × List Char) (cf : Conffile ℤ) (option : ConffileOption ℤ)
      (line : List Char)
      (args : List (List Char)) (st : ConffileState ℤ), option.legitimate →
      option.optionType = .int ∨ option.optionType = .listInt →
      cf.options.find? (·.namedIn cf.flags line) = some option →
      (lineName line).length < 255 →
      ¬(0 < option.maxCount ∧
        option.maxCount < (st.increment option.countPtr).count option.countPtr) →
      conffileParseArgs 64 (lineBehind line) = .ok args → checkNumargs option args.length = none →
      NumbersRead strtod cf option line args st := by
  intro h
  have hfind :
    pingdNumbers.options.find? (·.namedIn pingdNumbers.flags "ping_period 4294967297".toList) =
      some (pingPeriodOption 0 1) := List.find?_cons_of_pos (by decide)
  have hargs : conffileParseArgs 64 (lineBehind "ping_period 4294967297".toList) =
      .ok ["4294967297".toList] := by
    decide +kernel
  have hread :=
    h (fun _ ↦ (0, false, [])) pingdNumbers (pingPeriodOption 0 1) "ping_period 4294967297".toList
    ["4294967297".toList] ⟨.success, fun _ ↦ 0, []⟩ (by decide) (Or.inl rfl) hfind (by decide)
      (by decide) hargs rfl
  have hdigits : "4294967297".toList.all (digitValue · < 10) = true := by decide
  have hconstant : SignedConstant "4294967297".toList 4294967297 :=
    .unsigned (.decimal (by decide) fun d hd ↦ of_decide_eq_true (List.all_eq_true.mp hdigits d hd))
  have hnone : ¬∃ values, List.Forall₂ IntText ["4294967297".toList] values := by
    rintro ⟨_, hvalues⟩
    obtain ⟨value, rest, hvalue, -, rfl⟩ := List.forall₂_cons_left_iff.mp hvalues
    have hlarge := hvalue.1.value_eq hconstant
    have hsmall := hvalue.2.2
    omega
  have hline := @conffileParseline_numbers _ _ (fun _ ↦ ((0 : ℤ), false, [])) _ _ _ _ ⟨.success,
    fun _ ↦ 0, []⟩ (Or.inl rfl)
    hfind (by decide) (by decide) hargs rfl
  have haccepted : ["4294967297".toList].mapM intArg = some [1] := by decide +kernel
  rw [haccepted] at hline
  exact callback_ne_fail ⟨conffileInt, rfl⟩ (hline.symm.trans (hread.2 hnone))

end Whatsup
