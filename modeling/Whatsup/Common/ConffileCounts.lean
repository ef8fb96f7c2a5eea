import Mathlib.Data.List.Forall2
import Mathlib.Data.List.Pairwise
import Whatsup.Common.ConffileQuoting

/-!
# What a parse of a configuration file counts and calls

A logical line names an option if its first word is the name of the option, as the flags compare
names. `Accounted` is the account of the lines that have been parsed: every counter is the number of
lines that name its option, as an `int`, that number is within the bound of the option, and the
callbacks have been called for the lines that name an option with one, in their order. A line keeps
it (`Accounted.parseline`), so a parse keeps it (`Accounted.parseLines`), and
`conffileParse_accounted` reads it off behind a parse that succeeds.

An `int` counter does not count more lines than it has room for (`parseAccount_sameName_manyLines`).
-/

set_option autoImplicit false
set_option relaxedAutoImplicit false

namespace Whatsup

open CLib

/-! ### The name in a line -/

/-- A line from its first character that is no blank. -/
def lineText (line : List Char) : List Char :=
  conffileMovePastWhitespace (conffileRemoveTrailingWhitespace line)

/-- The first word of a line. -/
def lineName (line : List Char) : List Char :=
  (lineText line).takeWhile (!isSpace ·)

/-- What stands behind the first word of a line. -/
def lineBehind (line : List Char) : List Char :=
  (lineText line).dropWhile (!isSpace ·)

/-- A line has a name if it has text. -/
theorem lineName_eq_nil (line : List Char) : lineName line = [] ↔ lineText line = [] := by
  refine ⟨fun h ↦ ?_, fun h ↦ by rw [lineName, h]; rfl⟩
  by_contra htext
  obtain ⟨c, rest, hcons⟩ := List.exists_cons_of_ne_nil htext
  have hhead : isSpace ((lineText line).head htext) = false := List.head_dropWhile_not isSpace htext
  have hc : isSpace c = false := by simpa only [hcons, List.head_cons] using hhead
  rw [lineName, hcons, List.takeWhile_cons_of_pos (by simp [hc])] at h
  exact List.cons_ne_nil _ _ h

section Doubles

variable {D : Type}

/-- Whether a line names an option, by the flags. -/
def ConffileOption.namedIn (flags : BitVec 32) (line : List Char)
    (option : ConffileOption D) : Bool :=
  lineText line ≠ [] && option.named flags (lineName line)

/-- The number of lines that name an option. -/
def ConffileOption.lineCount (flags : BitVec 32) (lines : List (List Char))
    (option : ConffileOption D) : ℕ :=
  lines.countP (option.namedIn flags ·)

/-- Two options have names that the flags distinguish, and different counters. -/
def ConffileOption.Distinct (flags : BitVec 32) (option other : ConffileOption D) : Prop :=
  (∀ name ∈ option.optionname, other.named flags name = false) ∧ ∀ ptr ∈ option.countPtr,
    other.countPtr ≠ some ptr

instance (flags : BitVec 32) (option other : ConffileOption D) :
    Decidable (option.Distinct flags other) :=
  inferInstanceAs (Decidable (_ ∧ _))

/-- Any two options have. -/
def Conffile.DistinctOptions (cf : Conffile D) : Prop :=
  cf.options.Pairwise (ConffileOption.Distinct cf.flags)

instance (cf : Conffile D) : Decidable cf.DistinctOptions :=
  inferInstanceAs (Decidable (cf.options.Pairwise _))

/-- The call of the callback of an option with data. -/
def Conffile.call (cf : Conffile D) (option : ConffileOption D) (data : ConffileData D) :
    ConffileCall D :=
  ⟨data, option.optionname, option.optionType, option.optionPtr, option.optionData,
    cf.appPtr, cf.appData⟩

/-- Whether a line names an option that is not ignored, and that has a callback. -/
def Conffile.calls (cf : Conffile D) (line : List Char) : Bool :=
  cf.options.any fun option ↦ option.optionType ≠ .ignore && option.callbackFunc.isSome &&
    option.namedIn cf.flags line

/-! ### The option of a line -/

/-- Assumes: two options that one name is given for. Each has the name of the other. -/
theorem ConffileOption.named_of_named {flags : BitVec 32} {name optionname : List Char}
    {option other : ConffileOption D}
    (hname : option.optionname = some name) (h : option.named flags optionname = true)
    (hother : other.named flags optionname = true) : other.named flags name = true := by
  unfold ConffileOption.named at h hother ⊢
  rw [hname] at h
  cases hothername : other.optionname with
  | none =>
    rw [hothername] at hother
    exact absurd hother (by simp)
  | some othername =>
    rw [hothername] at hother
    simp only at h hother ⊢
    split_ifs at h hother ⊢ with hflags
    · exact decide_eq_true ((of_decide_eq_true hother).trans (of_decide_eq_true h).symm)
    · exact decide_eq_true ((of_decide_eq_true hother).trans (of_decide_eq_true h).symm)

theorem ConffileOption.Distinct.symm {flags : BitVec 32} {option other : ConffileOption D}
    (h : option.Distinct flags other) :
    other.Distinct flags option := by
  refine ⟨fun name hname ↦ ?_, fun ptr hptr hoption ↦ h.2 ptr hoption hptr⟩
  by_contra hnamed
  have hnamed : option.named flags name = true := (Bool.not_eq_false _).mp hnamed
  cases hoption : option.optionname with
  | none => simp [ConffileOption.named, hoption] at hnamed
  | some optionname =>
    refine Bool.false_ne_true
      ((h.1 optionname hoption).symm.trans (ConffileOption.named_of_named hoption hnamed ?_))
    unfold ConffileOption.named
    rw [Option.mem_def.mp hname]
    simp [strcaseeq]

instance (flags : BitVec 32) : Std.Symm (@ConffileOption.Distinct D flags) :=
  ⟨fun _ _ ↦ ConffileOption.Distinct.symm⟩

/-- Assumes: options that the flags distinguish. A line names one of them at most. -/
theorem Conffile.DistinctOptions.eq_of_named {cf : Conffile D} (h : cf.DistinctOptions)
    {line : List Char}
    {option other : ConffileOption D} (hoption : option ∈ cf.options) (hother : other ∈ cf.options)
    (hnamed : option.namedIn cf.flags line = true) (hnamed' : other.namedIn cf.flags line = true) :
      option = other := by
  by_contra hne
  have hdistinct := List.Pairwise.forall h hoption hother hne
  have hnamed := (Bool.and_eq_true_iff.mp hnamed).2
  have hnamed' := (Bool.and_eq_true_iff.mp hnamed').2
  cases hname : option.optionname with
  | none => simp [ConffileOption.named, hname] at hnamed
  | some name =>
    exact Bool.false_ne_true
      ((hdistinct.1 name hname).symm.trans (ConffileOption.named_of_named hname hnamed hnamed'))

/-- Assumes: options that the flags distinguish. A counter is the one of one option. -/
theorem Conffile.DistinctOptions.eq_of_countPtr {cf : Conffile D} (h : cf.DistinctOptions) {ptr : ℕ}
    {option other : ConffileOption D} (hoption : option ∈ cf.options) (hother : other ∈ cf.options)
    (hptr : option.countPtr = some ptr) (hptr' : other.countPtr = some ptr) : option = other := by
  by_contra hne
  exact (List.Pairwise.forall h hoption hother hne).2 ptr hptr hptr'

/-- In a line with text, the option that is found is the one that the line names. -/
theorem find_namedIn {cf : Conffile D} {line : List Char} (h : lineText line ≠ []) :
    cf.options.find? (·.namedIn cf.flags line) =
      cf.options.find? (·.named cf.flags (lineName line)) := by
  simp [ConffileOption.namedIn, h]

/-- What the call of a callback leaves, if its value is not negative. -/
theorem ConffileState.callback_true {cf : Conffile D} {option : ConffileOption D}
    {data : ConffileData D}
    {st st' : ConffileState D} (h : st.callback cf option data = (st', true)) :
    st'.counters = st.counters ∧
      st'.calls = if option.callbackFunc.isSome then st.calls ++
        [cf.call option data] else st.calls := by
  unfold ConffileState.callback at h
  cases hfunc : option.callbackFunc with
  | none =>
    rw [hfunc] at h
    obtain ⟨rfl, -⟩ := Prod.mk.inj h
    exact ⟨rfl, rfl⟩
  | some callbackFunc =>
    rw [hfunc] at h
    by_cases hvalue : (callbackFunc (st.calls ++ [cf.call option data])).1 < 0
    · exact absurd ((congrArg Prod.snd (if_pos hvalue)).symm.trans (congrArg Prod.snd h))
        Bool.false_ne_true
    · obtain rfl := (congrArg Prod.fst (if_neg hvalue)).symm.trans (congrArg Prod.fst h)
      exact ⟨rfl, rfl⟩

/-- The call of a callback is not undone. -/
theorem callback_ne_fail {cf : Conffile D} {option : ConffileOption D} {data : ConffileData D}
    {st : ConffileState D}
    {errnum : ConffileErr} (hfunc : ∃ callbackFunc, option.callbackFunc = some callbackFunc) :
    st.callback cf option data ≠ st.fail errnum := by
  obtain ⟨callbackFunc, hfunc⟩ := hfunc
  intro h
  have hcalls : (st.callback cf option data).1.calls = st.calls ++ [cf.call option data] := by
    unfold ConffileState.callback
    rw [hfunc]
    dsimp only
    split_ifs <;> rfl
  have hsame : st.calls ++ [cf.call option data] = st.calls :=
    hcalls.symm.trans (congrArg (·.1.calls) h)
  exact absurd hsame (by simp)

theorem lineCount_append (flags : BitVec 32) (seen : List (List Char)) (line : List Char)
    (option : ConffileOption D) :
    option.lineCount flags (seen ++ [line]) =
      option.lineCount flags seen + if option.namedIn flags line then 1 else 0 := by
  rw [ConffileOption.lineCount, List.countP_append, List.countP_singleton]
  rfl

/-- Assumes: the option that is found for a line. The line calls if that has a callback. -/
theorem Conffile.calls_eq {cf : Conffile D} (hcf : cf.DistinctOptions) {line : List Char}
    {option : ConffileOption D}
    (hfind : cf.options.find? (·.namedIn cf.flags line) = some option)
    (htype : option.optionType ≠ .ignore) :
    cf.calls line = option.callbackFunc.isSome := by
  have hmem := List.mem_of_find?_eq_some hfind
  have hnamed : option.namedIn cf.flags line = true := List.find?_some hfind
  refine Bool.eq_iff_iff.mpr ⟨fun hcall ↦ ?_, fun hfunc ↦ List.any_eq_true.mpr ⟨option, hmem, ?_⟩⟩
  · obtain ⟨other, hother, hcall⟩ := List.any_eq_true.mp hcall
    simp only [Bool.and_eq_true] at hcall
    rw [hcf.eq_of_named hmem hother hnamed hcall.2]
    exact hcall.1.2
  · simp [htype, hfunc, hnamed]

/-- A line has a name that fits, and that is the one of an option, if unknown ones are not
ignored. -/
def Conffile.Known (cf : Conffile D) (line : List Char) : Prop :=
  lineText line ≠ [] → (lineName line).length < 255 ∧
    (cf.flags &&& 2 ≠ 0 ∨ ∃ option ∈ cf.options, option.namedIn cf.flags line = true)

/-- Whether a line names an option depends on its name. -/
theorem namedIn_congr {flags : BitVec 32} {line line' : List Char}
    (h : lineName line' = lineName line) (option : ConffileOption D) :
    option.namedIn flags line' = option.namedIn flags line := by
  unfold ConffileOption.namedIn
  rw [h]
  exact congrArg (· && _)
    (decide_eq_decide.mpr (not_congr (by rw [← lineName_eq_nil, h, lineName_eq_nil])))

variable [Zero D] (strtod : List Char → D × Bool × List Char)

/-- A call is the one of the option that a line names, with the arguments of the line. -/
def CallOf (cf : Conffile D) (line : List Char) (call : ConffileCall D) : Prop :=
  ∃ option ∈ cf.options, option.optionType ≠ .ignore ∧ option.namedIn cf.flags line = true ∧
    ∃ args data, conffileParseArgs 64 (lineBehind line) = .ok args ∧
      checkNumargs option args.length = none ∧
      conffileData strtod option.optionType args = some data ∧ call = cf.call option data

/-! ### One line -/

theorem conffileParseline_eq (cf : Conffile D) (line : List Char) (st : ConffileState D) :
    conffileParseline strtod cf line st =
      if lineText line = [] then (st, true)
      else if 255 ≤ (lineName line).length then st.fail .parseOverflowOptionlen
      else
        match cf.options.find? (·.named cf.flags (lineName line)) with
        | none => if cf.flags &&& 2 ≠ 0 then (st, true) else st.fail .parseOptionUnknown
        | some option => conffileParseOption strtod cf option (lineBehind line) st :=
  rfl

theorem conffileParseline_nil (cf : Conffile D) {line : List Char} (h : lineText line = [])
    (st : ConffileState D) :
    conffileParseline strtod cf line st = (st, true) := by
  rw [conffileParseline_eq, if_pos h]

/-- Assumes: a name that fits. A line that names an option to be ignored, or an unknown one if these
are ignored, does nothing, whatever stands behind the name. -/
theorem conffileParseline_ignored {cf : Conffile D} (hcf : cf.DistinctOptions) {line : List Char}
    (hlength : (lineName line).length < 255)
    (h : (∃ option ∈ cf.options, option.optionType = .ignore ∧
      option.namedIn cf.flags line = true) ∨
      cf.flags &&& 2 ≠ 0 ∧ ∀ option ∈ cf.options, option.namedIn cf.flags line = false)
        (st : ConffileState D) :
    conffileParseline strtod cf line st = (st, true) := by
  rw [conffileParseline_eq]
  by_cases htext : lineText line = []
  · rw [if_pos htext]
  rw [if_neg htext, if_neg (not_le.mpr hlength), ← find_namedIn htext]
  rcases h with ⟨option, hoption, htype, hnamed⟩ | ⟨hflags, hunknown⟩
  · cases hfind : cf.options.find? (·.namedIn cf.flags line) with
    | none => exact absurd hnamed (List.find?_eq_none.mp hfind option hoption)
    | some found =>
      obtain rfl :=
        hcf.eq_of_named (List.mem_of_find?_eq_some hfind) hoption (List.find?_some hfind) hnamed
      exact if_pos htype
  · rw [List.find?_eq_none.mpr fun option hoption ↦ by simp [hunknown option hoption]]
    exact if_pos hflags

/-- What an option that is not ignored does, if it is parsed: it is counted, and called with its
arguments. -/
theorem conffileParseOption_true {cf : Conffile D} {option : ConffileOption D} {linebuf : List Char}
    {st st' : ConffileState D}
    (htype : option.optionType ≠ .ignore) (h : conffileParseOption strtod cf option linebuf st =
      (st', true)) :
    ¬(0 < option.maxCount ∧
      option.maxCount < (st.increment option.countPtr).count option.countPtr) ∧
      ∃ args data, conffileParseArgs 64 linebuf = .ok args ∧
        checkNumargs option args.length = none ∧
        conffileData strtod option.optionType args = some data ∧
        (st.increment option.countPtr).callback cf option data = (st', true) := by
  rw [conffileParseOption, if_neg htype] at h
  by_cases hmax : 0 < option.maxCount ∧
    option.maxCount < (st.increment option.countPtr).count option.countPtr
  · rw [if_pos hmax] at h
    exact absurd (congrArg Prod.snd h) Bool.false_ne_true
  refine ⟨hmax, ?_⟩
  rw [if_neg hmax] at h
  cases hargs : conffileParseArgs 64 linebuf with
  | error errnum =>
    rw [hargs] at h
    exact absurd (congrArg Prod.snd h) Bool.false_ne_true
  | ok args =>
    rw [hargs] at h
    simp only at h
    cases hnumargs : checkNumargs option args.length with
    | some errnum =>
      rw [hnumargs] at h
      exact absurd (congrArg Prod.snd h) Bool.false_ne_true
    | none =>
      rw [hnumargs] at h
      simp only at h
      cases hdata : conffileData strtod option.optionType args with
      | none =>
        rw [hdata] at h
        exact absurd (congrArg Prod.snd h) Bool.false_ne_true
      | some data =>
        rw [hdata] at h
        exact ⟨args, data, rfl, hnumargs, hdata, h⟩

/-- What a line does that is parsed: nothing, if it names no option but one that is ignored, or what
its option does. -/
theorem conffileParseline_true {cf : Conffile D} {line : List Char} {st st' : ConffileState D}
    (h : conffileParseline strtod cf line st = (st', true)) :
    cf.Known line ∧
      ((st' = st ∧ ∀ option ∈ cf.options.find? (·.namedIn cf.flags line),
        option.optionType = .ignore) ∨
        ∃ option, cf.options.find? (·.namedIn cf.flags line) = some option ∧
          option.optionType ≠ .ignore ∧
          conffileParseOption strtod cf option (lineBehind line) st = (st', true)) := by
  rw [conffileParseline_eq] at h
  by_cases htext : lineText line = []
  · rw [if_pos htext] at h
    refine ⟨fun hne ↦ absurd htext hne,
      Or.inl ⟨(congrArg Prod.fst h).symm, fun option hoption ↦ ?_⟩⟩
    have hnamed := List.find?_some hoption
    exact absurd hnamed (by simp [ConffileOption.namedIn, htext])
  rw [if_neg htext] at h
  by_cases hlength : 255 ≤ (lineName line).length
  · rw [if_pos hlength] at h
    exact absurd (congrArg Prod.snd h) Bool.false_ne_true
  rw [if_neg hlength, ← find_namedIn htext] at h
  cases hoption : cf.options.find? (·.namedIn cf.flags line) with
  | none =>
    rw [hoption] at h
    simp only at h
    by_cases hflags : cf.flags &&& 2 ≠ 0
    · rw [if_pos hflags] at h
      exact ⟨fun _ ↦ ⟨not_le.mp hlength, Or.inl hflags⟩,
        Or.inl ⟨(congrArg Prod.fst h).symm, fun option hnone ↦ absurd hnone (by simp)⟩⟩
    · rw [if_neg hflags] at h
      exact absurd (congrArg Prod.snd h) Bool.false_ne_true
  | some option =>
    rw [hoption] at h
    refine ⟨fun _ ↦
      ⟨not_le.mp hlength, Or.inr ⟨option, List.mem_of_find?_eq_some hoption,
      List.find?_some hoption⟩⟩, ?_⟩
    by_cases htype : option.optionType = .ignore
    · have hst := (congrArg Prod.fst (if_pos htype)).symm.trans (congrArg Prod.fst h)
      refine Or.inl ⟨hst.symm, fun other hother ↦ ?_⟩
      rw [← Option.some.inj hother]
      exact htype
    · exact Or.inr ⟨option, rfl, htype, h⟩

/-! ### The account of the lines -/

/-- The account of lines that have been parsed, behind the calls of before. -/
structure Accounted (cf : Conffile D) (before : List (ConffileCall D)) (seen : List (List Char))
    (st : ConffileState D) :
    Prop where
  counters : ∀ option ∈ cf.options, option.optionType ≠ .ignore →
    st.count option.countPtr = toInt (option.lineCount cf.flags seen)
  bounded : ∀ option ∈ cf.options, option.optionType ≠ .ignore → 0 < option.maxCount →
    option.lineCount cf.flags seen < 2147483648 → option.lineCount cf.flags seen ≤ option.maxCount
  known : ∀ line ∈ seen, cf.Known line
  calls : ∃ calls, st.calls = before ++ calls ∧ List.Forall₂ (CallOf strtod cf)
    (seen.filter cf.calls) calls

/-- Nothing has been parsed behind `_setup`. -/
theorem accounted_setup (cf : Conffile D) (st : ConffileState D) : Accounted strtod cf st.calls []
    (st.setup cf) where
  counters _ hoption _ := (count_setup hoption st).trans toInt_zero.symm
  bounded _ _ _ hmax _ := (Int.natCast_zero).le.trans hmax.le
  known _ hline := absurd hline List.not_mem_nil
  calls := ⟨[], (List.append_nil _).symm, List.Forall₂.nil⟩

/-- Assumes: options that the flags distinguish. A line that names none that is not ignored changes
no count, and calls nothing. -/
theorem Accounted.ignored {cf : Conffile D} (hcf : cf.DistinctOptions)
    {before : List (ConffileCall D)}
    {seen : List (List Char)} {line : List Char} {st : ConffileState D}
    (h : Accounted strtod cf before seen st)
    (hknown : cf.Known line)
    (hignored : ∀ option ∈ cf.options.find? (·.namedIn cf.flags line),
      option.optionType = .ignore) :
    Accounted strtod cf before (seen ++ [line]) st := by
  have hunnamed : ∀ option ∈ cf.options, option.optionType ≠ .ignore →
      option.namedIn cf.flags line = false := by
    intro option hoption htype
    refine (Bool.not_eq_true _).mp fun hnamed ↦ htype ?_
    obtain ⟨found, hfound⟩ :=
      Option.isSome_iff_exists.mp (List.find?_isSome.mpr ⟨option, hoption, hnamed⟩)
    rw [← hcf.eq_of_named (List.mem_of_find?_eq_some hfound) hoption
      (List.find?_some hfound) hnamed]
    exact hignored found hfound
  have hcount : ∀ option ∈ cf.options, option.optionType ≠ .ignore →
      option.lineCount cf.flags (seen ++ [line]) = option.lineCount cf.flags seen :=
          fun option hoption htype ↦ by
    rw [lineCount_append, hunnamed option hoption htype]
    rfl
  have hcalls : cf.calls line = false := by
    refine List.any_eq_false.mpr fun option hoption hcall ↦ ?_
    simp only [Bool.and_eq_true, decide_eq_true_eq] at hcall
    rw [hunnamed option hoption hcall.1.1] at hcall
    exact Bool.false_ne_true hcall.2
  refine ⟨fun option hoption htype ↦ ?_, fun option hoption htype hmax ↦ ?_, ?_, ?_⟩
  · rw [hcount option hoption htype]
    exact h.counters option hoption htype
  · rw [hcount option hoption htype]
    exact h.bounded option hoption htype hmax
  · exact List.forall_mem_append.mpr ⟨h.known, List.forall_mem_singleton.mpr hknown⟩
  · rw [List.filter_append, List.filter_singleton, hcalls]
    exact (List.append_nil _).symm ▸ h.calls

/-- Assumes: legitimate options that the flags distinguish. A line that names one that is not
ignored, if it is parsed, is counted for that one, and calls it, if it has a callback. -/
theorem Accounted.option {cf : Conffile D} (hcf : cf.DistinctOptions)
    (hlegitimate : cf.options.all (·.legitimate))
    {before : List (ConffileCall D)} {seen : List (List Char)} {line : List Char}
    {st st' : ConffileState D}
    (h : Accounted strtod cf before seen st) (hknown : cf.Known line)
    {option : ConffileOption D} (hfind : cf.options.find? (·.namedIn cf.flags line) = some option)
    (htype : option.optionType ≠ .ignore)
    (hoption : conffileParseOption strtod cf option (lineBehind line) st = (st', true)) :
    Accounted strtod cf before (seen ++ [line]) st' := by
  have hmem := List.mem_of_find?_eq_some hfind
  have hnamed := List.find?_some hfind
  obtain ⟨ptr, hptr⟩ := option.exists_countPtr (List.all_eq_true.mp hlegitimate option hmem) htype
  obtain ⟨hmax, args, data, hargs, hnumargs, hdata, hcallback⟩ :=
    conffileParseOption_true strtod htype hoption
  obtain ⟨hcounters, hcalled⟩ := ConffileState.callback_true hcallback
  have hcount : ∀ other, st'.count other = (st.increment option.countPtr).count other :=
      fun other ↦ by
    rw [ConffileState.count, hcounters]
    rfl
  have hincrement : ∀ other, st'.count other = if other = some ptr then toInt (st.count other + 1)
      else st.count other :=
    fun other ↦ by rw [hcount, hptr, count_increment]
  have hcounted : st'.count option.countPtr =
      toInt (option.lineCount cf.flags (seen ++ [line])) := by
    rw [hincrement, if_pos hptr, h.counters option hmem htype, toInt_toInt_add, lineCount_append,
      if_pos hnamed]
    rfl
  have hother : ∀ other ∈ cf.options, other ≠ option → other.lineCount cf.flags (seen ++ [line]) =
      other.lineCount cf.flags seen := fun other hother hne ↦ by
    rw [lineCount_append, if_neg fun hnamed' ↦ hne (hcf.eq_of_named hother hmem hnamed' hnamed)]
    rfl
  refine ⟨fun other hmem' htype' ↦ ?_, fun other hmem' htype' hpos hsmall ↦ ?_, ?_, ?_⟩
  · rcases eq_or_ne other option with rfl | hne
    · exact hcounted
    · rw [hincrement, if_neg fun hptr' ↦ hne (hcf.eq_of_countPtr hmem' hmem hptr' hptr),
        hother other hmem' hne]
      exact h.counters other hmem' htype'
  · rcases eq_or_ne other option with rfl | hne
    · have hwithin := not_lt.mp fun hless ↦ hmax ⟨hpos, hless⟩
      rwa [← hcount, hcounted, toInt_eq_self (by omega) (by omega)] at hwithin
    · rw [hother other hmem' hne] at hsmall ⊢
      exact h.bounded other hmem' htype' hpos hsmall
  · exact List.forall_mem_append.mpr ⟨h.known, List.forall_mem_singleton.mpr hknown⟩
  · obtain ⟨calls, hbefore, haccount⟩ := h.calls
    have hbehind : (st.increment option.countPtr).calls = before ++ calls := by
      rw [hptr]
      exact hbefore
    rw [hbehind] at hcalled
    rw [List.filter_append, List.filter_singleton, Conffile.calls_eq hcf hfind htype]
    by_cases hfunc : option.callbackFunc.isSome = true
    · rw [if_pos hfunc, List.append_assoc] at hcalled
      rw [hfunc]
      exact ⟨_, hcalled, List.rel_append haccount (List.Forall₂.cons
        ⟨option, hmem, htype, hnamed, args, data, hargs, hnumargs, hdata, rfl⟩ List.Forall₂.nil)⟩
    · rw [if_neg hfunc] at hcalled
      rw [(Bool.not_eq_true _).mp hfunc]
      exact ⟨calls, hcalled, (List.append_nil _).symm ▸ haccount⟩

/-- Assumes: legitimate options that the flags distinguish. A line that is parsed keeps the
account. -/
theorem Accounted.parseline {cf : Conffile D} (hcf : cf.DistinctOptions)
    (hlegitimate : cf.options.all (·.legitimate))
    {before : List (ConffileCall D)} {seen : List (List Char)} {line : List Char}
    {st st' : ConffileState D}
    (h : Accounted strtod cf before seen st)
    (hparse : conffileParseline strtod cf line st = (st', true)) :
    Accounted strtod cf before (seen ++ [line]) st' := by
  obtain ⟨hknown, ⟨rfl, hignored⟩ | ⟨option, hfind, htype, hoption⟩⟩ :=
    conffileParseline_true strtod hparse
  · exact h.ignored strtod hcf hknown hignored
  · exact h.option strtod hcf hlegitimate hknown hfind htype hoption

/-- Assumes: legitimate options that the flags distinguish. Lines that are all parsed keep the
account. -/
theorem Accounted.parseLines {cf : Conffile D} (hcf : cf.DistinctOptions)
    (hlegitimate : cf.options.all (·.legitimate))
    {before : List (ConffileCall D)} {items : List (Except ConffileErr (List Char))}
    {st' : ConffileState D} :
    ∀ {seen : List (List Char)} {st : ConffileState D}, Accounted strtod cf before seen st →
      parseLines strtod cf items st = (st', true) →
      ∃ lines, items = lines.map .ok ∧ Accounted strtod cf before (seen ++ lines) st' := by
  induction items with
  | nil =>
    intro seen st h hparse
    obtain rfl : st = st' := congrArg Prod.fst hparse
    exact ⟨[], rfl, (List.append_nil seen).symm ▸ h⟩
  | cons item items ih =>
    intro seen st h hparse
    cases item with
    | error errnum => exact absurd (congrArg Prod.snd hparse) Bool.false_ne_true
    | ok line =>
      rw [Whatsup.parseLines] at hparse
      by_cases hfails : (conffileParseline strtod cf line st).2 = false
      · rw [if_pos hfails] at hparse
        exact absurd (hfails.symm.trans (congrArg Prod.snd hparse)) Bool.false_ne_true
      · rw [if_neg hfails] at hparse
        have hline :=
          h.parseline strtod hcf hlegitimate (Prod.ext rfl ((Bool.not_eq_false _).mp hfails))
        obtain ⟨lines, hlines, haccount⟩ := ih hline hparse
        rw [List.append_assoc] at haccount
        exact ⟨line :: lines, congrArg (Except.ok line :: ·) hlines, haccount⟩

/-- What a parse that succeeds has done: the options pass the checks, the file is opened and read to
its end, its logical lines are parsed, and the required counts are met. -/
theorem conffileParse_zero {magic : Option ℕ} {cf : Conffile D} {file : ConffileOpen}
    {st st' : ConffileState D}
    (h : conffileParse strtod magic cf file st = (0, st')) :
    cf.Legitimate ∧ ∃ events last, file = .opened events ∧ .failed ∉ events ∧
      parseLines strtod cf (logicalLines [] (textLines (fileText events))) (st.setup cf) =
        (last, true) ∧
      st' = { last with errnum := .success } ∧
      ∀ option ∈ cf.options, option.countPtr.isSome →
          option.requiredCount ≤ last.count option.countPtr := by
  unfold conffileParse at h
  split_ifs at h with hmagic hrejected
  · exact absurd (congrArg Prod.fst h) (by simp)
  · exact absurd (congrArg Prod.fst h) (by simp)
  cases file with
  | missing => exact absurd (congrArg Prod.fst h) (by simp)
  | failed => exact absurd (congrArg Prod.fst h) (by simp)
  | opened events =>
    simp only at h
    by_cases hend : (conffileLoop strtod cf events (st.setup cf)).2 = true
    · rw [if_pos hend] at h
      have hread : .failed ∉ events := fun hfailed ↦
        Bool.false_ne_true ((conffileLoop_failed strtod cf hfailed _).symm.trans hend)
      rw [conffileLoop_eq strtod cf _ (fileLines_text events hread)] at h hend
      unfold ConffileState.finish at h
      split_ifs at h with hfew
      · exact absurd (congrArg Prod.fst h) (by simp)
      · obtain ⟨hoptions, hrejected⟩ := not_or.mp hrejected
        obtain ⟨hlegitimate, hflags⟩ := not_or.mp hrejected
        refine ⟨⟨hoptions, not_not.mp hlegitimate, not_not.mp hflags⟩, events, _, rfl, hread,
          Prod.ext rfl hend,
          (congrArg Prod.snd h).symm, fun option hoption hptr ↦ ?_⟩
        by_contra hless
        exact hfew (List.any_eq_true.mpr ⟨option, hoption, by simp [hptr, not_le.mp hless]⟩)
    · rw [if_neg hend] at h
      exact absurd (congrArg Prod.fst h) (by simp)

/-- The account of a parse that has succeeded, for options without more lines than a bound, if there
is one. The file is read to its end, in logical lines. The counter of every option that is not
ignored is the number of lines that name it, and that is not below the required count, nor above the
greatest, if there is one. The callbacks have been called for the lines that name an option with
one, in their order, each with the arguments of its line. A line with the name of one that names an
option to be ignored, or none, does nothing, whatever stands behind the name. -/
def ParseAccount (cf : Conffile D) (bound : Option ℕ) (file : ConffileOpen)
    (st st' : ConffileState D) : Prop :=
  ∃ events lines, file = .opened events ∧ .failed ∉ events ∧
    logicalLines [] (textLines (fileText events)) = lines.map .ok ∧
    (∀ option ∈ cf.options, option.optionType ≠ .ignore →
      (∀ limit ∈ bound, option.lineCount cf.flags lines < limit) →
      st'.count option.countPtr = option.lineCount cf.flags lines ∧
        option.requiredCount ≤ option.lineCount cf.flags lines ∧
        (0 < option.maxCount → option.lineCount cf.flags lines ≤ option.maxCount)) ∧
    (∃ calls, st'.calls = st.calls ++ calls ∧ List.Forall₂ (CallOf strtod cf)
      (lines.filter cf.calls) calls) ∧
    ∀ line ∈ lines, (∀ option ∈ cf.options, option.namedIn cf.flags line = true →
      option.optionType = .ignore) →
      ∀ line', lineName line' = lineName line → ∀ other, conffileParseline strtod cf line' other =
        (other, true)

/-- Assumes: options whose names the flags distinguish, with different counters, and a parse that
succeeds. It has the account, for options with less than `2 ^ 32` lines. -/
theorem conffileParse_accounted (magic : Option ℕ) (cf : Conffile D)
    (hdistinct : cf.DistinctOptions) (file : ConffileOpen)
    (st st' : ConffileState D) (hparse : conffileParse strtod magic cf file st = (0, st')) :
    ParseAccount strtod cf (some 4294967296) file st st' := by
  obtain ⟨hcf, events, last, rfl, hread, hlines, rfl, hrequired⟩ := conffileParse_zero strtod hparse
  obtain ⟨lines, hok, haccount⟩ :=
    (accounted_setup strtod cf st).parseLines strtod hdistinct hcf.2.1 hlines
  rw [List.nil_append] at haccount
  refine ⟨events, lines, rfl, hread, hok, fun option hoption htype hbound ↦ ?_, haccount.calls,
    fun line hline hignored line' hname st ↦ ?_⟩
  · have hlegitimate := List.all_eq_true.mp hcf.2.1 option hoption
    obtain ⟨ptr, hptr⟩ := option.exists_countPtr hlegitimate htype
    have hcount := haccount.counters option hoption htype
    have henough := hrequired option hoption (hptr ▸ rfl)
    rw [hcount] at henough
    have hsmall : option.lineCount cf.flags lines < 2147483648 :=
      lt_of_toInt_nonneg (hbound _ rfl)
        ((ConffileOption.requiredCount_nonneg hlegitimate).trans henough)
    exact ⟨hcount.trans (toInt_eq_self (by omega) (by omega)), henough.trans (toInt_natCast_le _),
      fun hpos ↦ haccount.bounded option hoption htype hpos hsmall⟩
  · by_cases htext : lineText line' = []
    · exact conffileParseline_nil strtod cf htext st
    have hknown := haccount.known line hline fun hnil ↦
      htext ((lineName_eq_nil line').mp (hname.trans ((lineName_eq_nil line).mpr hnil)))
    refine conffileParseline_ignored strtod hdistinct (hname ▸ hknown.1) ?_ st
    by_cases hunknown : ∃ option ∈ cf.options, option.namedIn cf.flags line = true
    · obtain ⟨option, hoption, hnamed⟩ := hunknown
      exact Or.inl ⟨option, hoption, hignored option hoption hnamed,
        (namedIn_congr hname option).trans hnamed⟩
    · exact Or.inr ⟨hknown.2.resolve_right hunknown, fun option hoption ↦
        (namedIn_congr hname option).trans
        ((Bool.not_eq_true _).mp fun hnamed ↦ hunknown ⟨option, hoption, hnamed⟩)⟩

/-- The counters of an account, for the logical lines of the file. -/
theorem ParseAccount.count_eq {cf : Conffile D} {bound : Option ℕ} {events : List ReadEvent}
    {st st' : ConffileState D}
    (h : ParseAccount strtod cf bound (.opened events) st st') {lines : List (List Char)}
    (hlines : logicalLines [] (textLines (fileText events)) = lines.map .ok)
    {option : ConffileOption D}
    (hoption : option ∈ cf.options) (htype : option.optionType ≠ .ignore)
    (hbound : ∀ limit ∈ bound, option.lineCount cf.flags lines < limit) :
    st'.count option.countPtr = option.lineCount cf.flags lines := by
  obtain ⟨events', lines', hevents, -, hlines', hcounts, -, -⟩ := h
  obtain rfl := ConffileOpen.opened.inj hevents
  obtain rfl : lines = lines' := List.map_injective_iff.mpr (fun _ _ ↦ Except.ok.inj)
    (hlines.symm.trans hlines')
  exact (hcounts option hoption htype hbound).1

end Doubles

/-- A flag with a counter. -/
def flagOption (name : List Char) (ptr : ℕ) : ConffileOption ℤ :=
  ⟨some name, .flag, 0, none, 0, 0, some ptr, none, 0⟩

/-- A flag and a list of strings, where unknown names are ignored. -/
def flagConffile : Conffile ℤ :=
  ⟨[flagOption "a".toList 0, { stringsOption "b".toList with countPtr := some 1 }], none, 0, 2⟩

/-- A comment, the flag twice, once continued by a line that is blank and once at the end of the
file, and an unknown name. -/
def flagText : List Char :=
  "# a\nA\\\n\nc \"\nb x\\\n y\na".toList

/-- The account of it. -/
theorem conffileParse_accounted_flag :
    ParseAccount (fun _ ↦ (0, false, [])) flagConffile (some 4294967296)
      (.opened (flagText.map .byte)) ⟨.success, fun _ ↦ 0, []⟩
      (conffileParse (fun _ ↦ (0, false, []))
        (some 0x0a1b2c3d) flagConffile (.opened (flagText.map .byte))
        ⟨.success, fun _ ↦ 0, []⟩).2 :=
  conffileParse_accounted (fun _ ↦ (0, false, [])) (some 0x0a1b2c3d) flagConffile (by decide)
    (.opened (flagText.map .byte))
    ⟨.success, fun _ ↦ 0, []⟩ _ (Prod.ext (by
      rw [conffileParse_eq _ (by decide) (delivers_map_byte _)]
      decide +kernel) rfl)

/-- A file whose lines all are the name of a flag. -/
def flagFile (number : ℕ) : List Char :=
  (List.replicate number ['a', '\n']).flatten

theorem logicalLines_flagFile (number : ℕ) :
    logicalLines [] (textLines (flagFile number)) = (List.replicate number ['a']).map .ok := by
  induction number with
  | zero => rfl
  | succ number ih =>
    have hfile : flagFile (number + 1) = ['a'] ++ '\n' :: flagFile number := rfl
    rw [hfile, textLines_append_newline (by decide), logicalLines, if_neg (by decide),
      if_neg (by decide), if_neg (by decide), ih]
    rfl

theorem parseLines_flagFile (number : ℕ) (st : ConffileState ℤ) :
    ∃ st', parseLines (fun _ ↦ (0, false, [])) ⟨[flagOption ['a'] 0], none, 0, 0⟩
      ((List.replicate number ['a']).map .ok) st = (st', true) := by
  induction number generalizing st with
  | zero => exact ⟨st, rfl⟩
  | succ number ih => exact ih _

/-- What a parse gives for a file with one option. -/
def flagParse (options : List (ConffileOption ℤ)) (text : List Char) : ℤ × ConffileState ℤ :=
  conffileParse (fun _ ↦ (0, false, [])) (some 0x0a1b2c3d) ⟨options, none, 0, 0⟩
    (.opened (text.map .byte))
    ⟨.success, fun _ ↦ 0, []⟩

theorem lineCount_flagFile (number : ℕ) :
    (flagOption ['a'] 0).lineCount 0 (List.replicate number ['a']) = number := by
  rw [ConffileOption.lineCount, List.countP_replicate]
  exact if_pos (by decide)

/-- Assumes: a number of lines that is zero as an `int`. The file is parsed, and the counter is
zero. -/
theorem flagParse_flagFile {number : ℕ} (h : toInt number = 0) :
    (flagParse [flagOption ['a'] 0] (flagFile number)).1 = 0 ∧
      (flagParse [flagOption ['a'] 0] (flagFile number)).2.count (some 0) = 0 := by
  obtain ⟨last, hparse⟩ := parseLines_flagFile number
    (ConffileState.setup ⟨[flagOption ['a'] 0], none, 0, 0⟩ ⟨.success, fun _ ↦ 0, []⟩)
  obtain ⟨lines, hlines, haccount⟩ := (accounted_setup _ _ _).parseLines _ (by decide)
    (by decide) hparse
  obtain rfl : List.replicate number ['a'] = lines :=
    List.map_injective_iff.mpr (fun _ _ ↦ Except.ok.inj) hlines
  have hcount : last.count (some 0) = 0 :=
    (haccount.counters (flagOption ['a'] 0) List.mem_cons_self (by decide)).trans
      ((congrArg (fun count : ℕ ↦ toInt count) (lineCount_flagFile number)).trans h)
  unfold flagParse
  rw [conffileParse_eq _ (by decide) (delivers_map_byte _), logicalLines_flagFile,
    hparse, if_pos rfl,
    ConffileState.finish, if_neg]
  · exact ⟨rfl, hcount⟩
  · intro hfew
    obtain ⟨option, hoption, hless⟩ := List.any_eq_true.mp hfew
    obtain rfl := List.mem_singleton.mp hoption
    exact absurd (of_decide_eq_true (Bool.and_eq_true_iff.mp hless).2) (not_lt.mpr hcount.ge)

/-- Assumes: a number of lines that is zero as an `int`, but not zero. The counter of the file with
so many lines is not their number. -/
theorem not_parseAccount_flagFile {number : ℕ} (h : toInt number = 0) (hne : number ≠ 0) :
    ¬ ∀ (cf : Conffile ℤ) (file : ConffileOpen) (st st' : ConffileState ℤ), cf.DistinctOptions →
      conffileParse (fun _ ↦ (0, false, [])) (some 0x0a1b2c3d) cf file st = (0, st') →
      ParseAccount (fun _ ↦ (0, false, [])) cf none file st st' := by
  intro haccount
  have hlines : logicalLines [] (textLines (fileText ((flagFile number).map .byte))) =
      (List.replicate number ['a']).map .ok := by
    rw [(delivers_map_byte _).text.2, logicalLines_flagFile]
  have hcount := (haccount ⟨[flagOption ['a'] 0], none, 0, 0⟩ _ _ _ (by decide)
    (Prod.ext (flagParse_flagFile h).1 rfl)).count_eq _ hlines List.mem_cons_self (by
      decide) (by simp)
  rw [lineCount_flagFile] at hcount
  exact hne (Int.natCast_eq_zero.mp (hcount.symm.trans (flagParse_flagFile h).2))

/-- Two names that are distinguished only if the case is, and as many lines as the counter has
values. -/
theorem parseAccount_sameName_manyLines :
    (¬ ∀ (cf : Conffile ℤ) (file : ConffileOpen) (st st' : ConffileState ℤ),
      cf.options.Pairwise (fun option other ↦
        option.optionname ≠ other.optionname ∧ ∀ ptr ∈ option.countPtr, other.countPtr ≠ some ptr) →
      conffileParse (fun _ ↦ (0, false, [])) (some 0x0a1b2c3d) cf file st = (0, st') →
      ParseAccount (fun _ ↦ (0, false, [])) cf (some 4294967296) file st st') ∧
    ¬ ∀ (cf : Conffile ℤ) (file : ConffileOpen) (st st' : ConffileState ℤ), cf.DistinctOptions →
      conffileParse (fun _ ↦ (0, false, [])) (some 0x0a1b2c3d) cf file st = (0, st') →
      ParseAccount (fun _ ↦ (0, false, [])) cf none file st st' := by
  constructor
  · intro h
    have hparse :
      (flagParse [flagOption "Foo".toList 0, flagOption "foo".toList 1] "foo\n".toList).1 = 0 ∧
        (flagParse [flagOption "Foo".toList 0, flagOption "foo".toList 1] "foo\n".toList).2.count
            (some 1) = 0 := by
      unfold flagParse
      rw [conffileParse_eq _ (by decide) (delivers_map_byte _)]
      decide
    have hcount := (h _ _ _ _ (by decide) (Prod.ext hparse.1 rfl)).count_eq _
      (show logicalLines [] (textLines (fileText _)) = ["foo".toList].map .ok from ?_)
      (List.mem_cons_of_mem _ List.mem_cons_self) (by decide) (by decide)
    · exact absurd (hparse.2.symm.trans hcount) (by decide)
    · decide
  · have hzero : toInt ((4294967296 : ℕ) : ℤ) = 0 := rfl
    exact not_parseAccount_flagFile hzero (by decide)

end Whatsup
