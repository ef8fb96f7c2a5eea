import Mathlib.Data.List.DropRight
import Mathlib.Logic.Function.Basic
import Whatsup.CLib.MachineInt
import Whatsup.CLib.Numeral
import Whatsup.Common.Lines

/-!
# The configuration file parser

The functions of `conffile.c`. A logical line is read from as many physical lines as are continued,
is split into an option name and arguments, and the arguments are handed to the callback of the
option, as data of its type.

A callback answers to the calls that have been made so far, the last of which is its own, with its
value and the error number that it sets, if any. Counters are addressed by their pointers. What only
goes into error messages, the line numbers and the name of the current option, is left out; floating
point numbers are a type of the reader's choice, with a `strtod` for it.
-/

set_option autoImplicit false
set_option relaxedAutoImplicit false

namespace Whatsup

open CLib

/-! ### Options -/

/-- The error codes. -/
inductive ConffileErr
  | success
  | parseOptionUnknown
  | parseOptionToomany
  | parseOptionToofew
  | parseOverflowLinelen
  | parseOverflowOptionlen
  | parseOverflowArglen
  | parseArgMissing
  | parseArgToomany
  | parseArgInvalid
  | parseQuote
  | parseContinuation
  | parseCallback
  | exist
  | cannotOpen
  | read
  | outmem
  | parameters
  | magic
  | nullhandle
  | internal
  | errnumrange
deriving DecidableEq

/-- The types of options. -/
inductive ConffileOptionType
  | ignore
  | flag
  | bool
  | int
  | double
  | string
  | listInt
  | listDouble
  | listString
deriving DecidableEq

/-- `struct conffile_data`. -/
structure ConffileData (D : Type) where
  boolval : ℤ
  intval : ℤ
  doubleval : D
  string : List Char
  intlist : List ℤ
  doublelist : List D
  stringlist : List (List Char)
deriving DecidableEq

/-- The arguments of a callback. -/
structure ConffileCall (D : Type) where
  data : ConffileData D
  optionname : Option (List Char)
  optionType : ConffileOptionType
  optionPtr : Option ℕ
  optionData : ℤ
  appPtr : Option ℕ
  appData : ℤ
deriving DecidableEq

/-- `struct conffile_option`. -/
structure ConffileOption (D : Type) where
  optionname : Option (List Char)
  optionType : ConffileOptionType
  optionTypeArg : ℤ
  callbackFunc : Option (List (ConffileCall D) → ℤ × Option ConffileErr)
  maxCount : ℤ
  requiredCount : ℤ
  countPtr : Option ℕ
  optionPtr : Option ℕ
  optionData : ℤ

/-- What a parse is given: the options and the arguments that are passed on, and the flags. -/
structure Conffile (D : Type) where
  options : List (ConffileOption D)
  appPtr : Option ℕ
  appData : ℤ
  flags : BitVec 32

/-- What a parse changes: the error number, the counters, and the calls of callbacks. -/
structure ConffileState (D : Type) where
  errnum : ConffileErr
  counters : ℕ → ℤ
  calls : List (ConffileCall D)

/-! ### Lines -/

/-- conffile's `_remove_trailing_whitespace`. -/
def conffileRemoveTrailingWhitespace (linebuf : List Char) : List Char :=
  linebuf.rdropWhile isSpace

/-- The loop of conffile's `_remove_comments`, for whether the previous character is an escape. -/
def conffileRemoveComments : Bool → List Char → List Char
  | _, [] => []
  | previousIsEscape, c :: linebuf =>
    if c = '\\' ∧ previousIsEscape = false then c :: conffileRemoveComments true linebuf
    else if c = '#' ∧ previousIsEscape = false then []
    else c :: conffileRemoveComments false linebuf

/-- conffile's `_move_past_whitespace`, for the string in a buffer. There is nothing behind the
blanks of a blank one. -/
def conffileMovePastWhitespace (linebuf : List Char) : List Char :=
  (cString linebuf).dropWhile isSpace

/-- conffile's `_readline`, for what there is of the line so far: the line, whether the end of the
file was read, and the events that are left, or an error. -/
def conffileReadline (linebuf : List Char) (events : List ReadEvent) :
    Except ConffileErr (List Char × Bool × List ReadEvent) :=
  match _hread : fdReadLine 32767 events with
  | none => .error .read
  | some (buf, rest) =>
    if _hbuf : buf = [] then .ok (linebuf, true, rest)
    else if 32767 ≤ buf.length then .error .parseOverflowLinelen
    else if 32768 ≤ buf.length + linebuf.length then .error .parseOverflowLinelen
    else
      let linebuf := conffileRemoveTrailingWhitespace (linebuf ++ buf)
      if linebuf = [] then conffileReadline [] rest
      else
        let linebuf := conffileRemoveComments false linebuf
        if linebuf = [] then conffileReadline [] rest
        else
          let linebuf := conffileRemoveTrailingWhitespace linebuf
          if linebuf = [] then conffileReadline [] rest
          else if linebuf.getLast? = some '\\' then conffileReadline linebuf.dropLast rest
          else .ok (linebuf, false, rest)
termination_by events.length
decreasing_by
  all_goals
    have hlength := fdReadLine_length _hread
    have hpos := List.length_pos_of_ne_nil _hbuf
    omega

theorem prefix_of_conffileRemoveComments (previousIsEscape : Bool) (linebuf : List Char) :
    conffileRemoveComments previousIsEscape linebuf <+: linebuf := by
  induction linebuf generalizing previousIsEscape with
  | nil => exact List.prefix_rfl
  | cons c linebuf ih =>
    rw [conffileRemoveComments]
    split_ifs
    · exact List.prefix_cons_inj c |>.mpr (ih true)
    · exact List.nil_prefix
    · exact List.prefix_cons_inj c |>.mpr (ih false)

/-- What becomes of the line so far: trailing blanks, a comment, and what are trailing blanks then
are taken away. -/
def conffileTrim (linebuf : List Char) : List Char :=
  conffileRemoveTrailingWhitespace
    (conffileRemoveComments false (conffileRemoveTrailingWhitespace linebuf))

theorem conffileTrim_length (linebuf : List Char) : (conffileTrim linebuf).length ≤
    linebuf.length :=
  ((List.rdropWhile_prefix isSpace _).trans
    ((prefix_of_conffileRemoveComments _ _).trans (List.rdropWhile_prefix isSpace _))).length_le

/-- `_readline` behind a read. -/
theorem conffileReadline_eq {linebuf buf : List Char} {events rest : List ReadEvent}
    (h : fdReadLine 32767 events = some (buf, rest)) :
    conffileReadline linebuf events =
      if buf = [] then .ok (linebuf, true, rest)
      else if 32767 ≤ buf.length then .error .parseOverflowLinelen
      else if 32768 ≤ buf.length + linebuf.length then .error .parseOverflowLinelen
      else if conffileTrim (linebuf ++ buf) = [] then conffileReadline [] rest
      else if (conffileTrim (linebuf ++ buf)).getLast? = some '\\' then
        conffileReadline (conffileTrim (linebuf ++ buf)).dropLast rest
      else .ok (conffileTrim (linebuf ++ buf), false, rest) := by
  rw [conffileReadline]
  split
  · exact absurd (h.symm.trans ‹_›) (by simp)
  · obtain ⟨rfl, rfl⟩ := Prod.mk.inj (Option.some.inj (h.symm.trans ‹_›))
    unfold conffileTrim
    generalize linebuf ++ _ = joined
    by_cases hblank : conffileRemoveTrailingWhitespace joined = []
    · have htrim : conffileRemoveTrailingWhitespace (conffileRemoveComments false
          (conffileRemoveTrailingWhitespace joined)) = [] := by
        rw [hblank]
        rfl
      simp only [if_pos hblank, if_pos htrim]
      rfl
    · by_cases hcomment : conffileRemoveComments false (conffileRemoveTrailingWhitespace joined) =
        []
      · have htrim : conffileRemoveTrailingWhitespace (conffileRemoveComments false
            (conffileRemoveTrailingWhitespace joined)) = [] := by
          rw [hcomment]
          rfl
        simp only [if_neg hblank, if_pos hcomment, if_pos htrim]
        rfl
      · simp only [if_neg hblank, if_neg hcomment]
        rfl

/-- A line that was read is not longer than what there was of it and what the file has given. -/
theorem conffileReadline_length {linebuf line : List Char} {events rest : List ReadEvent}
    {endOfFile : Bool}
    (h : conffileReadline linebuf events = .ok (line, endOfFile, rest)) :
    line.length + rest.length ≤ linebuf.length + events.length := by
  induction hsize : events.length using Nat.strong_induction_on generalizing linebuf events with
  | _ size ih =>
    cases hread : fdReadLine 32767 events with
    | none =>
      rw [conffileReadline] at h
      split at h
      · exact absurd h (by simp)
      · exact absurd (hread.symm.trans ‹_›) (by simp)
    | some result =>
      obtain ⟨buf, behind⟩ := result
      rw [conffileReadline_eq hread] at h
      have hlength := fdReadLine_length hread
      have htrim := conffileTrim_length (linebuf ++ buf)
      rw [List.length_append] at htrim
      split_ifs at h with hbuf _ _ hblank hescape
      · obtain ⟨rfl, hrest⟩ := Prod.mk.inj (Except.ok.inj h)
        obtain ⟨-, rfl⟩ := Prod.mk.inj hrest
        omega
      · have hpos := List.length_pos_of_ne_nil hbuf
        have hline := ih behind.length (by omega) h rfl
        rw [List.length_nil] at hline
        omega
      · have hpos := List.length_pos_of_ne_nil hbuf
        have hline := ih behind.length (by omega) h rfl
        rw [List.length_dropLast] at hline
        omega
      · obtain ⟨rfl, hrest⟩ := Prod.mk.inj (Except.ok.inj h)
        obtain ⟨-, rfl⟩ := Prod.mk.inj hrest
        omega

/-! ### Arguments -/

/-- The inner loop of `_parse_args`, for the length of the argument so far and whether a quote is
open: the rest of the argument, and what follows it. -/
def conffileParseArg : ℕ → Bool → List Char → Except ConffileErr (List Char × List Char)
  | _, quoteFlag, [] => if quoteFlag then .error .parseQuote else .ok ([], [])
  | arglen, quoteFlag, c :: linebuf =>
    if quoteFlag = false ∧ isSpace c then .ok ([], c :: linebuf)
    else if c = '"' then conffileParseArg arglen (!quoteFlag) linebuf
    else if c = '\\' then
      match linebuf with
      | [] => .error .parseContinuation
      | d :: linebuf =>
        if d ≠ '\\' ∧ d ≠ '#' ∧ d ≠ '"' then .error .parseContinuation
        else if arglen + 1 = 1023 then .error .parseOverflowArglen
        else (conffileParseArg (arglen + 1) quoteFlag linebuf).map fun parsed ↦
          (d :: parsed.1, parsed.2)
    else if arglen + 1 = 1023 then .error .parseOverflowArglen
    else (conffileParseArg (arglen + 1) quoteFlag linebuf).map fun parsed ↦
      (c :: parsed.1, parsed.2)

/-- The outer loop of `_parse_args`, for the number of arguments that there is still room for. -/
def conffileParseArgs (room : ℕ) (linebuf : List Char) : Except ConffileErr (List (List Char)) :=
  if linebuf.dropWhile isSpace = [] then .ok []
  else
    match room with
    | 0 => .error .parseArgToomany
    | room + 1 =>
      match conffileParseArg 0 false (linebuf.dropWhile isSpace) with
      | .error errnum => .error errnum
      | .ok (arg, linebuf) =>
        if linebuf = [] then .ok [arg]
        else (conffileParseArgs room linebuf).map (arg :: ·)

/-- The checks of the number of arguments. -/
def checkNumargs {D : Type} (option : ConffileOption D) (numargs : ℕ) : Option ConffileErr :=
  let single := option.optionType ∈ [.bool, .int, .double, .string]
  let list := option.optionType ∈ [.listInt, .listDouble, .listString]
  if option.optionType = .flag ∧ numargs ≠ 0 then some .parseArgToomany
  else if (single ∨ list) ∧ numargs = 0 then some .parseArgMissing
  else if single ∧ 1 < numargs then some .parseArgToomany
  else if list ∧ 0 < option.optionTypeArg ∧ (numargs : ℤ) ≠ option.optionTypeArg then
    if (numargs : ℤ) < option.optionTypeArg then some .parseArgMissing else some .parseArgToomany
  else none

/-- `strcasecmp` gives zero. -/
def strcaseeq (s t : List Char) : Bool :=
  s.map Char.toLower = t.map Char.toLower

/-- The value of the argument of a `BOOL` option, if it is one of its texts. -/
def boolArg (arg : List Char) : Option ℤ :=
  if arg = "1".toList ∨ ["y", "yes", "on", "t", "true", "enable"].any fun text ↦
    strcaseeq arg text.toList then some 1
  else if arg = "0".toList ∨ ["n", "no", "off", "f", "false", "disable"].any fun text ↦
    strcaseeq arg text.toList then some 0
  else none

/-- The value of the argument of an `INT` option, if all of it is read as a `long`. -/
def intArg (arg : List Char) : Option ℤ :=
  let (value, errno, rest) := strtol arg
  if errno ∨ rest ≠ [] then none else some (toInt value)

section Doubles

variable {D : Type} [Zero D] (strtod : List Char → D × Bool × List Char)

/-- The value of the argument of a `DOUBLE` option, if all of it is read. -/
def doubleArg (arg : List Char) : Option D :=
  let (value, errno, rest) := strtod arg
  if errno ∨ rest ≠ [] then none else some value

/-- Data that is zero. -/
def ConffileData.zero : ConffileData D :=
  ⟨0, 0, 0, [], [], [], []⟩

/-- The data of an option with as many arguments as it takes, if they are valid. -/
def conffileData (optionType : ConffileOptionType) (args : List (List Char)) :
    Option (ConffileData D) :=
  match optionType with
  | .ignore => some .zero
  | .flag => some .zero
  | .bool => (boolArg (args.headD [])).map fun value ↦ { ConffileData.zero with boolval := value }
  | .int => (intArg (args.headD [])).map fun value ↦ { ConffileData.zero with intval := value }
  | .double => (doubleArg strtod (args.headD [])).map fun value ↦
    { ConffileData.zero with doubleval := value }
  | .string => some { ConffileData.zero with string := args.headD [] }
  | .listInt => (args.mapM intArg).map fun values ↦ { ConffileData.zero with intlist := values }
  | .listDouble => (args.mapM (doubleArg strtod)).map fun values ↦
    { ConffileData.zero with doublelist := values }
  | .listString => some { ConffileData.zero with stringlist := args }

/-! ### Options in a line -/

/-- Whether an option has a name, by the flags. -/
def ConffileOption.named (flags : BitVec 32) (optionname : List Char)
    (option : ConffileOption D) : Bool :=
  match option.optionname with
  | none => false
  | some name => if flags &&& 1 ≠ 0 then name = optionname else strcaseeq name optionname

/-- An error. -/
def ConffileState.fail (errnum : ConffileErr) (st : ConffileState D) : ConffileState D × Bool :=
  ({ st with errnum := errnum }, false)

/-- The value of a counter. -/
def ConffileState.count (countPtr : Option ℕ) (st : ConffileState D) : ℤ :=
  countPtr.elim 0 st.counters

/-- The counter of an option, incremented. -/
def ConffileState.increment (countPtr : Option ℕ) (st : ConffileState D) : ConffileState D :=
  match countPtr with
  | none => st
  | some ptr =>
    { st with counters := Function.update st.counters ptr (toInt (st.counters ptr + 1)) }

/-- The call of a callback, and whether its value is not negative. -/
def ConffileState.callback (cf : Conffile D) (option : ConffileOption D) (data : ConffileData D)
    (st : ConffileState D) :
    ConffileState D × Bool :=
  match option.callbackFunc with
  | none => ({ st with errnum := .success }, true)
  | some callbackFunc =>
    let calls := st.calls ++
      [⟨data, option.optionname, option.optionType, option.optionPtr, option.optionData, cf.appPtr,
        cf.appData⟩]
    let (rv, seterrnum) := callbackFunc calls
    let errnum := seterrnum.getD .success
    if rv < 0 then
      ({ st with calls := calls, errnum := if errnum = .success then .parseCallback else errnum },
        false)
    else ({ st with calls := calls, errnum := errnum }, true)

/-- `_parseline`, for the string behind the option name of a line. -/
def conffileParseOption (cf : Conffile D) (option : ConffileOption D) (linebuf : List Char)
    (st : ConffileState D) :
    ConffileState D × Bool :=
  if option.optionType = .ignore then (st, true)
  else
    let st := st.increment option.countPtr
    if 0 < option.maxCount ∧ option.maxCount < st.count option.countPtr then st.fail
      .parseOptionToomany
    else
      match conffileParseArgs 64 linebuf with
      | .error errnum => st.fail errnum
      | .ok args =>
        match checkNumargs option args.length with
        | some errnum => st.fail errnum
        | none =>
          match conffileData strtod option.optionType args with
          | none => st.fail .parseArgInvalid
          | some data => st.callback cf option data

/-- `_parseline`. -/
def conffileParseline (cf : Conffile D) (linebuf : List Char) (st : ConffileState D) :
    ConffileState D × Bool :=
  let linebuf := conffileMovePastWhitespace (conffileRemoveTrailingWhitespace linebuf)
  if linebuf = [] then (st, true)
  else
    let optionname := linebuf.takeWhile (!isSpace ·)
    if 255 ≤ optionname.length then st.fail .parseOverflowOptionlen
    else
      match cf.options.find? (·.named cf.flags optionname) with
      | none => if cf.flags &&& 2 ≠ 0 then (st, true) else st.fail .parseOptionUnknown
      | some option => conffileParseOption strtod cf option (linebuf.dropWhile (!isSpace ·)) st

/-! ### The file -/

/-- The loop of `conffile_parse`, and whether it comes to its end. -/
def conffileLoop (cf : Conffile D) (events : List ReadEvent) (st : ConffileState D) :
    ConffileState D × Bool :=
  match _hread : conffileReadline [] events with
  | .error errnum => st.fail errnum
  | .ok (linebuf, endOfFile, rest) =>
    if _hline : linebuf = [] then (st, true)
    else
      let parsed := conffileParseline strtod cf linebuf st
      if parsed.2 = false then parsed
      else if endOfFile then parsed
      else conffileLoop cf rest parsed.1
termination_by events.length
decreasing_by
  have hlength := conffileReadline_length _hread
  have hpos := List.length_pos_of_ne_nil _hline
  rw [List.length_nil, Nat.zero_add] at hlength
  omega

/-- The check of an option in the array that is parsed for. -/
def ConffileOption.legitimate (option : ConffileOption D) : Bool :=
  match option.optionname with
  | none => false
  | some name =>
    name.length < 256 &&
    (option.optionType ∈ [.ignore, .flag] || option.callbackFunc.isSome) &&
    !(option.optionType ∈ [.listInt, .listDouble, .listString] && option.optionTypeArg = 0) &&
    0 ≤ option.requiredCount &&
    (option.optionType = .ignore || option.countPtr.isSome)

omit [Zero D] in
theorem ConffileOption.requiredCount_nonneg {option : ConffileOption D} (h : option.legitimate) :
    0 ≤ option.requiredCount := by
  unfold ConffileOption.legitimate at h
  split at h <;> simp_all

omit [Zero D] in
/-- Assumes: an option that passes the check, and that is not ignored. It has a counter. -/
theorem ConffileOption.exists_countPtr {option : ConffileOption D} (h : option.legitimate)
    (htype : option.optionType ≠ .ignore) :
    ∃ ptr, option.countPtr = some ptr := by
  refine Option.isSome_iff_exists.mp ?_
  unfold ConffileOption.legitimate at h
  split at h <;> simp_all

omit [Zero D] in
/-- Assumes: an option that passes the check, and that takes arguments. It has a callback. -/
theorem ConffileOption.exists_callbackFunc {option : ConffileOption D} (h : option.legitimate)
    (htype : option.optionType ∉ [.ignore, .flag]) : ∃ callbackFunc, option.callbackFunc =
      some callbackFunc := by
  refine Option.isSome_iff_exists.mp ?_
  unfold ConffileOption.legitimate at h
  split at h <;> simp_all

/-- What comes of `access` and `open`. -/
inductive ConffileOpen
  | missing
  | failed
  | opened (events : List ReadEvent)

/-- `_setup`, for a file that is opened. -/
def ConffileState.setup (cf : Conffile D) (st : ConffileState D) : ConffileState D :=
  { st with
    counters := fun ptr ↦ if ∃ option ∈ cf.options, option.countPtr =
      some ptr then 0 else st.counters ptr
    errnum := .success }

/-- The check of the required counts behind the loop. -/
def ConffileState.finish (cf : Conffile D) (st : ConffileState D) : ℤ × ConffileState D :=
  if cf.options.any fun option ↦ option.countPtr.isSome && st.count option.countPtr <
    option.requiredCount then
    (-1, { st with errnum := .parseOptionToofew })
  else (0, { st with errnum := .success })

/-- `conffile_parse`, for the magic number in the handle, if there is a handle. -/
def conffileParse (magic : Option ℕ) (cf : Conffile D) (file : ConffileOpen)
    (st : ConffileState D) :
    ℤ × ConffileState D :=
  if magic ≠ some 0x0a1b2c3d then (-1, st)
  else if cf.options = [] ∨ ¬cf.options.all (·.legitimate) ∨ cf.flags &&& ~~~1 &&& ~~~2 ≠ 0 then
    (-1, { st with errnum := .parameters })
  else
    match file with
    | .missing => (-1, { st with errnum := .exist })
    | .failed => (-1, { st with errnum := .cannotOpen })
    | .opened events =>
      let (st, atEnd) := conffileLoop strtod cf events (st.setup cf)
      if atEnd then st.finish cf else (-1, st)

end Doubles

end Whatsup
