import Whatsup.Command.InputNodes
import Whatsup.Hostlist.Deranged

/-!
# What `whatsup` prints

`_output_mode` prints the nodes that are up and those that are down, with the counts in front of
them if both are printed, as a host expression or with the names one by one behind commas, newlines
or blanks; or it prints the counts only; or the last time that each node was up. `outputMode` is all
of that, as the text that goes to the standard output, and the exit value.
-/

set_option autoImplicit false
set_option relaxedAutoImplicit false

namespace Whatsup

open CLib

/-! ### The options -/

/-- `output_type`: zero, or the character between two names. -/
inductive OutputType
  | hostrange
  | comma
  | newline
  | space
deriving DecidableEq

/-- The character between two names. -/
def OutputType.separator : OutputType → Option Char
  | .hostrange => none
  | .comma => some ','
  | .newline => some '\n'
  | .space => some ' '

/-- What the command line sets for `_output_mode`. -/
structure WhatsupOptions where
  updownOutput : UpdownOutput
  outputType : OutputType
  countOnlyOutput : Bool
  lastUpTime : Bool
  inputtedNodes : Hostlist

/-- The ways in which `_output_mode` does not come to its end: the texts of the nodes do not come to
be, `hostlist_create` gives no list, the names do not fit or are written outside of the buffer, the
library has no times, or it cannot tell a time. -/
inductive OutputExit
  | nodes (failure : InputExit)
  | hostlistCreate (failure : CreateFailure)
  | derangedString
  | outside
  | timesNotSupported
  | lastUpTime (errnum : Errnum)
  | fault (fault : LibFault)

/-- `hostlist_create` of a text of the program, or `err_exit`. -/
def createListed (text : List Char) : Except OutputExit Hostlist :=
  (hostlistCreate text).mapError .hostlistCreate

/-! ### Names -/

/-- The loop of `_output_nodes` that overwrites the first comma, as long as there is one. -/
def convertCommas (separator : Char) : ℕ → List Char → List Char
  | 0, tbuf => tbuf
  | rounds + 1, tbuf =>
    match tbuf.findIdx? (· = ',') with
    | none => tbuf
    | some ptr => convertCommas separator rounds (tbuf.set ptr separator)

/-- `_output_nodes`. -/
def outputNodes (options : WhatsupOptions) (nodebuf : List Char) : Except OutputExit (List Char) :=
  match options.outputType.separator with
  | none => .ok (nodebuf ++ ['\n'])
  | some separator => do
    let hl ← createListed nodebuf
    match hostlistDerangedString hl whatsupBufferlen clearedBuffer with
    | none => .error .outside
    | some (len, tbuf) =>
      if len < 0 then .error .derangedString
      else
        let tbuf := cString tbuf
        let tbuf := if separator ≠ ',' then convertCommas separator tbuf.length tbuf else tbuf
        let start := if options.updownOutput = .upAndDown ∧ separator = '\n' then ['\n'] else []
        .ok (start ++ tbuf ++ ['\n'])

/-! ### Counts -/

/-- The loop of `_log10`. -/
def log10Loop : ℕ → ℕ → ℕ → ℕ
  | 0, _, count => count
  | rounds + 1, num, count => if 0 < num / 10 then log10Loop rounds (num / 10)
    (count + 1) else count

/-- `_log10`. -/
def log10 (num : ℤ) : ℕ :=
  if 0 < num then log10Loop num.toNat num.toNat 0 else 0

/-- The width that `_create_formats` puts into both formats. -/
def formatWidth (upCount downCount : ℤ) : ℕ :=
  (if downCount < upCount then log10 upCount else log10 downCount) + 1

/-- `%d`. -/
def decimal (num : ℤ) : List Char :=
  if num < 0 then '-' :: Nat.toDigits 10 num.natAbs else Nat.toDigits 10 num.natAbs

/-- `%*d`. -/
def decimalIn (width : ℕ) (num : ℤ) : List Char :=
  List.replicate (width - (decimal num).length) ' ' ++ decimal num

/-- `upfmt` and `downfmt` of `_create_formats`, with a count put in. -/
def countText (up : Bool) (width : ℕ) (endstr : List Char) (count : ℤ) : List Char :=
  (if up then "up:   ".toList else "down: ".toList) ++ decimalIn width count ++ endstr

/-- `upfmt` and `downfmt` in front of names on lines of their own. -/
def countLine (up : Bool) (count : ℤ) : List Char :=
  (if up then "up ".toList else "down ".toList) ++ decimal count ++ [':']

/-! ### Times -/

/-- The loop of `_output_last_up_time_nodes` over the nodes that an iterator gives: the lines.
`timebuf` is the local time as `strftime` writes it. -/
def lastUpTimeLoop (timebuf : ℕ → List Char) (up : Bool) (hl : Hostlist) :
    ℕ → HostlistIterator → World → Except OutputExit (List Char × World)
  | 0, _, _ => .error (.fault .endless)
  | rounds + 1, itr, w =>
    match hostlistNext hl itr with
    | (none, _) => .ok ([], w)
    | (some node, itr) =>
      match lastUpTime (some node) w with
      | .error fault => .error (.fault fault)
      | .ok (time, w) =>
        if time = none ∧ w.handle.errnum = .notsupported then .error .timesNotSupported
        else if time = none ∧ w.handle.errnum ≠ .notfound then .error (.lastUpTime w.handle.errnum)
        else do
          let (lines, w) ← lastUpTimeLoop timebuf up hl rounds itr w
          let line := time.elim "Unknown".toList timebuf ++ ' ' :: node ++
            (if up then " UP\n".toList else " DOWN\n".toList)
          return (line ++ lines, w)

/-- `_output_last_up_time_nodes`. -/
def outputLastUpTimeNodes (timebuf : ℕ → List Char) (nodebuf : List Char) (up : Bool) (w : World) :
    Except OutputExit (List Char × World) := do
  let hl ← createListed nodebuf
  lastUpTimeLoop timebuf up hl (hl.hosts.length + 1) hostlistIteratorCreate w

/-! ### The output -/

/-- The counts that `_output_mode` prints. -/
def outputCounts (options : WhatsupOptions) (texts : NodeTexts) : List Char :=
  let width := formatWidth texts.upCount texts.downCount
  match options.updownOutput with
  | .upAndDown => countText true width ['\n'] texts.upCount ++ countText false width ['\n']
    texts.downCount
  | .upNodes => decimal texts.upCount ++ ['\n']
  | .downNodes => decimal texts.downCount ++ ['\n']

/-- The text that `_output_mode` prints in front of the nodes, if it prints both. -/
def outputCount (options : WhatsupOptions) (texts : NodeTexts) (up : Bool) : List Char :=
  let count := if up then texts.upCount else texts.downCount
  if options.outputType = .newline then countLine up count
  else countText up (formatWidth texts.upCount texts.downCount) ": ".toList count

/-- The nodes that `_output_mode` prints. -/
def outputBoth (options : WhatsupOptions) (texts : NodeTexts) : Except OutputExit (List Char) :=
  match options.updownOutput with
  | .upAndDown => do
    let upText ← outputNodes options (cString texts.upNodes)
    let downText ← outputNodes options (cString texts.downNodes)
    return outputCount options texts true ++ upText ++
      (if options.outputType = .newline then ['\n'] else []) ++
      outputCount options texts false ++ downText
  | .upNodes => outputNodes options (cString texts.upNodes)
  | .downNodes => outputNodes options (cString texts.downNodes)

/-- The text that `_output_mode` prints about the nodes. -/
def outputText (timebuf : ℕ → List Char) (options : WhatsupOptions) (texts : NodeTexts)
    (w : World) :
    Except OutputExit (List Char) :=
  if options.lastUpTime then do
    let (upText, w) ← outputLastUpTimeNodes timebuf (cString texts.upNodes) true w
    let (downText, _) ← outputLastUpTimeNodes timebuf (cString texts.downNodes) false w
    return upText ++ downText
  else if options.countOnlyOutput then .ok (outputCounts options texts)
  else outputBoth options texts

/-- `_output_mode` behind the load: the text and the exit value. -/
def outputMode (sorting : Sorting) (timebuf : ℕ → List Char) (options : WhatsupOptions)
    (w : World) :
    Except OutputExit (List Char × ℕ) := do
  let (texts, w) ← (getBothNodes sorting options.inputtedNodes w).mapError .nodes
  let text ← outputText timebuf options texts w
  return (text, exitVal texts.upCount texts.downCount options.updownOutput)

end Whatsup
