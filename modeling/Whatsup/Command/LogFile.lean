import Mathlib.Data.List.Infix
import Whatsup.Command.LogMode
import Whatsup.Common.Fd

/-!
# The log file of `whatsup`

With `--log-file` the lines of log mode go to a file, with the time in front of the node. A line is
written by `fd_write_n`, in as many parts as `write` takes, and brought to the disk by `fsync`; if
either fails, the program ends. `logModeFile_reads` says what is in the file then, or at any time:
the lines up to some point, whole, and behind them at most the start of one more line. Read back and
replayed from the first poll, they give every node of a poll the state it has there, or the one it
has at the poll behind it.
-/

set_option autoImplicit false
set_option relaxedAutoImplicit false

namespace Whatsup

open CLib

/-! ### Writing -/

/-- The log file: what is in it, how many lines have been written, and what comes of the next calls
of `write` and of `fsync`. -/
structure LogFile where
  content : List Char
  written : ℕ
  writes : List WriteEvent
  fsyncs : List Bool

/-- The text of a line without its end, with the local time as `strftime` writes it. -/
def LogLine.text (timebuf : List Char) (line : LogLine) : List Char :=
  timebuf ++ ' ' :: (line.node ++ ' ' :: (if line.up then "UP".toList else "DOWN".toList))

/-- A line is written; and whether the program goes on. -/
def LogFile.writeLine (timebuf : ℕ → List Char) (file : LogFile) (line : LogLine) :
    LogFile × Bool :=
  let written := fdWriteN (line.text (timebuf file.written) ++ ['\n']) file.writes
  match written.result with
  | .error _ => ({ file with content := file.content ++ written.sent }, false)
  | .ok writes =>
    ({ content := file.content ++ written.sent, written := file.written +
      1, writes := writes, fsyncs := file.fsyncs.tail },
      file.fsyncs.head?.getD true)

/-- The lines of a round are written, up to a failure; and whether the program goes on. -/
def LogFile.writeLines (timebuf : ℕ → List Char) : LogFile → List LogLine → LogFile × Bool
  | file, [] => (file, true)
  | file, line :: lines =>
    match file.writeLine timebuf line with
    | (file, false) => (file, false)
    | (file, true) => file.writeLines timebuf lines

/-- The rounds of `_log_mode`, on what the loads of the rounds leave behind, with a log file: the
file behind them, or when the program has ended. -/
def logModeFile (timebuf : ℕ → List Char) : Option KnownNodes → List World → LogFile → LogFile
  | _, [], file => file
  | known, w :: polls, file =>
    match logPoll known w with
    | .error _ => file
    | .ok (lines, known) =>
      match file.writeLines timebuf lines with
      | (file, false) => file
      | (file, true) => logModeFile timebuf (some known) polls file

/-! ### Reading -/

/-- A line of the log file: the last two words are the node and its state. -/
def readLogLine (text : List Char) : Option LogLine :=
  match (text.splitOn ' ').reverse with
  | state :: node :: _ =>
    if state = "UP".toList then some ⟨node, true⟩ else if state =
      "DOWN".toList then some ⟨node, false⟩ else none
  | _ => none

/-- The lines of a log file that have an end. -/
def readLog (content : List Char) : Option (List LogLine) :=
  (content.splitOn '\n').dropLast.mapM readLogLine

/-- A log file has lines, and behind them the start of one. -/
structure LogFile.Holds (file : LogFile) (lines : List LogLine) (part : List Char) : Prop where
  content_eq : ∃ texts : List (List Char), file.content = texts.flatMap (· ++ ['\n']) ++ part ∧
    (∀ text ∈ texts, '\n' ∉ text) ∧
    texts.map readLogLine = lines.map some
  part_free : '\n' ∉ part

/-- The lines that a log file has are read back. -/
theorem LogFile.Holds.readLog_eq {file : LogFile} {lines : List LogLine} {part : List Char}
    (h : file.Holds lines part) :
    readLog file.content = some lines := by
  obtain ⟨texts, hcontent, hfree, hlines⟩ := h.content_eq
  have hsplit : (texts.flatMap (· ++ ['\n']) ++ part).splitOn '\n' = texts ++ [part] := by
    clear hcontent hlines
    induction texts with
    | nil => simpa using List.splitOn_eq_singleton h.part_free
    | cons text texts ih =>
      obtain ⟨htext, htexts⟩ := List.forall_mem_cons.mp hfree
      rw [List.flatMap_cons, List.append_assoc, List.append_assoc, List.singleton_append,
        List.splitOn_append_cons_self_of_not_mem htext, ih htexts]
      rfl
  have hread : ∀ (texts : List (List Char)) (lines : List LogLine), texts.map readLogLine =
    lines.map some →
      texts.mapM readLogLine = some lines := by
    intro texts
    induction texts with
    | nil =>
      intro lines hlines
      obtain rfl := List.map_eq_nil_iff.mp hlines.symm
      rfl
    | cons text texts ih =>
      intro lines hlines
      cases lines with
      | nil => exact absurd hlines (by simp)
      | cons line lines =>
        obtain ⟨hline, hlines⟩ := List.cons.inj hlines
        rw [List.mapM_cons, hline, ih lines hlines]
        rfl
  unfold readLog
  rw [hcontent, hsplit, List.dropLast_concat]
  exact hread texts lines hlines

/-- Assumes: a node without blanks. Its line is read back. -/
theorem readLogLine_text (timebuf : List Char) {line : LogLine} (hnode : ' ' ∉ line.node) :
    readLogLine (line.text timebuf) = some line := by
  have hstate : ' ' ∉ (if line.up then "UP".toList else "DOWN".toList) := by split_ifs <;> decide
  unfold readLogLine LogLine.text
  rw [List.splitOn_append_cons_self, List.splitOn_append_cons_self_of_not_mem hnode,
    List.splitOn_eq_singleton hstate,
    List.reverse_append]
  obtain ⟨node, up⟩ := line
  cases up <;> rfl

/-! ### One line and one round -/

/-- Assumes: a log file without the start of a line. A line with its end is appended to its
lines. -/
theorem LogFile.Holds.append {file file' : LogFile} {lines : List LogLine} (h : file.Holds lines [])
    {text : List Char}
    {line : LogLine} (hcontent : file'.content = file.content ++ (text ++ ['\n']))
    (htext : '\n' ∉ text)
    (hline : readLogLine text = some line) : file'.Holds (lines ++ [line]) [] := by
  obtain ⟨texts, hold, hfree, hlines⟩ := h.content_eq
  refine ⟨⟨texts ++ [text], ?_, ?_, ?_⟩, List.not_mem_nil⟩
  · rw [hcontent, hold, List.flatMap_append, List.flatMap_singleton, List.append_nil,
      List.append_nil]
  · exact List.forall_mem_append.mpr ⟨hfree, List.forall_mem_singleton.mpr htext⟩
  · rw [List.map_append, List.map_append, hlines, List.map_singleton, List.map_singleton, hline]

/-- Assumes: a log file without the start of a line. Text without a line end is the start of a
line. -/
theorem LogFile.Holds.appendPart {file file' : LogFile} {lines : List LogLine}
    (h : file.Holds lines []) {part : List Char}
    (hcontent : file'.content = file.content ++ part) (hpart : '\n' ∉ part) :
      file'.Holds lines part := by
  obtain ⟨texts, hold, hfree, hlines⟩ := h.content_eq
  exact ⟨⟨texts, by rw [hcontent, hold, List.append_nil], hfree, hlines⟩, hpart⟩

/-- No call of `write` and of `fsync` fails. -/
structure LogFile.Unfailing (file : LogFile) : Prop where
  writes : ∀ epipe, .failed epipe ∉ file.writes
  fsyncs : false ∉ file.fsyncs

/-- A line whose node has neither blanks nor line ends. -/
structure LogLine.Plain (line : LogLine) : Prop where
  blank_free : ' ' ∉ line.node
  line_free : '\n' ∉ line.node

section

variable {timebuf : ℕ → List Char} (htime : ∀ i, '\n' ∉ timebuf i)

include htime

/-- Assumes: a plain line. Its text has no line end. -/
theorem LogLine.Plain.text_free {line : LogLine} (h : line.Plain) (i : ℕ) :
    '\n' ∉ line.text (timebuf i) := by
  unfold LogLine.text
  refine List.not_mem_append (htime i) (List.not_mem_cons_of_ne_of_not_mem (by decide) ?_)
  exact List.not_mem_append h.line_free (List.not_mem_cons_of_ne_of_not_mem (by decide)
    (by split_ifs <;> decide))

/-- Assumes: a log file without the start of a line, and a plain line. The line is there whole if
the program goes on, and otherwise whole or in part. -/
theorem LogFile.Holds.writeLine {file : LogFile} {lines : List LogLine} (h : file.Holds lines [])
    {line : LogLine} (hline : line.Plain) :
    ∃ more part, more <+: [line] ∧ (file.writeLine timebuf line).1.Holds (lines ++ more) part ∧
      ((file.writeLine timebuf line).2 = true → more = [line] ∧ part = []) := by
  have hfree := hline.text_free htime file.written
  have hwhole : ∀ {file' : LogFile}, file'.content = file.content ++
    (line.text (timebuf file.written) ++ ['\n']) →
      file'.Holds (lines ++ [line]) [] := fun hcontent ↦
    h.append hcontent hfree (readLogLine_text _ hline.blank_free)
  unfold LogFile.writeLine
  cases hresult : (fdWriteN (line.text (timebuf file.written) ++ ['\n']) file.writes).result with
  | ok writes =>
    simp only [hresult, fdWriteN_sent hresult]
    exact ⟨[line], [], List.prefix_rfl, hwhole rfl, fun _ ↦ ⟨rfl, rfl⟩⟩
  | error epipe =>
    simp only [hresult]
    rcases List.prefix_concat_iff.mp
      (fdWriteN_sends_part (line.text (timebuf file.written) ++ ['\n']) file.writes)
      with hall | hpart
    · exact ⟨[line], [], List.prefix_rfl, hwhole (congrArg (file.content ++ ·) hall), fun hgoes ↦
        absurd hgoes Bool.false_ne_true⟩
    · refine ⟨[], (fdWriteN (line.text (timebuf file.written) ++ ['\n']) file.writes).sent,
        List.nil_prefix, ?_,
        fun hgoes ↦ absurd hgoes Bool.false_ne_true⟩
      rw [List.append_nil]
      exact h.appendPart rfl fun hmem ↦ hfree (hpart.subset hmem)

/-- Assumes: a log file without the start of a line, and plain lines. They are there whole if the
program goes on, and otherwise up to one that may be there in part. -/
theorem LogFile.Holds.writeLines (newLines : List LogLine) :
    ∀ {file : LogFile} {lines : List LogLine}, file.Holds lines [] →
      (∀ line ∈ newLines, line.Plain) →
      ∃ more part, more <+: newLines ∧
        (file.writeLines timebuf newLines).1.Holds (lines ++ more) part ∧
        ((file.writeLines timebuf newLines).2 = true → more = newLines ∧ part = []) := by
  induction newLines with
  | nil =>
    intro file lines h _
    exact ⟨[], [], List.prefix_rfl, by rw [List.append_nil]; exact h, fun _ ↦ ⟨rfl, rfl⟩⟩
  | cons line rest ih =>
    intro file lines h hplain
    obtain ⟨hline, hrest⟩ := List.forall_mem_cons.mp hplain
    obtain ⟨more, part, hmore, hholds, hgoes⟩ := h.writeLine htime hline
    rw [LogFile.writeLines]
    cases hwrite : file.writeLine timebuf line with
    | mk file' continues =>
      rw [hwrite] at hholds hgoes
      cases continues with
      | false => exact ⟨more, part, hmore.trans (List.prefix_append [line] rest), hholds, fun h ↦
        absurd h Bool.false_ne_true⟩
      | true =>
        obtain ⟨rfl, rfl⟩ := hgoes rfl
        obtain ⟨later, part', hlater, hholds', hgoes'⟩ := ih hholds hrest
        refine ⟨line :: later, part', List.cons_prefix_cons.mpr ⟨rfl, hlater⟩, ?_,
          fun hcontinues ↦ ?_⟩
        · rwa [List.append_assoc, List.singleton_append] at hholds'
        · obtain ⟨rfl, rfl⟩ := hgoes' hcontinues
          exact ⟨rfl, rfl⟩

end

/-- Assumes: calls none of which fails. The program goes on behind a line. -/
theorem LogFile.Unfailing.writeLine {file : LogFile} (h : file.Unfailing) (timebuf : ℕ → List Char)
    (line : LogLine) :
    (file.writeLine timebuf line).2 = true ∧ (file.writeLine timebuf line).1.Unfailing := by
  obtain ⟨rest, hrest, hsuffix⟩ :=
    exists_fdWriteN (line.text (timebuf file.written) ++ ['\n']) h.writes
  unfold LogFile.writeLine
  simp only [hrest]
  refine ⟨?_, fun epipe hmem ↦ h.writes epipe (hsuffix.subset hmem), fun hmem ↦
    h.fsyncs (List.mem_of_mem_tail hmem)⟩
  cases hfsyncs : file.fsyncs with
  | nil => rfl
  | cons fsync fsyncs =>
    cases fsync with
    | false => exact absurd (hfsyncs ▸ List.mem_cons_self) h.fsyncs
    | true => rfl

/-- Assumes: calls none of which fails. The program goes on behind a round. -/
theorem LogFile.Unfailing.writeLines (timebuf : ℕ → List Char) (newLines : List LogLine) :
    ∀ {file : LogFile}, file.Unfailing →
      (file.writeLines timebuf newLines).2 = true ∧
      (file.writeLines timebuf newLines).1.Unfailing := by
  induction newLines with
  | nil => exact fun h ↦ ⟨rfl, h⟩
  | cons line rest ih =>
    intro file h
    obtain ⟨hgoes, hnext⟩ := h.writeLine timebuf line
    rw [LogFile.writeLines]
    cases hwrite : file.writeLine timebuf line with
    | mk file' continues =>
      rw [hwrite] at hgoes hnext
      obtain rfl : continues = true := hgoes
      exact ih hnext

/-! ### Runs -/

/-- States that have come as far as one of a sequence of polls: every node of that poll has the
state that the poll gives it, or the state that the poll behind it gives. -/
def Reached (states : NodeStates) (polls : List Poll) : Prop :=
  ∃ k before, polls[k]? = some before ∧ ∀ up, ∀ node ∈ (before.nodes up).hosts,
    states node = some up ∨ ∃ after up', polls[k + 1]? = some after ∧
      node ∈ (after.nodes up').hosts ∧ states node = some up'

/-- Assumes: states that agree with the first of some polls. They have come as far as that. -/
theorem reached_of_agrees {states : NodeStates} {poll : Poll} {polls : List Poll}
    (h : Agrees states poll) :
    Reached states (poll :: polls) :=
  ⟨0, poll, rfl, fun up node hnode ↦ Or.inl (h up node hnode)⟩

/-- Assumes: states that have come as far as one of some polls. They have so with another poll in
front. -/
theorem Reached.cons {states : NodeStates} {polls : List Poll} (h : Reached states polls)
    (poll : Poll) :
    Reached states (poll :: polls) := by
  obtain ⟨k, before, hbefore, hnodes⟩ := h
  exact ⟨k + 1, before, hbefore, hnodes⟩

/-- Assumes: states that agree with a poll, and some of the lines of the next one. Behind them the
states have come as far as the poll. -/
theorem reached_of_prefix {states : NodeStates} {previous poll : Poll} {polls : List Poll}
    (h : Agrees states previous)
    {lines : List LogLine}
    (hlines : lines <+: poll.newLines previous true ++ poll.newLines previous false) :
    Reached (replay states lines) (previous :: poll :: polls) := by
  have hpoll : ∀ line ∈ lines, line.node ∈ (poll.nodes line.up).hosts := by
    intro line hline
    obtain ⟨up, hmem⟩ : ∃ up, line ∈ poll.newLines previous up :=
      (List.mem_append.mp (hlines.subset hline)).elim (fun h ↦ ⟨true, h⟩) fun h ↦ ⟨false, h⟩
    obtain ⟨rfl, hnode, -⟩ := Poll.mem_newLines.mp hmem
    exact hnode
  refine ⟨0, previous, rfl, fun up node hnode ↦ ?_⟩
  by_cases hnamed : ∃ line ∈ lines, line.node = node
  · obtain ⟨line, hline, rfl⟩ := hnamed
    refine Or.inr ⟨poll, line.up, rfl, hpoll line hline,
      replay_of_mem lines states (fun other hother hsame ↦ ?_) ⟨line, hline, rfl⟩⟩
    exact Poll.up_eq (hsame ▸ hpoll other hother) (hpoll line hline)
  · rw [replay_of_notMem lines states fun line hline hsame ↦ hnamed ⟨line, hline, hsame⟩]
    exact Or.inl (h up node hnode)

/-- A poll whose nodes can stand in a log file. -/
structure Poll.Loggable (poll : Poll) : Prop where
  fits : poll.FitsNames
  line_free : ∀ up, ∀ name ∈ (poll.nodes up).hosts, '\n' ∉ name

/-- The lines for the new nodes of a poll that can stand in a log file are plain. -/
theorem Poll.Loggable.plain {poll : Poll} (h : poll.Loggable) (previous : Poll) :
    ∀ line ∈ poll.newLines previous true ++ poll.newLines previous false, line.Plain := by
  intro line hline
  obtain ⟨up, hmem⟩ : ∃ up, line ∈ poll.newLines previous up :=
    (List.mem_append.mp hline).elim (fun h ↦ ⟨true, h⟩) fun h ↦ ⟨false, h⟩
  obtain ⟨rfl, hnode, -⟩ := Poll.mem_newLines.mp hmem
  refine ⟨fun hblank ↦ ?_, h.line_free _ _ hnode⟩
  have hsep := (((poll.filled line.up).plain line.node hnode).plain ' ' hblank).1
  exact absurd hsep (by decide)

section

variable {timebuf : ℕ → List Char} (htime : ∀ i, '\n' ∉ timebuf i)

include htime

/-- Assumes: lists of a poll before and states that agree with it, and a log file without the start
of a line. Behind any polls the file has some more lines and at most the start of one, and with them
the states have come as far as one of the polls. If no call fails and all polls are accepted, they
agree with the last one. -/
theorem logModeFile_follows (polls : List Poll) :
    ∀ {known : KnownNodes} {previous : Poll} {states : NodeStates} {lines : List LogLine}
      {file : LogFile},
      known.Stands previous → Agrees (replay states lines) previous →
      (∀ poll ∈ polls, poll.Loggable) → file.Holds lines [] →
      ∃ more part, (logModeFile timebuf (some known) (polls.map Poll.world) file).Holds (lines ++
        more) part ∧
        Reached (replay states (lines ++ more)) (previous :: polls) ∧
        (file.Unfailing → (∀ poll ∈ polls, poll.Accepted) → part = [] ∧
          Agrees (replay states (lines ++ more))
            ((previous :: polls).getLast (List.cons_ne_nil _ _))) := by
  induction polls with
  | nil =>
    intro known previous states lines file _ hagrees _ hholds
    refine ⟨[], [], ?_, ?_, fun _ _ ↦ ⟨rfl, ?_⟩⟩
    · rwa [List.append_nil]
    · rw [List.append_nil]
      exact reached_of_agrees hagrees
    · rwa [List.append_nil]
  | cons poll polls ih =>
    intro known previous states lines file hstands hagrees hloggable hholds
    obtain ⟨hpoll, hpolls⟩ := List.forall_mem_cons.mp hloggable
    rw [List.map_cons, logModeFile]
    cases hround : logPoll (some known) poll.world with
    | error exit =>
      refine ⟨[], [], ?_, ?_, fun _ haccepted ↦ ?_⟩
      · rwa [List.append_nil]
      · rw [List.append_nil]
        exact reached_of_agrees hagrees
      · obtain ⟨newLines, new, hrun⟩ :=
          (exists_logPoll_iff fun lists hlists ↦ ⟨previous, Option.some.inj hlists ▸ hstands⟩).mpr
          (haccepted poll List.mem_cons_self)
        exact absurd (hround.symm.trans hrun) (by simp)
    | ok result =>
      obtain ⟨newLines, new⟩ := result
      have hnew := stands_of_logPoll hround
      obtain rfl : poll.newLines previous true ++ poll.newLines previous false = newLines :=
        Except.ok.inj ((linesFor_eq hstands hnew hpoll.fits).symm.trans (logPoll_eq_ok.mp hround).2)
      obtain ⟨more, part, hmore, hholds', hgoes⟩ := hholds.writeLines htime _ (hpoll.plain previous)
      simp only
      cases hwrite :
          file.writeLines timebuf (poll.newLines previous true ++ poll.newLines previous false) with
      | mk file' continues =>
        rw [hwrite] at hholds' hgoes
        cases continues with
        | false =>
          refine ⟨more, part, hholds', ?_, fun hunfailing ↦ ?_⟩
          · rw [replay_append]
            exact reached_of_prefix hagrees hmore
          · have hcontinues :=
              (hunfailing.writeLines timebuf (poll.newLines previous true ++
              poll.newLines previous false)).1
            exact absurd (hcontinues.symm.trans (congrArg Prod.snd hwrite)) Bool.false_ne_true.symm
        | true =>
          obtain ⟨rfl, rfl⟩ := hgoes rfl
          have hagrees' :
              Agrees (replay states
              (lines ++ (poll.newLines previous true ++ poll.newLines previous false))) poll := by
            rw [replay_append]
            exact replay_newLines hagrees poll
          obtain ⟨later, part, hlater, hreached, hlast⟩ := ih hnew hagrees' hpolls hholds'
          rw [List.append_assoc] at hlater hreached hlast
          refine ⟨_, part, hlater, hreached.cons previous, fun hunfailing haccepted ↦ ?_⟩
          have hunfailing' :=
            (hunfailing.writeLines timebuf (poll.newLines previous true ++
            poll.newLines previous false)).2
          rw [hwrite] at hunfailing'
          exact hlast hunfailing' (List.forall_mem_cons.mp haccepted).2

end

/-- Assumes: a run of log mode with a new log file, in which every poll loads disjoint lists of
bracket-free names of at most 64 characters without line ends, none with a numeric suffix of more
than 14, whatever comes of the calls of `write` and `fsync`. The lines of the file that have an end
are read back, and replayed from the first poll they have come as far as one of the polls. If no
call fails and the texts of all polls fit and are accepted, the file has whole lines only, and they
give the states of the last poll. -/
theorem logModeFile_reads {first : Poll} {polls : List Poll}
    (hloggable : ∀ poll ∈ first :: polls, poll.Loggable)
    {timebuf : ℕ → List Char} (htime : ∀ i, '\n' ∉ timebuf i) {file : LogFile}
    (hnew : file.content = []) :
    ∃ lines part,
      (logModeFile timebuf none ((first :: polls).map Poll.world) file).Holds lines part ∧
      readLog (logModeFile timebuf none ((first :: polls).map Poll.world) file).content =
        some lines ∧
      Reached (replay first.states lines) (first :: polls) ∧
      (file.Unfailing → (∀ poll ∈ first :: polls, poll.Accepted) → part = [] ∧
        Agrees (replay first.states lines) ((first :: polls).getLast (List.cons_ne_nil _ _))) := by
  have hempty : file.Holds [] [] :=
    ⟨⟨[], by rw [hnew]; rfl, fun text htext ↦ absurd htext List.not_mem_nil, rfl⟩, List.not_mem_nil⟩
  rw [List.map_cons, logModeFile]
  cases hround : logPoll none first.world with
  | error exit =>
    refine ⟨[], [], hempty, hempty.readLog_eq, reached_of_agrees (agrees_states first),
      fun _ haccepted ↦ ?_⟩
    have hnone : ∀ lists ∈ (none : Option KnownNodes), ∃ previous,
        KnownNodes.Stands lists previous := fun lists hlists ↦
      absurd hlists (by simp)
    obtain ⟨newLines, new, hrun⟩ :=
      (exists_logPoll_iff hnone).mpr (haccepted first List.mem_cons_self)
    exact absurd (hround.symm.trans hrun) (by simp)
  | ok result =>
    obtain ⟨newLines, known⟩ := result
    obtain rfl : [] = newLines := Except.ok.inj (logPoll_eq_ok.mp hround).2
    have hagrees : Agrees (replay first.states []) first := agrees_states first
    obtain ⟨lines, part, hholds, hreached, hlast⟩ :=
      logModeFile_follows htime polls (stands_of_logPoll hround) hagrees
      (List.forall_mem_cons.mp hloggable).2 hempty
    exact ⟨lines, part, hholds, hholds.readLog_eq, hreached, fun hunfailing haccepted ↦
      hlast hunfailing (List.forall_mem_cons.mp haccepted).2⟩

/-- A new log file, of which a write takes a part and is interrupted, and the next one fails. -/
def brokenFile : LogFile :=
  { content := [], written := 0, writes := [.wrote 5, .interrupted, .failed false], fsyncs := [] }

/-- The node `n07` goes down while the log file cannot be written. -/
theorem logModeFile_reads_broken :
    ∃ lines part,
      (logModeFile (fun _ ↦ "2010/02/02 00:01:59".toList) none
      ([shortPolls.1, shortPolls.2].map Poll.world)
        brokenFile).Holds lines part ∧
      readLog (logModeFile (fun _ ↦ "2010/02/02 00:01:59".toList) none
        ([shortPolls.1, shortPolls.2].map Poll.world)
        brokenFile).content = some lines ∧
      Reached (replay shortPolls.1.states lines) [shortPolls.1, shortPolls.2] ∧
      (brokenFile.Unfailing → (∀ poll ∈ [shortPolls.1, shortPolls.2], poll.Accepted) → part = [] ∧
        Agrees (replay shortPolls.1.states lines)
          ([shortPolls.1, shortPolls.2].getLast (List.cons_ne_nil _ _))) :=
  logModeFile_reads
    (List.forall_mem_cons.mpr ⟨⟨fun up ↦ by cases up <;> decide, fun up ↦ by cases up <;> decide⟩,
      List.forall_mem_singleton.mpr
      ⟨fun up ↦ by cases up <;> decide, fun up ↦ by cases up <;> decide⟩⟩)
    (fun _ ↦ by decide) rfl

end Whatsup
