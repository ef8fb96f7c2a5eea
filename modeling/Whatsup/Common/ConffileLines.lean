import Whatsup.Common.Conffile

/-!
# The logical lines of a configuration file

`logicalLines` gives the logical lines that `_readline` makes of the physical lines of a file, and
at its end the error that stops it, if there is one; `conffileLoop_eq` says that the loop of
`conffile_parse` goes through them.

A continuation is a backslash, blanks and a line end. `logicalLines_continued` says that
continuations in a line leave the logical lines as they are, as long as every physical line has room
in the buffer, alone and with what it continues. `conffileParse_continued` says what follows for a
whole parse.
-/

set_option autoImplicit false
set_option relaxedAutoImplicit false

namespace Whatsup

open CLib

/-! ### Logical lines -/

/-- What there is of the next logical line behind a physical line, for what there is of this one. -/
def conffilePending (linebuf buf : List Char) : List Char :=
  if (conffileTrim (linebuf ++ buf)).getLast? =
    some '\\' then (conffileTrim (linebuf ++ buf)).dropLast else []

/-- The logical lines of a file with these physical lines, for what there is of the first of
them. -/
def logicalLines : List Char → List (List Char) → List (Except ConffileErr (List Char))
  | linebuf, [] => if linebuf = [] then [] else [.ok linebuf]
  | linebuf, buf :: lines =>
    if 32767 ≤ buf.length ∨ 32768 ≤ buf.length + linebuf.length then [.error .parseOverflowLinelen]
    else if conffileTrim (linebuf ++ buf) = [] then logicalLines [] lines
    else if (conffileTrim (linebuf ++ buf)).getLast? = some '\\' then
      logicalLines (conffileTrim (linebuf ++ buf)).dropLast lines
    else .ok (conffileTrim (linebuf ++ buf)) :: logicalLines [] lines

/-- What is read is the first logical line, up to the end of the file if that ends it. -/
theorem conffileReadline_lines :
    ∀ {lines : List (List Char)} (linebuf : List Char) {events : List ReadEvent}, fileLines events =
      (lines, false) →
      (∃ errnum, conffileReadline linebuf events = .error errnum ∧ logicalLines linebuf lines =
        [.error errnum]) ∨
      (∃ line, conffileReadline linebuf events = .ok (line, true, []) ∧
        logicalLines linebuf lines = if line = [] then [] else [.ok line]) ∨
      ∃ line rest behind, conffileReadline linebuf events = .ok (line, false, rest) ∧ line ≠ [] ∧
        fileLines rest = (behind, false) ∧ behind.length < lines.length ∧
        logicalLines linebuf lines = .ok line :: logicalLines [] behind := by
  intro lines
  induction lines with
  | nil =>
    intro linebuf events h
    exact Or.inr (Or.inl ⟨linebuf, conffileReadline_eq (fdReadLine_eof h 32767), rfl⟩)
  | cons buf lines ih =>
    intro linebuf events h
    rw [logicalLines]
    have hfailed : .failed ∉ events := fun hmem ↦ by
      have htrue := (fileLines_failed events).mpr hmem
      rw [h] at htrue
      exact absurd htrue (by simp)
    by_cases hlong : 32767 ≤ buf.length
    · obtain ⟨⟨piece, rest⟩, hread⟩ := exists_fdReadLine hfailed 32767
      have hpiece := fdReadLine_full (by simp [h]) (by simpa [h] using hlong) hread
      refine Or.inl ⟨.parseOverflowLinelen, ?_, if_pos (Or.inl hlong)⟩
      rw [conffileReadline_eq hread, if_neg (List.ne_nil_of_length_pos (by omega)),
        if_pos hpiece.ge]
    · obtain ⟨rest, hread, hrest⟩ := fdReadLine_first h (not_le.mp hlong)
      rw [conffileReadline_eq hread, if_neg (ne_nil_of_fileLines h), if_neg hlong]
      by_cases hroom : 32768 ≤ buf.length + linebuf.length
      · rw [if_pos hroom, if_pos (Or.inr hroom)]
        exact Or.inl ⟨_, rfl, rfl⟩
      · rw [if_neg hroom, if_neg (not_or.mpr ⟨hlong, hroom⟩)]
        split_ifs with hblank hescape
        · rcases ih [] hrest with hfails | hend | ⟨line, rest', behind, hline, hne, hbehind,
            hshorter, hlines⟩
          · exact Or.inl hfails
          · exact Or.inr (Or.inl hend)
          · exact Or.inr (Or.inr ⟨line, rest', behind, hline, hne, hbehind,
              hshorter.trans (Nat.lt_succ_self _), hlines⟩)
        · rcases ih (conffileTrim (linebuf ++ buf)).dropLast hrest with
            hfails | hend | ⟨line, rest', behind, hline, hne, hbehind, hshorter, hlines⟩
          · exact Or.inl hfails
          · exact Or.inr (Or.inl hend)
          · exact Or.inr (Or.inr ⟨line, rest', behind, hline, hne, hbehind,
              hshorter.trans (Nat.lt_succ_self _), hlines⟩)
        · exact Or.inr (Or.inr ⟨_, rest, lines, rfl, hblank, hrest, Nat.lt_succ_self _, rfl⟩)

/-- Assumes: a file in which a read fails. A line that is read before that is not the last. -/
theorem conffileReadline_failed {linebuf line : List Char} {events rest : List ReadEvent}
    {endOfFile : Bool}
    (h : .failed ∈ events) (hread : conffileReadline linebuf events = .ok (line, endOfFile, rest)) :
    line ≠ [] ∧ endOfFile = false ∧ .failed ∈ rest := by
  induction hsize : events.length using Nat.strong_induction_on generalizing linebuf events with
  | _ size ih =>
    cases hpiece : fdReadLine 32767 events with
    | none =>
      rw [conffileReadline] at hread
      split at hread
      · exact absurd hread (by simp)
      · exact absurd (hpiece.symm.trans ‹_›) (by simp)
    | some result =>
      obtain ⟨buf, behind⟩ := result
      obtain ⟨hbuf, hbehind⟩ := failed_mem_of_fdReadLine h hpiece
      have hlength := fdReadLine_length hpiece
      have hpos := List.length_pos_of_ne_nil hbuf
      rw [conffileReadline_eq hpiece, if_neg hbuf] at hread
      split_ifs at hread with _ _ hblank
      · exact ih behind.length (by omega) hbehind hread rfl
      · exact ih behind.length (by omega) hbehind hread rfl
      · obtain ⟨rfl, hrest⟩ := Prod.mk.inj (Except.ok.inj hread)
        obtain ⟨rfl, rfl⟩ := Prod.mk.inj hrest
        exact ⟨hblank, rfl, hbehind⟩

section Doubles

variable {D : Type} [Zero D] (strtod : List Char → D × Bool × List Char)

/-- Parsing logical lines, up to an error. -/
def parseLines (cf : Conffile D) : List (Except ConffileErr (List Char)) → ConffileState D →
    ConffileState D × Bool
  | [], st => (st, true)
  | .error errnum :: _, st => st.fail errnum
  | .ok line :: lines, st =>
    if (conffileParseline strtod cf line st).2 = false then conffileParseline strtod cf line st
    else parseLines cf lines (conffileParseline strtod cf line st).1

theorem conffileLoop_error {cf : Conffile D} {events : List ReadEvent} {errnum : ConffileErr}
    (h : conffileReadline [] events = .error errnum) (st : ConffileState D) :
    conffileLoop strtod cf events st = st.fail errnum := by
  rw [conffileLoop]
  split
  · rw [Except.error.inj (h.symm.trans ‹_›)]
  · exact absurd (h.symm.trans ‹_›) (by simp)

theorem conffileLoop_ok {cf : Conffile D} {events rest : List ReadEvent} {line : List Char}
    {endOfFile : Bool}
    (h : conffileReadline [] events = .ok (line, endOfFile, rest)) (st : ConffileState D) :
    conffileLoop strtod cf events st =
      if line = [] then (st, true)
      else if (conffileParseline strtod cf line st).2 =
        false then conffileParseline strtod cf line st
      else if endOfFile then conffileParseline strtod cf line st
      else conffileLoop strtod cf rest (conffileParseline strtod cf line st).1 := by
  rw [conffileLoop]
  split
  · exact absurd (h.symm.trans ‹_›) (by simp)
  · obtain ⟨rfl, hrest⟩ := Prod.mk.inj (Except.ok.inj (h.symm.trans ‹_›))
    obtain ⟨rfl, rfl⟩ := Prod.mk.inj hrest
    rfl

/-- Assumes: a file that is read without a failure. The loop of `conffile_parse` parses its logical
lines. -/
theorem conffileLoop_eq (cf : Conffile D) :
    ∀ {events : List ReadEvent} (st : ConffileState D) {lines : List (List Char)},
      fileLines events = (lines, false) →
      conffileLoop strtod cf events st = parseLines strtod cf (logicalLines [] lines) st := by
  intro events st lines h
  induction hsize : lines.length using Nat.strong_induction_on generalizing lines events st with
  | _ size ih =>
    rcases conffileReadline_lines [] h with
      ⟨errnum, hread, hlines⟩ | ⟨line, hread, hlines⟩ | ⟨line, rest, behind, hread, hne, hbehind,
        hshorter, hlines⟩
    · rw [conffileLoop_error strtod hread, hlines, parseLines]
    · rw [conffileLoop_ok strtod hread, hlines]
      by_cases hnil : line = []
      · rw [if_pos hnil, if_pos hnil]
        rfl
      · rw [if_neg hnil, if_neg hnil, parseLines, if_pos rfl]
        split_ifs with hparse
        · rfl
        · exact Prod.ext rfl ((Bool.not_eq_false _).mp hparse)
    · rw [conffileLoop_ok strtod hread, hlines, if_neg hne, parseLines]
      by_cases hparse : (conffileParseline strtod cf line st).2 = false
      · rw [if_pos hparse, if_pos hparse]
      · rw [if_neg hparse, if_neg hparse, if_neg Bool.false_ne_true]
        exact ih behind.length (hsize ▸ hshorter) _ hbehind rfl

/-- Assumes: a file in which a read fails. The loop does not come to its end. -/
theorem conffileLoop_failed (cf : Conffile D) {events : List ReadEvent} (h : .failed ∈ events)
    (st : ConffileState D) :
    (conffileLoop strtod cf events st).2 = false := by
  induction hsize : events.length using Nat.strong_induction_on generalizing events st with
  | _ size ih =>
    cases hread : conffileReadline [] events with
    | error errnum =>
      rw [conffileLoop_error strtod hread]
      rfl
    | ok result =>
      obtain ⟨line, endOfFile, rest⟩ := result
      obtain ⟨hline, rfl, hrest⟩ := conffileReadline_failed h hread
      have hlength := conffileReadline_length hread
      have hpos := List.length_pos_of_ne_nil hline
      rw [List.length_nil, Nat.zero_add] at hlength
      rw [conffileLoop_ok strtod hread, if_neg hline, if_neg Bool.false_ne_true]
      split_ifs with hparse
      · exact hparse
      · exact ih rest.length (by omega) hrest _ rfl

/-- The checks of `conffile_parse` pass. -/
def Conffile.Legitimate (cf : Conffile D) : Prop :=
  cf.options ≠ [] ∧ cf.options.all (·.legitimate) ∧ cf.flags &&& ~~~1 &&& ~~~2 = 0

instance (cf : Conffile D) : Decidable cf.Legitimate :=
  inferInstanceAs (Decidable (_ ∧ _ ∧ _))

/-- Assumes: arguments that pass the checks, and a file that is read without a failure. -/
theorem conffileParse_eq {cf : Conffile D} (hcf : cf.Legitimate) {events : List ReadEvent}
    {text : List Char}
    (hevents : Delivers events text) (st : ConffileState D) :
    conffileParse strtod (some 0x0a1b2c3d) cf (.opened events) st =
      if (parseLines strtod cf (logicalLines [] (textLines text)) (st.setup cf)).2 then
        (parseLines strtod cf (logicalLines [] (textLines text)) (st.setup cf)).1.finish cf
      else (-1, (parseLines strtod cf (logicalLines [] (textLines text)) (st.setup cf)).1) := by
  have hlines : fileLines events = (textLines text, false) := by
    rw [fileLines_text events hevents.text.1, hevents.text.2]
  have hrejected : ¬(cf.options = [] ∨ ¬cf.options.all (·.legitimate) ∨ cf.flags &&& ~~~1 &&& ~~~2 ≠
      0) := fun h ↦
    h.elim hcf.1 fun h ↦ h.elim (fun h ↦ h hcf.2.1) fun h ↦ h hcf.2.2
  unfold conffileParse
  rw [if_neg (not_not.mpr rfl), if_neg hrejected]
  simp only
  rw [conffileLoop_eq strtod cf _ hlines]

/-- Parsing goes on alike behind the same lines. -/
theorem parseLines_append_congr (cf : Conffile D) (items : List (Except ConffileErr (List Char)))
    {lines lines' : List (Except ConffileErr (List Char))}
    (h : ∀ st, parseLines strtod cf lines st = parseLines strtod cf lines' st)
    (st : ConffileState D) :
    parseLines strtod cf (items ++ lines) st = parseLines strtod cf (items ++ lines') st := by
  induction items generalizing st with
  | nil => exact h st
  | cons item items ih =>
    cases item with
    | error errnum => rfl
    | ok line =>
      rw [List.cons_append, List.cons_append, parseLines, parseLines]
      split_ifs
      · rfl
      · exact ih _

/-- Blanks behind a line do not matter to it. -/
theorem conffileParseline_trailing (cf : Conffile D) (linebuf : List Char) (st : ConffileState D) :
    conffileParseline strtod cf (conffileRemoveTrailingWhitespace linebuf) st =
      conffileParseline strtod cf linebuf st := by
  unfold conffileParseline conffileRemoveTrailingWhitespace
  rw [List.rdropWhile_idempotent]

theorem conffileParseline_blank (cf : Conffile D) {linebuf : List Char}
    (h : conffileRemoveTrailingWhitespace linebuf = []) (st : ConffileState D) :
    conffileParseline strtod cf linebuf st = (st, true) := by
  unfold conffileParseline
  rw [h]
  rfl

end Doubles

/-! ### Continuations -/

/-- A part of a line with a backslash, blanks and a line end behind it. -/
def continued (part : List Char × List Char) : List Char :=
  part.1 ++ '\\' :: (part.2 ++ ['\n'])

/-- The buffer has room for the parts of a line that are continued, alone and with what there is of
the line. -/
def ContinuedFit : List Char → List (List Char × List Char) → Prop
  | _, [] => True
  | linebuf, part :: parts =>
    (continued part).length < 32767 ∧ (continued part).length + linebuf.length < 32768 ∧
      ContinuedFit (linebuf ++ part.1) parts

instance decidableContinuedFit :
    ∀ (linebuf : List Char) (parts : List (List Char × List Char)),
      Decidable (ContinuedFit linebuf parts)
  | _, [] => isTrue trivial
  | linebuf, part :: parts =>
    have := decidableContinuedFit (linebuf ++ part.1) parts
    inferInstanceAs (Decidable (_ ∧ _ ∧ _))

/-- What there is of the logical line behind a text that ends with a line end. -/
def pendingLine (before : List Char) : List Char :=
  (textLines before).foldl conffilePending []

/-- A text that no comment is taken from keeps that if it is cut, or continued. -/
theorem conffileRemoveComments_cut {previousIsEscape : Bool} {text rest : List Char}
    (h : conffileRemoveComments previousIsEscape (text ++ rest) = text ++ rest) :
    conffileRemoveComments previousIsEscape text = text ∧
      conffileRemoveComments previousIsEscape (text ++ ['\\']) = text ++ ['\\'] := by
  induction text generalizing previousIsEscape with
  | nil =>
    refine ⟨rfl, ?_⟩
    cases previousIsEscape <;> rfl
  | cons c text ih =>
    rw [List.cons_append, conffileRemoveComments] at h
    rw [List.cons_append, conffileRemoveComments, conffileRemoveComments]
    split_ifs at h ⊢ with hescape hcomment
    · obtain ⟨hcut, hcontinued⟩ := ih (List.cons.inj h).2
      exact ⟨congrArg (c :: ·) hcut, congrArg (c :: ·) hcontinued⟩
    · obtain ⟨hcut, hcontinued⟩ := ih (List.cons.inj h).2
      exact ⟨congrArg (c :: ·) hcut, congrArg (c :: ·) hcontinued⟩

theorem rdropWhile_append_blanks (text : List Char) {blanks : List Char}
    (h : ∀ c ∈ blanks, isSpace c = true) :
    (text ++ blanks).rdropWhile isSpace = text.rdropWhile isSpace := by
  induction blanks using List.reverseRecOn with
  | nil => rw [List.append_nil]
  | append_singleton blanks c ih =>
    rw [← List.append_assoc, List.rdropWhile_concat_pos _ _ _ (h c (by simp))]
    exact ih fun d hd ↦ h d (by simp [hd])

/-- Assumes: a text without a comment, and blanks. A continuation behind the text leaves the text
and its backslash. -/
theorem conffileTrim_continued {linebuf : List Char} {part : List Char × List Char}
    (hcomment : conffileRemoveComments false (linebuf ++ part.1 ++ ['\\']) = linebuf ++
      part.1 ++ ['\\'])
    (hblanks : ∀ c ∈ part.2, isSpace c = true) :
    conffileTrim (linebuf ++ continued part) = linebuf ++ part.1 ++ ['\\'] := by
  have hsplit : linebuf ++ continued part = linebuf ++ part.1 ++ ['\\'] ++ (part.2 ++ ['\n']) := by
    simp [continued]
  have hspace : ∀ c ∈ part.2 ++ ['\n'], isSpace c = true := fun c hmem ↦ by
    rcases List.mem_append.mp hmem with hmem | hmem
    · exact hblanks c hmem
    · rw [List.mem_singleton.mp hmem]
      rfl
  have htrailing : (linebuf ++ part.1 ++ ['\\']).rdropWhile isSpace = linebuf ++ part.1 ++ ['\\'] :=
    List.rdropWhile_concat_neg _ _ _ (by decide)
  unfold conffileTrim conffileRemoveTrailingWhitespace
  rw [hsplit, rdropWhile_append_blanks _ hspace, htrailing, hcomment, htrailing]

/-- Assumes: a line without a comment, and parts of it with room. Continuations behind the parts
leave the logical lines as they are. -/
theorem logicalLines_continued (parts : List (List Char × List Char)) :
    ∀ {linebuf last : List Char} (lines : List (List Char)),
      conffileRemoveComments false (linebuf ++ (parts.flatMap Prod.fst ++ last)) =
        linebuf ++ (parts.flatMap Prod.fst ++ last) →
      (∀ part ∈ parts, ∀ c ∈ part.2, isSpace c = true) → ContinuedFit linebuf parts →
      logicalLines linebuf (parts.map continued ++ lines) =
        logicalLines (linebuf ++ parts.flatMap Prod.fst) lines := by
  induction parts with
  | nil =>
    intro linebuf last lines _ _ _
    rw [List.flatMap_nil, List.append_nil]
    rfl
  | cons part parts ih =>
    intro linebuf last lines hcomment hblanks hfit
    obtain ⟨hpart, hblanks⟩ := List.forall_mem_cons.mp hblanks
    obtain ⟨halone, hjoined, hfit⟩ := hfit
    rw [List.flatMap_cons, List.append_assoc, ← List.append_assoc linebuf] at hcomment
    have htrim := conffileTrim_continued (conffileRemoveComments_cut hcomment).2 hpart
    rw [List.map_cons, List.cons_append, logicalLines, htrim, if_neg (by omega), if_neg (by simp),
      if_pos (by simp), List.dropLast_concat, ih lines hcomment hblanks hfit, List.flatMap_cons,
        List.append_assoc]

/-- What there is of a line is not longer than what is read. -/
theorem conffilePending_length (linebuf buf : List Char) :
    (conffilePending linebuf buf).length ≤ linebuf.length + buf.length := by
  have htrim := conffileTrim_length (linebuf ++ buf)
  rw [List.length_append] at htrim
  unfold conffilePending
  split_ifs
  · rw [List.length_dropLast]
    omega
  · exact Nat.zero_le _

/-- Assumes: physical lines with room in the buffer, all together. The logical lines go on from what
there is behind them. -/
theorem logicalLines_append (lines : List (List Char)) :
    ∀ (linebuf : List Char), linebuf.length + lines.flatten.length < 32767 →
      (lines.foldl conffilePending linebuf).length ≤ linebuf.length + lines.flatten.length ∧
      ∃ items, ∀ behind, logicalLines linebuf (lines ++ behind) =
        items ++ logicalLines (lines.foldl conffilePending linebuf) behind := by
  induction lines with
  | nil => exact fun _ _ ↦ ⟨Nat.le_add_right _ _, [], fun _ ↦ rfl⟩
  | cons buf lines ih =>
    intro linebuf hsize
    rw [List.flatten_cons, List.length_append] at hsize ⊢
    have hpending := conffilePending_length linebuf buf
    obtain ⟨hlength, items, hitems⟩ := ih (conffilePending linebuf buf) (by omega)
    have hroom : ¬(32767 ≤ buf.length ∨ 32768 ≤ buf.length + linebuf.length) := by omega
    rw [List.foldl_cons]
    refine ⟨by omega, ?_⟩
    by_cases hblank : conffileTrim (linebuf ++ buf) = []
    · refine ⟨items, fun behind ↦ ?_⟩
      rw [List.cons_append, logicalLines, if_neg hroom, if_pos hblank, ← hitems,
        conffilePending, hblank]
      rfl
    · by_cases hescape : (conffileTrim (linebuf ++ buf)).getLast? = some '\\'
      · refine ⟨items, fun behind ↦ ?_⟩
        rw [List.cons_append, logicalLines, if_neg hroom, if_neg hblank, if_pos hescape, ← hitems,
          conffilePending,
          if_pos hescape]
      · refine ⟨.ok (conffileTrim (linebuf ++ buf)) :: items, fun behind ↦ ?_⟩
        rw [List.cons_append, logicalLines, if_neg hroom, if_neg hblank, if_neg hescape,
          List.cons_append, ← hitems,
          conffilePending, if_neg hescape]

/-- The physical lines of a text whose parts are continued. -/
theorem textLines_continued (parts : List (List Char × List Char)) (text : List Char)
    (hparts : ∀ part ∈ parts, '\n' ∉ part.1 ∧ '\n' ∉ part.2) :
    textLines (parts.flatMap continued ++ text) = parts.map continued ++ textLines text := by
  induction parts with
  | nil => rfl
  | cons part parts ih =>
    obtain ⟨⟨hpart, hblanks⟩, hparts⟩ := List.forall_mem_cons.mp hparts
    have hline : '\n' ∉ part.1 ++ '\\' :: part.2 := by simp [hpart, hblanks]
    have hsplit : continued part = part.1 ++ '\\' :: part.2 ++ ['\n'] := by simp [continued]
    rw [List.flatMap_cons, List.map_cons, List.append_assoc, List.cons_append, ← ih hparts, hsplit,
      List.append_assoc,
      List.singleton_append, textLines_append_newline hline]

section Doubles

variable {D : Type} [Zero D] (strtod : List Char → D × Bool × List Char)

/-- Assumes: two files that are read, and whose logical lines parse alike from every state. So do
the files. -/
theorem conffileParse_congr (magic : Option ℕ) (cf : Conffile D) {events events' : List ReadEvent}
    {text text' : List Char} (hevents : Delivers events text) (hevents' : Delivers events' text')
    (h : ∀ st, parseLines strtod cf (logicalLines [] (textLines text)) st =
      parseLines strtod cf (logicalLines [] (textLines text')) st) (st : ConffileState D) :
    conffileParse strtod magic cf (.opened events) st =
      conffileParse strtod magic cf (.opened events') st := by
  have hlines : fileLines events = (textLines text, false) := by
    rw [fileLines_text events hevents.text.1, hevents.text.2]
  have hlines' : fileLines events' = (textLines text', false) := by
    rw [fileLines_text events' hevents'.text.1, hevents'.text.2]
  unfold conffileParse
  simp only
  rw [conffileLoop_eq strtod cf _ hlines, conffileLoop_eq strtod cf _ hlines', h]

/-- Two physical lines with room, that give the same with what they continue. -/
theorem logicalLines_joined {linebuf linebuf' buf buf' : List Char}
    (h : linebuf ++ buf = linebuf' ++ buf')
    (hsize : linebuf.length + buf.length < 32767) (lines : List (List Char)) :
    logicalLines linebuf (buf :: lines) = logicalLines linebuf' (buf' :: lines) := by
  have hlength := congrArg List.length h
  rw [List.length_append, List.length_append] at hlength
  have hroom : ¬(32767 ≤ buf.length ∨ 32768 ≤ buf.length + linebuf.length) := by omega
  have hroom' : ¬(32767 ≤ buf'.length ∨ 32768 ≤ buf'.length + linebuf'.length) := by omega
  rw [logicalLines, logicalLines, if_neg hroom, if_neg hroom', h]

/-- Assumes: a text without a comment that does not end with a backslash and blanks. At the end of
the file it parses alike whether it is read as a line or what there is of a line. -/
theorem parseLines_end (cf : Conffile D) {linebuf line : List Char}
    (hcomment : conffileRemoveComments false (linebuf ++ line) = linebuf ++ line)
    (hescape : ((linebuf ++ line).rdropWhile isSpace).getLast? ≠ some '\\')
    (hsize : linebuf.length + line.length < 32767) (st : ConffileState D) :
    parseLines strtod cf (logicalLines (linebuf ++ line) []) st =
      parseLines strtod cf (logicalLines linebuf [line]) st := by
  have htrim : conffileTrim (linebuf ++ line) =
      conffileRemoveTrailingWhitespace (linebuf ++ line) := by
    obtain ⟨rest, hrest⟩ := List.rdropWhile_prefix isSpace (linebuf ++ line)
    rw [← hrest] at hcomment
    unfold conffileTrim conffileRemoveTrailingWhitespace
    rw [(conffileRemoveComments_cut hcomment).1, List.rdropWhile_idempotent]
  have hroom : ¬(32767 ≤ line.length ∨ 32768 ≤ line.length + linebuf.length) := by omega
  rw [logicalLines, logicalLines, if_neg hroom, htrim]
  by_cases hblank : conffileRemoveTrailingWhitespace (linebuf ++ line) = []
  · rw [if_pos hblank]
    split_ifs
    · rfl
    · rw [parseLines, conffileParseline_blank strtod cf hblank]
      rfl
  · have hne : linebuf ++ line ≠ [] := fun hnil ↦ hblank (by rw [hnil]; rfl)
    have hescape' : ¬(conffileRemoveTrailingWhitespace (linebuf ++ line)).getLast? = some '\\' :=
      hescape
    rw [if_neg hblank, if_neg hescape', if_neg hne, show logicalLines [] [] = [] from rfl]
    simp only [parseLines, conffileParseline_trailing]

/-- Assumes: a line without a comment whose last character that is no blank, with what it continues,
is no backslash, and its parts but the last, with room to be continued. The line and its continued
parts parse alike. -/
theorem parseLines_continued (cf : Conffile D) {linebuf line last tail : List Char}
    {parts : List (List Char × List Char)}
    (hline : '\n' ∉ line) (htail : tail = [] ∨ tail.head? = some '\n')
    (hparts : line = parts.flatMap Prod.fst ++ last)
    (hblanks : ∀ part ∈ parts, ∀ c ∈ part.2, isSpace c = true)
    (hcomment : conffileRemoveComments false (linebuf ++ line) = linebuf ++ line)
    (hescape : ((linebuf ++ line).rdropWhile isSpace).getLast? ≠ some '\\')
    (hsize : linebuf.length + line.length + tail.length < 32767) (hfit : ContinuedFit linebuf parts)
    (st : ConffileState D) :
    parseLines strtod cf
        (logicalLines linebuf (parts.map continued ++ textLines (last ++ tail))) st =
      parseLines strtod cf (logicalLines linebuf (textLines (line ++ tail))) st := by
  subst hparts
  rw [logicalLines_continued parts _ hcomment hblanks hfit]
  generalize parts.flatMap Prod.fst = front at *
  rw [List.length_append] at hsize
  obtain ⟨hfront, hlast⟩ := not_or.mp (mt List.mem_append.mpr hline)
  rcases htail with rfl | htail
  · rw [List.append_nil, List.append_nil, textLines_line hlast, textLines_line hline]
    by_cases hnil : last = []
    · subst hnil
      rw [List.append_nil] at hcomment hescape ⊢
      rw [if_pos rfl]
      split_ifs with hfrontNil
      · rw [hfrontNil, List.append_nil]
      · exact parseLines_end strtod cf hcomment hescape (by omega) st
    · rw [if_neg hnil, if_neg (by simp [hnil]),
        logicalLines_joined (List.append_assoc linebuf front last) ?_]
      rw [List.length_append]
      exact (Nat.add_assoc _ _ _).trans_lt (Nat.lt_of_le_of_lt (Nat.le_add_right _ _) hsize)
  · obtain ⟨after, rfl⟩ := List.head?_eq_some_iff.mp htail
    have hjoined : linebuf ++ front ++ (last ++ ['\n']) = linebuf ++ (front ++ last ++ ['\n']) := by
      simp
    rw [textLines_append_newline hlast, textLines_append_newline hline,
      logicalLines_joined hjoined ?_]
    simp only [List.length_append, List.length_cons, List.length_nil] at hsize ⊢
    omega

/-- Assumes: a line of a file shorter than 32767 bytes, without a comment, whose last character that
is no blank, with what it continues, is no backslash, and parts of the line with room to be
continued. The file with continuations behind the parts parses alike. -/
theorem conffileParse_continued (magic : Option ℕ) (cf : Conffile D)
    (before line last tail : List Char)
    (parts : List (List Char × List Char)) {events events' : List ReadEvent}
    (hbefore : before = [] ∨ before.getLast? = some '\n') (hline : '\n' ∉ line)
    (htail : tail = [] ∨ tail.head? = some '\n') (hparts : line = parts.flatMap Prod.fst ++ last)
    (hblanks : ∀ part ∈ parts, ∀ c ∈ part.2, isSpace c = true ∧ c ≠ '\n')
    (hcomment : conffileRemoveComments false (pendingLine before ++ line) =
      pendingLine before ++ line)
    (hescape : ((pendingLine before ++ line).rdropWhile isSpace).getLast? ≠ some '\\')
    (hsize : (before ++ line ++ tail).length < 32767)
    (hfit : ContinuedFit (pendingLine before) parts)
    (hevents : Delivers events (before ++ line ++ tail))
    (hevents' : Delivers events' (before ++ (parts.flatMap continued ++ (last ++ tail))))
    (st : ConffileState D) :
    conffileParse strtod magic cf (.opened events') st =
      conffileParse strtod magic cf (.opened events) st := by
  refine conffileParse_congr strtod magic cf hevents' hevents (fun st ↦ ?_) st
  have hpart : ∀ part ∈ parts, '\n' ∉ part.1 ∧ '\n' ∉ part.2 := fun part hmem ↦
    ⟨fun hnewline ↦
      hline (hparts ▸ List.mem_append_left _ (List.mem_flatMap.mpr ⟨part, hmem, hnewline⟩)),
      fun hnewline ↦ (hblanks part hmem _ hnewline).2 rfl⟩
  rw [List.append_assoc, textLines_append hbefore, textLines_append hbefore,
    textLines_continued _ _ hpart]
  have hflatten := textLines_flatten before
  simp only [List.length_append] at hsize
  obtain ⟨hlength, items, hitems⟩ := logicalLines_append (textLines before) [] (by
    rw [hflatten, List.length_nil]
    omega)
  rw [hflatten, List.length_nil] at hlength
  rw [hitems, hitems]
  refine parseLines_append_congr strtod cf items (fun st ↦ ?_) st
  refine parseLines_continued strtod cf hline htail hparts (fun part hmem c hc ↦
    (hblanks part hmem c hc).1) hcomment
    hescape ?_ hfit st
  have hpending : (pendingLine before).length ≤ before.length := by
    rwa [Nat.zero_add] at hlength
  omega

end Doubles

/-- A file whose only line is a name to be ignored. -/
def ignoringConffile : Conffile ℤ :=
  ⟨[⟨some "a".toList, .ignore, 0, none, 0, 0, none, none, 0⟩], none, 0, 0⟩

/-- A file with a name to be ignored, and one whose strings go to a callback, at most two of
them. -/
def callingConffile : Conffile ℤ :=
  ⟨[⟨some "names".toList, .ignore, 0, none, 0, 0, none, none, 0⟩,
    ⟨some "a".toList, .string, 0, some fun calls ↦ (if calls.length ≤ 2 then 0 else -1, none), 0, 0,
      some 0, none, 7⟩],
    none, 0, 0⟩

/-- A line that is continued inside an escape pair of a quoted argument, and at its end: the
callback is given the same string. -/
theorem conffileParse_continued_pair :
    conffileParse (fun _ ↦ ((0 : ℤ), false, [])) (some 0x0a1b2c3d) callingConffile
        (.opened ("# names\na \"x\\\\  \n\" y\"\\\n\n".toList.map .byte))
          ⟨.success, fun _ ↦ 0, []⟩ =
      conffileParse (fun _ ↦ ((0 : ℤ), false, [])) (some 0x0a1b2c3d) callingConffile
        (.opened ("# names\na \"x\\\" y\"\n".toList.map .byte)) ⟨.success, fun _ ↦ 0, []⟩ :=
  conffileParse_continued (fun _ ↦ ((0 : ℤ), false, [])) (some 0x0a1b2c3d) callingConffile
    "# names\n".toList "a \"x\\\" y\"".toList [] "\n".toList
    [("a \"x\\".toList, "  ".toList), ("\" y\"".toList, [])] (Or.inr (by decide)) (by decide)
    (Or.inr (by decide)) (by decide) (by simp [isSpace]) (by decide) (by decide)
      (by decide) (by decide)
    (delivers_map_byte _) (delivers_map_byte _) ⟨.success, fun _ ↦ 0, []⟩

/-- As many blanks behind a backslash as the buffer has room for: the parse fails. -/
theorem conffileParse_overflow :
    ¬ ∀ (strtod : List Char → ℤ × Bool × List Char) (magic : Option ℕ) (cf : Conffile ℤ)
      (before line last tail : List Char)
      (parts : List (List Char × List Char)) (events events' : List ReadEvent)
      (st : ConffileState ℤ),
      before = [] ∨ before.getLast? = some '\n' → '\n' ∉ line → tail = [] ∨ tail.head? = some '\n' →
      line = parts.flatMap Prod.fst ++ last →
      (∀ part ∈ parts, ∀ c ∈ part.2, isSpace c = true ∧ c ≠ '\n') →
      conffileRemoveComments false (pendingLine before ++ line) = pendingLine before ++ line →
      ((pendingLine before ++ line).rdropWhile isSpace).getLast? ≠ some '\\' →
      (before ++ line ++ tail).length < 32767 → Delivers events (before ++ line ++ tail) →
      Delivers events' (before ++ (parts.flatMap continued ++ (last ++ tail))) →
      conffileParse strtod magic cf (.opened events') st =
        conffileParse strtod magic cf (.opened events) st := by
  intro h
  obtain ⟨blanks, hlength, hblanks⟩ : ∃ blanks : List Char, 32767 ≤ blanks.length ∧
      ∀ c ∈ blanks, isSpace c = true ∧ c ≠ '\n' := by
    refine ⟨List.replicate 32767 ' ', List.length_replicate.ge, fun c hmem ↦ ?_⟩
    rw [List.eq_of_mem_replicate hmem]
    exact ⟨rfl, by decide⟩
  have hlines : logicalLines [] (textLines ([("a".toList, blanks)].flatMap continued ++ [])) =
      [.error .parseOverflowLinelen] := by
    rw [textLines_continued _ _ (by simpa using fun hmem ↦ (hblanks _ hmem).2 rfl)]
    refine if_pos (Or.inl (hlength.trans ?_))
    simp only [continued, List.length_append, List.length_cons]
    omega
  have hlong := conffileParse_eq (fun _ ↦ (0, false, []))
    (show ignoringConffile.Legitimate by decide)
    (delivers_map_byte ([("a".toList, blanks)].flatMap continued ++ [])) ⟨.success, fun _ ↦ 0, []⟩
  have hshort := conffileParse_eq (fun _ ↦ (0, false, []))
    (show ignoringConffile.Legitimate by decide)
    (delivers_map_byte "a".toList) ⟨.success, fun _ ↦ 0, []⟩
  have halike := h (fun _ ↦ (0, false, [])) (some 0x0a1b2c3d) ignoringConffile [] "a".toList [] []
    [("a".toList, blanks)] ("a".toList.map .byte) _ ⟨.success, fun _ ↦ 0, []⟩
      (Or.inl rfl) (by decide)
    (Or.inl rfl) (by simp) (by simpa using hblanks) (by decide) (by decide) (by decide)
      (delivers_map_byte _)
    (delivers_map_byte _)
  rw [hlines] at hlong
  exact absurd (congrArg Prod.fst (hlong.symm.trans (halike.trans hshort))) (by decide)

end Whatsup
