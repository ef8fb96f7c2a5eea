import Whatsup.Nodeupdown.HostsfileLines

/-!
# The hostsfile clusterlist module of pingd

`pingd_clusterlist_hostsfile.c` has its own copies of the functions that libnodeupdown reads a
hostsfile with. They differ in the size of the buffer, in what becomes of a blank or malformed line
(pingd exits), and behind the loop, where pingd tells a failure from the end of the file.

`pingdLine_eq` says that both make the same of a line, `readPingdHostsfile_eq` what comes of the
lines of a file that fit, and `hostsfileSetup_alike` that both reject a file or take the same hosts
from it.
-/

set_option autoImplicit false
set_option relaxedAutoImplicit false

namespace Whatsup

open CLib

/-! ### Reading the file -/

/-- pingd's `_readline`. A descriptor that is zero is an invalid parameter. -/
def pingdReadline (fd : ℤ) (buflen : ℕ) (events : List ReadEvent) :
    Option (List Char × List ReadEvent) :=
  if fd ≤ 0 ∨ buflen = 0 then none else readline buflen events

/-- pingd's `_remove_comments`. -/
def pingdRemoveComments (buf : List Char) : List Char :=
  removeComments buf

/-- pingd's `_remove_trailing_whitespace`. -/
def pingdRemoveTrailingWhitespace (buf : List Char) : List Char :=
  removeTrailingWhitespace buf

/-- pingd's `_move_past_whitespace`, which moves to the end of a blank string. -/
def pingdMovePastWhitespace (buf : List Char) : List Char :=
  (cString buf).dropWhile isSpace

/-- The loop body of `hostsfile_setup`, for a line that was read. -/
def pingdLine (maxhostnamelen : ℕ) (line : List Char) : HostsfileLine :=
  let buf := pingdRemoveComments line
  if buf = [] then .blank
  else
    let buf := pingdRemoveTrailingWhitespace buf
    if buf = [] then .blank
    else
      let hostPtr := pingdMovePastWhitespace buf
      if hostPtr = [] then .blank
      else if ' ' ∈ hostPtr ∨ '\t' ∈ hostPtr then .malformed
      else if maxhostnamelen < hostPtr.length then .malformed
      else .host (hostPtr.takeWhile (· ≠ '.'))

/-- What `hostsfile_setup` comes to: pingd exits, or its value and the list `hosts` behind it. -/
inductive PingdSetup
  | exits
  | returns (value : ℤ) (hosts : Option (List (List Char)))
deriving DecidableEq

/-- A line is shorter than the file. -/
theorem readline_shorter {buflen : ℕ} {events rest : List ReadEvent} {line : List Char}
    (h : readline buflen events = some (line, rest)) (hline : line ≠ []) : rest.length <
      events.length := by
  unfold readline at h
  split at h
  · exact absurd h (by simp)
  · rename_i hread
    split_ifs at h
    obtain ⟨rfl, rfl⟩ := Prod.mk.inj (Option.some.inj h)
    have hlength := fdReadLine_length hread
    have hpos := List.length_pos_of_ne_nil hline
    omega

/-- The loop of `hostsfile_setup`, with what follows it, for the hosts that have been appended. -/
def readPingdHostsfile (maxhostnamelen : ℕ) (fd : ℤ) (buflen : ℕ) (hosts : List (List Char))
    (events : List ReadEvent) :
    PingdSetup :=
  match _hread : pingdReadline fd buflen events with
  | none => .returns (-1) none
  | some (line, rest) =>
    if _hline : line = [] then .returns 0 (some hosts)
    else
      match pingdLine maxhostnamelen line with
      | .blank => readPingdHostsfile maxhostnamelen fd buflen hosts rest
      | .malformed => .exits
      | .host name => readPingdHostsfile maxhostnamelen fd buflen (hosts ++ [name]) rest
termination_by events.length
decreasing_by
  all_goals
    unfold pingdReadline at _hread
    split_ifs at _hread
    exact readline_shorter _hread _hline

/-- `hostsfile_setup`, for the list `hosts` and what comes of opening the file: a failure, or a
descriptor and its reads. -/
def hostsfileSetup (maxhostnamelen : ℕ) (hosts : Option (List (List Char)))
    (opened : Option (ℤ × List ReadEvent)) :
    PingdSetup :=
  match hosts with
  | some hosts => .returns 0 (some hosts)
  | none =>
    match opened with
    | none => .exits
    | some (fd, events) => readPingdHostsfile maxhostnamelen fd 4096 [] events

/-! ### Both copies -/

/-- With room for 64 characters of a name both make the same of a line. -/
theorem pingdLine_eq (line : List Char) : pingdLine 64 line = hostsfileLine line := by
  unfold pingdLine hostsfileLine pingdRemoveComments pingdRemoveTrailingWhitespace
    pingdMovePastWhitespace movePastWhitespace
  by_cases hcomment : removeComments line = []
  · simp [hcomment, removeTrailingWhitespace, cString]
  · by_cases hblank : removeTrailingWhitespace (removeComments line) = []
    · simp [hcomment, hblank, cString]
    · simp only [hcomment, hblank, if_false]
      split_ifs <;> simp_all

theorem readPingdHostsfile_some {maxhostnamelen buflen : ℕ} {fd : ℤ} {events rest : List ReadEvent}
    {line : List Char}
    (h : pingdReadline fd buflen events = some (line, rest)) (hosts : List (List Char)) :
    readPingdHostsfile maxhostnamelen fd buflen hosts events =
      if line = [] then .returns 0 (some hosts)
      else
        match pingdLine maxhostnamelen line with
        | .blank => readPingdHostsfile maxhostnamelen fd buflen hosts rest
        | .malformed => .exits
        | .host name => readPingdHostsfile maxhostnamelen fd buflen (hosts ++ [name]) rest := by
  rw [readPingdHostsfile]
  split
  · exact absurd (h.symm.trans ‹_›) (by simp)
  · obtain ⟨rfl, rfl⟩ := Prod.mk.inj (Option.some.inj (h.symm.trans ‹_›))
    rfl

/-- Assumes: a descriptor above zero, no read that fails, and lines that fit. pingd exits if a line
is malformed, and takes the hosts of the lines otherwise. -/
theorem readPingdHostsfile_eq {fd : ℤ} (hfd : 0 < fd) (room : ℕ) :
    ∀ {lines hosts : List (List Char)} {events : List ReadEvent}, fileLines events =
      (lines, false) →
      (∀ line ∈ lines, line.length < room + 1) →
      readPingdHostsfile 64 fd (room + 2) hosts events =
        if ∃ line ∈ lines, hostsfileLine line = .malformed then .exits
        else .returns 0 (some (hosts ++ lines.filterMap lineHost)) := by
  have hreadline : ∀ events, pingdReadline fd (room + 2) events = readline (room + 2) events :=
      fun events ↦
    if_neg (not_or.mpr ⟨not_le.mpr hfd, by omega⟩)
  intro lines
  induction lines with
  | nil =>
    intro hosts events h _
    rw [readPingdHostsfile_some ((hreadline events).trans (readline_eof h room))]
    simp
  | cons line lines ih =>
    intro hosts events h hfits
    obtain ⟨hline, hfits⟩ := List.forall_mem_cons.mp hfits
    obtain ⟨rest, hread, hrest⟩ := readline_first h hline
    rw [readPingdHostsfile_some ((hreadline events).trans hread), if_neg (ne_nil_of_fileLines h),
      pingdLine_eq]
    cases hcase : hostsfileLine line with
    | blank => simp [ih hrest hfits, hcase, lineHost]
    | malformed => simp [hcase]
    | host name => simp [ih hrest hfits, hcase, lineHost]

/-- A descriptor that is zero makes pingd reject any file. -/
theorem hostsfileSetup_zero (maxhostnamelen : ℕ) (events : List ReadEvent) :
    hostsfileSetup maxhostnamelen none (some (0, events)) = .returns (-1) none := by
  rw [hostsfileSetup, readPingdHostsfile]
  split
  · rfl
  · rename_i hread
    exact absurd hread (by simp [pingdReadline])

/-- Assumes: reads that give the text of a file to both, whose lines with their ends are shorter
than 4095 characters, and a descriptor above zero. Either both reject the file, or both take the
same hosts from it. -/
theorem hostsfileSetup_alike {text : List Char} {events events' : List ReadEvent} {fd : ℤ}
    (hevents : Delivers events text)
    (hevents' : Delivers events' text) (hlines : ∀ line ∈ textLines text, line.length < 4095)
    (hfd : 0 < fd)
    (env : LoadEnv) (w : World) :
    ∃ value w', hostsfileClusterlistSetup { env with hostsfile := .opened events } w =
      .ok (value, w') ∧
      ((value = none ∧ hostsfileSetup 64 none (some (fd, events')) = .exits) ∨
        ∃ hosts, value = some () ∧ w'.lib.hosts = some hosts ∧
          hostsfileSetup 64 none (some (fd, events')) = .returns 0 (some hosts)) := by
  have hfile : fileLines events = (textLines text, false) := by
    rw [fileLines_text events hevents.text.1, hevents.text.2]
  have hfile' : fileLines events' = (textLines text, false) := by
    rw [fileLines_text events' hevents'.text.1, hevents'.text.2]
  have hpingd : hostsfileSetup 64 none (some (fd, events')) =
      if ∃ line ∈ textLines text, hostsfileLine line = .malformed then .exits
      else .returns 0 (some ((textLines text).filterMap lineHost)) :=
    readPingdHostsfile_eq hfd 4094 hfile' hlines
  obtain ⟨w', hrun, hlib⟩ := hostsfileClusterlistSetup_opened env w events
  rw [readHostsfile_eq_loadLines 65534 hfile] at hrun hlib
  have hvalue := loadLines_value 65535 false (textLines text)
  have hhosts := loadLines_hosts 65535 false (textLines text)
  rw [fitting_eq_self fun line hmem ↦ (hlines line hmem).trans (by decide)] at hvalue hhosts
  refine ⟨_, w', hrun, ?_⟩
  by_cases hmalformed : ∃ line ∈ textLines text, hostsfileLine line = .malformed
  · rw [if_pos (hvalue.mpr hmalformed), hpingd, if_pos hmalformed]
    exact Or.inl ⟨rfl, rfl⟩
  · have hpositive := mt hvalue.mp hmalformed
    rw [if_neg hpositive, hpingd, if_neg hmalformed]
    exact Or.inr ⟨_, rfl, hlib.trans (congrArg some (hhosts hpositive)), rfl⟩

/-- A file with a comment, a dotted name, and no end of the last line. -/
theorem hostsfileSetup_alike_dotted :
    ∃ value w',
      hostsfileClusterlistSetup { plainEnv (plainBackend fun _ _ ↦ ⟨[], ⟨0, none⟩⟩) none with
          hostsfile := .opened ("# nodes\nn1.site\nn2".toList.map .byte) } startWorld =
            .ok (value, w') ∧
      ((value = none ∧ hostsfileSetup 64 none (some (3, "# nodes\nn1.site\nn2".toList.map .byte)) =
        .exits) ∨
        ∃ hosts, value = some () ∧ w'.lib.hosts = some hosts ∧
          hostsfileSetup 64 none (some (3, "# nodes\nn1.site\nn2".toList.map .byte)) =
              .returns 0 (some hosts)) :=
  hostsfileSetup_alike (delivers_map_byte _) (delivers_map_byte _) (by decide) (by decide) _ _

end Whatsup
