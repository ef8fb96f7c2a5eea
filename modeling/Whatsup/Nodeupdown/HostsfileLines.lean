import Whatsup.Common.Lines
import Whatsup.Nodeupdown.LoadedLists

/-!
# What the hostsfile clusterlist loads

`readHostsfile_eq_loadLines` describes the loop of `hostsfile_clusterlist_setup` by the lines of the
file, and `loadLines_hosts` and `loadLines_value` what comes of them: the hosts of the lines up to
the first that does not fit in the buffer, and a failure if one of these is malformed. The loop ends
alike at the end of the file, at a line that is too long and where a read fails, so that a file is
loaded completely or not at all (`SetupComplete`) exactly if it can be read to its end, or has a
malformed line before the place where reading ends (`setupComplete_iff`).
-/

set_option autoImplicit false
set_option relaxedAutoImplicit false

namespace Whatsup

open CLib

/-! ### Lines -/

/-- The short form of the host in a line of the hostsfile, if there is one. -/
def lineHost (line : List Char) : Option (List Char) :=
  match hostsfileLine line with
  | .host name => some name
  | .blank => none
  | .malformed => none

/-- Assumes: a line without a NUL. It is taken up to a comment and without the blanks around it,
must not have a space or a tab or more than 64 characters then, and is cut at its first dot. -/
theorem hostsfileLine_eq {line text : List Char} (hline : '\x00' ∉ line)
    (htext : text = ((line.takeWhile (· ≠ '#')).rdropWhile isSpace).dropWhile isSpace) :
    hostsfileLine line =
      if text = [] then .blank
      else if ' ' ∈ text ∨ '\t' ∈ text ∨ 64 < text.length then .malformed
      else .host (text.takeWhile (· ≠ '.')) := by
  have hcomments : removeComments line = line.takeWhile (· ≠ '#') := by
    rw [removeComments, cString, takeWhile_ne_eq_self hline]
    split_ifs with hmem
    · rfl
    · exact (takeWhile_ne_eq_self hmem).symm
  have hstart : removeTrailingWhitespace (removeComments line) <+: line := by
    rw [hcomments]
    exact (List.rdropWhile_prefix isSpace _).trans (List.takeWhile_prefix _)
  have hstring : cString (removeTrailingWhitespace (removeComments line)) =
      removeTrailingWhitespace (removeComments line) :=
    takeWhile_ne_eq_self fun hmem ↦ hline (hstart.subset hmem)
  rw [hostsfileLine, movePastWhitespace, hstring, hcomments, removeTrailingWhitespace, ← htext]
  by_cases hblank : text = []
  · rw [if_pos hblank, if_pos hblank]
  · rw [if_neg hblank, if_neg hblank]
    by_cases hspace : ' ' ∈ text ∨ '\t' ∈ text
    · simp only
      rw [if_pos hspace, if_pos (hspace.imp_right Or.inl)]
    · simp only
      rw [if_neg hspace]
      by_cases hlong : 64 < text.length
      · rw [if_pos hlong, if_pos (Or.inr (Or.inr hlong))]
      · rw [if_neg hlong, if_neg fun h ↦ h.elim (hspace ∘ Or.inl) fun h ↦
          h.elim (hspace ∘ Or.inr) hlong]

/-! ### The file -/

/-- What comes of the lines of a hostsfile, in a buffer with room for less than so many characters,
if a read fails or not behind the last of them. -/
def loadLines (room : ℕ) (failed : Bool) : List (List Char) → HostsfileRead
  | [] => ⟨[], 0, failed⟩
  | line :: lines =>
    if room ≤ line.length then ⟨[], 0, true⟩
    else
      match hostsfileLine line with
      | .blank => loadLines room failed lines
      | .malformed => ⟨[], -1, true⟩
      | .host name =>
        { loadLines room failed lines with hosts := name :: (loadLines room failed lines).hosts }

/-- At the end of the file an empty line is read. -/
theorem readline_eof {events : List ReadEvent} (h : fileLines events = ([], false)) (room : ℕ) :
    readline (room + 2) events = some ([], []) := by
  have hread : fdReadLine (room + 2 - 1) events = some ([], []) := fdReadLine_eof h (room + 1)
  rw [readline, hread]
  exact if_neg (by simp)

theorem readline_first {events : List ReadEvent} {line : List Char} {lines : List (List Char)}
    {failed : Bool} {room : ℕ}
    (h : fileLines events = (line :: lines, failed)) (hroom : line.length < room + 1) :
    ∃ rest, readline (room + 2) events = some (line, rest) ∧ fileLines rest = (lines, failed) := by
  obtain ⟨rest, hread, hrest⟩ := fdReadLine_first h (show line.length < room + 2 - 1 from hroom)
  refine ⟨rest, ?_, hrest⟩
  rw [readline, hread]
  exact if_neg (not_le.mpr hroom)

theorem readline_full {events : List ReadEvent} {room : ℕ} (h : fileLines events ≠ ([], false))
    (hroom : ∀ line ∈ (fileLines events).1.head?, room + 1 ≤ line.length) :
      readline (room + 2) events = none := by
  unfold readline
  cases hread : fdReadLine (room + 2 - 1) events with
  | none => rfl
  | some result => exact if_pos (fdReadLine_full h hroom hread).ge

theorem readHostsfile_none {buflen : ℕ} {events : List ReadEvent}
    (h : readline buflen events = none) :
    readHostsfile buflen events = ⟨[], 0, true⟩ := by
  rw [readHostsfile]
  split <;> simp_all

theorem readHostsfile_some {buflen : ℕ} {events rest : List ReadEvent} {line : List Char}
    (h : readline buflen events = some (line, rest)) :
    readHostsfile buflen events =
      if line = [] then ⟨[], 0, false⟩
      else
        match hostsfileLine line with
        | .blank => readHostsfile buflen rest
        | .malformed => ⟨[], -1, true⟩
        | .host name =>
            { readHostsfile buflen rest with hosts := name :: (readHostsfile buflen rest).hosts } :=
            by
  rw [readHostsfile]
  split
  · exact absurd (h.symm.trans ‹_›) (by simp)
  · obtain ⟨rfl, rfl⟩ := Prod.mk.inj (Option.some.inj (h.symm.trans ‹_›))
    rfl

/-- The loop reads the file line by line. -/
theorem readHostsfile_eq_loadLines (room : ℕ) :
    ∀ {lines : List (List Char)} {failed : Bool} {events : List ReadEvent}, fileLines events =
      (lines, failed) →
      readHostsfile (room + 2) events = loadLines (room + 1) failed lines := by
  intro lines
  induction lines with
  | nil =>
    intro failed events h
    cases failed with
    | false => exact readHostsfile_some (readline_eof h room)
    | true => exact readHostsfile_none (readline_full (by simp [h]) (by simp [h]))
  | cons line lines ih =>
    intro failed events h
    rw [loadLines]
    split_ifs with hroom
    · exact readHostsfile_none (readline_full (by simp [h]) (by simpa [h] using hroom))
    · obtain ⟨rest, hread, hrest⟩ := readline_first h (not_le.mp hroom)
      rw [readHostsfile_some hread, if_neg (ne_nil_of_fileLines h), ih hrest]

/-- The lines in front of the first that does not fit in a buffer with room for less than so many
characters. -/
def fitting (room : ℕ) (lines : List (List Char)) : List (List Char) :=
  lines.takeWhile (·.length < room)

theorem fitting_cons {room : ℕ} (line : List Char) (lines : List (List Char)) :
    fitting room (line :: lines) = if room ≤ line.length then [] else line ::
      fitting room lines := by
  unfold fitting
  split_ifs with hroom
  · exact List.takeWhile_cons_of_neg (by simpa using hroom)
  · exact List.takeWhile_cons_of_pos (by simpa using hroom)

theorem fitting_eq_self {room : ℕ} {lines : List (List Char)}
    (h : ∀ line ∈ lines, line.length < room) :
    fitting room lines = lines :=
  List.takeWhile_eq_self_iff.mpr fun line hmem ↦ decide_eq_true (h line hmem)

/-- The value is negative exactly if a line is malformed that stands in front of the first one that
does not fit. -/
theorem loadLines_value (room : ℕ) (failed : Bool) (lines : List (List Char)) :
    (loadLines room failed lines).value < 0 ↔ ∃ line ∈ fitting room lines, hostsfileLine line =
      .malformed := by
  fun_induction loadLines room failed lines with
  | case1 => simp [fitting]
  | case2 line lines hroom => simp [fitting_cons, hroom]
  | case3 line lines hroom hline ih => simp [fitting_cons, hroom, ih, hline]
  | case4 line lines hroom hline => simp [fitting_cons, hroom, hline]
  | case5 line lines hroom name hline _ ih =>
    rw [fitting_cons, if_neg hroom, List.exists_mem_cons_iff, ← ih]
    exact (or_iff_right (by simp [hline])).symm

/-- Otherwise the hosts of the lines in front of that one are loaded. -/
theorem loadLines_hosts (room : ℕ) (failed : Bool) (lines : List (List Char))
    (h : ¬ (loadLines room failed lines).value < 0) :
    (loadLines room failed lines).hosts = (fitting room lines).filterMap lineHost := by
  fun_induction loadLines room failed lines with
  | case1 => rfl
  | case2 line lines hroom => simp [fitting_cons, hroom]
  | case3 line lines hroom hline ih =>
    rw [fitting_cons, if_neg hroom, List.filterMap_cons_none (by rw [lineHost, hline])]
    exact ih h
  | case4 line lines hroom hline => exact absurd (by simp) h
  | case5 line lines hroom name hline _ ih =>
    rw [fitting_cons, if_neg hroom, List.filterMap_cons_some (show lineHost line = some name by
      rw [lineHost, hline])]
    exact congrArg (name :: ·) (ih h)

/-! ### Completely or not at all -/

/-- For a hostsfile with these reads, the setup gives the hosts of every line of the file, in order,
if it succeeds, and fails if a read fails, a line is too long for the buffer, or a line is
malformed. -/
def SetupComplete (env : LoadEnv) (w : World) (events : List ReadEvent) : Prop :=
  ∀ value w', hostsfileClusterlistSetup { env with hostsfile := .opened events } w =
    .ok (value, w') →
    (value = some () → w'.lib.hosts = some ((textLines (fileText events)).filterMap lineHost)) ∧
      ((.failed ∈ events ∨
        ∃ line ∈ textLines (fileText events), 65535 ≤ line.length ∨
          hostsfileLine line = .malformed) → value = none)

theorem hostsfileClusterlistSetup_opened (env : LoadEnv) (w : World) (events : List ReadEvent) :
    ∃ w', hostsfileClusterlistSetup { env with hostsfile := .opened events } w =
        .ok (if (readHostsfile 65536 events).value < 0 then none else some (), w') ∧
      w'.lib.hosts = some (readHostsfile 65536 events).hosts := by
  unfold hostsfileClusterlistSetup
  simp only
  split_ifs <;> exact ⟨_, rfl, rfl⟩

/-- A hostsfile is loaded completely or not at all exactly if no read fails and every line fits in
the buffer, or a malformed line stands in front of every place where reading could end. -/
theorem setupComplete_iff (env : LoadEnv) (w : World) (events : List ReadEvent) :
    SetupComplete env w events ↔
      (.failed ∉ events ∧ ∀ line ∈ textLines (fileText events), line.length < 65535) ∨
        ∃ line ∈ fitting 65535 (fileLines events).1, hostsfileLine line = .malformed := by
  have hread : readHostsfile 65536 events =
      loadLines 65535 (fileLines events).2 (fileLines events).1 :=
    readHostsfile_eq_loadLines 65534 rfl
  have hvalue := loadLines_value 65535 (fileLines events).2 (fileLines events).1
  have hhosts := loadLines_hosts 65535 (fileLines events).2 (fileLines events).1
  obtain ⟨w', hrun, hlib⟩ := hostsfileClusterlistSetup_opened env w events
  rw [← hread] at hvalue hhosts
  constructor
  · intro hcomplete
    by_cases hnegative : (readHostsfile 65536 events).value < 0
    · exact Or.inr (hvalue.mp hnegative)
    · obtain ⟨-, hfails⟩ := hcomplete _ w' hrun
      rw [if_neg hnegative] at hfails
      refine Or.inl ⟨fun hfailed ↦ absurd (hfails (Or.inl hfailed)) (by simp), fun line hmem ↦ ?_⟩
      by_contra hlong
      exact absurd (hfails (Or.inr ⟨line, hmem, Or.inl (not_lt.mp hlong)⟩)) (by simp)
  · intro hcondition value w'' hrun'
    obtain ⟨rfl, rfl⟩ := Prod.mk.inj (Except.ok.inj (hrun'.symm.trans hrun))
    by_cases hnegative : (readHostsfile 65536 events).value < 0
    · rw [if_pos hnegative]
      exact ⟨fun h ↦ absurd h (by simp), fun _ ↦ rfl⟩
    · obtain ⟨hfailed, hfits⟩ := hcondition.resolve_right fun h ↦ hnegative (hvalue.mpr h)
      have hlines : fitting 65535 (fileLines events).1 = textLines (fileText events) := by
        rw [fileLines_text events hfailed, fitting_eq_self hfits]
      rw [hhosts hnegative, hlines] at hlib
      rw [if_neg hnegative]
      refine ⟨fun _ ↦ hlib, fun h ↦ ?_⟩
      rcases h with h | ⟨line, hmem, hlong | hmalformed⟩
      · exact absurd h hfailed
      · exact absurd (hfits line hmem) (not_lt.mpr hlong)
      · exact absurd (hvalue.mpr ⟨line, hlines ▸ hmem, hmalformed⟩) hnegative

/-- A read fails behind the first line: the setup succeeds, with the host of that line. -/
theorem setupComplete_readFails :
    ¬ ∀ (env : LoadEnv) (w : World) (events : List ReadEvent), SetupComplete env w events := by
  intro hcomplete
  have hread : readHostsfile 65536 ("n1\n".toList.map .byte ++ [.failed]) =
      ⟨["n1".toList], 0, true⟩ :=
    (readHostsfile_eq_loadLines 65534 rfl).trans (by decide)
  obtain ⟨w', hrun, -⟩ :=
    hostsfileClusterlistSetup_opened (plainEnv (plainBackend fun _ _ ↦ ⟨[], ⟨0, none⟩⟩) none)
    startWorld
    ("n1\n".toList.map .byte ++ [.failed])
  rw [hread] at hrun
  exact absurd ((hcomplete _ startWorld _ _ w' hrun).2 (Or.inl (by decide))) (by simp)

end Whatsup
