import Whatsup.Common.Fd

/-!
# The lines of a file

`textLines` splits a text into its lines, each with its line end. `fileLines` is what reading a file
line by line can give at most: the lines that are complete before a read fails, and whether one
does. Reading with room for a line gives that line (`fdReadLine_first`); with less room, or where a
read fails first, it fails or fills the room (`fdReadLine_full`).
-/

set_option autoImplicit false
set_option relaxedAutoImplicit false

namespace Whatsup

/-- The lines of a text. All but the last end with a line end. -/
def textLines : List Char → List (List Char)
  | [] => []
  | c :: text =>
    if c = '\n' then [c] :: textLines text
    else
      match textLines text with
      | [] => [[c]]
      | line :: lines => (c :: line) :: lines

/-- The lines are the whole text. -/
theorem textLines_flatten (text : List Char) : (textLines text).flatten = text := by
  fun_induction textLines text with
  | case1 => rfl
  | case2 text ih => rw [List.flatten_cons, ih, List.singleton_append]
  | case3 c text _ hlines ih =>
    rw [hlines] at ih
    rw [List.flatten_cons, ← ih]
    rfl
  | case4 c text _ line lines hlines ih =>
    rw [hlines] at ih
    rw [List.flatten_cons, List.cons_append, ← List.flatten_cons, ih]

theorem textLines_ne_nil {text : List Char} (h : text ≠ []) : textLines text ≠ [] := fun hnil ↦ by
  rw [← textLines_flatten text, hnil] at h
  exact h rfl

/-- Assumes: a text without a line end. It is one line. -/
theorem textLines_line {line : List Char} (h : '\n' ∉ line) : textLines line = if line =
    [] then [] else [line] := by
  induction line with
  | nil => rfl
  | cons c line ih =>
    obtain ⟨hc, hline⟩ := not_or.mp (mt List.mem_cons.mpr h)
    rw [textLines, if_neg (Ne.symm hc), ih hline, if_neg (List.cons_ne_nil c line)]
    split_ifs with hnil
    · rw [hnil]
    · rfl

/-- Assumes: a line without its end. It is the first line of a text that goes on with a line end. -/
theorem textLines_append_newline {line : List Char} (h : '\n' ∉ line) (text : List Char) :
    textLines (line ++ '\n' :: text) = (line ++ ['\n']) :: textLines text := by
  induction line with
  | nil => exact if_pos rfl
  | cons c line ih =>
    obtain ⟨hc, hline⟩ := not_or.mp (mt List.mem_cons.mpr h)
    rw [List.cons_append, textLines, if_neg (Ne.symm hc), ih hline]
    rfl

/-- Assumes: a text that ends with a line end. What follows it starts with a new line. -/
theorem textLines_append {before : List Char} (h : before = [] ∨ before.getLast? = some '\n')
    (text : List Char) :
    textLines (before ++ text) = textLines before ++ textLines text := by
  induction before with
  | nil => rfl
  | cons c before ih =>
    rw [List.cons_append, textLines, textLines]
    split_ifs with hc
    · rw [ih ?_, List.cons_append]
      by_cases hnil : before = []
      · exact Or.inl hnil
      · refine Or.inr ?_
        have hlast := h.resolve_left (List.cons_ne_nil c before)
        rwa [List.getLast?_cons_of_ne_nil hnil] at hlast
    · have hlast := h.resolve_left (List.cons_ne_nil c before)
      have hnil : before ≠ [] := fun hnil ↦ by
        rw [hnil] at hlast
        exact hc (Option.some.inj hlast)
      rw [List.getLast?_cons_of_ne_nil hnil] at hlast
      rw [ih (Or.inr hlast)]
      obtain ⟨line, lines, hlines⟩ := List.exists_cons_of_ne_nil (textLines_ne_nil hnil)
      rw [hlines]
      rfl

/-- The characters of a file, whatever comes of the reads. -/
def fileText : List ReadEvent → List Char
  | [] => []
  | .byte c :: events => c :: fileText events
  | .interrupted :: events => fileText events
  | .failed :: events => fileText events

/-- The lines of a file that are complete before a read fails, and whether one does. -/
def fileLines : List ReadEvent → List (List Char) × Bool
  | [] => ([], false)
  | .byte c :: events =>
    if c = '\n' then ([c] :: (fileLines events).1, (fileLines events).2)
    else
      match fileLines events with
      | ([], failed) => (if failed then [] else [[c]], failed)
      | (line :: lines, failed) => ((c :: line) :: lines, failed)
  | .interrupted :: events => fileLines events
  | .failed :: _ => ([], true)

theorem fileLines_failed (events : List ReadEvent) : (fileLines events).2 = true ↔
    .failed ∈ events := by
  fun_induction fileLines events with
  | case1 => simp
  | case2 events ih => simpa using ih
  | case3 c events _ failed hlines ih => simpa [hlines] using ih
  | case4 c events _ line lines failed hlines ih => simpa [hlines] using ih
  | case5 events ih => simpa using ih
  | case6 => simp

theorem fileLines_text (events : List ReadEvent) (h : .failed ∉ events) :
    fileLines events = (textLines (fileText events), false) := by
  fun_induction fileLines events with
  | case1 => rfl
  | case2 events ih =>
    rw [ih (fun hmem ↦ h (List.mem_cons_of_mem _ hmem)), fileText, textLines, if_pos rfl]
  | case3 c events hc failed hlines ih =>
    have htext := hlines.symm.trans (ih fun hmem ↦ h (List.mem_cons_of_mem _ hmem))
    obtain ⟨hnone, rfl⟩ := Prod.mk.inj htext
    rw [fileText, textLines, if_neg hc, ← hnone]
    rfl
  | case4 c events hc line lines failed hlines ih =>
    have htext := hlines.symm.trans (ih fun hmem ↦ h (List.mem_cons_of_mem _ hmem))
    obtain ⟨hlines', rfl⟩ := Prod.mk.inj htext
    rw [fileText, textLines, if_neg hc, ← hlines']
  | case5 events ih => exact ih fun hmem ↦ h (List.mem_cons_of_mem _ hmem)
  | case6 => exact absurd List.mem_cons_self h

/-- No line is empty. -/
theorem ne_nil_of_fileLines {events : List ReadEvent} {line : List Char} {lines : List (List Char)}
    {failed : Bool}
    (h : fileLines events = (line :: lines, failed)) : line ≠ [] := by
  fun_induction fileLines events generalizing line lines with
  | case1 => exact absurd h (by simp)
  | case2 events ih =>
    obtain ⟨hline, -⟩ := Prod.mk.inj h
    exact List.ne_nil_of_mem ((List.cons.inj hline).1 ▸ List.mem_singleton_self '\n')
  | case3 c events _ failed' _ ih =>
    obtain ⟨hline, -⟩ := Prod.mk.inj h
    split_ifs at hline
    exact List.ne_nil_of_mem ((List.cons.inj hline).1 ▸ List.mem_singleton_self c)
  | case4 c events _ line' lines' failed' _ ih =>
    obtain ⟨hline, -⟩ := Prod.mk.inj h
    exact List.ne_nil_of_mem ((List.cons.inj hline).1 ▸ List.mem_cons_self)
  | case5 events ih => exact ih h
  | case6 => exact absurd h (by simp)

theorem Delivers.text {events : List ReadEvent} {text : List Char} (h : Delivers events text) :
    .failed ∉ events ∧ fileText events = text := by
  induction h with
  | nil => exact ⟨List.not_mem_nil, rfl⟩
  | byte c _ ih => exact ⟨by simpa using ih.1, congrArg (c :: ·) ih.2⟩
  | interrupted _ ih => exact ⟨by simpa using ih.1, ih.2⟩

/-! ### Reading them -/

/-- Assumes: a file in which no read fails. Neither does reading from it. -/
theorem exists_fdReadLine {events : List ReadEvent} (h : .failed ∉ events) :
    ∀ room, ∃ result, fdReadLine room events = some result := by
  induction events with
  | nil => exact fun room ↦ by cases room <;> exact ⟨_, rfl⟩
  | cons event events ih =>
    obtain ⟨hevent, hevents⟩ := not_or.mp (mt List.mem_cons.mpr h)
    intro room
    cases room with
    | zero => exact ⟨_, rfl⟩
    | succ room =>
      cases event with
      | byte c =>
        rw [fdReadLine]
        split_ifs
        · exact ⟨_, rfl⟩
        · obtain ⟨result, hread⟩ := ih hevents room
          exact ⟨_, by rw [hread]; rfl⟩
      | interrupted => exact ih hevents (room + 1)
      | failed => exact absurd rfl hevent

/-- Assumes: a file in which a read fails. What is read, if the read does not come to that, is
something, and the failure is still to come. -/
theorem failed_mem_of_fdReadLine {events rest : List ReadEvent} {piece : List Char} {room : ℕ}
    (h : .failed ∈ events)
    (hread : fdReadLine (room + 1) events = some (piece, rest)) : piece ≠ [] ∧ .failed ∈ rest := by
  induction events generalizing piece room with
  | nil => exact absurd h List.not_mem_nil
  | cons event events ih =>
    cases event with
    | byte c =>
      have hevents : .failed ∈ events := by simpa using h
      rw [fdReadLine] at hread
      split_ifs at hread
      · obtain ⟨rfl, rfl⟩ := Prod.mk.inj (Option.some.inj hread)
        exact ⟨List.cons_ne_nil c [], hevents⟩
      · obtain ⟨⟨piece', rest'⟩, hread', hpiece⟩ := Option.map_eq_some_iff.mp hread
        obtain ⟨rfl, rfl⟩ := Prod.mk.inj hpiece
        refine ⟨List.cons_ne_nil c piece', ?_⟩
        cases room with
        | zero =>
          rw [fdReadLine] at hread'
          obtain ⟨-, rfl⟩ := Prod.mk.inj (Option.some.inj hread')
          exact hevents
        | succ room => exact (ih hevents hread').2
    | interrupted => exact ih (by simpa using h) hread
    | failed => exact absurd hread (by simp [fdReadLine])

/-- Assumes: a file that has ended. Its end is read. -/
theorem fdReadLine_eof {events : List ReadEvent} (h : fileLines events = ([], false)) (room : ℕ) :
    fdReadLine room events = some ([], if room = 0 then events else []) := by
  induction events with
  | nil => cases room <;> rfl
  | cons event events ih =>
    cases room with
    | zero => rfl
    | succ room =>
      cases event with
      | byte c =>
        rw [fileLines] at h
        split_ifs at h
        · exact absurd h (by simp)
        · revert h
          rcases fileLines events with ⟨_ | ⟨line, lines⟩, _ | _⟩ <;> simp
      | interrupted => exact ih h
      | failed => exact absurd h (by simp [fileLines])

/-- Assumes: room for the first line. It is read, and the others are left. -/
theorem fdReadLine_first {events : List ReadEvent} :
    ∀ {line : List Char} {lines : List (List Char)} {failed : Bool} {room : ℕ},
      fileLines events = (line :: lines, failed) → line.length < room →
      ∃ rest, fdReadLine room events = some (line, rest) ∧ fileLines rest = (lines, failed) := by
  induction events with
  | nil => exact fun h _ ↦ absurd h (by simp [fileLines])
  | cons event events ih =>
    intro line lines failed room h hroom
    obtain ⟨room, rfl⟩ := Nat.exists_eq_add_of_lt hroom
    cases event with
    | byte c =>
      rw [fileLines] at h
      rw [fdReadLine]
      split_ifs at h ⊢ with hc
      · obtain ⟨hline, rfl⟩ := Prod.mk.inj h
        obtain ⟨rfl, rfl⟩ := List.cons.inj hline
        exact ⟨events, rfl, rfl⟩
      · rcases hlines : fileLines events with ⟨_ | ⟨line', lines'⟩, failed'⟩
        · rw [hlines] at h
          cases failed' with
          | true => exact absurd h (by simp)
          | false =>
            obtain ⟨hline, rfl⟩ := Prod.mk.inj h
            obtain ⟨rfl, rfl⟩ := List.cons.inj hline
            rw [fdReadLine_eof hlines]
            exact ⟨[], by simp, rfl⟩
        · rw [hlines] at h
          obtain ⟨hline, rfl⟩ := Prod.mk.inj h
          obtain ⟨rfl, rfl⟩ := List.cons.inj hline
          have hroom' : line'.length < (c :: line').length + room := by
            rw [List.length_cons]
            omega
          obtain ⟨rest, hread, hrest⟩ := ih hlines hroom'
          exact ⟨rest, by rw [hread]; rfl, hrest⟩
    | interrupted => exact ih h hroom
    | failed => exact absurd h (by simp [fileLines])

/-- Assumes: a file that has not ended, without room for its first line, or with a read that fails
before a line is complete. What is read, if anything, fills the room. -/
theorem fdReadLine_full {events : List ReadEvent} :
    ∀ {piece : List Char} {rest : List ReadEvent} {room : ℕ}, fileLines events ≠ ([], false) →
      (∀ line ∈ (fileLines events).1.head?, room ≤ line.length) →
      fdReadLine room events = some (piece, rest) → piece.length = room := by
  induction events with
  | nil => exact fun h _ _ ↦ absurd rfl h
  | cons event events ih =>
    intro piece rest room h hroom hread
    cases room with
    | zero =>
      rw [fdReadLine] at hread
      obtain ⟨rfl, rfl⟩ := Prod.mk.inj (Option.some.inj hread)
      rfl
    | succ room =>
      cases event with
      | byte c =>
        rw [fileLines] at h hroom
        rw [fdReadLine] at hread
        split_ifs at h hroom hread with hc
        · obtain ⟨rfl, rfl⟩ := Prod.mk.inj (Option.some.inj hread)
          exact le_antisymm (Nat.succ_le_succ (Nat.zero_le _)) (hroom [c] rfl)
        · obtain ⟨⟨piece', rest'⟩, hread', hpiece⟩ := Option.map_eq_some_iff.mp hread
          obtain ⟨rfl, rfl⟩ := Prod.mk.inj hpiece
          rcases hlines : fileLines events with ⟨_ | ⟨line, lines⟩, _ | _⟩
          · rw [hlines] at hroom
            obtain rfl : room = 0 := Nat.le_zero.mp (Nat.le_of_succ_le_succ (hroom [c] rfl))
            rw [fdReadLine] at hread'
            obtain ⟨rfl, rfl⟩ := Prod.mk.inj (Option.some.inj hread')
            rfl
          · exact congrArg Nat.succ (ih (by simp [hlines]) (by simp [hlines]) hread')
          all_goals
            rw [hlines] at hroom
            have hroom' : room ≤ line.length := Nat.le_of_succ_le_succ (hroom (c :: line) rfl)
            exact congrArg Nat.succ (ih (by simp [hlines]) (by simpa [hlines] using hroom') hread')
      | interrupted => exact ih h hroom hread
      | failed => exact absurd hread (by simp [fdReadLine])

end Whatsup
