import Whatsup.CLib.MachineInt
import Whatsup.CLib.Numeral
import Whatsup.Common.Fd
import Whatsup.Common.Timeval
import Mathlib.Data.List.TakeWhile

/-!
# The pingd backend

A backend of libnodeupdown reports what it finds through the functions of `nodeupdown_devel.c`; a
`BackendCall` is one such call. The pingd backend connects to a pingd, reads its answer line by line
and reports every host of it up or down, as the second in its line is near its own clock or not.

`pingdReport_eq` says that the comparison in machine integers, part signed and part unsigned,
compares the distance of two seconds with the timeout. `readPingData_lines` says what the backend
makes of an answer that it reads whole.
-/

set_option autoImplicit false
set_option relaxedAutoImplicit false

namespace Whatsup

open CLib

/-! ### The backend -/

/-- A call of a backend: `nodeupdown_add_up_node`, `nodeupdown_add_down_node` or
`nodeupdown_add_last_up_time`. -/
inductive BackendCall
  | addUpNode (node : List Char)
  | addDownNode (node : List Char)
  | addLastUpTime (node : List Char) (lastUpTime : ℕ)
deriving DecidableEq

/-- `sscanf(buf, "%64s %lu\n", hostname, &localtime)`, if it converts both. -/
def sscanfRecord (buf : List Char) : Option (List Char × ℕ) :=
  let text := buf.dropWhile isSpace
  let hostname := (text.takeWhile fun c ↦ !isSpace c).take 64
  let rest := (text.drop hostname.length).dropWhile isSpace
  let localtime := strtoul rest
  -- a conversion that consumes nothing has failed
  if hostname = [] ∨ localtime.2 = rest then none else some (hostname, localtime.1)

/-- The call for a record: `abs(localtime - tv.tv_sec) < timeout_len`. -/
def pingdReport (tv : Timeval) (timeoutLen : ℕ) (hostname : List Char) (localtime : ℕ) :
    BackendCall :=
  if toUint (intAbs (toInt (ulongSub localtime (toUlong tv.tvSec)))) < timeoutLen then
    .addUpNode hostname
  else .addDownNode hostname

/-- The loop of `pingd_backend_get_updown_data`: the calls that it makes, and its value. -/
def readPingData (tv : Timeval) (timeoutLen : ℕ) (events : List ReadEvent) : List BackendCall × ℤ :=
  match hread : fdReadLine 1023 events with
  | none => ([], -1)
  | some (line, rest) =>
    if _hline : line = [] then ([], 0)
    else
      -- the buffer is a string up to its first NUL
      match sscanfRecord (line.takeWhile (· ≠ '\x00')) with
      | none => ([], -1)
      | some (hostname, localtime) =>
        let others := readPingData tv timeoutLen rest
        (pingdReport tv timeoutLen hostname localtime :: others.1, others.2)
termination_by events.length
decreasing_by
  have hlength := fdReadLine_length hread
  have hpos := List.length_pos_of_ne_nil _hline
  omega

/-- The records that the loop acts on, and its value. -/
def readPingRecords (events : List ReadEvent) : List (List Char × ℕ) × ℤ :=
  match hread : fdReadLine 1023 events with
  | none => ([], -1)
  | some (line, rest) =>
    if _hline : line = [] then ([], 0)
    else
      match sscanfRecord (line.takeWhile (· ≠ '\x00')) with
      | none => ([], -1)
      | some record =>
        let others := readPingRecords rest
        (record :: others.1, others.2)
termination_by events.length
decreasing_by
  have hlength := fdReadLine_length hread
  have hpos := List.length_pos_of_ne_nil _hline
  omega

/-- A line that cannot be read is a failure. -/
theorem readPingRecords_failed {events : List ReadEvent} (h : fdReadLine 1023 events = none) :
    readPingRecords events = ([], -1) := by
  rw [readPingRecords]
  split
  case h_1 => rfl
  case h_2 hread => exact absurd (h.symm.trans hread) (by simp)

/-- At the end of the file the backend succeeds. -/
theorem readPingRecords_end {events rest : List ReadEvent}
    (h : fdReadLine 1023 events = some ([], rest)) :
    readPingRecords events = ([], 0) := by
  rw [readPingRecords]
  split
  case h_1 hread => exact absurd (h.symm.trans hread) (by simp)
  case h_2 line rest hread =>
    rw [h] at hread
    obtain ⟨rfl, -⟩ := Prod.mk.inj (Option.some.inj hread)
    exact dif_pos rfl

/-- A line that holds no record is a failure. -/
theorem readPingRecords_malformed {events rest : List ReadEvent} {line : List Char}
    (h : fdReadLine 1023 events = some (line, rest)) (hline : line ≠ [])
    (hscan : sscanfRecord (line.takeWhile (· ≠ '\x00')) = none) : readPingRecords events =
      ([], -1) := by
  rw [readPingRecords]
  split
  case h_1 hread => exact absurd (h.symm.trans hread) (by simp)
  case h_2 line' rest' hread =>
    rw [h] at hread
    obtain ⟨rfl, rfl⟩ := Prod.mk.inj (Option.some.inj hread)
    rw [dif_neg hline, hscan]

/-- Assumes: a line that holds a record. The backend acts on it and goes on. -/
theorem readPingRecords_record {events rest : List ReadEvent} {line : List Char}
    {record : List Char × ℕ}
    (h : fdReadLine 1023 events = some (line, rest)) (hline : line ≠ [])
    (hscan : sscanfRecord (line.takeWhile (· ≠ '\x00')) = some record) :
    readPingRecords events = (record :: (readPingRecords rest).1, (readPingRecords rest).2) := by
  rw [readPingRecords]
  split
  case h_1 hread => exact absurd (h.symm.trans hread) (by simp)
  case h_2 line' rest' hread =>
    rw [h] at hread
    obtain ⟨rfl, rfl⟩ := Prod.mk.inj (Option.some.inj hread)
    rw [dif_neg hline, hscan]

/-- The backend reports the records that it acts on, one after another. -/
theorem readPingData_eq (tv : Timeval) (timeoutLen : ℕ) (events : List ReadEvent) :
    readPingData tv timeoutLen events =
      ((readPingRecords events).1.map fun record ↦ pingdReport tv timeoutLen record.1 record.2,
        (readPingRecords events).2) := by
  fun_induction readPingData tv timeoutLen events with
  | case1 events hread => rw [readPingRecords_failed hread]; rfl
  | case2 events rest hread => rw [readPingRecords_end hread]; rfl
  | case3 events line rest hread hline hscan =>
    rw [readPingRecords_malformed hread hline hscan]; rfl
  | case4 events line rest hread hline hostname localtime hscan others ih =>
    simp only [readPingRecords_record hread hline hscan, others, ih, List.map_cons]

/-- `pingd_backend_get_updown_data`, for a connection with what can be read from it and the value of
`gettimeofday`: the calls that it makes, and its value. -/
def pingdBackendGetUpdownData (connection : Option (List ReadEvent)) (tv : Option Timeval)
    (timeoutLen : ℕ) : List BackendCall × ℤ :=
  match connection, tv with
  | some events, some tv => readPingData tv timeoutLen events
  | _, _ => ([], -1)

/-! ### The comparison -/

/-- Assumes: a second and a clock below `2 ^ 31`. The host is up exactly when they differ by less
than the timeout. -/
theorem pingdReport_eq {tv : Timeval} {localtime : ℕ} (timeoutLen : ℕ) (hostname : List Char)
    (hlocaltime : localtime < 2147483648) (hnow : 0 ≤ tv.tvSec) (hnow' : tv.tvSec < 2147483648) :
    pingdReport tv timeoutLen hostname localtime =
      if (tv.tvSec - localtime).natAbs < timeoutLen then .addUpNode hostname
      else .addDownNode hostname := by
  obtain ⟨now, hnat⟩ := Int.eq_ofNat_of_zero_le hnow
  have hulong : toUlong tv.tvSec = now := by
    rw [hnat]
    exact toUlong_natCast (by omega)
  have hdiff : toInt (ulongSub localtime now) = localtime - now :=
    toInt_ulongSub (by omega) (by omega)
  have habs : toUint (intAbs (localtime - now)) = ((now : ℤ) - localtime).natAbs := by
    rw [intAbs, toInt_eq_self (by omega) (by omega), toUint_natCast (by omega)]
    omega
  rw [pingdReport, hulong, hdiff, habs, hnat]

/-! ### Reading records -/

/-- A name that a record can carry: not empty, at most 64 characters, no blank and no NUL. -/
def WireName (hostname : List Char) : Prop :=
  hostname ≠ [] ∧ hostname.length ≤ 64 ∧ ∀ c ∈ hostname, isSpace c = false ∧ c ≠ '\x00'

instance (hostname : List Char) : Decidable (WireName hostname) :=
  decidable_of_iff (hostname ≠ [] ∧ hostname.length ≤ 64 ∧
    hostname.all (fun c ↦ !isSpace c && c ≠ '\x00') = true) (by simp [WireName])

/-- The text of a record. -/
def wireRecord (hostname : List Char) (localtime : ℕ) : List Char :=
  hostname ++ ' ' :: (padded 0 localtime ++ ['\n'])

/-- A text of a name and what follows it has no blanks in front of the name, and the name is its
first word. -/
theorem scan_name {hostname : List Char} (rest : List Char) (hne : hostname ≠ [])
    (hchars : ∀ c ∈ hostname, isSpace c = false)
    (hrest : ∀ c ∈ rest.head?, isSpace c = true) :
    (hostname ++ rest).dropWhile isSpace = hostname ++ rest ∧
      (hostname ++ rest).takeWhile (fun c ↦ !isSpace c) = hostname := by
  constructor
  · obtain ⟨c, tail, rfl⟩ := List.exists_cons_of_ne_nil hne
    rw [List.cons_append, List.dropWhile_cons_of_neg]
    simp [hchars c List.mem_cons_self]
  · rw [List.takeWhile_append_of_pos fun c hc ↦ by simp [hchars c hc]]
    cases rest with
    | nil => simp
    | cons c rest => rw [List.takeWhile_cons_of_neg (by simp [hrest c rfl]), List.append_nil]

/-- Assumes: a name that a record can carry, a nonempty digit string, and behind it no digit. The
name and the value are scanned. -/
theorem sscanfRecord_digits {hostname digits rest : List Char} (hname : WireName hostname)
    (hdigits : ∀ c ∈ digits, c.isDigit = true) (hne : digits ≠ [])
    (hrest : rest.takeWhile Char.isDigit = []) :
    sscanfRecord (hostname ++ ' ' :: (digits ++ rest)) =
      some (hostname, min (Nat.ofDigitChars 10 digits 0) ulongMax) := by
  obtain ⟨hnonempty, hlength, hchars⟩ := hname
  obtain ⟨hstart, hword⟩ := scan_name (' ' :: (digits ++ rest)) hnonempty
    (fun c hc ↦ (hchars c hc).1) (by rintro _ ⟨⟩; decide)
  have hnumber : (digits ++ rest).dropWhile isSpace = digits ++ rest := by
    obtain ⟨d, tail, rfl⟩ := List.exists_cons_of_ne_nil hne
    rw [List.cons_append, List.dropWhile_cons_of_neg]
    simp [(not_isSpace_of_isDigit (hdigits d List.mem_cons_self)).1]
  have hafter : (hostname ++ ' ' :: (digits ++ rest)).drop hostname.length =
      ' ' :: (digits ++ rest) :=
    List.drop_left
  unfold sscanfRecord
  simp only [hstart, hword, List.take_of_length_le hlength]
  rw [hafter, List.dropWhile_cons_of_pos (by decide), hnumber,
    strtoul_digits_append hdigits hne hrest]
  have hconsumed : rest ≠ digits ++ rest := fun h ↦
    hne (List.append_cancel_right (h.symm.trans (List.nil_append _).symm))
  rw [if_neg (not_or.mpr ⟨hnonempty, hconsumed⟩)]

/-- Assumes: a name, and behind it nothing but blanks. Nothing is scanned. -/
theorem sscanfRecord_name {hostname rest : List Char} (hne : hostname ≠ [])
    (hlength : hostname.length ≤ 64)
    (hchars : ∀ c ∈ hostname, isSpace c = false) (hrest : ∀ c ∈ rest, isSpace c = true) :
    sscanfRecord (hostname ++ rest) = none := by
  obtain ⟨hstart, hword⟩ := scan_name rest hne hchars fun c hc ↦
    hrest c (List.mem_of_mem_head? hc)
  have hafter : (hostname ++ rest).drop hostname.length = rest := List.drop_left
  have hblank : rest.dropWhile isSpace = [] := List.dropWhile_eq_nil_iff.mpr hrest
  unfold sscanfRecord
  simp only [hstart, hword, List.take_of_length_le hlength]
  rw [hafter, hblank]
  exact if_pos (Or.inr rfl)

/-- Assumes: a name that a record can carry, and an `unsigned long`. They are scanned from their
record. -/
theorem sscanfRecord_wireRecord {hostname : List Char} {localtime : ℕ} (hname : WireName hostname)
    (hlocaltime : localtime ≤ ulongMax) :
    sscanfRecord (wireRecord hostname localtime) = some (hostname, localtime) := by
  rw [wireRecord, sscanfRecord_digits hname (fun c hc ↦ isDigit_of_mem_padded hc)
    (padded_ne_nil 0 localtime) rfl,
    ofDigitChars_padded, min_eq_left hlocaltime]

/-- A record ends with the only line end in it, has no NUL, and fits into the buffer. -/
theorem wireRecord_line {hostname : List Char} {localtime : ℕ} (hname : WireName hostname)
    (hlocaltime : localtime ≤ ulongMax) :
    ∃ line, wireRecord hostname localtime = line ++ ['\n'] ∧ (∀ c ∈ line, c ≠ '\n' ∧ c ≠ '\x00') ∧
      line.length < 1023 := by
  obtain ⟨-, hlength, hchars⟩ := hname
  refine ⟨hostname ++ ' ' :: padded 0 localtime, by simp [wireRecord], ?_, ?_⟩
  · intro c hc
    rcases List.mem_append.mp hc with hc | hc
    · refine ⟨?_, (hchars c hc).2⟩
      rintro rfl
      exact absurd (hchars _ hc).1 (by decide)
    · rcases List.mem_cons.mp hc with rfl | hc
      · decide
      · have hdigit := isDigit_of_mem_padded hc
        constructor <;> rintro rfl <;> exact absurd hdigit (by decide)
  · have hdigits : numDigits localtime ≤ 20 :=
      (numDigits_le_iff (by decide)).mpr (lt_of_le_of_lt hlocaltime (by decide))
    rw [List.length_append, List.length_cons, length_padded]
    omega

/-- Assumes: events that deliver records, for names that a record can carry. The backend acts on
each of them, in order, and succeeds. -/
theorem readPingRecords_lines {records : List (List Char × ℕ)}
    (hrecords : ∀ record ∈ records, WireName record.1 ∧ record.2 ≤ ulongMax)
    {events : List ReadEvent}
    (hevents : Delivers events (records.flatMap fun record ↦ wireRecord record.1 record.2)) :
    readPingRecords events = (records, 0) := by
  induction records generalizing events with
  | nil => exact readPingRecords_end (fdReadLine_end hevents rfl 1022)
  | cons record records ih =>
    obtain ⟨⟨hname, hlocaltime⟩, hrecords⟩ := List.forall_mem_cons.mp hrecords
    obtain ⟨line, htext, hchars, hlength⟩ := wireRecord_line hname hlocaltime
    rw [List.flatMap_cons, htext, List.append_assoc] at hevents
    obtain ⟨rest, hread, hrest⟩ := fdReadLine_line hevents rfl (fun c hc ↦ (hchars c hc).1) hlength
    have hbuf : (line ++ ['\n']).takeWhile (· ≠ '\x00') = line ++ ['\n'] := by
      rw [List.takeWhile_append_of_pos fun c hc ↦ decide_eq_true (hchars c hc).2]
      rfl
    have hscan := sscanfRecord_wireRecord hname hlocaltime
    rw [htext, ← hbuf] at hscan
    rw [readPingRecords_record hread (by simp) hscan, ih hrecords hrest]

/-- Assumes: events that deliver records, for names that a record can carry. The backend makes the
call for each of them, in order, and succeeds. -/
theorem readPingData_lines (tv : Timeval) (timeoutLen : ℕ) {records : List (List Char × ℕ)}
    (hrecords : ∀ record ∈ records, WireName record.1 ∧ record.2 ≤ ulongMax)
    {events : List ReadEvent}
    (hevents : Delivers events (records.flatMap fun record ↦ wireRecord record.1 record.2)) :
    readPingData tv timeoutLen events =
      (records.map fun record ↦ pingdReport tv timeoutLen record.1 record.2, 0) := by
  rw [readPingData_eq, readPingRecords_lines hrecords hevents]

end Whatsup
