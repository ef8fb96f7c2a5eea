import Whatsup.Nodeupdown.BackendPingd
import Whatsup.Pingd.Loop

/-!
# A response that is cut

A client whose connection is cut gets the first so many characters of a response. The records that
the pingd backend acts on are then the first records of the response, but for one cut: if it leaves
some of the digits of a second and not all, what is left of them is taken for the second.
`cutResponse_iff` says so for every table and every cut.
-/

set_option autoImplicit false
set_option relaxedAutoImplicit false

namespace Whatsup

open CLib

/-- The host name of an entry as a C string of at most 64 characters without a blank. -/
def PingdInfo.Named (info : PingdInfo) : Prop :=
  info.hostname.length ≤ 64 ∧ ∀ c ∈ info.hostname, isSpace c = false ∧ c ≠ '\x00'

instance (info : PingdInfo) : Decidable info.Named :=
  decidable_of_iff (info.hostname.length ≤ 64 ∧
    info.hostname.all (fun c ↦ !isSpace c && c ≠ '\x00') = true) (by simp [PingdInfo.Named])

/-- The second of an entry, as it is sent. -/
def PingdInfo.second (info : PingdInfo) : ℕ :=
  toUlong info.lastReceived.tvSec

/-- A cut that leaves, of the first line that it does not leave whole, some of the digits of the
second but not all. A line without a name ends the reading before it comes to that. -/
def CutsNumber : List PingdInfo → ℕ → Prop
  | [], _ => False
  | info :: nodes, k =>
    info.hostname ≠ [] ∧
      if info.line.length ≤ k then CutsNumber nodes (k - info.line.length)
      else info.hostname.length + 1 < k ∧ k + 1 < info.line.length

theorem second_le (info : PingdInfo) : info.second ≤ ulongMax := by
  unfold PingdInfo.second toUlong ulongMax
  omega

theorem length_line (info : PingdInfo) :
    info.line.length = info.hostname.length + numDigits info.second + 2 := by
  have hdigits : (padded 0 info.second).length = numDigits info.second := by
    rw [length_padded, Nat.zero_max]
  change (info.hostname ++ ' ' :: (padded 0 info.second ++ ['\n'])).length = _
  simp only [List.length_append, List.length_cons, hdigits, List.length_nil]
  omega

/-- A line is shorter than the buffer it is read into. -/
theorem length_line_lt {info : PingdInfo} (h : info.Named) : info.line.length < 1023 := by
  have hdigits : numDigits info.second ≤ 20 :=
    (numDigits_le_iff (by decide)).mpr (lt_of_le_of_lt (second_le info) (by decide))
  have hname := h.1
  rw [length_line]
  omega

/-- A line without its end has neither a line end nor a NUL. -/
theorem line_chars {info : PingdInfo} (h : info.Named) :
    ∀ c ∈ info.hostname ++ ' ' :: padded 0 info.second, c ≠ '\n' ∧ c ≠ '\x00' := by
  intro c hc
  rcases List.mem_append.mp hc with hc | hc
  · refine ⟨?_, (h.2 c hc).2⟩
    rintro rfl
    exact absurd (h.2 _ hc).1 (by decide)
  · rcases List.mem_cons.mp hc with rfl | hc
    · decide
    · have hdigit := isDigit_of_mem_padded hc
      constructor <;> rintro rfl <;> exact absurd hdigit (by decide)

/-- A blank in front changes nothing of what is scanned. -/
theorem sscanfRecord_blank (text : List Char) : sscanfRecord (' ' :: text) = sscanfRecord text := by
  unfold sscanfRecord
  rw [List.dropWhile_cons_of_pos (by decide)]

/-- A number alone is taken for a name, and nothing is scanned. -/
theorem sscanfRecord_number {digits rest : List Char} (hdigits : ∀ c ∈ digits, c.isDigit = true)
    (hlength : digits.length ≤ 64) (hrest : ∀ c ∈ rest, isSpace c = true) :
    sscanfRecord (' ' :: (digits ++ rest)) = none := by
  rw [sscanfRecord_blank]
  by_cases hne : digits = []
  · have hblank : rest.dropWhile isSpace = [] := List.dropWhile_eq_nil_iff.mpr hrest
    subst hne
    unfold sscanfRecord
    simp only [List.nil_append, hblank]
    exact if_pos (Or.inl rfl)
  · exact sscanfRecord_name hne hlength (fun c hc ↦ (not_isSpace_of_isDigit (hdigits c hc)).1) hrest

/-! ### What is read of a line -/

/-- The value of the first so many digits of a second. -/
def leftOf (second count : ℕ) : ℕ :=
  Nat.ofDigitChars 10 ((padded 0 second).take count) 0

/-- Fewer digits have a smaller value. -/
theorem leftOf_lt {second count : ℕ} (hpos : 0 < count) (h : count < numDigits second) :
    leftOf second count < second := by
  have hdigits : ∀ c ∈ (padded 0 second).take count, c.isDigit = true := fun c hc ↦
    isDigit_of_mem_padded (List.mem_of_mem_take hc)
  refine (ofDigitChars_lt hdigits).trans_le ?_
  rw [List.length_take, length_padded, Nat.zero_max, min_eq_left h.le]
  exact (lt_numDigits_iff hpos).mp h

/-- All digits have the value. -/
theorem leftOf_all (second : ℕ) : leftOf second (numDigits second) = second := by
  have hlength : (padded 0 second).length ≤ numDigits second := by rw [length_padded, Nat.zero_max]
  rw [leftOf, List.take_of_length_le hlength, ofDigitChars_padded]

/-- No digits have a larger value than all of them. -/
theorem leftOf_le {second count : ℕ} (h : count ≤ numDigits second) : leftOf second count ≤
    second := by
  rcases Nat.eq_zero_or_pos count with rfl | hpos
  · exact Nat.zero_le _
  · rcases Nat.lt_or_ge count (numDigits second) with hlt | hge
    · exact (leftOf_lt hpos hlt).le
    · rw [le_antisymm h hge, leftOf_all]

/-- What the backend makes of a text that is all that is left: a line with no line end in it. -/
theorem readPingRecords_last {events : List ReadEvent} {line : List Char} (h : Delivers events line)
    (hne : line ≠ []) (hchars : ∀ c ∈ line, c ≠ '\n' ∧ c ≠ '\x00') (hlength : line.length < 1023) :
    readPingRecords events =
      match sscanfRecord line with
      | none => ([], -1)
      | some record => ([record], 0) := by
  have hread := fdReadLine_last h (fun c hc ↦ (hchars c hc).1) hlength
  have hbuf : line.takeWhile (· ≠ '\x00') = line :=
    List.takeWhile_eq_self_iff.mpr fun c hc ↦ decide_eq_true (hchars c hc).2
  cases hscan : sscanfRecord line with
  | none => exact readPingRecords_malformed hread hne (by rw [hbuf, hscan])
  | some record =>
    rw [readPingRecords_record hread hne (by rw [hbuf, hscan]),
      readPingRecords_end (fdReadLine_end .nil rfl 1022)]

/-- What is scanned of a line that is cut: its name, and what is left of its second, if that is
anything. -/
theorem sscanfRecord_cut {info : PingdInfo} (h : info.Named) {k : ℕ} (hk : k < info.line.length) :
    sscanfRecord (info.line.take k) =
      if info.hostname ≠ [] ∧ info.hostname.length + 1 < k then
        some (info.hostname, leftOf info.second (k - (info.hostname.length + 1)))
      else none := by
  have hline : info.line = info.hostname ++ ' ' :: (padded 0 info.second ++ ['\n']) := rfl
  have hdigits : ∀ count, ∀ c ∈ (padded 0 info.second).take count, c.isDigit = true :=
      fun count c hc ↦
    isDigit_of_mem_padded (List.mem_of_mem_take hc)
  have hsize : (padded 0 info.second).length = numDigits info.second := by
    rw [length_padded, Nat.zero_max]
  have hlength := length_line info
  have hshort : numDigits info.second ≤ 20 :=
    (numDigits_le_iff (by decide)).mpr (lt_of_le_of_lt (second_le info) (by decide))
  by_cases hname : info.hostname = []
  · -- the number is taken for the name
    rw [if_neg fun hboth ↦ hboth.1 hname, hline, hname, List.nil_append]
    cases k with
    | zero => rfl
    | succ k =>
      rw [List.take_succ_cons, List.take_append_of_le_length (by
        rw [hname, List.length_nil] at hlength; omega)]
      have hnumber : sscanfRecord (' ' :: ((padded 0 info.second).take k ++ [])) = none :=
        sscanfRecord_number (hdigits k) (by rw [List.length_take, hsize]; omega) (by simp)
      rwa [List.append_nil] at hnumber
  · rcases Nat.lt_or_ge info.hostname.length k with hbehind | hwithin
    · obtain ⟨count, rfl⟩ := Nat.exists_eq_add_of_lt hbehind
      have htake : info.line.take (info.hostname.length + count + 1) =
          info.hostname ++ ' ' :: (padded 0 info.second).take count := by
        rw [hline, Nat.add_assoc, List.take_length_add_append, List.take_succ_cons,
          List.take_append_of_le_length (by omega)]
      rw [htake]
      by_cases hcount : count = 0
      · subst hcount
        rw [if_neg (by omega), List.take_zero]
        exact sscanfRecord_name hname h.1 (fun c hc ↦ (h.2 c hc).1) (by simp; decide)
      · have hleft : (padded 0 info.second).take count ≠ [] := by
          rw [ne_eq, List.take_eq_nil_iff, not_or]
          exact ⟨hcount, padded_ne_nil 0 info.second⟩
        have hscan :
          sscanfRecord (info.hostname ++ ' ' :: ((padded 0 info.second).take count ++ [])) =
            some (info.hostname, min (leftOf info.second count) ulongMax) :=
          sscanfRecord_digits ⟨hname, h.1, h.2⟩ (hdigits count) hleft rfl
        rw [List.append_nil] at hscan
        have hcut : info.hostname.length + count + 1 - (info.hostname.length + 1) =
          count := by omega
        have hle : leftOf info.second count ≤ ulongMax :=
          (leftOf_le (by omega)).trans (second_le info)
        rw [if_pos ⟨hname, by omega⟩, hscan, hcut, min_eq_left hle]
    · rw [if_neg (by omega), hline, List.take_append_of_le_length hwithin]
      by_cases hk0 : k = 0
      · rw [hk0]
        rfl
      · have hleft : info.hostname.take k ≠ [] := by
          rw [ne_eq, List.take_eq_nil_iff, not_or]
          exact ⟨hk0, hname⟩
        have hscan : sscanfRecord (info.hostname.take k ++ []) = none :=
          sscanfRecord_name hleft ((List.length_take_le' _ _).trans h.1)
            (fun c hc ↦ (h.2 c (List.mem_of_mem_take hc)).1) (by simp)
        rwa [List.append_nil] at hscan

/-! ### The records of a response -/

/-- The record of an entry, as it is sent. -/
def PingdInfo.sent (info : PingdInfo) : List Char × ℕ :=
  (info.hostname, info.second)

/-- What the backend acts on in a line that is cut is the start of the record, unless some of the
digits are left and not all. -/
theorem readPingRecords_cut {info : PingdInfo} (h : info.Named) {k : ℕ} (hk : k < info.line.length)
    {events : List ReadEvent} (hevents : Delivers events (info.line.take k))
    (sent : List (List Char × ℕ)) :
    (readPingRecords events).1 <+: info.sent :: sent ↔
      ¬(info.hostname ≠ [] ∧ info.hostname.length + 1 < k ∧ k + 1 < info.line.length) := by
  have hlength := length_line info
  by_cases hk0 : k = 0
  · subst hk0
    rw [readPingRecords_end (fdReadLine_end hevents rfl 1022)]
    simp
  · have hline : info.line.take k <+: info.hostname ++ ' ' :: padded 0 info.second := by
      have htext : info.line = (info.hostname ++ ' ' :: padded 0 info.second) ++ ['\n'] := by
        simp [PingdInfo.line, pingLine, PingdInfo.second]
      have hsize : k ≤ (info.hostname ++ ' ' :: padded 0 info.second).length := by
        rw [htext, List.length_append] at hk
        exact Nat.le_of_lt_succ hk
      rw [htext, List.take_append_of_le_length hsize]
      exact List.take_prefix _ _
    have hchars : ∀ c ∈ info.line.take k, c ≠ '\n' ∧ c ≠ '\x00' := fun c hc ↦
      line_chars h c (hline.subset hc)
    have hne : info.line.take k ≠ [] := by
      rw [ne_eq, List.take_eq_nil_iff, not_or]
      exact ⟨hk0, fun hnil ↦ by rw [hnil] at hk; exact absurd hk (Nat.not_lt_zero _)⟩
    have hshort : (info.line.take k).length < 1023 :=
      (List.length_take_le' _ _).trans_lt (length_line_lt h)
    rw [readPingRecords_last hevents hne hchars hshort, sscanfRecord_cut h hk]
    by_cases hboth : info.hostname ≠ [] ∧ info.hostname.length + 1 < k
    · rw [if_pos hboth]
      have hstart : [(info.hostname, leftOf info.second (k - (info.hostname.length + 1)))] <+:
          info.sent :: sent ↔ leftOf info.second (k - (info.hostname.length + 1)) =
              info.second := by
        rw [List.cons_prefix_cons]
        simp [PingdInfo.sent]
      rw [hstart]
      constructor
      · rintro hsame ⟨-, -, hbefore⟩
        have hlt := @leftOf_lt info.second (k - (info.hostname.length + 1)) (by omega) (by omega)
        omega
      · intro hall
        have hcount : k - (info.hostname.length + 1) = numDigits info.second := by
          by_contra hne
          exact hall ⟨hboth.1, hboth.2, by omega⟩
        rw [hcount, leftOf_all]
    · rw [if_neg hboth]
      simp only [List.nil_prefix, true_iff]
      exact fun hcut ↦ hboth ⟨hcut.1, hcut.2.1⟩

/-- What the backend makes of a line that is whole: it acts on its record and goes on, or stops if
it has no name. -/
theorem readPingRecords_whole {info : PingdInfo} (h : info.Named) {rest : List Char}
    {events : List ReadEvent}
    (hevents : Delivers events (info.line ++ rest)) :
    ∃ events', Delivers events' rest ∧ readPingRecords events =
      if info.hostname = [] then ([], -1)
      else (info.sent :: (readPingRecords events').1, (readPingRecords events').2) := by
  have htext : info.line = (info.hostname ++ ' ' :: padded 0 info.second) ++ ['\n'] := by
    simp [PingdInfo.line, pingLine, PingdInfo.second]
  have hlength := length_line_lt h
  rw [htext, List.length_append, List.length_singleton] at hlength
  have hchars := line_chars h
  rw [htext, List.append_assoc] at hevents
  have hroom : (info.hostname ++ ' ' :: padded 0 info.second).length < 1023 := by omega
  obtain ⟨events', hread, hrest⟩ := fdReadLine_line hevents rfl (fun c hc ↦ (hchars c hc).1) hroom
  have hbuf : ((info.hostname ++ ' ' :: padded 0 info.second) ++ ['\n']).takeWhile (· ≠ '\x00') =
      info.line := by
    rw [htext, List.takeWhile_append_of_pos fun c hc ↦ decide_eq_true (hchars c hc).2]
    rfl
  refine ⟨events', hrest, ?_⟩
  by_cases hname : info.hostname = []
  · have hscan : sscanfRecord info.line = none := by
      have hline : info.line = ' ' :: (padded 0 info.second ++ ['\n']) := by
        rw [PingdInfo.line, pingLine, hname]
        rfl
      have hshort : numDigits info.second ≤ 20 :=
        (numDigits_le_iff (by decide)).mpr (lt_of_le_of_lt (second_le info) (by decide))
      rw [hline]
      exact sscanfRecord_number (fun c hc ↦ isDigit_of_mem_padded hc)
        (by rw [length_padded, Nat.zero_max]; omega) (by simp; decide)
    rw [if_pos hname, readPingRecords_malformed hread (by simp) (by rw [hbuf, hscan])]
  · have hscan : sscanfRecord info.line = some info.sent :=
      sscanfRecord_wireRecord ⟨hname, h.1, h.2⟩ (second_le info)
    rw [if_neg hname, readPingRecords_record hread (by simp) (by rw [hbuf, hscan])]

/-- The records that the backend acts on in the first so many characters of the lines of a table. -/
theorem readPingRecords_take {nodes : List PingdInfo} (hnames : ∀ info ∈ nodes, info.Named) {k : ℕ}
    {events : List ReadEvent} (hevents : Delivers events ((nodes.flatMap PingdInfo.line).take k)) :
    (readPingRecords events).1 <+: nodes.map PingdInfo.sent ↔ ¬CutsNumber nodes k := by
  induction nodes generalizing k events with
  | nil =>
    rw [List.flatMap_nil, List.take_nil] at hevents
    rw [readPingRecords_end (fdReadLine_end hevents rfl 1022)]
    simp [CutsNumber]
  | cons info nodes ih =>
    obtain ⟨hname, hnames⟩ := List.forall_mem_cons.mp hnames
    rw [List.flatMap_cons] at hevents
    rw [CutsNumber, List.map_cons]
    rcases Nat.lt_or_ge k info.line.length with hcut | hwhole
    · rw [List.take_append_of_le_length hcut.le] at hevents
      rw [if_neg (by omega), readPingRecords_cut hname hcut hevents]
    · rw [List.take_append, List.take_of_length_le hwhole] at hevents
      obtain ⟨events', hrest, hread⟩ := readPingRecords_whole hname hevents
      rw [if_pos hwhole, hread]
      by_cases hempty : info.hostname = []
      · simp [hempty]
      · rw [if_neg hempty, List.cons_prefix_cons, ih hnames hrest]
        simp [hempty]

/-- Assumes: a table of names that a C string of at most 64 characters without a blank can be, and a
response that `_send_ping_data` has written whole. Of its first so many characters the pingd backend
acts on the first records of the table, exactly when the cut leaves no number some of its digits and
not all. -/
theorem cutResponse_iff {nodes : List PingdInfo} (hnames : ∀ info ∈ nodes, info.Named)
    {input : LoopInput}
    {text : List Char} (hsend : sendPingData nodes input = .ok ⟨text, true⟩) (k : ℕ)
    {events : List ReadEvent}
    (hevents : Delivers events (text.take k)) :
    (readPingRecords events).1 <+: nodes.map PingdInfo.sent ↔ ¬CutsNumber nodes k := by
  unfold sendPingData at hsend
  split_ifs at hsend
  rw [sendPingDataLoop_complete hsend] at hevents
  exact readPingRecords_take hnames hevents

/-! ### A cut inside a number -/

/-- A host that was last heard at second 1500000000. -/
def heardHost : PingdInfo :=
  ⟨"n1".toList, ⟨10, 0, 0, 1⟩, 0, ⟨1500000000, 0⟩⟩

/-- The response about this host. -/
def heardText : List Char :=
  "n1 1500000000\n".toList

/-- Three hosts, one of which was never heard. -/
def threeHeard : List PingdInfo :=
  [heardHost, ⟨"n2".toList, ⟨10, 0, 0, 2⟩, 1, ⟨0, 0⟩⟩,
    ⟨"login".toList, ⟨10, 0, 0, 3⟩, 2, ⟨1500000007, 0⟩⟩]

/-- A cut inside the last name: the records in front of it are acted on, and nothing is forged. -/
theorem cutResponse_iff_three :
    (readPingRecords ("n1 1500000000\nn2 0\nlog".toList.map .byte)).1 <+: threeHeard.map
      PingdInfo.sent ↔
      ¬CutsNumber threeHeard 22 := by
  have hsend : sendPingData threeHeard ⟨none, none, none, none, none, none, true, []⟩ =
      .ok ⟨"n1 1500000000\nn2 0\nlogin 1500000007\n".toList, true⟩ := rfl
  have hnames : ∀ info ∈ threeHeard, info.Named := by decide
  exact cutResponse_iff hnames hsend 22 (delivers_map_byte ("n1 1500000000\nn2 0\nlog".toList))

/-- A cut behind three digits forges a record: the host was last heard at second 150. -/
theorem cutResponse_forges :
    ¬∀ (nodes : List PingdInfo) (input : LoopInput) (text : List Char) (k : ℕ)
      (events : List ReadEvent),
      (∀ info ∈ nodes, info.Named) → sendPingData nodes input = .ok ⟨text, true⟩ →
        Delivers events (text.take k) →
        (readPingRecords events).1 <+: nodes.map PingdInfo.sent := by
  intro h
  have hsend : sendPingData [heardHost] ⟨none, none, none, none, none, none, true, []⟩ =
    .ok ⟨heardText, true⟩ := rfl
  have hcut := h [heardHost] _ heardText 6 _ (by decide) hsend (delivers_map_byte _)
  have hleft : heardText.take 6 = ['n', '1', ' ', '1', '5', '0'] := rfl
  have hchars : ∀ c ∈ heardText.take 6, c ≠ '\n' ∧ c ≠ '\x00' := by simp [hleft]
  have hread : readPingRecords ((heardText.take 6).map .byte) = ([("n1".toList, 150)], 0) :=
    readPingRecords_last (delivers_map_byte _) (by simp [hleft]) hchars (by simp [hleft])
  rw [hread] at hcut
  exact absurd hcut (by decide)

end Whatsup
