import Whatsup.Hostlist.Fits

/-!
# Texts that do not fit into the buffer

`hostlist_ranged_string` assembles its text from prefixes, brackets, numbers and separators, each
with a test of its own for the room that is left. The `*_inside` lemmas go through the steps of the
printer whatever the room: no step writes outside the buffer, and every sum is an `int` if the size
of the buffer and the numbers of a range are together.

`fullText` is the text that is printed where there is room for all of it; nothing is printed for
empty names at the front, not even a separator. `ranged_of_counts` puts the two halves together: the
call delivers the text (`Ranged`) for every size.
-/

set_option autoImplicit false
set_option relaxedAutoImplicit false

namespace Whatsup

open CLib

/-! ### Steps that stay inside the buffer -/

/-- Assumes: room inside the buffer. `snprintf` succeeds and keeps the size of the buffer. -/
theorem snprintf_within (buf : List Char) (pos room : ℕ) (new : List Char)
    (hroom : pos + room ≤ buf.length) :
    ∃ buf', snprintf buf pos room new = some (new.length, buf') ∧ buf'.length = buf.length := by
  have hpos : (buf.take pos).length = pos := List.length_take_of_le (by omega)
  obtain ⟨buf', hprint, hlength, -⟩ :=
    snprintf_inside room new (List.take_prefix pos buf) (by omega)
  rw [hpos] at hprint
  exact ⟨buf', hprint, hlength⟩

/-- Assumes: room inside the buffer. The numbers of a range are printed as far as there is room. -/
theorem hostrangeNumstr_inside (hr : HostRange) (room : ℕ) (buf : List Char) (pos : ℕ)
    (hroom : pos + room ≤ buf.length) :
    ∃ m buf', hostrangeNumstr hr room buf pos = some (m, buf') ∧ buf'.length = buf.length ∧
      m ≤ (numberText hr).length := by
  unfold hostrangeNumstr numberText
  by_cases hnone : hr.singlehost = true ∨ room = 0
  · exact ⟨0, buf, if_pos hnone, rfl, Nat.zero_le _⟩
  · obtain ⟨hsingle, -⟩ := not_or.mp hnone
    rw [if_neg hnone, if_neg hsingle]
    obtain ⟨buf1, hfirst, hlength1⟩ := snprintf_within buf pos room (padded hr.width hr.lo) hroom
    simp only [hfirst, Option.bind_eq_bind, Option.bind_some]
    by_cases hmore : (padded hr.width hr.lo).length < room ∧ hr.lo < hr.hi
    · obtain ⟨buf2, hsecond, hlength2⟩ :=
        snprintf_within buf1 (pos + (padded hr.width hr.lo).length)
        (room - (padded hr.width hr.lo).length) ('-' :: padded hr.width hr.hi) (by omega)
      refine ⟨(padded hr.width hr.lo).length + ('-' :: padded hr.width hr.hi).length, buf2, ?_,
        hlength2.trans hlength1, le_of_eq ?_⟩
      · rw [if_pos hmore, hsecond]
        rfl
      · rw [if_pos hmore.2, List.length_append]
    · refine ⟨(padded hr.width hr.lo).length, buf1, if_neg hmore, hlength1, ?_⟩
      split_ifs
      · rw [List.length_append]
        omega
      · exact le_rfl

/-- Assumes: room inside the buffer, and a sum that is an `int`. A round of the loop succeeds; one
that goes on has not left the room. -/
theorem bracketedRound_inside (bracketNeeded : Bool) (hr : HostRange) {n len : ℕ} {buf : List Char}
    (hlen : len ≤ n)
    (hn : n ≤ buf.length) (hint : len + (numberText hr).length < 2147483648) :
    ∃ len' stop buf', bracketedRound bracketNeeded n hr len buf = some (len', stop, buf') ∧
      buf'.length = buf.length ∧
      len' ≤ max n (len + (numberText hr).length) ∧ (stop = false → len' ≤ n) := by
  obtain ⟨m, buf1, hnumbers, hlength1, hm⟩ := hostrangeNumstr_inside hr (n - len) buf len (by omega)
  unfold bracketedRound
  simp only [hnumbers, Option.bind_eq_bind, Option.bind_some]
  rw [intAdd_eq (by omega)]
  simp only [Option.bind_some]
  by_cases hfull : n ≤ len + m
  · exact ⟨_, _, _, if_pos hfull, hlength1, by omega, fun h ↦ absurd h (by decide)⟩
  · rw [if_neg hfull]
    cases bracketNeeded with
    | false => exact ⟨_, _, _, rfl, hlength1, by omega, fun _ ↦ by omega⟩
    | true =>
      obtain ⟨buf2, hput, hlength2⟩ := putChar_fits buf1 (len + m) ',' (by omega)
      refine ⟨len + m + 1, false, buf2, ?_, by omega, by omega, fun _ ↦ by omega⟩
      rw [if_pos rfl, hput]
      rfl

/-- Assumes: room inside the buffer, and numbers that are an `int` together with it. The loop of
`_get_bracketed_list` succeeds. -/
theorem bracketedLoop_inside (bracketNeeded : Bool) {n bound : ℕ} (hbound : bound ≤ 2147483648)
    (rest : List HostRange) :
    ∀ (hr : HostRange) (len : ℕ) (buf : List Char), len ≤ n → n ≤ buf.length →
      (∀ other ∈ hr :: rest, n + (numberText other).length < bound) →
      ∃ len' start buf', bracketedLoop bracketNeeded n hr rest len buf = some (len', start, buf') ∧
        buf'.length = buf.length ∧ len' < bound ∧ ∀ other ∈ start, other ∈ hr :: rest := by
  induction rest with
  | nil =>
    intro hr len buf hlen hn hwidth
    have hhr := hwidth hr List.mem_cons_self
    obtain ⟨len', stop, buf', hround, hlength, hle, -⟩ :=
      bracketedRound_inside bracketNeeded hr hlen hn (by omega)
    refine ⟨len', _, buf', by rw [bracketedLoop, hround]; rfl, hlength, by
      omega, fun other hmem ↦ ?_⟩
    split_ifs at hmem with hstop
    · exact hmem
    · exact absurd hmem List.not_mem_nil
  | cons next rest ih =>
    intro hr len buf hlen hn hwidth
    obtain ⟨hhr, hlater⟩ := List.forall_mem_cons.mp hwidth
    obtain ⟨len1, stop, buf1, hround, hlength1, hle, hgoes⟩ :=
      bracketedRound_inside bracketNeeded hr hlen hn (by omega)
    simp only [bracketedLoop, hround, Option.bind_eq_bind, Option.bind_some]
    cases stop with
    | true => exact ⟨len1, _, buf1, rfl, hlength1, by omega, fun _ h ↦ h⟩
    | false =>
      rw [if_neg (by decide)]
      by_cases hwithin : hostrangeWithinRange next hr = true
      · obtain ⟨len', start, buf', hloop, hlength, hlt, hsub⟩ :=
          ih next len1 buf1 (hgoes rfl) (by omega) hlater
        exact ⟨len', start, buf', by rw [if_pos hwithin, hloop], by omega, hlt,
          fun other hmem ↦ List.mem_cons_of_mem hr (hsub other hmem)⟩
      · exact ⟨len1, _, buf1, if_neg hwithin, hlength1, by omega, fun other hmem ↦
          List.mem_cons_of_mem hr hmem⟩

/-- Assumes: room inside the buffer. The end of `_get_bracketed_list` succeeds. -/
theorem closeBracketed_inside (bracketNeeded : Bool) {n : ℕ} (len : ℕ) {buf : List Char}
    (hn : n ≤ buf.length) :
    ∃ buf', closeBracketed bracketNeeded n len buf = some buf' ∧ buf'.length = buf.length := by
  unfold closeBracketed
  by_cases hclose : bracketNeeded = true ∧ len < n ∧ 0 < len
  · obtain ⟨buf1, hbracket, hlength1⟩ := writeChar_fits buf (len - 1) ']' (by omega)
    obtain ⟨buf2, hend, hlength2⟩ := writeChar_fits buf1 len '\x00' (by omega)
    refine ⟨buf2, ?_, by omega⟩
    rw [if_pos hclose, hbracket]
    exact hend
  · rw [if_neg hclose]
    by_cases hfull : n ≤ len
    · rw [if_pos hfull]
      by_cases hpos : 0 < n
      · rw [if_pos hpos]
        exact writeChar_fits buf (n - 1) '\x00' (by omega)
      · exact ⟨buf, if_neg hpos, rfl⟩
    · rw [if_neg hfull]
      exact writeChar_fits buf len '\x00' (by omega)

/-- Assumes: room inside the buffer, and numbers that are an `int` together with it.
`_get_bracketed_list` succeeds. -/
theorem getBracketedList_inside {n bound : ℕ} (hbound : bound ≤ 2147483648) {hr : HostRange}
    {rest : List HostRange}
    {buf : List Char} (hn : n ≤ buf.length)
    (hwidth : ∀ other ∈ hr :: rest, n + (numberText other).length < bound) :
    ∃ m start buf', getBracketedList hr rest n buf = some (m, start, buf') ∧
      buf'.length = buf.length ∧ m < bound ∧
      ∀ other ∈ start, other ∈ hr :: rest := by
  have hhr := hwidth hr List.mem_cons_self
  obtain ⟨buf1, hpfx, hlength1⟩ := snprintf_within buf 0 n hr.pfx (by omega)
  unfold getBracketedList
  simp only [hpfx, Option.bind_eq_bind, Option.bind_some]
  by_cases hcut : n < hr.pfx.length
  · exact ⟨n, _, buf1, if_pos hcut, hlength1, by omega, fun _ h ↦ h⟩
  · rw [if_neg hcut]
    -- what is behind the opening bracket, for either length
    have hrest : ∀ (len : ℕ) (buf2 : List Char), len ≤ n → buf2.length = buf.length →
        ∃ m start buf',
            (bracketedLoop (isBracketNeeded hr rest.head?) n hr rest len buf2).bind (fun result ↦
          (closeBracketed (isBracketNeeded hr rest.head?) n result.1 result.2.2).bind fun buf ↦
            pure (result.1, result.2.1, buf)) = some (m, start, buf') ∧
          buf'.length = buf.length ∧ m < bound ∧ ∀ other ∈ start, other ∈ hr :: rest := by
      intro len buf2 hlen hlength2
      obtain ⟨len', start, buf3, hloop, hlength3, hlt, hsub⟩ :=
        bracketedLoop_inside (isBracketNeeded hr rest.head?) hbound rest hr len buf2 hlen (by
          omega) hwidth
      obtain ⟨buf4, hclose, hlength4⟩ :=
        closeBracketed_inside (isBracketNeeded hr rest.head?) len' (show n ≤ buf3.length by omega)
      refine ⟨len', start, buf4, ?_, by omega, hlt, hsub⟩
      simp only [hloop, Option.bind_some, hclose]
      rfl
    split_ifs with hopen
    · obtain ⟨buf2, hput, hlength2⟩ := putChar_fits buf1 hr.pfx.length '[' (by omega)
      rw [hput]
      exact hrest (hr.pfx.length + 1) buf2 (by omega) (by omega)
    · exact hrest _ _ (by omega) hlength1

/-- Assumes: room inside the buffer, and numbers that are an `int` together with it. The loop of
`hostlist_ranged_string` succeeds. -/
theorem rangedLoop_inside {n : ℕ} (rounds : ℕ) :
    ∀ (ranges : List HostRange) (len : ℕ) (buf : List Char), n ≤ buf.length →
      (∀ hr ∈ ranges, n + (numberText hr).length < 2147483648) →
      ∃ len' buf', rangedLoop n rounds ranges len buf = some (len', buf') ∧
        buf'.length = buf.length := by
  induction rounds with
  | zero => exact fun ranges len buf _ _ ↦ ⟨len, buf, rfl, rfl⟩
  | succ rounds ih =>
    intro ranges len buf hn hwidth
    cases ranges with
    | nil => exact ⟨len, buf, rfl, rfl⟩
    | cons hr rest =>
      rw [rangedLoop]
      by_cases hfull : n ≤ len
      · exact ⟨len, buf, if_pos hfull, rfl⟩
      · obtain ⟨m, start, tail, hlist, htail, hlt, hsub⟩ :=
          getBracketedList_inside (show 2147483648 - len ≤ 2147483648 by omega)
            (show n - len ≤ (buf.drop len).length by rw [List.length_drop]; omega)
            (fun other hmem ↦ by have hother := hwidth other hmem; omega)
        rw [List.length_drop] at htail
        have hjoined : (buf.take len ++ tail).length = buf.length := by
          rw [List.length_append, List.length_take, htail]
          omega
        rw [if_neg hfull, hlist]
        simp only [Option.bind_eq_bind, Option.bind_some]
        rw [intAdd_eq (by omega)]
        simp only [Option.bind_some]
        have hstart : ∀ other ∈ start, n + (numberText other).length < 2147483648 :=
          fun other hmem ↦ hwidth other (hsub other hmem)
        split_ifs with hcomma
        · obtain ⟨buf2, hput, hlength2⟩ :=
            putChar_fits (buf.take len ++ tail) (len + m) ',' (by omega)
          obtain ⟨len', buf3, hloop, hlength3⟩ := ih start (len + m + 1) buf2 (by omega) hstart
          exact ⟨len', buf3, by rw [hput]; exact hloop, by omega⟩
        · obtain ⟨len', buf3, hloop, hlength3⟩ := ih start (len + m) (buf.take len ++ tail)
            (by omega) hstart
          exact ⟨len', buf3, hloop, by omega⟩

/-! ### Empty names at the front -/

/-- A range of which nothing is printed: a single host with an empty name. -/
def HostRange.blank (hr : HostRange) : Bool :=
  (hr.pfx ++ numberText hr).isEmpty

/-- The text that is printed where there is room for all of it: that of the ranges behind the empty
names at the front. -/
def fullText (ranges : List HostRange) : List Char :=
  rangedText (ranges.dropWhile HostRange.blank)

/-- Assumes: names that are not empty. The text is that of all ranges. -/
theorem fullText_eq {ranges : List HostRange}
    (hnames : ∀ hr ∈ ranges, hr.pfx ++ numberText hr ≠ []) :
    fullText ranges = rangedText ranges := by
  cases ranges with
  | nil => rfl
  | cons hr rest =>
    have hname := hnames hr List.mem_cons_self
    rw [fullText, List.dropWhile_cons_of_neg (by simpa [HostRange.blank] using hname)]

/-- A range of which nothing is printed has an empty prefix and is a single host. -/
theorem HostRange.eq_of_blank {hr : HostRange} (h : hr.blank = true) : hr.pfx = [] ∧
    hr.singlehost = true := by
  obtain ⟨hpfx, hnumber⟩ := List.append_eq_nil_iff.mp (List.isEmpty_iff.mp h)
  refine ⟨hpfx, ?_⟩
  by_contra hsingle
  rw [numberText, if_neg hsingle] at hnumber
  split_ifs at hnumber
  · exact padded_ne_nil _ _ (List.append_eq_nil_iff.mp hnumber).1
  · exact padded_ne_nil _ _ hnumber

/-- The ranges behind the empty names at the front start with a name that is not empty. -/
theorem head_dropWhile_blank (ranges : List HostRange) :
    ∀ hr ∈ (ranges.dropWhile HostRange.blank).head?, hr.pfx ++ numberText hr ≠ [] := by
  intro hr hmem hnil
  have hblank := List.head?_dropWhile_not HostRange.blank ranges
  rw [Option.mem_def.mp hmem] at hblank
  simp [HostRange.blank, hnil] at hblank

/-- Assumes: an empty name at the front, and a buffer that is not empty. The loop passes it without
printing anything. -/
theorem rangedLoop_blank {n : ℕ} (rounds : ℕ) {hr : HostRange} (rest : List HostRange)
    {buf : List Char} (hn : 0 < n)
    (hbuf : n ≤ buf.length) (hblank : hr.blank = true) :
    ∃ buf', buf'.length = buf.length ∧ rangedLoop n (rounds + 1) (hr :: rest) 0 buf =
      rangedLoop n rounds rest 0 buf' := by
  obtain ⟨hpfx, hsingle⟩ := HostRange.eq_of_blank hblank
  have hother : ∀ other : HostRange, hostrangeWithinRange hr other = false := fun other ↦ by
    rw [Bool.eq_false_iff, ne_eq, hostrangeWithinRange_eq_true_iff]
    simp [hsingle]
  have hneeded : isBracketNeeded hr rest.head? = false := by
    unfold isBracketNeeded hostrangeCount
    cases rest <;> simp [hsingle, hother]
  obtain ⟨buf1, hprint, hlength1⟩ := snprintf_within buf 0 n hr.pfx (by omega)
  obtain ⟨buf2, hend, hlength2⟩ := writeChar_fits buf1 0 '\x00' (by omega)
  refine ⟨buf2, by omega, ?_⟩
  have hround : bracketedRound false n hr 0 buf1 = some (0, false, buf1) := by
    rw [bracketedRound, hostrangeNumstr, if_pos (Or.inl hsingle)]
    simp only [Option.bind_eq_bind, Option.bind_some]
    rw [intAdd_eq (by decide)]
    simp only [Option.bind_some]
    rw [if_neg (by omega)]
    rfl
  have hloop : bracketedLoop false n hr rest 0 buf1 = some (0, rest, buf1) := by
    cases rest with
    | nil =>
      rw [bracketedLoop, hround]
      rfl
    | cons next rest =>
      rw [bracketedLoop, hround]
      simp [hostrangeWithinRange_comm next hr, hother next]
  have hlist : getBracketedList hr rest n buf = some (0, rest, buf2) := by
    rw [hpfx] at hprint
    rw [getBracketedList, hneeded, hpfx, hprint]
    simp only [Option.bind_eq_bind, Option.bind_some, List.length_nil]
    rw [if_neg (by omega), if_neg (fun h ↦ absurd h.1 (by decide))]
    simp only [pure, Option.bind_some, hloop]
    rw [closeBracketed, if_neg (fun h ↦ absurd h.1 (by decide)), if_neg (by omega), hend]
    rfl
  rw [rangedLoop, if_neg (by omega), Nat.sub_zero, List.drop_zero, hlist]
  simp only [Option.bind_eq_bind, Option.bind_some, List.take_zero, List.nil_append]
  rw [intAdd_eq (by decide)]
  simp only [Option.bind_some]
  rw [if_neg (fun h ↦ absurd h.1 (by decide))]
  rfl

/-- Assumes: enough rounds and a buffer that is not empty. The loop passes the empty names at the
front without printing anything. -/
theorem rangedLoop_dropWhile {n : ℕ} (hn : 0 < n) (ranges : List HostRange) :
    ∀ (rounds : ℕ) (buf : List Char), ranges.length ≤ rounds → n ≤ buf.length →
      ∃ rounds' buf', (ranges.dropWhile HostRange.blank).length ≤ rounds' ∧
        buf'.length = buf.length ∧
        rangedLoop n rounds ranges 0 buf = rangedLoop n rounds' (ranges.dropWhile HostRange.blank)
          0 buf' := by
  induction ranges with
  | nil => exact fun rounds buf hlength _ ↦ ⟨rounds, buf, hlength, rfl, rfl⟩
  | cons hr rest ih =>
    intro rounds buf hlength hbuf
    by_cases hblank : hr.blank = true
    · obtain ⟨rounds, rfl⟩ : ∃ k, rounds = k + 1 :=
        ⟨rounds - 1, by rw [List.length_cons] at hlength; omega⟩
      obtain ⟨buf1, hlength1, hpass⟩ := rangedLoop_blank rounds rest hn hbuf hblank
      obtain ⟨rounds', buf', hrounds, hlength', hloop⟩ :=
        ih rounds buf1 (by simpa using hlength) (by omega)
      rw [List.dropWhile_cons_of_pos hblank]
      exact ⟨rounds', buf', hrounds, by omega, hpass.trans hloop⟩
    · rw [List.dropWhile_cons_of_neg hblank]
      exact ⟨rounds, buf, hlength, rfl, rfl⟩

/-! ### Every size of the buffer -/

/-- The text of the list is delivered in a buffer of `n` cells: nothing is written outside, the
buffer holds a terminator, the value is `-1` exactly if the text does not fit, and else its length,
and the buffer starts with the text and its terminator. -/
def Ranged (hl : Hostlist) (n : ℕ) (buf : List Char) : Prop :=
  ∃ ret buf', hostlistRangedString hl n buf = some (ret, buf') ∧ '\x00' ∈ buf' ∧
    (ret = -1 ↔ n ≤ (fullText hl.ranges).length) ∧
    (ret ≠ -1 → ret = (fullText hl.ranges).length ∧ fullText hl.ranges ++ ['\x00'] <+: buf')

/-- The lengths that are counted are `int`: the size of the buffer with the numbers of each range,
or the whole text, which fits. -/
def Counts (hl : Hostlist) (n : ℕ) : Prop :=
  (∀ hr ∈ hl.ranges, n + (numberText hr).length < 2147483648) ∨
    (fullText hl.ranges).length < n ∧ (fullText hl.ranges).length < 2147483647

/-- Assumes: a text that fits, with a length that is an `int`. The text is printed. -/
theorem hostlistRangedString_full {hl : Hostlist} {n : ℕ} {buf : List Char}
    (hfits : (fullText hl.ranges).length < n)
    (hint : (fullText hl.ranges).length < 2147483647) (hbuf : n ≤ buf.length) :
    ∃ buf', hostlistRangedString hl n buf = some (((fullText hl.ranges).length : ℤ), buf') ∧
      fullText hl.ranges ++ ['\x00'] <+: buf' := by
  have hn : 0 < n := by omega
  obtain ⟨rounds, buf1, hrounds, hlength1, hpass⟩ :=
    rangedLoop_dropWhile hn hl.ranges hl.ranges.length buf le_rfl hbuf
  obtain ⟨buf2, hloop, hlength2⟩ := rangedLoop_fits (show min n 2147483647 < 2147483648 by omega)
    (min_le_left _ _) rounds _ 0 buf1 hrounds (Or.inr (head_dropWhile_blank hl.ranges))
    (show 0 + (fullText hl.ranges).length < min n 2147483647 by omega) (by omega)
  obtain ⟨-, hprinted⟩ := rangedLoop_printed rounds _ [] buf1 List.nil_prefix hrounds
    (Or.inr (head_dropWhile_blank hl.ranges)) hloop (show 0 + (fullText hl.ranges).length < n by
      omega)
  have hwhole : rangedLoop n hl.ranges.length hl.ranges 0 buf =
      some ((fullText hl.ranges).length, buf2) := by
    rw [hpass, hloop, Nat.zero_add, fullText]
  obtain ⟨buf3, hend, -⟩ := writeChar_fits buf2 (fullText hl.ranges).length '\x00' (by omega)
  refine ⟨buf3, ?_, writeChar_printed hprinted hend⟩
  rw [hostlistRangedString, hwhole]
  simp only [Option.bind_eq_bind, Option.bind_some]
  rw [if_neg (by omega), hend]
  rfl

/-- Assumes: a call whose value is not negative. The text fits. -/
theorem fullText_lt {hl : Hostlist} {n : ℕ} {buf buf' : List Char} {ret : ℤ} (hn : 0 < n)
    (hbuf : n ≤ buf.length)
    (h : hostlistRangedString hl n buf = some (ret, buf')) (hret : 0 ≤ ret) :
      (fullText hl.ranges).length < n := by
  obtain ⟨⟨len, buf1⟩, hloop, h⟩ := Option.bind_eq_some_iff.mp h
  simp only at h
  split_ifs at h with hfull
  · obtain ⟨buf2, -, h⟩ := Option.bind_eq_some_iff.mp h
    rw [← (Prod.mk.inj (Option.some.inj h)).1] at hret
    exact absurd hret (by decide)
  · obtain ⟨rounds, buf2, hrounds, -, hpass⟩ :=
      rangedLoop_dropWhile hn hl.ranges hl.ranges.length buf le_rfl hbuf
    rw [hpass] at hloop
    obtain ⟨hlen, -⟩ := rangedLoop_printed rounds _ [] buf2 List.nil_prefix hrounds
      (Or.inr (head_dropWhile_blank hl.ranges)) hloop (by omega)
    rw [List.nil_append] at hlen
    rw [fullText]
    omega

/-- Assumes: a buffer that is not empty, and numbers that are an `int` together with its size. The
call ends with a terminator in the buffer and a value that is `-1` if it is negative. -/
theorem hostlistRangedString_inside {hl : Hostlist} {n : ℕ} {buf : List Char} (hn : 0 < n)
    (hbuf : n ≤ buf.length)
    (hwidth : ∀ hr ∈ hl.ranges, n + (numberText hr).length < 2147483648) :
    ∃ ret buf', hostlistRangedString hl n buf = some (ret, buf') ∧ '\x00' ∈ buf' ∧
      (ret = -1 ∨ 0 ≤ ret) := by
  obtain ⟨len, buf1, hloop, hlength1⟩ :=
    rangedLoop_inside hl.ranges.length hl.ranges 0 buf hbuf hwidth
  have hends : ∀ pos < buf1.length, ∃ buf', writeChar buf1 pos '\x00' = some buf' ∧ '\x00' ∈ buf' :=
    fun pos hpos ↦ ⟨_, if_pos hpos, List.mem_set hpos _⟩
  rw [hostlistRangedString, hloop]
  simp only [Option.bind_eq_bind, Option.bind_some]
  by_cases hfull : n ≤ len
  · obtain ⟨buf', hend, hmem⟩ := hends (n - 1) (by omega)
    rw [if_pos hfull, if_pos hn, hend]
    exact ⟨-1, buf', rfl, hmem, Or.inl rfl⟩
  · obtain ⟨buf', hend, hmem⟩ := hends len (by omega)
    rw [if_neg hfull, hend]
    exact ⟨len, buf', rfl, hmem, Or.inr (Int.natCast_nonneg len)⟩

/-- Assumes: a buffer that is not empty, and lengths that are `int`. The text of the list is
delivered. -/
theorem ranged_of_counts {hl : Hostlist} {n : ℕ} {buf : List Char} (hn : 1 ≤ n)
    (hbuf : buf.length = n)
    (hcounts : Counts hl n) : Ranged hl n buf := by
  by_cases hfits : (fullText hl.ranges).length < n
  · have hint : (fullText hl.ranges).length < 2147483647 := by
      rcases hcounts with hwidth | ⟨-, hint⟩
      · cases hranges : hl.ranges with
        | nil => exact show (0 : ℕ) < 2147483647 by decide
        | cons hr rest =>
          have hhr := hwidth hr (hranges ▸ List.mem_cons_self)
          rw [← hranges]
          omega
      · exact hint
    obtain ⟨buf', hprint, hprefix⟩ := hostlistRangedString_full hfits hint hbuf.ge
    refine ⟨_, buf', hprint, ?_, by omega, fun _ ↦ ⟨rfl, hprefix⟩⟩
    exact hprefix.subset (List.mem_append_right _ (List.mem_singleton_self _))
  · obtain ⟨ret, buf', hprint, hmem, hret⟩ :=
      hostlistRangedString_inside hn hbuf.ge (hcounts.resolve_right fun h ↦ hfits h.1)
    have hfails : ret = -1 := hret.resolve_right fun h ↦ hfits (fullText_lt hn hbuf.ge hprint h)
    exact ⟨ret, buf', hprint, hmem, iff_of_true hfails (not_lt.mp hfits), fun h ↦ absurd hfails h⟩

end Whatsup
