import Whatsup.Hostlist.Fits

/-!
# The deranged string of a hostlist

`hostlist_deranged_string` prints every name of a list, with commas between them, range by range:
`hostrange_to_string` prints the names of a range into the room that is left, and the separator is
written behind it before the room is tested again. `derangedText` is the text that belongs into the
buffer and `Deranged` says that it is delivered: no write outside the buffer, `-1` exactly for a
text that does not fit, and else the length and the text.

The text in front of a separator is `punctuated`: each name and a comma behind it.
`derangedLoop_front`, `derangedLoop_truncates` and `derangedLoop_overruns` are the three ways the
loop can end. `deranged_iff` says when the text is delivered: unless the text of the first ranges
fills the buffer in one of two ways (`Overruns`), where the separator falls behind the end of the
buffer, or the list has a range up to `ULONG_MAX`, whose loop never ends, and a text that would fit.
-/

set_option autoImplicit false
set_option relaxedAutoImplicit false

namespace Whatsup

open CLib

/-! ### The printer -/

/-- The loop of `hostrange_to_string` from the number `i` on: the length printed, whether the loop
was left by `break`, and the buffer. A round that goes on fills a cell, so the room bounds the
rounds. -/
def toStringLoop (hr : HostRange) (n : ℕ) (sep : Char) : ℕ → ℕ → ℕ → List Char →
    Option (ℕ × Bool × List Char)
  | 0, _, _, _ => none
  | rounds + 1, i, len, buf =>
    if i ≤ hr.hi then do
      let m := n - len
      let (ret, buf) ← snprintf buf len m (hr.pfx ++ padded hr.width i)
      if m ≤ ret then return (n, true, buf)
      else do
        let len ← intAdd len ret
        let buf ← writeChar buf len sep
        let len ← intAdd len 1
        toStringLoop hr n sep rounds (ulongAdd i 1) len buf
    else return (len, false, buf)

/-- `hostrange_to_string`: the value as the `int` of the caller, in which the `size_t` of a text
that does not fit is `-1`, and the buffer. -/
def hostrangeToString (hr : HostRange) (n : ℕ) (buf : List Char) (separator : Char) :
    Option (ℤ × List Char) :=
  if n = 0 then some (0, buf)
  else if hr.singlehost then do
    let (ret, buf) ← snprintf buf 0 n hr.pfx
    return ((ret : ℤ), buf)
  else do
    let (len, truncated, buf) ← toStringLoop hr n separator (n + 1) hr.lo 0 buf
    if truncated then do
      let buf ← writeChar buf (n - 1) '\x00'
      return (-1, buf)
    else if len = 0 then none -- `buf[--len]` for a range without numbers
    else do
      let buf ← writeChar buf (len - 1) '\x00'
      return ((len - 1 : ℕ), buf)

/-- The loop of `hostlist_deranged_string`: the length printed, whether the text was cut, and the
buffer. -/
def derangedLoop (n : ℕ) : List HostRange → ℕ → List Char → Option (ℕ × Bool × List Char)
  | [], len, buf => some (len, false, buf)
  | hr :: rest, len, buf => do
    let m := n - len
    let (ret, tail) ← hostrangeToString hr m (buf.drop len) ','
    let buf := buf.take len ++ tail
    if ret < 0 ∨ (m : ℤ) < ret then return ((toInt n).toNat, true, buf)
    else do
      let len ← intAdd len ret.toNat
      let buf ← writeChar buf len ','
      let len ← intAdd len 1
      derangedLoop n rest len buf

/-- `hostlist_deranged_string`: the length of the text, or `-1` if it does not fit, and the
buffer. -/
def hostlistDerangedString (hl : Hostlist) (n : ℕ) (buf : List Char) : Option (ℤ × List Char) := do
  let (len, truncated, buf) ← derangedLoop n hl.ranges 0 buf
  let len := len - 1
  let buf ← writeChar buf len '\x00'
  return (if truncated = true ∨ len = n then -1 else (len : ℤ), buf)

/-! ### The text -/

/-- The names of a list with commas between them. -/
def derangedText (ranges : List HostRange) : List Char :=
  [','].intercalate (hostsOf ranges)

/-- Texts with a comma behind each. -/
def punctuated (names : List (List Char)) : List Char :=
  names.flatMap fun name ↦ name ++ [',']

/-- A range of numbers up to `ULONG_MAX`: the loop that counts its numbers never ends by itself. -/
def HostRange.Endless (hr : HostRange) : Prop :=
  hr.singlehost = false ∧ hr.hi = ulongMax

instance (hr : HostRange) : Decidable hr.Endless :=
  inferInstanceAs (Decidable (_ ∧ _))

/-- The text of the list is delivered in a buffer of `n` cells: nothing is written outside, the
value is `-1` exactly if the text does not fit, and else its length, and the buffer starts with the
text and its terminator. -/
def Deranged (hl : Hostlist) (n : ℕ) (buf : List Char) : Prop :=
  ∃ ret buf', hostlistDerangedString hl n buf = some (ret, buf') ∧
    (ret = -1 ↔ n ≤ (derangedText hl.ranges).length) ∧
    (ret ≠ -1 → ret = (derangedText hl.ranges).length ∧ derangedText hl.ranges ++ ['\x00'] <+: buf')

/-- The separator behind a range falls on the cell behind the buffer: the names up to a single host
fill all cells, or the names up to a range leave one cell for the terminator and another range
follows. -/
def Overruns (n : ℕ) (ranges : List HostRange) : Prop :=
  ∃ front hr back, ranges = front ++ hr :: back ∧ (∀ other ∈ front ++ [hr], ¬ other.Endless) ∧
    (hr.singlehost = true ∧ (derangedText (front ++ [hr])).length = n ∨
      (derangedText (front ++ [hr])).length + 1 = n ∧ back ≠ [])

@[simp]
theorem punctuated_append (front back : List (List Char)) :
    punctuated (front ++ back) = punctuated front ++ punctuated back :=
  List.flatMap_append

/-- Assumes: at least one text. Texts with a comma behind each are the joined texts and a comma. -/
theorem punctuated_eq {names : List (List Char)} (hne : names ≠ []) :
    punctuated names = [','].intercalate names ++ [','] := by
  have hcommas := flatMap_comma id hne
  rwa [List.map_id] at hcommas

/-- Assumes: bounds in order. A range denotes at least one host. -/
theorem HostRange.hosts_ne_nil {hr : HostRange} (hbounds : hr.lo ≤ hr.hi) : hr.hosts ≠ [] := by
  refine List.ne_nil_of_length_pos ?_
  unfold HostRange.hosts
  split_ifs
  · exact Nat.one_pos
  · rw [List.length_map, List.length_range']
    omega

/-- Assumes: bounds in order and at least one range. The names with a comma behind each are the text
and a comma. -/
theorem punctuated_hostsOf {ranges : List HostRange} (hbounds : ∀ hr ∈ ranges, hr.lo ≤ hr.hi)
    (hne : ranges ≠ []) :
    punctuated (hostsOf ranges) = derangedText ranges ++ [','] := by
  obtain ⟨hr, rest, rfl⟩ := List.exists_cons_of_ne_nil hne
  refine punctuated_eq ?_
  rw [hostsOf_cons]
  exact List.append_ne_nil_of_left_ne_nil (HostRange.hosts_ne_nil (hbounds hr List.mem_cons_self)) _

/-- Assumes: bounds in order and at least one range. With a comma behind each name, the text is
longer by one. -/
theorem length_punctuated {ranges : List HostRange} (hbounds : ∀ hr ∈ ranges, hr.lo ≤ hr.hi)
    (hne : ranges ≠ []) :
    (punctuated (hostsOf ranges)).length = (derangedText ranges).length + 1 := by
  rw [punctuated_hostsOf hbounds hne, List.length_append, List.length_singleton]

/-- Assumes: bounds in order. With a comma behind each name, the text up to a range is longer by
one. -/
theorem length_punctuated_split {ranges front back : List HostRange} {hr : HostRange}
    (hbounds : ∀ hr ∈ ranges, hr.lo ≤ hr.hi) (hsplit : ranges = front ++ hr :: back) :
    (punctuated (hostsOf (front ++ [hr]))).length = (derangedText (front ++ [hr])).length + 1 := by
  refine length_punctuated (fun other hmem ↦ hbounds other ?_) (by simp)
  rw [hsplit, ← List.singleton_append, ← List.append_assoc]
  exact List.mem_append_left back hmem

/-! ### The names of one range -/

/-- The names of a range from a number on. -/
def HostRange.hostsFrom (hr : HostRange) (i : ℕ) : List (List Char) :=
  (List.range' i (hr.hi + 1 - i)).map fun number ↦ hr.pfx ++ padded hr.width number

/-- The names of a range that is not a single host are those from its lowest number on. -/
theorem HostRange.hostsFrom_lo {hr : HostRange} (hsingle : hr.singlehost = false) :
    hr.hostsFrom hr.lo = hr.hosts := by
  rw [HostRange.hosts, if_neg (by simp [hsingle])]
  rfl

/-- Assumes: a number of a range. The names from it on are its name and those from the next number
on. -/
theorem HostRange.hostsFrom_le {hr : HostRange} {i : ℕ} (h : i ≤ hr.hi) :
    hr.hostsFrom i = (hr.pfx ++ padded hr.width i) :: hr.hostsFrom (i + 1) := by
  unfold HostRange.hostsFrom
  rw [show hr.hi + 1 - i = hr.hi + 1 - (i + 1) + 1 by omega, List.range'_succ, List.map_cons]

/-- Assumes: a number behind a range. There are no names from it on. -/
theorem HostRange.hostsFrom_lt {hr : HostRange} {i : ℕ} (h : hr.hi < i) : hr.hostsFrom i = [] := by
  unfold HostRange.hostsFrom
  rw [show hr.hi + 1 - i = 0 by omega, List.range'_zero, List.map_nil]

/-- Assumes: a number below `ULONG_MAX`. Counting on does not wrap. -/
theorem ulongAdd_one {i : ℕ} (h : i < ulongMax) : ulongAdd i 1 = i + 1 := by
  unfold ulongMax at h
  unfold ulongAdd
  omega

/-- Assumes: a bounded range, and room for its names from a number on, each with its separator. The
loop prints them behind what is there. -/
theorem toStringLoop_fits {hr : HostRange} {n : ℕ} (hmax : hr.hi < ulongMax) (rounds : ℕ) :
    ∀ (i : ℕ) (text buf : List Char), text <+: buf → n ≤ buf.length → n < text.length + rounds →
      (text ++ punctuated (hr.hostsFrom i)).length ≤ n →
      (text ++ punctuated (hr.hostsFrom i)).length < 2147483648 →
      ∃ buf', toStringLoop hr n ',' rounds i text.length buf =
          some ((text ++ punctuated (hr.hostsFrom i)).length, false, buf') ∧
        buf'.length = buf.length ∧ text ++ punctuated (hr.hostsFrom i) <+: buf' := by
  induction rounds with
  | zero =>
    intro i text buf _ _ hrounds hfits _
    rw [List.length_append] at hfits
    omega
  | succ rounds ih =>
    intro i text buf htext hbuf hrounds hfits hint
    rw [toStringLoop]
    by_cases hi : i ≤ hr.hi
    · rw [if_pos hi]
      have hnames : text ++ punctuated (hr.hostsFrom i) =
          text ++ (hr.pfx ++ padded hr.width i) ++ [','] ++ punctuated (hr.hostsFrom (i + 1)) := by
        rw [HostRange.hostsFrom_le hi]
        simp [punctuated]
      rw [hnames] at hfits hint ⊢
      have hlength := hfits
      rw [List.length_append, List.length_append, List.length_append,
        List.length_singleton] at hlength
      have hlength' := hint
      rw [List.length_append, List.length_append, List.length_append,
        List.length_singleton] at hlength'
      obtain ⟨buf1, hprint, hlength1, -⟩ :=
        snprintf_inside (n - text.length) (hr.pfx ++ padded hr.width i) htext (by omega)
      have hprinted := snprintf_printed htext hprint (by omega)
      obtain ⟨buf2, hsep, hlength2⟩ :=
        writeChar_fits buf1 (text ++ (hr.pfx ++ padded hr.width i)).length ',' (by
          rw [List.length_append]; omega)
      have hnext :=
        ih (i + 1) (text ++ (hr.pfx ++ padded hr.width i) ++ [',']) buf2
        (writeChar_printed hprinted hsep)
        (by omega)
          (by rw [List.length_append, List.length_append, List.length_singleton]; omega) hfits hint
      rw [List.length_append, List.length_singleton] at hnext
      obtain ⟨buf', hloop, hlength', hprefix⟩ := hnext
      refine ⟨buf', ?_, by omega, hprefix⟩
      simp only [hprint, Option.bind_eq_bind, Option.bind_some]
      rw [if_neg (by omega), intAdd_eq (by omega), ← List.length_append]
      simp only [Option.bind_some, hsep]
      rw [List.length_append] at hloop ⊢
      rw [intAdd_eq (by omega), ulongAdd_one (by omega)]
      exact hloop
    · rw [if_neg hi, HostRange.hostsFrom_lt (by omega)]
      simp [punctuated, htext]

/-- Assumes: a range that is endless, or whose names from a number on, each with its separator, have
no room. The loop is left by `break`. -/
theorem toStringLoop_truncates {hr : HostRange} {n : ℕ} (hint : n < 2147483648) (rounds : ℕ) :
    ∀ (i : ℕ) (text buf : List Char), text <+: buf → n ≤ buf.length → text.length ≤ n →
      n < text.length + rounds →
      (hr.hi = ulongMax ∧ i ≤ ulongMax ∨
        hr.hi < ulongMax ∧ n < (text ++ punctuated (hr.hostsFrom i)).length) →
      ∃ buf', toStringLoop hr n ',' rounds i text.length buf = some (n, true, buf') ∧
        buf'.length = buf.length := by
  induction rounds with
  | zero =>
    intro i text buf _ _ hlen hrounds _
    omega
  | succ rounds ih =>
    intro i text buf htext hbuf hlen hrounds hlong
    have hi : i ≤ hr.hi := by
      rcases hlong with ⟨hmax, hi⟩ | ⟨-, hlong⟩
      · omega
      · by_contra hi
        rw [HostRange.hostsFrom_lt (by omega), punctuated, List.flatMap_nil,
          List.append_nil] at hlong
        omega
    obtain ⟨buf1, hprint, hlength1, -⟩ :=
      snprintf_inside (n - text.length) (hr.pfx ++ padded hr.width i) htext (by omega)
    rw [toStringLoop, if_pos hi]
    simp only [hprint, Option.bind_eq_bind, Option.bind_some]
    by_cases hcut : n - text.length ≤ (hr.pfx ++ padded hr.width i).length
    · exact ⟨buf1, if_pos hcut, hlength1⟩
    · have hprinted := snprintf_printed htext hprint (by omega)
      obtain ⟨buf2, hsep, hlength2⟩ :=
        writeChar_fits buf1 (text ++ (hr.pfx ++ padded hr.width i)).length ',' (by
          rw [List.length_append]; omega)
      have hnext := ih (ulongAdd i 1) (text ++ (hr.pfx ++ padded hr.width i) ++ [',']) buf2
        (writeChar_printed hprinted hsep) (by omega)
        (by rw [List.length_append, List.length_append, List.length_singleton]; omega)
        (by rw [List.length_append, List.length_append, List.length_singleton]; omega)
        (hlong.imp (fun h ↦ ⟨h.1, by unfold ulongAdd ulongMax; omega⟩) fun h ↦ ⟨h.1, by
          rw [ulongAdd_one (by omega)]
          have hnames := h.2
          rw [HostRange.hostsFrom_le hi] at hnames
          simpa [punctuated] using hnames⟩)
      rw [List.length_append, List.length_singleton] at hnext
      obtain ⟨buf', hloop, hlength'⟩ := hnext
      refine ⟨buf', ?_, by omega⟩
      rw [if_neg hcut, intAdd_eq (by omega), ← List.length_append]
      simp only [Option.bind_some, hsep]
      rw [List.length_append] at hloop ⊢
      rw [intAdd_eq (by omega)]
      exact hloop

/-- The loop for an endless range is never left but by `break`. -/
theorem toStringLoop_endless {hr : HostRange} {n : ℕ} (hmax : hr.hi = ulongMax) (rounds : ℕ) :
    ∀ (i len : ℕ) (buf : List Char) {len' : ℕ} {truncated : Bool} {buf' : List Char}, i ≤ ulongMax →
      toStringLoop hr n ',' rounds i len buf = some (len', truncated, buf') → truncated = true := by
  induction rounds with
  | zero =>
    intro i len buf len' truncated buf' _ h
    exact absurd h (by simp [toStringLoop])
  | succ rounds ih =>
    intro i len buf len' truncated buf' hi h
    rw [toStringLoop, if_pos (by omega)] at h
    obtain ⟨⟨ret, buf1⟩, -, h⟩ := Option.bind_eq_some_iff.mp h
    simp only at h
    split_ifs at h with hcut
    · exact (Prod.mk.inj (Prod.mk.inj (Option.some.inj h)).2).1.symm
    · obtain ⟨sum, -, h⟩ := Option.bind_eq_some_iff.mp h
      obtain ⟨buf2, -, h⟩ := Option.bind_eq_some_iff.mp h
      obtain ⟨next, -, h⟩ := Option.bind_eq_some_iff.mp h
      exact ih _ _ _ (by unfold ulongAdd ulongMax; omega) h

/-- Assumes: a range that is no single host and has at least one name. Its names with a comma behind
each are its text and a comma. -/
theorem punctuated_hostsFrom_lo {hr : HostRange} (hbounds : hr.lo ≤ hr.hi)
    (hsingle : hr.singlehost = false) :
    punctuated (hr.hostsFrom hr.lo) = derangedText [hr] ++ [','] := by
  rw [HostRange.hostsFrom_lo hsingle, punctuated_eq (HostRange.hosts_ne_nil hbounds), derangedText,
    hostsOf_cons, hostsOf_nil,
    List.append_nil]

/-- The text of a single host is its name. -/
theorem derangedText_single {hr : HostRange} (hsingle : hr.singlehost = true) : derangedText [hr] =
    hr.pfx := by
  rw [derangedText, hostsOf_cons, HostRange.hosts, if_pos hsingle]
  simp [List.intercalate]

/-- Assumes: a bounded range and room for its text and the terminator. `hostrange_to_string` prints
the text. -/
theorem hostrangeToString_fits {hr : HostRange} {n : ℕ} {buf : List Char} (hbounds : hr.lo ≤ hr.hi)
    (hmax : hr.hi ≤ ulongMax) (hends : ¬ hr.Endless) (hbuf : n ≤ buf.length)
    (hfits : (derangedText [hr]).length < n)
    (hint : (derangedText [hr]).length + 1 < 2147483648) :
    ∃ buf', hostrangeToString hr n buf ',' = some (((derangedText [hr]).length : ℤ), buf') ∧
      buf'.length = buf.length ∧ derangedText [hr] <+: buf' := by
  unfold hostrangeToString
  rw [if_neg (by omega)]
  by_cases hsingle : hr.singlehost = true
  · rw [if_pos hsingle, derangedText_single hsingle]
    rw [derangedText_single hsingle] at hfits
    obtain ⟨buf', hprint, hlength, -⟩ := snprintf_inside n hr.pfx (List.nil_prefix : [] <+: buf)
      (by simpa using hbuf)
    exact ⟨buf', by rw [List.length_nil] at hprint; rw [hprint]; rfl, hlength,
      snprintf_printed (List.nil_prefix : [] <+: buf) hprint hfits⟩
  · have hsingle := Bool.eq_false_iff.mpr hsingle
    have hnames := punctuated_hostsFrom_lo hbounds hsingle
    obtain ⟨buf1, hloop, hlength1, hprinted⟩ :=
      toStringLoop_fits (lt_of_le_of_ne hmax fun h ↦ hends ⟨hsingle, h⟩)
        (n + 1) hr.lo [] buf List.nil_prefix hbuf
        (by simp) (by rw [hnames]; simpa using Nat.succ_le_of_lt hfits)
          (by rw [hnames]; simpa using hint)
    rw [hnames, List.nil_append] at hloop hprinted
    rw [List.length_append, List.length_singleton, List.length_nil] at hloop
    obtain ⟨buf2, hend, hlength2⟩ :=
      writeChar_fits buf1 (derangedText [hr]).length '\x00' (by omega)
    refine ⟨buf2, ?_, by
      omega, writeChar_keeps ((List.prefix_append _ _).trans hprinted) le_rfl hend⟩
    rw [if_neg (by simp [hsingle]), hloop]
    simp only [Option.bind_eq_bind, Option.bind_some]
    rw [if_neg (by decide), if_neg (by omega), Nat.add_sub_cancel, hend]
    rfl

/-- Assumes: a range that is endless or whose text is too long for the room, which is not empty. The
value of `hostrange_to_string` says so. -/
theorem hostrangeToString_truncates {hr : HostRange} {n : ℕ} {buf : List Char}
    (hbounds : hr.lo ≤ hr.hi)
    (hmax : hr.hi ≤ ulongMax) (hint : n < 2147483648) (hn : 0 < n) (hbuf : n ≤ buf.length)
    (hlong : hr.Endless ∨ if hr.singlehost then n < (derangedText [hr]).length else n ≤
      (derangedText [hr]).length) :
    ∃ ret buf', hostrangeToString hr n buf ',' = some (ret, buf') ∧ buf'.length = buf.length ∧
      (ret < 0 ∨ (n : ℤ) < ret) := by
  unfold hostrangeToString
  rw [if_neg (by omega)]
  by_cases hsingle : hr.singlehost = true
  · have hlong : n < (derangedText [hr]).length := by
      rcases hlong with hends | hlong
      · exact absurd (hends.1.symm.trans hsingle) (by decide)
      · rwa [if_pos hsingle] at hlong
    rw [derangedText_single hsingle] at hlong
    obtain ⟨buf', hprint, hlength, -⟩ := snprintf_inside n hr.pfx (List.nil_prefix : [] <+: buf)
      (by simpa using hbuf)
    rw [List.length_nil] at hprint
    exact ⟨hr.pfx.length, buf', by rw [if_pos hsingle, hprint]; rfl, hlength, Or.inr (by omega)⟩
  · have hsingle' := Bool.eq_false_iff.mpr hsingle
    have hnames := punctuated_hostsFrom_lo hbounds hsingle'
    have hloops : hr.hi = ulongMax ∧ hr.lo ≤ ulongMax ∨
        hr.hi < ulongMax ∧ n < ([] ++ punctuated (hr.hostsFrom hr.lo)).length := by
      rcases eq_or_lt_of_le hmax with heq | hlt
      · exact Or.inl ⟨heq, by omega⟩
      · rcases hlong with hends | hlong
        · exact absurd hends.2 (by omega)
        · rw [if_neg hsingle] at hlong
          rw [hnames, List.nil_append, List.length_append, List.length_singleton]
          exact Or.inr ⟨hlt, by omega⟩
    obtain ⟨buf1, hloop, hlength1⟩ :=
      toStringLoop_truncates hint (n + 1) hr.lo [] buf List.nil_prefix hbuf
      (by simp) (by simp) hloops
    obtain ⟨buf2, hend, hlength2⟩ := writeChar_fits buf1 (n - 1) '\x00' (by omega)
    refine ⟨-1, buf2, ?_, by omega, Or.inl (by decide)⟩
    rw [List.length_nil] at hloop
    rw [if_neg hsingle, hloop]
    simp only [Option.bind_eq_bind, Option.bind_some]
    rw [if_pos trivial, hend]
    rfl

/-! ### The names of the list -/

/-- What a range leaves of the buffer: the cells in front are kept. -/
theorem take_append_printed {buf text tail new : List Char} (htext : text <+: buf)
    (hnew : new <+: tail) :
    text ++ new <+: buf.take text.length ++ tail := by
  obtain ⟨rest, rfl⟩ := htext
  rw [List.take_left]
  exact (List.prefix_append_right_inj text).mpr hnew

/-- Assumes: ranges that are bounded, and room for their names, each with its separator. The loop
prints them and goes on with the ranges behind. -/
theorem derangedLoop_front {n : ℕ} (back front : List HostRange) :
    ∀ text buf : List Char, text <+: buf → buf.length = n →
      (∀ hr ∈ front, hr.lo ≤ hr.hi ∧ hr.hi ≤ ulongMax ∧ ¬ hr.Endless) →
      (text ++ punctuated (hostsOf front)).length ≤
        n → (text ++ punctuated (hostsOf front)).length < 2147483648 →
      ∃ buf', derangedLoop n (front ++ back) text.length buf =
          derangedLoop n back (text ++ punctuated (hostsOf front)).length buf' ∧
        buf'.length = n ∧ text ++ punctuated (hostsOf front) <+: buf' := by
  induction front with
  | nil =>
    intro text buf htext hbuf _ _ _
    refine ⟨buf, ?_, hbuf, ?_⟩ <;> simp [punctuated, htext]
  | cons hr front ih =>
    intro text buf htext hbuf hranges hfits hint
    obtain ⟨⟨hbounds, hmax, hends⟩, hlater⟩ := List.forall_mem_cons.mp hranges
    have hsplit : text ++ punctuated (hostsOf (hr :: front)) =
        text ++ derangedText [hr] ++ [','] ++ punctuated (hostsOf front) := by
      rw [hostsOf_cons, punctuated_append, punctuated_eq (HostRange.hosts_ne_nil hbounds),
        derangedText, hostsOf_cons,
        hostsOf_nil, List.append_nil]
      simp
    rw [hsplit] at hfits hint ⊢
    have hlength := hfits
    rw [List.length_append, List.length_append, List.length_append,
      List.length_singleton] at hlength
    have hlength' := hint
    rw [List.length_append, List.length_append, List.length_append,
      List.length_singleton] at hlength'
    obtain ⟨tail, hprint, htail, hprinted⟩ := hostrangeToString_fits hbounds hmax hends
      (show n - text.length ≤ (buf.drop text.length).length by rw [List.length_drop]; omega)
        (by omega) (by omega)
    have hjoined := take_append_printed htext hprinted
    obtain ⟨buf2, hsep, hlength2⟩ := writeChar_fits (buf.take text.length ++ tail)
      (text ++ derangedText [hr]).length ','
      (by rw [List.length_append, List.length_append, List.length_take, htail,
        List.length_drop]; omega)
    have hsize : buf2.length = n := by
      rw [hlength2, List.length_append, List.length_take, htail, List.length_drop]
      omega
    have hnext := ih (text ++ derangedText [hr] ++ [',']) buf2 (writeChar_printed hjoined hsep)
      hsize hlater hfits hint
    rw [show (text ++ derangedText [hr] ++ [',']).length =
      (text ++ derangedText [hr]).length + 1 from
      List.length_append] at hnext
    obtain ⟨buf', hloop, hlength3, hprefix⟩ := hnext
    refine ⟨buf', ?_, hlength3, hprefix⟩
    rw [← hloop, List.cons_append, derangedLoop, hprint]
    simp only [Option.bind_eq_bind, Option.bind_some, Int.toNat_natCast]
    rw [if_neg (by omega), intAdd_eq (by omega), ← List.length_append]
    simp only [Option.bind_some, hsep]
    rw [List.length_append, intAdd_eq (by omega)]
    rfl

/-- Assumes: a range that prints as much as there is room. The separator behind it falls behind the
buffer. -/
theorem derangedLoop_outside {n len m : ℕ} {hr : HostRange} {back : List HostRange}
    {buf tail : List Char}
    (hbuf : buf.length = n) (hlen : len ≤ n)
    (hprint : hostrangeToString hr (n - len) (buf.drop len) ',' = some ((m : ℤ), tail))
    (htail : tail.length = (buf.drop len).length) (hm : n ≤ len + m) (hle : m ≤ n - len) :
    derangedLoop n (hr :: back) len buf = none := by
  rw [derangedLoop, hprint]
  simp only [Option.bind_eq_bind, Option.bind_some, Int.toNat_natCast]
  rw [if_neg (by omega)]
  cases hadd : intAdd len m with
  | none => rfl
  | some sum =>
    rw [eq_add_of_intAdd hadd, Option.bind_some, writeChar_outside]
    · rfl
    · rw [List.length_append, List.length_take, htail, List.length_drop]
      omega

/-- Assumes: a buffer that is full, and another range. The separator behind the range falls behind
the buffer. -/
theorem derangedLoop_full {n : ℕ} {hr : HostRange} {back : List HostRange} {buf : List Char}
    (hbuf : buf.length = n) :
    derangedLoop n (hr :: back) n buf = none :=
  derangedLoop_outside (m := 0) hbuf le_rfl (by rw [Nat.sub_self]; exact if_pos rfl) rfl le_rfl
    (Nat.zero_le _)

/-- Assumes: an endless range, and room in front of it. The loop is left by `break`, if it is left
at all. -/
theorem derangedLoop_endless {n len len' : ℕ} {hr : HostRange} {back : List HostRange}
    {buf buf' : List Char}
    {truncated : Bool} (hends : hr.Endless) (hbounds : hr.lo ≤ hr.hi) (hlen : len < n)
    (h : derangedLoop n (hr :: back) len buf = some (len', truncated, buf')) :
      truncated = true := by
  obtain ⟨⟨ret, tail⟩, hprint, h⟩ := Option.bind_eq_some_iff.mp h
  have hret : ret < 0 := by
    unfold hostrangeToString at hprint
    rw [if_neg (by omega), if_neg (by simp [hends.1])] at hprint
    obtain ⟨⟨len1, truncated1, buf1⟩, hloop, hprint⟩ := Option.bind_eq_some_iff.mp hprint
    have hmax := hends.2
    obtain rfl := toStringLoop_endless hmax _ _ _ _ (by omega) hloop
    simp only [if_true] at hprint
    obtain ⟨buf2, -, hprint⟩ := Option.bind_eq_some_iff.mp hprint
    rw [← (Prod.mk.inj (Option.some.inj hprint)).1]
    decide
  simp only at h
  rw [if_pos (Or.inl hret)] at h
  exact (Prod.mk.inj (Prod.mk.inj (Option.some.inj h)).2).1.symm

/-- Assumes: ranges that have no room or of which one is endless. There is a first range that has no
room or is endless. -/
theorem exists_first_long {n : ℕ} (ranges : List HostRange) :
    ∀ front : List HostRange, (∀ hr ∈ front, ¬ hr.Endless) →
      (punctuated (hostsOf front)).length ≤ n →
      ((∃ hr ∈ ranges, hr.Endless) ∨ n < (punctuated (hostsOf (front ++ ranges))).length) →
      ∃ before hr back, front ++ ranges = before ++ hr :: back ∧
        (∀ other ∈ before, ¬ other.Endless) ∧
        (punctuated (hostsOf before)).length ≤ n ∧
        (hr.Endless ∨ n < (punctuated (hostsOf (before ++ [hr]))).length) := by
  induction ranges with
  | nil =>
    intro front _ hfits hlong
    rw [List.append_nil] at hlong
    rcases hlong with ⟨hr, hmem, -⟩ | hlong
    · exact absurd hmem List.not_mem_nil
    · omega
  | cons hr ranges ih =>
    intro front hends hfits hlong
    by_cases hhere : hr.Endless ∨ n < (punctuated (hostsOf (front ++ [hr]))).length
    · exact ⟨front, hr, ranges, rfl, hends, hfits, hhere⟩
    · obtain ⟨hhr, hroom⟩ := not_or.mp hhere
      have hnext := ih (front ++ [hr])
        (fun other hmem ↦ (List.mem_append.mp hmem).elim (hends other) fun h ↦
          List.mem_singleton.mp h ▸ hhr)
        (by omega) (by
          rw [List.append_assoc, List.singleton_append]
          refine hlong.imp_left ?_
          rintro ⟨other, hmem, hother⟩
          rcases List.mem_cons.mp hmem with rfl | hmem
          · exact absurd hother hhr
          · exact ⟨other, hmem, hother⟩)
      rwa [List.append_assoc, List.singleton_append] at hnext

section Delivery

variable {n : ℕ} {ranges : List HostRange} {buf : List Char}
  (hbounds : ∀ hr ∈ ranges, hr.lo ≤ hr.hi) (hmax : ∀ hr ∈ ranges, hr.hi ≤ ulongMax)
    (hbuf : buf.length = n)
include hbounds hmax hbuf

/-- Assumes: bounded ranges in front, whose names have room, each with its separator. The loop from
the start of the buffer comes to the ranges behind. -/
theorem derangedLoop_start {front back : List HostRange} (hsplit : ranges = front ++ back)
    (hends : ∀ hr ∈ front, ¬ hr.Endless) (hfits : (punctuated (hostsOf front)).length ≤ n)
    (hint : (punctuated (hostsOf front)).length < 2147483648) :
    ∃ buf', derangedLoop n ranges 0 buf =
      derangedLoop n back (punctuated (hostsOf front)).length buf' ∧
      buf'.length = n ∧ punctuated (hostsOf front) <+: buf' :=
  hsplit ▸ derangedLoop_front back front [] buf List.nil_prefix hbuf
    (fun hr hmem ↦ ⟨hbounds hr (hsplit ▸ List.mem_append_left back hmem),
      hmax hr (hsplit ▸ List.mem_append_left back hmem), hends hr hmem⟩) hfits hint

/-- Assumes: a separator that falls behind the buffer. The loop writes it there. -/
theorem derangedLoop_overruns (hint : n < 2147483648 ∨
    (punctuated (hostsOf ranges)).length < 2147483648)
    (hoverruns : Overruns n ranges) : derangedLoop n ranges 0 buf = none := by
  obtain ⟨front, hr, back, hsplit, hends, hlength⟩ := hoverruns
  have hhr : hr ∈ ranges := hsplit ▸ List.mem_append_right front List.mem_cons_self
  have hsum := length_punctuated_split hbounds hsplit
  have hnames : (punctuated (hostsOf (front ++ [hr]))).length =
      (punctuated (hostsOf front)).length + (punctuated hr.hosts).length := by simp
  have htotal : (punctuated (hostsOf ranges)).length =
      (punctuated (hostsOf (front ++ [hr]))).length + (punctuated (hostsOf back)).length := by
    rw [hsplit]
    simp [add_assoc]
  rcases hlength with ⟨hsingle, hlength⟩ | ⟨hlength, hback⟩
  · have hname : (punctuated hr.hosts).length = hr.pfx.length + 1 := by
      rw [HostRange.hosts, if_pos hsingle]
      simp [punctuated]
    obtain ⟨buf', hloop, hsize, -⟩ := derangedLoop_start hbounds hmax hbuf hsplit
      (fun other hmem ↦ hends other (List.mem_append_left [hr] hmem)) (by omega) (by omega)
    rw [hloop]
    rcases Nat.eq_zero_or_pos (n - (punctuated (hostsOf front)).length) with hzero | hpos
    · rw [show (punctuated (hostsOf front)).length = n by omega]
      exact derangedLoop_full hsize
    · obtain ⟨tail, hprint, htail, -⟩ :=
        snprintf_inside (n - (punctuated (hostsOf front)).length) hr.pfx
        (List.nil_prefix : [] <+: buf'.drop (punctuated (hostsOf front)).length)
        (by rw [List.length_drop, List.length_nil]; omega)
      refine derangedLoop_outside hsize (by omega) (m := hr.pfx.length) ?_ htail (by
        omega) (by omega)
      rw [List.length_nil] at hprint
      rw [hostrangeToString, if_neg (by omega), if_pos hsingle, hprint]
      rfl
  · obtain ⟨next, back, rfl⟩ := List.exists_cons_of_ne_nil hback
    obtain ⟨buf', hloop, hsize, -⟩ := derangedLoop_start hbounds hmax hbuf
      (show ranges = (front ++ [hr]) ++ next :: back by rw [hsplit, List.append_assoc]; rfl) hends
        (by omega) (by omega)
    rw [hloop, hsum, hlength]
    exact derangedLoop_full hsize

/-- Assumes: a separator that never falls behind the buffer, and an endless range or a text that
does not fit. The text is cut. -/
theorem derangedLoop_truncates (hn : 0 < n) (hint : n < 2147483648)
    (hoverruns : ¬ Overruns n ranges)
    (hlong : (∃ hr ∈ ranges, hr.Endless) ∨ n < (punctuated (hostsOf ranges)).length) :
    ∃ buf', derangedLoop n ranges 0 buf = some (n, true, buf') ∧ buf'.length = n := by
  obtain ⟨front, hr, back, hsplit, hends, hfits, hfirst⟩ :=
    exists_first_long ranges [] (fun _ h ↦ absurd h List.not_mem_nil) (Nat.zero_le n) hlong
  rw [List.nil_append] at hsplit
  have hhr : hr ∈ ranges := hsplit ▸ List.mem_append_right front List.mem_cons_self
  obtain ⟨buf', hloop, hsize, -⟩ :=
    derangedLoop_start hbounds hmax hbuf hsplit hends hfits (by omega)
  have hroom : (punctuated (hostsOf front)).length < n := by
    refine lt_of_le_of_ne hfits fun hfull ↦ hoverruns ?_
    have hfront : front ≠ [] := by
      rintro rfl
      exact absurd hfull (by simp [punctuated]; omega)
    obtain ⟨before, last, rfl⟩ := (List.eq_nil_or_concat' front).resolve_left hfront
    refine ⟨before, last, hr :: back, by rw [hsplit, List.append_assoc]; rfl, hends,
      Or.inr ⟨?_, List.cons_ne_nil _ _⟩⟩
    rw [← length_punctuated _ (by simp), hfull]
    exact fun other hmem ↦ hbounds other (hsplit ▸ List.mem_append_left _ hmem)
  have htext : (punctuated hr.hosts).length = (derangedText [hr]).length + 1 := by
    rw [← length_punctuated (fun other hmem ↦ List.mem_singleton.mp hmem ▸ hbounds hr hhr)
      (List.cons_ne_nil _ _)]
    simp
  have hnames : (punctuated (hostsOf (front ++ [hr]))).length =
      (punctuated (hostsOf front)).length + (punctuated hr.hosts).length := by simp
  have hcut : hr.Endless ∨ if hr.singlehost then n - (punctuated (hostsOf front)).length <
    (derangedText [hr]).length
      else n - (punctuated (hostsOf front)).length ≤ (derangedText [hr]).length := by
    refine hfirst.imp_right fun hlt ↦ ?_
    split_ifs with hsingle
    · -- a single host that fills the buffer to its last cell is an overrun
      refine lt_of_le_of_ne (by omega) fun heq ↦
        hoverruns ⟨front, hr, back, hsplit, ?_, Or.inl ⟨hsingle, ?_⟩⟩
      · intro other hmem
        rcases List.mem_append.mp hmem with hmem | hmem
        · exact hends other hmem
        · obtain rfl := List.mem_singleton.mp hmem
          exact fun h ↦ absurd (h.1.symm.trans hsingle) (by decide)
      · have hsum := length_punctuated_split hbounds hsplit
        omega
    · omega
  obtain ⟨ret, tail, hprint, htail, hret⟩ := hostrangeToString_truncates (hbounds hr hhr)
    (hmax hr hhr)
    (show n - (punctuated (hostsOf front)).length < 2147483648 by omega) (by omega)
    (show _ ≤ (buf'.drop (punctuated (hostsOf front)).length).length by
      rw [List.length_drop]; omega) hcut
  refine ⟨buf'.take (punctuated (hostsOf front)).length ++ tail, ?_, ?_⟩
  · rw [hloop, derangedLoop, hprint]
    simp only [Option.bind_eq_bind, Option.bind_some]
    rw [if_pos hret, toInt_eq_self (by omega) (by omega)]
    rfl
  · rw [List.length_append, List.length_take, htail, List.length_drop]
    omega

/-- Assumes: an endless range, and a text that would fit. The list is not delivered. -/
theorem derangedLoop_endless_fits (hint : n < 2147483648 ∨
    (punctuated (hostsOf ranges)).length < 2147483648)
    (hlong : ∃ hr ∈ ranges, hr.Endless) (hfits : (punctuated (hostsOf ranges)).length ≤ n)
    {len' : ℕ} {truncated : Bool}
    {buf' : List Char} (h : derangedLoop n ranges 0 buf = some (len', truncated, buf')) :
      truncated = true := by
  obtain ⟨front, hr, back, hsplit, hends, hfront, hfirst⟩ :=
    exists_first_long ranges [] (fun _ h ↦ absurd h List.not_mem_nil) (Nat.zero_le n) (Or.inl hlong)
  rw [List.nil_append] at hsplit
  have hhr : hr ∈ ranges := hsplit ▸ List.mem_append_right front List.mem_cons_self
  have htotal : (punctuated (hostsOf ranges)).length =
      (punctuated (hostsOf (front ++ [hr]))).length + (punctuated (hostsOf back)).length := by
    rw [hsplit]
    simp [add_assoc]
  have hnames : (punctuated (hostsOf (front ++ [hr]))).length =
      (punctuated (hostsOf front)).length + (punctuated hr.hosts).length := by simp
  obtain ⟨buf1, hloop, hsize, -⟩ :=
    derangedLoop_start hbounds hmax hbuf hsplit hends hfront (by omega)
  rw [hloop] at h
  rcases eq_or_lt_of_le hfront with hfull | hroom
  · rw [hfull, derangedLoop_full hsize] at h
    exact absurd h (by simp)
  · exact derangedLoop_endless (hfirst.resolve_right (by omega)) (hbounds hr hhr) hroom h

end Delivery

/-! ### When the text is delivered -/

/-- Assumes: a separator that falls behind the buffer. The text of the list is not delivered. -/
theorem not_deranged_of_overruns {hl : Hostlist} {n : ℕ} {buf : List Char}
    (hbounds : ∀ hr ∈ hl.ranges, hr.lo ≤ hr.hi)
    (hmax : ∀ hr ∈ hl.ranges, hr.hi ≤ ulongMax) (hbuf : buf.length = n)
    (hint : n < 2147483648 ∨ (punctuated (hostsOf hl.ranges)).length < 2147483648)
    (hoverruns : Overruns n hl.ranges) :
    ¬ Deranged hl n buf := by
  rintro ⟨ret, buf', hrun, -⟩
  rw [hostlistDerangedString, derangedLoop_overruns hbounds hmax hbuf hint hoverruns] at hrun
  exact absurd hrun (by simp)

/-- Assumes: a buffer that is not empty, bounds in order, as `unsigned long`, and a size or a text
whose lengths are `int`. The text of the list is delivered exactly if no separator falls behind the
buffer, and a list with an endless range has a text that does not fit. -/
theorem deranged_iff {hl : Hostlist} {n : ℕ} {buf : List Char} (hn : 1 ≤ n) (hbuf : buf.length = n)
    (hbounds : ∀ hr ∈ hl.ranges, hr.lo ≤ hr.hi ∧ hr.hi ≤ ulongMax)
    (hint : n < 2147483648 ∨ (derangedText hl.ranges).length + 1 < 2147483648) :
    Deranged hl n buf ↔
      ¬ Overruns n hl.ranges ∧ ∀ hr ∈ hl.ranges, hr.Endless →
      n ≤ (derangedText hl.ranges).length := by
  have hlo : ∀ hr ∈ hl.ranges, hr.lo ≤ hr.hi := fun hr hmem ↦ (hbounds hr hmem).1
  have hmax : ∀ hr ∈ hl.ranges, hr.hi ≤ ulongMax := fun hr hmem ↦ (hbounds hr hmem).2
  by_cases hempty : hl.ranges = []
  · obtain ⟨buf1, hend, -⟩ := writeChar_fits buf 0 '\x00' (by omega)
    have hprinted := writeChar_printed (List.nil_prefix : [] <+: buf) hend
    refine iff_of_true ⟨0, buf1, ?_, ?_, fun _ ↦ ?_⟩ ⟨?_, ?_⟩
    · rw [hostlistDerangedString, hempty, derangedLoop]
      simp only [Option.bind_eq_bind, Option.bind_some, Nat.zero_sub, hend]
      rw [if_neg (by simp; omega)]
      rfl
    · simp [hempty, derangedText, List.intercalate]
      omega
    · simpa [hempty, derangedText, List.intercalate] using hprinted
    · rintro ⟨front, hr, back, hsplit, -⟩
      simp [hempty] at hsplit
    · simp [hempty]
  have hlength := length_punctuated hlo hempty
  constructor
  · intro hderanged
    refine ⟨fun hoverruns ↦ not_deranged_of_overruns hlo hmax hbuf (by omega) hoverruns hderanged,
      fun hr hmem hends ↦ ?_⟩
    by_contra hfits
    obtain ⟨ret, buf', hrun, hfails, -⟩ := hderanged
    obtain ⟨⟨len, truncated, buf1⟩, hloop, hrun⟩ := Option.bind_eq_some_iff.mp hrun
    obtain rfl := derangedLoop_endless_fits hlo hmax hbuf (by omega) ⟨hr, hmem, hends⟩
      (by omega) hloop
    obtain ⟨buf2, -, hrun⟩ := Option.bind_eq_some_iff.mp hrun
    rw [if_pos (Or.inl rfl)] at hrun
    exact hfits (hfails.mp (Prod.mk.inj (Option.some.inj hrun)).1.symm)
  · rintro ⟨hoverruns, hendless⟩
    by_cases hfits : (derangedText hl.ranges).length < n
    · obtain ⟨buf1, hloop, hsize, hprinted⟩ :=
        derangedLoop_start hlo hmax hbuf (List.append_nil _).symm
        (fun hr hmem hends ↦ absurd (hendless hr hmem hends) (by omega)) (by omega) (by omega)
      obtain ⟨buf2, hend, -⟩ :=
        writeChar_fits buf1 (derangedText hl.ranges).length '\x00' (by omega)
      rw [hlength, derangedLoop] at hloop
      rw [punctuated_hostsOf hlo hempty] at hprinted
      refine ⟨(derangedText hl.ranges).length, buf2, ?_, by omega, fun _ ↦
        ⟨rfl, writeChar_printed ((List.prefix_append _ _).trans hprinted) hend⟩⟩
      rw [hostlistDerangedString, hloop]
      simp only [Option.bind_eq_bind, Option.bind_some, Nat.add_sub_cancel, hend]
      rw [if_neg (by simp; omega)]
      rfl
    · obtain ⟨buf1, hloop, hsize⟩ := derangedLoop_truncates hlo hmax hbuf hn (by omega) hoverruns
        (Or.inr (by omega))
      obtain ⟨buf2, hend, -⟩ := writeChar_fits buf1 (n - 1) '\x00' (by omega)
      refine ⟨-1, buf2, ?_, by omega, fun h ↦ absurd rfl h⟩
      rw [hostlistDerangedString, hloop]
      simp only [Option.bind_eq_bind, Option.bind_some, hend]
      rw [if_pos (Or.inl trivial)]
      rfl

/-- A list with ranges of two widths and a single host. -/
def mixedHosts : Hostlist :=
  { ranges := [hostrangeCreate ['n'] 9 11 1, hostrangeCreateSingle ['a'],
    hostrangeCreate ['n'] 3 4 2], nhosts := 6 }

/-- The list in a buffer that is too short for its text. -/
theorem deranged_iff_mixed :
    Deranged mixedHosts 12 (List.replicate 12 'x') ↔
      ¬Overruns 12 mixedHosts.ranges ∧ ∀ hr ∈ mixedHosts.ranges, hr.Endless →
      12 ≤ (derangedText mixedHosts.ranges).length :=
  deranged_iff (by decide) rfl (by decide) (Or.inl (by decide))

/-- Names of one length, with a comma behind each. -/
theorem length_punctuated_of_forall {names : List (List Char)} {length : ℕ}
    (h : ∀ name ∈ names, name.length = length) :
    (punctuated names).length = names.length * (length + 1) := by
  induction names with
  | nil => simp [punctuated]
  | cons name names ih =>
    obtain ⟨hname, hrest⟩ := List.forall_mem_cons.mp h
    have hlater := ih hrest
    rw [punctuated] at hlater ⊢
    rw [List.flatMap_cons, List.length_append, List.length_append, hname, hlater, List.length_cons,
      List.length_cons, List.length_nil]
    ring

/-- The list of `ab[00001-08192],c`, whose first names leave one of 65536 cells. -/
def fullHosts : Hostlist :=
  { ranges := [hostrangeCreate ['a', 'b'] 1 8192 5, hostrangeCreateSingle ['c']], nhosts := 8193 }

/-- The first names of the list, with a comma behind each, fill 65536 cells. -/
theorem length_punctuated_fullHosts :
    (punctuated (hostrangeCreate ['a', 'b'] 1 8192 5).hosts).length = 65536 := by
  have hseven : ∀ name ∈ (hostrangeCreate ['a', 'b'] 1 8192 5).hosts, name.length = 7 := by
    intro name hname
    rw [HostRange.hosts, if_neg (by decide)] at hname
    obtain ⟨number, hnumber, rfl⟩ := List.mem_map.mp hname
    have hdigits : numDigits number ≤ 5 := (numDigits_le_iff (by decide)).mpr (by
      have hbound := (List.mem_range'_1.mp hnumber).2
      simp only [hostrangeCreate] at hbound
      omega)
    rw [List.length_append, length_padded]
    simp only [hostrangeCreate, List.length_cons, List.length_nil]
    omega
  rw [length_punctuated_of_forall hseven, HostRange.hosts, if_neg (by decide), List.length_map,
    List.length_range']
  rfl

/-- The separator behind the last name falls behind a buffer of 65536 cells. -/
theorem overruns_fullHosts : Overruns 65536 fullHosts.ranges := by
  have hnames : punctuated (hostsOf ([] ++ [hostrangeCreate ['a', 'b'] 1 8192 5])) =
      punctuated (hostrangeCreate ['a', 'b'] 1 8192 5).hosts := by
    rw [List.nil_append, hostsOf_cons, hostsOf_nil, List.append_nil]
  have hsplit : fullHosts.ranges =
      [] ++ hostrangeCreate ['a', 'b'] 1 8192 5 :: [hostrangeCreateSingle ['c']] := rfl
  have htext := length_punctuated_split (show ∀ hr ∈ fullHosts.ranges, hr.lo ≤ hr.hi by
    decide) hsplit
  rw [hnames, length_punctuated_fullHosts] at htext
  exact ⟨[], _, _, hsplit, by decide, Or.inr ⟨htext.symm, by decide⟩⟩

/-- In a cleared buffer of the size that `whatsup` has, the text of this list is not delivered. -/
theorem not_deranged_fullHosts : ¬ Deranged fullHosts 65536 (List.replicate 65536 '\x00') :=
  not_deranged_of_overruns (by decide) (by decide) List.length_replicate (Or.inl (by decide))
    overruns_fullHosts

end Whatsup
