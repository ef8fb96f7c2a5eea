import Mathlib.Data.List.Lex
import Mathlib.Data.List.Range
import Whatsup.CLib.Numeral

/-!
# Host ranges: the elements of a hostlist

A hostlist is an array of host ranges (`src/libcommon/hostlist.c`): a prefix, a lowest and a
highest numeric suffix, and the width to which suffixes are padded with zeros; or a single host
without a valid suffix, whose whole name is the prefix. `HostRange.hosts` is what a range denotes.

Insertion, search and sorting all decide by `widthEquiv` whether two paddings are interchangeable,
and overwrite one of the two widths when they are. `widthEquiv_eq_true_iff` says when it holds, in
terms of the names alone, and `widthEquiv_of_eq_true` that the overwritten width writes every
number of its range as before; so a rewritten range denotes the same hosts (`hosts_setWidth`).
-/

set_option autoImplicit false
set_option relaxedAutoImplicit false

namespace Whatsup

open CLib

/-! ### Data -/

/-- `MAX_RANGE`: more hosts in one range are taken for an error. -/
def maxRange : ℕ := 16384

/-- `MAX_HOST_SUFFIX`: the largest number that is read as a suffix of a host name. -/
def maxHostSuffix : ℕ := 33554432

/-- `MAX_RANGES`: the most ranges between two brackets. -/
def maxRanges : ℕ := 10240

/-- `struct hostrange_components`. If `singlehost` is set, `lo` and `hi` are invalid. -/
structure HostRange where
  pfx : List Char
  lo : ℕ
  hi : ℕ
  width : ℕ
  singlehost : Bool
deriving DecidableEq

/-- The names a range denotes, lowest suffix first. -/
def HostRange.hosts (hr : HostRange) : List (List Char) :=
  if hr.singlehost then [hr.pfx]
  else (List.range' hr.lo (hr.hi + 1 - hr.lo)).map fun number ↦ hr.pfx ++ padded hr.width number

/-- What every range of a hostlist satisfies: bounds in order and below `ULONG_MAX`, and the bounds
of a single host as `hostrange_create_single` sets them. -/
structure HostRange.Valid (hr : HostRange) : Prop where
  lo_le_hi : hr.lo ≤ hr.hi
  hi_lt : hr.hi < ulongMax
  single : hr.singlehost = true → hr.lo = 0 ∧ hr.hi = 0

/-- A range as it is made from text: its bounds are values of `unsigned long`, and a single host is
as `hostrange_create_single` makes it. -/
structure HostRange.Made (hr : HostRange) : Prop where
  single : hr.singlehost = true → hr.lo = 0 ∧ hr.hi = 0 ∧ hr.width = 0
  lo_le : hr.lo ≤ ulongMax
  hi_le : hr.hi ≤ ulongMax

/-- A range as it is made, with bounds in order. -/
structure HostRange.Sound (hr : HostRange) : Prop extends hr.Made where
  lo_le_hi : hr.lo ≤ hr.hi

/-- Names are compared character by character. -/
instance lawfulBEq_name : LawfulBEq (List Char) :=
  List.instLawfulBEq

/-- The names a sequence of ranges denotes. -/
def hostsOf (ranges : List HostRange) : List (List Char) :=
  ranges.flatMap HostRange.hosts

@[simp]
theorem hostsOf_nil : hostsOf [] = [] := rfl

@[simp]
theorem hostsOf_cons (hr : HostRange) (rest : List HostRange) :
    hostsOf (hr :: rest) = hr.hosts ++ hostsOf rest := rfl

@[simp]
theorem hostsOf_append (front back : List HostRange) :
    hostsOf (front ++ back) = hostsOf front ++ hostsOf back :=
  List.flatMap_append

/-- The names a range denotes, each with whether it is a single host. -/
def HostRange.marks (hr : HostRange) : List (List Char × Bool) :=
  hr.hosts.map fun name ↦ (name, hr.singlehost)

/-- The names a sequence of ranges denotes, each with whether it is a single host. -/
def marksOf (ranges : List HostRange) : List (List Char × Bool) :=
  ranges.flatMap HostRange.marks

@[simp]
theorem marksOf_nil : marksOf [] = [] := rfl

@[simp]
theorem marksOf_cons (hr : HostRange) (rest : List HostRange) :
    marksOf (hr :: rest) = hr.marks ++ marksOf rest := rfl

@[simp]
theorem marksOf_append (front back : List HostRange) :
    marksOf (front ++ back) = marksOf front ++ marksOf back :=
  List.flatMap_append

/-- The names of the marks are those that are denoted. -/
@[simp]
theorem map_fst_marksOf (ranges : List HostRange) : (marksOf ranges).map Prod.fst =
    hostsOf ranges := by
  induction ranges with
  | nil => rfl
  | cons hr rest ih =>
    rw [marksOf_cons, hostsOf_cons, List.map_append, ih, HostRange.marks, List.map_map]
    exact congrArg (· ++ hostsOf rest) (List.map_id _)

/-! ### Widths -/

/-- The digits counted by the loop `while (num /= 10L) n++`; the first argument bounds its
rounds. -/
def countDigits : ℕ → ℕ → ℕ → ℕ
  | 0, _, n => n
  | rounds + 1, num, n => if num / 10 = 0 then n else countDigits rounds (num / 10) (n + 1)

/-- `_zero_padded`: the number of zeros needed to pad `num` to `width`. -/
def zeroPadded (num width : ℕ) : ℕ :=
  let n := countDigits num num 1
  if width > n then width - n else 0

/-- `_width_equiv`: whether one format width can serve both `n` and `m`, and the two widths as the
call leaves them. The first test of the source compares the two pointers, which never are equal. -/
def widthEquiv (n wn m wm : ℕ) : Bool × ℕ × ℕ :=
  let npad := zeroPadded n wn
  let nmpad := zeroPadded n wm
  let mpad := zeroPadded m wm
  let mnpad := zeroPadded m wn
  if npad ≠ nmpad ∧ mpad ≠ mnpad then (false, wn, wm)
  else if npad ≠ nmpad then
    if mpad = mnpad then (true, wn, wn) else (false, wn, wm)
  else
    if npad = nmpad then (true, wm, wm) else (false, wn, wm)

/-- Assumes: enough rounds for the quotients to reach zero. The loop counts the digits. -/
theorem countDigits_eq {rounds num : ℕ} (n : ℕ) (h : num ≤ rounds) :
    countDigits rounds num n + 1 = n + numDigits num := by
  induction rounds generalizing num n with
  | zero =>
    have hnum : num = 0 := Nat.le_zero.mp h
    rw [countDigits, hnum, numDigits_of_lt_ten (by decide)]
  | succ rounds ih =>
    rw [countDigits]
    split_ifs with hlast
    · rw [numDigits_of_lt_ten (by omega)]
    · have hdigits : numDigits num = numDigits (num / 10) + 1 := numDigits_div_ten (by omega)
      rw [ih (n + 1) (by omega)]
      omega

/-- The padding is what the digits leave of the width. -/
theorem zeroPadded_eq (num width : ℕ) : zeroPadded num width = width - numDigits num := by
  have h : countDigits num num 1 + 1 = 1 + numDigits num := countDigits_eq 1 le_rfl
  unfold zeroPadded
  simp only
  split_ifs <;> omega

/-- Two widths pad a number alike exactly when they write it alike. -/
theorem zeroPadded_eq_zeroPadded_iff {num width width' : ℕ} :
    zeroPadded num width = zeroPadded num width' ↔ padded width num = padded width' num := by
  rw [zeroPadded_eq, zeroPadded_eq, padded_eq_padded_iff]

/-- Assumes: two widths that write a number alike. They write every larger number alike. -/
theorem padded_eq_of_padded_eq {width width' low number : ℕ}
    (h : padded width low = padded width' low) (hle : low ≤ number) :
    padded width number = padded width' number := by
  have hdigits := numDigits_mono hle
  rw [padded_eq_padded_iff] at h ⊢
  omega

/-- Two widths are equivalent for two numbers exactly when they write one of them alike. -/
theorem widthEquiv_eq_true_iff {n wn m wm : ℕ} :
    (widthEquiv n wn m wm).1 = true ↔
      padded wn n = padded wm n ∨ padded wn m = padded wm m := by
  rw [← zeroPadded_eq_zeroPadded_iff, ← zeroPadded_eq_zeroPadded_iff]
  unfold widthEquiv
  simp only
  split_ifs with hboth hn hm hn' <;> simp_all [eq_comm]

/-- Assumes: widths that are not equivalent. Neither is overwritten. -/
theorem widthEquiv_of_eq_false {n wn m wm : ℕ} (h : (widthEquiv n wn m wm).1 = false) :
    widthEquiv n wn m wm = (false, wn, wm) := by
  unfold widthEquiv at h ⊢
  simp only at h ⊢
  split_ifs at h ⊢ <;> simp_all

/-- Assumes: equivalent widths. Afterwards both are one width, which writes every number from `n`
on as the first width did and every number from `m` on as the second did. -/
theorem widthEquiv_of_eq_true {n wn m wm : ℕ} (h : (widthEquiv n wn m wm).1 = true) :
    ∃ width, widthEquiv n wn m wm = (true, width, width) ∧
      (∀ number, n ≤ number → padded width number = padded wn number) ∧
      ∀ number, m ≤ number → padded width number = padded wm number := by
  unfold widthEquiv at h ⊢
  simp only [zeroPadded_eq_zeroPadded_iff, ne_eq] at h ⊢
  split_ifs at h ⊢ with hboth hn hm
  · exact ⟨wm, rfl, fun number hle ↦ padded_eq_of_padded_eq hn.symm hle, fun _ _ ↦ rfl⟩
  · exact ⟨wn, rfl, fun _ _ ↦ rfl, fun number hle ↦ padded_eq_of_padded_eq hm.symm hle⟩

/-! ### Construction, size, comparison -/

/-- `hostrange_create_single`: a single host without a valid suffix. -/
def hostrangeCreateSingle (pfx : List Char) : HostRange :=
  { pfx := pfx, lo := 0, hi := 0, width := 0, singlehost := true }

/-- `hostrange_create`. -/
def hostrangeCreate (pfx : List Char) (lo hi width : ℕ) : HostRange :=
  { pfx := pfx, lo := lo, hi := hi, width := width, singlehost := false }

/-- `hostrange_copy`. -/
def hostrangeCopy (hr : HostRange) : HostRange :=
  if hr.singlehost then hostrangeCreateSingle hr.pfx
  else hostrangeCreate hr.pfx hr.lo hr.hi hr.width

/-- `hostrange_count`: the number of hosts, in `unsigned long` arithmetic. -/
def hostrangeCount (hr : HostRange) : ℕ :=
  if hr.singlehost then 1 else ulongAdd (ulongSub hr.hi hr.lo) 1

/-- `hostrange_empty`. -/
def hostrangeEmpty (hr : HostRange) : Bool :=
  hr.hi < hr.lo || hr.hi = ulongMax

/-- `strcmp`: the sign of the comparison of two strings. -/
def strcmp (left right : List Char) : ℤ :=
  if left = right then 0 else if left < right then -1 else 1

/-- `hostrange_prefix_cmp`, for two ranges that are not `NULL`. -/
def hostrangePrefixCmp (h1 h2 : HostRange) : ℤ :=
  let retval := strcmp h1.pfx h2.pfx
  if retval = 0 then (h2.singlehost.toNat : ℤ) - (h1.singlehost.toNat : ℤ) else retval

/-- `hostrange_width_combine`: whether the widths of two ranges can be combined, and the ranges with
their widths as the call leaves them. -/
def hostrangeWidthCombine (h0 h1 : HostRange) : Bool × HostRange × HostRange :=
  let (equiv, w0, w1) := widthEquiv h0.lo h0.width h1.lo h1.width
  (equiv, { h0 with width := w0 }, { h1 with width := w1 })

/-- `hostrange_cmp`: by prefix, then by lowest suffix if the widths can be combined and by width if
not; with the ranges as the call leaves them. The difference of the suffixes is converted to `int`;
that of two widths, which are `int` and not negative, is one. -/
def hostrangeCmp (h1 h2 : HostRange) : ℤ × HostRange × HostRange :=
  let retval := hostrangePrefixCmp h1 h2
  if retval = 0 then
    let (combine, h1', h2') := hostrangeWidthCombine h1 h2
    (if combine then toInt (ulongSub h1'.lo h2'.lo) else (h1'.width : ℤ) - h2'.width, h1', h2')
  else (retval, h1, h2)

/-- `hostrange_within_range`: whether two ranges are printed in one pair of brackets. -/
def hostrangeWithinRange (h1 h2 : HostRange) : Bool :=
  if hostrangePrefixCmp h1 h2 = 0 then !(h1.singlehost || h2.singlehost) else false

/-- `strcmp` is zero exactly on equal strings. -/
theorem strcmp_eq_zero_iff {left right : List Char} : strcmp left right = 0 ↔ left = right := by
  unfold strcmp
  split_ifs with heq hlt <;> simp [heq]

/-- Two ranges have the same prefix, in the sense of `hostrange_prefix_cmp`, exactly when their
prefixes are equal and both or neither are single hosts. -/
theorem hostrangePrefixCmp_eq_zero_iff {h1 h2 : HostRange} :
    hostrangePrefixCmp h1 h2 = 0 ↔ h1.pfx = h2.pfx ∧ h1.singlehost = h2.singlehost := by
  unfold hostrangePrefixCmp
  simp only
  split_ifs with hpfx
  · rw [strcmp_eq_zero_iff] at hpfx
    cases h1.singlehost <;> cases h2.singlehost <;> simp [hpfx]
  · rw [strcmp_eq_zero_iff] at hpfx
    simp [hpfx, strcmp_eq_zero_iff]

/-- The number of hosts of a range that is not a single host. -/
theorem HostRange.length_hosts {hr : HostRange} (hsingle : hr.singlehost = false) :
    hr.hosts.length = hr.hi + 1 - hr.lo := by
  unfold HostRange.hosts
  rw [if_neg (by simp [hsingle]), List.length_map, List.length_range']

/-- A single host denotes its prefix. -/
theorem HostRange.hosts_single {hr : HostRange} (hsingle : hr.singlehost = true) :
    hr.hosts = [hr.pfx] :=
  if_pos hsingle

/-- The count of a single host is one. -/
theorem hostrangeCount_single {hr : HostRange} (hsingle : hr.singlehost = true) :
    hostrangeCount hr = 1 :=
  if_pos hsingle

/-- Assumes: a range that is not a single host. Its count is the distance of its bounds, around the
end of the numbers. -/
theorem hostrangeCount_eq {hr : HostRange} (hsingle : hr.singlehost = false)
    (hlo : hr.lo ≤ ulongMax) :
    hostrangeCount hr = (hr.hi + 18446744073709551617 - hr.lo) % 18446744073709551616 := by
  unfold ulongMax at hlo
  rw [hostrangeCount, if_neg (by simp [hsingle]), ulongAdd, ulongSub]
  split_ifs <;> omega

/-- Assumes: a sound range of less than `2 ^ 64` hosts. Its count is their number. -/
theorem HostRange.Sound.hostrangeCount_eq {hr : HostRange} (hsound : hr.Sound)
    (hsmall : hr.hosts.length < 18446744073709551616) : hostrangeCount hr = hr.hosts.length := by
  cases hsingle : hr.singlehost with
  | true =>
    rw [hostrangeCount_single hsingle, HostRange.hosts_single hsingle, List.length_singleton]
  | false =>
    have hbounds := hsound.lo_le_hi
    rw [HostRange.length_hosts hsingle] at hsmall ⊢
    rw [Whatsup.hostrangeCount_eq hsingle hsound.lo_le]
    omega

/-- Assumes: a sound range. Its count is the number of its hosts, as far as an `int` is
concerned. -/
theorem HostRange.Sound.toInt_add_count {hr : HostRange} (hsound : hr.Sound) (number : ℕ) :
    toInt ((number + hostrangeCount hr : ℕ) : ℤ) = toInt ((number + hr.hosts.length : ℕ) : ℤ) := by
  cases hsingle : hr.singlehost with
  | true =>
    rw [hostrangeCount_single hsingle, HostRange.hosts_single hsingle, List.length_singleton]
  | false =>
    have hbounds := hsound.lo_le_hi
    rw [Whatsup.hostrangeCount_eq hsingle hsound.lo_le, HostRange.length_hosts hsingle,
      ← toInt_add_wrapped _ (hr.hi + 1 - hr.lo),
      show hr.hi + 18446744073709551617 - hr.lo = hr.hi + 1 - hr.lo + 18446744073709551616 by
        omega, Nat.add_mod_right]

/-- Assumes: sound ranges. The sum of their counts is the number of their hosts, as far as an `int`
is concerned. -/
theorem toInt_sum_count {ranges : List HostRange} (hsound : ∀ hr ∈ ranges, hr.Sound) :
    toInt ((ranges.map hostrangeCount).sum : ℕ) = toInt (hostsOf ranges).length := by
  induction ranges with
  | nil => rfl
  | cons hr rest ih =>
    obtain ⟨hfirst, hrest⟩ := List.forall_mem_cons.mp hsound
    rw [List.map_cons, List.sum_cons, hostsOf_cons, List.length_append, Nat.add_comm,
      hfirst.toInt_add_count, Nat.cast_add, ← toInt_toInt_add, ih hrest, toInt_toInt_add, add_comm,
        Nat.cast_add]

/-- Assumes: a sound range that ends below `ULONG_MAX`. It is valid. -/
theorem HostRange.Sound.valid {hr : HostRange} (hsound : hr.Sound)
    (hend : hr.hi < ulongMax) : hr.Valid :=
  ⟨hsound.lo_le_hi, hend, fun hsingle ↦ ⟨(hsound.single hsingle).1, (hsound.single hsingle).2.1⟩⟩

/-- Assumes: a valid range. Its count is its number of hosts, and nothing wraps. -/
theorem HostRange.Valid.hostrangeCount_eq {hr : HostRange} (hvalid : hr.Valid) :
    hostrangeCount hr = hr.hosts.length := by
  have hbounds := hvalid.lo_le_hi
  have hmax := hvalid.hi_lt
  unfold ulongMax at hmax
  cases hsingle : hr.singlehost with
  | true =>
    rw [hostrangeCount_single hsingle, HostRange.hosts_single hsingle, List.length_singleton]
  | false =>
    rw [Whatsup.hostrangeCount_eq hsingle (by unfold ulongMax; omega),
      HostRange.length_hosts hsingle]
    omega

/-- Assumes: a new width that writes every number of the range as the old one did. The range denotes
the same hosts. -/
theorem HostRange.hosts_setWidth {hr : HostRange} {width : ℕ}
    (h : ∀ number, hr.lo ≤ number → padded width number = padded hr.width number) :
    HostRange.hosts { hr with width := width } = hr.hosts := by
  unfold HostRange.hosts
  split_ifs
  · rfl
  · refine List.map_congr_left fun number hnumber ↦ ?_
    rw [h number (List.mem_range'_1.mp hnumber).1]

/-- A valid range with another width is valid. -/
theorem HostRange.Valid.setWidth {hr : HostRange} (hvalid : hr.Valid) (width : ℕ) :
    HostRange.Valid { hr with width := width } :=
  ⟨hvalid.lo_le_hi, hvalid.hi_lt, hvalid.single⟩

/-- A copied valid range denotes the same hosts. -/
theorem hosts_hostrangeCopy (hr : HostRange) : (hostrangeCopy hr).hosts = hr.hosts := by
  unfold hostrangeCopy HostRange.hosts
  split_ifs with hsingle <;> simp_all [hostrangeCreateSingle, hostrangeCreate]

/-- A copy of a valid range is valid. -/
theorem HostRange.Valid.copy {hr : HostRange} (hvalid : hr.Valid) : (hostrangeCopy hr).Valid := by
  unfold hostrangeCopy
  split_ifs with hsingle
  · exact ⟨le_rfl, show 0 < ulongMax by decide, fun _ ↦ ⟨rfl, rfl⟩⟩
  · exact ⟨hvalid.lo_le_hi, hvalid.hi_lt, fun h ↦ by simp [hostrangeCreate] at h⟩

/-- A single host is made as it is to be. -/
theorem made_hostrangeCreateSingle (pfx : List Char) : (hostrangeCreateSingle pfx).Made :=
  ⟨fun _ ↦ ⟨rfl, rfl, rfl⟩, Nat.zero_le _, Nat.zero_le _⟩

/-- Assumes: bounds that are values of `unsigned long`. The range of them is made as it is to be. -/
theorem made_hostrangeCreate (pfx : List Char) {lo hi : ℕ} (width : ℕ) (hlo : lo ≤ ulongMax)
    (hhi : hi ≤ ulongMax) : (hostrangeCreate pfx lo hi width).Made :=
  ⟨fun h ↦ Bool.noConfusion h, hlo, hhi⟩

/-- A copy is made as the range, and of its size. -/
theorem HostRange.Made.copy {hr : HostRange} (h : hr.Made) :
    (hostrangeCopy hr).Made ∧ hostrangeCount (hostrangeCopy hr) = hostrangeCount hr := by
  unfold hostrangeCopy
  split_ifs with hsingle
  · refine ⟨made_hostrangeCreateSingle hr.pfx, ?_⟩
    unfold hostrangeCount
    rw [if_pos hsingle]
    rfl
  · refine ⟨made_hostrangeCreate hr.pfx hr.width h.lo_le h.hi_le, ?_⟩
    unfold hostrangeCount
    rw [if_neg hsingle]
    rfl

/-- A copy of a sound range is the range. -/
theorem HostRange.Made.hostrangeCopy_eq {hr : HostRange} (h : hr.Made) : hostrangeCopy hr = hr := by
  unfold hostrangeCopy
  obtain ⟨pfx, lo, hi, width, singlehost⟩ := hr
  cases singlehost with
  | true =>
    obtain ⟨rfl, rfl, rfl⟩ := h.single rfl
    rfl
  | false => rfl

end Whatsup
