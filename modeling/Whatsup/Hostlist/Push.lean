import Whatsup.Hostlist.Search

/-!
# Hostlists: insertion, search and count

A hostlist is an array of host ranges with a running count of hosts. `hostlist_push_range` appends a
range, or merges it into the last one when that continues it and the widths can be combined;
`hostlist_find` walks the array and may overwrite widths; `hostlist_count` reads the running count,
an `int` that wraps.

`Hostlist.Valid` is a list of valid ranges with a count that is the number of denoted hosts as an
`int`. `hostlistPushRange_spec` says that a push appends the hosts of the range,
`hostlistPushHost_spec` that pushing one name appends that name, and `hostlistFind_spec` that the
search answers as a plain list of names does and leaves the denoted names alone.

Ranges that end at `ULONG_MAX` are sound without being valid. A push appends the hosts of a sound
range as well (`hostlistPushRange_sound`) unless the range starts at 0 and is joined to one that
ends there; then hosts are lost (`length_hostlistPushRange`).
-/

set_option autoImplicit false
set_option relaxedAutoImplicit false

namespace Whatsup

open CLib

/-! ### The list and its operations -/

/-- `struct hostlist`: the ranges in array order and the `int` number of hosts. Allocation is taken
to succeed, so that the capacity of the array is left out. -/
structure Hostlist where
  ranges : List HostRange
  nhosts : ℤ
deriving DecidableEq

/-- `hostlist_new`. -/
def hostlistNew : Hostlist :=
  { ranges := [], nhosts := 0 }

/-- `hostlist_push_range`. The count is also its return value. -/
def hostlistPushRange (hl : Hostlist) (hr : HostRange) : Hostlist :=
  let nhosts := toInt (hl.nhosts + hostrangeCount hr)
  match hl.ranges.getLast? with
  | none => { ranges := hl.ranges ++ [hostrangeCopy hr], nhosts := nhosts }
  | some tail =>
    let (combine, tail', _) := hostrangeWidthCombine tail hr
    if hostrangePrefixCmp tail hr = 0 ∧ tail.hi = ulongSub hr.lo 1 ∧ combine = true then
      { ranges := hl.ranges.dropLast ++ [{ tail' with hi := hr.hi }], nhosts := nhosts }
    else { ranges := hl.ranges ++ [hostrangeCopy hr], nhosts := nhosts }

/-- `hostlist_push_hr`. -/
def hostlistPushHr (hl : Hostlist) (pfx : List Char) (lo hi width : ℕ) : Hostlist :=
  hostlistPushRange hl (hostrangeCreate pfx lo hi width)

/-- `hostlist_push_host`. -/
def hostlistPushHost (hl : Hostlist) (str : List Char) : Hostlist :=
  let hn := hostnameCreate str
  match hn.suffix with
  | some suffix => hostlistPushRange hl (hostrangeCreate hn.pfx hn.num hn.num suffix.length)
  | none => hostlistPushRange hl (hostrangeCreateSingle str)

/-- `hostlist_push_list`: the ranges of the second list are pushed in order; the return value sums
the counts after each push. -/
def hostlistPushList (h1 h2 : Hostlist) : ℤ × Hostlist :=
  h2.ranges.foldl
    (fun state hr ↦
      (toInt (state.1 + (hostlistPushRange state.2 hr).nhosts), hostlistPushRange state.2 hr))
    (0, h1)

/-- `hostlist_count`. -/
def hostlistCount (hl : Hostlist) : ℤ :=
  hl.nhosts

/-- The loop of `hostlist_find` from the current range on, with the number of hosts passed. -/
def findLoop (hn : Hostname) : List HostRange → ℤ → ℤ × List HostRange
  | [], _ => (-1, [])
  | hr :: rest, count =>
    let (offset, hr') := hostrangeHnWithin hr hn
    if 0 ≤ offset then (toInt (count + offset), hr' :: rest)
    else
      let (ret, rest') := findLoop hn rest (toInt (count + hostrangeCount hr'))
      (ret, hr' :: rest')

/-- `hostlist_find`: the position of the first host of that name, or `-1`. -/
def hostlistFind (hl : Hostlist) (hostname : List Char) : ℤ × Hostlist :=
  let (ret, ranges) := findLoop (hostnameCreate hostname) hl.ranges 0
  (ret, { hl with ranges := ranges })

/-! ### Invariants -/

/-- The names a hostlist denotes. -/
def Hostlist.hosts (hl : Hostlist) : List (List Char) :=
  hostsOf hl.ranges

/-- The names a hostlist denotes, each with whether it is a single host. -/
def Hostlist.marks (hl : Hostlist) : List (List Char × Bool) :=
  marksOf hl.ranges

/-- The names of the marks of a list are its hosts. -/
@[simp]
theorem Hostlist.map_fst_marks (hl : Hostlist) : hl.marks.map Prod.fst = hl.hosts :=
  map_fst_marksOf hl.ranges

theorem Hostlist.length_marks (hl : Hostlist) : hl.marks.length = hl.hosts.length := by
  rw [← hl.map_fst_marks, List.length_map]

/-- Valid ranges, and a count that is the number of hosts as an `int`. -/
structure Hostlist.Valid (hl : Hostlist) : Prop where
  ranges_valid : ∀ hr ∈ hl.ranges, hr.Valid
  nhosts_eq : hl.nhosts = toInt hl.hosts.length

/-- Sound ranges, and a count that is the number of hosts as an `int`. -/
structure Hostlist.Sound (hl : Hostlist) : Prop where
  ranges_sound : ∀ hr ∈ hl.ranges, hr.Sound
  nhosts_eq : hl.nhosts = toInt hl.hosts.length

/-- A valid list all of whose ranges are canonical, as pushing bracket-free names builds it. -/
structure Hostlist.Canonical (hl : Hostlist) : Prop extends hl.Valid where
  ranges_canonical : ∀ hr ∈ hl.ranges, hr.Canonical

/-- The empty list is canonical. -/
theorem hostlistNew_canonical : hostlistNew.Canonical :=
  ⟨⟨fun _ h ↦ absurd h List.not_mem_nil, toInt_zero.symm⟩,
    fun _ h ↦ absurd h List.not_mem_nil⟩

/-- The empty list is sound. -/
theorem hostlistNew_sound : hostlistNew.Sound :=
  ⟨fun _ h ↦ absurd h List.not_mem_nil, toInt_zero.symm⟩

@[simp]
theorem hosts_hostlistNew : hostlistNew.hosts = [] := rfl

/-! ### Insertion -/

/-- Assumes: two ranges that are not single hosts, the second starting right after the first ends,
with one prefix, and a width that writes the numbers of both as their own widths do. The joined
range denotes the hosts of both. -/
theorem HostRange.hosts_join {h1 h2 : HostRange} {width : ℕ} (hsingle1 : h1.singlehost = false)
    (hsingle2 : h2.singlehost = false) (hpfx : h1.pfx = h2.pfx) (hnext : h2.lo = h1.hi + 1)
    (hlohi1 : h1.lo ≤ h1.hi) (hlohi2 : h2.lo ≤ h2.hi)
    (hwidth1 : ∀ number, h1.lo ≤ number → padded width number = padded h1.width number)
    (hwidth2 : ∀ number, h2.lo ≤ number → padded width number = padded h2.width number) :
    HostRange.hosts { h1 with width := width, hi := h2.hi } = h1.hosts ++ h2.hosts := by
  have hsplit : List.range' h1.lo (h2.hi + 1 - h1.lo) =
      List.range' h1.lo (h1.hi + 1 - h1.lo) ++ List.range' h2.lo (h2.hi + 1 - h2.lo) := by
    rw [show h2.hi + 1 - h1.lo = (h1.hi + 1 - h1.lo) + (h2.hi + 1 - h2.lo) by omega,
      ← List.range'_append_1, show h1.lo + (h1.hi + 1 - h1.lo) = h2.lo by omega]
  unfold HostRange.hosts
  simp only [hsingle1, hsingle2, Bool.false_eq_true, if_false]
  rw [hsplit, List.map_append]
  congr 1
  · refine List.map_congr_left fun number hnumber ↦ ?_
    rw [hwidth1 number (List.mem_range'_1.mp hnumber).1]
  · refine List.map_congr_left fun number hnumber ↦ ?_
    rw [hpfx, hwidth2 number (List.mem_range'_1.mp hnumber).1]

/-- Assumes: two ranges of one prefix with bounds in order, the second starting right after the
first ends, whose widths can be combined; the numbers do not start again behind `ULONG_MAX`. The
ranges are not single hosts, and the first range with the combined width and the upper bound of the
second denotes the hosts of both. -/
theorem hosts_join_of_combine {h1 h2 : HostRange} (hlohi1 : h1.lo ≤ h1.hi) (hlohi2 : h2.lo ≤ h2.hi)
    (hsingle : h2.singlehost = true → h2.lo = 0) (hbehind : h1.hi = ulongMax → h2.lo ≠ 0)
    (hpfxCmp : hostrangePrefixCmp h1 h2 = 0) (hnext : h1.hi = ulongSub h2.lo 1)
    (hcombine : (hostrangeWidthCombine h1 h2).1 = true) :
    h1.singlehost = false ∧ h1.lo ≤ h2.hi ∧
      HostRange.hosts { (hostrangeWidthCombine h1 h2).2.1 with hi := h2.hi } =
        h1.hosts ++ h2.hosts := by
  obtain ⟨hpfx, hsame⟩ := hostrangePrefixCmp_eq_zero_iff.mp hpfxCmp
  have hlo := (eq_ulongSub_one_iff hbehind).mp hnext
  have hsingle2 : h2.singlehost = false := by
    by_contra h
    have hzero := hsingle (by simpa using h)
    omega
  have hequiv : (widthEquiv h1.lo h1.width h2.lo h2.width).1 = true := hcombine
  obtain ⟨width, hresult, hwidth1, hwidth2⟩ := widthEquiv_of_eq_true hequiv
  have hjoin := HostRange.hosts_join (hsame.trans hsingle2) hsingle2 hpfx hlo hlohi1 hlohi2 hwidth1
    hwidth2
  refine ⟨hsame.trans hsingle2, by omega, ?_⟩
  rw [← hjoin, hostrangeWidthCombine, hresult]

/-- Assumes: two valid ranges of one prefix, the second starting right after the first ends, whose
widths can be combined. They are not single hosts, and the joined range denotes the hosts of
both. -/
theorem HostRange.Valid.hosts_join {h1 h2 : HostRange} (hvalid1 : h1.Valid) (hvalid2 : h2.Valid)
    (hpfxCmp : hostrangePrefixCmp h1 h2 = 0) (hnext : h1.hi = ulongSub h2.lo 1)
    (hcombine : (hostrangeWidthCombine h1 h2).1 = true) :
    h1.singlehost = false ∧ h1.lo ≤ h2.hi ∧
      HostRange.hosts { (hostrangeWidthCombine h1 h2).2.1 with hi := h2.hi } =
        h1.hosts ++ h2.hosts :=
  hosts_join_of_combine hvalid1.lo_le_hi hvalid2.lo_le_hi (fun h ↦ (hvalid2.single h).1)
    (fun h ↦ absurd h hvalid1.hi_lt.ne) hpfxCmp hnext hcombine

/-- What `hostlist_push_range` does: the copied range is appended, or it is joined to the last
one. -/
theorem hostlistPushRange_cases (hl : Hostlist) (hr : HostRange) :
    (hostlistPushRange hl hr).ranges = hl.ranges ++ [hostrangeCopy hr] ∨
    ∃ front tail, hl.ranges = front ++ [tail] ∧ hostrangePrefixCmp tail hr = 0 ∧
      tail.hi = ulongSub hr.lo 1 ∧ (hostrangeWidthCombine tail hr).1 = true ∧
      (hostlistPushRange hl hr).ranges =
        front ++ [{ (hostrangeWidthCombine tail hr).2.1 with hi := hr.hi }] := by
  unfold hostlistPushRange
  cases hlast : hl.ranges.getLast? with
  | none => exact Or.inl rfl
  | some tail =>
    obtain ⟨front, hfront⟩ := List.getLast?_eq_some_iff.mp hlast
    simp only
    split_ifs with hjoin
    · refine Or.inr ⟨front, tail, hfront, hjoin.1, hjoin.2.1, hjoin.2.2, ?_⟩
      simp only [hfront, List.dropLast_concat]
    · exact Or.inl rfl

/-- The second range continues the first: `hostlist_push_range` and `hostlist_collapse` make one
range of them. -/
def HostRange.Joins (h1 h2 : HostRange) : Prop :=
  hostrangePrefixCmp h1 h2 = 0 ∧ h1.hi = ulongSub h2.lo 1 ∧ (hostrangeWidthCombine h1 h2).1 = true

instance (h1 h2 : HostRange) : Decidable (h1.Joins h2) := by
  unfold HostRange.Joins
  infer_instance

/-- Assumes: a last range that does not go on in the range that is pushed. The range is appended. -/
theorem hostlistPushRange_append {hl : Hostlist} {hr : HostRange}
    (h : ∀ tail ∈ hl.ranges.getLast?, ¬tail.Joins hr) :
    (hostlistPushRange hl hr).ranges = hl.ranges ++ [hostrangeCopy hr] := by
  rcases hostlistPushRange_cases hl hr with happend | ⟨front, tail, hfront, hjoins1,
    hjoins2, hjoins3, -⟩
  · exact happend
  · exact absurd ⟨hjoins1, hjoins2, hjoins3⟩ (h tail (by rw [hfront]; simp))

/-- Assumes: a last range that goes on in the range that is pushed. The two are joined. -/
theorem hostlistPushRange_join {hl : Hostlist} {hr tail : HostRange} {front : List HostRange}
    (hfront : hl.ranges = front ++ [tail]) (h : tail.Joins hr) :
    (hostlistPushRange hl hr).ranges =
      front ++ [{ (hostrangeWidthCombine tail hr).2.1 with hi := hr.hi }] := by
  unfold HostRange.Joins at h
  unfold hostlistPushRange
  rw [hfront, List.getLast?_concat]
  simp only
  rw [if_pos h, List.dropLast_concat]

/-- The count after a push. -/
theorem nhosts_hostlistPushRange (hl : Hostlist) (hr : HostRange) :
    (hostlistPushRange hl hr).nhosts = toInt (hl.nhosts + hostrangeCount hr) := by
  unfold hostlistPushRange
  cases hl.ranges.getLast? with
  | none => rfl
  | some tail =>
    simp only
    split_ifs <;> rfl

/-- Assumes: a valid list and a valid range. The push appends the hosts of the range and keeps the
list valid. -/
theorem hostlistPushRange_spec {hl : Hostlist} {hr : HostRange} (hl_valid : hl.Valid)
    (hr_valid : hr.Valid) :
    (hostlistPushRange hl hr).hosts = hl.hosts ++ hr.hosts ∧ (hostlistPushRange hl hr).Valid := by
  have hparts : (hostlistPushRange hl hr).hosts = hl.hosts ++ hr.hosts ∧
      ∀ r ∈ (hostlistPushRange hl hr).ranges, r.Valid := by
    rcases hostlistPushRange_cases hl hr with happend | ⟨front, tail, hfront, hpfxCmp, hnext,
      hcombine, hjoined⟩
    · rw [Hostlist.hosts, happend, hostsOf_append, hostsOf_cons, hostsOf_nil, List.append_nil,
        hosts_hostrangeCopy]
      refine ⟨rfl, fun r hmem ↦ ?_⟩
      rcases List.mem_append.mp hmem with hold | hnew
      · exact hl_valid.ranges_valid r hold
      · rw [List.mem_singleton.mp hnew]
        exact hr_valid.copy
    · have htail : tail.Valid := hl_valid.ranges_valid tail (by rw [hfront]; simp)
      obtain ⟨hsingle, hlo, hhosts⟩ :=
        htail.hosts_join hr_valid hpfxCmp hnext hcombine
      rw [Hostlist.hosts, hjoined, hostsOf_append, hostsOf_cons, hostsOf_nil, List.append_nil,
        hhosts, Hostlist.hosts, hfront, hostsOf_append, hostsOf_cons, hostsOf_nil,
        List.append_nil, List.append_assoc]
      refine ⟨rfl, fun r hmem ↦ ?_⟩
      rcases List.mem_append.mp hmem with hold | hnew
      · exact hl_valid.ranges_valid r (by rw [hfront]; exact List.mem_append_left _ hold)
      · rw [List.mem_singleton.mp hnew]
        exact ⟨hlo, hr_valid.hi_lt, fun h ↦ absurd (hsingle.symm.trans h) (by decide)⟩
  refine ⟨hparts.1, hparts.2, ?_⟩
  rw [nhosts_hostlistPushRange, hl_valid.nhosts_eq, toInt_toInt_add, hr_valid.hostrangeCount_eq,
    hparts.1, List.length_append]
  push_cast
  rfl

/-- The last range ends at `ULONG_MAX`, and a range from 0 is joined to it. -/
def Hostlist.Wraps (hl : Hostlist) (hr : HostRange) : Prop :=
  ∃ tail ∈ hl.ranges.getLast?, tail.Joins hr ∧ tail.hi = ulongMax

instance (hl : Hostlist) (hr : HostRange) : Decidable (hl.Wraps hr) := by
  unfold Hostlist.Wraps
  infer_instance

/-- Assumes: ranges that are no single hosts. A range that denotes the hosts of both denotes them
with their marks. -/
theorem HostRange.marks_join {h1 h2 joined : HostRange} (hsingle1 : h1.singlehost = false)
    (hsingle2 : h2.singlehost = false) (hsingle : joined.singlehost = false)
    (hhosts : joined.hosts = h1.hosts ++ h2.hosts) : joined.marks = h1.marks ++ h2.marks := by
  unfold HostRange.marks
  rw [hhosts, List.map_append, hsingle1, hsingle2, hsingle]

/-- Assumes: a sound list and a sound range that is not joined to a range up to `ULONG_MAX`. The
push appends the names of the range and keeps the list sound. -/
theorem hostlistPushRange_sound {hl : Hostlist} {hr : HostRange} (hl_sound : hl.Sound)
    (hr_sound : hr.Sound) (hwraps : ¬hl.Wraps hr) :
    (hostlistPushRange hl hr).marks = hl.marks ++ hr.marks ∧ (hostlistPushRange hl hr).Sound := by
  have hparts : (hostlistPushRange hl hr).marks = hl.marks ++ hr.marks ∧
      ∀ r ∈ (hostlistPushRange hl hr).ranges, r.Sound := by
    rcases hostlistPushRange_cases hl hr with happend | ⟨front, tail, hfront, hpfxCmp, hnext,
      hcombine, hjoined⟩
    · rw [Hostlist.marks, happend, hr_sound.hostrangeCopy_eq, marksOf_append, marksOf_cons,
        marksOf_nil, List.append_nil]
      exact ⟨rfl, List.forall_mem_append.mpr
        ⟨hl_sound.ranges_sound, List.forall_mem_singleton.mpr hr_sound⟩⟩
    · have htail : tail.Sound := hl_sound.ranges_sound tail (by rw [hfront]; simp)
      have hbehind : tail.hi = ulongMax → hr.lo ≠ 0 := fun hmax _ ↦
        hwraps ⟨tail, by simp [hfront], ⟨hpfxCmp, hnext, hcombine⟩, hmax⟩
      obtain ⟨hsingle, hlo, hhosts⟩ := hosts_join_of_combine htail.lo_le_hi hr_sound.lo_le_hi
        (fun h ↦ (hr_sound.single h).1) hbehind hpfxCmp hnext hcombine
      have hmarks : HostRange.marks { (hostrangeWidthCombine tail hr).2.1 with hi := hr.hi } =
          tail.marks ++ hr.marks :=
        HostRange.marks_join hsingle
          ((hostrangePrefixCmp_eq_zero_iff.mp hpfxCmp).2.symm.trans hsingle) hsingle hhosts
      have hnew : HostRange.Sound { (hostrangeWidthCombine tail hr).2.1 with hi := hr.hi } :=
        ⟨⟨fun h ↦ absurd (hsingle.symm.trans h) (by decide), htail.lo_le, hr_sound.hi_le⟩, hlo⟩
      rw [Hostlist.marks, hjoined, marksOf_append, marksOf_cons, marksOf_nil, List.append_nil,
        hmarks, Hostlist.marks, hfront, marksOf_append, marksOf_cons, marksOf_nil,
        List.append_nil, List.append_assoc]
      refine ⟨rfl, List.forall_mem_append.mpr ⟨fun r hmem ↦ ?_, List.forall_mem_singleton.mpr hnew⟩⟩
      exact hl_sound.ranges_sound r (by rw [hfront]; exact List.mem_append_left _ hmem)
  refine ⟨hparts.1, hparts.2, ?_⟩
  have hcount := hr_sound.toInt_add_count hl.hosts.length
  have hlength := congrArg List.length hparts.1
  rw [List.length_append, Hostlist.length_marks, Hostlist.length_marks, HostRange.marks,
    List.length_map] at hlength
  rw [nhosts_hostlistPushRange, hl_sound.nhosts_eq, toInt_toInt_add, hlength]
  exact_mod_cast hcount

/-- Assumes: ranges as they are made. A push does not denote more hosts than there were, and fewer
if a range from 0 is joined to one with bounds in order that ends at `ULONG_MAX`. -/
theorem length_hostlistPushRange {hl : Hostlist} {hr : HostRange}
    (hl_made : ∀ r ∈ hl.ranges, r.Made)
    (hr_made : hr.Made) :
    (hostlistPushRange hl hr).hosts.length ≤ hl.hosts.length + hr.hosts.length ∧
      ((∀ r ∈ hl.ranges, r.lo ≤ r.hi) → hl.Wraps hr →
        (hostlistPushRange hl hr).hosts.length < hl.hosts.length + hr.hosts.length) := by
  rcases hostlistPushRange_cases hl hr with happend | ⟨front, tail, hfront, hpfxCmp, hnext,
    hcombine, hjoined⟩
  · rw [Hostlist.hosts, happend, hr_made.hostrangeCopy_eq, hostsOf_append, hostsOf_cons,
      hostsOf_nil,
      List.append_nil, List.length_append]
    refine ⟨le_rfl, fun hbounds hwraps ↦ ?_⟩
    obtain ⟨tail, htail, hjoins, -⟩ := hwraps
    obtain ⟨front, hfront⟩ := List.getLast?_eq_some_iff.mp htail
    have hlengths :=
      congrArg List.length (happend.symm.trans (hostlistPushRange_join hfront hjoins))
    rw [hfront] at hlengths
    simp at hlengths
  · have htail : tail.Made := hl_made tail (by rw [hfront]; simp)
    obtain ⟨-, hsame⟩ := hostrangePrefixCmp_eq_zero_iff.mp hpfxCmp
    have hsingle : tail.singlehost = false := by
      by_contra hkind
      have hzero := (htail.single (by simpa using hkind)).2.1
      have hzero2 := (hr_made.single (hsame ▸ by simpa using hkind)).1
      rw [hzero, hzero2] at hnext
      exact absurd hnext (by decide)
    have hnew : (HostRange.hosts { (hostrangeWidthCombine tail hr).2.1 with hi := hr.hi }).length =
        hr.hi + 1 - tail.lo := HostRange.length_hosts hsingle
    rw [Hostlist.hosts, hjoined, Hostlist.hosts, hfront]
    simp only [hostsOf_append, hostsOf_cons, hostsOf_nil, List.append_nil, List.length_append]
    rw [hnew, HostRange.length_hosts hsingle, HostRange.length_hosts (hsame ▸ hsingle)]
    unfold ulongSub at hnext
    have htail_lo := htail.lo_le
    have htail_hi := htail.hi_le
    have hr_lo := hr_made.lo_le
    unfold ulongMax at htail_lo htail_hi hr_lo
    refine ⟨by split_ifs at hnext <;> omega, fun hbounds hwraps ↦ ?_⟩
    obtain ⟨other, hother, -, hmax⟩ := hwraps
    rw [hfront, List.getLast?_concat] at hother
    obtain rfl := Option.some.inj hother
    have horder := hbounds tail (by simp)
    unfold ulongMax at hmax
    split_ifs at hnext <;> omega

/-- Assumes: a canonical list and a canonical range. The push keeps the list canonical. -/
theorem hostlistPushRange_canonical {hl : Hostlist} {hr : HostRange} (hl_canonical : hl.Canonical)
    (hr_canonical : hr.Canonical) : (hostlistPushRange hl hr).Canonical := by
  have hspec := hostlistPushRange_spec hl_canonical.toValid hr_canonical.toValid
  refine ⟨hspec.2, fun r hmem ↦ ?_⟩
  have hr_valid := hspec.2.ranges_valid r hmem
  rcases hostlistPushRange_cases hl hr with happend | ⟨front, tail, hfront, hpfxCmp, hnext,
    hcombine, hjoined⟩
  · rw [happend] at hmem
    rcases List.mem_append.mp hmem with hold | hnew
    · exact hl_canonical.ranges_canonical r hold
    · rw [List.mem_singleton.mp hnew]
      exact hr_canonical.copy
  · rw [hjoined] at hmem
    rcases List.mem_append.mp hmem with hold | hnew
    · exact hl_canonical.ranges_canonical r (by rw [hfront]; exact List.mem_append_left _ hold)
    · have htail := hl_canonical.ranges_canonical tail (by rw [hfront]; simp)
      have hjoin := htail.toValid.hosts_join hr_canonical.toValid hpfxCmp hnext hcombine
      rw [List.mem_singleton.mp hnew] at hr_valid ⊢
      exact ⟨hr_valid, hr_canonical.hi_le, htail.pfx_end,
        fun h ↦ absurd (hjoin.1.symm.trans h) (by decide)⟩

/-- The range that `hostlist_push_host` pushes for a name. -/
def hostRange (str : List Char) : HostRange :=
  match (hostnameCreate str).suffix with
  | some suffix =>
    hostrangeCreate (hostnameCreate str).pfx (hostnameCreate str).num (hostnameCreate str).num
    suffix.length
  | none => hostrangeCreateSingle str

/-- `hostlist_push_host` pushes the range of the name. -/
theorem hostlistPushHost_eq (hl : Hostlist) (str : List Char) :
    hostlistPushHost hl str = hostlistPushRange hl (hostRange str) := by
  unfold hostlistPushHost hostRange
  cases hsuffix : (hostnameCreate str).suffix <;> simp only [hsuffix]

/-- The range `hostlist_push_host` inserts for a name is canonical and denotes that name. -/
theorem hostlistPushHost_range (hl : Hostlist) (str : List Char) :
    ∃ hr : HostRange, hostlistPushHost hl str = hostlistPushRange hl hr ∧ hr.hosts = [str] ∧
      hr.Canonical := by
  unfold hostlistPushHost
  rcases hostnameCreate_cases str with ⟨-, hsuffix, -⟩ | ⟨pfx, suffix, hname, hpfx, hne, hdigits,
    hmax, hcreate⟩
  · simp only [hsuffix]
    exact ⟨_, rfl, rfl, canonical_hostrangeCreateSingle str⟩
  · rw [hcreate]
    refine ⟨_, rfl, ?_, canonical_hostrangeCreate suffix.length le_rfl hmax hpfx⟩
    simp only [HostRange.hosts, hostrangeCreate, Bool.false_eq_true, if_false]
    rw [Nat.add_sub_cancel_left, List.range'_one, List.map_singleton,
      padded_ofDigitChars hdigits hne, hname]

/-- Assumes: a valid list. Pushing one name appends it and keeps the list valid. -/
theorem hostlistPushHost_valid {hl : Hostlist} (hvalid : hl.Valid) (str : List Char) :
    (hostlistPushHost hl str).hosts = hl.hosts ++ [str] ∧ (hostlistPushHost hl str).Valid := by
  obtain ⟨hr, hpush, hhosts, hr_canonical⟩ := hostlistPushHost_range hl str
  rw [hpush, ← hhosts]
  exact hostlistPushRange_spec hvalid hr_canonical.toValid

/-- Assumes: a canonical list. Pushing one name appends it and keeps the list canonical. -/
theorem hostlistPushHost_spec {hl : Hostlist} (hcanonical : hl.Canonical) (str : List Char) :
    (hostlistPushHost hl str).hosts = hl.hosts ++ [str] ∧ (hostlistPushHost hl str).Canonical := by
  refine ⟨(hostlistPushHost_valid hcanonical.toValid str).1, ?_⟩
  obtain ⟨hr, hpush, -, hr_canonical⟩ := hostlistPushHost_range hl str
  rw [hpush]
  exact hostlistPushRange_canonical hcanonical hr_canonical

/-- The list after `hostlist_push_list` is that of the pushes in order. -/
theorem hostlistPushList_snd (h1 h2 : Hostlist) :
    (hostlistPushList h1 h2).2 = h2.ranges.foldl hostlistPushRange h1 := by
  have hgeneral : ∀ (ranges : List HostRange) (state : ℤ × Hostlist),
      (ranges.foldl (fun state hr ↦
        (toInt (state.1 + (hostlistPushRange state.2 hr).nhosts), hostlistPushRange state.2 hr))
        state).2 = ranges.foldl hostlistPushRange state.2 := by
    intro ranges
    induction ranges with
    | nil => intro state; rfl
    | cons hr rest ih => intro state; exact ih _
  exact hgeneral h2.ranges (0, h1)

/-- Assumes: a valid list and valid ranges. Pushing the ranges in order appends their hosts. -/
theorem foldl_hostlistPushRange_spec (ranges : List HostRange) :
    ∀ hl : Hostlist, hl.Valid → (∀ hr ∈ ranges, hr.Valid) →
      (ranges.foldl hostlistPushRange hl).hosts = hl.hosts ++ hostsOf ranges ∧
        (ranges.foldl hostlistPushRange hl).Valid := by
  induction ranges with
  | nil => intro hl hl_valid _; exact ⟨by simp, hl_valid⟩
  | cons hr rest ih =>
    intro hl hl_valid hvalid
    obtain ⟨hhosts, hnext⟩ := hostlistPushRange_spec hl_valid (hvalid hr List.mem_cons_self)
    obtain ⟨hrest, hlast⟩ := ih _ hnext fun r hr ↦ hvalid r (List.mem_cons_of_mem _ hr)
    refine ⟨?_, hlast⟩
    rw [List.foldl_cons, hrest, hhosts, hostsOf_cons, List.append_assoc]

/-- Assumes: a canonical list and canonical ranges. Pushing the ranges keeps the list canonical. -/
theorem foldl_hostlistPushRange_canonical (ranges : List HostRange) :
    ∀ hl : Hostlist, hl.Canonical → (∀ hr ∈ ranges, hr.Canonical) →
      (ranges.foldl hostlistPushRange hl).Canonical := by
  induction ranges with
  | nil => intro hl hcanonical _; exact hcanonical
  | cons hr rest ih =>
    intro hl hcanonical hranges
    exact ih _ (hostlistPushRange_canonical hcanonical (hranges hr List.mem_cons_self))
      fun r hr ↦ hranges r (List.mem_cons_of_mem _ hr)

/-! ### Search -/

/-- Assumes: canonical ranges. From a count on, the loop of `hostlist_find` gives the count plus the
position of the name among the remaining hosts, as an `int`, or `-1`; the ranges denote the same
hosts afterwards and are canonical. -/
theorem findLoop_spec (name : List Char) (ranges : List HostRange) :
    ∀ count : ℤ, (∀ hr ∈ ranges, hr.Canonical) →
      (findLoop (hostnameCreate name) ranges (toInt count)).1 =
          (if name ∈ hostsOf ranges then toInt (count + (hostsOf ranges).idxOf name) else -1) ∧
        hostsOf (findLoop (hostnameCreate name) ranges (toInt count)).2 = hostsOf ranges ∧
        ∀ hr ∈ (findLoop (hostnameCreate name) ranges (toInt count)).2, hr.Canonical := by
  induction ranges with
  | nil =>
    intro count _
    exact ⟨rfl, rfl, fun _ h ↦ absurd h List.not_mem_nil⟩
  | cons hr rest ih =>
    intro count hranges
    obtain ⟨hanswer, hhosts, hr_canonical⟩ :=
      hostrangeHnWithin_eq (hranges hr List.mem_cons_self) name
    have hrest : ∀ r ∈ rest, r.Canonical := fun r hr ↦ hranges r (List.mem_cons_of_mem _ hr)
    rw [findLoop]
    simp only
    by_cases hfound : name ∈ hr.hosts
    · rw [hanswer, if_pos hfound, if_pos (Int.natCast_nonneg _), toInt_toInt_add]
      have hmem : name ∈ hostsOf (hr :: rest) := List.mem_append_left _ hfound
      refine ⟨?_, ?_, ?_⟩
      · rw [if_pos hmem, hostsOf_cons, List.idxOf_append_of_mem hfound]
      · rw [hostsOf_cons, hostsOf_cons, hhosts]
      · intro r hr
        rcases List.mem_cons.mp hr with rfl | hr
        · exact hr_canonical
        · exact hrest r hr
    · rw [hanswer, if_neg hfound, if_neg (by decide), toInt_toInt_add,
        hr_canonical.toValid.hostrangeCount_eq, hhosts]
      obtain ⟨htail, htailHosts, htailCanonical⟩ := ih (count + hr.hosts.length) hrest
      refine ⟨?_, ?_, ?_⟩
      · rw [htail, hostsOf_cons]
        by_cases hlater : name ∈ hostsOf rest
        · rw [if_pos hlater, if_pos (List.mem_append_right _ hlater),
            List.idxOf_append_of_notMem hfound]
          push_cast
          rw [add_assoc]
        · rw [if_neg hlater, if_neg (by simp [hfound, hlater])]
      · rw [hostsOf_cons, hostsOf_cons, hhosts, htailHosts]
      · intro r hr
        rcases List.mem_cons.mp hr with rfl | hr
        · exact hr_canonical
        · exact htailCanonical r hr

/-- Assumes: a canonical list. `hostlist_find` gives the position of the first equal name as an
`int`, or `-1`; the list denotes the same names afterwards and is canonical. -/
theorem hostlistFind_spec {hl : Hostlist} (hcanonical : hl.Canonical) (name : List Char) :
    (hostlistFind hl name).1 =
        (if name ∈ hl.hosts then toInt (hl.hosts.idxOf name) else -1) ∧
      (hostlistFind hl name).2.hosts = hl.hosts ∧ (hostlistFind hl name).2.Canonical := by
  obtain ⟨hanswer, hhosts, hranges⟩ :=
    findLoop_spec name hl.ranges 0 hcanonical.ranges_canonical
  rw [toInt_zero] at hanswer hhosts hranges
  rw [zero_add] at hanswer
  refine ⟨hanswer, hhosts, ⟨fun r hr ↦ (hranges r hr).toValid, ?_⟩, hranges⟩
  exact hcanonical.nhosts_eq.trans (congrArg (fun l : List (List Char) ↦ toInt l.length)
    hhosts.symm)

end Whatsup
