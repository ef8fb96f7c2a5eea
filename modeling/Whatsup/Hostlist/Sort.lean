import Whatsup.CLib.Loop
import Whatsup.Hostlist.Order
import Whatsup.Hostlist.Push

/-!
# Sorting a hostlist

`hostlist_sort` sorts the ranges with `qsort`, splits neighbours that overlap (`hostlist_coalesce`)
and joins neighbours that continue each other (`hostlist_collapse`). The loop of `hostlist_coalesce`
runs from the end of the array and starts again from the end after every split.

This file has the functions and what one round of the loop does to two canonical neighbours:
`coalesceBody_skip` if they do not overlap, `coalesceBody_split` if they do, and
`coalesceBody_fault` if they overlap in the wrong order. In a build with assertions such a pair is a
failed assertion; without assertions the second range is freed and read again.
-/

set_option autoImplicit false
set_option relaxedAutoImplicit false

namespace Whatsup

open CLib

/-! ### The functions -/

/-- The ways a sort goes wrong: a failed assertion of `hostrange_intersect`, a range that is read
after it was freed, an index outside of the array, and a split that inserts ranges without end. -/
inductive SortFault
  | assertion
  | useAfterFree
  | outOfBounds
  | diverges
deriving DecidableEq

/-- What `hostrange_intersect` does behind its assertion: the common hosts of two ranges, if there
are several, and the ranges as the call leaves them. -/
def hostrangeCommon (h1 h2 : HostRange) : Option HostRange × HostRange × HostRange :=
  if hostrangePrefixCmp h1 h2 = 0 ∧ h2.lo < h1.hi then
    let (combine, h1, h2) := hostrangeWidthCombine h1 h2
    if combine then
      let new := hostrangeCopy h1
      (some { new with lo := h2.lo, hi := if h2.hi < h1.hi then h2.hi else h1.hi }, h1, h2)
    else (none, h1, h2)
  else (none, h1, h2)

/-- `hostrange_intersect`. Without `NDEBUG` the order of the ranges is asserted, which may overwrite
their widths. -/
def hostrangeIntersect (ndebug : Bool) (h1 h2 : HostRange) :
    Except SortFault (Option HostRange × HostRange × HostRange) :=
  if h1.singlehost || h2.singlehost then .ok (none, h1, h2)
  else
    let (order, h1, h2) := if ndebug then (0, h1, h2) else hostrangeCmp h1 h2
    if 0 < order then .error .assertion else .ok (hostrangeCommon h1 h2)

/-- What the loop of `hostlist_coalesce` over the common numbers inserts between two neighbours. -/
def insertedRanges (new : HostRange) (prevHi nextLo : ℕ) : List HostRange :=
  (List.range' new.lo (new.hi + 1 - new.lo)).flatMap fun number ↦
    let hr := hostrangeCreate new.pfx number number new.width
    (if prevHi < number then [hostrangeCopy hr] else []) ++
      if number < nextLo then [hostrangeCopy hr] else []

/-- The split of two neighbours with common hosts. The next round starts at the end of the array. If
`hprev` becomes empty, `hnext` is deleted, and its bound is read in the loop over the common
numbers. That loop does not end if the last common number is `ULONG_MAX`. -/
def coalesceSplit (front : List HostRange) (hprev hnext new : HostRange) (back : List HostRange) :
    Next (ℕ × List HostRange) (List HostRange) SortFault :=
  let hnext := if new.hi < hprev.hi then { hnext with hi := hprev.hi } else hnext
  let hprev := { hprev with hi := new.lo }
  let hnext := { hnext with lo := new.hi }
  if hostrangeEmpty hprev then
    if new.lo ≤ new.hi then .fault .useAfterFree
    else .again ((front ++ hprev :: back).length - 1, front ++ hprev :: back)
  else if new.lo ≤ new.hi ∧ new.hi = ulongMax then .fault .diverges
  else
    let array := front ++ hprev :: (insertedRanges new hprev.hi hnext.lo ++ hnext :: back)
    .again (array.length - 1, array)

/-- One round of the loop of `hostlist_coalesce`, for the index `i` and the array of ranges. -/
def coalesceBody (ndebug : Bool) :
    ℕ × List HostRange → Next (ℕ × List HostRange) (List HostRange) SortFault
  | (0, ranges) => .result ranges
  | (i + 1, ranges) =>
    match ranges.drop i with
    | hprev :: hnext :: back =>
      match hostrangeIntersect ndebug hprev hnext with
      | .error failure => .fault failure
      | .ok (none, hprev, hnext) => .again (i, ranges.take i ++ hprev :: hnext :: back)
      | .ok (some new, hprev, hnext) => coalesceSplit (ranges.take i) hprev hnext new back
    | _ => .fault .outOfBounds

/-- `hostlist_collapse`: neighbours that continue each other are joined, from the end of the array
to its start. -/
def hostlistCollapse : List HostRange → List HostRange
  | [] => []
  | hprev :: rest =>
    match hostlistCollapse rest with
    | [] => [hprev]
    | hnext :: tail =>
      if hostrangePrefixCmp hprev hnext = 0 ∧ hprev.hi = ulongSub hnext.lo 1 then
        let (combine, hprev, hnext) := hostrangeWidthCombine hprev hnext
        if combine then { hprev with hi := hnext.hi } :: tail else hprev :: hnext :: tail
      else hprev :: hnext :: tail

/-- `hostlist_coalesce`, within a number of rounds. -/
def hostlistCoalesce (ndebug : Bool) (rounds : ℕ) (hl : Hostlist) :
    Option (Except SortFault Hostlist) :=
  (runLoop (coalesceBody ndebug) rounds (hl.ranges.length - 1, hl.ranges)).map
    (Except.map fun ranges ↦ { hl with ranges := hostlistCollapse ranges })

/-- `hostlist_sort`, within a number of rounds of `hostlist_coalesce`, for an implementation of
`qsort`. -/
def hostlistSort (ndebug : Bool) (qsort : List HostRange → List HostRange) (rounds : ℕ)
    (hl : Hostlist) : Option (Except SortFault Hostlist) :=
  if hl.ranges.length ≤ 1 then some (.ok hl)
  else hostlistCoalesce ndebug rounds { hl with ranges := qsort hl.ranges }

/-! ### Overlap -/

/-- Two ranges overlap: they have one prefix and widths that can be combined, and the second starts
before the first ends. -/
def HostRange.Overlaps (h1 h2 : HostRange) : Prop :=
  h1.singlehost = false ∧ h2.singlehost = false ∧ h1.pfx = h2.pfx ∧ h2.lo < h1.hi ∧
    (hostrangeWidthCombine h1 h2).1 = true

/-- Assumes: the ranges as they are written. Whether they overlap depends on them alone. -/
theorem HostRange.overlaps_congr {h1 h2 h1' h2' : HostRange} (h1_normal : h1'.normal = h1.normal)
    (h2_normal : h2'.normal = h2.normal) : h1'.Overlaps h2' ↔ h1.Overlaps h2 := by
  have hpfx1 := congrArg HostRange.pfx h1_normal
  have hpfx2 := congrArg HostRange.pfx h2_normal
  have hsingle1 := congrArg HostRange.singlehost h1_normal
  have hsingle2 := congrArg HostRange.singlehost h2_normal
  have hhi := congrArg HostRange.hi h1_normal
  have hlo := congrArg HostRange.lo h2_normal
  simp only [HostRange.pfx_normal, HostRange.singlehost_normal, HostRange.hi_normal,
    HostRange.lo_normal] at hpfx1 hpfx2 hsingle1 hsingle2 hhi hlo
  have hcombine : (hostrangeWidthCombine h1' h2').1 = (hostrangeWidthCombine h1 h2).1 := by
    refine combine_congr_key ?_ ?_
    · rw [← HostRange.key_normal, h1_normal, HostRange.key_normal]
    · rw [← HostRange.key_normal, h2_normal, HostRange.key_normal]
  unfold HostRange.Overlaps
  rw [hpfx1, hpfx2, hsingle1, hsingle2, hhi, hlo, hcombine]

/-! ### Rounds of `hostlist_coalesce` -/

/-- Two ranges after a call: as they were written before it, and canonical. -/
structure Rewritten (h1 h2 h1' h2' : HostRange) : Prop where
  normal1 : h1'.normal = h1.normal
  normal2 : h2'.normal = h2.normal
  canonical1 : h1'.Canonical
  canonical2 : h2'.Canonical

/-- Assumes: canonical ranges. What the assertion of `hostrange_intersect` leaves, and when it
passes. -/
theorem assertion_spec (ndebug : Bool) {h1 h2 : HostRange} (hcanonical1 : h1.Canonical)
    (hcanonical2 : h2.Canonical) :
    Rewritten h1 h2 (if ndebug then ((0 : ℤ), h1, h2) else hostrangeCmp h1 h2).2.1
        (if ndebug then ((0 : ℤ), h1, h2) else hostrangeCmp h1 h2).2.2 ∧
      (0 < (if ndebug then ((0 : ℤ), h1, h2) else hostrangeCmp h1 h2).1 ↔
        ndebug = false ∧ ¬h1.key ≤ h2.key) := by
  cases ndebug with
  | true => exact ⟨⟨rfl, rfl, hcanonical1, hcanonical2⟩, by simp⟩
  | false =>
    refine ⟨⟨(normal_hostrangeCmp h1 h2).1, (normal_hostrangeCmp h1 h2).2,
      (canonical_hostrangeCmp hcanonical1 hcanonical2).1,
      (canonical_hostrangeCmp hcanonical1 hcanonical2).2⟩, ?_⟩
    rw [← hostrangeCmp_nonpos_iff (hcanonical1.comparable hcanonical2)]
    simp

/-- Assumes: canonical ranges with suffixes that do not overlap. Behind the assertion nothing is
found. -/
theorem hostrangeCommon_none {h1 h2 : HostRange} (hcanonical1 : h1.Canonical)
    (hcanonical2 : h2.Canonical) (hsingle1 : h1.singlehost = false)
    (hsingle2 : h2.singlehost = false) (hoverlap : ¬h1.Overlaps h2) :
    ∃ h1' h2', hostrangeCommon h1 h2 = (none, h1', h2') ∧ Rewritten h1 h2 h1' h2' := by
  unfold hostrangeCommon
  by_cases hcommon : hostrangePrefixCmp h1 h2 = 0 ∧ h2.lo < h1.hi
  · obtain ⟨hpfx, hsame⟩ := hostrangePrefixCmp_eq_zero_iff.mp hcommon.1
    have hcombine : (hostrangeWidthCombine h1 h2).1 = false := by
      by_contra hcombine
      exact hoverlap ⟨hsingle1, hsingle2, hpfx, hcommon.2, by simpa using hcombine⟩
    have hnormal := normal_hostrangeWidthCombine h1 h2
    have hcanonical := canonical_hostrangeWidthCombine hcanonical1 hcanonical2 hsame
    refine ⟨_, _, ?_, ⟨hnormal.1, hnormal.2, hcanonical.1, hcanonical.2⟩⟩
    simp only [if_pos hcommon, hcombine, Bool.false_eq_true, if_false]
  · exact ⟨h1, h2, by simp only [if_neg hcommon], ⟨rfl, rfl, hcanonical1, hcanonical2⟩⟩

/-- Assumes: canonical ranges that overlap. Behind the assertion the common numbers are found, and
the ranges have one width. -/
theorem hostrangeCommon_some {h1 h2 : HostRange} (hcanonical1 : h1.Canonical)
    (hcanonical2 : h2.Canonical) (hoverlap : h1.Overlaps h2) :
    ∃ h1' h2', hostrangeCommon h1 h2 =
        (some (hostrangeCreate h1'.pfx h2'.lo (min h1'.hi h2'.hi) h1'.width), h1', h2') ∧
      Rewritten h1 h2 h1' h2' ∧ h1'.width = h2'.width := by
  obtain ⟨hsingle1, hsingle2, hpfx, hlt, hcombine⟩ := hoverlap
  have hpfxCmp : hostrangePrefixCmp h1 h2 = 0 :=
    hostrangePrefixCmp_eq_zero_iff.mpr ⟨hpfx, hsingle1.trans hsingle2.symm⟩
  have hnormal := normal_hostrangeWidthCombine h1 h2
  have hcanonical := canonical_hostrangeWidthCombine hcanonical1 hcanonical2
    (hsingle1.trans hsingle2.symm)
  refine ⟨(hostrangeWidthCombine h1 h2).2.1, (hostrangeWidthCombine h1 h2).2.2, ?_,
    ⟨hnormal.1, hnormal.2, hcanonical.1, hcanonical.2⟩, ?_⟩
  · have hsingle : (hostrangeWidthCombine h1 h2).2.1.singlehost = false := hsingle1
    have hmin : ∀ a b : ℕ, (if b < a then b else a) = min a b := fun a b ↦ by
      split_ifs <;> omega
    unfold hostrangeCommon
    simp only [hpfxCmp, hlt, and_self, if_true, hcombine, hmin]
    unfold hostrangeCopy
    rw [if_neg (by rw [hsingle]; decide)]
    rfl
  · obtain ⟨width, hresult, -, -⟩ := widthEquiv_of_eq_true hcombine
    unfold hostrangeWidthCombine
    rw [hresult]

/-- Assumes: canonical ranges with suffixes. `hostrange_intersect` fails on ranges out of order if
there are assertions, and else finds the common numbers of the ranges as the assertion leaves
them. -/
theorem hostrangeIntersect_eq (ndebug : Bool) {h1 h2 : HostRange} (hcanonical1 : h1.Canonical)
    (hcanonical2 : h2.Canonical) (hsingle1 : h1.singlehost = false)
    (hsingle2 : h2.singlehost = false) :
    ∃ g1 g2, Rewritten h1 h2 g1 g2 ∧ hostrangeIntersect ndebug h1 h2 =
      if ndebug = false ∧
      ¬h1.key ≤ h2.key then .error .assertion else .ok (hostrangeCommon g1 g2) := by
  obtain ⟨hwritten, hassert⟩ := assertion_spec ndebug hcanonical1 hcanonical2
  refine ⟨_, _, hwritten, ?_⟩
  unfold hostrangeIntersect
  rw [if_neg (by simp [hsingle1, hsingle2])]
  simp only [hassert]

/-- Assumes: two canonical neighbours in order that do not overlap. A round of the loop passes
them. -/
theorem coalesceBody_skip (ndebug : Bool) {h1 h2 : HostRange} (hcanonical1 : h1.Canonical)
    (hcanonical2 : h2.Canonical) (horder : h1.key ≤ h2.key) (hoverlap : ¬h1.Overlaps h2)
    (front back : List HostRange) :
    ∃ h1' h2', coalesceBody ndebug (front.length + 1, front ++ h1 :: h2 :: back) =
        .again (front.length, front ++ h1' :: h2' :: back) ∧ Rewritten h1 h2 h1' h2' := by
  have hintersect : ∃ h1' h2', hostrangeIntersect ndebug h1 h2 = .ok (none, h1', h2') ∧
      Rewritten h1 h2 h1' h2' := by
    by_cases hsingle : (h1.singlehost || h2.singlehost) = true
    · exact ⟨h1, h2, by rw [hostrangeIntersect, if_pos hsingle],
        ⟨rfl, rfl, hcanonical1, hcanonical2⟩⟩
    · obtain ⟨hsingle1, hsingle2⟩ : h1.singlehost = false ∧ h2.singlehost = false := by
        simpa using hsingle
      obtain ⟨g1, g2, hwritten, hresult⟩ :=
        hostrangeIntersect_eq ndebug hcanonical1 hcanonical2 hsingle1 hsingle2
      obtain ⟨h1', h2', hcommon, hwritten'⟩ := hostrangeCommon_none hwritten.canonical1
        hwritten.canonical2 ((congrArg HostRange.singlehost hwritten.normal1).trans hsingle1)
        ((congrArg HostRange.singlehost hwritten.normal2).trans hsingle2)
        ((HostRange.overlaps_congr hwritten.normal1 hwritten.normal2).not.mpr hoverlap)
      exact ⟨h1', h2', by rw [hresult, if_neg (fun h ↦ h.2 horder), hcommon],
        ⟨hwritten'.normal1.trans hwritten.normal1, hwritten'.normal2.trans hwritten.normal2,
          hwritten'.canonical1, hwritten'.canonical2⟩⟩
  obtain ⟨h1', h2', hresult, hwritten⟩ := hintersect
  refine ⟨h1', h2', ?_, hwritten⟩
  rw [coalesceBody, List.drop_left, List.take_left]
  simp only [hresult]

/-- Assumes: canonical ranges that overlap. Unless the assertion fails, `hostrange_intersect` finds
the common numbers, and the ranges have one width afterwards. -/
theorem hostrangeIntersect_some {ndebug : Bool} {h1 h2 : HostRange} (hcanonical1 : h1.Canonical)
    (hcanonical2 : h2.Canonical) (hoverlap : h1.Overlaps h2)
    (hpass : ¬(ndebug = false ∧ ¬h1.key ≤ h2.key)) :
    ∃ h1' h2', hostrangeIntersect ndebug h1 h2 =
        .ok (some (hostrangeCreate h1'.pfx h2'.lo (min h1'.hi h2'.hi) h1'.width), h1', h2') ∧
      Rewritten h1 h2 h1' h2' ∧ h1'.width = h2'.width := by
  obtain ⟨g1, g2, hwritten, hresult⟩ :=
    hostrangeIntersect_eq ndebug hcanonical1 hcanonical2 hoverlap.1 hoverlap.2.1
  obtain ⟨h1', h2', hcommon, hwritten', hwidth⟩ := hostrangeCommon_some hwritten.canonical1
    hwritten.canonical2 ((HostRange.overlaps_congr hwritten.normal1 hwritten.normal2).mpr hoverlap)
  exact ⟨h1', h2', by rw [hresult, if_neg hpass, hcommon],
    ⟨hwritten'.normal1.trans hwritten.normal1, hwritten'.normal2.trans hwritten.normal2,
      hwritten'.canonical1, hwritten'.canonical2⟩, hwidth⟩

/-- Rewritten ranges overlap as the ranges before did. -/
theorem Rewritten.overlaps {h1 h2 h1' h2' : HostRange} (h : Rewritten h1 h2 h1' h2')
    (hoverlap : h1.Overlaps h2) : h1'.Overlaps h2' :=
  (HostRange.overlaps_congr h.normal1 h.normal2).mpr hoverlap

/-- Rewritten ranges are ordered as the ranges before were. -/
theorem Rewritten.key_le_iff {h1 h2 h1' h2' : HostRange} (h : Rewritten h1 h2 h1' h2') :
    h1'.key ≤ h2'.key ↔ h1.key ≤ h2.key := by
  rw [← HostRange.key_normal h1', h.normal1, HostRange.key_normal, ← HostRange.key_normal h2',
    h.normal2, HostRange.key_normal]

/-- The order of overlapping ranges is that of their lowest suffixes. -/
theorem HostRange.Overlaps.key_le_iff {h1 h2 : HostRange} (h : h1.Overlaps h2) :
    h1.key ≤ h2.key ↔ h1.lo ≤ h2.lo :=
  HostRange.key_le_iff_of_combine h.2.2.1 (h.1.trans h.2.1.symm) h.2.2.2.2

/-- What two overlapping neighbours of one width are split into: the first up to the start of the
second, the numbers up to the end of their common numbers, and from there on the rest. -/
def splitRanges (h1 h2 : HostRange) : List HostRange :=
  { h1 with hi := h2.lo } ::
    (insertedRanges (hostrangeCreate h1.pfx h2.lo (min h1.hi h2.hi) h1.width) h2.lo
        (min h1.hi h2.hi) ++ [{ h2 with lo := min h1.hi h2.hi, hi := max h1.hi h2.hi }])

/-- Assumes: two canonical neighbours in order that overlap. A round of the loop splits them and
starts again from the end. -/
theorem coalesceBody_split (ndebug : Bool) {h1 h2 : HostRange} (hcanonical1 : h1.Canonical)
    (hcanonical2 : h2.Canonical) (horder : h1.key ≤ h2.key) (hoverlap : h1.Overlaps h2)
    (front back : List HostRange) :
    ∃ h1' h2', coalesceBody ndebug (front.length + 1, front ++ h1 :: h2 :: back) =
        .again ((front ++ (splitRanges h1' h2' ++ back)).length - 1,
          front ++ (splitRanges h1' h2' ++ back)) ∧
      Rewritten h1 h2 h1' h2' ∧ h1'.width = h2'.width := by
  obtain ⟨h1', h2', hresult, hwritten, hwidth⟩ := hostrangeIntersect_some hcanonical1 hcanonical2
    hoverlap (fun h ↦ h.2 horder : ¬(ndebug = false ∧ ¬h1.key ≤ h2.key))
  refine ⟨h1', h2', ?_, hwritten, hwidth⟩
  have hlo := (hwritten.overlaps hoverlap).key_le_iff.mp (hwritten.key_le_iff.mpr horder)
  have hlt : h2'.lo < h1'.hi := (hwritten.overlaps hoverlap).2.2.2.1
  have hmax1 := hwritten.canonical1.hi_le
  have hmax2 := hwritten.canonical2.hi_le
  have hle2 := hwritten.canonical2.lo_le_hi
  unfold maxHostSuffix at hmax1 hmax2
  rw [coalesceBody, List.drop_left, List.take_left]
  simp only [hresult]
  generalize hnew : hostrangeCreate h1'.pfx h2'.lo (min h1'.hi h2'.hi) h1'.width = new
  have hnew_lo : new.lo = h2'.lo := by rw [← hnew]; rfl
  have hnew_hi : new.hi = min h1'.hi h2'.hi := by rw [← hnew]; rfl
  have hnext : (if new.hi < h1'.hi then { h2' with hi := h1'.hi } else h2') =
      { h2' with hi := max h1'.hi h2'.hi } := by
    split_ifs with hless
    · rw [max_eq_left (by omega)]
    · rw [max_eq_right (by omega)]
  have hnotEmpty : hostrangeEmpty { h1' with hi := new.lo } = false := by
    unfold hostrangeEmpty ulongMax
    simp only [Bool.or_eq_false_iff, decide_eq_false_iff_not]
    omega
  have hends : ¬(new.lo ≤ new.hi ∧ new.hi = ulongMax) := by
    unfold ulongMax
    omega
  unfold coalesceSplit splitRanges
  simp only [hnext, hnotEmpty, Bool.false_eq_true, if_false, if_neg hends]
  rw [hnew, hnew_lo, hnew_hi]
  simp

/-- Assumes: two canonical neighbours that overlap and are out of order. A round of the loop
fails. -/
theorem coalesceBody_fault (ndebug : Bool) {h1 h2 : HostRange} (hcanonical1 : h1.Canonical)
    (hcanonical2 : h2.Canonical) (horder : ¬h1.key ≤ h2.key) (hoverlap : h1.Overlaps h2)
    (front back : List HostRange) :
    ∃ failure, coalesceBody ndebug (front.length + 1, front ++ h1 :: h2 :: back) =
      .fault failure := by
  rw [coalesceBody, List.drop_left, List.take_left]
  cases ndebug with
  | false =>
    obtain ⟨g1, g2, -, hresult⟩ :=
      hostrangeIntersect_eq false hcanonical1 hcanonical2 hoverlap.1 hoverlap.2.1
    rw [if_pos ⟨rfl, horder⟩] at hresult
    exact ⟨.assertion, by simp only [hresult]⟩
  | true =>
    obtain ⟨h1', h2', hresult, hwritten, -⟩ := hostrangeIntersect_some hcanonical1 hcanonical2
      hoverlap (fun h ↦ absurd h.1 (by decide) : ¬(true = false ∧ ¬h1.key ≤ h2.key))
    have hlo := (hwritten.overlaps hoverlap).key_le_iff.not.mp (hwritten.key_le_iff.not.mpr horder)
    have hlt : h2'.lo < h1'.hi := (hwritten.overlaps hoverlap).2.2.2.1
    have hle2 := hwritten.canonical2.lo_le_hi
    refine ⟨.useAfterFree, ?_⟩
    simp only [hresult]
    generalize hnew : hostrangeCreate h1'.pfx h2'.lo (min h1'.hi h2'.hi) h1'.width = new
    have hnew_lo : new.lo = h2'.lo := by rw [← hnew]; rfl
    have hnew_hi : new.hi = min h1'.hi h2'.hi := by rw [← hnew]; rfl
    have hempty : hostrangeEmpty { h1' with hi := new.lo } = true := by
      unfold hostrangeEmpty
      simp only [Bool.or_eq_true, decide_eq_true_eq]
      omega
    have hcommon : new.lo ≤ new.hi := by omega
    unfold coalesceSplit
    simp only [hempty, if_true, if_pos hcommon]

end Whatsup
