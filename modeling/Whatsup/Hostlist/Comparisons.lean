import Mathlib.Order.Compare
import Whatsup.Hostlist.Order

/-!
# Sequences of comparisons

`hostrange_cmp` overwrites widths, so that a comparison can depend on those before it.
`runComparisons` makes comparisons of ranges at given places, one after the other, each on what the
ones before have left. `runComparisons_signs` says that, for suffixes up to `MAX_HOST_SUFFIX`, each
has the sign of the comparison of the keys of the ranges as they were at first, that every range
denotes the same hosts throughout, and that a sort is therefore given the order of a key.
-/

set_option autoImplicit false
set_option relaxedAutoImplicit false

namespace Whatsup

open CLib

/-! ### The sign of one comparison -/

/-- A difference of prefixes is one of keys. -/
theorem hostrangePrefixCmp_of_key_eq {h1 h2 : HostRange} (h : h1.key = h2.key) :
    hostrangePrefixCmp h1 h2 = 0 := by
  obtain ⟨hpfx, hsame, -, -⟩ := HostRange.key_eq_iff.mp h
  exact hostrangePrefixCmp_eq_zero_iff.mpr ⟨hpfx, hsame⟩

/-- Two widths can be combined in one order exactly if they can be in the other. -/
theorem hostrangeWidthCombine_comm (h1 h2 : HostRange) :
    (hostrangeWidthCombine h1 h2).1 = (hostrangeWidthCombine h2 h1).1 := by
  have hequiv : ∀ h h' : HostRange, (hostrangeWidthCombine h h').1 =
      (widthEquiv h.lo h.width h'.lo h'.width).1 :=
    fun _ _ ↦ rfl
  rw [hequiv, hequiv, Bool.eq_iff_iff, widthEquiv_eq_true_iff, widthEquiv_eq_true_iff, or_comm]
  exact or_congr eq_comm eq_comm

/-- Assumes: comparable ranges. A comparison is zero exactly if the keys are equal. -/
theorem hostrangeCmp_eq_zero_iff {h1 h2 : HostRange} (hcomparable : h1.Comparable h2) :
    (hostrangeCmp h1 h2).1 = 0 ↔ h1.key = h2.key := by
  by_cases hpfxCmp : hostrangePrefixCmp h1 h2 = 0
  · obtain ⟨hpfx, hsame⟩ := hostrangePrefixCmp_eq_zero_iff.mp hpfxCmp
    cases hcombine : (hostrangeWidthCombine h1 h2).1 with
    | true =>
      have hvalue : (hostrangeCmp h1 h2).1 = toInt (ulongSub h1.lo h2.lo) := by
        unfold hostrangeCmp
        simp only [hpfxCmp, if_true]
        rw [if_pos hcombine]
        rfl
      have hle := HostRange.key_le_iff_of_combine hpfx hsame hcombine
      have hge := HostRange.key_le_iff_of_combine hpfx.symm hsame.symm
        ((hostrangeWidthCombine_comm h2 h1).trans hcombine)
      rw [hvalue, ← Int.sign_eq_zero_iff_zero, hcomparable hpfxCmp hcombine,
        Int.sign_eq_zero_iff_zero,
        @le_antisymm_iff _ _ h1.key, hle, hge]
      omega
    | false =>
      have hwidths : hostrangeWidthCombine h1 h2 = (false, h1, h2) := by
        unfold hostrangeWidthCombine
        rw [widthEquiv_of_eq_false hcombine]
      have hvalue : (hostrangeCmp h1 h2).1 = (h1.width : ℤ) - h2.width := by
        unfold hostrangeCmp
        simp only [hpfxCmp, if_true, hwidths]
        rfl
      rw [hvalue]
      refine iff_of_false (fun hzero ↦ ?_) fun hkey ↦ ?_
      · have hequal : h1.width = h2.width := by omega
        have htrue : (widthEquiv h1.lo h1.width h2.lo h2.width).1 = true :=
          widthEquiv_eq_true_iff.mpr (Or.inl (by rw [hequal]))
        exact absurd (hcombine.symm.trans htrue) (by decide)
      · obtain ⟨-, -, hdigits, -⟩ := HostRange.key_eq_iff.mp hkey
        have htrue := (combine_iff hdigits.le).mpr (Or.inl hdigits)
        exact absurd (hcombine.symm.trans htrue) (by decide)
  · have hvalue : (hostrangeCmp h1 h2).1 = hostrangePrefixCmp h1 h2 := by
      unfold hostrangeCmp
      simp only [hpfxCmp, if_false]
    rw [hvalue]
    exact iff_of_false hpfxCmp fun hkey ↦ hpfxCmp (hostrangePrefixCmp_of_key_eq hkey)

/-- Assumes: comparable ranges. The sign of a comparison is that of the comparison of the keys. -/
theorem cmp_hostrangeCmp {h1 h2 : HostRange} (hcomparable : h1.Comparable h2) :
    cmp (hostrangeCmp h1 h2).1 0 = cmp h1.key h2.key := by
  have hle := hostrangeCmp_nonpos_iff hcomparable
  have heq := hostrangeCmp_eq_zero_iff hcomparable
  rcases lt_trichotomy h1.key h2.key with hlt | hkey | hgt
  · rw [(cmp_eq_lt_iff _ _).mpr hlt, cmp_eq_lt_iff _ _]
    exact lt_of_le_of_ne (hle.mpr hlt.le) fun hzero ↦ hlt.ne (heq.mp hzero)
  · rw [(cmp_eq_eq_iff _ _).mpr hkey, cmp_eq_eq_iff _ _]
    exact heq.mpr hkey
  · rw [(cmp_eq_gt_iff _ _).mpr hgt, cmp_eq_gt_iff _ _]
    exact not_le.mp fun hnonpos ↦ hgt.not_ge (hle.mp hnonpos)

/-- Ranges with suffixes up to the largest are comparable. -/
theorem HostRange.comparable_of_le {h1 h2 : HostRange} (hlo1 : h1.lo ≤ maxHostSuffix)
    (hlo2 : h2.lo ≤ maxHostSuffix) : h1.Comparable h2 := by
  unfold maxHostSuffix at hlo1 hlo2
  exact HostRange.comparable_of_lt (by omega) (by omega)

/-! ### Many comparisons -/

section

variable {ι : Type} [DecidableEq ι]

/-- A comparison of the ranges at two places, and the ranges as it leaves them. -/
def compareAt (ranges : ι → HostRange) (call : ι × ι) : ℤ × (ι → HostRange) :=
  let (retval, h1, h2) := hostrangeCmp (ranges call.1) (ranges call.2)
  (retval, Function.update (Function.update ranges call.1 h1) call.2 h2)

/-- Comparisons, each on the ranges that those before it have left: their values, and the ranges
behind them. -/
def runComparisons : List (ι × ι) → (ι → HostRange) → List ℤ × (ι → HostRange)
  | [], ranges => ([], ranges)
  | call :: calls, ranges =>
    let (retval, ranges) := compareAt ranges call
    let (retvals, ranges) := runComparisons calls ranges
    (retval :: retvals, ranges)

/-- A comparison changes no range as it is written. -/
theorem normal_compareAt (ranges : ι → HostRange) (call : ι × ι) (i : ι) :
    ((compareAt ranges call).2 i).normal = (ranges i).normal := by
  obtain ⟨hleft, hright⟩ := normal_hostrangeCmp (ranges call.1) (ranges call.2)
  change (Function.update (Function.update ranges call.1 _) call.2 _ i).normal = _
  rw [Function.update_apply, Function.update_apply]
  split_ifs with hsecond hfirst
  · rw [hsecond]
    exact hright
  · rw [hfirst]
    exact hleft
  · rfl

/-- Ranges that are written alike have the same lowest suffix. -/
theorem HostRange.lo_of_normal {hr hr' : HostRange} (h : hr'.normal = hr.normal) :
    hr'.lo = hr.lo := by
  rw [← hr'.lo_normal, h, hr.lo_normal]

/-- Assumes: ranges that are written like others with suffixes up to the largest. The sign of a
comparison is that of the keys of the others. -/
theorem cmp_compareAt {ranges ranges' : ι → HostRange} (hlo : ∀ i, (ranges i).lo ≤ maxHostSuffix)
    (hnormal : ∀ i, (ranges' i).normal = (ranges i).normal) (call : ι × ι) :
    cmp (compareAt ranges' call).1 0 = cmp (ranges call.1).key (ranges call.2).key := by
  have hlo' : ∀ i, (ranges' i).lo ≤ maxHostSuffix :=
    fun i ↦ (HostRange.lo_of_normal (hnormal i)).trans_le (hlo i)
  have hkey : ∀ i, (ranges' i).key = (ranges i).key := fun i ↦ by
    rw [← HostRange.key_normal, hnormal i, HostRange.key_normal]
  rw [← hkey call.1, ← hkey call.2]
  exact cmp_hostrangeCmp (HostRange.comparable_of_le (hlo' call.1) (hlo' call.2))

/-- Assumes: ranges that are written like others with suffixes up to the largest. Comparisons have
the signs of the keys of the others, and leave ranges that are written like them. -/
theorem runComparisons_normal {ranges : ι → HostRange} (hlo : ∀ i, (ranges i).lo ≤ maxHostSuffix)
    (calls : List (ι × ι)) :
    ∀ ranges' : ι → HostRange, (∀ i, (ranges' i).normal = (ranges i).normal) →
      (runComparisons calls ranges').1.map (cmp · 0) =
          calls.map (fun call ↦ cmp (ranges call.1).key (ranges call.2).key) ∧
        ∀ i, ((runComparisons calls ranges').2 i).normal = (ranges i).normal := by
  induction calls with
  | nil => exact fun ranges' hnormal ↦ ⟨rfl, hnormal⟩
  | cons call calls ih =>
    intro ranges' hnormal
    obtain ⟨hsigns, hleft⟩ := ih (compareAt ranges' call).2 fun i ↦
      (normal_compareAt ranges' call i).trans (hnormal i)
    refine ⟨?_, hleft⟩
    change cmp (compareAt ranges' call).1 0 :: _ = _
    rw [cmp_compareAt hlo hnormal, List.map_cons]
    exact congrArg _ hsigns

/-- The comparison agrees with the key on ranges with suffixes up to the largest, and changes
neither. -/
theorem respects_hostrangeCmp_of_le : Respects hostrangeCmp HostRange.key fun hr ↦
    hr.lo ≤ maxHostSuffix where
  nonpos_iff _ _ hleft hright := hostrangeCmp_nonpos_iff (HostRange.comparable_of_le hleft hright)
  key_left left right _ _ := by
    rw [← HostRange.key_normal, (normal_hostrangeCmp left right).1, HostRange.key_normal]
  key_right left right _ _ := by
    rw [← HostRange.key_normal, (normal_hostrangeCmp left right).2, HostRange.key_normal]
  kind_left left right hleft _ :=
    (HostRange.lo_of_normal (normal_hostrangeCmp left right).1).trans_le hleft
  kind_right left right _ hright :=
    (HostRange.lo_of_normal (normal_hostrangeCmp left right).2).trans_le hright

/-- Assumes: ranges with suffixes up to the largest. Comparisons of them, in any order and number,
have the signs of the comparisons of their keys as they were at first, and leave every range
denoting the same hosts; and the order of the keys is what a sort is given. -/
theorem runComparisons_signs (ranges : ι → HostRange) (hlo : ∀ i, (ranges i).lo ≤ maxHostSuffix)
    (calls : List (ι × ι)) :
    (runComparisons calls ranges).1.map (cmp · 0) =
        calls.map (fun call ↦ cmp (ranges call.1).key (ranges call.2).key) ∧
      (∀ i, ((runComparisons calls ranges).2 i).hosts = (ranges i).hosts) ∧
      Respects hostrangeCmp HostRange.key fun hr ↦ hr.lo ≤ maxHostSuffix := by
  obtain ⟨hsigns, hnormal⟩ := runComparisons_normal hlo calls ranges fun _ ↦ rfl
  refine ⟨hsigns, fun i ↦ ?_, respects_hostrangeCmp_of_le⟩
  rw [← HostRange.hosts_normal, hnormal i, HostRange.hosts_normal]

end

/-- Three ranges of one prefix, of which the first is padded like neither of the others. -/
def threeRanges (i : Fin 3) : HostRange :=
  [hostrangeCreate "node".toList 9 9 2, hostrangeCreate "node".toList 9 9 1,
    hostrangeCreate "node".toList 10 10 2].get i

/-- The comparisons of the second of them with the third, which rewrites a width, and of both with
the first. -/
theorem runComparisons_signs_three :
    (runComparisons [((1 : Fin 3), (2 : Fin 3)), (0, 1), (0, 2)] threeRanges).1.map (cmp · 0) =
      [.lt, .gt, .lt] := by
  rw [(runComparisons_signs threeRanges (by decide) _).1]
  decide

end Whatsup
