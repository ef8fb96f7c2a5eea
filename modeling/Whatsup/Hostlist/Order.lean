import Mathlib.Data.Prod.Lex
import Mathlib.Data.Bool.Basic
import Mathlib.Data.Char
import Whatsup.CLib.ComparisonSort
import Whatsup.Hostlist.Search

/-!
# The order of host ranges

`hostrange_cmp` compares lowest suffixes if two widths can be combined and widths if not, and
overwrites a width on the way. For canonical ranges this is the order of a fixed key
(`HostRange.key`): the prefix, hosts without a suffix first, the length of the lowest suffix as it
is written (`HostRange.digits`), and the lowest suffix. `respects_hostrangeCmp` says so, in the form
in which a sort asks for it.

A range as it is written is `HostRange.normal`: the range with the length of its lowest suffix for a
width. No comparison changes it (`normal_hostrangeCmp`), and whether two widths can be combined
depends on it alone (`combine_iff`).
-/

set_option autoImplicit false
set_option relaxedAutoImplicit false

namespace Whatsup

open CLib

/-! ### Ranges as they are written -/

/-- The length of the lowest suffix of a range as it is written. -/
def HostRange.digits (hr : HostRange) : ℕ :=
  max hr.width (numDigits hr.lo)

/-- The lowest suffix of a range is written with a leading zero. -/
def HostRange.IsPadded (hr : HostRange) : Prop :=
  numDigits hr.lo < hr.width

instance (hr : HostRange) : Decidable hr.IsPadded :=
  inferInstanceAs (Decidable (numDigits hr.lo < hr.width))

/-- A range as it is written. -/
def HostRange.normal (hr : HostRange) : HostRange :=
  { hr with width := hr.digits }

@[simp]
theorem HostRange.pfx_normal (hr : HostRange) : hr.normal.pfx = hr.pfx := rfl

@[simp]
theorem HostRange.singlehost_normal (hr : HostRange) : hr.normal.singlehost = hr.singlehost := rfl

@[simp]
theorem HostRange.lo_normal (hr : HostRange) : hr.normal.lo = hr.lo := rfl

@[simp]
theorem HostRange.hi_normal (hr : HostRange) : hr.normal.hi = hr.hi := rfl

@[simp]
theorem HostRange.digits_normal (hr : HostRange) : hr.normal.digits = hr.digits := by
  unfold HostRange.normal HostRange.digits
  simp only
  omega

@[simp]
theorem HostRange.normal_normal (hr : HostRange) : hr.normal.normal = hr.normal := by
  change ({ hr with width := hr.normal.digits } : HostRange) = hr.normal
  rw [HostRange.digits_normal]
  rfl

/-- A range is padded as it is written exactly when its lowest suffix has fewer digits than are
written. -/
theorem HostRange.isPadded_iff {hr : HostRange} : hr.IsPadded ↔ numDigits hr.lo < hr.digits := by
  unfold HostRange.IsPadded HostRange.digits
  omega

/-- Assumes: a padded range. Its lowest suffix is below every number that fills its width. -/
theorem lo_lt_of_isPadded {hr : HostRange} (h : hr.IsPadded) : hr.lo < 10 ^ (hr.digits - 1) := by
  rw [HostRange.isPadded_iff] at h
  have hpositive := numDigits_pos hr.lo
  exact (numDigits_le_iff (by omega)).mp (by omega)

/-- A range denotes the hosts it denotes as it is written. -/
theorem HostRange.hosts_normal (hr : HostRange) : hr.normal.hosts = hr.hosts :=
  HostRange.hosts_setWidth fun number hle ↦ by
    have hdigits := numDigits_mono hle
    rw [padded_eq_padded_iff]
    unfold HostRange.digits
    omega

/-- A new width that writes the lowest suffix as the old one did does not change the range as it is
written. -/
theorem HostRange.normal_setWidth {hr : HostRange} {width : ℕ}
    (h : padded width hr.lo = padded hr.width hr.lo) :
    HostRange.normal { hr with width := width } = hr.normal := by
  rw [padded_eq_padded_iff] at h
  unfold HostRange.normal HostRange.digits
  congr 1
  simp only
  omega

/-- Ranges as they are written denote the same hosts. -/
theorem hostsOf_congr {ranges ranges' : List HostRange}
    (h : ranges'.map HostRange.normal = ranges.map HostRange.normal) :
    hostsOf ranges' = hostsOf ranges := by
  have hnormal : ∀ list : List HostRange, hostsOf (list.map HostRange.normal) = hostsOf list := by
    intro list
    unfold hostsOf
    rw [List.flatMap_map]
    exact List.flatMap_congr fun hr _ ↦ hr.hosts_normal
  rw [← hnormal, h, hnormal]

/-- Assumes: ranges that are written like others in another order. They denote the same hosts as
often. -/
theorem perm_hostsOf_of_normal {ranges ranges' : List HostRange}
    (h : (ranges'.map HostRange.normal).Perm (ranges.map HostRange.normal)) :
    (hostsOf ranges').Perm (hostsOf ranges) := by
  have hnormal : ∀ list : List HostRange, hostsOf list = hostsOf (list.map HostRange.normal) :=
    fun list ↦ hostsOf_congr (by simp [Function.comp_def])
  rw [hnormal, hnormal ranges]
  exact h.flatMap_right _

/-! ### Combining widths -/

/-- Assumes: a lowest suffix that is written no longer than another. The widths can be combined
exactly when they are written with equal lengths or the second is not padded. -/
theorem combine_iff {h1 h2 : HostRange} (hle : h1.digits ≤ h2.digits) :
    (hostrangeWidthCombine h1 h2).1 = true ↔ h1.digits = h2.digits ∨ ¬h2.IsPadded := by
  have hequiv : (hostrangeWidthCombine h1 h2).1 = (widthEquiv h1.lo h1.width h2.lo h2.width).1 :=
    rfl
  rw [hequiv, widthEquiv_eq_true_iff, padded_eq_padded_iff, padded_eq_padded_iff]
  unfold HostRange.digits at hle ⊢
  unfold HostRange.IsPadded
  omega

/-- Assumes: a lowest suffix that is written no longer than another. With the other one first, the
widths can be combined exactly when they are written with equal lengths or the first is not
padded. -/
theorem combine_iff' {h1 h2 : HostRange} (hle : h2.digits ≤ h1.digits) :
    (hostrangeWidthCombine h1 h2).1 = true ↔ h2.digits = h1.digits ∨ ¬h1.IsPadded := by
  have hequiv : (hostrangeWidthCombine h1 h2).1 = (widthEquiv h1.lo h1.width h2.lo h2.width).1 :=
    rfl
  rw [hequiv, widthEquiv_eq_true_iff, padded_eq_padded_iff, padded_eq_padded_iff]
  unfold HostRange.digits at hle ⊢
  unfold HostRange.IsPadded
  omega

/-- Combining two widths does not change the ranges as they are written. -/
theorem normal_hostrangeWidthCombine (h1 h2 : HostRange) :
    (hostrangeWidthCombine h1 h2).2.1.normal = h1.normal ∧
      (hostrangeWidthCombine h1 h2).2.2.normal = h2.normal := by
  unfold hostrangeWidthCombine
  cases hequiv : (widthEquiv h1.lo h1.width h2.lo h2.width).1 with
  | false =>
    rw [widthEquiv_of_eq_false hequiv]
    exact ⟨rfl, rfl⟩
  | true =>
    obtain ⟨width, hresult, hwidth1, hwidth2⟩ := widthEquiv_of_eq_true hequiv
    rw [hresult]
    exact ⟨HostRange.normal_setWidth (hwidth1 h1.lo le_rfl),
      HostRange.normal_setWidth (hwidth2 h2.lo le_rfl)⟩

/-- Assumes: canonical ranges of one prefix. Combining their widths keeps them canonical. -/
theorem canonical_hostrangeWidthCombine {h1 h2 : HostRange} (hcanonical1 : h1.Canonical)
    (hcanonical2 : h2.Canonical) (hsame : h1.singlehost = h2.singlehost) :
    (hostrangeWidthCombine h1 h2).2.1.Canonical ∧ (hostrangeWidthCombine h1 h2).2.2.Canonical := by
  rcases Bool.eq_false_or_eq_true h1.singlehost with hsingle | hsingle
  · have hwidths : h1.width = h2.width := by
      rw [hcanonical1.single_width hsingle, hcanonical2.single_width (hsame ▸ hsingle)]
    have hresult : widthEquiv h1.lo h1.width h2.lo h2.width = (true, h1.width, h2.width) := by
      unfold widthEquiv
      simp [hwidths]
    unfold hostrangeWidthCombine
    rw [hresult]
    exact ⟨hcanonical1, hcanonical2⟩
  · exact ⟨hcanonical1.setWidth hsingle _, hcanonical2.setWidth (hsame ▸ hsingle) _⟩

/-! ### The key -/

/-- What ranges are sorted by: the prefix, hosts without a suffix first, the length of the lowest
suffix as it is written, and the lowest suffix. -/
def HostRange.key (hr : HostRange) : List Char ×ₗ Bool ×ₗ ℕ ×ₗ ℕ :=
  toLex (hr.pfx, toLex (!hr.singlehost, toLex (hr.digits, hr.lo)))

/-- The key is that of the range as it is written. -/
@[simp]
theorem HostRange.key_normal (hr : HostRange) : hr.normal.key = hr.key := by
  unfold HostRange.key
  simp

/-- The order of the keys of two ranges. -/
theorem HostRange.key_le_iff {h1 h2 : HostRange} :
    h1.key ≤ h2.key ↔ h1.pfx < h2.pfx ∨ h1.pfx = h2.pfx ∧
      (h1.singlehost = true ∧ h2.singlehost = false ∨ h1.singlehost = h2.singlehost ∧
        (h1.digits < h2.digits ∨ h1.digits = h2.digits ∧ h1.lo ≤ h2.lo)) := by
  unfold HostRange.key
  rw [Prod.Lex.toLex_le_toLex, Prod.Lex.toLex_le_toLex, Prod.Lex.toLex_le_toLex]
  cases h1.singlehost <;> cases h2.singlehost <;> simp [Bool.lt_iff]

/-- Assumes: two ranges of one prefix. The order of their keys is that of the lengths as written,
then of the lowest suffixes. -/
theorem HostRange.key_le_iff_of_pfx {h1 h2 : HostRange} (hpfx : h1.pfx = h2.pfx)
    (hsame : h1.singlehost = h2.singlehost) :
    h1.key ≤ h2.key ↔ h1.digits < h2.digits ∨ h1.digits = h2.digits ∧ h1.lo ≤ h2.lo := by
  rw [HostRange.key_le_iff]
  simp [hpfx, hsame]

/-- Assumes: three ranges in order, the outer two of one prefix, and a first that is not a single
host. So is the middle one, of the same prefix, and it is not written shorter than the first. -/
theorem HostRange.between_of_key_le {first middle last : HostRange}
    (hfirst : first.key ≤ middle.key)
    (hlast : middle.key ≤ last.key) (hpfx : first.pfx = last.pfx)
    (hsingle : first.singlehost = false) :
    middle.pfx = first.pfx ∧ middle.singlehost = false ∧ first.digits ≤ middle.digits := by
  rw [HostRange.key_le_iff] at hfirst hlast
  have hle : first.pfx ≤ middle.pfx := hfirst.elim (fun h ↦ h.le) (fun h ↦ h.1.le)
  have hge : middle.pfx ≤ first.pfx := hpfx ▸ hlast.elim (fun h ↦ h.le) (fun h ↦ h.1.le)
  have hsame : middle.pfx = first.pfx := le_antisymm hge hle
  rw [hsame] at hfirst
  rcases hfirst with hlt | ⟨-, ⟨hs, -⟩ | ⟨hs, hdigits⟩⟩
  · exact absurd hlt (lt_irrefl _)
  · exact absurd (hsingle.symm.trans hs) (by decide)
  · exact ⟨hsame, hs.symm.trans hsingle, by omega⟩

/-- The ranges as a comparison leaves them. -/
theorem snd_hostrangeCmp (h1 h2 : HostRange) :
    (hostrangeCmp h1 h2).2 =
      if hostrangePrefixCmp h1 h2 = 0 then (hostrangeWidthCombine h1 h2).2 else (h1, h2) := by
  unfold hostrangeCmp
  by_cases hpfxCmp : hostrangePrefixCmp h1 h2 = 0 <;> simp [hpfxCmp]

/-- Comparing two ranges does not change them as they are written. -/
theorem normal_hostrangeCmp (h1 h2 : HostRange) :
    (hostrangeCmp h1 h2).2.1.normal = h1.normal ∧ (hostrangeCmp h1 h2).2.2.normal = h2.normal := by
  rw [snd_hostrangeCmp]
  split_ifs
  · exact normal_hostrangeWidthCombine h1 h2
  · exact ⟨rfl, rfl⟩

/-- Assumes: canonical ranges. A comparison keeps them canonical. -/
theorem canonical_hostrangeCmp {h1 h2 : HostRange} (hcanonical1 : h1.Canonical)
    (hcanonical2 : h2.Canonical) :
    (hostrangeCmp h1 h2).2.1.Canonical ∧ (hostrangeCmp h1 h2).2.2.Canonical := by
  rw [snd_hostrangeCmp]
  split_ifs with hpfxCmp
  · exact canonical_hostrangeWidthCombine hcanonical1 hcanonical2
      (hostrangePrefixCmp_eq_zero_iff.mp hpfxCmp).2
  · exact ⟨hcanonical1, hcanonical2⟩

/-- The parts of a key. -/
theorem HostRange.key_eq_iff {h1 h2 : HostRange} :
    h1.key = h2.key ↔ h1.pfx = h2.pfx ∧ h1.singlehost = h2.singlehost ∧ h1.digits = h2.digits ∧
      h1.lo = h2.lo := by
  simp [HostRange.key]

/-- Whether two widths can be combined depends on the keys of the ranges. -/
theorem combine_congr_key {h1 h2 h1' h2' : HostRange} (hkey1 : h1'.key = h1.key)
    (hkey2 : h2'.key = h2.key) :
    (hostrangeWidthCombine h1' h2').1 = (hostrangeWidthCombine h1 h2).1 := by
  obtain ⟨-, -, hdigits1, hlo1⟩ := HostRange.key_eq_iff.mp hkey1
  obtain ⟨-, -, hdigits2, hlo2⟩ := HostRange.key_eq_iff.mp hkey2
  rw [Bool.eq_iff_iff]
  rcases le_total h1.digits h2.digits with hle | hle
  · rw [combine_iff hle, combine_iff (by omega), HostRange.isPadded_iff, HostRange.isPadded_iff,
      hdigits1, hdigits2, hlo2]
  · rw [combine_iff' hle, combine_iff' (by omega), HostRange.isPadded_iff, HostRange.isPadded_iff,
      hdigits1, hdigits2, hlo1]

/-- Assumes: two ranges of one prefix whose widths can be combined. The order of their keys is that
of their lowest suffixes. -/
theorem HostRange.key_le_iff_of_combine {h1 h2 : HostRange} (hpfx : h1.pfx = h2.pfx)
    (hsame : h1.singlehost = h2.singlehost) (hcombine : (hostrangeWidthCombine h1 h2).1 = true) :
    h1.key ≤ h2.key ↔ h1.lo ≤ h2.lo := by
  rw [HostRange.key_le_iff_of_pfx hpfx hsame]
  have hmono12 : h1.lo ≤ h2.lo → numDigits h1.lo ≤ numDigits h2.lo := numDigits_mono
  have hmono21 : h2.lo ≤ h1.lo → numDigits h2.lo ≤ numDigits h1.lo := numDigits_mono
  rcases le_total h1.digits h2.digits with hle | hle
  · have hcases := (combine_iff hle).mp hcombine
    unfold HostRange.IsPadded at hcases
    unfold HostRange.digits at hcases hle ⊢
    omega
  · have hcases := (combine_iff' hle).mp hcombine
    unfold HostRange.IsPadded at hcases
    unfold HostRange.digits at hcases hle ⊢
    omega

/-- A difference of prefixes decides the order of the keys. -/
theorem hostrangePrefixCmp_nonpos_iff {h1 h2 : HostRange} (h : hostrangePrefixCmp h1 h2 ≠ 0) :
    hostrangePrefixCmp h1 h2 ≤ 0 ↔ h1.key ≤ h2.key := by
  rw [HostRange.key_le_iff]
  rw [ne_eq, hostrangePrefixCmp_eq_zero_iff] at h
  unfold hostrangePrefixCmp strcmp
  by_cases hpfx : h1.pfx = h2.pfx
  · have hdiffer : h1.singlehost ≠ h2.singlehost := fun hsame ↦ h ⟨hpfx, hsame⟩
    cases hsingle1 : h1.singlehost <;> cases hsingle2 : h2.singlehost <;>
      simp_all
  · by_cases hlt : h1.pfx < h2.pfx <;> simp [hpfx, hlt]

/-- If the lowest suffixes of two ranges are compared, their difference has the right sign as an
`int`. -/
def HostRange.Comparable (h1 h2 : HostRange) : Prop :=
  hostrangePrefixCmp h1 h2 = 0 → (hostrangeWidthCombine h1 h2).1 = true →
    (toInt (ulongSub h1.lo h2.lo)).sign = ((h1.lo : ℤ) - h2.lo).sign

instance (h1 h2 : HostRange) : Decidable (h1.Comparable h2) := by
  unfold HostRange.Comparable
  infer_instance

/-- Assumes: ranges whose lowest suffixes differ by less than `2 ^ 31`. They are comparable. -/
theorem HostRange.comparable_of_lt {h1 h2 : HostRange} (hlow : h1.lo < h2.lo + 2147483648)
    (hhigh : h2.lo < h1.lo + 2147483648) : h1.Comparable h2 := fun _ _ ↦ by
  rw [toInt_ulongSub hlow hhigh]

/-- Whether ranges are comparable depends on their keys. -/
theorem HostRange.comparable_congr_key {h1 h2 h1' h2' : HostRange} (hkey1 : h1'.key = h1.key)
    (hkey2 : h2'.key = h2.key) : h1'.Comparable h2' ↔ h1.Comparable h2 := by
  obtain ⟨hpfx1, hsingle1, -, hlo1⟩ := HostRange.key_eq_iff.mp hkey1
  obtain ⟨hpfx2, hsingle2, -, hlo2⟩ := HostRange.key_eq_iff.mp hkey2
  unfold HostRange.Comparable
  rw [hostrangePrefixCmp_eq_zero_iff, hostrangePrefixCmp_eq_zero_iff, hpfx1, hpfx2, hsingle1,
    hsingle2, hlo1, hlo2, combine_congr_key hkey1 hkey2]

/-- Assumes: comparable ranges. The sign of the comparison is the order of the keys. -/
theorem hostrangeCmp_nonpos_iff {h1 h2 : HostRange} (hcomparable : h1.Comparable h2) :
    (hostrangeCmp h1 h2).1 ≤ 0 ↔ h1.key ≤ h2.key := by
  by_cases hpfxCmp : hostrangePrefixCmp h1 h2 = 0
  · obtain ⟨hpfx, hsame⟩ := hostrangePrefixCmp_eq_zero_iff.mp hpfxCmp
    have hcmp : (hostrangeCmp h1 h2).1 = if (hostrangeWidthCombine h1 h2).1
        then toInt (ulongSub h1.lo h2.lo)
        else ((hostrangeWidthCombine h1 h2).2.1.width : ℤ) -
          (hostrangeWidthCombine h1 h2).2.2.width := by
      unfold hostrangeCmp
      simp only [hpfxCmp, if_true]
      rfl
    rw [hcmp]
    cases hcombine : (hostrangeWidthCombine h1 h2).1 with
    | true =>
      rw [if_pos rfl, ← Int.sign_nonpos_iff, hcomparable hpfxCmp hcombine, Int.sign_nonpos_iff,
        HostRange.key_le_iff_of_combine hpfx hsame hcombine]
      omega
    | false =>
      have hsameWidths : hostrangeWidthCombine h1 h2 = (false, h1, h2) := by
        unfold hostrangeWidthCombine
        rw [widthEquiv_of_eq_false hcombine]
      rw [hsameWidths, if_neg (by decide), HostRange.key_le_iff_of_pfx hpfx hsame]
      simp only
      rcases le_total h1.digits h2.digits with hle | hle
      · have hcases := (combine_iff hle).not.mp (by rw [hcombine]; decide)
        unfold HostRange.IsPadded at hcases
        unfold HostRange.digits at hcases hle ⊢
        omega
      · have hcases := (combine_iff' hle).not.mp (by rw [hcombine]; decide)
        unfold HostRange.IsPadded at hcases
        unfold HostRange.digits at hcases hle ⊢
        omega
  · have hcmp : (hostrangeCmp h1 h2).1 = hostrangePrefixCmp h1 h2 := by
      unfold hostrangeCmp
      simp only [hpfxCmp, if_false]
    rw [hcmp, hostrangePrefixCmp_nonpos_iff hpfxCmp]

/-- Canonical ranges are comparable. -/
theorem HostRange.Canonical.comparable {h1 h2 : HostRange} (hcanonical1 : h1.Canonical)
    (hcanonical2 : h2.Canonical) : h1.Comparable h2 := by
  have hmax1 := hcanonical1.hi_le
  have hmax2 := hcanonical2.hi_le
  have hle1 := hcanonical1.lo_le_hi
  have hle2 := hcanonical2.lo_le_hi
  unfold maxHostSuffix at hmax1 hmax2
  exact HostRange.comparable_of_lt (by omega) (by omega)

/-- The comparison agrees with the key on canonical ranges, and changes neither the keys nor that
the ranges are canonical. -/
theorem respects_hostrangeCmp : Respects hostrangeCmp HostRange.key HostRange.Canonical where
  nonpos_iff _ _ hleft hright := hostrangeCmp_nonpos_iff (hleft.comparable hright)
  key_left left right _ _ := by
    rw [← HostRange.key_normal, (normal_hostrangeCmp left right).1, HostRange.key_normal]
  key_right left right _ _ := by
    rw [← HostRange.key_normal, (normal_hostrangeCmp left right).2, HostRange.key_normal]
  kind_left _ _ hleft hright := (canonical_hostrangeCmp hleft hright).1
  kind_right _ _ hleft hright := (canonical_hostrangeCmp hleft hright).2

/-- Assumes: an implementation of `qsort`. It leaves the ranges as they are written, in some
order. -/
theorem perm_normal_qsort {qsort : List HostRange → List HostRange}
    (hqsort : IsSort hostrangeCmp qsort) (ranges : List HostRange) :
    ((qsort ranges).map HostRange.normal).Perm (ranges.map HostRange.normal) := by
  refine @Compared.induct _ _ _ _ (hqsort.compared ranges)
    (fun array ↦ (array.map HostRange.normal).Perm (ranges.map HostRange.normal))
    (fun array array' hperm harray ↦ ?_) (fun left right rest harray ↦ ?_) (List.Perm.refl _)
  · exact (hperm.symm.map _).trans harray
  · rw [List.map_cons, List.map_cons, (normal_hostrangeCmp left right).1,
      (normal_hostrangeCmp left right).2]
    exact harray

end Whatsup
