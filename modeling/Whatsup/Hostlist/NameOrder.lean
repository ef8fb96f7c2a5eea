import Whatsup.Hostlist.Filled

/-!
# The order of the names of a sorted list

A name is ordered by the range that `hostlist_push_host` makes of it (`hostRange`): by prefix, names
without a suffix first, by the length of the suffix and by its number (`nameKey`). `nameKey_inj`
says that this is an order of names.

An array of ranges in order need not denote its names in order. A range is sorted by its lowest
suffix, and the numbers of one that starts below ten, or below a hundred, may go on behind it with
more digits, past zero-padded names of that length. `CarryClash` is the condition on the names under
which that can happen, and `sorted_hostsOf` says that without it the names of a settled array are in
order.
-/

set_option autoImplicit false
set_option relaxedAutoImplicit false

namespace Whatsup

open CLib

/-! ### Names as ranges -/

/-- The range of a name with a suffix. -/
theorem hostRange_numeral {pfx : List Char} (hpfx : NoTrailingDigit pfx) {number : ℕ} (width : ℕ)
    (hnumber : number ≤ maxHostSuffix) :
    hostRange (pfx ++ padded width number) =
      hostrangeCreate pfx number number (max width (numDigits number)) := by
  unfold hostRange
  rw [hostnameCreate_numeral hpfx width hnumber]
  simp only [length_padded]

/-- The range of a name without a suffix. -/
theorem hostRange_single {name : List Char} (h : (hostnameCreate name).suffix = none) :
    hostRange name = hostrangeCreateSingle name := by
  unfold hostRange
  rw [h]

/-- The two kinds of names. -/
theorem hostRange_cases (name : List Char) :
    ((hostnameCreate name).suffix = none ∧ hostRange name = hostrangeCreateSingle name) ∨
      ∃ pfx width number, NoTrailingDigit pfx ∧ number ≤ maxHostSuffix ∧
        name = pfx ++ padded width number ∧
        hostRange name = hostrangeCreate pfx number number (max width (numDigits number)) := by
  rcases hostnameCreate_cases name with ⟨-, hsuffix, -⟩ | ⟨pfx, suffix, hname, hpfx, hne,
    hdigits, hmax, -⟩
  · exact Or.inl ⟨hsuffix, hostRange_single hsuffix⟩
  · have hpadded : name = pfx ++ padded suffix.length (Nat.ofDigitChars 10 suffix 0) := by
      rw [padded_ofDigitChars hdigits hne, hname]
    exact Or.inr ⟨pfx, suffix.length, _, hpfx, hmax, hpadded, by
      rw [hpadded]; exact hostRange_numeral hpfx _ hmax⟩

/-- The range of a name denotes that name, is canonical and has one number. -/
theorem hostRange_spec (name : List Char) :
    (hostRange name).hosts = [name] ∧ (hostRange name).Canonical ∧ (hostRange name).hi =
      (hostRange name).lo := by
  rcases hostRange_cases name with ⟨-, hrange⟩ | ⟨pfx, width, number, hpfx, hmax, hname, hrange⟩
  · rw [hrange]
    exact ⟨rfl, canonical_hostrangeCreateSingle name, rfl⟩
  · rw [hrange]
    refine ⟨?_, canonical_hostrangeCreate _ le_rfl hmax hpfx, rfl⟩
    have hsame : padded (max width (numDigits number)) number = padded width number :=
      padded_eq_padded_iff.mpr (by omega)
    simp only [HostRange.hosts, hostrangeCreate, Bool.false_eq_true, if_false,
      Nat.add_sub_cancel_left, List.range'_one,
      List.map_singleton, hsame, hname]

/-- What names are ordered by. -/
def nameKey (name : List Char) : List Char ×ₗ Bool ×ₗ ℕ ×ₗ ℕ :=
  (hostRange name).key

/-- Names that are ordered alike are one name. -/
theorem nameKey_inj {name name' : List Char} (h : nameKey name = nameKey name') : name = name' := by
  obtain ⟨hpfx, hsingle, hdigits, hlo⟩ := HostRange.key_eq_iff.mp h
  have hnormal : (hostRange name).normal = (hostRange name').normal := by
    unfold HostRange.normal
    rw [HostRange.mk.injEq]
    exact ⟨hpfx, hlo, by rw [(hostRange_spec name).2.2, hlo, (hostRange_spec name').2.2],
      hdigits, hsingle⟩
  have hhosts : (hostRange name).hosts = (hostRange name').hosts := by
    rw [← HostRange.hosts_normal, hnormal, HostRange.hosts_normal]
  rw [(hostRange_spec name).1, (hostRange_spec name').1] at hhosts
  exact (List.cons.inj hhosts).1

/-! ### Natural ranges -/

/-- A range is a single host only if the name has no suffix. -/
def HostRange.Natural (hr : HostRange) : Prop :=
  hr.singlehost = true → (hostnameCreate hr.pfx).suffix = none

/-- The range of a name is natural. -/
theorem natural_hostRange (name : List Char) : (hostRange name).Natural := by
  rcases hostRange_cases name with ⟨hsuffix, hrange⟩ | ⟨pfx, width, number, -, -, -, hrange⟩
  · rw [hrange]
    exact fun _ ↦ hsuffix
  · rw [hrange]
    exact fun h ↦ absurd h Bool.false_ne_true

/-- Assumes: a canonical and natural range, and one of its hosts. The range of that name is the
range itself if it is a single host, and else that of one of its numbers. -/
theorem hostRange_of_mem {hr : HostRange} (hcanonical : hr.Canonical) (hnatural : hr.Natural)
    {name : List Char}
    (h : name ∈ hr.hosts) :
    (hr.singlehost = true ∧ hostRange name = hostrangeCreateSingle hr.pfx) ∨
      hr.singlehost = false ∧ ∃ number, hr.lo ≤ number ∧ number ≤ hr.hi ∧
      name = hr.pfx ++ padded hr.width number ∧
        hostRange name = hostrangeCreate hr.pfx number number
          (max hr.width (numDigits number)) := by
  rcases Bool.eq_false_or_eq_true hr.singlehost with hsingle | hsingle
  · rw [HostRange.hosts, if_pos hsingle] at h
    obtain rfl := List.mem_singleton.mp h
    exact Or.inl ⟨hsingle, hostRange_single (hnatural hsingle)⟩
  · obtain ⟨number, hlo, hhi, rfl⟩ := (HostRange.mem_hosts_iff hsingle).mp h
    exact Or.inr ⟨hsingle, number, hlo, hhi, rfl,
      hostRange_numeral (hcanonical.pfx_end hsingle) _ (hhi.trans hcanonical.hi_le)⟩

/-! ### Names that go on with more digits -/

/-- Assumes: valid ranges. The second continues the first if it starts with the next number, written
as the first range would write it. -/
theorem HostRange.joins_iff {h1 h2 : HostRange} (hvalid1 : h1.Valid) (hvalid2 : h2.Valid) :
    h1.Joins h2 ↔ h1.singlehost = false ∧ h2.singlehost = false ∧ h1.pfx = h2.pfx ∧
    h2.lo = h1.hi + 1 ∧
      h2.digits = max h1.digits (numDigits h2.lo) := by
  have hlohi := hvalid1.lo_le_hi
  have hcombine : h2.lo = h1.hi + 1 →
      ((hostrangeWidthCombine h1 h2).1 = true ↔ h2.digits = max h1.digits (numDigits h2.lo)) := by
    intro hnext
    have hmono : numDigits h1.lo ≤ numDigits h2.lo := numDigits_mono (by omega)
    have hequiv : (hostrangeWidthCombine h1 h2).1 = (widthEquiv h1.lo h1.width h2.lo h2.width).1 :=
      rfl
    rw [hequiv, widthEquiv_eq_true_iff, padded_eq_padded_iff, padded_eq_padded_iff]
    unfold HostRange.digits
    omega
  unfold HostRange.Joins
  rw [hostrangePrefixCmp_eq_zero_iff, eq_ulongSub_one_iff fun h ↦ absurd h hvalid1.hi_lt.ne]
  constructor
  · rintro ⟨⟨hpfx, hsame⟩, hnext, hwidths⟩
    have hsingle : h2.singlehost = false := by
      by_contra h
      have hzero := (hvalid2.single (by simpa using h)).1
      omega
    exact ⟨hsame.trans hsingle, hsingle, hpfx, hnext, (hcombine hnext).mp hwidths⟩
  · rintro ⟨hsingle1, hsingle2, hpfx, hnext, hwidths⟩
    exact ⟨⟨hpfx, hsingle1.trans hsingle2.symm⟩, hnext, (hcombine hnext).mpr hwidths⟩

/-- Two of the names are numbers that follow each other, the second one with one digit more, as 9
and 10 or 99 and 100, and a third one is a zero-padded number of as many digits behind the same
prefix, as 09 or 099. -/
def CarryClash (names : List (List Char)) : Prop :=
  ∃ low ∈ names, ∃ high ∈ names, ∃ other ∈ names,
    (hostRange low).Joins (hostRange high) ∧ (hostRange low).digits < (hostRange high).digits ∧
      (hostRange other).pfx = (hostRange high).pfx ∧ (hostRange other).digits =
        (hostRange high).digits ∧
      (hostRange other).IsPadded

instance (names : List (List Char)) : Decidable (CarryClash names) := by
  unfold CarryClash
  infer_instance

/-- Assumes: two canonical ranges of one prefix in order that do not overlap, of names without a
carry clash. The first ends before the second starts, or is written shorter to its end. -/
theorem ends_before {names : List (List Char)} (hclash : ¬CarryClash names) {h1 h2 : HostRange}
    (hcanonical1 : h1.Canonical)
    (hcanonical2 : h2.Canonical) (hmem1 : ∀ name ∈ h1.hosts, name ∈ names)
    (hmem2 : ∀ name ∈ h2.hosts, name ∈ names)
    (hsingle1 : h1.singlehost = false) (hsingle2 : h2.singlehost = false) (hpfx : h1.pfx = h2.pfx)
    (horder : h1.digits < h2.digits ∨ h1.digits = h2.digits ∧ h1.lo ≤ h2.lo)
    (hoverlap : ¬h1.Overlaps h2) :
    h1.hi ≤ h2.lo ∨ h1.digits < h2.digits ∧ numDigits h1.hi < h2.digits := by
  by_contra hnot
  obtain ⟨hlt, hreach⟩ : h2.lo < h1.hi ∧ (h1.digits < h2.digits → h2.digits ≤ numDigits h1.hi) := by
    simpa only [not_or, not_le, not_and, not_lt] using hnot
  have hle : h1.digits ≤ h2.digits := by omega
  obtain ⟨hdiffer, hpadded⟩ : h1.digits ≠ h2.digits ∧ h2.IsPadded := by
    have hcombine : ¬(hostrangeWidthCombine h1 h2).1 = true :=
      fun h ↦ hoverlap ⟨hsingle1, hsingle2, hpfx, hlt, h⟩
    simpa only [combine_iff hle, not_or, not_not] using hcombine
  -- The first range goes on past the least number of as many digits as the second is written with.
  have hpositive : 0 < h1.digits := lt_of_lt_of_le (numDigits_pos h1.lo) (le_max_right _ _)
  have hlow : h1.lo < 10 ^ (h2.digits - 1) :=
    (numDigits_le_iff (by omega)).mp (le_trans (le_max_right h1.width (numDigits h1.lo))
      (show h1.digits ≤ _ by omega))
  have hhigh : 10 ^ (h2.digits - 1) ≤ h1.hi :=
    (lt_numDigits_iff (by omega)).mp (lt_of_lt_of_le (show h2.digits - 1 < h2.digits by omega)
      (hreach (by omega)))
  generalize hcarry : 10 ^ (h2.digits - 1) = carry at hlow hhigh
  have hbelow : numDigits (carry - 1) ≤ h2.digits - 1 :=
    (numDigits_le_iff (by omega)).mpr (by omega)
  have habove : numDigits carry = h2.digits := by
    have hfills : h2.digits - 1 < numDigits carry := (lt_numDigits_iff (by omega)).mpr hcarry.le
    have hfits : numDigits carry ≤ h2.digits :=
      (numDigits_le_iff (by omega)).mpr (hcarry ▸ Nat.pow_lt_pow_right (by decide) (by omega))
    omega
  have hmax := hcanonical1.hi_le
  have hmax2 := hcanonical2.hi_le
  have hlohi := hcanonical2.lo_le_hi
  have hwidth : h1.width ≤ h1.digits := le_max_left _ _
  have hrange : ∀ number ≤ h1.hi, hostRange (h1.pfx ++ padded h1.width number) =
      hostrangeCreate h1.pfx number number (max h1.width (numDigits number)) := fun number hnumber ↦
    hostRange_numeral (hcanonical1.pfx_end hsingle1) _ (hnumber.trans hmax)
  refine hclash ⟨h1.pfx ++ padded h1.width (carry - 1),
    hmem1 _ ((HostRange.mem_hosts_iff hsingle1).mpr ⟨_, by omega, by omega, rfl⟩),
    h1.pfx ++ padded h1.width carry,
      hmem1 _ ((HostRange.mem_hosts_iff hsingle1).mpr ⟨_, by omega, hhigh, rfl⟩),
    h2.pfx ++ padded h2.width h2.lo,
      hmem2 _ ((HostRange.mem_hosts_iff hsingle2).mpr ⟨_, le_rfl, hlohi, rfl⟩), ?_⟩
  rw [hrange _ hhigh, hrange _ (show carry - 1 ≤ h1.hi by omega),
    hostRange_numeral (hcanonical2.pfx_end hsingle2) _ (hlohi.trans hmax2)]
  unfold HostRange.IsPadded at hpadded ⊢
  unfold HostRange.digits at *
  refine ⟨?_, ?_, hpfx.symm, ?_, ?_⟩
  · refine (HostRange.joins_iff ?_ ?_).mpr ⟨rfl, rfl, rfl, ?_, ?_⟩
    · exact (canonical_hostrangeCreate _ le_rfl (by omega) (hcanonical1.pfx_end hsingle1)).toValid
    · exact (canonical_hostrangeCreate _ le_rfl (by omega) (hcanonical1.pfx_end hsingle1)).toValid
    · simp only [hostrangeCreate]
      omega
    · simp only [hostrangeCreate, HostRange.digits]
      omega
  · simp only [hostrangeCreate]
    omega
  · simp only [hostrangeCreate]
    omega
  · simp only [hostrangeCreate]
    omega

/-! ### The names of a settled array -/

/-- The order of names that are numbers behind one prefix: by their length, then by their number. -/
theorem nameKey_le_numeral {pfx : List Char} (hpfx : NoTrailingDigit pfx)
    {width width' number number' : ℕ}
    (hnumber : number ≤ maxHostSuffix) (hnumber' : number' ≤ maxHostSuffix) :
    nameKey (pfx ++ padded width number) ≤ nameKey (pfx ++ padded width' number') ↔
      max width (numDigits number) < max width' (numDigits number') ∨
        max width (numDigits number) = max width' (numDigits number') ∧ number ≤ number' := by
  unfold nameKey
  rw [hostRange_numeral hpfx _ hnumber, hostRange_numeral hpfx _ hnumber']
  rw [@HostRange.key_le_iff_of_pfx (hostrangeCreate pfx number number _)
    (hostrangeCreate pfx number' number' _) rfl rfl]
  simp only [HostRange.digits, hostrangeCreate]
  omega

/-- Assumes: two neighbours of a settled array of names without a carry clash. The names of the
first are not behind those of the second. -/
theorem nameKey_le_of_neighbours {names : List (List Char)} (hclash : ¬CarryClash names)
    {h1 h2 : HostRange}
    (hcanonical1 : h1.Canonical) (hcanonical2 : h2.Canonical) (hnatural1 : h1.Natural)
    (hnatural2 : h2.Natural)
    (hmem1 : ∀ name ∈ h1.hosts, name ∈ names) (hmem2 : ∀ name ∈ h2.hosts, name ∈ names)
    (horder : h1.key ≤ h2.key)
    (hoverlap : ¬h1.Overlaps h2) : ∀ name ∈ h1.hosts, ∀ name' ∈ h2.hosts, nameKey name ≤
      nameKey name' := by
  intro name hname name' hname'
  rw [HostRange.key_le_iff] at horder
  rcases hostRange_of_mem hcanonical1 hnatural1 hname with ⟨hsingle1, hrange1⟩ | ⟨hsingle1, number,
    hlo1, hhi1, rfl, hrange1⟩ <;>
    rcases hostRange_of_mem hcanonical2 hnatural2 hname' with ⟨hsingle2, hrange2⟩ |
      ⟨hsingle2, number', hlo2, hhi2, rfl, hrange2⟩
  · rw [nameKey, nameKey, hrange1, hrange2, HostRange.key_le_iff]
    exact horder.imp_right fun h ↦ ⟨h.1, Or.inr ⟨rfl, Or.inr ⟨rfl, le_rfl⟩⟩⟩
  · rw [nameKey, nameKey, hrange1, hrange2, HostRange.key_le_iff]
    exact horder.imp_right fun h ↦ ⟨h.1, Or.inl ⟨rfl, rfl⟩⟩
  · rw [nameKey, nameKey, hrange1, hrange2, HostRange.key_le_iff]
    rw [hsingle1, hsingle2] at horder
    exact Or.inl (horder.resolve_right fun h ↦ by simp at h)
  · rcases horder with hlt | ⟨hpfx, hsingles⟩
    · rw [nameKey, nameKey, hrange1, hrange2, HostRange.key_le_iff]
      exact Or.inl hlt
    · have hlengths : h1.digits < h2.digits ∨ h1.digits = h2.digits ∧ h1.lo ≤ h2.lo := by
        rw [hsingle1, hsingle2] at hsingles
        simpa using hsingles
      have hmax1 := hcanonical1.hi_le
      have hmax2 := hcanonical2.hi_le
      have hends := ends_before hclash hcanonical1 hcanonical2 hmem1 hmem2 hsingle1 hsingle2 hpfx
        hlengths hoverlap
      rw [hpfx, nameKey_le_numeral (hcanonical2.pfx_end hsingle2) (by omega) (by omega)]
      have hmono1 : numDigits number ≤ numDigits h1.hi := numDigits_mono hhi1
      have hmono2 : numDigits h2.lo ≤ numDigits number' := numDigits_mono hlo2
      have hmono : h1.hi ≤ h2.lo → numDigits h1.hi ≤ numDigits h2.lo := numDigits_mono
      unfold HostRange.digits at hends hlengths
      omega

/-- The names of a range are in order. -/
theorem sorted_hosts {hr : HostRange} (hcanonical : hr.Canonical) :
    hr.hosts.Pairwise fun name name' ↦ nameKey name ≤ nameKey name' := by
  unfold HostRange.hosts
  split_ifs with hsingle
  · exact List.pairwise_singleton _ _
  · have hmax := hcanonical.hi_le
    refine List.pairwise_map.mpr
      ((List.pairwise_lt_range' 1).imp_of_mem fun {number number'} hmem hmem' hlt ↦ ?_)
    have hnumber := List.mem_range'_1.mp hmem
    have hnumber' := List.mem_range'_1.mp hmem'
    rw [nameKey_le_numeral (hcanonical.pfx_end (by simpa using hsingle)) (by omega) (by omega)]
    have hmono : numDigits number ≤ numDigits number' := numDigits_mono hlt.le
    omega

/-- Assumes: a settled array of canonical and natural ranges, of names without a carry clash. The
names are in order. -/
theorem sorted_hostsOf {names : List (List Char)} (hclash : ¬CarryClash names)
    (ranges : List HostRange) :
    Settled ranges → (∀ hr ∈ ranges, hr.Canonical ∧ hr.Natural) →
    (∀ name ∈ hostsOf ranges, name ∈ names) →
      (hostsOf ranges).Pairwise fun name name' ↦ nameKey name ≤ nameKey name' := by
  induction ranges with
  | nil => exact fun _ _ _ ↦ List.Pairwise.nil
  | cons hr rest ih =>
    intro hsettled hranges hnames
    obtain ⟨hhr, hrest⟩ := List.forall_mem_cons.mp hranges
    have hsorted := ih hsettled.tail hrest fun name hname ↦
      hnames name (List.mem_append_right _ hname)
    refine List.pairwise_append.mpr ⟨sorted_hosts hhr.1, hsorted, fun name hname name' hname' ↦ ?_⟩
    cases rest with
    | nil => exact absurd hname' List.not_mem_nil
    | cons next rest =>
      obtain ⟨⟨horder, hoverlap⟩, -⟩ := List.isChain_cons_cons.mp hsettled
      obtain ⟨hnext, -⟩ := List.forall_mem_cons.mp hrest
      have hneighbours := nameKey_le_of_neighbours hclash hhr.1 hnext.1 hhr.2 hnext.2
        (fun other h ↦ hnames other (List.mem_append_left _ h))
        (fun other h ↦ hnames other (List.mem_append_right _ (List.mem_append_left _ h))) horder
          hoverlap name hname
      rcases List.mem_append.mp hname' with hfirst | hlater
      · exact hneighbours name' hfirst
      · obtain ⟨between, hbetween, -⟩ := HostRange.exists_host hnext.1.lo_le_hi
        exact (hneighbours between hbetween).trans ((List.pairwise_append.mp hsorted).2.2 between
          hbetween name' hlater)

end Whatsup
