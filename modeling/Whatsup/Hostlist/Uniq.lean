import Mathlib.Data.List.Dedup
import Whatsup.Hostlist.Collected
import Whatsup.Hostlist.Join

/-!
# Removing duplicate hosts

`hostlist_uniq` sorts the ranges with `qsort` and joins each range with the next one for as long as
`hostrange_join` finds that they belong together.

Only neighbours are compared. `NameClash` is the condition on a list under which a name it denotes
twice stays: two ranges that share a name and are not joined, because their prefixes differ, or
because a zero-padded range of the prefix comes between them in the order. `uniqLoop_spec` is the
loop invariant: the names are kept, the count is their number, and they are distinct exactly when
there is no such clash. `hostlistUniq_iff` is the statement for lists of pushed host expressions. It
needs ranges that do not wrap around `ULONG_MAX` and that the comparison orders; then duplicates are
removed exactly when there is no clash and the names can be counted in an `int`.
-/

set_option autoImplicit false
set_option relaxedAutoImplicit false

namespace Whatsup

open CLib

/-! ### The function -/

/-- The loop of `hostlist_uniq` from the range before the current one on, with the count of hosts. A
range that is joined is deleted, and the next one becomes the current one. -/
def uniqLoop (ndebug : Bool) : HostRange → List HostRange → ℤ →
    Except SortFault (List HostRange × ℤ)
  | hprev, [], nhosts => .ok ([hprev], nhosts)
  | hprev, hnext :: rest, nhosts =>
    match hostrangeJoin ndebug hprev hnext with
    | .error failure => .error failure
    | .ok (ndup, hprev, hnext) =>
      if 0 ≤ ndup then uniqLoop ndebug hprev rest (toInt (nhosts - ndup))
      else (uniqLoop ndebug hnext rest nhosts).map fun result ↦ (hprev :: result.1, result.2)

/-- `hostlist_uniq`, for an implementation of `qsort`. -/
def hostlistUniq (ndebug : Bool) (qsort : List HostRange → List HostRange) (hl : Hostlist) :
    Except SortFault Hostlist :=
  if hl.ranges.length ≤ 1 then .ok hl
  else
    match qsort hl.ranges with
    | [] => .ok { hl with ranges := [] }
    | first :: rest =>
      (uniqLoop ndebug first rest hl.nhosts).map fun result ↦
        { ranges := result.1, nhosts := result.2 }

/-! ### Clashes of names -/

/-- Two ranges denote a common name. -/
def Shares (h1 h2 : HostRange) : Prop :=
  ∃ name ∈ h1.hosts, name ∈ h2.hosts

/-- A zero-padded range of a prefix that is written longer than the one bound and not longer than
the other. -/
def PaddedBetween (ranges : List HostRange) (pfx : List Char) (low high : ℕ) : Prop :=
  ∃ hr ∈ ranges, hr.singlehost = false ∧ hr.pfx = pfx ∧ hr.IsPadded ∧ low < hr.digits ∧
    hr.digits ≤ high

/-- Two ranges of a list are not joined: their prefixes differ, or only one has a suffix, or a
zero-padded range of the prefix comes between them. -/
def Parted (ranges : List HostRange) (h1 h2 : HostRange) : Prop :=
  h1.pfx ≠ h2.pfx ∨ h1.singlehost ≠ h2.singlehost ∨
    PaddedBetween ranges h1.pfx h1.digits h2.digits

/-- Two ranges of a list denote a common name and are not joined. -/
def NameClash (ranges : List HostRange) : Prop :=
  ∃ h1 ∈ ranges, ∃ h2 ∈ ranges, Shares h1 h2 ∧ Parted ranges h1 h2

instance (h1 h2 : HostRange) : Decidable (Shares h1 h2) :=
  decidable_of_iff (h1.hosts.any h2.hosts.contains = true) (by simp [Shares])

instance (ranges : List HostRange) (h1 h2 : HostRange) : Decidable (Parted ranges h1 h2) := by
  unfold Parted PaddedBetween
  infer_instance

instance (ranges : List HostRange) : Decidable (NameClash ranges) := by
  unfold NameClash
  infer_instance

/-- A name clash depends on the ranges as they are written. -/
theorem nameClash_normal (ranges : List HostRange) :
    NameClash (ranges.map HostRange.normal) ↔ NameClash ranges := by
  have hpadded : ∀ hr : HostRange, hr.normal.IsPadded ↔ hr.IsPadded := fun hr ↦ by
    rw [HostRange.isPadded_iff, HostRange.isPadded_iff, HostRange.digits_normal,
      HostRange.lo_normal]
  have hparted : ∀ h1 h2, Parted (ranges.map HostRange.normal) h1.normal h2.normal ↔
      Parted ranges h1 h2 := by
    intro h1 h2
    unfold Parted PaddedBetween
    simp [hpadded]
  unfold NameClash Shares
  simp only [List.mem_map, exists_exists_and_eq_and, HostRange.hosts_normal, hparted]

/-- Assumes: ranges that are written like others in another order. They have a name clash if the
others have one. -/
theorem nameClash_perm {ranges ranges' : List HostRange}
    (h : (ranges'.map HostRange.normal).Perm (ranges.map HostRange.normal)) :
    NameClash ranges' ↔ NameClash ranges := by
  rw [← nameClash_normal, ← nameClash_normal ranges]
  unfold NameClash Parted PaddedBetween
  simp only [h.mem_iff]

/-! ### The loop -/

/-- What the loop of `hostlist_uniq` needs of the ranges from the current one on. -/
structure Uniquable (ranges : List HostRange) : Prop where
  sound : ∀ hr ∈ ranges, hr.Sound
  sorted : ranges.Pairwise fun h1 h2 ↦ h1.key ≤ h2.key
  comparable : ∀ h1 ∈ ranges, ∀ h2 ∈ ranges, h1.Comparable h2
  small : (hostsOf ranges).dedup.length < 2147483648

/-- Assumes: names that are all in another list. They are not more than its names. -/
theorem length_dedup_le_of_subset {names names' : List (List Char)} (h : names ⊆ names') :
    names.dedup.length ≤ names'.dedup.length :=
  (List.subperm_of_subset (List.nodup_dedup names) fun _ hname ↦
    List.mem_dedup.mpr (h (List.mem_dedup.mp hname))).length_le

/-- A range denotes every name once. -/
theorem HostRange.nodup_hosts (hr : HostRange) : hr.hosts.Nodup := by
  unfold HostRange.hosts
  split_ifs
  · exact List.nodup_singleton _
  · exact List.Nodup.map (fun _ _ h ↦ padded_inj (List.append_cancel_left h)) (List.nodup_range' 1)

/-- Each of the ranges has less than `2 ^ 31` hosts. -/
theorem Uniquable.length_lt {ranges : List HostRange} (hu : Uniquable ranges) {hr : HostRange}
    (hmem : hr ∈ ranges) : hr.hosts.length < 2147483648 := by
  have hsubset : hr.hosts ⊆ hostsOf ranges :=
    fun name hname ↦ List.mem_flatMap.mpr ⟨hr, hmem, hname⟩
  have hle := length_dedup_le_of_subset hsubset
  rw [hr.nodup_hosts.dedup] at hle
  exact hle.trans_lt hu.small

/-- Assumes: uniquable ranges, and sound ranges with some of their keys in the same order and of
their names. The latter are uniquable. -/
theorem Uniquable.of_keys {ranges ranges' : List HostRange} (hu : Uniquable ranges)
    (hsound : ∀ hr ∈ ranges', hr.Sound)
    (hkeys : (ranges'.map HostRange.key).Sublist (ranges.map HostRange.key))
    (hsubset : hostsOf ranges' ⊆ hostsOf ranges) : Uniquable ranges' where
  sound := hsound
  sorted := List.pairwise_map.mp ((List.pairwise_map.mpr hu.sorted).sublist hkeys)
  comparable := by
    have hold : ∀ hr ∈ ranges', ∃ hr' ∈ ranges, hr'.key = hr.key := fun hr hmem ↦
      List.mem_map.mp (hkeys.subset (List.mem_map_of_mem hmem))
    intro h1 hmem1 h2 hmem2
    obtain ⟨h1', hmem1', hkey1⟩ := hold h1 hmem1
    obtain ⟨h2', hmem2', hkey2⟩ := hold h2 hmem2
    exact (HostRange.comparable_congr_key hkey1 hkey2).mp (hu.comparable h1' hmem1' h2' hmem2')
  small := (length_dedup_le_of_subset hsubset).trans_lt hu.small

/-- The ranges behind the first one are uniquable as well. -/
theorem Uniquable.tail {h : HostRange} {rest : List HostRange} (hu : Uniquable (h :: rest)) :
    Uniquable rest := by
  refine hu.of_keys (List.forall_mem_cons.mp hu.sound).2 (List.sublist_cons_self _ _) ?_
  rw [hostsOf_cons]
  exact List.subset_append_right _ _

/-- Assumes: ranges in order. None of the prefix of the first is written shorter than the first. -/
theorem Uniquable.digits_le {h hr : HostRange} {rest : List HostRange} (hu : Uniquable (h :: rest))
    (hmem : hr ∈ h :: rest) (hpfx : hr.pfx = h.pfx) : h.digits ≤ hr.digits := by
  rcases List.mem_cons.mp hmem with rfl | hmem
  · exact le_rfl
  have hle := (List.pairwise_cons.mp hu.sorted).1 hr hmem
  cases hsingle : h.singlehost with
  | true =>
    have hone := (hu.sound h List.mem_cons_self).digits_single hsingle
    have hpositive := numDigits_pos hr.lo
    have hdigits : numDigits hr.lo ≤ hr.digits := le_max_right _ _
    omega
  | false => exact (HostRange.between_of_key_le hle le_rfl hpfx.symm hsingle).2.2

/-- A range is not parted from itself. -/
theorem not_parted_self (ranges : List HostRange) (h : HostRange) : ¬Parted ranges h h := by
  rintro (hpfx | hkind | ⟨hr, -, -, -, -, hlow, hhigh⟩)
  · exact hpfx rfl
  · exact hkind rfl
  · omega

/-- Assumes: two ranges that share a name, of one prefix and with suffixes. The second starts before
the end of the first. -/
theorem Shares.lo_le {h1 h2 : HostRange} (h : Shares h1 h2) (hsingle1 : h1.singlehost = false)
    (hsingle2 : h2.singlehost = false) (hpfx : h1.pfx = h2.pfx) : h2.lo ≤ h1.hi := by
  obtain ⟨name, hmem1, hmem2⟩ := h
  obtain ⟨number1, -, hhigh1, hname1⟩ := (HostRange.mem_hosts_iff hsingle1).mp hmem1
  obtain ⟨number2, hlow2, -, hname2⟩ := (HostRange.mem_hosts_iff hsingle2).mp hmem2
  have hsuffix : padded h1.width number1 = padded h2.width number2 := by
    rw [hname1, hpfx] at hname2
    exact List.append_cancel_left hname2
  have hnumber : number1 = number2 := by
    rw [← ofDigitChars_padded h1.width number1, hsuffix, ofDigitChars_padded]
  omega

/-- Sharing a name is symmetric. -/
theorem shares_comm {h1 h2 : HostRange} : Shares h1 h2 ↔ Shares h2 h1 := by
  unfold Shares
  exact exists_congr fun name ↦ and_comm

/-! ### A round that does not join -/

/-- Assumes: ranges in order, the first of which is not joined with the second. A range that shares
a name with the first is parted from it. -/
theorem Uniquable.parted_of_shares {h next hr : HostRange} {rest : List HostRange}
    (hu : Uniquable (h :: next :: rest)) (hjoin : ¬Joinable h next) (hmem : hr ∈ next :: rest)
    (hshares : Shares h hr) : Parted (h :: next :: rest) h hr := by
  by_contra hparted
  obtain ⟨hpfx, hkind, hbetween⟩ : h.pfx = hr.pfx ∧ h.singlehost = hr.singlehost ∧
      ¬PaddedBetween (h :: next :: rest) h.pfx h.digits hr.digits := by
    simpa only [Parted, not_or, not_not, ne_eq] using hparted
  have horder : h.key ≤ next.key := (List.pairwise_cons.mp hu.sorted).1 next List.mem_cons_self
  have hlast : next.key ≤ hr.key := by
    rcases List.mem_cons.mp hmem with rfl | hmem
    · exact le_rfl
    · exact (List.pairwise_cons.mp (List.pairwise_cons.mp hu.sorted).2).1 hr hmem
  have hnextMem : next ∈ h :: next :: rest := by simp
  have hhrMem : hr ∈ h :: next :: rest := List.mem_cons_of_mem _ hmem
  cases hsingle : h.singlehost with
  | true =>
    -- the ranges between two equal single hosts are equal to them
    have hsingle2 := hkind ▸ hsingle
    have hsound := hu.sound h List.mem_cons_self
    have hsound2 := hu.sound hr hhrMem
    have hsame : h.key = hr.key := HostRange.key_eq_iff.mpr ⟨hpfx, hkind,
      by rw [hsound.digits_single hsingle, hsound2.digits_single hsingle2],
      by rw [(hsound.single hsingle).1, (hsound2.single hsingle2).1]⟩
    obtain ⟨hpfx', hkind', hdigits', -⟩ :=
      HostRange.key_eq_iff.mp (le_antisymm horder (hsame ▸ hlast))
    exact hjoin ⟨hpfx', hkind', (combine_iff hdigits'.le).mpr (Or.inl hdigits'), Or.inl hsingle⟩
  | false =>
    have hsingle2 : hr.singlehost = false := hkind ▸ hsingle
    have hend := hshares.lo_le hsingle hsingle2 hpfx
    obtain ⟨hnextPfx, hnextSingle, hdigits⟩ :=
      HostRange.between_of_key_le horder hlast hpfx hsingle
    have hdigits2 : next.digits ≤ hr.digits := hu.tail.digits_le hmem (hpfx ▸ hnextPfx).symm
    -- no zero-padded range comes between, so that all three widths can be combined
    have hcombine : (hostrangeWidthCombine h next).1 = true := by
      refine (combine_iff hdigits).mpr (or_iff_not_imp_left.mpr fun hne hpadded ↦ hbetween ?_)
      exact ⟨next, hnextMem, hnextSingle, hnextPfx, hpadded, by omega, hdigits2⟩
    have hcombine2 : (hostrangeWidthCombine next hr).1 = true := by
      refine (combine_iff hdigits2).mpr (or_iff_not_imp_left.mpr fun hne hpadded ↦ hbetween ?_)
      exact ⟨hr, hhrMem, hsingle2, hpfx.symm, hpadded, by omega, le_rfl⟩
    have hlo := (HostRange.key_le_iff_of_combine (hnextPfx.trans hpfx)
      (hnextSingle.trans hsingle2.symm) hcombine2).mp hlast
    exact hjoin ⟨hnextPfx.symm, hsingle.trans hnextSingle.symm, hcombine, Or.inr (by omega)⟩

/-- Assumes: ranges in order, the first of which is not joined with the second. There is a name
clash exactly when there is one behind the first range, or a name of the first is denoted again. -/
theorem Uniquable.nameClash_skip {h next : HostRange} {rest : List HostRange}
    (hu : Uniquable (h :: next :: rest)) (hjoin : ¬Joinable h next) :
    NameClash (h :: next :: rest) ↔
      NameClash (next :: rest) ∨ ∃ name ∈ h.hosts, name ∈ hostsOf (next :: rest) := by
  have hagain : ∀ hr ∈ next :: rest, Shares h hr →
      ∃ name ∈ h.hosts, name ∈ hostsOf (next :: rest) := by
    rintro hr hmem ⟨name, hname, hname2⟩
    exact ⟨name, hname, List.mem_flatMap.mpr ⟨hr, hmem, hname2⟩⟩
  constructor
  · rintro ⟨h1, hmem1, h2, hmem2, hshares, hparted⟩
    rcases List.mem_cons.mp hmem1 with rfl | hlater1
    · rcases List.mem_cons.mp hmem2 with rfl | hlater2
      · exact absurd hparted (not_parted_self _ _)
      · exact Or.inr (hagain h2 hlater2 hshares)
    · rcases List.mem_cons.mp hmem2 with rfl | hlater2
      · exact Or.inr (hagain h1 hlater1 (shares_comm.mp hshares))
      · refine Or.inl ⟨h1, hlater1, h2, hlater2, hshares, ?_⟩
        refine hparted.imp_right (Or.imp_right ?_)
        rintro ⟨hr, hmem, hsingle, hpfx, hpadded, hlow, hhigh⟩
        rcases List.mem_cons.mp hmem with rfl | hlater
        · have hle := hu.digits_le hmem1 hpfx.symm
          omega
        · exact ⟨hr, hlater, hsingle, hpfx, hpadded, hlow, hhigh⟩
  · rintro (⟨h1, hmem1, h2, hmem2, hshares, hparted⟩ | ⟨name, hname, hagain⟩)
    · refine ⟨h1, List.mem_cons_of_mem _ hmem1, h2, List.mem_cons_of_mem _ hmem2, hshares, ?_⟩
      refine hparted.imp_right (Or.imp_right ?_)
      rintro ⟨hr, hmem, hrest⟩
      exact ⟨hr, List.mem_cons_of_mem _ hmem, hrest⟩
    · obtain ⟨hr, hmem, hname2⟩ := List.mem_flatMap.mp hagain
      have hshares : Shares h hr := ⟨name, hname, hname2⟩
      exact ⟨h, List.mem_cons_self, hr, List.mem_cons_of_mem _ hmem, hshares,
        hu.parted_of_shares hjoin hmem hshares⟩

/-! ### A round that joins -/

/-- Assumes: ranges in order, the first two of which are joined. If the second is zero-padded, it is
written as long as the first. -/
theorem Uniquable.digits_eq_of_padded {h next : HostRange} {rest : List HostRange}
    (hu : Uniquable (h :: next :: rest)) (hjoin : Joinable h next) (hpadded : next.IsPadded) :
    h.digits = next.digits :=
  ((combine_iff (hu.digits_le (by simp) hjoin.1.symm)).mp hjoin.2.2.1).resolve_right
    (not_not.mpr hpadded)

/-- Assumes: ranges in order, the first two of which are joined. No zero-padded range of the prefix
comes between them. -/
theorem Uniquable.not_paddedBetween {h next : HostRange} {rest : List HostRange}
    (hu : Uniquable (h :: next :: rest)) (hjoin : Joinable h next) {hr : HostRange}
    (hmem : hr ∈ h :: next :: rest) (hsingle : hr.singlehost = false) (hpfx : hr.pfx = h.pfx)
    (hpadded : hr.IsPadded) : ¬(h.digits < hr.digits ∧ hr.digits ≤ next.digits) := by
  rintro ⟨hlow, hhigh⟩
  have hnextPadded : next.IsPadded := by
    rcases List.mem_cons.mp hmem with rfl | hmem
    · omega
    rcases List.mem_cons.mp hmem with rfl | hmem
    · exact hpadded
    · -- a zero-padded range behind the second has no smaller suffix
      have hle := (List.pairwise_cons.mp hu.tail.sorted).1 hr hmem
      have hnextSingle : next.singlehost = false := by
        by_contra hkind
        have hone := (hu.sound next (by simp)).digits_single (by simpa using hkind)
        have hpositive := numDigits_pos h.lo
        have hdigits : numDigits h.lo ≤ h.digits := le_max_right _ _
        omega
      rw [HostRange.key_le_iff_of_pfx (hjoin.1.symm.trans hpfx.symm)
        (hnextSingle.trans hsingle.symm)] at hle
      have hmono : next.lo ≤ hr.lo → numDigits next.lo ≤ numDigits hr.lo := numDigits_mono
      rw [HostRange.isPadded_iff] at hpadded ⊢
      omega
  have hsame := hu.digits_eq_of_padded hjoin hnextPadded
  omega

/-- Assumes: ranges in order, the first two of which are joined. The union has the zero-padded
ranges of the two. -/
theorem Uniquable.paddedBetween_join {h next g : HostRange} {rest : List HostRange} {ndup : ℕ}
    (hu : Uniquable (h :: next :: rest)) (hjoin : Joinable h next) (hjoined : Joined h next g ndup)
    (pfx : List Char) (low high : ℕ) :
    PaddedBetween (g :: rest) pfx low high ↔ PaddedBetween (h :: next :: rest) pfx low high := by
  obtain ⟨hpfx, hkind, hdigits, hlo⟩ := HostRange.key_eq_iff.mp hjoined.key_eq
  have hpadded : g.IsPadded ↔ h.IsPadded := by
    rw [HostRange.isPadded_iff, HostRange.isPadded_iff, hdigits, hlo]
  unfold PaddedBetween
  simp only [List.mem_cons, exists_eq_or_imp, hpfx, hkind, hdigits, hpadded]
  refine ⟨fun h ↦ h.imp_right Or.inr, ?_⟩
  rintro (hh | ⟨hsingle, hnextPfx, hnextPadded, hlow, hhigh⟩ | hrest)
  · exact Or.inl hh
  · have hsame := hu.digits_eq_of_padded hjoin hnextPadded
    have hle : h.key ≤ next.key := (List.pairwise_cons.mp hu.sorted).1 next List.mem_cons_self
    rw [HostRange.key_le_iff_of_pfx hjoin.1 hjoin.2.1] at hle
    have hmono : h.lo ≤ next.lo → numDigits h.lo ≤ numDigits next.lo := numDigits_mono
    rw [HostRange.isPadded_iff] at hnextPadded ⊢
    exact Or.inl ⟨hjoin.2.1.trans hsingle, hjoin.1.trans hnextPfx, by omega, by omega, by omega⟩
  · exact Or.inr hrest

/-- Assumes: ranges in order, the first two of which are joined. The same ranges are parted from
both. -/
theorem Uniquable.parted_join {h next : HostRange} {rest : List HostRange}
    (hu : Uniquable (h :: next :: rest)) (hjoin : Joinable h next) (hr : HostRange) :
    (Parted (h :: next :: rest) next hr ↔ Parted (h :: next :: rest) h hr) ∧
      (Parted (h :: next :: rest) hr next ↔ Parted (h :: next :: rest) hr h) := by
  have hle := hu.digits_le (List.mem_cons_of_mem _ List.mem_cons_self) hjoin.1.symm
  have hnone : ∀ other ∈ h :: next :: rest, other.singlehost = false → other.pfx = h.pfx →
      other.IsPadded → ¬(h.digits < other.digits ∧ other.digits ≤ next.digits) :=
    fun _ hmem hsingle hpfx hpadded ↦ hu.not_paddedBetween hjoin hmem hsingle hpfx hpadded
  unfold Parted
  rw [hjoin.1, hjoin.2.1]
  constructor
  · refine or_congr_right (or_congr_right ⟨?_, ?_⟩)
    · rintro ⟨other, hmem, hsingle, hpfx, hpadded, hlow, hhigh⟩
      exact ⟨other, hmem, hsingle, hpfx, hpadded, by omega, hhigh⟩
    · rintro ⟨other, hmem, hsingle, hpfx, hpadded, hlow, hhigh⟩
      have hbetween := hnone other hmem hsingle (hpfx.trans hjoin.1.symm) hpadded
      exact ⟨other, hmem, hsingle, hpfx, hpadded, by omega, hhigh⟩
  · by_cases hpfx : hr.pfx = next.pfx
    · refine or_congr_right (or_congr_right ⟨?_, ?_⟩)
      · rintro ⟨other, hmem, hsingle, hotherPfx, hpadded, hlow, hhigh⟩
        have hbetween := hnone other hmem hsingle
          (hotherPfx.trans (hpfx.trans hjoin.1.symm)) hpadded
        exact ⟨other, hmem, hsingle, hotherPfx, hpadded, hlow, by omega⟩
      · rintro ⟨other, hmem, hsingle, hotherPfx, hpadded, hlow, hhigh⟩
        exact ⟨other, hmem, hsingle, hotherPfx, hpadded, hlow, by omega⟩
    · exact ⟨fun _ ↦ Or.inl hpfx, fun _ ↦ Or.inl hpfx⟩

/-- Assumes: ranges in order, the first two of which are joined. There is a name clash with the
union exactly when there is one with the two. -/
theorem Uniquable.nameClash_join {h next g : HostRange} {rest : List HostRange} {ndup : ℕ}
    (hu : Uniquable (h :: next :: rest)) (hjoin : Joinable h next)
    (hjoined : Joined h next g ndup) :
    NameClash (g :: rest) ↔ NameClash (h :: next :: rest) := by
  obtain ⟨hpfx, hkind, hdigits, -⟩ := HostRange.key_eq_iff.mp hjoined.key_eq
  have hranges : ∀ h1 h2, Parted (g :: rest) h1 h2 ↔ Parted (h :: next :: rest) h1 h2 := by
    intro h1 h2
    unfold Parted
    rw [hu.paddedBetween_join hjoin hjoined]
  have hleft : ∀ hr, Parted (h :: next :: rest) g hr ↔ Parted (h :: next :: rest) h hr := by
    intro hr
    unfold Parted
    rw [hpfx, hkind, hdigits]
  have hright : ∀ hr, Parted (h :: next :: rest) hr g ↔ Parted (h :: next :: rest) hr h := by
    intro hr
    unfold Parted
    rw [hpfx, hkind, hdigits]
  have hshares : ∀ hr, Shares g hr ↔ Shares h hr ∨ Shares next hr := by
    intro hr
    unfold Shares
    simp only [hjoined.mem_hosts, or_and_right, exists_or]
  have hshares' : ∀ hr, Shares hr g ↔ Shares hr h ∨ Shares hr next := by
    intro hr
    rw [shares_comm, hshares, shares_comm, @shares_comm next]
  have hself := not_parted_self (h :: next :: rest) h
  unfold NameClash
  simp only [hranges, List.mem_cons, exists_eq_or_imp, hleft, hright, hshares, hshares',
    (hu.parted_join hjoin _).1, (hu.parted_join hjoin _).2, hself, and_false, false_or]
  simp only [or_and_right, and_or_left, exists_or, or_assoc]

/-! ### The whole loop -/

/-- Assumes: a first range that is joined with the second one. With their union instead of them the
ranges are uniquable. -/
theorem Uniquable.join {h next g : HostRange} {rest : List HostRange} {ndup : ℕ}
    (hu : Uniquable (h :: next :: rest)) (hjoined : Joined h next g ndup) :
      Uniquable (g :: rest) := by
  refine hu.of_keys (List.forall_mem_cons.mpr ⟨hjoined.sound,
    (List.forall_mem_cons.mp (List.forall_mem_cons.mp hu.sound).2).2⟩) ?_ ?_
  · rw [List.map_cons, hjoined.key_eq]
    exact (List.sublist_cons_self _ _).cons_cons _
  · intro name hname
    simpa only [hostsOf_cons, List.mem_append, hjoined.mem_hosts, or_assoc] using hname

/-- Assumes: two first ranges that are kept. The ranges from the second one on are uniquable. -/
theorem Uniquable.skip {h next g1 g2 : HostRange} {rest : List HostRange}
    (hu : Uniquable (h :: next :: rest)) (hkept : KeptSound h next g1 g2) :
    Uniquable (g2 :: rest) := by
  have hkey : g2.key = next.key := by
    rw [← HostRange.key_normal, hkept.normal2, HostRange.key_normal]
  have hhosts : g2.hosts = next.hosts := by
    rw [← HostRange.hosts_normal, hkept.normal2, HostRange.hosts_normal]
  refine hu.tail.of_keys (List.forall_mem_cons.mpr ⟨hkept.sound2, hu.tail.tail.sound⟩) ?_ ?_
  · rw [List.map_cons, hkey]
    exact List.Sublist.refl _
  · rw [hostsOf_cons, hostsOf_cons, hhosts]
    exact List.Subset.refl _

/-- Assumes: hosts of the ranges before the current one that have been counted. The loop of
`hostlist_uniq` keeps the names, counts them, and leaves each name once exactly when there is no
name clash. -/
theorem uniqLoop_spec (ndebug : Bool) (rest : List HostRange) :
    ∀ (h : HostRange) (passed : ℕ), Uniquable (h :: rest) →
      ∃ ranges, uniqLoop ndebug h rest (toInt ((passed + (hostsOf (h :: rest)).length : ℕ) : ℤ)) =
          .ok (ranges, toInt ((passed + (hostsOf ranges).length : ℕ) : ℤ)) ∧
        (∀ name, name ∈ hostsOf ranges ↔ name ∈ hostsOf (h :: rest)) ∧
        ((hostsOf ranges).Nodup ↔ ¬NameClash (h :: rest)) := by
  induction rest with
  | nil =>
    intro h passed hu
    refine ⟨[h], rfl, fun _ ↦ Iff.rfl, iff_of_true ?_ ?_⟩
    · rw [hostsOf_cons, hostsOf_nil, List.append_nil]
      exact h.nodup_hosts
    · rintro ⟨h1, hmem1, h2, hmem2, -, hparted⟩
      rw [List.mem_singleton.mp hmem1, List.mem_singleton.mp hmem2] at hparted
      exact not_parted_self _ _ hparted
  | cons next rest ih =>
    intro h passed hu
    have hsound := hu.sound h List.mem_cons_self
    have hsoundNext := hu.sound next (by simp)
    have horder := (List.pairwise_cons.mp hu.sorted).1 next List.mem_cons_self
    have hcomparable := hu.comparable h List.mem_cons_self next (by simp)
    by_cases hjoin : Joinable h next
    · obtain ⟨ndup, g, next', hresult, hjoined⟩ :=
        hostrangeJoin_of_joinable ndebug hsound hsoundNext
        horder hcomparable hjoin (hu.length_lt List.mem_cons_self) (hu.length_lt (by simp))
      have hlength := hjoined.length_eq
      obtain ⟨ranges, hrun, hmem, hnodup⟩ := ih g passed (hu.join hjoined)
      have hcount : toInt (toInt ((passed + (hostsOf (h :: next :: rest)).length : ℕ) : ℤ) - ndup) =
          toInt ((passed + (hostsOf (g :: rest)).length : ℕ) : ℤ) := by
        rw [sub_eq_add_neg, toInt_toInt_add]
        simp only [hostsOf_cons, List.length_append]
        congr 1
        omega
      refine ⟨ranges, ?_, fun name ↦ ?_, ?_⟩
      · rw [uniqLoop, hresult]
        simp only [Int.natCast_nonneg, if_true, hcount]
        exact hrun
      · rw [hmem]
        simp only [hostsOf_cons, List.mem_append, hjoined.mem_hosts, or_assoc]
      · rw [hnodup, hu.nameClash_join hjoin hjoined]
    · obtain ⟨g, next', hresult, hkept⟩ := hostrangeJoin_of_not_joinable ndebug hsound hsoundNext
        horder hcomparable hjoin
      have hhosts : g.hosts = h.hosts := by
        rw [← HostRange.hosts_normal, hkept.normal1, HostRange.hosts_normal]
      have hnormal : (next' :: rest).map HostRange.normal =
          (next :: rest).map HostRange.normal := by
        rw [List.map_cons, List.map_cons, hkept.normal2]
      have htail : hostsOf (next' :: rest) = hostsOf (next :: rest) := hostsOf_congr hnormal
      obtain ⟨ranges, hrun, hmem, hnodup⟩ := ih next' (passed + g.hosts.length) (hu.skip hkept)
      refine ⟨g :: ranges, ?_, fun name ↦ ?_, ?_⟩
      · have hcount : passed + (hostsOf (h :: next :: rest)).length =
            passed + g.hosts.length + (hostsOf (next' :: rest)).length := by
          rw [htail, hhosts, hostsOf_cons h, List.length_append, Nat.add_assoc]
        have hlength : passed + (hostsOf (g :: ranges)).length =
            passed + g.hosts.length + (hostsOf ranges).length := by
          rw [hostsOf_cons, List.length_append, Nat.add_assoc]
        rw [uniqLoop, hresult]
        simp only [Int.reduceNeg, Int.reduceLE, if_false]
        rw [hcount, hrun, hlength, Except.map]
      · rw [hostsOf_cons, hostsOf_cons, List.mem_append, List.mem_append, hmem, htail, hhosts]
      · rw [hostsOf_cons, List.nodup_append', hnodup, hu.nameClash_skip hjoin,
          nameClash_perm (List.Perm.of_eq hnormal), not_or]
        have hagain : List.Disjoint g.hosts (hostsOf ranges) ↔
            ¬∃ name ∈ h.hosts, name ∈ hostsOf (next :: rest) := by
          unfold List.Disjoint
          simp only [hhosts, hmem, htail, not_exists, not_and]
        rw [hagain]
        exact and_iff_right g.nodup_hosts

/-! ### `hostlist_uniq` -/

/-- A list that the comparison orders: no range wraps around `ULONG_MAX`, and a difference of two
lowest suffixes that are compared has the right sign as an `int`. -/
structure Hostlist.Orderly (hl : Hostlist) : Prop where
  bounds : ∀ hr ∈ hl.ranges, hr.lo ≤ hr.hi
  comparable : ∀ h1 ∈ hl.ranges, ∀ h2 ∈ hl.ranges, h1.Comparable h2

/-- An orderly list with less than `2 ^ 31` distinct names, so that an `int` can count them. -/
structure Hostlist.Exact (hl : Hostlist) : Prop extends hl.Orderly where
  small : hl.hosts.dedup.length < 2147483648

/-- What the removal of duplicates is to leave: every name of the list once, and the number of names
as the count. -/
structure UniqueAs (hl hl' : Hostlist) : Prop where
  nodup : hl'.hosts.Nodup
  mem_hosts : ∀ name, name ∈ hl'.hosts ↔ name ∈ hl.hosts
  nhosts_eq : hl'.nhosts = hl'.hosts.length

/-- Assumes: comparable ranges. The comparison agrees with the key on all sound ranges that are
written like one of them. -/
theorem respects_of_comparable {ranges : List HostRange}
    (hcomparable : ∀ h1 ∈ ranges, ∀ h2 ∈ ranges, h1.Comparable h2) :
    Respects hostrangeCmp HostRange.key fun hr ↦
      hr.Sound ∧ ∃ hr' ∈ ranges, hr'.normal = hr.normal where
  nonpos_iff left right hleft hright := by
    obtain ⟨-, left', hmem, hnormal⟩ := hleft
    obtain ⟨-, right', hmem', hnormal'⟩ := hright
    refine hostrangeCmp_nonpos_iff ((HostRange.comparable_congr_key ?_ ?_).mp
      (hcomparable left' hmem right' hmem'))
    · rw [← HostRange.key_normal, hnormal, HostRange.key_normal]
    · rw [← HostRange.key_normal, hnormal', HostRange.key_normal]
  key_left left right _ _ := by
    rw [← HostRange.key_normal, (normal_hostrangeCmp left right).1, HostRange.key_normal]
  key_right left right _ _ := by
    rw [← HostRange.key_normal, (normal_hostrangeCmp left right).2, HostRange.key_normal]
  kind_left left right hleft hright := by
    obtain ⟨hsound, left', hmem, hnormal⟩ := hleft
    have hkept := keptSound_hostrangeCmp hsound hright.1
    exact ⟨hkept.sound1, left', hmem, hnormal.trans hkept.normal1.symm⟩
  kind_right left right hleft hright := by
    obtain ⟨hsound, right', hmem, hnormal⟩ := hright
    have hkept := keptSound_hostrangeCmp hleft.1 hsound
    exact ⟨hkept.sound2, right', hmem, hnormal.trans hkept.normal2.symm⟩

/-- Assumes: an exact list of sound ranges. The array that `qsort` leaves is uniquable. -/
theorem uniquable_qsort {qsort : List HostRange → List HostRange}
    (hqsort : IsSort hostrangeCmp qsort) {hl : Hostlist} (hexact : hl.Exact)
    (hsound : ∀ hr ∈ hl.ranges, hr.Sound) : Uniquable (qsort hl.ranges) where
  sound := (hqsort.compared hl.ranges).forall_mem (fun left right hleft hright ↦
    ⟨(keptSound_hostrangeCmp hleft hright).sound1, (keptSound_hostrangeCmp hleft hright).sound2⟩)
    hsound
  sorted := hqsort.sorted _ _ (respects_of_comparable hexact.comparable) hl.ranges
    fun hr hmem ↦ ⟨hsound hr hmem, hr, hmem, rfl⟩
  comparable := by
    have hold : ∀ hr ∈ qsort hl.ranges, ∃ hr' ∈ hl.ranges, hr'.key = hr.key := by
      intro hr hmem
      obtain ⟨hr', hmem', hnormal⟩ := List.mem_map.mp ((perm_normal_qsort hqsort hl.ranges).subset
        (List.mem_map_of_mem hmem))
      exact ⟨hr', hmem', by rw [← HostRange.key_normal, hnormal, HostRange.key_normal]⟩
    intro h1 hmem1 h2 hmem2
    obtain ⟨h1', hmem1', hkey1⟩ := hold h1 hmem1
    obtain ⟨h2', hmem2', hkey2⟩ := hold h2 hmem2
    exact (HostRange.comparable_congr_key hkey1 hkey2).mp (hexact.comparable h1' hmem1' h2' hmem2')
  small := (length_dedup_le_of_subset
    (perm_hostsOf_of_normal (perm_normal_qsort hqsort hl.ranges)).subset).trans_lt hexact.small

/-- A list of at most one range has no name clash and denotes every name once. -/
theorem unique_of_length_le {ranges : List HostRange} (h : ranges.length ≤ 1) :
    (hostsOf ranges).Nodup ∧ ¬NameClash ranges := by
  match ranges, h with
  | [], _ => exact ⟨List.nodup_nil, by simp [NameClash]⟩
  | [hr], _ =>
    refine ⟨by simpa using hr.nodup_hosts, ?_⟩
    rintro ⟨h1, hmem1, h2, hmem2, -, hparted⟩
    rw [List.mem_singleton.mp hmem1, List.mem_singleton.mp hmem2] at hparted
    exact not_parted_self _ _ hparted

/-- Assumes: an exact list of sound ranges with its number of hosts as the count. The removal of
duplicates ends; what it leaves is as it is to be exactly when there is no name clash. -/
theorem hostlistUniq_spec {qsort : List HostRange → List HostRange}
    (hqsort : IsSort hostrangeCmp qsort) (ndebug : Bool) {hl : Hostlist} (hexact : hl.Exact)
    (hsound : ∀ hr ∈ hl.ranges, hr.Sound) (hcount : hl.nhosts = toInt hl.hosts.length) :
    ∃ hl', hostlistUniq ndebug qsort hl = .ok hl' ∧ (UniqueAs hl hl' ↔ ¬NameClash hl.ranges) := by
  have hexactCount : ∀ names : List (List Char), names.Nodup → names ⊆ hl.hosts →
      toInt names.length = names.length := by
    intro names hnodup hsubset
    have hle := length_dedup_le_of_subset hsubset
    have hsmall := hexact.small
    rw [hnodup.dedup] at hle
    exact toInt_eq_self (by omega) (by omega)
  unfold hostlistUniq
  by_cases hshort : hl.ranges.length ≤ 1
  · obtain ⟨hnodup, hclash⟩ := unique_of_length_le hshort
    refine ⟨hl, if_pos hshort, iff_of_true ⟨hnodup, fun _ ↦ Iff.rfl, ?_⟩ hclash⟩
    rw [hcount, hexactCount hl.hosts hnodup (List.Subset.refl _)]
  · have hnormal := perm_normal_qsort hqsort hl.ranges
    have hperm := perm_hostsOf_of_normal hnormal
    have huniquable := uniquable_qsort hqsort hexact hsound
    rw [if_neg hshort]
    cases hsorted : qsort hl.ranges with
    | nil =>
      rw [hsorted] at hnormal
      exact absurd hnormal.length_eq (by simp; omega)
    | cons first rest =>
      rw [hsorted] at hnormal hperm huniquable
      obtain ⟨ranges, hrun, hmem, hnodup⟩ := uniqLoop_spec ndebug rest first 0 huniquable
      have hnames : ∀ name, name ∈ hostsOf ranges ↔ name ∈ hl.hosts := fun name ↦
        (hmem name).trans hperm.mem_iff
      rw [Nat.zero_add, Nat.zero_add, hperm.length_eq] at hrun
      refine ⟨{ ranges := ranges, nhosts := toInt (hostsOf ranges).length }, ?_, ?_⟩
      · simp only
        rw [hcount]
        rw [Hostlist.hosts, hrun, Except.map]
      · rw [← nameClash_perm hnormal, ← hnodup]
        refine ⟨fun h ↦ h.nodup, fun h ↦ ?_⟩
        have hint := hexactCount (hostsOf ranges) h fun name hname ↦ (hnames name).mp hname
        exact ⟨h, hnames, by simpa only [Hostlist.hosts] using hint⟩

/-- Assumes: a count that is an `int`. The loop of `hostlist_uniq` leaves one. -/
theorem nhosts_uniqLoop_lt (ndebug : Bool) (rest : List HostRange) :
    ∀ (h : HostRange) (nhosts : ℤ), nhosts < 2147483648 →
      ∀ result, uniqLoop ndebug h rest nhosts = .ok result → result.2 < 2147483648 := by
  induction rest with
  | nil =>
    intro h nhosts hint result hrun
    obtain rfl := Except.ok.inj hrun
    exact hint
  | cons next rest ih =>
    intro h nhosts hint result hrun
    rw [uniqLoop] at hrun
    cases hjoin : hostrangeJoin ndebug h next with
    | error fault =>
      rw [hjoin] at hrun
      exact absurd hrun (by simp)
    | ok joined =>
      obtain ⟨ndup, g, next'⟩ := joined
      rw [hjoin] at hrun
      simp only at hrun
      split_ifs at hrun
      · exact ih g _ (toInt_lt _) result hrun
      · cases hlater : uniqLoop ndebug next' rest nhosts with
        | error fault =>
          rw [hlater] at hrun
          exact absurd hrun (by simp [Except.map])
        | ok later =>
          rw [hlater] at hrun
          obtain rfl := Except.ok.inj hrun
          exact ih next' nhosts hint later hlater

/-- Assumes: a count that is an `int`. The removal of duplicates leaves one. -/
theorem nhosts_hostlistUniq_lt {qsort : List HostRange → List HostRange} {ndebug : Bool}
    {hl hl' : Hostlist} (hint : hl.nhosts < 2147483648)
    (hrun : hostlistUniq ndebug qsort hl = .ok hl') :
    hl'.nhosts < 2147483648 := by
  unfold hostlistUniq at hrun
  split_ifs at hrun
  · obtain rfl := Except.ok.inj hrun
    exact hint
  · cases hsorted : qsort hl.ranges with
    | nil =>
      rw [hsorted] at hrun
      obtain rfl := Except.ok.inj hrun
      exact hint
    | cons first rest =>
      rw [hsorted] at hrun
      simp only at hrun
      cases hloop : uniqLoop ndebug first rest hl.nhosts with
      | error fault =>
        rw [hloop] at hrun
        exact absurd hrun (by simp [Except.map])
      | ok result =>
        rw [hloop] at hrun
        obtain rfl := Except.ok.inj hrun
        exact nhosts_uniqLoop_lt ndebug rest first _ hint result hloop

/-- Assumes: a count that is an `int`, and a removal of duplicates that leaves what it is to leave.
There are less than `2 ^ 31` distinct names. -/
theorem UniqueAs.small {qsort : List HostRange → List HostRange} {ndebug : Bool} {hl hl' : Hostlist}
    (h : UniqueAs hl hl') (hint : hl.nhosts < 2147483648)
    (hrun : hostlistUniq ndebug qsort hl = .ok hl') : hl.hosts.dedup.length < 2147483648 := by
  have hbound := nhosts_hostlistUniq_lt hint hrun
  rw [h.nhosts_eq] at hbound
  have hle := length_dedup_le_of_subset fun name hname ↦ (h.mem_hosts name).mpr hname
  rw [h.nodup.dedup] at hle
  omega

/-- Assumes: a tallied, orderly list. Its ranges are sound, and its count is the number of hosts as
an `int`. -/
theorem Hostlist.Tallied.sound {hl : Hostlist} (htallied : hl.Tallied) (horderly : hl.Orderly) :
    (∀ hr ∈ hl.ranges, hr.Sound) ∧ hl.nhosts = toInt hl.hosts.length := by
  have hsound : ∀ hr ∈ hl.ranges, hr.Sound := fun hr hmem ↦
    ⟨htallied.made hr hmem, horderly.bounds hr hmem⟩
  exact ⟨hsound, htallied.nhosts_eq.trans (toInt_sum_count hsound)⟩

/-- Assumes: a list of pushed host expressions. If it is exact and has no name clash, the removal of
duplicates leaves every name once with the right count; and if an orderly list is left so, it is
exact and there was no name clash. -/
theorem hostlistUniq_iff {qsort : List HostRange → List HostRange}
    (hqsort : IsSort hostrangeCmp qsort) (ndebug : Bool) {expressions : List (List Char)}
    {hl : Hostlist} (hpush : pushAll expressions hostlistNew = some hl) :
    (hl.Exact ∧ ¬NameClash hl.ranges →
      ∃ hl', hostlistUniq ndebug qsort hl = .ok hl' ∧ UniqueAs hl hl') ∧
    (hl.Orderly → (∃ hl', hostlistUniq ndebug qsort hl = .ok hl' ∧ UniqueAs hl hl') →
      hl.Exact ∧ ¬NameClash hl.ranges) := by
  have htallied := tallied_pushAll expressions _ _ tallied_hostlistNew hpush
  constructor
  · rintro ⟨hexact, hclash⟩
    obtain ⟨hsound, hcount⟩ := htallied.sound hexact.toOrderly
    obtain ⟨hl', hrun, hiff⟩ := hostlistUniq_spec hqsort ndebug hexact hsound hcount
    exact ⟨hl', hrun, hiff.mpr hclash⟩
  · rintro horderly ⟨hl', hrun, hunique⟩
    obtain ⟨hsound, hcount⟩ := htallied.sound horderly
    have hexact : hl.Exact := ⟨horderly, hunique.small (hcount ▸ toInt_lt _) hrun⟩
    obtain ⟨hl'', hrun', hiff⟩ := hostlistUniq_spec hqsort ndebug hexact hsound hcount
    obtain rfl := Except.ok.inj (hrun.symm.trans hrun')
    exact ⟨hexact, hiff.mp hunique⟩

/-- A list of overlapping ranges of one prefix, and a host without a suffix. -/
def overlappingList : Hostlist :=
  { ranges := [hostrangeCreate "n".toList 1 12 1, hostrangeCreate "n".toList 7 7 1,
      hostrangeCreate "n".toList 10 14 2, hostrangeCreateSingle "login".toList]
    nhosts := 19 }

/-- The removal of duplicates from overlapping ranges of one prefix. -/
theorem hostlistUniq_iff_overlapping :
    pushAll ["n[1-12]".toList, "n7".toList, "n[10-14]".toList, "login".toList] hostlistNew =
      some overlappingList ∧ (overlappingList.Exact ∧ ¬NameClash overlappingList.ranges) ∧
      ∃ hl', hostlistUniq false (insertionSort hostrangeCmp) overlappingList = .ok hl' ∧
        UniqueAs overlappingList hl' := by
  have hpush : pushAll ["n[1-12]".toList, "n7".toList, "n[10-14]".toList, "login".toList]
      hostlistNew = some overlappingList := by decide +kernel
  have hfine : overlappingList.Exact ∧ ¬NameClash overlappingList.ranges :=
    ⟨⟨⟨by decide +kernel, by decide +kernel⟩, by decide +kernel⟩, by decide +kernel⟩
  exact ⟨hpush, hfine, (hostlistUniq_iff isSort_insertionSort false hpush).1 hfine⟩

/-- A host that is pushed in brackets and alone, with its name split in two ways, stays twice. A
range whose lowest suffix is more than `2 ^ 31` away from that of another is sorted in front of it,
and its hosts are lost. -/
theorem hostlistUniq_keeps_duplicate :
    (∃ hl, pushAll ["node1[0-2]".toList, "node10".toList] hostlistNew = some hl ∧
      ∃ hl', hostlistUniq false (insertionSort hostrangeCmp) hl = .ok hl' ∧ ¬hl'.hosts.Nodup) ∧
    ∃ hl, pushAll ["n[1-2]".toList, "n[2147483653]".toList] hostlistNew = some hl ∧
      "n1".toList ∈ hl.hosts ∧
      ∃ hl', hostlistUniq false (insertionSort hostrangeCmp) hl = .ok hl' ∧
        "n1".toList ∉ hl'.hosts := by
  have hsplit : pushAll ["node1[0-2]".toList, "node10".toList] hostlistNew =
      some ⟨[⟨"node1".toList, 0, 2, 1, false⟩, ⟨"node".toList, 10, 10, 2, false⟩], 4⟩ := by
    decide +kernel
  have hfar : pushAll ["n[1-2]".toList, "n[2147483653]".toList] hostlistNew =
      some ⟨[⟨"n".toList, 1, 2, 1, false⟩, ⟨"n".toList, 2147483653, 2147483653, 10, false⟩], 3⟩ :=
          by
    decide +kernel
  refine ⟨⟨_, hsplit, ⟨[⟨"node".toList, 10, 10, 2, false⟩, ⟨"node1".toList, 0, 2, 1, false⟩], 4⟩,
    ?_, ?_⟩, ⟨_, hfar, ?_, ⟨[⟨"n".toList, 2147483653, 2147483653, 1, false⟩], 1⟩, ?_, ?_⟩⟩ <;>
    decide +kernel

end Whatsup
