import Whatsup.Hostlist.Notation
import Whatsup.Hostlist.Runs
import Whatsup.Hostlist.Written

/-!
# The text of a sorted list and the order of the pushes

The text of a list after `hostlist_sort`, for the orders in which the same names can be pushed.
Names without a carry clash have one text for all orders (`sortedText_eq`). Distinct names with a
carry clash have two: pushed one behind the other, 9 and 10 are in one range and stay neighbours,
and pushed from the last to the first they are sorted, with 09 between them
(`exists_texts_of_carryClash`). `sortedText_iff` puts both together.
-/

set_option autoImplicit false
set_option relaxedAutoImplicit false

namespace Whatsup

open CLib

/-! ### Sorts of distinct names -/

/-- Pushing names one after the other, and a sort that succeeds, leave this list. -/
def SortedFrom (order : List (List Char)) (sorted : Hostlist) : Prop :=
  ∃ (ndebug : Bool) (qsort : List HostRange → List HostRange) (rounds : ℕ) (pushed : Hostlist),
    IsSort hostrangeCmp qsort ∧ pushAll order hostlistNew = some pushed ∧
      hostlistSort ndebug qsort rounds pushed = some (.ok sorted)

/-- Assumes: plain names. What a sort of them leaves is a filled list that denotes them. -/
theorem SortedFrom.spec {order : List (List Char)} {sorted : Hostlist}
    (hplain : ∀ name ∈ order, PlainName name)
    (h : SortedFrom order sorted) : sorted.Filled ∧ sorted.hosts.Perm order := by
  obtain ⟨ndebug, qsort, rounds, pushed, hqsort, hpush, hsort⟩ := h
  have hfilled := filled_pushAll order hostlistNew pushed .new hplain hpush
  obtain ⟨other, hother, hhosts, -⟩ := pushAll_spec order hostlistNew hostlistNew_canonical hplain
  obtain rfl := Option.some.inj (hother.symm.trans hpush)
  refine ⟨hfilled.sort hqsort hsort, ?_⟩
  have hperm := (hostlistSort_ok hqsort hfilled.canonical hsort).2
  rwa [hhosts, hosts_hostlistNew, List.nil_append] at hperm

/-- Assumes: canonical ranges in order that overlap. They share a name. -/
theorem not_disjoint_of_overlaps {h1 h2 : HostRange} (hcanonical2 : h2.Canonical)
    (horder : h1.key ≤ h2.key)
    (h : h1.Overlaps h2) : ¬List.Disjoint h1.hosts h2.hosts := by
  have hlo := h.key_le_iff.mp horder
  obtain ⟨hsingle1, hsingle2, hpfx, hlt, hcombine⟩ := h
  have hequiv : (widthEquiv h1.lo h1.width h2.lo h2.width).1 = true := hcombine
  have hsame : padded h1.width h2.lo = padded h2.width h2.lo :=
    (widthEquiv_eq_true_iff.mp hequiv).elim (fun hlow ↦ padded_eq_of_padded_eq hlow hlo) id
  intro hdisjoint
  refine hdisjoint ((HostRange.mem_hosts_iff hsingle1).mpr ⟨h2.lo, hlo, hlt.le, ?_⟩)
    ((HostRange.mem_hosts_iff hsingle2).mpr ⟨h2.lo, le_rfl, hcanonical2.lo_le_hi, rfl⟩)
  rw [hpfx, hsame]

/-- Assumes: canonical ranges that denote distinct names. The array that `qsort` leaves is
settled. -/
theorem settled_qsort {qsort : List HostRange → List HostRange} (hqsort : IsSort hostrangeCmp qsort)
    {ranges : List HostRange} (hcanonical : ∀ hr ∈ ranges, hr.Canonical)
    (hnodup : (hostsOf ranges).Nodup) :
    Settled (qsort ranges) := by
  obtain ⟨hsorted, hperm, -, hcanonical'⟩ := qsort_spec hqsort hcanonical
  have hdisjoint := (List.nodup_flatMap.mp (hperm.nodup_iff.mpr hnodup)).2
  refine List.Pairwise.isChain ((hsorted.and hdisjoint).imp_of_mem fun {h1 h2} _ hmem2 hpair ↦
    ⟨hpair.1, fun hoverlaps ↦ ?_⟩)
  exact not_disjoint_of_overlaps (hcanonical' h2 hmem2) hpair.1 hoverlaps hpair.2

/-- Assumes: plain and distinct names, pushed to a new list. The sort succeeds, and leaves the names
as `qsort` orders the ranges. -/
theorem exists_sortedFrom {order : List (List Char)} (hplain : ∀ name ∈ order, PlainName name)
    (hnodup : order.Nodup) :
    ∃ pushed sorted, pushAll order hostlistNew = some pushed ∧ SortedFrom order sorted ∧
      ∃ ranges, sorted.hosts = hostsOf ranges ∧ ranges.Pairwise (fun h1 h2 ↦ h1.key ≤ h2.key) ∧
        (ranges.map HostRange.normal).Perm (pushed.ranges.map HostRange.normal) := by
  have hqsort : IsSort hostrangeCmp (insertionSort hostrangeCmp) := isSort_insertionSort
  obtain ⟨pushed, hpush, hhosts, hcanonical⟩ :=
    pushAll_spec order hostlistNew hostlistNew_canonical hplain
  rw [hosts_hostlistNew, List.nil_append] at hhosts
  obtain ⟨hordered, -, -, hcanonical'⟩ := qsort_spec hqsort hcanonical.ranges_canonical
  have hsettled :=
    settled_qsort hqsort hcanonical.ranges_canonical (hhosts.symm ▸ hnodup : pushed.hosts.Nodup)
  have hperm := perm_normal_qsort hqsort pushed.ranges
  by_cases hshort : pushed.ranges.length ≤ 1
  · refine ⟨pushed, pushed, hpush, ⟨true, _, 0, pushed, hqsort, hpush, if_pos hshort⟩,
      pushed.ranges, rfl, ?_, .refl _⟩
    cases hranges : pushed.ranges with
    | nil => exact List.Pairwise.nil
    | cons hr rest =>
      rw [hranges] at hshort
      obtain rfl : rest = [] := List.length_eq_zero_iff.mp (by simpa using hshort)
      exact List.pairwise_singleton _ _
  · generalize hq : insertionSort hostrangeCmp pushed.ranges =
      array at hordered hcanonical' hsettled hperm
    cases array with
    | nil =>
      have hlength := hperm.length_eq
      simp only [List.length_map, List.length_nil] at hlength
      omega
    | cons first chain =>
      obtain ⟨first', chain', hreach, hnormal, hkept⟩ :=
        reaches_scan true chain [] first [] hcanonical' hsettled
      simp only [List.length_nil, Nat.zero_add, List.nil_append, List.append_nil] at hreach
      obtain ⟨rounds, hrun⟩ := (halts_iff_of_reaches hreach).mpr (halts_of_result rfl)
      refine ⟨pushed, { pushed with ranges := hostlistCollapse (first' :: chain') }, hpush,
        ⟨true, _, rounds, pushed, hqsort, hpush, ?_⟩, first :: chain, ?_, hordered, hperm⟩
      · have hstart : ((first :: chain).length - 1, first :: chain) =
          (chain.length, first :: chain) := rfl
        rw [hostlistSort, if_neg hshort, hostlistCoalesce]
        simp only [hq, hstart, hrun]
        rfl
      · exact (hostlistCollapse_spec _ hkept).1.trans (hostsOf_congr hnormal)

/-! ### Pushed from the last to the first -/

/-- What continues a range is behind it. -/
theorem HostRange.Joins.key_lt {h1 h2 : HostRange} (hvalid1 : h1.Valid) (hvalid2 : h2.Valid)
    (h : h1.Joins h2) :
    h1.key < h2.key := by
  obtain ⟨hsingle1, hsingle2, hpfx, hnext, hdigits⟩ := (HostRange.joins_iff hvalid1 hvalid2).mp h
  have hlohi := hvalid1.lo_le_hi
  rw [← not_le, HostRange.key_le_iff_of_pfx hpfx.symm (hsingle2.trans hsingle1.symm)]
  omega

/-- Assumes: plain names in falling order, behind names whose ranges a list has. Pushing them
appends a range for each. -/
theorem pushAll_falling (names : List (List Char)) :
    ∀ (front : List (List Char)) (hl : Hostlist), hl.ranges = front.map hostRange →
      (∀ name ∈ names, PlainName name) →
      (front ++ names).Pairwise (fun name name' ↦ nameKey name' ≤ nameKey name) →
      ∃ hl', pushAll names hl = some hl' ∧ hl'.ranges = (front ++ names).map hostRange := by
  induction names with
  | nil => exact fun front hl hranges _ _ ↦ ⟨hl, rfl, by rw [List.append_nil, hranges]⟩
  | cons name names ih =>
    intro front hl hranges hplain hfalling
    obtain ⟨hname, hnames⟩ := List.forall_mem_cons.mp hplain
    have happended : (hostlistPushRange hl (hostRange name)).ranges =
        (front ++ [name]).map hostRange := by
      rcases hostlistPushRange_cases hl (hostRange name) with happend | ⟨others, tail, htail,
        hpfxCmp, hnext, hcombine, -⟩
      · rw [happend, hranges, hostrangeCopy_hostRange, List.map_append, List.map_singleton]
      · obtain ⟨last, hlast, rfl⟩ : ∃ last ∈ front, hostRange last = tail := by
          have hmem : tail ∈ hl.ranges := by
            rw [htail]
            exact List.mem_append_right _ (List.mem_singleton_self tail)
          rw [hranges] at hmem
          exact List.mem_map.mp hmem
        have hlt : nameKey last < nameKey name :=
          HostRange.Joins.key_lt (hostRange_spec last).2.1.toValid
          (hostRange_spec name).2.1.toValid ⟨hpfxCmp, hnext, hcombine⟩
        exact absurd hlt
          (not_lt.mpr ((List.pairwise_append.mp hfalling).2.2 last hlast name List.mem_cons_self))
    obtain ⟨hl', hpush, hranges'⟩ :=
      ih (front ++ [name]) _ happended hnames (by simpa using hfalling)
    refine ⟨hl', ?_, by simpa using hranges'⟩
    rw [pushAll, hostlistPush_hostRange hname]
    exact hpush

/-- Assumes: plain and distinct names. They can be pushed in an order from which the sort puts them
in order. -/
theorem exists_sorted {names : List (List Char)} (hplain : ∀ name ∈ names, PlainName name)
    (hnodup : names.Nodup) :
    ∃ order sorted, order.Perm names ∧ SortedFrom order sorted ∧
      sorted.hosts.Pairwise fun name name' ↦ nameKey name ≤ nameKey name' := by
  let order := names.mergeSort fun name name' ↦ decide (nameKey name' ≤ nameKey name)
  have hperm : order.Perm names := List.mergeSort_perm _ _
  have hfalling : order.Pairwise fun name name' ↦ nameKey name' ≤ nameKey name := by
    have hsorted :=
      @List.pairwise_mergeSort _ (fun name name' : List Char ↦
      decide (nameKey name' ≤ nameKey name))
      (fun a b c hab hbc ↦ by simp only [decide_eq_true_eq] at *; exact hbc.trans hab)
      (fun a b ↦ by simpa using le_total (nameKey b) (nameKey a)) names
    exact hsorted.imp fun h ↦ of_decide_eq_true h
  have hplain' : ∀ name ∈ order, PlainName name :=
    fun name hmem ↦ hplain name (hperm.mem_iff.mp hmem)
  obtain ⟨pushed, sorted, hpush, hsortedFrom, ranges, hhosts, hordered, hwritten⟩ :=
    exists_sortedFrom hplain' (hperm.nodup_iff.mpr hnodup)
  obtain ⟨pushed', hpush', hranges⟩ := pushAll_falling order [] hostlistNew rfl hplain' hfalling
  obtain rfl := Option.some.inj (hpush'.symm.trans hpush)
  refine ⟨order, sorted, hperm, hsortedFrom, ?_⟩
  -- Each range has one name, so that the names are in order as the ranges are.
  have hone : ∀ hr ∈ ranges, ∃ name, hr.hosts = [name] ∧ hr.key = nameKey name := by
    intro hr hmem
    have hnormal := hwritten.mem_iff.mp (List.mem_map_of_mem hmem)
    rw [hranges, List.nil_append, List.map_map] at hnormal
    obtain ⟨name, -, hname⟩ := List.mem_map.mp hnormal
    refine ⟨name, ?_, ?_⟩
    · rw [← HostRange.hosts_normal, ← hname, Function.comp_apply, HostRange.hosts_normal,
        (hostRange_spec name).1]
    · rw [← HostRange.key_normal, ← hname, Function.comp_apply, HostRange.key_normal, nameKey]
  rw [hhosts]
  refine List.pairwise_flatMap.mpr ⟨fun hr hmem ↦ ?_, hordered.imp_of_mem
    fun {h1 h2} hmem1 hmem2 hle ↦ ?_⟩
  · obtain ⟨name, hname, -⟩ := hone hr hmem
    rw [hname]
    exact List.pairwise_singleton _ _
  · obtain ⟨name1, hname1, hkey1⟩ := hone h1 hmem1
    obtain ⟨name2, hname2, hkey2⟩ := hone h2 hmem2
    intro a ha b hb
    rw [hname1] at ha
    rw [hname2] at hb
    rw [List.mem_singleton.mp ha, List.mem_singleton.mp hb, ← hkey1, ← hkey2]
    exact hle

/-! ### Pushed one behind the other -/

/-- Assumes: a list with a range that starts with two names. A push keeps it so. -/
theorem starts_hostlistPushRange {hl : Hostlist} {hr : HostRange} (hcanonical : hl.Canonical)
    (hr_valid : hr.Valid)
    {low high : List Char} (h : ∃ start ∈ hl.ranges, [low, high] <+: start.hosts) :
    ∃ start ∈ (hostlistPushRange hl hr).ranges, [low, high] <+: start.hosts := by
  obtain ⟨start, hmem, hstart⟩ := h
  rcases hostlistPushRange_cases hl hr with happend | ⟨front, tail, hfront, hpfxCmp, hnext,
    hcombine, hjoined⟩
  · rw [happend]
    exact ⟨start, List.mem_append_left _ hmem, hstart⟩
  · rw [hfront] at hmem
    rw [hjoined]
    rcases List.mem_append.mp hmem with hother | hlast
    · exact ⟨start, List.mem_append_left _ hother, hstart⟩
    · obtain rfl := List.mem_singleton.mp hlast
      have hvalid :=
        hcanonical.ranges_valid start (by rw [hfront]; exact List.mem_append_right _ hlast)
      obtain ⟨-, -, hhosts⟩ := hvalid.hosts_join hr_valid hpfxCmp hnext hcombine
      refine ⟨_, List.mem_append_right _ (List.mem_singleton_self _), ?_⟩
      rw [hhosts]
      exact hstart.trans (List.prefix_append _ _)

/-- Assumes: plain names, and a canonical list with a range that starts with two names. The pushes
keep it so. -/
theorem starts_pushAll {low high : List Char} (names : List (List Char)) :
    ∀ hl hl' : Hostlist, hl.Canonical → (∀ name ∈ names, PlainName name) →
      (∃ start ∈ hl.ranges, [low, high] <+: start.hosts) → pushAll names hl = some hl' →
      ∃ start ∈ hl'.ranges, [low, high] <+: start.hosts := by
  induction names with
  | nil =>
    intro hl hl' _ _ h hpush
    obtain rfl := Option.some.inj hpush
    exact h
  | cons name names ih =>
    intro hl hl' hcanonical hplain h hpush
    obtain ⟨hname, hnames⟩ := List.forall_mem_cons.mp hplain
    have hrange := (hostRange_spec name).2.1
    rw [pushAll, hostlistPush_hostRange hname] at hpush
    exact ih _ hl' (hostlistPushRange_canonical hcanonical hrange) hnames
      (starts_hostlistPushRange hcanonical hrange.toValid h) hpush

/-- Assumes: plain and distinct names, of which the second continues the first. The sort leaves them
next to each other. -/
theorem exists_adjacent {low high : List Char} {names : List (List Char)}
    (hplain : ∀ name ∈ low :: high :: names, PlainName name) (hnodup : (low :: high :: names).Nodup)
    (hjoins : (hostRange low).Joins (hostRange high)) :
    ∃ sorted, SortedFrom (low :: high :: names) sorted ∧ [low, high] <:+: sorted.hosts := by
  obtain ⟨hlow, hothers⟩ := List.forall_mem_cons.mp hplain
  obtain ⟨hhigh, hnames⟩ := List.forall_mem_cons.mp hothers
  obtain ⟨pushed, sorted, hpush, hsorted, ranges, hhosts, -, hwritten⟩ :=
    exists_sortedFrom hplain hnodup
  have hcanonical : (hostlistPushRange (hostlistPushRange hostlistNew (hostRange low))
      (hostRange high)).Canonical :=
    hostlistPushRange_canonical (hostlistPushRange_canonical hostlistNew_canonical
      (hostRange_spec low).2.1)
      (hostRange_spec high).2.1
  have hfirst : (hostlistPushRange hostlistNew (hostRange low)).ranges = [hostRange low] :=
    congrArg (fun hr ↦ [hr]) (hostrangeCopy_hostRange low)
  obtain ⟨-, -, hjoin⟩ :=
    (hostRange_spec low).2.1.toValid.hosts_join (hostRange_spec high).2.1.toValid
    hjoins.1 hjoins.2.1 hjoins.2.2
  rw [(hostRange_spec low).1, (hostRange_spec high).1] at hjoin
  have hstart :
    ∃ start ∈ (hostlistPushRange (hostlistPushRange hostlistNew (hostRange low))
    (hostRange high)).ranges,
      [low, high] <+: start.hosts := by
    rw [@hostlistPushRange_join _ _ _ [] hfirst hjoins, List.nil_append]
    refine ⟨_, List.mem_singleton_self _, ?_⟩
    rw [hjoin]
    exact List.prefix_rfl
  rw [pushAll, hostlistPush_hostRange hlow] at hpush
  simp only at hpush
  rw [pushAll, hostlistPush_hostRange hhigh] at hpush
  obtain ⟨start, hmem, hprefix⟩ := starts_pushAll names _ pushed hcanonical hnames hstart hpush
  obtain ⟨start', hmem', hnormal⟩ :=
    List.mem_map.mp (hwritten.mem_iff.mpr (List.mem_map_of_mem hmem))
  refine ⟨sorted, hsorted, ?_⟩
  have hhosts' : start'.hosts = start.hosts := by
    rw [← HostRange.hosts_normal, hnormal, HostRange.hosts_normal]
  rw [hhosts]
  exact (hhosts' ▸ hprefix).isInfix.trans (List.infix_of_mem_flatten (List.mem_map_of_mem hmem'))

/-! ### The text -/

/-- Assumes: names in order. No name is between two that are next to each other. -/
theorem not_between {low high other : List Char} {names : List (List Char)}
    (hadjacent : [low, high] <:+: names)
    (hsorted : names.Pairwise fun name name' ↦ nameKey name ≤ nameKey name')
    (hother : other ∈ names)
    (hlow : nameKey low < nameKey other) (hhigh : nameKey other < nameKey high) : False := by
  obtain ⟨front, back, rfl⟩ := hadjacent
  rw [List.append_assoc, List.pairwise_append] at hsorted
  obtain ⟨-, hbehind, hfront⟩ := hsorted
  rw [List.append_assoc] at hother
  rcases List.mem_append.mp hother with hmem | hmem
  · exact absurd (hfront other hmem low List.mem_cons_self) (not_le.mpr hlow)
  · have hback := (List.pairwise_cons.mp (List.pairwise_cons.mp hbehind).2).1
    rcases List.mem_cons.mp hmem with rfl | hmem
    · exact lt_irrefl _ hlow
    · rcases List.mem_cons.mp hmem with rfl | hmem
      · exact lt_irrefl _ hhigh
      · exact absurd (hback other hmem) (not_le.mpr hhigh)

/-- Assumes: plain names without a carry clash. Their text is the same for every order in which they
are pushed. -/
theorem sortedText_eq {names order order' : List (List Char)} {sorted sorted' : Hostlist}
    (hplain : ∀ name ∈ names, PlainName name) (hclash : ¬CarryClash names)
    (horder : order.Perm names)
    (horder' : order'.Perm names) (hsorted : SortedFrom order sorted)
    (hsorted' : SortedFrom order' sorted') :
    rangedText sorted'.ranges = rangedText sorted.ranges := by
  obtain ⟨ndebug, qsort, rounds, pushed, hqsort, hpush, hsort⟩ := hsorted
  obtain ⟨ndebug', qsort', rounds', pushed', hqsort', hpush', hsort'⟩ := hsorted'
  have hhosts : ∀ {order : List (List Char)} {pushed : Hostlist}, order.Perm names →
    pushAll order hostlistNew = some pushed →
      pushed.Filled ∧ pushed.hosts.Perm names := by
    intro order pushed horder hpush
    have hplain' : ∀ name ∈ order, PlainName name :=
      fun name hmem ↦ hplain name (horder.mem_iff.mp hmem)
    obtain ⟨other, hother, hhosts, -⟩ :=
      pushAll_spec order hostlistNew hostlistNew_canonical hplain'
    obtain rfl := Option.some.inj (hother.symm.trans hpush)
    rw [hosts_hostlistNew, List.nil_append] at hhosts
    exact ⟨filled_pushAll order hostlistNew other .new hplain' hpush, hhosts ▸ horder⟩
  obtain ⟨hfilled, hperm⟩ := hhosts horder hpush
  obtain ⟨hfilled', hperm'⟩ := hhosts horder' hpush'
  exact rangedText_congr (normal_eq_of_filled hqsort hqsort' hfilled hfilled'
    (hperm'.trans hperm.symm)
    ((carryClash_congr fun _ ↦ hperm.mem_iff).not.mpr hclash) hsort hsort')

/-- Assumes: plain and distinct names with a carry clash. There are two orders in which they can be
pushed, with different texts behind the sort. -/
theorem exists_texts_of_carryClash {names : List (List Char)}
    (hplain : ∀ name ∈ names, PlainName name) (hnodup : names.Nodup)
    (hclash : CarryClash names) :
    ∃ order order' sorted sorted', order.Perm names ∧ order'.Perm names ∧ SortedFrom order sorted ∧
      SortedFrom order' sorted' ∧ rangedText sorted'.ranges ≠ rangedText sorted.ranges := by
  obtain ⟨low, hlow, high, hhigh, other, hother, hjoins, hlonger, hpfx, hlength, hpadded⟩ := hclash
  obtain ⟨hsingle1, hsingle2, hpfx', hnext, hdigits⟩ :=
    (HostRange.joins_iff (hostRange_spec low).2.1.toValid
      (hostRange_spec high).2.1.toValid).mp hjoins
  have hsingle : (hostRange other).singlehost = false := by
    by_contra h
    have hwidth := (hostRange_spec other).2.1.single_width (by simpa using h)
    unfold HostRange.IsPadded at hpadded
    omega
  have hbetween : nameKey low < nameKey other ∧ nameKey other < nameKey high := by
    unfold nameKey
    rw [← not_le, ← not_le, HostRange.key_le_iff_of_pfx (hpfx.trans hpfx'.symm)
      (hsingle.trans hsingle1.symm),
      HostRange.key_le_iff_of_pfx hpfx.symm (hsingle2.trans hsingle.symm)]
    have hmono : (hostRange high).lo ≤ (hostRange other).lo →
        numDigits (hostRange high).lo ≤ numDigits (hostRange other).lo := numDigits_mono
    rw [HostRange.isPadded_iff] at hpadded
    constructor <;> omega
  obtain ⟨order, sorted, horder, hsorted, hinorder⟩ := exists_sorted hplain hnodup
  obtain ⟨rest, hrest⟩ : ∃ rest, (low :: high :: rest).Perm names := by
    have hdiffer : high ≠ low := fun h ↦ absurd (hbetween.1.trans hbetween.2) (h ▸ lt_irrefl _)
    have hmem : high ∈ names.erase low := (List.mem_erase_of_ne hdiffer).mpr hhigh
    exact ⟨(names.erase low).erase high,
      ((List.perm_cons_erase hmem).symm.cons low).trans (List.perm_cons_erase hlow).symm⟩
  have hplain' : ∀ name ∈ low :: high :: rest, PlainName name :=
    fun name hmem ↦ hplain name (hrest.mem_iff.mp hmem)
  obtain ⟨sorted', hsorted', hadjacent⟩ :=
    exists_adjacent hplain' (hrest.nodup_iff.mpr hnodup) hjoins
  refine ⟨order, low :: high :: rest, sorted, sorted', horder, hrest, hsorted, hsorted',
    fun htext ↦ ?_⟩
  have hspec := hsorted.spec fun name hmem ↦ hplain name (horder.mem_iff.mp hmem)
  have hspec' := hsorted'.spec hplain'
  have hsame := denotedNames_rangedText hspec'.1.printable
  rw [htext, denotedNames_rangedText hspec.1.printable] at hsame
  rw [← Option.some.inj hsame] at hadjacent
  exact not_between hadjacent hinorder (hspec.2.mem_iff.mpr (horder.mem_iff.mpr hother))
    hbetween.1 hbetween.2

/-- Assumes: plain and distinct names. The text of the sorted list is the same for all orders in
which they can be pushed exactly if they have no carry clash. -/
theorem sortedText_iff {names : List (List Char)} (hplain : ∀ name ∈ names, PlainName name)
    (hnodup : names.Nodup) :
    (∀ order order' sorted sorted', order.Perm names → order'.Perm names → SortedFrom order sorted →
      SortedFrom order' sorted' → rangedText sorted'.ranges = rangedText sorted.ranges) ↔
        ¬CarryClash names := by
  constructor
  · intro hsame hclash
    obtain ⟨order, order', sorted, sorted', horder, horder', hsorted, hsorted', hdiffer⟩ :=
      exists_texts_of_carryClash hplain hnodup hclash
    exact hdiffer (hsame order order' sorted sorted' horder horder' hsorted hsorted')
  · intro hclash order order' sorted sorted' horder horder' hsorted hsorted'
    exact sortedText_eq hplain hclash horder horder' hsorted hsorted'

end Whatsup
