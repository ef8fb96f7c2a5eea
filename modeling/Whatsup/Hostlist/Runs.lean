import Mathlib.Data.List.SplitBy
import Whatsup.Hostlist.NameOrder

/-!
# The ranges of a sorted list

`hostlist_collapse` leaves no neighbours that continue each other (`isChain_hostlistCollapse`), so
that the ranges of a sorted list are the longest runs of its names (`map_hosts_eq_runs`), and the
names alone determine how they are written (`normal_eq_of_hosts_eq`).

`sortedText_iff` is what this comes to: the text of a sorted list does not depend on the order in
which distinct names were pushed exactly if the names have no carry clash. If they have none, the
text is the same for equal names, too, and whatever searches came between the pushes
(`normal_eq_of_filled`).
-/

set_option autoImplicit false
set_option relaxedAutoImplicit false

namespace Whatsup

open CLib

/-! ### Ranges stay natural -/

/-- Two ranges of one prefix, and of one kind. -/
def HostRange.SamePrefix (hr hr' : HostRange) : Prop :=
  hr'.pfx = hr.pfx ∧ hr'.singlehost = hr.singlehost

theorem HostRange.SamePrefix.natural {hr hr' : HostRange} (h : hr.SamePrefix hr')
    (hnatural : hr.Natural) : hr'.Natural := by
  unfold HostRange.Natural
  rw [h.1, h.2]
  exact hnatural

theorem samePrefix_of_normal {hr hr' : HostRange} (h : hr'.normal = hr.normal) :
    hr.SamePrefix hr' := by
  have hpfx := congrArg HostRange.pfx h
  have hsingle := congrArg HostRange.singlehost h
  exact ⟨hpfx, hsingle⟩

theorem hostrangeCopy_hostRange (name : List Char) : hostrangeCopy (hostRange name) =
    hostRange name := by
  rcases hostRange_cases name with ⟨-, hrange⟩ | ⟨pfx, width, number, -, -, -, hrange⟩ <;>
    rw [hrange] <;> rfl

/-- `hostlist_push` of a plain name pushes its range. -/
theorem hostlistPush_hostRange {name : List Char} (hname : PlainName name) (hl : Hostlist) :
    hostlistPush hl name = some (1, hostlistPushRange hl (hostRange name)) := by
  rw [hostlistPush_plain hname, hostlistPushHost_eq]
  change some (1, hostlistPushRange hl (hostrangeCopy (hostRange name))) = _
  rw [hostrangeCopy_hostRange]

/-- Assumes: natural ranges. A push of a natural range leaves natural ranges. -/
theorem natural_hostlistPushRange {hl : Hostlist} {hr : HostRange}
    (hnatural : ∀ other ∈ hl.ranges, other.Natural)
    (hnew : hr.Natural) : ∀ other ∈ (hostlistPushRange hl hr).ranges, other.Natural := by
  rcases hostlistPushRange_cases hl hr with happend | ⟨front, tail, hfront, -, -, -, hjoined⟩
  · rw [happend]
    refine List.forall_mem_append.mpr ⟨hnatural, List.forall_mem_singleton.mpr ?_⟩
    unfold hostrangeCopy
    split_ifs with hsingle
    · exact fun _ ↦ hnew hsingle
    · exact fun h ↦ absurd h Bool.false_ne_true
  · rw [hfront] at hnatural
    rw [hjoined]
    obtain ⟨hkept, htail⟩ := List.forall_mem_append.mp hnatural
    exact List.forall_mem_append.mpr ⟨hkept,
      List.forall_mem_singleton.mpr (htail tail (List.mem_singleton_self tail))⟩

/-- The search in a range changes no more than its width. -/
theorem samePrefix_hnWithinRounds (rounds : ℕ) (hr : HostRange) :
    ∀ hn : Hostname, hr.SamePrefix (hnWithinRounds rounds hr hn).2 := by
  induction rounds with
  | zero => exact fun _ ↦ ⟨rfl, rfl⟩
  | succ rounds ih =>
    intro hn
    rw [hnWithinRounds]
    by_cases hsingle : hr.singlehost = true
    · rw [if_pos hsingle]
      exact ⟨rfl, rfl⟩
    · rw [if_neg hsingle]
      split
      · exact ⟨rfl, rfl⟩
      · simp only
        split_ifs
        · exact ⟨rfl, rfl⟩
        · exact ih _
        · exact ⟨rfl, rfl⟩
        · exact ⟨rfl, rfl⟩
        · exact ⟨rfl, rfl⟩

/-- Assumes: natural ranges. A search leaves natural ranges. -/
theorem natural_findLoop (hn : Hostname) (ranges : List HostRange) :
    ∀ count : ℤ, (∀ hr ∈ ranges, hr.Natural) → ∀ hr ∈ (findLoop hn ranges count).2, hr.Natural := by
  induction ranges with
  | nil => exact fun _ h ↦ h
  | cons hr rest ih =>
    intro count hnatural
    obtain ⟨hhr, hrest⟩ := List.forall_mem_cons.mp hnatural
    have hfirst : (hostrangeHnWithin hr hn).2.Natural :=
      (samePrefix_hnWithinRounds _ hr hn).natural hhr
    rw [findLoop]
    simp only
    split_ifs
    · exact List.forall_mem_cons.mpr ⟨hfirst, hrest⟩
    · exact List.forall_mem_cons.mpr ⟨hfirst, ih _ hrest⟩

theorem HostRange.SamePrefix.refl (hr : HostRange) : hr.SamePrefix hr :=
  ⟨rfl, rfl⟩

theorem HostRange.SamePrefix.trans {hr hr' hr'' : HostRange} (h : hr.SamePrefix hr')
    (h' : hr'.SamePrefix hr'') :
    hr.SamePrefix hr'' :=
  ⟨h'.1.trans h.1, h'.2.trans h.2⟩

/-- `hostrange_intersect` changes no more than the widths of the two ranges. -/
theorem samePrefix_hostrangeIntersect {ndebug : Bool} {h1 h2 h1' h2' : HostRange}
    {new : Option HostRange}
    (h : hostrangeIntersect ndebug h1 h2 = .ok (new, h1', h2')) : h1.SamePrefix h1' ∧
    h2.SamePrefix h2' := by
  have hcommon : ∀ g1 g2 : HostRange, g1.SamePrefix (hostrangeCommon g1 g2).2.1 ∧
      g2.SamePrefix (hostrangeCommon g1 g2).2.2 := by
    intro g1 g2
    unfold hostrangeCommon
    simp only
    split_ifs <;> exact ⟨⟨rfl, rfl⟩, rfl, rfl⟩
  unfold hostrangeIntersect at h
  by_cases hsingle : (h1.singlehost || h2.singlehost) = true
  · rw [if_pos hsingle] at h
    obtain ⟨-, rfl, rfl⟩ : new = none ∧ h1' = h1 ∧ h2' = h2 := by simpa [eq_comm] using h
    exact ⟨.refl h1', .refl h2'⟩
  · rw [if_neg hsingle] at h
    cases ndebug with
    | true =>
      have hresult : hostrangeCommon h1 h2 = (new, h1', h2') := Except.ok.inj h
      have hkept := hcommon h1 h2
      rw [hresult] at hkept
      exact hkept
    | false =>
      have hasserted := normal_hostrangeCmp h1 h2
      simp only [Bool.false_eq_true, if_false] at h
      split_ifs at h
      have hkept := hcommon (hostrangeCmp h1 h2).2.1 (hostrangeCmp h1 h2).2.2
      rw [Except.ok.inj h] at hkept
      exact ⟨(samePrefix_of_normal hasserted.1).trans hkept.1,
        (samePrefix_of_normal hasserted.2).trans hkept.2⟩

/-- Assumes: natural ranges. A split leaves natural ranges. -/
theorem natural_coalesceSplit {front back : List HostRange} {hprev hnext new : HostRange}
    {state : ℕ × List HostRange}
    (hfront : ∀ hr ∈ front, hr.Natural) (hprevNatural : hprev.Natural)
    (hnextNatural : hnext.Natural)
    (hback : ∀ hr ∈ back, hr.Natural)
    (h : coalesceSplit front hprev hnext new back = .again state) :
    ∀ hr ∈ state.2, hr.Natural := by
  have hinserted : ∀ prevHi nextLo, ∀ hr ∈ insertedRanges new prevHi nextLo, hr.Natural := by
    intro prevHi nextLo hr hmem
    obtain ⟨number, -, hmem⟩ := List.mem_flatMap.mp hmem
    have hsingle : hr.singlehost = false := by
      rcases List.mem_append.mp hmem with hmem | hmem <;> split_ifs at hmem <;>
        simp_all [hostrangeCopy, hostrangeCreate]
    exact fun hsome ↦ absurd (hsingle.symm.trans hsome) Bool.false_ne_true
  unfold coalesceSplit at h
  simp only at h
  split_ifs at h <;> obtain rfl := Next.again.inj h
  · exact List.forall_mem_append.mpr ⟨hfront, List.forall_mem_cons.mpr ⟨hprevNatural, hback⟩⟩
  all_goals
    exact List.forall_mem_append.mpr ⟨hfront, List.forall_mem_cons.mpr ⟨hprevNatural,
      List.forall_mem_append.mpr ⟨hinserted _ _, List.forall_mem_cons.mpr ⟨hnextNatural, hback⟩⟩⟩⟩

/-- Assumes: natural ranges. A round of `hostlist_coalesce` leaves natural ranges. -/
theorem natural_coalesceBody {ndebug : Bool} {state state' : ℕ × List HostRange}
    (hnatural : ∀ hr ∈ state.2, hr.Natural)
    (h : coalesceBody ndebug state = .again state') : ∀ hr ∈ state'.2, hr.Natural := by
  obtain ⟨i, ranges⟩ := state
  cases i with
  | zero => exact absurd h (by simp [coalesceBody])
  | succ i =>
    have hfront : ∀ hr ∈ ranges.take i, hr.Natural :=
      fun hr hmem ↦ hnatural hr (List.mem_of_mem_take hmem)
    have hbehind : ∀ hr ∈ ranges.drop i, hr.Natural :=
      fun hr hmem ↦ hnatural hr (List.mem_of_mem_drop hmem)
    rw [coalesceBody] at h
    split at h
    · rename_i hprev hnext back hdrop
      rw [hdrop] at hbehind
      obtain ⟨hprevNatural, hnextNatural, hback⟩ :=
        (List.forall_mem_cons.mp hbehind).imp_right List.forall_mem_cons.mp
      split at h
      · exact absurd h (by simp)
      · rename_i h1 h2 hintersect
        obtain ⟨hkept1, hkept2⟩ := samePrefix_hostrangeIntersect hintersect
        obtain rfl := Next.again.inj h
        exact List.forall_mem_append.mpr ⟨hfront,
          List.forall_mem_cons.mpr ⟨hkept1.natural hprevNatural,
          List.forall_mem_cons.mpr ⟨hkept2.natural hnextNatural, hback⟩⟩⟩
      · rename_i new h1 h2 hintersect
        obtain ⟨hkept1, hkept2⟩ := samePrefix_hostrangeIntersect hintersect
        exact natural_coalesceSplit hfront (hkept1.natural hprevNatural)
          (hkept2.natural hnextNatural) hback h
    · exact absurd h (by simp)

/-- Assumes: natural ranges. `hostlist_collapse` leaves natural ranges. -/
theorem natural_hostlistCollapse (ranges : List HostRange) (hnatural : ∀ hr ∈ ranges, hr.Natural) :
    ∀ hr ∈ hostlistCollapse ranges, hr.Natural := by
  induction ranges with
  | nil => exact hnatural
  | cons hprev rest ih =>
    obtain ⟨hfirst, hrest⟩ := List.forall_mem_cons.mp hnatural
    have hlater := ih hrest
    rw [hostlistCollapse]
    cases hcollapsed : hostlistCollapse rest with
    | nil => exact List.forall_mem_singleton.mpr hfirst
    | cons hnext tail =>
      rw [hcollapsed] at hlater
      obtain ⟨hsecond, htail⟩ := List.forall_mem_cons.mp hlater
      simp only
      split_ifs
      · exact List.forall_mem_cons.mpr ⟨hfirst, htail⟩
      · exact List.forall_mem_cons.mpr ⟨hfirst, List.forall_mem_cons.mpr ⟨hsecond, htail⟩⟩
      · exact List.forall_mem_cons.mpr ⟨hfirst, List.forall_mem_cons.mpr ⟨hsecond, htail⟩⟩

/-- What a sort that succeeds does: nothing to a list of at most one range, and else it collapses
the array that `hostlist_coalesce` leaves. -/
theorem hostlistSort_cases {ndebug : Bool} {qsort : List HostRange → List HostRange} {rounds : ℕ}
    {hl hl' : Hostlist}
    (hsort : hostlistSort ndebug qsort rounds hl = some (.ok hl')) :
    (hl.ranges.length ≤ 1 ∧ hl' = hl) ∨ ∃ settled,
      runLoop (coalesceBody ndebug) rounds ((qsort hl.ranges).length - 1, qsort hl.ranges) =
        some (.ok settled) ∧
        hl'.ranges = hostlistCollapse settled := by
  unfold hostlistSort at hsort
  split_ifs at hsort with hshort
  · exact Or.inl ⟨hshort, (Except.ok.inj (Option.some.inj hsort)).symm⟩
  · obtain ⟨outcome, hrun, hok⟩ := Option.map_eq_some_iff.mp hsort
    cases outcome with
    | error failure => exact absurd hok (by simp [Except.map])
    | ok settled =>
      obtain rfl := Except.ok.inj hok
      exact Or.inr ⟨settled, hrun, rfl⟩

/-- Assumes: natural ranges. The array that `hostlist_coalesce` leaves behind `qsort` has natural
ranges. -/
theorem natural_settled {ndebug : Bool} {qsort : List HostRange → List HostRange} {rounds : ℕ}
    {ranges settled : List HostRange} (hqsort : IsSort hostrangeCmp qsort)
    (hnatural : ∀ hr ∈ ranges, hr.Natural)
    (hrun : runLoop (coalesceBody ndebug) rounds ((qsort ranges).length - 1, qsort ranges) =
      some (.ok settled)) :
    ∀ hr ∈ settled, hr.Natural := by
  have hsorted : ∀ hr ∈ qsort ranges, hr.Natural := by
    intro hr hmem
    obtain ⟨hr', hmem', hnormal⟩ :=
      List.mem_map.mp ((perm_normal_qsort hqsort ranges).mem_iff.mp (List.mem_map_of_mem hmem))
    exact (samePrefix_of_normal hnormal.symm).natural (hnatural hr' hmem')
  have hround : ∀ state state' : ℕ × List HostRange, (∀ hr ∈ state.2, hr.Natural) →
      coalesceBody ndebug state = .again state' → ∀ hr ∈ state'.2, hr.Natural :=
        fun _ _ h hround ↦ natural_coalesceBody h hround
  have hend : ∀ (state : ℕ × List HostRange) (value : List HostRange),
    (∀ hr ∈ state.2, hr.Natural) →
      coalesceBody ndebug state = .result value → ∀ hr ∈ value, hr.Natural := by
    rintro ⟨i, array⟩ value harray hend
    cases i with
    | zero => exact Next.result.inj hend ▸ harray
    | succ i =>
      rw [coalesceBody] at hend
      split at hend
      · split at hend
        · exact absurd hend (by simp)
        · exact absurd hend (by simp)
        · unfold coalesceSplit at hend
          simp only at hend
          split_ifs at hend
      · exact absurd hend (by simp)
  exact result_of_runLoop hround hend rounds _ settled hsorted hrun

/-- A filled list has natural ranges. -/
theorem Hostlist.Filled.natural {hl : Hostlist} (h : hl.Filled) : ∀ hr ∈ hl.ranges, hr.Natural := by
  induction h with
  | new => exact fun hr hmem ↦ absurd hmem List.not_mem_nil
  | @push hl hl' name count _ hname hpush ih =>
    rw [hostlistPush_hostRange hname] at hpush
    obtain rfl := (Prod.mk.inj (Option.some.inj hpush)).2
    exact natural_hostlistPushRange ih (natural_hostRange name)
  | @find hl _ hostname ih => exact natural_findLoop _ _ _ ih
  | @sort hl hl' ndebug qsort rounds _ hqsort hsort ih =>
    rcases hostlistSort_cases hsort with ⟨-, rfl⟩ | ⟨settled, hrun, hranges⟩
    · exact ih
    · rw [hranges]
      exact natural_hostlistCollapse settled (natural_settled hqsort ih hrun)

/-! ### No neighbours continue each other -/

/-- Whether a range continues another depends on how they are written. -/
theorem HostRange.joins_congr {h1 h2 g1 g2 : HostRange} (hnormal1 : g1.normal = h1.normal)
    (hnormal2 : g2.normal = h2.normal) :
    g1.Joins g2 ↔ h1.Joins h2 := by
  have hkey1 : g1.key = h1.key := by rw [← HostRange.key_normal, hnormal1, HostRange.key_normal]
  have hkey2 : g2.key = h2.key := by rw [← HostRange.key_normal, hnormal2, HostRange.key_normal]
  obtain ⟨hpfx1, hsingle1, -, -⟩ := HostRange.key_eq_iff.mp hkey1
  obtain ⟨hpfx2, hsingle2, -, hlo2⟩ := HostRange.key_eq_iff.mp hkey2
  have hhi : g1.hi = h1.hi := by rw [← HostRange.hi_normal, hnormal1, HostRange.hi_normal]
  unfold HostRange.Joins
  rw [hostrangePrefixCmp_eq_zero_iff, hostrangePrefixCmp_eq_zero_iff, hpfx1, hpfx2,
    hsingle1, hsingle2,
    combine_congr_key hkey1 hkey2, hlo2, hhi]

/-- Assumes: valid ranges, of which the second continues the first. What continues the joined range
continues the second. -/
theorem HostRange.joins_joined {h1 h2 third : HostRange} (hvalid1 : h1.Valid) (hvalid2 : h2.Valid)
    (hvalid3 : third.Valid)
    (hjoins : h1.Joins h2)
    (hthird : HostRange.Joins { (hostrangeWidthCombine h1 h2).2.1 with hi := h2.hi } third) :
      h2.Joins third := by
  obtain ⟨hsingle1, hsingle2, hpfx, hnext, hdigits⟩ :=
    (HostRange.joins_iff hvalid1 hvalid2).mp hjoins
  have hlohi1 := hvalid1.lo_le_hi
  have hlohi2 := hvalid2.lo_le_hi
  have hjoined : HostRange.Valid { (hostrangeWidthCombine h1 h2).2.1 with hi := h2.hi } :=
    ⟨show h1.lo ≤ h2.hi by omega, hvalid2.hi_lt, fun h ↦
      absurd (hsingle1.symm.trans h) Bool.false_ne_true⟩
  have hlength : HostRange.digits { (hostrangeWidthCombine h1 h2).2.1 with hi := h2.hi } =
      h1.digits :=
    calc _ = (hostrangeWidthCombine h1 h2).2.1.normal.digits := (HostRange.digits_normal _).symm
      _ = h1.digits := by rw [(normal_hostrangeWidthCombine h1 h2).1, HostRange.digits_normal]
  obtain ⟨-, hsingle3, hpfx3, hnext3, hdigits3⟩ := (HostRange.joins_iff hjoined hvalid3).mp hthird
  rw [hlength] at hdigits3
  have hmono : numDigits h2.lo ≤ numDigits third.lo :=
    numDigits_mono (by simp only at hnext3; omega)
  exact (HostRange.joins_iff hvalid2 hvalid3).mpr ⟨hsingle2, hsingle3, hpfx.symm.trans hpfx3,
    hnext3, by omega⟩

/-- Assumes: canonical ranges. Of the ranges that `hostlist_collapse` leaves none continues the one
in front of it. -/
theorem isChain_hostlistCollapse (ranges : List HostRange)
    (hcanonical : ∀ hr ∈ ranges, hr.Canonical) :
    (hostlistCollapse ranges).IsChain fun h1 h2 ↦ ¬h1.Joins h2 := by
  induction ranges with
  | nil => exact List.isChain_nil
  | cons hprev rest ih =>
    obtain ⟨hfirst, hrest⟩ := List.forall_mem_cons.mp hcanonical
    have hchain := ih hrest
    have hlater := (hostlistCollapse_spec rest hrest).2
    rw [hostlistCollapse]
    cases hcollapsed : hostlistCollapse rest with
    | nil => exact List.isChain_singleton _
    | cons hnext tail =>
      rw [hcollapsed] at hchain hlater
      obtain ⟨hsecond, htail⟩ := List.forall_mem_cons.mp hlater
      simp only
      split_ifs with hadjacent hcombine
      · refine List.isChain_cons.mpr ⟨fun third hthird hjoins ↦ ?_, hchain.tail⟩
        exact (List.isChain_cons.mp hchain).1 third hthird
          (HostRange.joins_joined hfirst.toValid hsecond.toValid
          (htail third (List.mem_of_mem_head? hthird)).toValid ⟨hadjacent.1, hadjacent.2,
            hcombine⟩ hjoins)
      · have hequiv : (widthEquiv hprev.lo hprev.width hnext.lo hnext.width).1 = false :=
          Bool.eq_false_iff.mpr hcombine
        have hsame : hostrangeWidthCombine hprev hnext = (false, hprev, hnext) := by
          unfold hostrangeWidthCombine
          rw [widthEquiv_of_eq_false hequiv]
        rw [hsame]
        exact List.isChain_cons_cons.mpr ⟨fun hjoins ↦ hcombine hjoins.2.2, hchain⟩
      · exact List.isChain_cons_cons.mpr ⟨fun hjoins ↦ hadjacent ⟨hjoins.1, hjoins.2.1⟩, hchain⟩

/-! ### Ranges are the runs of their names -/

/-- A name continues another: pushed behind it, it joins its range. -/
def nameFollows (name name' : List Char) : Bool :=
  (hostRange name).Joins (hostRange name')

/-- Assumes: a canonical and natural range. Its first name and its last one, as ranges. -/
theorem exists_ends {hr : HostRange} (hcanonical : hr.Canonical) (hnatural : hr.Natural) :
    ∃ hne : hr.hosts ≠ [],
      (hostRange (hr.hosts.head hne)).normal = HostRange.normal { hr with hi := hr.lo } ∧
        (hostRange (hr.hosts.getLast hne)).normal = HostRange.normal { hr with lo := hr.hi } := by
  rcases Bool.eq_false_or_eq_true hr.singlehost with hsingle | hsingle
  · have hhosts : hr.hosts = [hr.pfx] := by rw [HostRange.hosts, if_pos hsingle]
    obtain ⟨hlo, hhi⟩ := hcanonical.single hsingle
    have hrange : hostRange hr.pfx = hr := by
      rw [hostRange_single (hnatural hsingle)]
      obtain ⟨pfx, lo, hi, width, singlehost⟩ := hr
      obtain rfl : width = 0 := hcanonical.single_width hsingle
      simp_all [hostrangeCreateSingle]
    have hfirst : ({ hr with hi := hr.lo } : HostRange) = hr :=
      congrArg (fun number ↦ ({ hr with hi := number } : HostRange)) (hlo.trans hhi.symm)
    have hlast : ({ hr with lo := hr.hi } : HostRange) = hr :=
      congrArg (fun number ↦ ({ hr with lo := number } : HostRange)) (hhi.trans hlo.symm)
    refine ⟨by simp [hhosts], ?_, ?_⟩
    · simp only [hhosts, List.head_cons, hrange, hfirst]
    · simp only [hhosts, List.getLast_singleton, hrange, hlast]
  · have hlohi := hcanonical.lo_le_hi
    have hmax := hcanonical.hi_le
    have hhosts : hr.hosts =
        (List.range' hr.lo (hr.hi - hr.lo + 1)).map fun number ↦
            hr.pfx ++ padded hr.width number := by
      rw [HostRange.hosts, if_neg (by simp [hsingle]), Nat.sub_add_comm hlohi]
    have hname : ∀ number ≤ hr.hi, (hostRange (hr.pfx ++ padded hr.width number)).normal =
        HostRange.normal { hr with lo := number, hi := number } := by
      intro number hnumber
      rw [hostRange_numeral (hcanonical.pfx_end hsingle) _ (hnumber.trans hmax)]
      unfold HostRange.normal HostRange.digits
      simp only [hostrangeCreate, hsingle, HostRange.mk.injEq, true_and, and_true]
      omega
    refine ⟨by simp [hhosts], ?_, ?_⟩
    · simp only [hhosts, List.range'_succ, List.map_cons, List.head_cons]
      exact hname hr.lo hlohi
    · simp only [hhosts, List.range'_1_concat, List.map_append, List.map_singleton,
        List.getLast_append_singleton]
      rw [Nat.add_sub_cancel' hlohi]
      exact hname hr.hi le_rfl

/-- Assumes: canonical and natural ranges. The first name of the second continues the last name of
the first exactly if the second continues the first. -/
theorem nameFollows_ends {h1 h2 : HostRange} (hkind1 : h1.Canonical ∧ h1.Natural)
    (hkind2 : h2.Canonical ∧ h2.Natural)
    (hne1 : h1.hosts ≠ []) (hne2 : h2.hosts ≠ []) :
    nameFollows (h1.hosts.getLast hne1) (h2.hosts.head hne2) = true ↔ h1.Joins h2 := by
  obtain ⟨_, -, hlast⟩ := exists_ends hkind1.1 hkind1.2
  obtain ⟨_, hfirst, -⟩ := exists_ends hkind2.1 hkind2.2
  have hlohi1 := hkind1.1.lo_le_hi
  have hvalid1 : HostRange.Valid { h1 with lo := h1.hi } :=
    ⟨le_rfl, hkind1.1.hi_lt, fun h ↦ ⟨(hkind1.1.single h).2, (hkind1.1.single h).2⟩⟩
  have hvalid2 : HostRange.Valid { h2 with hi := h2.lo } :=
    ⟨le_rfl, lt_of_le_of_lt hkind2.1.lo_le_hi hkind2.1.hi_lt, fun h ↦
      ⟨(hkind2.1.single h).1, (hkind2.1.single h).1⟩⟩
  rw [nameFollows, decide_eq_true_iff, HostRange.joins_congr hlast hfirst,
    HostRange.joins_iff hvalid1 hvalid2,
    HostRange.joins_iff hkind1.1.toValid hkind2.1.toValid]
  simp only [HostRange.digits]
  have hmono : numDigits h1.lo ≤ numDigits h1.hi := numDigits_mono hlohi1
  have hmono' : h2.lo = h1.hi + 1 → numDigits h1.hi ≤ numDigits h2.lo :=
    fun h ↦ numDigits_mono (by omega)
  constructor
  · rintro ⟨hsingle1, hsingle2, hpfx, hnext, hdigits⟩
    have hnext' := hmono' hnext
    exact ⟨hsingle1, hsingle2, hpfx, hnext, by omega⟩
  · rintro ⟨hsingle1, hsingle2, hpfx, hnext, hdigits⟩
    have hnext' := hmono' hnext
    exact ⟨hsingle1, hsingle2, hpfx, hnext, by omega⟩

/-- Each name of a range continues the one in front of it. -/
theorem isChain_hosts {hr : HostRange} (hcanonical : hr.Canonical) :
    hr.hosts.IsChain fun name name' ↦ nameFollows name name' = true := by
  unfold HostRange.hosts
  split_ifs with hsingle
  · exact List.isChain_singleton _
  · have hend := hcanonical.pfx_end (by simpa using hsingle)
    have hmax := hcanonical.hi_le
    have hlohi := hcanonical.lo_le_hi
    have hrange : ∀ count lo, lo + count ≤ maxHostSuffix + 1 →
        ((List.range' lo count).map fun number ↦ hr.pfx ++ padded hr.width number).IsChain
          fun name name' ↦ nameFollows name name' = true := by
      intro count
      induction count with
      | zero => exact fun _ _ ↦ List.isChain_nil
      | succ count ih =>
        intro lo hbound
        have hlater := ih (lo + 1) (by omega)
        cases count with
        | zero => exact List.isChain_singleton _
        | succ count =>
          rw [List.range'_succ, List.map_cons] at hlater ⊢
          rw [List.range'_succ, List.map_cons]
          refine List.isChain_cons_cons.mpr ⟨?_, hlater⟩
          have hmono : numDigits lo ≤ numDigits (lo + 1) := numDigits_mono (Nat.le_succ lo)
          rw [nameFollows, decide_eq_true_iff, hostRange_numeral hend _ (by omega),
            hostRange_numeral hend _ (by omega),
            HostRange.joins_iff (canonical_hostrangeCreate _ le_rfl (by omega) hend).toValid
              (canonical_hostrangeCreate _ le_rfl (by omega) hend).toValid]
          refine ⟨rfl, rfl, rfl, rfl, ?_⟩
          simp only [HostRange.digits, hostrangeCreate]
          omega
    exact hrange _ _ (by omega)

/-- Canonical and natural ranges, none of which continues the one in front of it, whose names are in
order. -/
structure Tidy (ranges : List HostRange) : Prop where
  kinds : ∀ hr ∈ ranges, hr.Canonical ∧ hr.Natural
  apart : ranges.IsChain fun h1 h2 ↦ ¬h1.Joins h2
  sorted : (hostsOf ranges).Pairwise fun name name' ↦ nameKey name ≤ nameKey name'

/-- The ranges of a tidy array are the longest runs of its names. -/
theorem Tidy.map_hosts_eq_runs {ranges : List HostRange} (h : Tidy ranges) :
    ranges.map HostRange.hosts = (hostsOf ranges).splitBy nameFollows := by
  have hflatten : hostsOf ranges = (ranges.map HostRange.hosts).flatten := rfl
  rw [hflatten]
  refine (List.splitBy_flatten ?_ ?_ ?_).symm
  · rintro hmem
    obtain ⟨hr, hr_mem, hnil⟩ := List.mem_map.mp hmem
    exact (exists_ends (h.kinds hr hr_mem).1 (h.kinds hr hr_mem).2).1 hnil
  · intro names hmem
    obtain ⟨hr, hr_mem, rfl⟩ := List.mem_map.mp hmem
    exact isChain_hosts (h.kinds hr hr_mem).1
  · refine (List.isChain_map _).mpr (h.apart.imp_of_mem_imp fun h1 h2 hmem1 hmem2 hnot ↦ ?_)
    have hne1 := (exists_ends (h.kinds h1 hmem1).1 (h.kinds h1 hmem1).2).1
    have hne2 := (exists_ends (h.kinds h2 hmem2).1 (h.kinds h2 hmem2).2).1
    exact ⟨hne1, hne2,
      Bool.eq_false_iff.mpr
      ((nameFollows_ends (h.kinds h1 hmem1) (h.kinds h2 hmem2) hne1 hne2).not.mpr hnot)⟩

/-- Assumes: canonical and natural ranges that denote the same names in the same order. They are
written alike. -/
theorem normal_eq_of_hosts_eq {hr hr' : HostRange} (hkind : hr.Canonical ∧ hr.Natural)
    (hkind' : hr'.Canonical ∧ hr'.Natural)
    (hhosts : hr'.hosts = hr.hosts) : hr'.normal = hr.normal := by
  obtain ⟨hne, hfirst, hlast⟩ := exists_ends hkind.1 hkind.2
  obtain ⟨hne', hfirst', hlast'⟩ := exists_ends hkind'.1 hkind'.2
  have hsame : HostRange.normal { hr' with hi := hr'.lo } =
      HostRange.normal { hr with hi := hr.lo } := by
    rw [← hfirst, ← hfirst']
    congr 2
    simp only [hhosts]
  have hend : HostRange.normal { hr' with lo := hr'.hi } =
      HostRange.normal { hr with lo := hr.hi } := by
    rw [← hlast, ← hlast']
    congr 2
    simp only [hhosts]
  unfold HostRange.normal at hsame hend ⊢
  simp only [HostRange.mk.injEq] at hsame hend ⊢
  exact ⟨hsame.1, hsame.2.1, hend.2.2.1, hsame.2.2.2.1, hsame.2.2.2.2⟩

/-- Assumes: tidy arrays that denote the same names in some order. They are written alike. -/
theorem Tidy.normal_eq {ranges ranges' : List HostRange} (h : Tidy ranges) (h' : Tidy ranges')
    (hperm : (hostsOf ranges').Perm (hostsOf ranges)) :
    ranges'.map HostRange.normal = ranges.map HostRange.normal := by
  have hhosts : hostsOf ranges' = hostsOf ranges :=
    List.Perm.eq_of_pairwise (fun _ _ _ _ hle hge ↦ nameKey_inj (le_antisymm hle hge)) h'.sorted
      h.sorted hperm
  have hruns : ranges'.map HostRange.hosts = ranges.map HostRange.hosts := by
    rw [h'.map_hosts_eq_runs, hhosts, h.map_hosts_eq_runs]
  have hkinds := h.kinds
  have hkinds' := h'.kinds
  clear h h' hperm hhosts
  induction ranges' generalizing ranges with
  | nil => rw [List.map_eq_nil_iff.mp hruns.symm]
  | cons hr' rest' ih =>
    cases ranges with
    | nil => exact absurd hruns (by simp)
    | cons hr rest =>
      obtain ⟨hfirst, hrest⟩ := List.cons.inj hruns
      obtain ⟨hkind, hothers⟩ := List.forall_mem_cons.mp hkinds
      obtain ⟨hkind', hothers'⟩ := List.forall_mem_cons.mp hkinds'
      rw [List.map_cons, List.map_cons, normal_eq_of_hosts_eq hkind hkind' hfirst,
        ih hrest hothers hothers']

/-- Assumes: a filled list of names without a carry clash, whose sort succeeds. The sorted array is
tidy. -/
theorem tidy_hostlistSort {ndebug : Bool} {qsort : List HostRange → List HostRange} {rounds : ℕ}
    {hl hl' : Hostlist}
    (hqsort : IsSort hostrangeCmp qsort) (hfilled : hl.Filled) (hclash : ¬CarryClash hl.hosts)
    (hsort : hostlistSort ndebug qsort rounds hl = some (.ok hl')) : Tidy hl'.ranges := by
  have hcanonical := hfilled.canonical.ranges_canonical
  have hkinds : ∀ hr ∈ hl.ranges, hr.Canonical ∧ hr.Natural :=
    fun hr hmem ↦ ⟨hcanonical hr hmem, hfilled.natural hr hmem⟩
  rcases hostlistSort_cases hsort with ⟨hshort, rfl⟩ | ⟨settled, hrun, hranges⟩
  · have hsettled : Settled hl'.ranges ∧ hl'.ranges.IsChain fun h1 h2 ↦ ¬h1.Joins h2 := by
      cases hranges : hl'.ranges with
      | nil => exact ⟨List.isChain_nil, List.isChain_nil⟩
      | cons hr rest =>
        rw [hranges] at hshort
        obtain rfl : rest = [] := List.length_eq_zero_iff.mp (by simpa using hshort)
        exact ⟨List.isChain_singleton _, List.isChain_singleton _⟩
    exact ⟨hkinds, hsettled.2, sorted_hostsOf hclash _ hsettled.1 hkinds fun _ h ↦ h⟩
  · have hnatural := natural_settled hqsort hfilled.natural hrun
    rcases coalesce_settles_or_fails hqsort ndebug hcanonical with
      ⟨settled', hhalts, hsettled, hperm, hsettledCanonical, -⟩ | ⟨failure, hfails, -⟩
    · obtain rfl := Except.ok.inj (Halts.unique ⟨rounds, hrun⟩ hhalts)
      obtain ⟨hhosts, hcollapsed⟩ := hostlistCollapse_spec settled hsettledCanonical
      rw [hranges]
      refine ⟨fun hr hmem ↦ ⟨hcollapsed hr hmem, natural_hostlistCollapse settled hnatural hr hmem⟩,
        isChain_hostlistCollapse settled hsettledCanonical, ?_⟩
      rw [hhosts]
      exact sorted_hostsOf hclash settled hsettled (fun hr hmem ↦
        ⟨hsettledCanonical hr hmem, hnatural hr hmem⟩)
        fun name hname ↦ hperm.mem_iff.mp hname
    · exact absurd (Halts.unique ⟨rounds, hrun⟩ hfails) (by simp)

/-- A carry clash depends on which names there are. -/
theorem carryClash_congr {names names' : List (List Char)} (h : ∀ name, name ∈ names ↔
    name ∈ names') :
    CarryClash names ↔ CarryClash names' := by
  unfold CarryClash
  simp only [h]

/-- Assumes: two filled lists of the same names in some order, without a carry clash, whose sorts
succeed. The sorted arrays are written alike. -/
theorem normal_eq_of_filled {ndebug ndebug' : Bool} {qsort qsort' : List HostRange → List HostRange}
    {rounds rounds' : ℕ}
    {hl hl' sorted sorted' : Hostlist} (hqsort : IsSort hostrangeCmp qsort)
    (hqsort' : IsSort hostrangeCmp qsort')
    (hfilled : hl.Filled) (hfilled' : hl'.Filled) (hperm : hl'.hosts.Perm hl.hosts)
    (hclash : ¬CarryClash hl.hosts)
    (hsort : hostlistSort ndebug qsort rounds hl = some (.ok sorted))
    (hsort' : hostlistSort ndebug' qsort' rounds' hl' = some (.ok sorted')) :
    sorted'.ranges.map HostRange.normal = sorted.ranges.map HostRange.normal := by
  have hclash' : ¬CarryClash hl'.hosts := (carryClash_congr fun _ ↦ hperm.mem_iff).not.mpr hclash
  refine (tidy_hostlistSort hqsort hfilled hclash hsort).normal_eq (tidy_hostlistSort hqsort'
    hfilled' hclash' hsort') ?_
  have hkept := (hostlistSort_ok hqsort hfilled.canonical hsort).2
  have hkept' := (hostlistSort_ok hqsort' hfilled'.canonical hsort').2
  exact hkept'.trans (hperm.trans hkept.symm)

end Whatsup
