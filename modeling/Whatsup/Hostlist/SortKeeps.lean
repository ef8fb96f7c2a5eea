import Whatsup.Hostlist.Join
import Whatsup.Hostlist.Runs

/-!
# Sorting any list

`hostlist_sort` on lists that are only known to be sound: their ranges may end anywhere up to
`ULONG_MAX`, and their prefixes may end in digits. The sort may fail on such a list, or not end.
`hostlistSort_sound` says that, if it succeeds, the list denotes the names that it denoted, in some
order.

The loop of `hostlist_coalesce` leaves no neighbours that overlap behind the place where it stands
(`Settling`), and so none at all when it ends. That is why `hostlist_collapse` joins no range from 0
to one that ends at `ULONG_MAX`: the two would overlap (`hostlistCollapse_sound`).
-/

set_option autoImplicit false
set_option relaxedAutoImplicit false

namespace Whatsup

open CLib

/-! ### Names of ranges as they are written -/

/-- A range denotes the names that it denotes as it is written. -/
theorem HostRange.marks_normal (hr : HostRange) : hr.normal.marks = hr.marks := by
  unfold HostRange.marks
  rw [HostRange.hosts_normal, HostRange.singlehost_normal]

/-- Ranges denote the names that they denote as they are written. -/
theorem marksOf_map_normal (ranges : List HostRange) : marksOf (ranges.map HostRange.normal) =
    marksOf ranges := by
  unfold marksOf
  rw [List.flatMap_map]
  exact List.flatMap_congr fun hr _ ↦ hr.marks_normal

/-- Ranges that are written alike denote the same names. -/
theorem marksOf_congr {ranges ranges' : List HostRange}
    (h : ranges'.map HostRange.normal = ranges.map HostRange.normal) : marksOf ranges' =
      marksOf ranges := by
  rw [← marksOf_map_normal, h, marksOf_map_normal]

/-- Assumes: ranges that are written like others in another order. They denote the same names as
often. -/
theorem perm_marksOf_of_normal {ranges ranges' : List HostRange}
    (h : (ranges'.map HostRange.normal).Perm (ranges.map HostRange.normal)) :
    (marksOf ranges').Perm (marksOf ranges) := by
  rw [← marksOf_map_normal, ← marksOf_map_normal ranges]
  exact h.flatMap_right _

/-- Assumes: ranges of one kind. Their names are marked alike. -/
theorem marksOf_eq_map {ranges : List HostRange} {single : Bool}
    (h : ∀ hr ∈ ranges, hr.singlehost = single) :
    marksOf ranges = (hostsOf ranges).map fun name ↦ (name, single) := by
  unfold marksOf hostsOf
  rw [List.map_flatMap]
  refine List.flatMap_congr fun hr hmem ↦ ?_
  rw [HostRange.marks, h hr hmem]

/-! ### One round of `hostlist_coalesce` -/

/-- What `hostrange_intersect` finds of two ranges, as it leaves them: no common numbers of ranges
that do not overlap, and those of ranges that do, which have one width then. -/
def Intersected (h1 h2 g1 g2 : HostRange) : Option HostRange → Prop
  | none => ¬h1.Overlaps h2
  | some new => h1.Overlaps h2 ∧ g1.width = g2.width ∧
      new = hostrangeCreate g1.pfx g2.lo (min g1.hi g2.hi) g1.width

/-- Assumes: sound ranges that are not single hosts. Behind the assertion of `hostrange_intersect`
the ranges are kept, and their common numbers are found. -/
theorem hostrangeCommon_sound {h1 h2 g1 g2 : HostRange} {common : Option HostRange}
    (hsound1 : h1.Sound)
    (hsound2 : h2.Sound) (hsingle1 : h1.singlehost = false) (hsingle2 : h2.singlehost = false)
    (h : hostrangeCommon h1 h2 = (common, g1, g2)) : KeptSound h1 h2 g1 g2 ∧
    Intersected h1 h2 g1 g2 common := by
  unfold hostrangeCommon at h
  by_cases hcommon : hostrangePrefixCmp h1 h2 = 0 ∧ h2.lo < h1.hi
  · obtain ⟨hpfx, hsame⟩ := hostrangePrefixCmp_eq_zero_iff.mp hcommon.1
    have hkept := keptSound_hostrangeWidthCombine hsound1 hsound2 hsame
    rw [if_pos hcommon] at h
    simp only at h
    cases hcombine : (hostrangeWidthCombine h1 h2).1 with
    | false =>
      rw [hcombine, if_neg (by decide)] at h
      obtain ⟨rfl, rfl, rfl⟩ : none = common ∧ _ = g1 ∧ _ = g2 := by
        simpa only [Prod.mk.injEq] using h
      exact ⟨hkept, fun hoverlap ↦ absurd (hoverlap.2.2.2.2.symm.trans hcombine) (by decide)⟩
    | true =>
      obtain ⟨width, hresult, -, -⟩ := widthEquiv_of_eq_true hcombine
      have hsingle : (hostrangeWidthCombine h1 h2).2.1.singlehost = false := hsingle1
      rw [hcombine, if_pos rfl, hostrangeCopy, if_neg (by rw [hsingle]; decide)] at h
      obtain ⟨rfl, rfl, rfl⟩ : _ = common ∧ _ = g1 ∧ _ = g2 := by simpa only [Prod.mk.injEq] using h
      refine ⟨hkept, ⟨hsingle1, hsingle2, hpfx, hcommon.2, hcombine⟩, ?_, ?_⟩
      · unfold hostrangeWidthCombine
        rw [hresult]
      · unfold hostrangeCreate
        congr 1
        split_ifs with hless
        · exact (min_eq_right hless.le).symm
        · exact (min_eq_left (not_lt.mp hless)).symm
  · rw [if_neg hcommon] at h
    obtain ⟨rfl, rfl, rfl⟩ : none = common ∧ h1 = g1 ∧ h2 = g2 := by
      simpa only [Prod.mk.injEq] using h
    refine ⟨⟨rfl, rfl, hsound1, hsound2⟩, fun hoverlap ↦ hcommon ⟨?_, hoverlap.2.2.2.1⟩⟩
    exact hostrangePrefixCmp_eq_zero_iff.mpr ⟨hoverlap.2.2.1, hsingle1.trans hsingle2.symm⟩

/-- Assumes: sound ranges. If `hostrange_intersect` succeeds, the ranges are kept, and their common
numbers are found. -/
theorem hostrangeIntersect_sound {ndebug : Bool} {h1 h2 g1 g2 : HostRange}
    {common : Option HostRange}
    (hsound1 : h1.Sound) (hsound2 : h2.Sound)
    (h : hostrangeIntersect ndebug h1 h2 = .ok (common, g1, g2)) :
    KeptSound h1 h2 g1 g2 ∧ Intersected h1 h2 g1 g2 common := by
  unfold hostrangeIntersect at h
  by_cases hsingle : (h1.singlehost || h2.singlehost) = true
  · rw [if_pos hsingle] at h
    obtain ⟨rfl, rfl, rfl⟩ : none = common ∧ h1 = g1 ∧ h2 = g2 := by
      simpa only [Except.ok.injEq, Prod.mk.injEq] using h
    refine ⟨⟨rfl, rfl, hsound1, hsound2⟩, fun hoverlap ↦ ?_⟩
    rw [hoverlap.1, hoverlap.2.1] at hsingle
    exact absurd hsingle (by decide)
  · obtain ⟨hsingle1, hsingle2⟩ : h1.singlehost = false ∧ h2.singlehost = false := by
      simpa using hsingle
    rw [if_neg hsingle] at h
    obtain ⟨f1, f2, hkept, hcommon⟩ : ∃ f1 f2, KeptSound h1 h2 f1 f2 ∧ hostrangeCommon f1 f2 =
        (common, g1, g2) := by
      cases ndebug with
      | true => exact ⟨h1, h2, ⟨rfl, rfl, hsound1, hsound2⟩, Except.ok.inj h⟩
      | false =>
        simp only [Bool.false_eq_true, if_false] at h
        split_ifs at h
        exact ⟨_, _, keptSound_hostrangeCmp hsound1 hsound2, Except.ok.inj h⟩
    obtain ⟨hkept', hfound⟩ := hostrangeCommon_sound hkept.sound1 hkept.sound2
      ((congrArg HostRange.singlehost hkept.normal1).trans hsingle1)
      ((congrArg HostRange.singlehost hkept.normal2).trans hsingle2) hcommon
    have hsame := HostRange.overlaps_congr hkept.normal1 hkept.normal2
    refine ⟨⟨hkept'.normal1.trans hkept.normal1, hkept'.normal2.trans hkept.normal2, hkept'.sound1,
      hkept'.sound2⟩, ?_⟩
    cases common with
    | none => exact hsame.not.mp hfound
    | some new => exact ⟨hsame.mp hfound.1, hfound.2⟩

/-- Assumes: overlapping ranges of one width, the second with its bounds in order, and their common
numbers. If the split does not fail, the ranges are in order, and their pieces take their place. -/
theorem coalesceSplit_again {front back : List HostRange} {h1 h2 : HostRange}
    {state' : ℕ × List HostRange}
    (hlt : h2.lo < h1.hi) (hle2 : h2.lo ≤ h2.hi)
    (h : coalesceSplit front h1 h2 (hostrangeCreate h1.pfx h2.lo (min h1.hi h2.hi) h1.width) back =
      .again state') :
    h1.lo ≤ h2.lo ∧
      state' = ((front ++ (splitRanges h1 h2 ++ back)).length - 1,
        front ++ (splitRanges h1 h2 ++ back)) := by
  generalize hnew : hostrangeCreate h1.pfx h2.lo (min h1.hi h2.hi) h1.width = new at h
  have hnew_lo : new.lo = h2.lo := by rw [← hnew]; rfl
  have hnew_hi : new.hi = min h1.hi h2.hi := by rw [← hnew]; rfl
  have hcommon : new.lo ≤ new.hi := by omega
  have hnext : (if new.hi < h1.hi then { h2 with hi := h1.hi } else h2) =
      { h2 with hi := max h1.hi h2.hi } := by
    split_ifs with hless
    · rw [max_eq_left (by omega)]
    · rw [max_eq_right (by omega)]
  unfold coalesceSplit at h
  simp only [hnext, if_pos hcommon] at h
  split_ifs at h with hempty
  obtain rfl := Next.again.inj h
  constructor
  · unfold hostrangeEmpty at hempty
    simp only [hnew_lo, Bool.or_eq_true, decide_eq_true_eq, not_or] at hempty
    omega
  · unfold splitRanges
    rw [hnew, hnew_lo, hnew_hi]
    simp

/-- Assumes: sound ranges of one width that overlap, in order. Their pieces are sound and denote the
names of both. -/
theorem splitRanges_sound {h1 h2 : HostRange} (hsound1 : h1.Sound) (hsound2 : h2.Sound)
    (hoverlap : h1.Overlaps h2)
    (hlo : h1.lo ≤ h2.lo) (hwidth : h1.width = h2.width) :
    (∀ hr ∈ splitRanges h1 h2, hr.Sound) ∧
    (marksOf (splitRanges h1 h2)).Perm (marksOf [h1, h2]) := by
  have hmax1 := hsound1.hi_le
  have hmax2 := hsound2.hi_le
  constructor
  · intro hr hmem
    have hnot : hr.singlehost = true → hr.lo = 0 ∧ hr.hi = 0 ∧ hr.width = 0 := fun hsingle ↦
      absurd ((hoverlap.piece hwidth hmem).2.1.symm.trans hsingle) (by decide)
    rcases mem_splitRanges hmem with rfl | ⟨number, -, hhigh, rfl⟩ | rfl
    · exact ⟨⟨hnot, hsound1.lo_le, hsound2.lo_le⟩, hlo⟩
    · have hnumber : number ≤ ulongMax := hhigh.trans ((min_le_left _ _).trans hmax1)
      exact ⟨⟨hnot, hnumber, hnumber⟩, le_rfl⟩
    · exact ⟨⟨hnot, (min_le_left _ _).trans hmax1, max_le hmax1 hmax2⟩, min_le_max⟩
  · have hpair : ∀ hr ∈ [h1, h2], hr.singlehost = false :=
      List.forall_mem_cons.mpr ⟨hoverlap.1, List.forall_mem_singleton.mpr hoverlap.2.1⟩
    rw [marksOf_eq_map fun hr hmem ↦ (hoverlap.piece hwidth hmem).2.1, marksOf_eq_map hpair]
    exact (hoverlap.perm_hostsOf hlo hsound2.lo_le_hi hwidth).map _

/-! ### The loop of `hostlist_coalesce` -/

/-- The loop at an index of an array that denotes given names: no neighbours from the index on
overlap. -/
structure Settling (marks : List (List Char × Bool)) (state : ℕ × List HostRange) : Prop where
  sound : ∀ hr ∈ state.2, hr.Sound
  perm : (marksOf state.2).Perm marks
  apart : (state.2.drop state.1).IsChain fun h1 h2 ↦ ¬h1.Overlaps h2

/-- At the end of an array there are no neighbours. -/
theorem settling_end {marks : List (List Char × Bool)} {ranges : List HostRange}
    (hsound : ∀ hr ∈ ranges, hr.Sound)
    (hperm : (marksOf ranges).Perm marks) : Settling marks (ranges.length - 1, ranges) := by
  refine ⟨hsound, hperm, ?_⟩
  have hshort : (ranges.drop (ranges.length - 1)).length ≤ 1 := by
    rw [List.length_drop]
    omega
  cases hlast : ranges.drop (ranges.length - 1) with
  | nil => exact List.isChain_nil
  | cons hr rest =>
    rw [hlast] at hshort
    obtain rfl : rest = [] := List.length_eq_zero_iff.mp (by simpa using hshort)
    exact List.isChain_singleton hr

/-- A round of `hostlist_coalesce` that goes on passes two neighbours that do not overlap, or splits
two that do. -/
theorem settling_coalesceBody {ndebug : Bool} {marks : List (List Char × Bool)}
    {state state' : ℕ × List HostRange}
    (hsettling : Settling marks state) (h : coalesceBody ndebug state = .again state') :
      Settling marks state' := by
  obtain ⟨i, ranges⟩ := state
  obtain ⟨hsound, hperm, hapart⟩ := hsettling
  cases i with
  | zero => exact absurd h (by simp [coalesceBody])
  | succ i =>
    simp only at hsound hperm hapart
    rw [coalesceBody] at h
    split at h
    · rename_i hprev hnext back hdrop
      have hranges : ranges = ranges.take i ++ hprev :: hnext :: back := by
        rw [← hdrop]
        exact (List.take_append_drop i ranges).symm
      have hlength : (ranges.take i).length = i := by
        have hcut := congrArg List.length hdrop
        rw [List.length_drop, List.length_cons] at hcut
        rw [List.length_take]
        omega
      have hlater : (hnext :: back).IsChain fun h1 h2 ↦ ¬h1.Overlaps h2 := by
        have hone : ranges.drop (i + 1) = hnext :: back := by
          rw [← List.drop_drop, hdrop]
          rfl
        rwa [hone] at hapart
      generalize ranges.take i = front at h hranges hlength
      rw [hranges] at hsound hperm
      obtain ⟨hfront, hprev_sound, hnext_sound, hback⟩ : (∀ hr ∈ front, hr.Sound) ∧ hprev.Sound ∧
        hnext.Sound ∧
          ∀ hr ∈ back, hr.Sound := by
            simpa only [List.forall_mem_append, List.forall_mem_cons] using hsound
      split at h
      · exact absurd h (by simp)
      · rename_i g1 g2 hintersect
        obtain ⟨hkept, hnot⟩ := hostrangeIntersect_sound hprev_sound hnext_sound hintersect
        obtain rfl := Next.again.inj h
        refine ⟨?_, ?_, ?_⟩
        · simpa only [List.forall_mem_append, List.forall_mem_cons] using
            ⟨hfront, hkept.sound1, hkept.sound2, hback⟩
        · refine (List.Perm.of_eq (marksOf_congr ?_)).trans hperm
          simp only [List.map_append, List.map_cons, hkept.normal1, hkept.normal2]
        · change ((front ++ g1 :: g2 :: back).drop i).IsChain _
          rw [← hlength, List.drop_left]
          refine List.isChain_cons_cons.mpr
            ⟨(HostRange.overlaps_congr hkept.normal1 hkept.normal2).not.mpr hnot, ?_⟩
          cases back with
          | nil => exact List.isChain_singleton g2
          | cons next rest =>
            obtain ⟨hpair, hrest⟩ := List.isChain_cons_cons.mp hlater
            exact List.isChain_cons_cons.mpr ⟨(HostRange.overlaps_congr hkept.normal2 rfl).not.mpr
              hpair, hrest⟩
      · rename_i new g1 g2 hintersect
        obtain ⟨hkept, hoverlap, hwidth, rfl⟩ :=
          hostrangeIntersect_sound hprev_sound hnext_sound hintersect
        have hoverlap' : g1.Overlaps g2 :=
          (HostRange.overlaps_congr hkept.normal1 hkept.normal2).mpr hoverlap
        obtain ⟨hlo, rfl⟩ := coalesceSplit_again hoverlap'.2.2.2.1 hkept.sound2.lo_le_hi h
        obtain ⟨hpieces, hsame⟩ := splitRanges_sound hkept.sound1 hkept.sound2 hoverlap' hlo hwidth
        refine settling_end ?_ ?_
        · simpa only [List.forall_mem_append] using ⟨hfront, hpieces, hback⟩
        · have hpair : marksOf [g1, g2] = marksOf [hprev, hnext] :=
            marksOf_congr (by simp only [List.map_cons, hkept.normal1, hkept.normal2])
          refine List.Perm.trans ?_ hperm
          rw [marksOf_append, marksOf_append, marksOf_append, show hprev :: hnext :: back =
            [hprev, hnext] ++ back from rfl,
            marksOf_append, ← hpair]
          exact (hsame.append_right _).append_left _
    · exact absurd h (by simp)

/-- Assumes: sound ranges. The array that `hostlist_coalesce` leaves is sound, denotes the same
names, and has no neighbours that overlap. -/
theorem coalesce_sound {ndebug : Bool} {rounds : ℕ} {ranges settled : List HostRange}
    (hsound : ∀ hr ∈ ranges, hr.Sound)
    (hrun : runLoop (coalesceBody ndebug) rounds (ranges.length - 1, ranges) = some (.ok settled)) :
    Settling (marksOf ranges) (0, settled) := by
  have hkeeps : ∀ state state', Settling (marksOf ranges) state →
      coalesceBody ndebug state = .again state' → Settling (marksOf ranges) state' :=
    fun _ _ ↦ settling_coalesceBody
  have hend : ∀ state value, Settling (marksOf ranges) state →
      coalesceBody ndebug state = .result value → Settling (marksOf ranges) (0, value) := by
    rintro ⟨i, array⟩ value hsettling hresult
    cases i with
    | zero => exact Next.result.inj hresult ▸ hsettling
    | succ i =>
      rw [coalesceBody] at hresult
      split at hresult
      · split at hresult
        · exact absurd hresult (by simp)
        · exact absurd hresult (by simp)
        · unfold coalesceSplit at hresult
          simp only at hresult
          split_ifs at hresult
      · exact absurd hresult (by simp)
  exact result_of_runLoop hkeeps hend rounds _ settled (settling_end hsound (List.Perm.refl _)) hrun

/-! ### `hostlist_collapse` and `hostlist_sort` -/

/-- Assumes: sound ranges that do not overlap. If they are joined, the joined range is sound and
denotes the names of both. -/
theorem HostRange.Joins.sound {h1 h2 : HostRange} (hjoins : h1.Joins h2) (hsound1 : h1.Sound)
    (hsound2 : h2.Sound)
    (hapart : ¬h1.Overlaps h2) :
    HostRange.Sound { (hostrangeWidthCombine h1 h2).2.1 with hi := h2.hi } ∧
      HostRange.marks { (hostrangeWidthCombine h1 h2).2.1 with hi := h2.hi } = h1.marks ++
          h2.marks := by
  obtain ⟨hpfxCmp, hnext, hcombine⟩ := hjoins
  obtain ⟨hpfx, hsame⟩ := hostrangePrefixCmp_eq_zero_iff.mp hpfxCmp
  -- a range from 0 would overlap one that ends at the largest number
  have hbehind : h1.hi = ulongMax → h2.lo ≠ 0 := by
    intro hmax hzero
    have hsingle : h1.singlehost = false := by
      by_contra hsingle
      have hhi := (hsound1.single (by simpa using hsingle)).2.1
      exact absurd (hhi.symm.trans hmax) (by decide)
    exact hapart ⟨hsingle, hsame ▸ hsingle, hpfx, by rw [hmax, hzero]; decide, hcombine⟩
  obtain ⟨hsingle, hle, hhosts⟩ := hosts_join_of_combine hsound1.lo_le_hi hsound2.lo_le_hi
    (fun h ↦ (hsound2.single h).1) hbehind hpfxCmp hnext hcombine
  exact ⟨⟨⟨fun h ↦ absurd (hsingle.symm.trans h) (by decide), hsound1.lo_le, hsound2.hi_le⟩, hle⟩,
    HostRange.marks_join hsingle (hsame.symm.trans hsingle) hsingle hhosts⟩

/-- The key of a range with another end and a width that is combined. -/
theorem key_hostrangeWidthCombine (h1 h2 : HostRange) (hi : ℕ) :
    HostRange.key { (hostrangeWidthCombine h1 h2).2.1 with hi := hi } = h1.key := by
  have hkey : HostRange.key { (hostrangeWidthCombine h1 h2).2.1 with hi := hi } =
      (hostrangeWidthCombine h1 h2).2.1.key := rfl
  rw [hkey, ← HostRange.key_normal, (normal_hostrangeWidthCombine h1 h2).1, HostRange.key_normal]

/-- Assumes: sound ranges of which no neighbours overlap. Joining neighbours keeps the names, and
leaves sound ranges; the first one has the key that it had. -/
theorem hostlistCollapse_sound (ranges : List HostRange) (hsound : ∀ hr ∈ ranges, hr.Sound)
    (hapart : ranges.IsChain fun h1 h2 ↦ ¬h1.Overlaps h2) :
    marksOf (hostlistCollapse ranges) = marksOf ranges ∧
    (∀ hr ∈ hostlistCollapse ranges, hr.Sound) ∧
      (hostlistCollapse ranges).head?.map HostRange.key = ranges.head?.map HostRange.key := by
  induction ranges with
  | nil => exact ⟨rfl, hsound, rfl⟩
  | cons hprev rest ih =>
    obtain ⟨hprev_sound, hrest⟩ := List.forall_mem_cons.mp hsound
    obtain ⟨hmarks, hlater, hhead⟩ := ih hrest hapart.tail
    rw [hostlistCollapse]
    cases hcollapsed : hostlistCollapse rest with
    | nil =>
      rw [hcollapsed] at hmarks
      exact ⟨by rw [marksOf_cons, marksOf_cons, hmarks],
        List.forall_mem_singleton.mpr hprev_sound, rfl⟩
    | cons hnext tail =>
      rw [hcollapsed] at hmarks hlater hhead
      obtain ⟨hnext_sound, htail⟩ := List.forall_mem_cons.mp hlater
      have hkept : marksOf (hprev :: hnext :: tail) = marksOf (hprev :: rest) := by
        rw [marksOf_cons, hmarks, marksOf_cons]
      have hapart' : ¬hprev.Overlaps hnext := by
        cases rest with
        | nil => exact absurd hhead (by simp)
        | cons next more =>
          rw [HostRange.overlaps_congr_key (Option.some.inj hhead)]
          exact (List.isChain_cons_cons.mp hapart).1
      simp only
      split_ifs with hadjacent hcombine
      · obtain ⟨hjoined, hboth⟩ :=
          HostRange.Joins.sound ⟨hadjacent.1, hadjacent.2, hcombine⟩ hprev_sound hnext_sound
          hapart'
        refine ⟨?_, List.forall_mem_cons.mpr ⟨hjoined, htail⟩,
          congrArg some (key_hostrangeWidthCombine hprev hnext hnext.hi)⟩
        rw [← hkept, marksOf_cons, marksOf_cons, marksOf_cons, ← List.append_assoc]
        exact congrArg (· ++ marksOf tail) hboth
      · have hsame := (hostrangePrefixCmp_eq_zero_iff.mp hadjacent.1).2
        have hwritten := keptSound_hostrangeWidthCombine hprev_sound hnext_sound hsame
        refine ⟨?_,
          List.forall_mem_cons.mpr ⟨hwritten.sound1,
          List.forall_mem_cons.mpr ⟨hwritten.sound2, htail⟩⟩,
          congrArg some (key_hostrangeWidthCombine hprev hnext _)⟩
        rw [← hkept]
        exact marksOf_congr (by simp only [List.map_cons, hwritten.normal1, hwritten.normal2])
      · exact ⟨hkept, List.forall_mem_cons.mpr ⟨hprev_sound, hlater⟩, rfl⟩

/-- A sort leaves the count as it is. -/
theorem nhosts_hostlistSort {ndebug : Bool} {qsort : List HostRange → List HostRange} {rounds : ℕ}
    {hl hl' : Hostlist} (hsort : hostlistSort ndebug qsort rounds hl = some (.ok hl')) :
      hl'.nhosts = hl.nhosts := by
  unfold hostlistSort at hsort
  split_ifs at hsort
  · exact congrArg Hostlist.nhosts (Except.ok.inj (Option.some.inj hsort)).symm
  · obtain ⟨outcome, -, hok⟩ := Option.map_eq_some_iff.mp hsort
    cases outcome with
    | error failure => exact absurd hok (by simp [Except.map])
    | ok settled =>
      obtain rfl := Except.ok.inj hok
      rfl

/-- Assumes: a sound list whose sort succeeds. It is sound afterwards, and denotes the names that it
denoted, in some order. -/
theorem hostlistSort_sound {ndebug : Bool} {qsort : List HostRange → List HostRange} {rounds : ℕ}
    {hl hl' : Hostlist} (hqsort : IsSort hostrangeCmp qsort) (hsound : hl.Sound)
    (hsort : hostlistSort ndebug qsort rounds hl = some (.ok hl')) : hl'.Sound ∧
    hl'.marks.Perm hl.marks := by
  rcases hostlistSort_cases hsort with ⟨-, rfl⟩ | ⟨settled, hrun, hranges⟩
  · exact ⟨hsound, List.Perm.refl _⟩
  · have hsorted : ∀ hr ∈ qsort hl.ranges, hr.Sound :=
      (hqsort.compared hl.ranges).forall_mem (fun _ _ hleft hright ↦
        ⟨(keptSound_hostrangeCmp hleft hright).sound1,
          (keptSound_hostrangeCmp hleft hright).sound2⟩) hsound.ranges_sound
    obtain ⟨hsettled, hperm, hapart⟩ := coalesce_sound hsorted hrun
    obtain ⟨hmarks, hcollapsed, -⟩ := hostlistCollapse_sound settled hsettled hapart
    have hsame : hl'.marks.Perm hl.marks := by
      rw [Hostlist.marks, hranges, hmarks]
      exact hperm.trans (perm_marksOf_of_normal (perm_normal_qsort hqsort hl.ranges))
    refine ⟨⟨hranges ▸ hcollapsed, ?_⟩, hsame⟩
    have hlength := hsame.length_eq
    rw [Hostlist.length_marks, Hostlist.length_marks] at hlength
    rw [nhosts_hostlistSort hsort, hsound.nhosts_eq, hlength]

end Whatsup
