import Mathlib.Data.List.Chain
import Mathlib.Data.List.Perm.Basic
import Whatsup.Hostlist.Sort

/-!
# Splitting overlapping ranges

What `hostlist_coalesce` works towards is an array in order in which no neighbours overlap
(`Settled`). This file has the facts about one split: `splitRanges` denotes the hosts of the two
ranges that are split (`Splittable.perm_hostsOf`) and is itself settled (`Splittable.settled`).

A split moves the start of the second range up, and with more digits its key changes. The key stays
in order with what follows unless a zero-padded range follows whose width it reaches. `PaddingClash`
is the condition on an array under which that happens in the course of a sort: two ranges of one
prefix, with no zero-padded range between them and a zero-padded third one, both reach the numbers
that fill the width of the third. `Settled.not_paddingClash` says that a settled array has none,
`Splittable.paddingClash_of_disorder` that a split that leaves its place in the order shows one, and
`Splittable.paddingClash_iff` that any other split neither makes nor removes one.
-/

set_option autoImplicit false
set_option relaxedAutoImplicit false

namespace Whatsup

open CLib

/-! ### Settled arrays -/

/-- An array in order in which no neighbours overlap. -/
def Settled (ranges : List HostRange) : Prop :=
  ranges.IsChain fun h1 h2 ↦ h1.key ≤ h2.key ∧ ¬h1.Overlaps h2

/-- A settled array is in order. -/
theorem Settled.pairwise {ranges : List HostRange} (h : Settled ranges) :
    ranges.Pairwise fun h1 h2 ↦ h1.key ≤ h2.key := by
  have hchain : ranges.IsChain fun h1 h2 ↦ h1.key ≤ h2.key := h.imp fun _ _ hpair ↦ hpair.1
  rw [← List.isChain_map (R := (· ≤ ·)) HostRange.key] at hchain
  exact List.pairwise_map.mp (List.isChain_iff_pairwise.mp hchain)

/-- Assumes: ranges as they are written. Whether they are settled depends on them alone. -/
theorem settled_congr {ranges ranges' : List HostRange}
    (h : ranges'.map HostRange.normal = ranges.map HostRange.normal) :
    Settled ranges' ↔ Settled ranges := by
  have hnormal : ∀ list : List HostRange, Settled list ↔ Settled (list.map HostRange.normal) := by
    intro list
    unfold Settled
    rw [List.isChain_map]
    refine List.IsChain.iff fun h1 h2 ↦ ?_
    rw [HostRange.key_normal, HostRange.key_normal, HostRange.overlaps_congr h1.normal_normal
      h2.normal_normal]
  rw [hnormal, h, ← hnormal]

/-! ### The pieces of a split -/

/-- Two ranges that are split: canonical, overlapping, in order and of one width. -/
structure Splittable (h1 h2 : HostRange) : Prop where
  canonical1 : h1.Canonical
  canonical2 : h2.Canonical
  overlaps : h1.Overlaps h2
  lo_le : h1.lo ≤ h2.lo
  width_eq : h1.width = h2.width

/-- The numbers of the ranges that a split inserts. -/
def insertedNumbers (lo hi : ℕ) : List ℕ :=
  (List.range' lo (hi + 1 - lo)).flatMap fun number ↦
    (if lo < number then [number] else []) ++ if number < hi then [number] else []

/-- The ranges that a split inserts are those of the inserted numbers. -/
theorem insertedRanges_eq (pfx : List Char) (lo hi width : ℕ) :
    insertedRanges (hostrangeCreate pfx lo hi width) lo hi =
      (insertedNumbers lo hi).map fun number ↦ hostrangeCreate pfx number number width := by
  unfold insertedRanges insertedNumbers
  rw [List.map_flatMap]
  refine List.flatMap_congr fun number _ ↦ ?_
  rw [List.map_append, apply_ite (List.map _), apply_ite (List.map _)]
  rfl

/-- An inserted number is one of the common numbers. -/
theorem mem_insertedNumbers {lo hi number : ℕ} (h : number ∈ insertedNumbers lo hi) :
    lo ≤ number ∧ number ≤ hi := by
  obtain ⟨n, hn, hmem⟩ := List.mem_flatMap.mp h
  have hbounds := List.mem_range'_1.mp hn
  have heq : number = n := by
    rcases List.mem_append.mp hmem with hfirst | hsecond
    · split_ifs at hfirst with hlt
      · exact List.mem_singleton.mp hfirst
      · exact absurd hfirst List.not_mem_nil
    · split_ifs at hsecond with hlt
      · exact List.mem_singleton.mp hsecond
      · exact absurd hsecond List.not_mem_nil
  omega

/-- The inserted numbers are in order. -/
theorem pairwise_insertedNumbers (lo hi : ℕ) : (insertedNumbers lo hi).Pairwise (· ≤ ·) := by
  refine List.pairwise_flatMap.mpr ⟨fun number _ ↦ ?_, ?_⟩
  · split_ifs <;> simp
  · refine (List.pairwise_lt_range' 1).imp fun {a b} hlt x hx y hy ↦ ?_
    have hsame : ∀ n z : ℕ, z ∈ (if lo < n then [n] else []) ++ (if n < hi then [n] else []) →
        z = n := by
      intro n z hz
      split_ifs at hz <;> simp at hz <;> exact hz
    rw [hsame a x hx, hsame b y hy]
    exact hlt.le

/-- How often a number is inserted: once for the end of each of the two ranges it lies between. -/
theorem count_insertedNumbers (lo hi number : ℕ) :
    (insertedNumbers lo hi).count number =
      (if lo < number ∧ number ≤ hi then 1 else 0) + if lo ≤ number ∧
      number < hi then 1 else 0 := by
  have hperm : (insertedNumbers lo hi).Perm
      ((List.range' lo (hi + 1 - lo)).filter (fun n ↦ decide (lo < n)) ++
        (List.range' lo (hi + 1 - lo)).filter fun n ↦ decide (n < hi)) := by
    have hfilter : ∀ (p : ℕ → Prop) [DecidablePred p] (list : List ℕ),
        (list.flatMap fun n ↦ if p n then [n] else []) = list.filter fun n ↦ decide (p n) := by
      intro p _ list
      induction list with
      | nil => rfl
      | cons head tail ih =>
        rw [List.flatMap_cons, ih, List.filter_cons]
        by_cases hp : p head <;> simp [hp]
    rw [← hfilter, ← hfilter]
    exact (List.flatMap_append_perm _ _ _).symm
  have hcount : ∀ (p : ℕ → Bool), ((List.range' lo (hi + 1 - lo)).filter p).count number =
      if p number = true then (if lo ≤ number ∧ number < lo + (hi + 1 - lo) then 1 else 0)
          else 0 := by
    intro p
    split_ifs with hp hrange
    · rw [List.count_filter hp, List.count_range_1', if_pos hrange]
    · rw [List.count_filter hp, List.count_range_1', if_neg hrange]
    · exact List.count_eq_zero.mpr fun hmem ↦ hp (List.mem_filter.mp hmem).2
  rw [List.perm_iff_count.mp hperm number, List.count_append, hcount, hcount]
  simp only [decide_eq_true_eq]
  split_ifs <;> omega

/-- The members of a split. -/
theorem mem_splitRanges {h1 h2 hr : HostRange} (h : hr ∈ splitRanges h1 h2) :
    hr = { h1 with hi := h2.lo } ∨
      (∃ number, h2.lo ≤ number ∧ number ≤ min h1.hi h2.hi ∧
        hr = hostrangeCreate h1.pfx number number h1.width) ∨
      hr = { h2 with lo := min h1.hi h2.hi, hi := max h1.hi h2.hi } := by
  unfold splitRanges at h
  rw [insertedRanges_eq] at h
  rcases List.mem_cons.mp h with hfirst | hlater
  · exact Or.inl hfirst
  · rcases List.mem_append.mp hlater with hinserted | hlast
    · obtain ⟨number, hnumber, rfl⟩ := List.mem_map.mp hinserted
      have hbounds := mem_insertedNumbers hnumber
      exact Or.inr (Or.inl ⟨number, hbounds.1, hbounds.2, rfl⟩)
    · exact Or.inr (Or.inr (List.mem_singleton.mp hlast))

/-- Assumes: two ranges that are split. The pieces are canonical ranges of their prefix and
width. -/
theorem Splittable.piece {h1 h2 hr : HostRange} (h : Splittable h1 h2)
    (hmem : hr ∈ splitRanges h1 h2) :
    hr.Canonical ∧ hr.pfx = h1.pfx ∧ hr.singlehost = false ∧ hr.width = h1.width := by
  obtain ⟨hsingle1, hsingle2, hpfx, hlt, -⟩ := h.overlaps
  have hmax1 := h.canonical1.hi_le
  have hmax2 := h.canonical2.hi_le
  have hle1 := h.canonical1.lo_le_hi
  have hle2 := h.canonical2.lo_le_hi
  have hvalid : ∀ n, n ≤ maxHostSuffix → n < ulongMax := fun n hn ↦ lt_of_le_of_lt hn (by decide)
  have hlo := h.lo_le
  have hmaxLo : h2.lo ≤ maxHostSuffix := by omega
  have hmaxHi : max h1.hi h2.hi ≤ maxHostSuffix := max_le hmax1 hmax2
  have hminMax : min h1.hi h2.hi ≤ max h1.hi h2.hi := min_le_max
  have hnot1 : h1.singlehost = true → False := fun hs ↦ absurd (hsingle1.symm.trans hs) (by decide)
  have hnot2 : h2.singlehost = true → False := fun hs ↦ absurd (hsingle2.symm.trans hs) (by decide)
  rcases mem_splitRanges hmem with rfl | ⟨number, hlow, hhigh, rfl⟩ | rfl
  · exact ⟨⟨⟨hlo, hvalid _ hmaxLo, fun hs ↦ (hnot1 hs).elim⟩, hmaxLo, h.canonical1.pfx_end,
      fun hs ↦ (hnot1 hs).elim⟩, rfl, hsingle1, rfl⟩
  · exact ⟨canonical_hostrangeCreate h1.width le_rfl (by omega)
      (h.canonical1.pfx_end hsingle1), rfl,
      rfl, rfl⟩
  · exact ⟨⟨⟨hminMax, hvalid _ hmaxHi, fun hs ↦ (hnot2 hs).elim⟩, hmaxHi, h.canonical2.pfx_end,
      fun hs ↦ (hnot2 hs).elim⟩, hpfx.symm, hsingle2, h.width_eq.symm⟩

/-- The numbers of a range. -/
def HostRange.numbers (hr : HostRange) : List ℕ :=
  List.range' hr.lo (hr.hi + 1 - hr.lo)

/-- Assumes: ranges of one prefix and width. They denote the names of their numbers. -/
theorem hostsOf_eq_map {ranges : List HostRange} {pfx : List Char} {width : ℕ}
    (h : ∀ hr ∈ ranges, hr.pfx = pfx ∧ hr.singlehost = false ∧ hr.width = width) :
    hostsOf ranges =
      (ranges.flatMap HostRange.numbers).map fun number ↦ pfx ++ padded width number := by
  unfold hostsOf
  rw [List.map_flatMap]
  refine List.flatMap_congr fun hr hmem ↦ ?_
  obtain ⟨rfl, hsingle, rfl⟩ := h hr hmem
  rw [HostRange.hosts, if_neg (by rw [hsingle]; decide)]
  rfl

/-- Assumes: ranges of one width that overlap. The pieces of their split are ranges of their prefix
and width. -/
theorem HostRange.Overlaps.piece {h1 h2 hr : HostRange} (h : h1.Overlaps h2)
    (hwidth : h1.width = h2.width)
    (hmem : hr ∈ splitRanges h1 h2) :
    hr.pfx = h1.pfx ∧ hr.singlehost = false ∧ hr.width = h1.width := by
  obtain ⟨hsingle1, hsingle2, hpfx, -, -⟩ := h
  rcases mem_splitRanges hmem with rfl | ⟨number, -, -, rfl⟩ | rfl
  · exact ⟨rfl, hsingle1, rfl⟩
  · exact ⟨rfl, rfl, rfl⟩
  · exact ⟨hpfx.symm, hsingle2, hwidth.symm⟩

/-- Assumes: ranges of one width that overlap, in order, the second with its bounds in order. The
pieces of their split denote the hosts of both. -/
theorem HostRange.Overlaps.perm_hostsOf {h1 h2 : HostRange} (h : h1.Overlaps h2)
    (hlo : h1.lo ≤ h2.lo)
    (hle2 : h2.lo ≤ h2.hi) (hwidth : h1.width = h2.width) :
    (hostsOf (splitRanges h1 h2)).Perm (hostsOf [h1, h2]) := by
  have hpieces := fun (hr : HostRange) (hmem : hr ∈ splitRanges h1 h2) ↦ h.piece hwidth hmem
  obtain ⟨hsingle1, hsingle2, hpfx, hlt, -⟩ := h
  have hpair : ∀ hr ∈ [h1, h2], hr.pfx = h1.pfx ∧ hr.singlehost = false ∧ hr.width = h1.width := by
    intro hr hmem
    rcases List.mem_cons.mp hmem with rfl | hmem
    · exact ⟨rfl, hsingle1, rfl⟩
    · rw [List.mem_singleton.mp hmem]
      exact ⟨hpfx.symm, hsingle2, hwidth.symm⟩
  rw [hostsOf_eq_map hpieces, hostsOf_eq_map hpair]
  refine List.Perm.map _ (List.perm_iff_count.mpr fun number ↦ ?_)
  have hnumbers : (splitRanges h1 h2).flatMap HostRange.numbers =
      List.range' h1.lo (h2.lo + 1 - h1.lo) ++ (insertedNumbers h2.lo (min h1.hi h2.hi) ++
        List.range' (min h1.hi h2.hi) (max h1.hi h2.hi + 1 - min h1.hi h2.hi)) := by
    unfold splitRanges
    rw [insertedRanges_eq, List.flatMap_cons, List.flatMap_append, List.flatMap_map,
      List.flatMap_singleton]
    congr 2
    refine (List.flatMap_congr fun n _ ↦ ?_).trans (List.flatMap_singleton' _)
    unfold HostRange.numbers hostrangeCreate
    rw [Nat.add_sub_cancel_left, List.range'_one]
  rw [hnumbers, List.count_append, List.count_append, List.count_range_1', List.count_range_1',
    count_insertedNumbers, List.flatMap_cons, List.flatMap_singleton, List.count_append]
  unfold HostRange.numbers
  rw [List.count_range_1', List.count_range_1']
  split_ifs <;> omega

/-- Assumes: two ranges that are split. The pieces denote the hosts of both. -/
theorem Splittable.perm_hostsOf {h1 h2 : HostRange} (h : Splittable h1 h2) :
    (hostsOf (splitRanges h1 h2)).Perm (hostsOf [h1, h2]) :=
  h.overlaps.perm_hostsOf h.lo_le h.canonical2.lo_le_hi h.width_eq

/-- The last piece of a split. -/
def splitLast (h1 h2 : HostRange) : HostRange :=
  { h2 with lo := min h1.hi h2.hi, hi := max h1.hi h2.hi }

/-- The pieces of a split before the last. -/
def splitInit (h1 h2 : HostRange) : List HostRange :=
  { h1 with hi := h2.lo } ::
    (insertedNumbers h2.lo (min h1.hi h2.hi)).map fun number ↦
      hostrangeCreate h1.pfx number number h1.width

/-- The pieces of a split, cut before the last. -/
theorem splitRanges_eq (h1 h2 : HostRange) :
    splitRanges h1 h2 = splitInit h1 h2 ++ [splitLast h1 h2] := by
  unfold splitRanges splitInit splitLast
  rw [insertedRanges_eq]
  rfl

/-- Assumes: ranges of one prefix and width, each of which ends before the later ones start. They
are settled. -/
theorem settled_of_pairwise {ranges : List HostRange} {pfx : List Char} {width : ℕ}
    (h : ∀ hr ∈ ranges, hr.lo ≤ hr.hi ∧ hr.pfx = pfx ∧ hr.singlehost = false ∧ hr.width = width)
    (hpairwise : ranges.Pairwise fun h1 h2 ↦ h1.hi ≤ h2.lo) : Settled ranges := by
  refine (List.Pairwise.imp_of_mem (fun {a b} ha hb hle ↦ ?_) hpairwise).isChain
  obtain ⟨hlohi, hpfx, hsingle, hwidth⟩ := h a ha
  obtain ⟨-, hpfx', hsingle', hwidth'⟩ := h b hb
  refine ⟨?_, fun hoverlap ↦ absurd hoverlap.2.2.2.1 (by omega)⟩
  rw [HostRange.key_le_iff_of_pfx (hpfx.trans hpfx'.symm) (hsingle.trans hsingle'.symm)]
  have hdigits := numDigits_mono (hlohi.trans hle)
  unfold HostRange.digits
  omega

/-- Assumes: two ranges that are split. The pieces are settled. -/
theorem Splittable.settled {h1 h2 : HostRange} (h : Splittable h1 h2) :
    Settled (splitRanges h1 h2) := by
  have hpieces : ∀ hr ∈ splitRanges h1 h2, hr.lo ≤ hr.hi ∧ hr.pfx = h1.pfx ∧
      hr.singlehost = false ∧ hr.width = h1.width := fun hr hmem ↦
    ⟨(h.piece hmem).1.lo_le_hi, (h.piece hmem).2⟩
  refine settled_of_pairwise hpieces ?_
  · have hlt := h.overlaps.2.2.2.1
    have hle2 := h.canonical2.lo_le_hi
    rw [splitRanges_eq]
    refine List.pairwise_append.mpr ⟨?_, List.pairwise_singleton _ _, fun a ha b hb ↦ ?_⟩
    · refine List.pairwise_cons.mpr ⟨fun b hb ↦ ?_, ?_⟩
      · obtain ⟨number, hnumber, rfl⟩ := List.mem_map.mp hb
        exact (mem_insertedNumbers hnumber).1
      · exact List.pairwise_map.mpr (pairwise_insertedNumbers _ _)
    · rw [List.mem_singleton.mp hb]
      rcases List.mem_cons.mp ha with rfl | ha
      · change h2.lo ≤ min h1.hi h2.hi
        omega
      · obtain ⟨number, hnumber, rfl⟩ := List.mem_map.mp ha
        exact (mem_insertedNumbers hnumber).2

/-- Whether a range overlaps another one depends on the other one's key alone. -/
theorem HostRange.overlaps_congr_key {h1 h2 h2' : HostRange} (hkey : h2'.key = h2.key) :
    h1.Overlaps h2' ↔ h1.Overlaps h2 := by
  obtain ⟨hpfx, hsingle, -, hlo⟩ := HostRange.key_eq_iff.mp hkey
  unfold HostRange.Overlaps
  rw [hpfx, hsingle, hlo, combine_congr_key rfl hkey]

/-- Assumes: a settled array that ends in a range, and one that starts with a range of its key. Put
together at that range they are settled. -/
theorem Settled.append {front rest : List HostRange} {last head : HostRange}
    (hfront : Settled (front ++ [last])) (hrest : Settled (head :: rest))
    (hkey : head.key = last.key) : Settled (front ++ head :: rest) := by
  obtain ⟨hchain, -, hlink⟩ := List.isChain_append.mp hfront
  refine List.isChain_append.mpr ⟨hchain, hrest, fun a ha b hb ↦ ?_⟩
  have hpair := hlink a ha last rfl
  obtain rfl : head = b := by simpa using hb
  rwa [hkey, HostRange.overlaps_congr_key hkey]

/-! ### Padding clashes -/

/-- A zero-padded range of a prefix whose lowest suffix is written with so many characters. -/
def PaddedWidth (ranges : List HostRange) (pfx : List Char) (width : ℕ) : Prop :=
  ∃ hr ∈ ranges, hr.singlehost = false ∧ hr.pfx = pfx ∧ hr.IsPadded ∧ hr.digits = width

/-- A range of a prefix that is written shorter than a width, with no zero-padded range of the
prefix between them, and that reaches the numbers that fill the width. -/
def Reaching (ranges : List HostRange) (pfx : List Char) (width : ℕ) (hr : HostRange) : Prop :=
  (hr.singlehost = false ∧ hr.pfx = pfx ∧ hr.digits < width ∧
    ∀ other ∈ ranges, other.singlehost = false → other.pfx = pfx → other.IsPadded →
      ¬(hr.digits < other.digits ∧ other.digits < width)) ∧
  10 ^ (width - 1) ≤ hr.hi

instance (ranges : List HostRange) (pfx : List Char) (width : ℕ) :
    DecidablePred (Reaching ranges pfx width) := fun hr ↦ by
  unfold Reaching
  infer_instance

/-- Two ranges of one prefix reach the numbers that fill the width of a zero-padded third one, with
no zero-padded range between them and the third. -/
def PaddingClash (ranges : List HostRange) : Prop :=
  ∃ hr ∈ ranges, hr.singlehost = false ∧ hr.IsPadded ∧
    2 ≤ ranges.countP fun other ↦ decide (Reaching ranges hr.pfx hr.digits other)

instance (ranges : List HostRange) : Decidable (PaddingClash ranges) := by
  unfold PaddingClash
  infer_instance

/-- A padding clash, by the width of the zero-padded range. -/
theorem paddingClash_iff {ranges : List HostRange} :
    PaddingClash ranges ↔ ∃ pfx width, PaddedWidth ranges pfx width ∧
      2 ≤ ranges.countP fun other ↦ decide (Reaching ranges pfx width other) := by
  constructor
  · rintro ⟨hr, hmem, hsingle, hpadded, hcount⟩
    exact ⟨hr.pfx, hr.digits, ⟨hr, hmem, hsingle, rfl, hpadded, rfl⟩, hcount⟩
  · rintro ⟨_, _, ⟨hr, hmem, hsingle, rfl, hpadded, rfl⟩, hcount⟩
    exact ⟨hr, hmem, hsingle, hpadded, hcount⟩

/-- Reaching a width, by the widths of the zero-padded ranges. -/
theorem reaching_iff {ranges : List HostRange} {pfx : List Char} {width : ℕ} {hr : HostRange} :
    Reaching ranges pfx width hr ↔ (hr.singlehost = false ∧ hr.pfx = pfx ∧ hr.digits < width ∧
      ∀ between, PaddedWidth ranges pfx between → ¬(hr.digits < between ∧ between < width)) ∧
      10 ^ (width - 1) ≤ hr.hi := by
  unfold Reaching PaddedWidth
  constructor
  · rintro ⟨⟨hsingle, hpfx, hlt, hnone⟩, hreach⟩
    refine ⟨⟨hsingle, hpfx, hlt, ?_⟩, hreach⟩
    rintro _ ⟨other, hmem, hother, hotherPfx, hpadded, rfl⟩
    exact hnone other hmem hother hotherPfx hpadded
  · rintro ⟨⟨hsingle, hpfx, hlt, hnone⟩, hreach⟩
    exact ⟨⟨hsingle, hpfx, hlt, fun other hmem hother hotherPfx hpadded ↦
      hnone other.digits ⟨other, hmem, hother, hotherPfx, hpadded, rfl⟩⟩, hreach⟩

/-- Assumes: the same widths of zero-padded ranges. The same ranges reach a width. -/
theorem reaching_congr {ranges ranges' : List HostRange} {pfx : List Char} {width : ℕ}
    (h : ∀ width, PaddedWidth ranges' pfx width ↔ PaddedWidth ranges pfx width) (hr : HostRange) :
    Reaching ranges' pfx width hr ↔ Reaching ranges pfx width hr := by
  rw [reaching_iff, reaching_iff]
  simp only [h]

/-- Assumes: ranges as they are written. Whether they have a padding clash depends on them alone. -/
theorem paddingClash_congr {ranges ranges' : List HostRange}
    (h : ranges'.map HostRange.normal = ranges.map HostRange.normal) :
    PaddingClash ranges' ↔ PaddingClash ranges := by
  have hnormal : ∀ list : List HostRange,
      PaddingClash (list.map HostRange.normal) ↔ PaddingClash list := by
    intro list
    have hpadded : ∀ hr : HostRange, hr.normal.IsPadded ↔ hr.IsPadded := fun hr ↦ by
      rw [HostRange.isPadded_iff, HostRange.isPadded_iff, HostRange.digits_normal,
        HostRange.lo_normal]
    have hreach : ∀ pfx width hr, Reaching (list.map HostRange.normal) pfx width hr.normal ↔
        Reaching list pfx width hr := by
      intro pfx width hr
      unfold Reaching
      simp [hpadded]
    unfold PaddingClash
    simp only [List.mem_map, exists_exists_and_eq_and, HostRange.singlehost_normal, hpadded,
      HostRange.pfx_normal, HostRange.digits_normal, List.countP_map, Function.comp_def, hreach]
  rw [← hnormal, h, hnormal]

/-- Rearranging ranges neither makes nor removes a padding clash. -/
theorem paddingClash_perm {ranges ranges' : List HostRange} (h : ranges'.Perm ranges) :
    PaddingClash ranges' ↔ PaddingClash ranges := by
  have hreach : ∀ pfx width hr, Reaching ranges' pfx width hr ↔ Reaching ranges pfx width hr := by
    intro pfx width hr
    unfold Reaching
    simp only [h.mem_iff]
  unfold PaddingClash
  simp only [h.mem_iff, hreach, h.countP_eq]

/-- Assumes: ranges in front whose keys are not larger. A padding clash is kept. -/
theorem PaddingClash.append {front ranges : List HostRange} (h : PaddingClash ranges)
    (hfront : ∀ a ∈ front, ∀ b ∈ ranges, a.key ≤ b.key) : PaddingClash (front ++ ranges) := by
  obtain ⟨hr, hmem, hsingle, hpadded, hcount⟩ := h
  refine ⟨hr, List.mem_append_right _ hmem, hsingle, hpadded, ?_⟩
  have hmono : ranges.countP (fun other ↦ decide (Reaching ranges hr.pfx hr.digits other)) ≤
      ranges.countP fun other ↦ decide (Reaching (front ++ ranges) hr.pfx hr.digits other) := by
    refine List.countP_mono_left fun other hother hreach ↦ decide_eq_true ?_
    obtain ⟨⟨hotherSingle, hotherPfx, hlt, hnone⟩, hreached⟩ := of_decide_eq_true hreach
    refine ⟨⟨hotherSingle, hotherPfx, hlt, fun between hbetween hs hp hpad ↦ ?_⟩, hreached⟩
    rcases List.mem_append.mp hbetween with hbefore | hinside
    · have hle := hfront between hbefore other hother
      rw [HostRange.key_le_iff_of_pfx (hp.trans hotherPfx.symm) (hs.trans hotherSingle.symm)] at hle
      omega
    · exact hnone between hinside hs hp hpad
  rw [List.countP_append]
  omega

/-- Assumes: a range that is written shorter than a width. Its lowest suffix is below every number
that fills the width. -/
theorem lo_lt_of_digits_lt {hr : HostRange} {width : ℕ} (h : hr.digits < width) :
    hr.lo < 10 ^ (width - 1) := by
  have hpositive := numDigits_pos hr.lo
  unfold HostRange.digits at h
  exact (numDigits_le_iff (by omega)).mp (by omega)

/-- Assumes: at least two members with a property. One of them stands before another. -/
theorem exists_pair_of_countP {α : Type} {property : α → Bool} {list : List α}
    (h : 2 ≤ list.countP property) : ∃ front first rest, list = front ++ first :: rest ∧
      property first = true ∧ ∃ second ∈ rest, property second = true := by
  induction list with
  | nil => exact absurd h (by simp)
  | cons head tail ih =>
    rw [List.countP_cons] at h
    by_cases hhead : property head = true
    · rw [if_pos hhead] at h
      obtain ⟨second, hmem, hsecond⟩ :=
        List.countP_pos_iff.mp (show 0 < tail.countP property by omega)
      exact ⟨[], head, tail, rfl, hhead, second, hmem, hsecond⟩
    · rw [if_neg hhead, Nat.add_zero] at h
      obtain ⟨front, first, rest, rfl, hpair⟩ := ih h
      exact ⟨head :: front, first, rest, rfl, hpair⟩

/-- A settled array has no padding clash. -/
theorem Settled.not_paddingClash {ranges : List HostRange} (h : Settled ranges) :
    ¬PaddingClash ranges := by
  rw [paddingClash_iff]
  rintro ⟨pfx, width, -, hcount⟩
  obtain ⟨front, first, rest, rfl, hfirst, second, hmem, hsecond⟩ := exists_pair_of_countP hcount
  obtain ⟨⟨hsingle, hpfx, -, hnone⟩, hreach⟩ := reaching_iff.mp (of_decide_eq_true hfirst)
  obtain ⟨⟨hsingle2, hpfx2, hlt2, -⟩, -⟩ := reaching_iff.mp (of_decide_eq_true hsecond)
  obtain ⟨next, rest, rfl⟩ := List.exists_cons_of_ne_nil (List.ne_nil_of_mem hmem)
  -- the range behind the first starts below the width, and would overlap the first
  have hchain := List.IsChain.right_of_append h
  obtain ⟨horder, hoverlap⟩ := (List.isChain_cons_cons.mp hchain).1
  have hsorted := (Settled.pairwise (List.isChain_cons_cons.mp hchain).2)
  have hlast : next.key ≤ second.key := by
    rcases List.mem_cons.mp hmem with rfl | hlater
    · exact le_rfl
    · exact (List.pairwise_cons.mp hsorted).1 second hlater
  obtain ⟨hnextPfx, hnextSingle, hdigits⟩ :=
    HostRange.between_of_key_le horder hlast (hpfx.trans hpfx2.symm) hsingle
  have hdigits2 : next.digits ≤ second.digits := by
    rw [HostRange.key_le_iff_of_pfx (hnextPfx.trans (hpfx.trans hpfx2.symm))
      (hnextSingle.trans hsingle2.symm)] at hlast
    omega
  have hcombine : (hostrangeWidthCombine first next).1 = true := by
    refine (combine_iff hdigits).mpr (or_iff_not_imp_left.mpr fun hne hpadded ↦ ?_)
    exact hnone next.digits ⟨next, by simp, hnextSingle, hnextPfx.trans hpfx, hpadded, rfl⟩
      ⟨by omega, by omega⟩
  refine hoverlap ⟨hsingle, hnextSingle, hnextPfx.symm, ?_, hcombine⟩
  exact lt_of_lt_of_le (lo_lt_of_digits_lt (by omega)) hreach

/-! ### Splits and padding clashes -/

/-- Assumes: two ranges that are split. The zero-padded widths of the pieces are those of the two
ranges. -/
theorem Splittable.paddedWidth_iff {h1 h2 : HostRange} (h : Splittable h1 h2) (pfx : List Char)
    (width : ℕ) :
    PaddedWidth (splitRanges h1 h2) pfx width ↔ PaddedWidth [h1, h2] pfx width := by
  obtain ⟨hsingle1, hsingle2, hpfx, hlt, -⟩ := h.overlaps
  have hle2 := h.canonical2.lo_le_hi
  have hwidth := h.width_eq
  constructor
  · rintro ⟨hr, hmem, hsingle, rfl, hpadded, rfl⟩
    rcases mem_splitRanges hmem with rfl | ⟨number, hlow, hhigh, rfl⟩ | rfl
    · exact ⟨h1, by simp, hsingle1, rfl, hpadded, rfl⟩
    · -- a padded number above the start of the second range shows that that one is padded
      have hdigits := numDigits_mono hlow
      change numDigits number < h1.width at hpadded
      refine ⟨h2, by simp, hsingle2, hpfx.symm, ?_, ?_⟩
      · unfold HostRange.IsPadded
        omega
      · unfold HostRange.digits hostrangeCreate
        simp only
        omega
    · have hdigits : numDigits h2.lo ≤ numDigits (min h1.hi h2.hi) := numDigits_mono (by omega)
      change numDigits (min h1.hi h2.hi) < h2.width at hpadded
      refine ⟨h2, by simp, hsingle2, rfl, ?_, ?_⟩
      · unfold HostRange.IsPadded
        omega
      · unfold HostRange.digits
        simp only
        omega
  · rintro ⟨hr, hmem, hsingle, rfl, hpadded, rfl⟩
    rw [splitRanges_eq]
    rcases List.mem_cons.mp hmem with rfl | hmem
    · exact ⟨_, List.mem_cons_self, hsingle1, rfl, hpadded, rfl⟩
    · obtain rfl := List.mem_singleton.mp hmem
      rcases Nat.lt_or_ge hr.lo (min h1.hi hr.hi) with hless | hnone
      · -- the start of the second range is the first number that is inserted
        refine ⟨hostrangeCreate h1.pfx hr.lo hr.lo h1.width, ?_, rfl, hpfx, ?_, ?_⟩
        · refine List.mem_append_left _ (List.mem_cons_of_mem _ (List.mem_map_of_mem ?_))
          refine List.count_pos_iff.mp ?_
          rw [count_insertedNumbers]
          simp [hless]
        · unfold HostRange.IsPadded hostrangeCreate
          rw [hwidth]
          exact hpadded
        · unfold HostRange.digits hostrangeCreate
          rw [hwidth]
      · refine ⟨splitLast h1 hr, List.mem_append_right _ List.mem_cons_self, hsingle2, rfl, ?_, ?_⟩
        · unfold HostRange.IsPadded splitLast
          rw [show min h1.hi hr.hi = hr.lo by omega]
          exact hpadded
        · unfold HostRange.digits splitLast
          rw [show min h1.hi hr.hi = hr.lo by omega]

/-- The pieces of a split are written at least as long as the first range and at most as long as the
last piece. -/
theorem Splittable.digits_piece {h1 h2 hr : HostRange} (h : Splittable h1 h2)
    (hmem : hr ∈ splitRanges h1 h2) :
    h1.digits ≤ hr.digits ∧ hr.digits ≤ (splitLast h1 h2).digits := by
  have hlt := h.overlaps.2.2.2.1
  have hle2 := h.canonical2.lo_le_hi
  have hlo := h.lo_le
  have hwidth := h.width_eq
  have hfirst : numDigits h1.lo ≤ numDigits (min h1.hi h2.hi) := numDigits_mono (by omega)
  rcases mem_splitRanges hmem with rfl | ⟨number, hlow, hhigh, rfl⟩ | rfl
  · unfold HostRange.digits splitLast
    simp only
    omega
  · have hdigits1 := numDigits_mono (hlo.trans hlow)
    have hdigits2 := numDigits_mono hhigh
    unfold HostRange.digits splitLast hostrangeCreate
    simp only
    omega
  · unfold HostRange.digits splitLast
    simp only
    omega

/-- The other ranges of an array have no zero-padded width between the lengths of the first range
and of the last piece of a split. -/
def ClearOf (h1 h2 : HostRange) (others : List HostRange) : Prop :=
  ∀ hr ∈ others, hr.singlehost = false → hr.pfx = h1.pfx → hr.IsPadded →
    ¬(h1.digits < hr.digits ∧ hr.digits ≤ (splitLast h1 h2).digits)

/-- Assumes: two ranges that are split, ranges not behind the first, and ranges not before the last
piece. They are clear of the split. -/
theorem Splittable.clearOf {h1 h2 : HostRange} (h : Splittable h1 h2) {front back : List HostRange}
    (hfront : ∀ hr ∈ front, hr.key ≤ h1.key) (hback : ∀ hr ∈ back, (splitLast h1 h2).key ≤ hr.key) :
    ClearOf h1 h2 (back ++ front) := by
  obtain ⟨hsingle1, hsingle2, hpfx, -, -⟩ := h.overlaps
  have hdigits := numDigits_mono h.lo_le
  have hwidth := h.width_eq
  intro hr hmem hsingle hhrPfx hpad
  rcases List.mem_append.mp hmem with hmem | hmem
  · have hle := (HostRange.key_le_iff_of_pfx
      (show (splitLast h1 h2).pfx = hr.pfx from hpfx.symm.trans hhrPfx.symm)
      (show (splitLast h1 h2).singlehost = hr.singlehost from hsingle2.trans hsingle.symm)).mp
      (hback hr hmem)
    have hmono : min h1.hi h2.hi ≤ hr.lo → numDigits (min h1.hi h2.hi) ≤ numDigits hr.lo :=
      numDigits_mono
    change _ ∨ _ ∧ min h1.hi h2.hi ≤ hr.lo at hle
    unfold HostRange.IsPadded at hpad
    unfold HostRange.digits splitLast at hle ⊢
    simp only at hle ⊢
    omega
  · have hle := hfront hr hmem
    rw [HostRange.key_le_iff_of_pfx hhrPfx (hsingle.trans hsingle1.symm)] at hle
    omega

/-- Assumes: two ranges that are split, and others clear of the split. No zero-padded width of the
prefix lies between the lengths of the first range and of the last piece. -/
theorem Splittable.no_paddedWidth {h1 h2 : HostRange} (h : Splittable h1 h2) {rest : List HostRange}
    (hclear : ClearOf h1 h2 rest) {width : ℕ}
    (hpadded : PaddedWidth (h1 :: h2 :: rest) h1.pfx width) :
    ¬(h1.digits < width ∧ width ≤ (splitLast h1 h2).digits) := by
  have hdigits := numDigits_mono h.lo_le
  have hwidth := h.width_eq
  obtain ⟨hr, hmem, hsingle, hhrPfx, hpad, rfl⟩ := hpadded
  rcases List.mem_cons.mp hmem with rfl | hmem
  · omega
  rcases List.mem_cons.mp hmem with rfl | hmem
  · unfold HostRange.IsPadded at hpad
    unfold HostRange.digits
    omega
  · exact hclear hr hmem hsingle hhrPfx hpad

/-- Zero-padded widths of an array in two parts. -/
theorem paddedWidth_append {front back : List HostRange} {pfx : List Char} {width : ℕ} :
    PaddedWidth (front ++ back) pfx width ↔
      PaddedWidth front pfx width ∨ PaddedWidth back pfx width := by
  unfold PaddedWidth
  simp only [List.mem_append, or_and_right, exists_or]

/-- A split neither adds nor removes a zero-padded width. -/
theorem Splittable.paddedWidth_append_iff {h1 h2 : HostRange} (h : Splittable h1 h2)
    (rest : List HostRange) (pfx : List Char) (width : ℕ) :
    PaddedWidth (splitRanges h1 h2 ++ rest) pfx width ↔
      PaddedWidth (h1 :: h2 :: rest) pfx width := by
  change _ ↔ PaddedWidth ([h1, h2] ++ rest) pfx width
  rw [paddedWidth_append, paddedWidth_append, h.paddedWidth_iff]

/-- The two ranges of a split are written at least as long as the first and at most as long as the
last piece. -/
theorem Splittable.digits_pair {h1 h2 hr : HostRange} (h : Splittable h1 h2)
    (hmem : hr ∈ [h1, h2]) :
    h1.digits ≤ hr.digits ∧ hr.digits ≤ (splitLast h1 h2).digits := by
  have hlt := h.overlaps.2.2.2.1
  have hle2 := h.canonical2.lo_le_hi
  have hdigits := numDigits_mono h.lo_le
  have hdigits' : numDigits h2.lo ≤ numDigits (min h1.hi h2.hi) := numDigits_mono (by omega)
  have hwidth := h.width_eq
  rcases List.mem_cons.mp hmem with rfl | hmem
  · unfold splitLast HostRange.digits
    simp only
    omega
  · obtain rfl := List.mem_singleton.mp hmem
    unfold splitLast HostRange.digits
    simp only
    omega

/-- A width that the ranges of a split can reach: the first range is written shorter, with no
zero-padded range in between. -/
def OpenWidth (ranges : List HostRange) (hr : HostRange) (width : ℕ) : Prop :=
  hr.digits < width ∧ ∀ between, PaddedWidth ranges hr.pfx between →
    ¬(hr.digits < between ∧ between < width)

/-- Assumes: two ranges that are split, others clear of the split, and a zero-padded width. The two
ranges and the pieces reach it exactly when it is open to the first range and their numbers reach
it. -/
theorem Splittable.reaching_iff {h1 h2 hr : HostRange} (h : Splittable h1 h2)
    {rest : List HostRange} (hclear : ClearOf h1 h2 rest) {width : ℕ}
    (hwidth : PaddedWidth (h1 :: h2 :: rest) h1.pfx width)
    (hmem : hr ∈ [h1, h2] ∨ hr ∈ splitRanges h1 h2) :
    Reaching (h1 :: h2 :: rest) h1.pfx width hr ↔
      OpenWidth (h1 :: h2 :: rest) h1 width ∧ 10 ^ (width - 1) ≤ hr.hi := by
  obtain ⟨hsingle1, hsingle2, hpfx, -, -⟩ := h.overlaps
  obtain ⟨hlow, hhigh⟩ := hmem.elim h.digits_pair h.digits_piece
  have hkind : hr.singlehost = false ∧ hr.pfx = h1.pfx := by
    rcases hmem with hpair | hpiece
    · rcases List.mem_cons.mp hpair with rfl | hpair
      · exact ⟨hsingle1, rfl⟩
      · rw [List.mem_singleton.mp hpair]
        exact ⟨hsingle2, hpfx.symm⟩
    · exact ⟨(h.piece hpiece).2.2.1, (h.piece hpiece).2.1⟩
  have hnone := fun v (hv : PaddedWidth (h1 :: h2 :: rest) h1.pfx v) ↦ h.no_paddedWidth hclear hv
  have hnoneWidth := hnone width hwidth
  rw [Whatsup.reaching_iff]
  refine and_congr_left fun _ ↦ ⟨?_, ?_⟩
  · rintro ⟨-, -, hless, hbetween⟩
    refine ⟨by omega, fun v hv hv' ↦ ?_⟩
    have hv1 := hnone v hv
    have hv2 := hbetween v hv
    omega
  · rintro ⟨hless, hbetween⟩
    refine ⟨hkind.1, hkind.2, by omega, fun v hv hv' ↦ ?_⟩
    have hv1 := hbetween v hv
    omega

/-- Assumes: two ranges that are split, others clear of the split, and a zero-padded width. As many
of the pieces reach it as of the two ranges. -/
theorem Splittable.countP_reaching {h1 h2 : HostRange} (h : Splittable h1 h2)
    {rest : List HostRange} (hclear : ClearOf h1 h2 rest) {pfx : List Char} {width : ℕ}
    (hwidth : PaddedWidth (h1 :: h2 :: rest) pfx width) :
    (splitRanges h1 h2).countP (fun hr ↦ decide (Reaching (h1 :: h2 :: rest) pfx width hr)) =
      [h1, h2].countP fun hr ↦ decide (Reaching (h1 :: h2 :: rest) pfx width hr) := by
  have hzero : ∀ ranges : List HostRange,
      (∀ hr ∈ ranges, ¬Reaching (h1 :: h2 :: rest) pfx width hr) →
      ranges.countP (fun hr ↦ decide (Reaching (h1 :: h2 :: rest) pfx width hr)) = 0 :=
    fun ranges hnone ↦ List.countP_eq_zero.mpr fun hr hmem ↦ by simpa using hnone hr hmem
  by_cases hpfx : pfx = h1.pfx
  · subst hpfx
    by_cases hopen : OpenWidth (h1 :: h2 :: rest) h1 width
    · -- the last piece is written shorter than the width, so that only it can reach it
      have hlastDigits : (splitLast h1 h2).digits < width := by
        have hnone := h.no_paddedWidth hclear hwidth
        have hless := hopen.1
        omega
      have hmin : min h1.hi h2.hi < 10 ^ (width - 1) := lo_lt_of_digits_lt hlastDigits
      have hlt := h.overlaps.2.2.2.1
      have hle2 := h.canonical2.lo_le_hi
      have hpair := fun (hr : HostRange) (hmem : hr ∈ [h1, h2]) ↦
        h.reaching_iff hclear hwidth (Or.inl hmem)
      have hpiece := fun (hr : HostRange) (hmem : hr ∈ splitRanges h1 h2) ↦
        h.reaching_iff hclear hwidth (Or.inr hmem)
      have hlast : splitLast h1 h2 ∈ splitRanges h1 h2 := by simp [splitRanges_eq]
      have hinit : (splitInit h1 h2).countP
          (fun hr ↦ decide (Reaching (h1 :: h2 :: rest) h1.pfx width hr)) = 0 := by
        refine hzero _ fun hr hmem hreach ↦ ?_
        have hreached := ((hpiece hr (by simp [splitRanges_eq, hmem])).mp hreach).2
        rcases List.mem_cons.mp hmem with rfl | hinserted
        · change 10 ^ (width - 1) ≤ h2.lo at hreached
          omega
        · obtain ⟨number, hnumber, rfl⟩ := List.mem_map.mp hinserted
          have hbounds := mem_insertedNumbers hnumber
          change 10 ^ (width - 1) ≤ number at hreached
          omega
      have hmax : (splitLast h1 h2).hi = max h1.hi h2.hi := rfl
      rw [splitRanges_eq, List.countP_append, hinit, List.countP_singleton, List.countP_cons,
        List.countP_singleton]
      simp only [hpair h1 (by simp), hpair h2 (by simp), hpiece _ hlast, hopen, true_and,
        decide_eq_true_eq, hmax]
      split_ifs <;> omega
    · rw [hzero, hzero]
      · exact fun hr hmem hreach ↦ hopen ((h.reaching_iff hclear hwidth (Or.inl hmem)).mp hreach).1
      · exact fun hr hmem hreach ↦ hopen ((h.reaching_iff hclear hwidth (Or.inr hmem)).mp hreach).1
  · rw [hzero, hzero]
    · intro hr hmem hreach
      refine hpfx (hreach.1.2.1.symm.trans ?_)
      rcases List.mem_cons.mp hmem with rfl | hmem
      · rfl
      · rw [List.mem_singleton.mp hmem]
        exact h.overlaps.2.2.1.symm
    · exact fun hr hmem hreach ↦ hpfx (hreach.1.2.1.symm.trans (h.piece hmem).2.1)

/-- Assumes: two ranges that are split, and others clear of the split. A split neither makes nor
removes a padding clash. -/
theorem Splittable.paddingClash_iff {h1 h2 : HostRange} (h : Splittable h1 h2)
    {rest : List HostRange} (hclear : ClearOf h1 h2 rest) :
    PaddingClash (splitRanges h1 h2 ++ rest) ↔ PaddingClash (h1 :: h2 :: rest) := by
  rw [Whatsup.paddingClash_iff, Whatsup.paddingClash_iff]
  refine exists_congr fun pfx ↦ exists_congr fun width ↦ ?_
  rw [h.paddedWidth_append_iff]
  refine and_congr_right fun hwidth ↦ ?_
  have hreach := fun hr ↦ @reaching_congr _ _ pfx width (h.paddedWidth_append_iff rest pfx) hr
  simp only [hreach]
  rw [List.countP_append, h.countP_reaching hclear hwidth, ← List.countP_append]
  rfl

/-- Assumes: two ranges that are split, what comes before not behind the first, and what follows not
before the last piece. The split neither makes nor removes a padding clash of the array. -/
theorem Splittable.paddingClash_array_iff {h1 h2 : HostRange} (h : Splittable h1 h2)
    {front back : List HostRange} (hfront : ∀ hr ∈ front, hr.key ≤ h1.key)
    (hback : ∀ hr ∈ back, (splitLast h1 h2).key ≤ hr.key) :
    PaddingClash (front ++ (splitRanges h1 h2 ++ back)) ↔
      PaddingClash (front ++ h1 :: h2 :: back) := by
  have hpieces : (front ++ (splitRanges h1 h2 ++ back)).Perm
      (splitRanges h1 h2 ++ (back ++ front)) := by
    rw [← List.append_assoc (splitRanges h1 h2)]
    exact List.perm_append_comm
  have hpair : (front ++ h1 :: h2 :: back).Perm (h1 :: h2 :: (back ++ front)) :=
    List.perm_append_comm
  rw [paddingClash_perm hpieces, paddingClash_perm hpair,
    h.paddingClash_iff (h.clearOf hfront hback)]

/-- Assumes: two ranges that are split, and a following range in order that does not overlap the
second. If the last piece is not before that range, it overlaps it, and there is a padding clash. -/
theorem Splittable.paddingClash_of_disorder {h1 h2 next : HostRange} (h : Splittable h1 h2)
    (horder : h2.key ≤ next.key) (hoverlap : ¬h2.Overlaps next)
    (hdisorder : ¬(splitLast h1 h2).key ≤ next.key) {rest : List HostRange}
    (hrest : ∀ hr ∈ rest, next.key ≤ hr.key) :
    (splitLast h1 h2).Overlaps next ∧ PaddingClash (h1 :: h2 :: next :: rest) := by
  obtain ⟨hsingle1, hsingle2, hpfx, hlt, hcombine12⟩ := h.overlaps
  have hle2 := h.canonical2.lo_le_hi
  have hdigits := numDigits_mono h.lo_le
  have hwidth := h.width_eq
  have hlastDigits : (splitLast h1 h2).digits = max h2.width (numDigits (min h1.hi h2.hi)) := rfl
  -- the following range has the prefix, or the last piece would be before it
  have hnext : h2.pfx = next.pfx ∧ next.singlehost = false ∧
      (h2.digits < next.digits ∨ h2.digits = next.digits ∧ h2.lo ≤ next.lo) := by
    rw [HostRange.key_le_iff] at horder hdisorder
    rcases horder with hless | ⟨hsame, ⟨hs, -⟩ | ⟨hs, hkeys⟩⟩
    · exact absurd (Or.inl hless) hdisorder
    · exact absurd (hsingle2.symm.trans hs) (by decide)
    · exact ⟨hsame, hs.symm.trans hsingle2, hkeys⟩
  obtain ⟨hnextPfx, hnextSingle, hkeys⟩ := hnext
  have hdisorder' :=
    (HostRange.key_le_iff_of_pfx (show (splitLast h1 h2).pfx = next.pfx from hnextPfx)
    (show (splitLast h1 h2).singlehost =
      next.singlehost from hsingle2.trans hnextSingle.symm)).not.mp
    hdisorder
  change ¬(_ ∨ _ ∧ min h1.hi h2.hi ≤ next.lo) at hdisorder'
  have hnextDigits : numDigits next.lo ≤ next.digits := le_max_right _ _
  have hwidth2 : h2.width ≤ h2.digits := le_max_left _ _
  have hmono : min h1.hi h2.hi ≤ next.lo → numDigits (min h1.hi h2.hi) ≤ numDigits next.lo :=
    numDigits_mono
  -- its width cannot be combined with that of the second range, so that it is padded and longer
  have hcombine : ¬(hostrangeWidthCombine h2 next).1 = true := fun hcombine ↦ by
    have hends : ¬next.lo < h2.hi := fun hless ↦
      hoverlap ⟨hsingle2, hnextSingle, hnextPfx, hless, hcombine⟩
    omega
  rw [combine_iff (by omega), not_or, not_not] at hcombine
  obtain ⟨hne, hpadded⟩ := hcombine
  have hless : h2.digits < next.digits := by omega
  have hreach : next.digits ≤ numDigits (min h1.hi h2.hi) := by omega
  have hpositive := numDigits_pos next.lo
  have hfills : 10 ^ (next.digits - 1) ≤ min h1.hi h2.hi :=
    (lt_numDigits_iff (by unfold HostRange.IsPadded HostRange.digits at *; omega)).mp (by omega)
  have hnextLo := lo_lt_of_isPadded hpadded
  constructor
  · refine ⟨hsingle2, hnextSingle, hnextPfx, ?_, ?_⟩
    · change next.lo < max h1.hi h2.hi
      omega
    · refine (combine_iff' (by omega)).mpr (Or.inr ?_)
      unfold HostRange.IsPadded splitLast
      simp only
      omega
  · refine ⟨next, by simp, hnextSingle, hpadded, ?_⟩
    have hdigits1 := h.digits_pair (List.mem_cons_self : h1 ∈ [h1, h2])
    have hdigits12 : h1.digits ≤ h2.digits := (h.digits_pair (by simp : h2 ∈ [h1, h2])).1
    -- no zero-padded width lies between the first range and the following one
    have hnone : ∀ other ∈ h1 :: h2 :: next :: rest, other.singlehost = false →
        other.pfx = next.pfx → other.IsPadded →
        ¬(h1.digits < other.digits ∧ other.digits < next.digits) := by
      intro other hmem hs hp hpad
      rcases List.mem_cons.mp hmem with rfl | hmem
      · omega
      rcases List.mem_cons.mp hmem with rfl | hmem
      · unfold HostRange.IsPadded at hpad
        unfold HostRange.digits at *
        omega
      · have hle : next.key ≤ other.key := by
          rcases List.mem_cons.mp hmem with rfl | hmem
          · exact le_rfl
          · exact hrest other hmem
        rw [HostRange.key_le_iff_of_pfx hp.symm (hnextSingle.trans hs.symm)] at hle
        omega
    have hreach1 : Reaching (h1 :: h2 :: next :: rest) next.pfx next.digits h1 :=
      ⟨⟨hsingle1, hpfx.trans hnextPfx, by omega, hnone⟩, by omega⟩
    have hreach2 : Reaching (h1 :: h2 :: next :: rest) next.pfx next.digits h2 :=
      ⟨⟨hsingle2, hnextPfx, hless, fun other hmem hs hp hpad hbetween ↦
        hnone other hmem hs hp hpad ⟨by omega, hbetween.2⟩⟩, by omega⟩
    rw [List.countP_cons, List.countP_cons, if_pos (decide_eq_true hreach1),
      if_pos (decide_eq_true hreach2)]
    omega

end Whatsup
