import Mathlib.Data.List.Range
import Whatsup.Hostlist.Push

/-!
# Iterating over a hostlist

An iterator stands on a host of a range. `hostlist_next` advances it and makes the name it stands on
from the prefix and at most 14 characters of the suffix.

`hostlistNext_spec` is one call: it takes the first of the names ahead of the iterator.
`nextNames_eq` says which names a sequence of calls gives: those of the ranges in order, each with
its suffix cut to 14 characters; and `cutHosts_eq_hosts_iff` when these are the names of the list.
-/

set_option autoImplicit false
set_option relaxedAutoImplicit false

namespace Whatsup

open CLib

/-- `struct hostlist_iterator`: the index of a range and the depth in it. -/
structure HostlistIterator where
  idx : ℕ
  depth : ℤ
deriving DecidableEq

/-- `hostlist_iterator_create`. -/
def hostlistIteratorCreate : HostlistIterator :=
  ⟨0, -1⟩

/-- `_iterator_advance`. The depth is compared as an `unsigned long`. -/
def iteratorAdvance (hl : Hostlist) (i : HostlistIterator) : HostlistIterator :=
  match hl.ranges[i.idx]? with
  | none => i
  | some hr =>
    if ulongSub hr.hi hr.lo < toUlong (i.depth + 1) then ⟨i.idx + 1, 0⟩ else ⟨i.idx, i.depth + 1⟩

/-- The name at a depth of a range: `snprintf(suffix, 15, "%0*lu", ...)` cuts the suffix. -/
def nextName (hr : HostRange) (depth : ℤ) : List Char :=
  if hr.singlehost then hr.pfx
  else hr.pfx ++ (padded hr.width (ulongAdd hr.lo (toUlong depth))).take 14

/-- `hostlist_next`. -/
def hostlistNext (hl : Hostlist) (i : HostlistIterator) : Option (List Char) × HostlistIterator :=
  let i := iteratorAdvance hl i
  match hl.ranges[i.idx]? with
  | none => (none, i)
  | some hr => (some (nextName hr i.depth), i)

/-- The names that so many calls of `hostlist_next` give, up to the first that gives none. -/
def nextNames (hl : Hostlist) : ℕ → HostlistIterator → List (List Char)
  | 0, _ => []
  | calls + 1, i =>
    match hostlistNext hl i with
    | (none, _) => []
    | (some name, i) => name :: nextNames hl calls i

/-! ### The names -/

/-- The names of a range as the iterator gives them. -/
def HostRange.cutHosts (hr : HostRange) : List (List Char) :=
  if hr.singlehost then [hr.pfx]
  else (List.range' hr.lo (hr.hi + 1 - hr.lo)).map fun number ↦
    hr.pfx ++ (padded hr.width number).take 14

/-- The names of a list as the iterator gives them. -/
def Hostlist.cutHosts (hl : Hostlist) : List (List Char) :=
  hl.ranges.flatMap HostRange.cutHosts

/-- A range that an iterator can walk along: its bounds are in order, and the depth in it does not
wrap around. -/
structure HostRange.Walkable (hr : HostRange) : Prop where
  lo_le_hi : hr.lo ≤ hr.hi
  hi_le : hr.hi ≤ ulongMax
  depth_lt : hr.hi - hr.lo < ulongMax
  single : hr.singlehost = true → hr.lo = 0 ∧ hr.hi = 0

/-- A range that ends below `ULONG_MAX` can be walked along. -/
theorem HostRange.Valid.walkable {hr : HostRange} (h : hr.Valid) : hr.Walkable :=
  ⟨h.lo_le_hi, h.hi_lt.le, lt_of_le_of_lt (Nat.sub_le _ _) h.hi_lt, h.single⟩

/-- The name at a depth of a range is the name of that number. -/
theorem HostRange.getElem_cutHosts {hr : HostRange} (hwalk : hr.Walkable) {depth : ℕ}
    (hdepth : depth ≤ hr.hi - hr.lo) :
    hr.cutHosts[depth]? = some (nextName hr depth) := by
  unfold cutHosts nextName
  split_ifs with hsingle
  · obtain ⟨hlo, hhi⟩ := hwalk.single hsingle
    obtain rfl : depth = 0 := by omega
    rfl
  · have hle := hwalk.lo_le_hi
    have hmax := hwalk.hi_le
    have hsum : ulongAdd hr.lo (toUlong depth) = hr.lo + depth := by
      unfold ulongMax at hmax
      unfold ulongAdd toUlong
      omega
    rw [List.getElem?_map, List.getElem?_range' (by omega), hsum, Nat.one_mul]
    rfl

/-- A range has as many names as it has hosts. -/
theorem HostRange.length_cutHosts {hr : HostRange} (hwalk : hr.Walkable) :
    hr.cutHosts.length = hr.hi - hr.lo + 1 := by
  have hle := hwalk.lo_le_hi
  unfold cutHosts
  split_ifs with hsingle
  · obtain ⟨hlo, hhi⟩ := hwalk.single hsingle
    rw [hlo, hhi]
    rfl
  · rw [List.length_map, List.length_range']
    omega

/-- The names from a depth of a range on. -/
theorem HostRange.drop_cutHosts {hr : HostRange} (hwalk : hr.Walkable) {depth : ℕ}
    (hdepth : depth ≤ hr.hi - hr.lo) :
    hr.cutHosts.drop depth = nextName hr depth :: hr.cutHosts.drop (depth + 1) := by
  obtain ⟨hlt, hname⟩ := List.getElem?_eq_some_iff.mp (hr.getElem_cutHosts hwalk hdepth)
  rw [List.drop_eq_getElem_cons hlt, hname]

/-- The names that an iterator has not passed. -/
def HostlistIterator.ahead (i : HostlistIterator) (hl : Hostlist) : List (List Char) :=
  match hl.ranges.drop i.idx with
  | [] => []
  | hr :: later => hr.cutHosts.drop (i.depth + 1).toNat ++ later.flatMap HostRange.cutHosts

/-- An iterator stands on a host of its range, or before the first. -/
structure HostlistIterator.Stands (i : HostlistIterator) (hl : Hostlist) : Prop where
  neg_one_le : -1 ≤ i.depth
  depth_le : ∀ hr ∈ (hl.ranges.drop i.idx).head?, i.depth ≤ (hr.hi - hr.lo : ℕ)

/-- A new iterator has all names ahead of it. -/
theorem hostlistIteratorCreate_spec (hl : Hostlist) :
    hostlistIteratorCreate.Stands hl ∧ hostlistIteratorCreate.ahead hl = hl.cutHosts := by
  refine ⟨⟨le_rfl, fun hr _ ↦ ?_⟩, ?_⟩
  · change (-1 : ℤ) ≤ _
    omega
  · unfold HostlistIterator.ahead Hostlist.cutHosts hostlistIteratorCreate
    rw [List.drop_zero]
    cases hl.ranges with
    | nil => rfl
    | cons hr later => rfl

/-- Assumes: ranges that can be walked along, and an iterator that stands on one of them. Advancing
it either moves it down in the range, or to the start of the next one if the names of the range are
all passed. -/
theorem iteratorAdvance_cases {hl : Hostlist} (hwalk : ∀ hr ∈ hl.ranges, hr.Walkable)
    {i : HostlistIterator}
    (hstands : i.Stands hl) {hr : HostRange} {later : List HostRange}
    (hdrop : hl.ranges.drop i.idx = hr :: later) :
    (∃ depth : ℕ, iteratorAdvance hl i = ⟨i.idx, depth⟩ ∧ depth = i.depth + 1 ∧
      depth ≤ hr.hi - hr.lo) ∨
      iteratorAdvance hl i = ⟨i.idx + 1, 0⟩ ∧ i.depth = (hr.hi - hr.lo : ℕ) := by
  have hat : hl.ranges[i.idx]? = some hr := by
    rw [← List.head?_drop, hdrop, List.head?_cons]
  have hr_walk := hwalk hr (List.mem_of_getElem? hat)
  have hle := hr_walk.lo_le_hi
  have hmax := hr_walk.depth_lt
  have hlow := hstands.neg_one_le
  have hhigh := hstands.depth_le hr (by rw [hdrop]; rfl)
  unfold ulongMax at hmax
  have hdepth : toUlong (i.depth + 1) = (i.depth + 1).toNat := by
    unfold toUlong
    omega
  unfold iteratorAdvance
  rw [hat]
  simp only [ulongSub_eq_sub hle, hdepth]
  split_ifs with hpast
  · exact Or.inr ⟨rfl, by omega⟩
  · refine Or.inl ⟨(i.depth + 1).toNat, ?_, by omega, by omega⟩
    rw [Int.toNat_of_nonneg (by omega)]

/-- An iterator on a host of a range: the name that `hostlist_next` gives there, and what is ahead
behind it. -/
theorem hostlistNext_at {hl : Hostlist} (hwalk : ∀ hr ∈ hl.ranges, hr.Walkable)
    {i : HostlistIterator} {idx depth : ℕ}
    (hadvance : iteratorAdvance hl i = ⟨idx, depth⟩) {hr : HostRange} {later : List HostRange}
    (hdrop : hl.ranges.drop idx = hr :: later) (hdepth : depth ≤ hr.hi - hr.lo) :
    ∃ name i', hostlistNext hl i = (some name, i') ∧ i'.Stands hl ∧
      hr.cutHosts.drop depth ++ later.flatMap HostRange.cutHosts = name :: i'.ahead hl := by
  have hat : hl.ranges[idx]? = some hr := by
    rw [← List.head?_drop, hdrop, List.head?_cons]
  refine ⟨nextName hr depth, ⟨idx, depth⟩, ?_, ⟨?_, fun other hother ↦ ?_⟩, ?_⟩
  · unfold hostlistNext
    rw [hadvance]
    simp only [hat]
  · exact (by decide : (-1 : ℤ) ≤ 0).trans (Int.natCast_nonneg depth)
  · obtain rfl : hr = other := by simpa [hdrop] using hother
    exact Int.ofNat_le.mpr hdepth
  · have hnext : ((depth : ℤ) + 1).toNat = depth + 1 := by omega
    rw [HostRange.drop_cutHosts (hwalk hr (List.mem_of_getElem? hat)) hdepth, List.cons_append]
    unfold HostlistIterator.ahead
    simp only [hdrop, hnext]

/-- Assumes: ranges that can be walked along, and an iterator that stands in the list.
`hostlist_next` takes the first of the names ahead, if there is one. -/
theorem hostlistNext_spec {hl : Hostlist} (hwalk : ∀ hr ∈ hl.ranges, hr.Walkable)
    {i : HostlistIterator}
    (hstands : i.Stands hl) :
    i.ahead hl = [] ∧ (hostlistNext hl i).1 = none ∨
      ∃ name i', hostlistNext hl i = (some name, i') ∧ i'.Stands hl ∧
        i.ahead hl = name :: i'.ahead hl := by
  cases hdrop : hl.ranges.drop i.idx with
  | nil =>
    left
    have hat : hl.ranges[i.idx]? = none := by
      rw [← List.head?_drop, hdrop, List.head?_nil]
    refine ⟨by rw [HostlistIterator.ahead, hdrop], ?_⟩
    unfold hostlistNext iteratorAdvance
    simp only [hat]
  | cons hr later =>
    have hlater : hl.ranges.drop (i.idx + 1) = later := by
      rw [← List.drop_drop, hdrop, List.drop_succ_cons, List.drop_zero]
    have hmem : hr ∈ hl.ranges :=
      (List.drop_subset i.idx hl.ranges) (by rw [hdrop]; exact List.mem_cons_self)
    rcases iteratorAdvance_cases hwalk hstands hdrop with ⟨depth, hadvance, hdepth,
      hle⟩ | ⟨hadvance, hend⟩
    · right
      obtain ⟨name, i', hnext, hstands', hahead⟩ := hostlistNext_at hwalk hadvance hdrop hle
      refine ⟨name, i', hnext, hstands', ?_⟩
      rw [HostlistIterator.ahead, hdrop, ← hahead, ← hdepth, Int.toNat_natCast]
    · -- the names of the range are all passed
      have hpassed : i.ahead hl = later.flatMap HostRange.cutHosts := by
        have hlength := hr.length_cutHosts (hwalk hr hmem)
        rw [HostlistIterator.ahead, hdrop]
        simp only
        rw [List.drop_eq_nil_of_le (by omega), List.nil_append]
      cases hmore : later with
      | nil =>
        left
        rw [hmore] at hpassed hlater
        have hat : hl.ranges[i.idx + 1]? = none := by
          rw [← List.head?_drop, hlater, List.head?_nil]
        refine ⟨hpassed, ?_⟩
        unfold hostlistNext
        rw [hadvance]
        simp only [hat]
      | cons next rest =>
        right
        rw [hmore] at hpassed hlater
        obtain ⟨name, i', hnext, hstands', hahead⟩ :=
          hostlistNext_at hwalk (show iteratorAdvance hl i = ⟨i.idx + 1, (0 : ℕ)⟩ from hadvance)
            hlater
            (Nat.zero_le _)
        rw [List.drop_zero] at hahead
        exact ⟨name, i', hnext, hstands', by rw [hpassed, List.flatMap_cons, hahead]⟩

/-- Assumes: ranges that can be walked along, and enough calls. They give the names ahead of the
iterator. -/
theorem nextNames_ahead {hl : Hostlist} (hwalk : ∀ hr ∈ hl.ranges, hr.Walkable) (calls : ℕ) :
    ∀ i : HostlistIterator, i.Stands hl → (i.ahead hl).length ≤ calls →
      nextNames hl calls i = i.ahead hl := by
  induction calls with
  | zero =>
    intro i _ hcalls
    rw [nextNames, List.length_eq_zero_iff.mp (Nat.le_zero.mp hcalls)]
  | succ calls ih =>
    intro i hstands hcalls
    rw [nextNames]
    rcases hostlistNext_spec hwalk hstands with ⟨hahead, hnext⟩ | ⟨name, i', hnext,
      hstands', hahead⟩
    · rw [hahead, ← Prod.mk.eta (p := hostlistNext hl i), hnext]
    · rw [hahead, List.length_cons] at hcalls
      rw [hnext, hahead]
      exact congrArg (name :: ·) (ih i' hstands' (by omega))

/-- Assumes: ranges that can be walked along, and enough calls. From a new iterator they give the
names of the list, with cut suffixes. -/
theorem nextNames_eq {hl : Hostlist} (hwalk : ∀ hr ∈ hl.ranges, hr.Walkable) {calls : ℕ}
    (hcalls : hl.cutHosts.length ≤ calls) : nextNames hl calls hostlistIteratorCreate =
      hl.cutHosts := by
  obtain ⟨hstands, hahead⟩ := hostlistIteratorCreate_spec hl
  rw [← hahead] at hcalls ⊢
  exact nextNames_ahead hwalk calls _ hstands hcalls

/-! ### Suffixes that are cut -/

/-- No range is padded to more than 14 characters. -/
def Hostlist.FitsSuffix (hl : Hostlist) : Prop :=
  ∀ hr ∈ hl.ranges, hr.width ≤ 14

instance (hl : Hostlist) : Decidable hl.FitsSuffix :=
  decidable_of_iff (hl.ranges.all fun hr ↦ decide (hr.width ≤ 14)) (by simp [Hostlist.FitsSuffix])

/-- Assumes: a canonical range. Its names are cut to other names exactly if it is padded to more
than 14 characters. -/
theorem HostRange.Canonical.cutHosts_eq_hosts_iff {hr : HostRange} (hcanonical : hr.Canonical) :
    hr.cutHosts = hr.hosts ↔ hr.width ≤ 14 := by
  have hle := hcanonical.lo_le_hi
  have hmax := hcanonical.hi_le
  unfold cutHosts hosts
  split_ifs with hsingle
  · rw [hcanonical.single_width hsingle]
    simp
  · have hdigits : ∀ number, number ≤ hr.hi → numDigits number ≤ 14 := fun number hnumber ↦ by
      refine (numDigits_le_iff (by decide)).mpr ?_
      unfold maxHostSuffix at hmax
      omega
    constructor
    · intro h
      have hfirst := List.map_inj_left.mp h hr.lo (List.mem_range'_1.mpr ⟨le_rfl, by omega⟩)
      have hlength := congrArg List.length (List.append_cancel_left hfirst)
      have hlo := hdigits hr.lo hle
      rw [List.length_take, length_padded] at hlength
      omega
    · intro hwidth
      refine List.map_congr_left fun number hnumber ↦ ?_
      have hbounds := List.mem_range'_1.mp hnumber
      have hnumber := hdigits number (by omega)
      rw [List.take_of_length_le]
      rw [length_padded]
      omega

/-- A range has as many names in the iteration as it has hosts. -/
theorem HostRange.length_cutHosts_eq (hr : HostRange) : hr.cutHosts.length = hr.hosts.length := by
  unfold HostRange.cutHosts HostRange.hosts
  split_ifs
  · rfl
  · rw [List.length_map, List.length_map]

/-- An iteration gives as many names as the list has hosts. -/
theorem Hostlist.length_cutHosts (hl : Hostlist) : hl.cutHosts.length = hl.hosts.length := by
  unfold Hostlist.cutHosts Hostlist.hosts hostsOf
  rw [List.length_flatMap, List.length_flatMap]
  exact congrArg List.sum (List.map_congr_left fun hr _ ↦ hr.length_cutHosts_eq)

/-- Assumes: a canonical list. An iterator gives its names exactly if no range is padded to more
than 14 characters. -/
theorem cutHosts_eq_hosts_iff {hl : Hostlist} (hcanonical : hl.Canonical) :
    hl.cutHosts = hl.hosts ↔ hl.FitsSuffix := by
  have hranges : ∀ ranges : List HostRange, (∀ hr ∈ ranges, hr.Canonical) →
      (ranges.flatMap HostRange.cutHosts = ranges.flatMap HostRange.hosts ↔
          ∀ hr ∈ ranges, hr.width ≤ 14) := by
    intro ranges
    induction ranges with
    | nil => exact fun _ ↦ ⟨fun _ hr hmem ↦ absurd hmem List.not_mem_nil, fun _ ↦ rfl⟩
    | cons hr rest ih =>
      intro h
      obtain ⟨hfirst, hrest⟩ := List.forall_mem_cons.mp h
      rw [List.flatMap_cons, List.flatMap_cons, List.forall_mem_cons,
        ← hfirst.cutHosts_eq_hosts_iff, ← ih hrest]
      exact ⟨fun heq ↦ List.append_inj heq hr.length_cutHosts_eq, fun heq ↦ by rw [heq.1, heq.2]⟩
  exact hranges hl.ranges hcanonical.ranges_canonical

end Whatsup
