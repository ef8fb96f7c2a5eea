import Whatsup.Hostlist.Delete
import Whatsup.Hostlist.Iterator

/-!
# Iterators of a list that gets shorter

A hostlist knows its iterators, and adjusts them when a range is inserted or taken out.
`HostlistIterator.Passed` says how many names an iterator has passed, whatever ranges these are in:
`HostlistIterator.Passed.next_some` and `HostlistIterator.Passed.next_none` are `hostlist_next`, and
`HostlistIterator.Passed.shift` and `HostlistIterator.Passed.pop` what `hostlist_shift` and
`hostlist_pop` do to an iterator in the middle of its way. With these, `runIteration_eq` shows that
any number of iterators give the names of a plain list, of which the first or last one may be taken
at any time.

`hostlist_remove` takes out the name that was given last. It may put the iterator back by some names
that it has given already (`remove_spec`); `removeWhere_eq` shows that removing names in the course
of an iteration ends nevertheless, and with which list.
-/

set_option autoImplicit false
set_option relaxedAutoImplicit false

namespace Whatsup

open CLib

/-! ### A list with its iterators -/

/-- A hostlist with its iterators, in the order in which they were created. -/
structure IteratedHostlist where
  list : Hostlist
  iterators : List HostlistIterator

/-- `hostlist_iterator_reset`. -/
def hostlistIteratorReset : HostlistIterator :=
  ⟨0, -1⟩

/-- `hostlist_shift_iterators`, for one iterator. -/
def shiftIterator (idx : ℕ) (depth : ℤ) (n : ℕ) (i : HostlistIterator) : HostlistIterator :=
  if n = 0 then
    if i.idx = idx ∧ depth ≤ i.depth then ⟨i.idx, if -1 < i.depth then i.depth - 1 else -1⟩ else i
  else if idx ≤ i.idx then
    if n ≤ i.idx then ⟨i.idx - n, i.depth⟩ else hostlistIteratorReset
  else i

/-- `hostlist_insert_range`, with the iterators. -/
def IteratedHostlist.insertRange (s : IteratedHostlist) (hr : HostRange) (n : ℕ) :
    IteratedHostlist :=
  { list := hostlistInsertRange s.list hr n
    iterators :=
      if s.list.ranges.length < n then s.iterators
      else s.iterators.map fun i ↦ if n ≤ i.idx then ⟨i.idx + 1, i.depth⟩ else i }

/-- `hostlist_delete_range`, with the iterators. -/
def IteratedHostlist.deleteRange (s : IteratedHostlist) (n : ℕ) : IteratedHostlist :=
  { list := hostlistDeleteRange s.list n
    iterators := s.iterators.map (shiftIterator n 0 1) }

/-- `hostlist_next`, on an iterator of the list; `none` if there is no such iterator. -/
def IteratedHostlist.next (s : IteratedHostlist) (k : ℕ) :
    Option (Option (List Char) × IteratedHostlist) :=
  s.iterators[k]?.map fun i ↦
    ((hostlistNext s.list i).1, { s with iterators := s.iterators.set k (hostlistNext s.list i).2 })

/-- `hostlist_shift`, with the iterators. -/
def IteratedHostlist.shift (s : IteratedHostlist) :
    Option (Option (List Char) × IteratedHostlist) :=
  if 0 < s.list.nhosts then
    match s.list.ranges with
    | [] => none
    | hr :: rest =>
      let (host, hr) := hostrangeShift hr
      let s := { s with list := { ranges := hr :: rest, nhosts := toInt (s.list.nhosts - 1) } }
      some (host,
        if hostrangeEmpty hr then s.deleteRange 0
        else { s with iterators := s.iterators.map (shiftIterator 0 0 0) })
  else some (none, s)

/-- `hostlist_pop`. It leaves the iterators as they are. -/
def IteratedHostlist.pop (s : IteratedHostlist) : Option (Option (List Char) × IteratedHostlist) :=
  (hostlistPop s.list).map fun result ↦ (result.1, { s with list := result.2 })

/-- `hostlist_remove`; `none` if an assertion fails, or if there is no such iterator or no range
that it stands on. -/
def IteratedHostlist.remove (ndebug : Bool) (s : IteratedHostlist) (k : ℕ) :
    Option IteratedHostlist :=
  match s.iterators[k]? with
  | none => none
  | some i =>
    match s.list.ranges[i.idx]? with
    | none => none
    | some hr =>
      match hostrangeDeleteHost ndebug hr (ulongAdd hr.lo (toUlong i.depth)) with
      | none => none
      | some (hr, new) =>
        let s := { s with list := { s.list with ranges := s.list.ranges.set i.idx hr } }
        let s :=
          match new with
          | some new =>
            let s := s.insertRange new (i.idx + 1)
            { s with iterators := s.iterators.set k ⟨i.idx + 1, -1⟩ }
          | none =>
            if hostrangeEmpty hr then s.deleteRange i.idx
              else { s with iterators := s.iterators.set k ⟨i.idx, i.depth - 1⟩ }
        some { s with list := { s.list with nhosts := toInt (s.list.nhosts - 1) } }

/-- The list is shifted as it is without iterators. -/
theorem IteratedHostlist.shift_list (s : IteratedHostlist) :
    s.shift.map (fun result ↦ (result.1, result.2.list)) = hostlistShift s.list := by
  unfold IteratedHostlist.shift hostlistShift
  by_cases hpositive : 0 < s.list.nhosts
  · rw [if_pos hpositive, if_pos hpositive]
    cases s.list.ranges with
    | nil => rfl
    | cons hr rest =>
      simp only [Option.map_some]
      split_ifs <;> rfl
  · rw [if_neg hpositive, if_neg hpositive]
    rfl

/-! ### Names that are passed -/

/-- An iterator stands on a host of a range, or before the first. -/
structure HostlistIterator.On (i : HostlistIterator) (hl : Hostlist) (front : List HostRange)
    (hr : HostRange)
    (back : List HostRange) : Prop where
  ranges : hl.ranges = front ++ hr :: back
  idx : i.idx = front.length
  neg_one_le : -1 ≤ i.depth
  depth_le : i.depth ≤ (hr.hi - hr.lo : ℕ)

/-- How many names an iterator has passed: it is in a range, or behind the ranges, or at a number
that the last range has lost. At the end it makes no difference how many it has passed. -/
inductive HostlistIterator.Passed (i : HostlistIterator) (hl : Hostlist) (c : ℕ) : Prop
  | on {front back : List HostRange} {hr : HostRange} (hon : i.On hl front hr back)
      (hcount : (c : ℤ) = (hostsOf front).length + i.depth + 1)
  | ended (hcount : hl.hosts.length ≤ c) (hidx : hl.ranges.length ≤ i.idx)
  | behind {front : List HostRange} {hr : HostRange} (hcount : hl.hosts.length ≤ c)
    (hranges : hl.ranges = front ++ [hr])
      (hidx : i.idx = front.length) (hdepth : (hr.hi - hr.lo : ℕ) ≤ i.depth)
        (hmax : i.depth ≤ maxHostSuffix)

/-- An iterator stands on the name of a number, the one that it gave last. -/
def HostlistIterator.Gave (i : HostlistIterator) (hl : Hostlist) (c : ℕ) : Prop :=
  ∃ front hr back, i.On hl front hr back ∧ (c : ℤ) = (hostsOf front).length + i.depth ∧ 0 ≤ i.depth

/-- A name that was given is passed. -/
theorem HostlistIterator.Gave.passed {i : HostlistIterator} {hl : Hostlist} {c : ℕ}
    (h : i.Gave hl c) : i.Passed hl (c + 1) := by
  obtain ⟨front, hr, back, hon, hcount, -⟩ := h
  refine .on hon ?_
  push_cast
  rw [hcount]

/-- Behind its reset an iterator has passed no name. -/
theorem hostlistIteratorReset_passed (hl : Hostlist) : hostlistIteratorReset.Passed hl 0 := by
  cases hranges : hl.ranges with
  | nil =>
    refine .ended ?_ ?_
    · rw [Hostlist.hosts, hranges, hostsOf_nil, List.length_nil]
    · rw [hranges]
      exact Nat.zero_le _
  | cons hr back =>
    have hon : hostlistIteratorReset.On hl [] hr back := by
      refine ⟨hranges, rfl, le_rfl, ?_⟩
      change (-1 : ℤ) ≤ _
      omega
    exact .on hon rfl

/-! ### `hostlist_next` -/

/-- Assumes: a canonical list without cut suffixes, and an iterator that is advanced to a host of a
range. It gives the name of that host. -/
theorem hostlistNext_standing {hl : Hostlist} (hcanonical : hl.Canonical) (hfits : hl.FitsSuffix)
    {i : HostlistIterator}
    {front back : List HostRange} {hr : HostRange}
    (hranges : hl.ranges = front ++ hr :: back) {depth : ℕ}
    (hadvance : iteratorAdvance hl i = ⟨front.length, depth⟩) (hdepth : depth ≤ hr.hi - hr.lo) :
    ∃ name, hl.hosts[(hostsOf front).length + depth]? = some name ∧ hostlistNext hl i =
      (some name, ⟨front.length, depth⟩) := by
  have hmem : hr ∈ hl.ranges := by rw [hranges]; simp
  have hr_canonical := hcanonical.ranges_canonical hr hmem
  have hlength := hr_canonical.toValid.length_hosts
  have hat : hl.ranges[front.length]? = some hr := by
    rw [hranges, List.getElem?_append_right le_rfl, Nat.sub_self]; rfl
  refine ⟨nextName hr depth, ?_, ?_⟩
  · rw [hosts_eq_append hranges, List.getElem?_append_right (Nat.le_add_right _ _),
      Nat.add_sub_cancel_left,
      List.getElem?_append_left (by omega), ← hr_canonical.cutHosts_eq_hosts_iff.mpr
        (hfits hr hmem),
      hr.getElem_cutHosts hr_canonical.toValid.walkable hdepth]
  · unfold hostlistNext
    rw [hadvance]
    simp only [hat]

/-- Assumes: valid ranges, and an iterator in one of them. It is advanced in the range, or behind it
if it stands on the last host. -/
theorem HostlistIterator.On.advance {i : HostlistIterator} {hl : Hostlist}
    (hcanonical : hl.Canonical) {front back : List HostRange}
    {hr : HostRange} (hon : i.On hl front hr back) :
    (∃ depth : ℕ, iteratorAdvance hl i = ⟨front.length, depth⟩ ∧ depth = i.depth + 1 ∧
      depth ≤ hr.hi - hr.lo) ∨
      iteratorAdvance hl i = ⟨front.length + 1, 0⟩ ∧ i.depth = (hr.hi - hr.lo : ℕ) := by
  have hdrop : hl.ranges.drop i.idx = hr :: back := by rw [hon.ranges, hon.idx, List.drop_left]
  rw [← hon.idx]
  refine iteratorAdvance_cases (fun hr hmem ↦
    (hcanonical.ranges_canonical hr hmem).toValid.walkable) ⟨hon.neg_one_le, ?_⟩ hdrop
  intro other hother
  obtain rfl : hr = other := by simpa [hdrop] using hother
  exact hon.depth_le

/-- Assumes: a canonical list without cut suffixes, and an iterator with names ahead. It gives the
first of them. -/
theorem HostlistIterator.Passed.next_some {i : HostlistIterator} {hl : Hostlist} {c : ℕ}
    (h : i.Passed hl c)
    (hcanonical : hl.Canonical) (hfits : hl.FitsSuffix) (hc : c < hl.hosts.length) :
    ∃ name i', hl.hosts[c]? = some name ∧ hostlistNext hl i = (some name, i') ∧ i'.Gave hl c := by
  cases h with
  | ended hcount _ => exact absurd hcount (Nat.not_le.mpr hc)
  | behind hcount _ _ _ _ => exact absurd hcount (Nat.not_le.mpr hc)
  | @on front back hr hon hcount =>
    rcases hon.advance hcanonical with ⟨depth, hadvance, hdepth, hle⟩ | ⟨hadvance, hend⟩
    · obtain ⟨name, hname, hnext⟩ := hostlistNext_standing hcanonical hfits hon.ranges hadvance hle
      have hc' : c = (hostsOf front).length + depth := by omega
      refine ⟨name, ⟨front.length, depth⟩, hc' ▸ hname, hnext, front, hr, back,
        ⟨hon.ranges, rfl, ?_, ?_⟩, ?_, ?_⟩
      · exact (by decide : (-1 : ℤ) ≤ 0).trans (Int.natCast_nonneg depth)
      · exact Int.ofNat_le.mpr hle
      · rw [hc', Nat.cast_add]
      · exact Int.natCast_nonneg depth
    · -- the range is passed, and there is another one behind it
      have hr_canonical := hcanonical.ranges_canonical hr (by rw [hon.ranges]; simp)
      have hlength := hr_canonical.toValid.length_hosts
      have hc' : c = (hostsOf (front ++ [hr])).length := by
        rw [hostsOf_append, hostsOf_cons, hostsOf_nil, List.append_nil, List.length_append]
        omega
      cases back with
      | nil =>
        rw [Hostlist.hosts, hon.ranges] at hc
        omega
      | cons hr' back =>
        have hranges : hl.ranges = (front ++ [hr]) ++ hr' :: back := by rw [hon.ranges]; simp
        have hplace : (front ++ [hr]).length = front.length + 1 := by simp
        obtain ⟨name, hname, hnext⟩ :=
          hostlistNext_standing hcanonical hfits hranges (by rw [hadvance, hplace]; rfl)
          (Nat.zero_le (hr'.hi - hr'.lo))
        refine ⟨name, ⟨(front ++ [hr]).length, (0 : ℕ)⟩, hc' ▸ hname, hnext, front ++ [hr], hr',
          back, ⟨hranges, rfl, ?_, ?_⟩, ?_, le_rfl⟩
        · exact (by decide : (-1 : ℤ) ≤ 0)
        · exact Int.ofNat_le.mpr (Nat.zero_le _)
        · rw [← hc']
          exact (add_zero (c : ℤ)).symm

/-- Assumes: a canonical list, and an iterator that stands on or behind its last host. It is
advanced behind the ranges. -/
theorem hostlistNext_last {hl : Hostlist} (hcanonical : hl.Canonical) {i : HostlistIterator}
    {front : List HostRange} {hr : HostRange}
    (hranges : hl.ranges = front ++ [hr]) (hidx : i.idx = front.length)
    (hdepth : (hr.hi - hr.lo : ℕ) ≤ i.depth)
    (hmax : i.depth ≤ maxHostSuffix) : hostlistNext hl i = (none, ⟨front.length + 1, 0⟩) := by
  have hr_canonical := hcanonical.ranges_canonical hr (by rw [hranges]; simp)
  have hat : hl.ranges[front.length]? = some hr := by
    rw [hranges, List.getElem?_append_right le_rfl, Nat.sub_self]; rfl
  have hpast : hl.ranges[front.length + 1]? = none := by
    rw [hranges]
    exact List.getElem?_eq_none (by simp)
  have hlarge : ulongSub hr.hi hr.lo < toUlong (i.depth + 1) := by
    unfold maxHostSuffix at hmax
    rw [ulongSub_eq_sub hr_canonical.lo_le_hi]
    unfold toUlong
    omega
  unfold hostlistNext iteratorAdvance
  simp only [hidx, hat, if_pos hlarge, hpast]

/-- Assumes: a canonical list, and an iterator with no name ahead. It gives none, now and later. -/
theorem HostlistIterator.Passed.next_none {i : HostlistIterator} {hl : Hostlist} {c : ℕ}
    (h : i.Passed hl c)
    (hcanonical : hl.Canonical) (hc : hl.hosts.length ≤ c) :
    ∃ i', hostlistNext hl i = (none, i') ∧ ∀ c', hl.hosts.length ≤ c' → i'.Passed hl c' := by
  have hlast : ∀ {front : List HostRange} {hr : HostRange}, hl.ranges = front ++ [hr] →
    i.idx = front.length →
      (hr.hi - hr.lo : ℕ) ≤ i.depth → i.depth ≤ maxHostSuffix →
      ∃ i', hostlistNext hl i = (none, i') ∧ ∀ c', hl.hosts.length ≤ c' → i'.Passed hl c' :=
    fun hranges hidx hdepth hmax ↦ ⟨_, hostlistNext_last hcanonical hranges hidx hdepth hmax,
        fun c' hc' ↦
      .ended hc' (by rw [hranges]; simp)⟩
  cases h with
  | ended _ hidx =>
    refine ⟨i, ?_, fun c' hc' ↦ .ended hc' hidx⟩
    unfold hostlistNext iteratorAdvance
    simp only [List.getElem?_eq_none hidx]
  | behind _ hranges hidx hdepth hmax => exact hlast hranges hidx hdepth hmax
  | @on front back hr hon hcount =>
    have hr_canonical := hcanonical.ranges_canonical hr (by rw [hon.ranges]; simp)
    have hlength := hr_canonical.toValid.length_hosts
    have hhi := hr_canonical.hi_le
    have hdepth := hon.depth_le
    rw [hosts_eq_append hon.ranges, List.length_append, List.length_append] at hc
    cases back with
    | nil =>
      rw [hostsOf_nil, List.length_nil] at hc
      exact hlast hon.ranges hon.idx (by omega) (by omega)
    | cons hr' back =>
      -- a range behind it would have a name ahead
      have hlength' :=
        (hcanonical.ranges_canonical hr' (by rw [hon.ranges]; simp)).toValid.length_hosts
      rw [hostsOf_cons, List.length_append] at hc
      omega

/-! ### `hostlist_shift` and `hostlist_pop` -/

/-- Assumes: a list without its first name, of which the first range is left. An iterator that is
adjusted has passed one name less. -/
theorem HostlistIterator.Passed.shift_left {i : HostlistIterator} {hl : Hostlist} {c : ℕ}
    (h : i.Passed hl c)
    (hcanonical : hl.Canonical) {hr : HostRange} {back : List HostRange}
    (hranges : hl.ranges = hr :: back) (hmany : hr.lo < hr.hi)
    {hl' : Hostlist} (hranges' : hl'.ranges = { hr with lo := hr.lo + 1 } :: back)
    (hlength : hl'.hosts.length = hl.hosts.length - 1) :
    (shiftIterator 0 0 0 i).Passed hl' (c - 1) := by
  have hr_canonical := hcanonical.ranges_canonical hr (by rw [hranges]; simp)
  have hr_length := hr_canonical.toValid.length_hosts
  have hr_length' :=
    (hr_canonical.setBounds (show hr.lo + 1 ≤ hr.hi from hmany) le_rfl hmany).toValid.length_hosts
  have hr_hi : ({ hr with lo := hr.lo + 1 } : HostRange).hi -
    ({ hr with lo := hr.lo + 1 } : HostRange).lo = hr.hi - (hr.lo + 1) := rfl
  unfold shiftIterator
  rw [if_pos rfl]
  cases h with
  | @on front back' hr' hon hcount =>
    have hdepth := hon.depth_le
    have hlow := hon.neg_one_le
    have hsame := hon.ranges
    rw [hranges] at hsame
    cases front with
    | nil =>
      obtain ⟨rfl, rfl⟩ := List.cons.inj hsame
      have hidx : i.idx = 0 := hon.idx
      rw [hostsOf_nil, List.length_nil] at hcount
      by_cases hstarted : 0 ≤ i.depth
      · rw [if_pos ⟨hidx, hstarted⟩, if_pos (by omega)]
        have hon' : HostlistIterator.On ⟨i.idx, i.depth - 1⟩ hl' []
            { hr with lo := hr.lo + 1 } back :=
          ⟨hranges', hidx, show -1 ≤ i.depth - 1 by omega, show i.depth - 1 ≤ _ by
            rw [hr_hi]; omega⟩
        refine .on hon' ?_
        rw [hostsOf_nil, List.length_nil]
        change ((c - 1 : ℕ) : ℤ) = _ + (i.depth - 1) + 1
        omega
      · rw [if_neg (by omega)]
        have hon' : i.On hl' [] { hr with lo := hr.lo + 1 } back :=
          ⟨hranges', hidx, hlow, by rw [hr_hi]; omega⟩
        refine .on hon' ?_
        rw [hostsOf_nil, List.length_nil]
        omega
    | cons first front =>
      rw [List.cons_append] at hsame
      obtain ⟨rfl, rfl⟩ := List.cons.inj hsame
      have hidx := hon.idx
      rw [List.length_cons] at hidx
      rw [if_neg (by omega)]
      have hon' : i.On hl' ({ hr with lo := hr.lo + 1 } :: front) hr' back' :=
        ⟨hranges', hon.idx, hlow, hdepth⟩
      refine .on hon' ?_
      rw [hostsOf_cons, List.length_append] at hcount ⊢
      omega
  | ended hcount hidx =>
    rw [hranges, List.length_cons] at hidx
    rw [if_neg (by omega)]
    refine .ended (by omega) ?_
    rw [hranges', List.length_cons]
    omega
  | @behind front hr' hcount hlast hidx hdepth hmax =>
    rw [hranges] at hlast
    cases front with
    | nil =>
      obtain ⟨rfl, rfl⟩ := List.cons.inj hlast
      rw [if_pos ⟨hidx, by omega⟩, if_pos (by omega)]
      have hlast' : hl'.ranges = [] ++ [{ hr with lo := hr.lo + 1 }] := hranges'
      exact .behind (by omega) hlast' hidx (show _ ≤ i.depth - 1 by rw [hr_hi]; omega)
        (show i.depth - 1 ≤ _ by omega)
    | cons first front =>
      rw [List.cons_append] at hlast
      obtain ⟨rfl, rfl⟩ := List.cons.inj hlast
      have hidx' := hidx
      rw [List.length_cons] at hidx'
      rw [if_neg (by omega)]
      have hlast' : hl'.ranges = ({ hr with lo := hr.lo + 1 } :: front) ++ [hr'] := hranges'
      exact .behind (by omega) hlast' hidx hdepth hmax

/-- Assumes: a list without its first name, which was the only one of its range. An iterator that is
adjusted has passed one name less. -/
theorem HostlistIterator.Passed.shift_gone {i : HostlistIterator} {hl : Hostlist} {c : ℕ}
    (h : i.Passed hl c)
    (hcanonical : hl.Canonical) {hr : HostRange} {back : List HostRange}
    (hranges : hl.ranges = hr :: back) (honly : hr.lo = hr.hi)
    {hl' : Hostlist} (hranges' : hl'.ranges = back)
    (hlength : hl'.hosts.length = hl.hosts.length - 1) :
    (shiftIterator 0 0 1 i).Passed hl' (c - 1) := by
  have hr_length := (hcanonical.ranges_canonical hr (by rw [hranges]; simp)).toValid.length_hosts
  have hreset : ∀ c', c' = 0 → hostlistIteratorReset.Passed hl' c' := by
    rintro _ rfl
    exact hostlistIteratorReset_passed hl'
  unfold shiftIterator
  rw [if_neg one_ne_zero, if_pos (Nat.zero_le _)]
  cases h with
  | @on front back' hr' hon hcount =>
    have hdepth := hon.depth_le
    have hsame := hon.ranges
    rw [hranges] at hsame
    cases front with
    | nil =>
      obtain ⟨rfl, rfl⟩ := List.cons.inj hsame
      have hidx : i.idx = 0 := hon.idx
      rw [hostsOf_nil, List.length_nil] at hcount
      rw [if_neg (by omega)]
      exact hreset _ (by omega)
    | cons first front =>
      rw [List.cons_append] at hsame
      obtain ⟨rfl, rfl⟩ := List.cons.inj hsame
      have hidx := hon.idx
      rw [List.length_cons] at hidx
      rw [if_pos (by omega)]
      have hon' : HostlistIterator.On ⟨i.idx - 1, i.depth⟩ hl' front hr' back' :=
        ⟨hranges', show i.idx - 1 = _ by omega, hon.neg_one_le, hdepth⟩
      refine .on hon' ?_
      rw [hostsOf_cons, List.length_append] at hcount
      change ((c - 1 : ℕ) : ℤ) = _ + i.depth + 1
      have hlow := hon.neg_one_le
      omega
  | ended hcount hidx =>
    rw [hranges, List.length_cons] at hidx
    rw [if_pos (by omega)]
    refine .ended (by omega) ?_
    rw [hranges']
    change _ ≤ i.idx - 1
    omega
  | @behind front hr' hcount hlast hidx hdepth hmax =>
    rw [hranges] at hlast
    cases front with
    | nil =>
      obtain ⟨rfl, rfl⟩ := List.cons.inj hlast
      have hidx' : i.idx = 0 := hidx
      rw [if_neg (by omega)]
      refine .ended (by omega) ?_
      rw [hranges']
      exact Nat.zero_le _
    | cons first front =>
      rw [List.cons_append] at hlast
      obtain ⟨rfl, rfl⟩ := List.cons.inj hlast
      rw [List.length_cons] at hidx
      rw [if_pos (by omega)]
      exact .behind (by omega) hranges' (show i.idx - 1 = _ by omega) hdepth hmax

/-- Assumes: a list without its last name. An iterator has passed the same names, but not that
one. -/
theorem HostlistIterator.Passed.pop {i : HostlistIterator} {hl : Hostlist} {c : ℕ}
    (h : i.Passed hl c) (hcanonical : hl.Canonical)
    {front : List HostRange} {hr : HostRange} (hranges : hl.ranges = front ++ [hr]) {hl' : Hostlist}
    (hranges' : hl'.ranges = front ++ hr.without (hr.hi - hr.lo))
    (hlength : hl'.hosts.length = hl.hosts.length - 1) :
    i.Passed hl' (min c (hl.hosts.length - 1)) := by
  have hr_canonical := hcanonical.ranges_canonical hr (by rw [hranges]; simp)
  have hr_length := hr_canonical.toValid.length_hosts
  have hhi := hr_canonical.hi_le
  have hle := hr_canonical.lo_le_hi
  have htotal := congrArg List.length (hosts_eq_append hranges)
  rw [List.length_append, List.length_append, hostsOf_nil, List.length_nil] at htotal
  -- what becomes of an iterator at the last range
  have hlast : i.idx = front.length → (hr.hi - hr.lo : ℕ) ≤ i.depth → i.depth ≤ maxHostSuffix →
    hl.hosts.length ≤ c →
      i.Passed hl' (min c (hl.hosts.length - 1)) := by
    intro hidx hdepth hmax hcount
    unfold HostRange.without at hranges'
    rw [if_neg (by omega : ¬hr.lo + (hr.hi - hr.lo) < hr.hi), List.append_nil] at hranges'
    by_cases hmany : 0 < hr.hi - hr.lo
    · rw [if_pos hmany] at hranges'
      refine .behind (by omega) hranges' hidx ?_ hmax
      change ((hr.lo + (hr.hi - hr.lo) - 1 - hr.lo : ℕ) : ℤ) ≤ _
      omega
    · rw [if_neg hmany, List.append_nil] at hranges'
      exact .ended (by omega) (by rw [hranges']; omega)
  cases h with
  | @on front' back hr' hon hcount =>
    have hdepth := hon.depth_le
    have hlow := hon.neg_one_le
    have hsame := hon.ranges
    rw [hranges] at hsame
    rcases List.eq_nil_or_concat back with rfl | ⟨back, other, rfl⟩
    · obtain ⟨rfl, hrr⟩ := List.append_inj' hsame rfl
      obtain ⟨rfl, -⟩ := List.cons.inj hrr
      by_cases hend : i.depth = (hr.hi - hr.lo : ℕ)
      · exact hlast hon.idx (by omega) (by omega) (by omega)
      · unfold HostRange.without at hranges'
        rw [if_neg (by omega : ¬hr.lo + (hr.hi - hr.lo) < hr.hi), List.append_nil] at hranges'
        by_cases hmany : 0 < hr.hi - hr.lo
        · rw [if_pos hmany] at hranges'
          have hon' : i.On hl' front { hr with hi := hr.lo + (hr.hi - hr.lo) - 1 } [] := by
            refine ⟨hranges', hon.idx, hlow, ?_⟩
            change i.depth ≤ ((hr.lo + (hr.hi - hr.lo) - 1 - hr.lo : ℕ) : ℤ)
            omega
          exact .on hon' (by omega)
        · -- the iterator stands before the only host of the last range
          rw [if_neg hmany, List.append_nil] at hranges'
          exact .ended (by omega) (by rw [hranges', hon.idx])
    · rw [List.concat_eq_append, ← List.cons_append, ← List.append_assoc] at hsame
      obtain ⟨rfl, hrr⟩ := List.append_inj' hsame rfl
      obtain ⟨rfl, -⟩ := List.cons.inj hrr
      have hon' : i.On hl' front' hr' (back ++ hr.without (hr.hi - hr.lo)) :=
        ⟨by rw [hranges', List.append_assoc, List.cons_append], hon.idx, hlow, hdepth⟩
      have hbefore := (hcanonical.ranges_canonical hr' (by rw [hranges]; simp)).toValid.length_hosts
      rw [hostsOf_append, hostsOf_cons, List.length_append, List.length_append] at htotal
      exact .on hon' (by omega)
  | ended hcount hidx =>
    refine .ended (by omega) ?_
    have hfew : (hr.without (hr.hi - hr.lo)).length ≤ 1 := by
      unfold HostRange.without
      rw [if_neg (by omega : ¬hr.lo + (hr.hi - hr.lo) < hr.hi), List.append_nil]
      split_ifs <;> simp
    rw [hranges, List.length_append, List.length_singleton] at hidx
    rw [hranges', List.length_append]
    omega
  | @behind front' hr' hcount hranges'' hidx hdepth hmax =>
    rw [hranges] at hranges''
    obtain ⟨rfl, hrr⟩ := List.append_inj' hranges'' rfl
    obtain ⟨rfl, -⟩ := List.cons.inj hrr
    exact hlast hidx hdepth hmax hcount

/-! ### Any order of calls -/

/-- The calls on a list with iterators: a new iterator, the next name of one, its reset, and taking
the first or the last name. -/
inductive IterationCall
  | create
  | next (k : ℕ)
  | reset (k : ℕ)
  | shift
  | pop
deriving DecidableEq

/-- One call: what it returns, and the list afterwards; `none` if there is no such iterator, or no
range to take a host from. -/
def IterationCall.run : IterationCall → IteratedHostlist →
    Option (Option (List Char) × IteratedHostlist)
  | .create, s => some (none, { s with iterators := s.iterators ++ [hostlistIteratorCreate] })
  | .next k, s => s.next k
  | .reset k, s => s.iterators[k]?.map fun _ ↦
    (none, { s with iterators := s.iterators.set k hostlistIteratorReset })
  | .shift, s => s.shift
  | .pop, s => s.pop

/-- A plain list of names, and how many of them each iterator has passed. -/
structure NameIteration where
  names : List (List Char)
  passed : List ℕ
deriving DecidableEq

/-- One call on a plain list of names. -/
def IterationCall.runNames : IterationCall → NameIteration →
    Option (Option (List Char) × NameIteration)
  | .create, t => some (none, { t with passed := t.passed ++ [0] })
  | .next k, t => t.passed[k]?.map fun c ↦
    (t.names[c]?, { t with passed := t.passed.set k (min (c + 1) t.names.length) })
  | .reset k, t => t.passed[k]?.map fun _ ↦ (none, { t with passed := t.passed.set k 0 })
  | .shift, t => some (t.names.head?, { names := t.names.tail, passed := t.passed.map (· - 1) })
  | .pop, t =>
    some (t.names.getLast?,
    { names := t.names.dropLast, passed := t.passed.map (min · (t.names.length - 1)) })

/-- A sequence of calls: what they return, and the list behind them. -/
def runIteration : List IterationCall → IteratedHostlist →
    Option (List (Option (List Char)) × IteratedHostlist)
  | [], s => some ([], s)
  | call :: calls, s =>
    match call.run s with
    | none => none
    | some (answer, s) => (runIteration calls s).map fun result ↦ (answer :: result.1, result.2)

/-- A sequence of calls on a plain list of names. -/
def runNameIteration : List IterationCall → NameIteration →
    Option (List (Option (List Char)) × NameIteration)
  | [], t => some ([], t)
  | call :: calls, t =>
    match call.runNames t with
    | none => none
    | some (answer, t) => (runNameIteration calls t).map fun result ↦ (answer :: result.1, result.2)

/-- A hostlist with iterators is a plain list of names with the numbers of the names that are
passed. -/
structure IteratedHostlist.Denotes (s : IteratedHostlist) (t : NameIteration) : Prop where
  canonical : s.list.Canonical
  fits : s.list.FitsSuffix
  small : s.list.hosts.length < 2147483648
  names : s.list.hosts = t.names
  passed : List.Forall₂ (fun i c ↦ i.Passed s.list c) s.iterators t.passed

/-- Assumes: lists whose entries are related. So they are if two related entries take the place of
others. -/
theorem forall₂_set {α β : Type} {r : α → β → Prop} {xs : List α} {ys : List β}
    (h : List.Forall₂ r xs ys) {x : α} {y : β}
    (hxy : r x y) (k : ℕ) : List.Forall₂ r (xs.set k x) (ys.set k y) := by
  induction h generalizing k with
  | nil => exact .nil
  | cons hhead htail ih =>
    cases k with
    | zero => exact .cons hxy htail
    | succ k => exact .cons hhead (ih k)

/-- Assumes: lists whose entries are related. An entry of the one has a related entry in the
other. -/
theorem forall₂_getElem? {α β : Type} {r : α → β → Prop} {xs : List α} {ys : List β}
    (h : List.Forall₂ r xs ys) {k : ℕ} {y : β}
    (hy : ys[k]? = some y) : ∃ x, xs[k]? = some x ∧ r x y := by
  induction h generalizing k with
  | nil => exact absurd hy (by simp)
  | cons hhead _ ih =>
    cases k with
    | zero => exact ⟨_, rfl, Option.some.inj hy ▸ hhead⟩
    | succ k => exact ih hy

/-- The ranges that are left of a range have its width. -/
theorem HostRange.width_without {hr other : HostRange} {depth : ℕ} (h : other ∈ hr.without depth) :
    other.width = hr.width := by
  unfold HostRange.without at h
  rcases List.mem_append.mp h with h | h
  · split_ifs at h with hpos
    · rw [List.mem_singleton.mp h]
    · exact absurd h List.not_mem_nil
  · split_ifs at h with hpos
    · rw [List.mem_singleton.mp h]
    · exact absurd h List.not_mem_nil

/-- Assumes: a list without cut suffixes. There are none either if a host is taken out of one of its
ranges. -/
theorem Hostlist.FitsSuffix.without {hl hl' : Hostlist} (h : hl.FitsSuffix)
    {front back : List HostRange} {hr : HostRange}
    (hranges : hl.ranges = front ++ hr :: back) {depth : ℕ}
    (hranges' : hl'.ranges = front ++ (hr.without depth ++ back)) :
    hl'.FitsSuffix := by
  intro other hmem
  rw [hranges'] at hmem
  have hold : ∀ range ∈ front ++ hr :: back, range.width ≤ 14 :=
    fun range hrange ↦ h range (hranges ▸ hrange)
  rcases List.mem_append.mp hmem with hmem | hmem
  · exact hold other (List.mem_append_left _ hmem)
  · rcases List.mem_append.mp hmem with hmem | hmem
    · rw [HostRange.width_without hmem]
      exact hold hr (by simp)
    · exact hold other (List.mem_append_right _ (List.mem_cons_of_mem _ hmem))

/-- Assumes: a list with iterators and the plain list that it denotes. `hostlist_next` gives the
same, and denotes the same. -/
theorem IteratedHostlist.Denotes.next {s : IteratedHostlist} {t : NameIteration}
    (h : s.Denotes t) {k c : ℕ}
    (hc : t.passed[k]? = some c) :
    ∃ s', s.next k = some (t.names[c]?, s') ∧
      s'.Denotes { t with passed := t.passed.set k (min (c + 1) t.names.length) } := by
  obtain ⟨i, hi, hpassed⟩ := forall₂_getElem? h.passed hc
  unfold IteratedHostlist.next
  rw [hi, Option.map_some]
  by_cases hahead : c < s.list.hosts.length
  · obtain ⟨name, i', hname, hnext, hgave⟩ := hpassed.next_some h.canonical h.fits hahead
    rw [hnext, ← h.names, hname, min_eq_left hahead]
    exact ⟨_, rfl, h.canonical, h.fits, h.small, rfl, forall₂_set h.passed hgave.passed k⟩
  · obtain ⟨i', hnext, hend⟩ := hpassed.next_none h.canonical (not_lt.mp hahead)
    rw [hnext, ← h.names, List.getElem?_eq_none (not_lt.mp hahead), min_eq_right (by omega)]
    exact ⟨_, rfl, h.canonical, h.fits, h.small, rfl, forall₂_set h.passed (hend _ le_rfl) k⟩

/-- Assumes: a list with iterators and the plain list that it denotes. So does the list without its
first name, with the iterators adjusted. -/
theorem IteratedHostlist.Denotes.shift {s : IteratedHostlist} {t : NameIteration}
    (h : s.Denotes t) :
    ∃ s', s.shift = some (t.names.head?, s') ∧
      s'.Denotes { names := t.names.tail, passed := t.passed.map (· - 1) } := by
  have hnhosts := h.canonical.nhosts_eq_length h.small
  have hadjusted : ∀ (adjust : HostlistIterator → HostlistIterator) (hl' : Hostlist),
      (∀ i c, i.Passed s.list c → (adjust i).Passed hl' (c - 1)) →
      List.Forall₂ (fun i c ↦ i.Passed hl' c) (s.iterators.map adjust) (t.passed.map (· - 1)) :=
          fun adjust hl' hone ↦ by
    rw [List.forall₂_map_left_iff, List.forall₂_map_right_iff]
    exact h.passed.imp fun i c hpassed ↦ hone i c hpassed
  unfold IteratedHostlist.shift
  cases hranges : s.list.ranges with
  | nil =>
    have hnone : s.list.hosts = [] := by rw [Hostlist.hosts, hranges, hostsOf_nil]
    have hnames : t.names = [] := h.names ▸ hnone
    rw [if_neg (by rw [hnhosts, hnone]; decide), hnames]
    refine ⟨s, rfl, h.canonical, h.fits, h.small, hnone, ?_⟩
    rw [← List.map_id s.iterators]
    refine hadjusted id s.list fun i c hpassed ↦ ?_
    cases hpassed with
    | on hon _ => exact absurd (hranges.symm.trans hon.ranges) (by simp)
    | ended _ hidx => exact .ended (by rw [hnone]; exact Nat.zero_le _) hidx
    | behind _ hlast _ _ _ => exact absurd (hranges.symm.trans hlast) (by simp)
  | cons hr back =>
    have hr_canonical := h.canonical.ranges_canonical hr (by rw [hranges]; simp)
    have hlength := hr_canonical.toValid.length_hosts
    have hhosts : s.list.hosts = hr.hosts ++ hostsOf back := by
      rw [Hostlist.hosts, hranges, hostsOf_cons]
    have hne : hr.hosts ≠ [] := List.ne_nil_of_length_pos (by omega)
    have hpositive : 0 < s.list.nhosts := by
      rw [hnhosts, hhosts, List.length_append]
      omega
    have hhead : t.names.head? = hr.hosts.head? := by
      rw [← h.names, hhosts, List.head?_append_of_ne_nil _ hne]
    obtain ⟨hadd, hempty⟩ := hr_canonical.shifted
    obtain ⟨hnames, hcanonical⟩ := h.canonical.without_first hranges
    have hpieces : hr.without 0 = if hr.lo = hr.hi then [] else [{ hr with lo := hr.lo + 1 }] := by
      rw [← hr_canonical.left_lo, HostRange.left, hempty, hadd]
      by_cases honly : hr.lo = hr.hi
      · rw [if_pos honly, decide_eq_true honly, if_pos rfl]
      · rw [if_neg honly, decide_eq_false honly, if_neg Bool.false_ne_true]
    have hshorter : (hostsOf (hr.without 0 ++ back)).length = s.list.hosts.length - 1 := by
      rw [hnames, List.length_tail]
    have hranges' : hr.without 0 ++ back = [] ++ (hr.without 0 ++ back) := rfl
    have hdenotes : ∀ (adjust : HostlistIterator → HostlistIterator),
        (∀ i c, i.Passed s.list c →
          (adjust i).Passed { ranges := hr.without 0 ++ back, nhosts := toInt (s.list.nhosts - 1) }
          (c - 1)) →
        IteratedHostlist.Denotes
          { list := { ranges := hr.without 0 ++ back, nhosts := toInt (s.list.nhosts - 1) },
            iterators := s.iterators.map adjust }
          { names := t.names.tail, passed := t.passed.map (· - 1) } := fun adjust hone ↦
      ⟨hcanonical, h.fits.without (show s.list.ranges = [] ++ hr :: back from hranges) rfl,
        lt_of_eq_of_lt hshorter (lt_of_le_of_lt (Nat.sub_le _ _) h.small), h.names ▸ hnames,
          hadjusted adjust _ hone⟩
    rw [if_pos hpositive]
    simp only [hostrangeShift_spec hr_canonical, ← hhead, hempty]
    by_cases honly : hr.lo = hr.hi
    · rw [if_pos honly] at hpieces
      refine ⟨_, rfl, ?_⟩
      rw [decide_eq_true honly, if_pos rfl]
      have hgone := hdenotes (shiftIterator 0 0 1) fun i c hpassed ↦
        hpassed.shift_gone h.canonical hranges honly (by rw [hpieces]; rfl) hshorter
      rw [hpieces] at hgone
      exact hgone
    · rw [if_neg honly] at hpieces
      refine ⟨_, rfl, ?_⟩
      rw [decide_eq_false honly, if_neg Bool.false_ne_true, hadd]
      have hle := hr_canonical.lo_le_hi
      have hleft := hdenotes (shiftIterator 0 0 0) fun i c hpassed ↦
        hpassed.shift_left h.canonical hranges (by omega) (by rw [hpieces]; rfl) hshorter
      rw [hpieces] at hleft
      exact hleft

/-- Assumes: a list with iterators and the plain list that it denotes. So does the list without its
last name. -/
theorem IteratedHostlist.Denotes.pop {s : IteratedHostlist} {t : NameIteration} (h : s.Denotes t) :
    ∃ s', s.pop = some (t.names.getLast?, s') ∧
      s'.Denotes
        { names := t.names.dropLast, passed := t.passed.map (min · (t.names.length - 1)) } := by
  have hadjusted : ∀ hl' : Hostlist, (∀ (i : HostlistIterator) c, i.Passed s.list c →
    i.Passed hl' (min c (s.list.hosts.length - 1))) →
      List.Forall₂ (fun i c ↦ i.Passed hl' c) s.iterators
          (t.passed.map (min · (t.names.length - 1))) := fun hl' hone ↦ by
    rw [List.forall₂_map_right_iff, ← h.names]
    exact h.passed.imp fun i c hpassed ↦ hone i c hpassed
  unfold IteratedHostlist.pop
  rcases List.eq_nil_or_concat s.list.ranges with hempty | ⟨front, hr, hranges⟩
  · have hnone : s.list.hosts = [] := by rw [Hostlist.hosts, hempty, hostsOf_nil]
    have hpop : hostlistPop s.list = some (none, s.list) := by
      have hnhosts := h.canonical.nhosts_eq_length h.small
      unfold hostlistPop
      rw [if_neg (by rw [hnhosts, hnone]; decide)]
    refine ⟨s, ?_, h.canonical, h.fits, h.small, ?_, hadjusted s.list fun i c hpassed ↦ ?_⟩
    · rw [hpop, ← h.names, hnone]
      rfl
    · rw [← h.names, hnone]
      rfl
    · cases hpassed with
      | on hon _ => exact absurd (hempty.symm.trans hon.ranges) (by simp)
      | ended _ hidx => exact .ended (by rw [hnone]; exact Nat.zero_le _) hidx
      | behind _ hlast _ _ _ => exact absurd (hempty.symm.trans hlast) (by simp)
  · rw [List.concat_eq_append] at hranges
    obtain ⟨hnames, hcanonical⟩ := h.canonical.without_last hranges
    have hshorter : (hostsOf (front ++ hr.without (hr.hi - hr.lo))).length =
        s.list.hosts.length - 1 := by
      rw [hnames, List.length_dropLast]
    rw [hostlistPop_ranges h.canonical h.small hranges, Option.map_some, h.names]
    have hsame : front ++ hr.without (hr.hi - hr.lo) =
      front ++ (hr.without (hr.hi - hr.lo) ++ []) := by rw [List.append_nil]
    refine ⟨_, rfl, hcanonical, h.fits.without hranges hsame, ?_, ?_, ?_⟩
    · exact lt_of_eq_of_lt hshorter (lt_of_le_of_lt (Nat.sub_le _ _) h.small)
    · rw [← h.names]
      exact hnames
    · exact hadjusted _ fun i c hpassed ↦ hpassed.pop h.canonical hranges rfl hshorter

/-- Assumes: a list with iterators, the plain list that it denotes, and a call that the plain list
answers. The answer is the same, and the list denotes the plain list behind the call. -/
theorem IterationCall.run_denotes {s : IteratedHostlist} {t t' : NameIteration} (h : s.Denotes t)
    {call : IterationCall}
    {answer : Option (List Char)} (hcall : call.runNames t = some (answer, t')) :
    ∃ s', call.run s = some (answer, s') ∧ s'.Denotes t' := by
  cases call with
  | create =>
    obtain ⟨rfl, rfl⟩ := Prod.mk.inj (Option.some.inj hcall)
    refine ⟨_, rfl, h.canonical, h.fits, h.small, h.names, ?_⟩
    exact List.rel_append h.passed (.cons (hostlistIteratorReset_passed s.list) .nil)
  | next k =>
    obtain ⟨c, hc, heq⟩ := Option.map_eq_some_iff.mp hcall
    obtain ⟨rfl, rfl⟩ := Prod.mk.inj heq
    exact h.next hc
  | reset k =>
    obtain ⟨c, hc, heq⟩ := Option.map_eq_some_iff.mp hcall
    obtain ⟨rfl, rfl⟩ := Prod.mk.inj heq
    obtain ⟨i, hi, -⟩ := forall₂_getElem? h.passed hc
    refine ⟨{ s with iterators := s.iterators.set k hostlistIteratorReset }, by
      rw [IterationCall.run, hi]; rfl, h.canonical, h.fits,
      h.small, h.names, ?_⟩
    exact forall₂_set h.passed (hostlistIteratorReset_passed s.list) k
  | shift =>
    obtain ⟨rfl, rfl⟩ := Prod.mk.inj (Option.some.inj hcall)
    exact h.shift
  | pop =>
    obtain ⟨rfl, rfl⟩ := Prod.mk.inj (Option.some.inj hcall)
    exact h.pop

/-- Assumes: a list with iterators, the plain list that it denotes, and calls that the plain list
answers. The answers are the same. -/
theorem runIteration_denotes (calls : List IterationCall) :
    ∀ {s : IteratedHostlist} {t t' : NameIteration} {answers : List (Option (List Char))},
      s.Denotes t →
      runNameIteration calls t = some (answers, t') → ∃ s', runIteration calls s =
        some (answers, s') ∧ s'.Denotes t' := by
  induction calls with
  | nil =>
    intro s t t' answers h hrun
    obtain ⟨rfl, rfl⟩ := Prod.mk.inj (Option.some.inj hrun)
    exact ⟨s, rfl, h⟩
  | cons call calls ih =>
    intro s t t' answers h hrun
    rw [runNameIteration] at hrun
    cases hcall : call.runNames t with
    | none =>
      rw [hcall] at hrun
      exact absurd hrun (by simp)
    | some result =>
      obtain ⟨answer, t1⟩ := result
      rw [hcall] at hrun
      obtain ⟨⟨answers', t2⟩, hrest, heq⟩ := Option.map_eq_some_iff.mp hrun
      obtain ⟨rfl, rfl⟩ := Prod.mk.inj heq
      obtain ⟨s1, hstep, h1⟩ := IterationCall.run_denotes h hcall
      obtain ⟨s', hlater, h'⟩ := ih h1 hrest
      refine ⟨s', ?_, h'⟩
      rw [runIteration, hstep]
      simp only [hlater, Option.map_some]

/-- A list of a range of three hosts and a single one. -/
def fourHosts : Hostlist :=
  { ranges := [{ pfx := ['n'], lo := 1, hi := 3, width := 1, singlehost := false },
    hostrangeCreateSingle ['b']], nhosts := 4 }

/-- The list is canonical. -/
theorem fourHosts_canonical : fourHosts.Canonical := by
  have hranges : ∀ hr ∈ fourHosts.ranges, hr.Canonical := by
    intro hr hmem
    rcases List.mem_cons.mp hmem with rfl | hmem
    · exact ⟨⟨by decide, by decide, by decide⟩, by decide, fun _ ↦ rfl, by decide⟩
    · rw [List.mem_singleton.mp hmem]
      exact canonical_hostrangeCreateSingle _
  exact ⟨⟨fun hr hmem ↦ (hranges hr hmem).toValid, by decide⟩, hranges⟩

/-- Assumes: a canonical list of less than `2 ^ 31` names, no suffix of which is cut, and calls that
a plain list of its names answers: they create iterators, advance and reset any of them, and take
the first or the last name of the list, in any order. Each call gives what the plain list gives: an
iterator goes on with the names that it has not passed, neither leaving out nor repeating one, and
ends behind the last. -/
theorem runIteration_eq {hl : Hostlist} (hcanonical : hl.Canonical) (hfits : hl.FitsSuffix)
    (hsmall : hl.hosts.length < 2147483648)
    {calls : List IterationCall} {answers : List (Option (List Char))} {t : NameIteration}
    (hrun : runNameIteration calls ⟨hl.hosts, []⟩ = some (answers, t)) :
    ∃ s, runIteration calls ⟨hl, []⟩ = some (answers, s) ∧ s.list.hosts = t.names ∧
      s.list.Canonical := by
  have hstart : IteratedHostlist.Denotes ⟨hl, []⟩ ⟨hl.hosts, []⟩ :=
    ⟨hcanonical, hfits, hsmall, rfl, .nil⟩
  obtain ⟨s, hcalls, h⟩ := runIteration_denotes calls hstart hrun
  exact ⟨s, hcalls, h.names, h.canonical⟩

/-- Two iterators, the first name taken between their steps, and then the last one. -/
theorem runIteration_eq_fourHosts :
    ∃ s, runIteration [.create, .next 0, .next 0, .create, .shift, .next 1, .next 0, .pop, .next 0,
      .next 1, .next 1] ⟨fourHosts, []⟩ =
        some ([none, some "n1".toList, some "n2".toList, none, some "n1".toList, some "n2".toList,
          some "n3".toList, some "b".toList,
          none, some "n3".toList, none], s) ∧
      s.list.hosts = ["n2".toList, "n3".toList] ∧ s.list.Canonical :=
  @runIteration_eq fourHosts fourHosts_canonical (by decide)
    (by decide) _ _ ⟨["n2".toList, "n3".toList], [2, 2]⟩ (by decide)

/-! ### Removing what was given -/

/-- Assumes: a list whose range with the host of an iterator is gone. The iterator is put back, to
the first host of the range before that one. -/
theorem HostlistIterator.On.gone {i : HostlistIterator} {hl hl' : Hostlist}
    {front back : List HostRange} {hr : HostRange}
    (hon : i.On hl front hr back) (hstarted : 0 ≤ i.depth) (honly : hr.lo = hr.hi)
    (hranges : hl'.ranges = front ++ back)
    (hcanonical : hl'.Canonical) : ∃ c ≤ (hostsOf front).length,
      (shiftIterator i.idx 0 1 i).Passed hl' c := by
  have hidx := hon.idx
  have hdepth := hon.depth_le
  unfold shiftIterator
  rw [if_neg one_ne_zero, if_pos le_rfl]
  rcases List.eq_nil_or_concat front with rfl | ⟨front, before, rfl⟩
  · rw [if_neg (by rw [hidx]; decide)]
    exact ⟨0, Nat.zero_le _, hostlistIteratorReset_passed _⟩
  · rw [List.concat_eq_append] at hidx hranges ⊢
    have hbefore :=
      (hcanonical.ranges_canonical before (by rw [hranges]; simp)).toValid.length_hosts
    rw [List.length_append, List.length_singleton] at hidx
    rw [if_pos (by omega)]
    have hon' : HostlistIterator.On ⟨i.idx - 1, i.depth⟩ hl' front before back :=
      ⟨by rw [hranges, List.append_assoc, List.singleton_append], show i.idx - 1 = _ by
        omega, hon.neg_one_le,
        show i.depth ≤ _ by omega⟩
    refine ⟨(hostsOf front).length + 1, ?_, .on hon' ?_⟩
    · rw [hostsOf_append, hostsOf_cons, hostsOf_nil, List.append_nil, List.length_append]
      omega
    · change _ = _ + i.depth + 1
      push_cast
      omega

/-- Assumes: a range that is split at a depth. The lower part has as many hosts as the depth
says. -/
theorem HostRange.Canonical.length_below {hr below above : HostRange} (h : hr.Canonical) {depth : ℕ}
    (hdepth : depth ≤ hr.hi - hr.lo)
    (htwo : hr.without depth = [below, above]) : below.hosts.length = depth := by
  have hcanonical : below.Canonical := (h.without_spec hdepth).2 below (by rw [htwo]; simp)
  rw [hcanonical.toValid.length_hosts]
  unfold HostRange.without at htwo
  split_ifs at htwo with hpos hlast
  · obtain ⟨rfl, -⟩ := List.cons.inj htwo
    change hr.lo + depth - 1 - hr.lo + 1 = depth
    omega
  all_goals exact absurd (congrArg List.length htwo) (by simp)

/-- Assumes: a canonical list without cut suffixes, and its only iterator, which has given a name.
`hostlist_remove` takes that name out. The iterator has passed no name that was not passed
before. -/
theorem remove_spec {hl : Hostlist} (hcanonical : hl.Canonical) (hfits : hl.FitsSuffix)
    {i : HostlistIterator} {c : ℕ}
    (hgave : i.Gave hl c) (ndebug : Bool) :
    ∃ hl' i' c', IteratedHostlist.remove ndebug ⟨hl, [i]⟩ 0 = some ⟨hl',
      [i']⟩ ∧ hl'.hosts = hl.hosts.eraseIdx c ∧ hl'.Canonical ∧
      hl'.FitsSuffix ∧ i'.Passed hl' c' ∧ c' ≤ c := by
  obtain ⟨front, hr, back, hon, hcount, hstarted⟩ := hgave
  have hr_canonical := hcanonical.ranges_canonical hr (by rw [hon.ranges]; simp)
  have hlength := hr_canonical.toValid.length_hosts
  have hhi := hr_canonical.hi_le
  have hlo := hr_canonical.lo_le_hi
  have hon_depth := hon.depth_le
  unfold maxHostSuffix at hhi
  obtain ⟨depth, hd⟩ := Int.eq_ofNat_of_zero_le hstarted
  have hdepth : depth ≤ hr.hi - hr.lo := by omega
  obtain ⟨hnames, hcanonical'⟩ := hcanonical.without hon.ranges hdepth
  rw [show (hostsOf front).length + depth = c by omega] at hnames
  have hfits' : Hostlist.FitsSuffix
      { ranges := front ++ (hr.without depth ++ back), nhosts := toInt (hl.nhosts - 1) } :=
    hfits.without hon.ranges rfl
  have hnum : ulongAdd hr.lo (toUlong i.depth) = hr.lo + depth := by
    rw [hd, toUlong_natCast (by omega), ulongAdd, Nat.mod_eq_of_lt (by omega)]
  have hat : hl.ranges[i.idx]? = some hr := by
    rw [hon.ranges, hon.idx, List.getElem?_append_right le_rfl, Nat.sub_self]
    rfl
  obtain ⟨hr', new, hdelete, hcases⟩ := hostrangeDeleteHost_cases hr_canonical hdepth ndebug
  have hset : hl.ranges.set i.idx hr' = front ++ hr' :: back := by rw [hon.ranges, hon.idx, set_at]
  unfold IteratedHostlist.remove
  simp only [List.getElem?_cons_zero, hat, hnum, hdelete, hset]
  rcases hcases with ⟨rfl, hempty, honly, hnone⟩ | ⟨rfl, hempty, -, hone⟩ | ⟨above, rfl,
    hcopy, htwo⟩
  · rw [hnone, List.nil_append] at hnames hcanonical' hfits'
    obtain ⟨c', hc', hpassed⟩ := hon.gone hstarted honly
      (show ({ ranges := front ++ back, nhosts := toInt (hl.nhosts - 1) } : Hostlist).ranges =
        front ++ back from rfl) hcanonical'
    have herase : (front ++ hr' :: back).eraseIdx i.idx = front ++ back := by
      rw [hon.idx, eraseIdx_at]
    simp only [hempty, if_true, IteratedHostlist.deleteRange, hostlistDeleteRange, herase,
      List.map_cons, List.map_nil]
    exact ⟨_, _, c', rfl, hnames, hcanonical', hfits', hpassed, by omega⟩
  · rw [hone, List.singleton_append] at hnames hcanonical' hfits'
    simp only [hempty, Bool.false_eq_true, if_false, List.set_cons_zero]
    have hfewer : hr'.hi - hr'.lo + 1 = hr.hi - hr.lo := by
      obtain ⟨hpieces, hpieces_canonical⟩ := hr_canonical.without_spec hdepth
      have hleft := congrArg List.length hpieces
      rw [hone, hostsOf_cons, hostsOf_nil, List.append_nil, List.length_eraseIdx_of_lt (by omega),
        (hpieces_canonical hr' (by rw [hone]; simp)).toValid.length_hosts] at hleft
      omega
    have hon' : HostlistIterator.On ⟨i.idx, i.depth - 1⟩
      { ranges := front ++ hr' :: back, nhosts := toInt (hl.nhosts - 1) }
        front hr' back :=
      ⟨rfl, hon.idx, show -1 ≤ i.depth - 1 by omega, show i.depth - 1 ≤ _ by omega⟩
    refine ⟨_, _, c, rfl, hnames, hcanonical', hfits', .on hon' ?_, le_rfl⟩
    change _ = _ + (i.depth - 1) + 1
    omega
  · rw [htwo] at hnames hcanonical' hfits'
    have hbelow := hr_canonical.length_below hdepth htwo
    have hinsert :=
      hostlistInsertRange_at (show ({ hl with ranges := front ++ hr' :: back } : Hostlist).ranges =
      _ from rfl) hcopy
    simp only [IteratedHostlist.insertRange, hon.idx, hinsert]
    have hon' : HostlistIterator.On ⟨front.length + 1, -1⟩
        { ranges := front ++ ([hr', above] ++ back), nhosts := toInt (hl.nhosts - 1) }
            (front ++ [hr']) above back := by
      refine ⟨by simp, by simp, le_rfl, ?_⟩
      change (-1 : ℤ) ≤ _
      omega
    refine ⟨{ ranges := front ++ ([hr', above] ++ back), nhosts := toInt (hl.nhosts - 1) },
      ⟨front.length + 1, -1⟩, c, by simp, hnames,
      hcanonical', hfits', .on hon' ?_, le_rfl⟩
    rw [hostsOf_append, hostsOf_cons, hostsOf_nil, List.append_nil, List.length_append, hbelow]
    change _ = _ + (-1 : ℤ) + 1
    push_cast
    omega

/-- The names that a test finds are removed in the course of an iteration: `while ((name =
hostlist_next(i))) if (test(name)) hostlist_remove(i)`. Without rounds left it does not end. -/
def removeWhere (ndebug : Bool) (test : List Char → Bool) : ℕ → IteratedHostlist →
    Option IteratedHostlist
  | 0, _ => none
  | rounds + 1, s =>
    match s.next 0 with
    | none => none
    | some (none, s) => some s
    | some (some name, s) =>
      if test name then
        match s.remove ndebug 0 with
        | none => none
        | some s => removeWhere ndebug test rounds s
      else removeWhere ndebug test rounds s

/-- Assumes: a canonical list without cut suffixes, its only iterator, which has passed no name that
the test finds, and enough rounds. The loop ends, and takes the names that the test finds out of the
list. -/
theorem removeWhere_passed (ndebug : Bool) (test : List Char → Bool) (rounds : ℕ) :
    ∀ (hl : Hostlist) (i : HostlistIterator) (c : ℕ), hl.Canonical → hl.FitsSuffix → i.Passed hl c →
      (∀ name ∈ hl.hosts.take c, test name = false) →
      hl.hosts.length * (hl.hosts.length + 1) + (hl.hosts.length - c) < rounds →
      ∃ hl' i', removeWhere ndebug test rounds ⟨hl, [i]⟩ = some ⟨hl', [i']⟩ ∧
        hl'.hosts = hl.hosts.filter (!test ·) ∧ hl'.Canonical := by
  induction rounds with
  | zero => exact fun _ _ _ _ _ _ _ h ↦ absurd h (Nat.not_lt_zero _)
  | succ rounds ih =>
    intro hl i c hcanonical hfits hpassed hkept hrounds
    rw [removeWhere, IteratedHostlist.next]
    simp only [List.getElem?_cons_zero, Option.map_some, List.set_cons_zero]
    by_cases hahead : c < hl.hosts.length
    · obtain ⟨name, i', hname, hnext, hgave⟩ := hpassed.next_some hcanonical hfits hahead
      simp only [hnext]
      cases htest : test name with
      | false =>
        rw [if_neg Bool.false_ne_true]
        refine ih hl i' (c + 1) hcanonical hfits hgave.passed (fun other hother ↦ ?_) (by omega)
        rw [List.take_add_one, hname] at hother
        rcases List.mem_append.mp hother with hother | hother
        · exact hkept other hother
        · rw [List.mem_singleton.mp hother]
          exact htest
      | true =>
        obtain ⟨hl1, i1, c1, hremove, hnames, hcanonical1, hfits1, hpassed1, hc1⟩ :=
          remove_spec hcanonical hfits hgave ndebug
        have hlength : hl1.hosts.length + 1 = hl.hosts.length := by
          rw [hnames, List.length_eraseIdx_of_lt hahead]
          omega
        have hfewer : hl1.hosts.length * (hl1.hosts.length + 1) + (hl1.hosts.length - c1) <
            rounds := by
          have hproduct : hl.hosts.length * (hl.hosts.length + 1) =
              hl1.hosts.length * (hl1.hosts.length + 1) + 2 * hl.hosts.length := by
            rw [← hlength]
            ring
          omega
        rw [List.eraseIdx_eq_take_drop_succ] at hnames
        have hkept1 : ∀ other ∈ hl1.hosts.take c1, test other = false := fun other hother ↦ by
          rw [hnames, List.take_append_of_le_length (by rw [List.length_take]; omega),
            List.take_take] at hother
          exact hkept other (List.take_subset_take_left _ (Nat.min_le_right _ _) hother)
        obtain ⟨hl', i', hrun, hleft, hcanonical'⟩ :=
          ih hl1 i1 c1 hcanonical1 hfits1 hpassed1 hkept1 hfewer
        refine ⟨hl', i', ?_, ?_, hcanonical'⟩
        · simp only [if_true, hremove]
          exact hrun
        · have hsplit : hl.hosts = hl.hosts.take c ++ name :: hl.hosts.drop (c + 1) := by
            rw [← (List.getElem_eq_iff hahead).mpr hname, ← List.drop_eq_getElem_cons hahead,
              List.take_append_drop]
          have hgone : (!test name) = false := by rw [htest]; rfl
          rw [hleft, hnames, List.filter_append]
          conv_rhs => rw [hsplit]
          rw [List.filter_append, List.filter_cons_of_neg (by rw [hgone]; exact Bool.false_ne_true)]
    · obtain ⟨i', hnext, -⟩ := hpassed.next_none hcanonical (not_lt.mp hahead)
      rw [List.take_of_length_le (not_lt.mp hahead)] at hkept
      simp only [hnext]
      refine ⟨hl, i', rfl, ?_, hcanonical⟩
      rw [List.filter_eq_self.mpr fun name hmem ↦ by rw [hkept name hmem]; rfl]

/-- Assumes: a canonical list without cut suffixes. An iteration in which the names that a test
finds are removed ends, although `hostlist_remove` may put the iterator back. What is left of the
list are the names that the test does not find, in order, with the right count. -/
theorem removeWhere_eq (ndebug : Bool) (test : List Char → Bool) {hl : Hostlist}
    (hcanonical : hl.Canonical) (hfits : hl.FitsSuffix) :
    ∃ rounds, ∀ more, ∃ s, removeWhere ndebug test (rounds + more)
      ⟨hl, [hostlistIteratorCreate]⟩ = some s ∧
      s.list.hosts = hl.hosts.filter (!test ·) ∧ s.list.Canonical := by
  refine ⟨hl.hosts.length * (hl.hosts.length + 1) + hl.hosts.length + 1, fun more ↦ ?_⟩
  obtain ⟨hl', i', hrun, hleft, hcanonical'⟩ := removeWhere_passed ndebug test
    (hl.hosts.length * (hl.hosts.length + 1) + hl.hosts.length + 1 + more) hl hostlistIteratorCreate
      0 hcanonical hfits
    (hostlistIteratorReset_passed hl) (fun name hmem ↦ absurd hmem (by simp)) (by omega)
  exact ⟨_, hrun, hleft, hcanonical'⟩

/-- The last name makes a range of its own. Its removal puts the iterator back into the range
before. -/
theorem removeWhere_eq_fourHosts :
    ∃ rounds, ∀ more, ∃ s, removeWhere false (· == ['b']) (rounds + more)
      ⟨fourHosts, [hostlistIteratorCreate]⟩ = some s ∧
      s.list.hosts = fourHosts.hosts.filter (!(· == ['b']) ·) ∧ s.list.Canonical :=
  removeWhere_eq false (· == ['b']) fourHosts_canonical (by decide)

end Whatsup
