import Whatsup.Hostlist.Parse

/-!
# Lists of pushed host expressions

What holds of every list that is collected with `hostlist_push`, whatever the host expressions:
single hosts have the bounds and the width that `hostrange_create_single` gives them, bounds are
values of `unsigned long`, and the count is the sum of the sizes of the ranges as an `int`
(`Hostlist.Tallied`). The bounds of a range need not be in order: behind a range that ends at
`ULONG_MAX` a range that starts at `0` is joined to it.

`tallied_hostlistPushRange` is the step, and `tallied_pushAll` the run.
-/

set_option autoImplicit false
set_option relaxedAutoImplicit false

namespace Whatsup

open CLib

/-! ### One push -/

/-- Ranges as they are made, and a count that is the sum of their sizes as an `int`. -/
structure Hostlist.Tallied (hl : Hostlist) : Prop where
  made : ∀ hr ∈ hl.ranges, hr.Made
  nhosts_eq : hl.nhosts = toInt ((hl.ranges.map hostrangeCount).sum : ℕ)

/-- The empty list is tallied. -/
theorem tallied_hostlistNew : hostlistNew.Tallied :=
  ⟨fun _ h ↦ absurd h List.not_mem_nil, toInt_zero.symm⟩

/-- Assumes: two ranges as they are made, the second of which starts right behind the end of the
first, in wrapping arithmetic. The size of the joined range is the sum of their sizes, modulo
`2 ^ 64`. -/
theorem hostrangeCount_join {h1 h2 joined : HostRange} (hmade1 : h1.Made) (hmade2 : h2.Made)
    (hmade : joined.Made) (hsingle1 : h1.singlehost = false) (hsingle2 : h2.singlehost = false)
    (hsingle : joined.singlehost = false) (hnext : h1.hi = ulongSub h2.lo 1)
    (hlo : joined.lo = h1.lo) (hhi : joined.hi = h2.hi) :
    (hostrangeCount h1 + hostrangeCount h2) % 18446744073709551616 = hostrangeCount joined := by
  rw [hostrangeCount_eq hsingle1 hmade1.lo_le, hostrangeCount_eq hsingle2 hmade2.lo_le,
    hostrangeCount_eq hsingle hmade.lo_le, ← Nat.add_mod, hlo, hhi]
  have hlo1 := hmade1.lo_le
  have hlo2 := hmade2.lo_le
  unfold ulongMax at hlo1 hlo2
  unfold ulongSub at hnext
  split_ifs at hnext <;> omega

/-- Assumes: a tallied list and a range as it is made. The push keeps the list tallied. -/
theorem tallied_hostlistPushRange {hl : Hostlist} {hr : HostRange} (hl_tallied : hl.Tallied)
    (hmade : hr.Made) : (hostlistPushRange hl hr).Tallied := by
  rcases hostlistPushRange_cases hl hr with happend | ⟨front, tail, hfront, hpfxCmp,
    hnext, hcombine,
    hjoined⟩
  · obtain ⟨hcopy, hcount⟩ := hmade.copy
    refine ⟨fun r hmem ↦ ?_, ?_⟩
    · rw [happend] at hmem
      rcases List.mem_append.mp hmem with hold | hnew
      · exact hl_tallied.made r hold
      · rw [List.mem_singleton.mp hnew]
        exact hcopy
    · rw [nhosts_hostlistPushRange, hl_tallied.nhosts_eq, toInt_toInt_add, happend, List.map_append,
        List.sum_append, List.map_singleton, List.sum_singleton, hcount]
      push_cast
      rfl
  · have htail : tail.Made := hl_tallied.made tail (by rw [hfront]; simp)
    obtain ⟨-, hsame⟩ := hostrangePrefixCmp_eq_zero_iff.mp hpfxCmp
    have hsingle : tail.singlehost = false := by
      by_contra hkind
      have hzero := (htail.single (by simpa using hkind)).2.1
      have hzero2 := (hmade.single (hsame ▸ by simpa using hkind)).1
      rw [hzero, hzero2] at hnext
      exact absurd hnext (by decide)
    have hsingle2 : hr.singlehost = false := hsame ▸ hsingle
    generalize hnew : ({ (hostrangeWidthCombine tail hr).2.1 with hi := hr.hi } : HostRange) = new
      at hjoined
    have hnewSingle : new.singlehost = false := by rw [← hnew]; exact hsingle
    have hnewLo : new.lo = tail.lo := by rw [← hnew]; rfl
    have hnewHi : new.hi = hr.hi := by rw [← hnew]
    have hnewMade : new.Made := ⟨fun h ↦ absurd (hnewSingle.symm.trans h) (by decide),
      hnewLo ▸ htail.lo_le, hnewHi ▸ hmade.hi_le⟩
    have hcount := hostrangeCount_join htail hmade hnewMade hsingle hsingle2 hnewSingle hnext hnewLo
      hnewHi
    refine ⟨fun r hmem ↦ ?_, ?_⟩
    · rw [hjoined] at hmem
      rcases List.mem_append.mp hmem with hold | hlast
      · exact hl_tallied.made r (by rw [hfront]; exact List.mem_append_left _ hold)
      · rw [List.mem_singleton.mp hlast]
        exact hnewMade
    · rw [nhosts_hostlistPushRange, hl_tallied.nhosts_eq, toInt_toInt_add, hjoined, hfront]
      simp only [List.map_append, List.map_singleton, List.sum_append, List.sum_singleton, ← hcount]
      rw [toInt_add_wrapped, ← Nat.add_assoc]
      push_cast
      rfl

/-! ### Parsing -/

/-- Assumes: a range that `_parse_single_range` accepts. Its bounds are values of `unsigned
long`. -/
theorem parseSingleRange_le {str : List Char} {range : Range}
    (h : parseSingleRange str = .ok range) : range.lo ≤ ulongMax ∧ range.hi ≤ ulongMax := by
  unfold parseSingleRange at h
  extract_lets front back at h
  have hlo := strtoul_le front
  have hhi : (if back ≠ [] then strtoul back else strtoul front).1 ≤ ulongMax := by
    split_ifs
    · exact strtoul_le back
    · exact hlo
  simp only at h
  generalize (if back ≠ [] then strtoul back else strtoul front) = upper at h hhi
  split_ifs at h
  simp at h
  subst h
  exact ⟨hlo, hhi⟩

/-- Assumes: a property of every range that `_parse_single_range` accepts. All ranges that
`_parse_range_list` accepts have it. -/
theorem parseRangeList_forall {P : Range → Prop}
    (hsingle : ∀ (piece : List Char) (range : Range), parseSingleRange piece = .ok range → P range)
    (room : ℕ) :
    ∀ (str : List Char) (ranges : List Range), parseRangeList room str = .ok ranges →
      ∀ range ∈ ranges, P range := by
  induction room with
  | zero => exact fun str ranges h ↦ absurd h (by simp [parseRangeList])
  | succ room ih =>
    intro str ranges h
    rw [parseRangeList] at h
    cases hfirst : parseSingleRange (str.takeWhile (· ≠ ',')) with
    | error failure =>
      rw [hfirst] at h
      exact absurd h (by simp)
    | ok first =>
      have hholds := hsingle _ first hfirst
      rw [hfirst] at h
      cases hrest : str.dropWhile (· ≠ ',') with
      | nil =>
        rw [hrest] at h
        obtain rfl := Except.ok.inj h
        exact List.forall_mem_singleton.mpr hholds
      | cons comma rest =>
        rw [hrest] at h
        cases hlist : parseRangeList room rest with
        | error failure =>
          simp only [hlist] at h
          exact absurd h (by simp)
        | ok more =>
          simp only [hlist] at h
          obtain rfl := Except.ok.inj h
          exact List.forall_mem_cons.mpr ⟨hholds, ih rest more hlist⟩

/-- Assumes: ranges that `_parse_range_list` accepts. Their bounds are values of `unsigned long`. -/
theorem parseRangeList_le (room : ℕ) (str : List Char) (ranges : List Range)
    (h : parseRangeList room str = .ok ranges) : ∀ range ∈ ranges, range.lo ≤ ulongMax ∧
    range.hi ≤ ulongMax :=
  parseRangeList_forall (fun _ _ ↦ parseSingleRange_le) room str ranges h

/-- Assumes: a tallied list. The numbers of a range, pushed with a suffix behind them, keep it
tallied. -/
theorem tallied_pushSuffixedLoop {pfx sfx : List Char} {range : Range} (rounds : ℕ) :
    ∀ (j : ℕ) (hl hl' : Hostlist), hl.Tallied →
      pushSuffixedLoop pfx sfx range rounds j hl = some hl' → hl'.Tallied := by
  induction rounds with
  | zero => exact fun j hl hl' _ h ↦ absurd h (by simp [pushSuffixedLoop])
  | succ rounds ih =>
    intro j hl hl' htallied h
    rw [pushSuffixedLoop] at h
    split_ifs at h
    · exact ih _ _ hl' (tallied_hostlistPushRange htallied (made_hostrangeCreateSingle _)) h
    · obtain rfl := Option.some.inj h
      exact htallied

/-- Assumes: a tallied list. Ranges pushed with a suffix keep it tallied. -/
theorem tallied_pushRangeListWithSuffix {pfx sfx : List Char} (ranges : List Range) :
    ∀ hl hl' : Hostlist, hl.Tallied → pushRangeListWithSuffix pfx sfx ranges hl = some hl' →
      hl'.Tallied := by
  induction ranges with
  | nil =>
    intro hl hl' htallied h
    obtain rfl := Option.some.inj h
    exact htallied
  | cons range ranges ih =>
    intro hl hl' htallied h
    rw [pushRangeListWithSuffix] at h
    cases hloop : pushSuffixedLoop pfx sfx range 18446744073709551617 range.lo hl with
    | none =>
      simp only [hloop] at h
      exact absurd h (by simp)
    | some next =>
      simp only [hloop] at h
      exact ih next hl' (tallied_pushSuffixedLoop _ _ _ _ htallied hloop) h

/-- Assumes: a tallied list and ranges with bounds that are values of `unsigned long`. Pushing them
keeps it tallied. -/
theorem tallied_pushRangeList {pfx : List Char} (ranges : List Range) :
    ∀ hl : Hostlist, hl.Tallied → (∀ range ∈ ranges, range.lo ≤ ulongMax ∧ range.hi ≤ ulongMax) →
      (pushRangeList hl pfx ranges).Tallied := by
  induction ranges with
  | nil => exact fun hl htallied _ ↦ htallied
  | cons range ranges ih =>
    intro hl htallied hbounds
    obtain ⟨hrange, hranges⟩ := List.forall_mem_cons.mp hbounds
    exact ih _ (tallied_hostlistPushRange htallied
      (made_hostrangeCreate pfx range.width hrange.1 hrange.2)) hranges

/-- Assumes: a tallied list. A pushed host name keeps it tallied. -/
theorem tallied_hostlistPushHost {hl : Hostlist} (htallied : hl.Tallied) (str : List Char) :
    (hostlistPushHost hl str).Tallied := by
  obtain ⟨hr, hpush, -, hcanonical⟩ := hostlistPushHost_range hl str
  rw [hpush]
  refine tallied_hostlistPushRange htallied ⟨fun hsingle ↦ ?_, ?_, hcanonical.hi_lt.le⟩
  · have hbounds := hcanonical.single hsingle
    exact ⟨hbounds.1, hbounds.2, hcanonical.single_width hsingle⟩
  · exact hcanonical.lo_le_hi.trans hcanonical.hi_lt.le

/-- Assumes: a tallied list. A token keeps it tallied. -/
theorem tallied_createToken {tok : List Char} {hl hl' : Hostlist} (htallied : hl.Tallied)
    (h : createToken tok hl = .ok hl') : hl'.Tallied := by
  unfold createToken at h
  extract_lets pfx p q at h
  cases hranges : parseRangeList maxRanges (p.takeWhile (· ≠ ']')) with
  | error failure =>
    rw [hranges] at h
    split_ifs at h
    obtain rfl := Except.ok.inj h
    exact tallied_hostlistPushHost htallied _
  | ok ranges =>
    rw [hranges] at h
    split_ifs at h
    · cases hpushed : pushRangeListWithSuffix pfx q ranges hl with
      | none =>
        simp only [hpushed] at h
        exact absurd h (by simp)
      | some next =>
        simp only [hpushed] at h
        obtain rfl := Except.ok.inj h
        exact tallied_pushRangeListWithSuffix _ _ _ htallied hpushed
    · obtain rfl := Except.ok.inj h
      exact tallied_pushRangeList _ _ htallied (parseRangeList_le _ _ _ hranges)
    · obtain rfl := Except.ok.inj h
      exact tallied_hostlistPushHost htallied _

/-- Assumes: a tallied list. The tokens of a host expression keep it tallied. -/
theorem tallied_createLoop (rounds : ℕ) :
    ∀ (str : List Char) (hl hl' : Hostlist), hl.Tallied → createLoop rounds str hl = .ok hl' →
      hl'.Tallied := by
  induction rounds with
  | zero =>
    intro str hl hl' htallied h
    obtain rfl := Except.ok.inj h
    exact htallied
  | succ rounds ih =>
    intro str hl hl' htallied h
    rw [createLoop] at h
    cases hnext : nextTok str with
    | none =>
      rw [hnext] at h
      obtain rfl := Except.ok.inj h
      exact htallied
    | some token =>
      rw [hnext] at h
      cases htok : createToken token.1 hl with
      | error failure =>
        simp only [htok] at h
        exact absurd h (by simp)
      | ok next =>
        simp only [htok] at h
        exact ih _ next hl' (tallied_createToken htallied htok) h

/-! ### Collected lists -/

/-- Assumes: a tallied list. `hostlist_push` of any text keeps it tallied. -/
theorem tallied_hostlistPush {hl hl' : Hostlist} {hosts : List Char} {count : ℤ}
    (htallied : hl.Tallied) (h : hostlistPush hl hosts = some (count, hl')) : hl'.Tallied := by
  unfold hostlistPush at h
  cases hcreate : hostlistCreate hosts with
  | error failure =>
    rw [hcreate] at h
    cases failure with
    | diverges => exact absurd h (by simp)
    | _ =>
      obtain ⟨-, rfl⟩ := Prod.ext_iff.mp (Option.some.inj h)
      exact htallied
  | ok new =>
    rw [hcreate] at h
    obtain ⟨-, rfl⟩ := Prod.ext_iff.mp (Option.some.inj h)
    have hnew : new.Tallied := tallied_createLoop _ _ _ _ tallied_hostlistNew hcreate
    simp only
    rw [hostlistPushList_snd]
    refine List.foldlRecOn new.ranges hostlistPushRange htallied fun hl hl_tallied hr hmem ↦ ?_
    exact tallied_hostlistPushRange hl_tallied (hnew.made hr hmem)

/-- Assumes: a tallied list. Pushing host expressions keeps it tallied. -/
theorem tallied_pushAll (expressions : List (List Char)) :
    ∀ hl hl' : Hostlist, hl.Tallied → pushAll expressions hl = some hl' → hl'.Tallied := by
  induction expressions with
  | nil =>
    intro hl hl' htallied h
    obtain rfl := Option.some.inj h
    exact htallied
  | cons hosts rest ih =>
    intro hl hl' htallied h
    rw [pushAll] at h
    cases hpush : hostlistPush hl hosts with
    | none =>
      rw [hpush] at h
      exact absurd h (by simp)
    | some result =>
      rw [hpush] at h
      exact ih result.2 hl' (tallied_hostlistPush htallied hpush) h

end Whatsup
