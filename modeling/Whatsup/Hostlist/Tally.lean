import Whatsup.Hostlist.Termination

/-!
# The number of hosts in a created list

`hostlist_create` adds up the sizes of the ranges that it pushes in an `int`, and joins a range to
the last one of the list where it continues its numbers. `pushedRanges` are the ranges that the
tokens of a text push, and `Counted` says that nothing wraps: not the size of a parsed range, not
that of a range of the list, and not the sum.

The numbers go on behind `ULONG_MAX` at 0: a range from 0 is joined to one up to `ULONG_MAX`
(`WrapsAround`), and the joined range has its bounds the wrong way round and denotes no host.
`runs_pushes` is the invariant of the pushes, of which `counted_iff` is the consequence for a text
that is accepted.
-/

set_option autoImplicit false
set_option relaxedAutoImplicit false

namespace Whatsup

open CLib

/-! ### What a text pushes -/

/-- The accepted ranges of a token with brackets. -/
def acceptedRanges (tok : List Char) : List Range :=
  match parseRangeList maxRanges (rangesText tok) with
  | .ok ranges => ranges
  | .error _ => []

/-- The ranges that an accepted token pushes. -/
def pushedBy (tok : List Char) : List HostRange :=
  if '[' ∈ tok then
    if suffixText tok ≠ [] then
      (acceptedRanges tok).flatMap fun range ↦ suffixedFrom (tok.takeWhile (· ≠ '['))
        (suffixText tok) range range.lo
    else (acceptedRanges tok).map fun range ↦
      hostrangeCreate (tok.takeWhile (· ≠ '[')) range.lo range.hi range.width
  else [hostRange (tok.take 1023)]

/-- The ranges that the tokens of an accepted text push, in order. -/
def pushedRanges (str : List Char) : List HostRange :=
  (looseTokens str).flatMap pushedBy

/-- Two ranges of one prefix, the first up to `ULONG_MAX` and the second from 0, with paddings that
write `ULONG_MAX` alike. -/
def WrapsAround (h1 h2 : HostRange) : Prop :=
  h1.singlehost = false ∧ h2.singlehost = false ∧ h1.pfx = h2.pfx ∧ h1.hi = ulongMax ∧ h2.lo = 0 ∧
    padded h1.width ulongMax = padded h2.width ulongMax

/-- The hosts of a created list are counted without wrapping: every parsed range has as many hosts
as the wrapping size says, at least one and at most `MAX_RANGE`; so has every range of the list; and
the count is the sum of the sizes that were pushed, and the number of names that the list
denotes. -/
structure Counted (str : List Char) (hl : Hostlist) : Prop where
  parsed : ∀ tok ∈ looseTokens str, ∀ ranges, Bracketed tok ranges → ∀ range ∈ ranges,
    ulongAdd (ulongSub range.hi range.lo) 1 = range.hi + 1 - range.lo ∧
      1 ≤ range.hi + 1 - range.lo ∧
      range.hi + 1 - range.lo ≤ maxRange
  sizes : ∀ hr ∈ hl.ranges, hostrangeCount hr = hr.hosts.length
  total : hostlistCount hl = ((pushedRanges str).map hostrangeCount).sum
  count : hostlistCount hl = hl.hosts.length

/-- Assumes: accepted ranges below `ULONG_MAX`. With a suffix, they are pushed host by host. -/
theorem pushRangeListWithSuffix_eq {pfx sfx : List Char} (ranges : List Range) :
    ∀ hl : Hostlist, (∀ range ∈ ranges, range.hi < ulongMax) →
      pushRangeListWithSuffix pfx sfx ranges hl =
        some ((ranges.flatMap fun range ↦
          suffixedFrom pfx sfx range range.lo).foldl hostlistPushRange hl) := by
  induction ranges with
  | nil => exact fun hl _ ↦ rfl
  | cons range ranges ih =>
    intro hl hmax
    obtain ⟨hrange, hranges⟩ := List.forall_mem_cons.mp hmax
    rw [pushRangeListWithSuffix, pushSuffixedLoop_ends hrange _ _ _ (by
      unfold ulongMax at hrange; omega)]
    simp only
    rw [ih _ hranges, List.flatMap_cons, List.foldl_append]

/-- Assumes: a token that is pushed. Its ranges have been pushed in order. -/
theorem createToken_pushes {tok : List Char} {new new' : Hostlist}
    (h : createToken tok new = .ok new') :
    new' = (pushedBy tok).foldl hostlistPushRange new := by
  by_cases hwell : WellFormed tok
  · rcases createToken_wellFormed hwell new with ⟨hdiverges, -⟩ | ⟨-, hcounting⟩
    · rw [hdiverges] at h
      exact absurd h (by simp)
    · rcases hwell with ⟨hopen, hclose⟩ | ⟨ranges, hopen, hclose, hparse⟩
      · rw [createToken, if_neg hopen, if_neg hclose] at h
        rw [← Except.ok.inj h, pushedBy, if_neg hopen, hostlistPushHost_eq]
        rfl
      · have haccepted : acceptedRanges tok = ranges := by rw [acceptedRanges, hparse]
        rw [createToken_eq hopen hclose,
          show parseRangeList maxRanges ((behindOpening tok).takeWhile (· ≠ ']')) = .ok ranges
          from hparse] at h
        simp only [Except.bind] at h
        change (if suffixText tok ≠ [] then _ else _) = _ at h
        rw [pushedBy, if_pos hopen, haccepted]
        by_cases hsuffix : suffixText tok ≠ []
        · have hbelow : ∀ range ∈ ranges, range.hi < ulongMax := fun range hmem ↦ by
            have hsize :=
              parseRangeList_forall (fun _ _ h ↦ parseSingleRange_size h) _ _ _ hparse range hmem
            refine lt_of_le_of_ne hsize.2.1 fun hends ↦
              hcounting ⟨hsuffix, ranges, ⟨hopen, hclose, hparse⟩, range, hmem, hends⟩
          rw [if_pos hsuffix, show ((behindOpening tok).dropWhile (· ≠ ']')).tail =
            suffixText tok from rfl,
            pushRangeListWithSuffix_eq ranges _ hbelow] at h
          rw [if_pos hsuffix]
          exact (Except.ok.inj h).symm
        · rw [if_neg hsuffix] at h ⊢
          rw [← Except.ok.inj h, pushRangeList, List.foldl_map]
          rfl
  · obtain ⟨failure, hfails, -⟩ := createToken_malformed hwell new
    rw [hfails] at h
    exact absurd h (by simp)

/-- Assumes: an accepted text. Its ranges have been pushed in order, and its tokens are accepted. -/
theorem hostlistCreate_pushes {str : List Char} {hl : Hostlist} (h : hostlistCreate str = .ok hl) :
    hl = (pushedRanges str).foldl hostlistPushRange hostlistNew := by
  have hgeneral : ∀ (toks : List (List Char)) (new hl : Hostlist), createTokens toks new = .ok hl →
      hl = (toks.flatMap pushedBy).foldl hostlistPushRange new := by
    intro toks
    induction toks with
    | nil => exact fun new hl h ↦ (Except.ok.inj h).symm
    | cons tok toks ih =>
      intro new hl h
      rw [createTokens, List.foldlM_cons] at h
      obtain ⟨new', hcreate, hrest⟩ := bind_eq_ok.mp h
      rw [List.flatMap_cons, List.foldl_append, ← createToken_pushes hcreate]
      exact ih new' hl hrest
  refine hgeneral _ _ _ ?_
  rwa [← createLoop_eq _ str _ le_rfl]

/-! ### One push -/

/-- A range that is pushed by an accepted text, less than all numbers. -/
structure HostRange.Proper (hr : HostRange) : Prop where
  single : hr.singlehost = true → hr.lo = 0 ∧ hr.hi = 0
  lo_le_hi : hr.lo ≤ hr.hi
  hi_le : hr.hi ≤ ulongMax
  not_all : ¬ (hr.lo = 0 ∧ hr.hi = ulongMax)

/-- A range of a list of less than `2 ^ 64` hosts, with bounds in order or the wrong way round. -/
structure HostRange.Sized (hr : HostRange) : Prop where
  single : hr.singlehost = true → hr.lo = 0 ∧ hr.hi = 0
  lo_le : hr.lo ≤ ulongMax
  hi_le : hr.hi ≤ ulongMax
  count_pos : 1 ≤ hostrangeCount hr

/-- Assumes: a sized range with bounds in order. Its size is the number of its hosts. -/
theorem HostRange.Sized.count_eq {hr : HostRange} (hsized : hr.Sized) (hbounds : hr.lo ≤ hr.hi) :
    hostrangeCount hr = hr.hosts.length := by
  have hpos := hsized.count_pos
  have hlo := hsized.lo_le
  have hhi := hsized.hi_le
  unfold ulongMax at hlo hhi
  unfold HostRange.hosts
  split_ifs with hsingle
  · exact hostrangeCount_single hsingle
  · rw [hostrangeCount_eq (by simpa using hsingle) hsized.lo_le] at hpos ⊢
    rw [List.length_map, List.length_range']
    omega

/-- Assumes: a range with bounds the wrong way round that is no single host. It denotes no host. -/
theorem HostRange.hosts_of_lt {hr : HostRange} (hsingle : hr.singlehost = false)
    (hbounds : hr.hi < hr.lo) :
    hr.hosts = [] := by
  rw [HostRange.hosts, if_neg (by simp [hsingle]), show hr.hi + 1 - hr.lo = 0 by omega]
  rfl

/-- A proper range is sized. -/
theorem HostRange.Proper.sized {hr : HostRange} (h : hr.Proper) : hr.Sized := by
  have hbounds := h.lo_le_hi
  have hhi := h.hi_le
  have hall := h.not_all
  refine ⟨h.single, by omega, hhi, ?_⟩
  by_cases hsingle : hr.singlehost = true
  · exact (hostrangeCount_single hsingle).ge
  · rw [hostrangeCount_eq (by simpa using hsingle) (by omega)]
    unfold ulongMax at hhi hall
    omega

/-- What the pushes of some ranges leave: the sizes of the ranges of the list add up to those that
were pushed; the last range of the list ends as the last range that was pushed; and a range of the
list has its bounds the wrong way round exactly if the numbers have wrapped around between two
pushes. -/
structure Runs (pushed : List HostRange) (hl : Hostlist) : Prop where
  sized : ∀ hr ∈ hl.ranges, hr.Sized
  sum_eq : (hl.ranges.map hostrangeCount).sum = (pushed.map hostrangeCount).sum
  empty : hl.ranges = [] ↔ pushed = []
  follows : ∀ tail ∈ hl.ranges.getLast?, ∀ last ∈ pushed.getLast?, tail.pfx = last.pfx ∧
    tail.singlehost = last.singlehost ∧ tail.hi = last.hi ∧
    (last.singlehost = false → padded tail.width ulongMax = padded last.width ulongMax)
  wrapped : (∃ hr ∈ hl.ranges, hr.hi < hr.lo) ↔ ¬ pushed.IsChain fun h1 h2 ↦ ¬ WrapsAround h1 h2

/-- The empty list is what no push leaves. -/
theorem runs_nil : Runs [] hostlistNew :=
  ⟨fun _ h ↦ absurd h List.not_mem_nil, rfl, iff_of_true rfl rfl, fun _ h ↦
    absurd h (by simp [hostlistNew]),
    iff_of_false (by simp [hostlistNew]) (by simp)⟩

/-- A copy of a proper range is one, of the same size. -/
theorem HostRange.Proper.copy {hr : HostRange} (h : hr.Proper) :
    (hostrangeCopy hr).Proper ∧ hostrangeCount (hostrangeCopy hr) = hostrangeCount hr ∧
      (hostrangeCopy hr).pfx = hr.pfx ∧ (hostrangeCopy hr).singlehost = hr.singlehost ∧
      (hostrangeCopy hr).hi = hr.hi ∧
      (hr.singlehost = false → (hostrangeCopy hr).width = hr.width) := by
  unfold hostrangeCopy
  by_cases hsingle : hr.singlehost = true
  · rw [if_pos hsingle]
    refine ⟨⟨fun _ ↦ ⟨rfl, rfl⟩, le_rfl, Nat.zero_le _,
      fun h ↦ absurd (show (0 : ℕ) = ulongMax from h.2) (by decide)⟩, ?_, rfl, hsingle.symm,
        (h.single hsingle).2.symm,
      fun hother ↦ absurd (hsingle.symm.trans hother) (by decide)⟩
    rw [hostrangeCount_single hsingle, hostrangeCount_single rfl]
  · rw [if_neg hsingle]
    have hother := Bool.eq_false_iff.mpr hsingle
    refine ⟨⟨fun h ↦ Bool.noConfusion h, h.lo_le_hi, h.hi_le, h.not_all⟩, ?_, rfl, hother.symm, rfl,
      fun _ ↦ rfl⟩
    have hcount : hostrangeCount (hostrangeCreate hr.pfx hr.lo hr.hi hr.width) =
        (hr.hi + 18446744073709551617 - hr.lo) % 18446744073709551616 :=
      hostrangeCount_eq rfl (h.lo_le_hi.trans h.hi_le)
    rw [hcount, hostrangeCount_eq hother (h.lo_le_hi.trans h.hi_le)]

/-- Assumes: a last range that joins a proper range. Neither is a single host. -/
theorem HostRange.Joins.singlehost {tail hr : HostRange} (h : tail.Joins hr) (htail : tail.Sized)
    (hhr : hr.Proper) :
    tail.singlehost = false ∧ hr.singlehost = false ∧ tail.pfx = hr.pfx := by
  obtain ⟨hpfx, hsame⟩ := hostrangePrefixCmp_eq_zero_iff.mp h.1
  have hsingle : tail.singlehost = false := by
    by_contra hkind
    have htail_hi := (htail.single (by simpa using hkind)).2
    have hhr_lo := (hhr.single (hsame ▸ by simpa using hkind)).1
    have hnext := h.2.1
    rw [htail_hi, hhr_lo] at hnext
    exact absurd hnext (by decide)
  exact ⟨hsingle, hsame ▸ hsingle, hpfx⟩

/-- Assumes: a last range that joins a proper range, with sizes that do not fill the numbers
together. The joined range is sized, of both sizes together, and its width writes `ULONG_MAX` as
both widths do. -/
theorem joined_spec {tail hr : HostRange} (hjoins : tail.Joins hr) (htail : tail.Sized)
    (hhr : hr.Proper)
    (hsum : hostrangeCount tail + hostrangeCount hr < 18446744073709551616) :
    ∃ joined : HostRange, joined = { (hostrangeWidthCombine tail hr).2.1 with hi := hr.hi } ∧
      joined.Sized ∧
      hostrangeCount joined = hostrangeCount tail + hostrangeCount hr ∧ joined.lo = tail.lo ∧
        joined.hi = hr.hi ∧
      joined.pfx = tail.pfx ∧ joined.singlehost = false ∧
      padded joined.width ulongMax = padded tail.width ulongMax ∧
      padded joined.width ulongMax = padded hr.width ulongMax := by
  obtain ⟨hsingle, hother, -⟩ := hjoins.singlehost htail hhr
  obtain ⟨width, hresult, hwidth1, hwidth2⟩ := widthEquiv_of_eq_true hjoins.2.2
  have hjoined : ({ (hostrangeWidthCombine tail hr).2.1 with hi := hr.hi } : HostRange) =
      { tail with width := width, hi := hr.hi } := by
    rw [hostrangeWidthCombine, hresult]
  have hlo := htail.lo_le
  have hlo2 := hhr.lo_le_hi.trans hhr.hi_le
  have hcount : hostrangeCount { tail with width := width, hi := hr.hi } = hostrangeCount tail +
      hostrangeCount hr := by
    have hnext := hjoins.2.1
    have hnew : hostrangeCount { tail with width := width, hi := hr.hi } =
        (hr.hi + 18446744073709551617 - tail.lo) % 18446744073709551616 :=
          hostrangeCount_eq hsingle hlo
    rw [hostrangeCount_eq hsingle hlo, hostrangeCount_eq hother hlo2] at hsum ⊢
    rw [hnew]
    unfold ulongMax at hlo hlo2
    unfold ulongSub at hnext
    split_ifs at hnext <;> omega
  exact ⟨_, rfl, hjoined ▸ ⟨fun h ↦ absurd (hsingle.symm.trans h) (by decide), hlo, hhr.hi_le,
    by rw [hcount]; have hpos := htail.count_pos; omega⟩, hjoined ▸ hcount, hjoined ▸ rfl,
      hjoined ▸ rfl, hjoined ▸ rfl,
    hjoined ▸ hsingle, hjoined ▸ hwidth1 _ hlo, hjoined ▸ hwidth2 _ hlo2⟩

/-- Assumes: a number that is less than `2 ^ 31` below `ULONG_MAX`. It has as many digits. -/
theorem numDigits_eq_ulongMax {number : ℕ} (hlow : ulongMax < number + 2147483648)
    (hle : number ≤ ulongMax) :
    numDigits number = numDigits ulongMax := by
  have hlarge : 19 < numDigits number :=
    (lt_numDigits_iff (by decide)).mpr (by unfold ulongMax at hlow; omega)
  have hsmall : numDigits ulongMax ≤ 20 := (numDigits_le_iff (by decide)).mpr (by decide)
  have hmono := numDigits_mono hle
  omega

/-- Assumes: a last range of less than `2 ^ 31` hosts that ends as the last range that was pushed.
The numbers wrap around from the one to the next range exactly if the other, at `ULONG_MAX`, joins
it. -/
theorem wrapsAround_iff {tail last hr : HostRange} (htail : tail.Sized) (hhr : hr.Proper)
    (hcount : hostrangeCount tail < 2147483648) (hpfx : tail.pfx = last.pfx)
    (hkind : tail.singlehost = last.singlehost)
    (hhi : tail.hi = last.hi)
    (hwidth : last.singlehost = false → padded tail.width ulongMax = padded last.width ulongMax) :
    WrapsAround last hr ↔ tail.Joins hr ∧ tail.hi = ulongMax := by
  constructor
  · rintro ⟨hsingle, hother, hsame, hmax, hlo, hwidths⟩
    have htail_single := hkind.trans hsingle
    have htail_max := hhi.trans hmax
    have hpos := htail.count_pos
    rw [hostrangeCount_eq htail_single htail.lo_le, htail_max] at hcount hpos
    have hlo_le := htail.lo_le
    have hdigits : numDigits tail.lo = numDigits ulongMax :=
      numDigits_eq_ulongMax (by unfold ulongMax at hcount hpos hlo_le ⊢; omega) hlo_le
    refine ⟨⟨hostrangePrefixCmp_eq_zero_iff.mpr ⟨hpfx.trans hsame, htail_single.trans hother.symm⟩,
      ?_, ?_⟩, htail_max⟩
    · rw [htail_max, hlo]
      rfl
    · refine widthEquiv_eq_true_iff.mpr (Or.inl ?_)
      rw [padded_eq_padded_iff, hdigits, ← padded_eq_padded_iff, hwidth hsingle, hwidths]
  · rintro ⟨hjoins, hmax⟩
    obtain ⟨hsingle, hother, hsame⟩ := hjoins.singlehost htail hhr
    have hlo : hr.lo = 0 := by
      have hnext := hjoins.2.1
      rw [hmax] at hnext
      have hlo_le := hhr.lo_le_hi.trans hhr.hi_le
      unfold ulongSub ulongMax at *
      split_ifs at hnext <;> omega
    obtain ⟨width, -, hwidth1, hwidth2⟩ := widthEquiv_of_eq_true hjoins.2.2
    refine ⟨hkind.symm.trans hsingle, hother, hpfx.symm.trans hsame, hhi.symm.trans hmax, hlo, ?_⟩
    rw [← hwidth (hkind.symm.trans hsingle), ← hwidth1 _ htail.lo_le, hwidth2 _ (by omega)]

/-- Assumes: a last range that joins a proper range, with less than `2 ^ 31` hosts together. The
joined range has its bounds the wrong way round exactly if the last range has, or ends at
`ULONG_MAX`. -/
theorem joined_lt_iff {tail hr : HostRange} (hjoins : tail.Joins hr) (htail : tail.Sized)
    (hhr : hr.Proper)
    (hsum : hostrangeCount tail + hostrangeCount hr < 2147483648) :
    hr.hi < tail.lo ↔ tail.hi < tail.lo ∨ tail.hi = ulongMax := by
  obtain ⟨hsingle, hother, -⟩ := hjoins.singlehost htail hhr
  have hbounds := hhr.lo_le_hi
  have hmax := hhr.hi_le
  have hlo := htail.lo_le
  have hhi := htail.hi_le
  have hpos := htail.count_pos
  have hall := hhr.not_all
  have hnext := hjoins.2.1
  rw [hostrangeCount_eq hsingle hlo] at hsum hpos
  rw [hostrangeCount_eq hother (hbounds.trans hmax)] at hsum
  unfold ulongMax at *
  unfold ulongSub at hnext
  split_ifs at hnext <;> omega

/-- Assumes: what pushes have left, and a proper range with which less than `2 ^ 31` hosts have been
pushed. The push leaves what the pushes with it leave. -/
theorem runs_push {pushed : List HostRange} {hl : Hostlist} {hr : HostRange}
    (hruns : Runs pushed hl) (hhr : hr.Proper)
    (hsum : ((pushed ++ [hr]).map hostrangeCount).sum < 2147483648) : Runs (pushed ++ [hr])
    (hostlistPushRange hl hr) := by
  have hchain : ∀ last ∈ pushed.getLast?, ((pushed ++ [hr]).IsChain fun h1 h2 ↦
    ¬ WrapsAround h1 h2) ↔
      (pushed.IsChain fun h1 h2 ↦ ¬ WrapsAround h1 h2) ∧ ¬ WrapsAround last hr := by
    intro last hlast
    rw [List.isChain_append]
    simp [Option.mem_def.mp hlast]
  rw [List.map_append, List.sum_append, List.map_singleton, List.sum_singleton] at hsum
  rcases List.eq_nil_or_concat' hl.ranges with hnil | ⟨front, tail, hfront⟩
  · -- the first push
    obtain rfl := hruns.empty.mp hnil
    obtain ⟨hcopy, hcount, hpfx, hkind, hhi, hwidth⟩ := hhr.copy
    have happend : (hostlistPushRange hl hr).ranges = hl.ranges ++ [hostrangeCopy hr] :=
      hostlistPushRange_append fun tail htail ↦ by simp [hnil] at htail
    rw [hnil, List.nil_append] at happend
    have hbounds := hcopy.lo_le_hi
    refine ⟨?_, ?_, ?_, ?_, ?_⟩
    · rw [happend]
      exact List.forall_mem_singleton.mpr hcopy.sized
    · rw [happend]
      simpa using hcount
    · simp [happend]
    · simp only [happend, List.nil_append, List.getLast?_singleton, Option.mem_def,
        Option.some.injEq]
      rintro _ rfl _ rfl
      exact ⟨hpfx, hkind, hhi, fun h ↦ by rw [hwidth h]⟩
    · simp [happend]
      omega
  · have htail_mem : tail ∈ hl.ranges := by simp [hfront]
    have htail := hruns.sized tail htail_mem
    obtain ⟨before, last, rfl⟩ := (List.eq_nil_or_concat' pushed).resolve_left fun h ↦ by
      simpa [hfront] using hruns.empty.mpr h
    obtain ⟨hpfx, hkind, hhi, hwidth⟩ := hruns.follows tail (by simp [hfront]) last (by simp)
    have hsums := hruns.sum_eq
    rw [hfront, List.map_append, List.sum_append, List.map_singleton, List.sum_singleton] at hsums
    have hwraps := wrapsAround_iff htail hhr (by omega) hpfx hkind hhi hwidth
    have hold := hruns.wrapped
    simp only [hfront, List.mem_append, List.mem_singleton, or_and_right, exists_or,
      exists_eq_left] at hold
    by_cases hjoins : tail.Joins hr
    · -- the last range goes on in the new one
      obtain ⟨joined, hjoined, hsized, hcount, hlo, hhi', hpfx', hsingle', hwidth1, hwidth2⟩ :=
        joined_spec hjoins htail hhr (by omega)
      obtain ⟨-, hother, hsame⟩ := hjoins.singlehost htail hhr
      have hranges := hostlistPushRange_join hfront hjoins
      rw [← hjoined] at hranges
      refine ⟨?_, ?_, ?_, ?_, ?_⟩
      · rw [hranges]
        intro r hmem
        rcases List.mem_append.mp hmem with hmem | hmem
        · exact hruns.sized r (by rw [hfront]; exact List.mem_append_left _ hmem)
        · exact List.mem_singleton.mp hmem ▸ hsized
      · rw [hranges, List.map_append, List.sum_append, List.map_singleton, List.sum_singleton,
          hcount, List.map_append,
          List.sum_append, List.map_singleton, List.sum_singleton]
        omega
      · simp [hranges]
      · simp only [hranges, List.getLast?_concat, Option.mem_def, Option.some.injEq]
        rintro _ rfl _ rfl
        exact ⟨hpfx'.trans hsame, hsingle'.trans hother.symm, hhi', fun _ ↦ hwidth2⟩
      · simp only [hranges, List.mem_append, List.mem_singleton, or_and_right, exists_or,
          exists_eq_left]
        rw [hchain last (by simp), not_and_or, ← hold, hwraps, or_assoc, hlo, hhi', not_not,
          and_iff_right hjoins]
        refine or_congr_right ?_
        exact joined_lt_iff hjoins htail hhr (by omega)
    · -- the new range is appended
      have happend : (hostlistPushRange hl hr).ranges = hl.ranges ++ [hostrangeCopy hr] :=
        hostlistPushRange_append fun other hother ↦ by
          rw [hfront, List.getLast?_concat] at hother
          exact Option.some.inj hother ▸ hjoins
      obtain ⟨hcopy, hcount, hpfx', hkind', hhi', hwidth'⟩ := hhr.copy
      refine ⟨?_, ?_, ?_, ?_, ?_⟩
      · rw [happend]
        intro r hmem
        rcases List.mem_append.mp hmem with hmem | hmem
        · exact hruns.sized r hmem
        · exact List.mem_singleton.mp hmem ▸ hcopy.sized
      · have hsame := hruns.sum_eq
        simp only [happend, List.map_append, List.sum_append, List.map_singleton,
          List.sum_singleton, hcount] at hsame ⊢
        omega
      · simp [happend]
      · simp only [happend, List.getLast?_concat, Option.mem_def, Option.some.injEq]
        rintro _ rfl _ rfl
        exact ⟨hpfx', hkind', hhi', fun h ↦ by rw [hwidth' h]⟩
      · have hsound : ¬ (hostrangeCopy hr).hi < (hostrangeCopy hr).lo := not_lt.mpr hcopy.lo_le_hi
        rw [happend]
        simp only [List.mem_append, List.mem_singleton, or_and_right, exists_or, exists_eq_left,
          hsound, or_false]
        rw [hchain last (by simp), and_iff_left fun h ↦ hjoins (hwraps.mp h).1]
        exact hruns.wrapped

/-- Assumes: proper ranges of less than `2 ^ 31` hosts. Pushed in order onto an empty list, they
leave what pushes leave. -/
theorem runs_pushes {pushed : List HostRange} (hproper : ∀ hr ∈ pushed, hr.Proper)
    (hsum : (pushed.map hostrangeCount).sum < 2147483648) :
      Runs pushed (pushed.foldl hostlistPushRange hostlistNew) := by
  induction pushed using List.reverseRecOn with
  | nil => exact runs_nil
  | append_singleton pushed hr ih =>
    have hless : (pushed.map hostrangeCount).sum < 2147483648 := by
      rw [List.map_append, List.sum_append] at hsum
      omega
    rw [List.foldl_append]
    exact runs_push (ih (fun r hmem ↦ hproper r (List.mem_append_left _ hmem)) hless)
      (hproper hr (List.mem_append_right _ (List.mem_singleton_self hr))) hsum

/-! ### A created list -/

/-- The range of a name is proper. -/
theorem proper_hostRange (str : List Char) : (hostRange str).Proper := by
  have hcanonical : (hostRange str).Canonical := by
    unfold hostRange
    rcases hostnameCreate_cases str with ⟨-, hsuffix, -⟩ | ⟨pfx, suffix, -, hpfx, -, -,
      hmax, hcreate⟩
    · rw [hsuffix]
      exact canonical_hostrangeCreateSingle str
    · rw [hcreate]
      exact canonical_hostrangeCreate suffix.length le_rfl hmax hpfx
  have hmax := hcanonical.hi_lt
  exact ⟨hcanonical.single, hcanonical.lo_le_hi, hmax.le, fun h ↦ absurd h.2 (by omega)⟩

/-- Assumes: tokens that are pushed. They are accepted. -/
theorem wellFormed_of_createTokens {toks : List (List Char)} :
    ∀ {new hl : Hostlist}, createTokens toks new = .ok hl → ∀ tok ∈ toks, WellFormed tok := by
  induction toks with
  | nil => exact fun _ tok h ↦ absurd h List.not_mem_nil
  | cons first toks ih =>
    intro new hl h
    rw [createTokens, List.foldlM_cons] at h
    obtain ⟨new', hcreate, hrest⟩ := bind_eq_ok.mp h
    refine List.forall_mem_cons.mpr ⟨?_, ih hrest⟩
    by_contra hwell
    obtain ⟨failure, hfails, -⟩ := createToken_malformed hwell new
    rw [hfails] at hcreate
    exact absurd hcreate (by simp)

/-- Assumes: accepted tokens without a range of all numbers. The ranges that they push are
proper. -/
theorem proper_pushedRanges {str : List Char} (hwell : ∀ tok ∈ looseTokens str, WellFormed tok)
    (hall : ∀ tok ∈ looseTokens str, ∀ ranges, Bracketed tok ranges → ∀ range ∈ ranges,
      ¬ (range.lo = 0 ∧ range.hi = ulongMax)) : ∀ hr ∈ pushedRanges str, hr.Proper := by
  intro hr hmem
  obtain ⟨tok, htok, hmem⟩ := List.mem_flatMap.mp hmem
  unfold pushedBy at hmem
  split_ifs at hmem with hopen hsuffix
  · obtain ⟨range, -, hmem⟩ := List.mem_flatMap.mp hmem
    obtain ⟨number, -, rfl⟩ := List.mem_map.mp hmem
    exact ⟨fun _ ↦ ⟨rfl, rfl⟩, le_rfl, Nat.zero_le _, fun h ↦
      absurd (show (0 : ℕ) = ulongMax from h.2) (by decide)⟩
  · obtain ⟨range, hrange, rfl⟩ := List.mem_map.mp hmem
    obtain ⟨hnone, -⟩ | ⟨ranges, hbracketed⟩ := hwell tok htok
    · exact absurd hopen hnone
    · rw [acceptedRanges, hbracketed.2.2] at hrange
      have hsize := parseRangeList_forall (fun _ _ h ↦ parseSingleRange_size h) _ _ _ hbracketed.2.2
        range hrange
      exact ⟨fun h ↦ Bool.noConfusion h, hsize.1, hsize.2.1,
        hall tok htok ranges hbracketed range hrange⟩
  · obtain rfl := List.mem_singleton.mp hmem
    exact proper_hostRange _

/-- The sizes of ranges whose sizes are the numbers of their hosts add up to the number of their
hosts. -/
theorem sum_counts_eq {ranges : List HostRange}
    (h : ∀ hr ∈ ranges, hostrangeCount hr = hr.hosts.length) :
    (ranges.map hostrangeCount).sum = (hostsOf ranges).length := by
  induction ranges with
  | nil => rfl
  | cons hr rest ih =>
    obtain ⟨hhr, hrest⟩ := List.forall_mem_cons.mp h
    rw [List.map_cons, List.sum_cons, ih hrest, hhr, hostsOf_cons, List.length_append]

/-- Assumes: an accepted text. Its hosts are counted without wrapping exactly if none of its ranges
goes from 0 to `ULONG_MAX`, it names less than `2 ^ 31` hosts, and the numbers do not wrap around
between two ranges that are pushed one behind the other. -/
theorem counted_iff {str : List Char} {hl : Hostlist} (h : hostlistCreate str = .ok hl) :
    Counted str hl ↔
      (∀ tok ∈ looseTokens str, ∀ ranges, Bracketed tok ranges → ∀ range ∈ ranges,
        ¬ (range.lo = 0 ∧ range.hi = ulongMax)) ∧
      (hostsOf (pushedRanges str)).length < 2147483648 ∧
      (pushedRanges str).IsChain fun h1 h2 ↦ ¬ WrapsAround h1 h2 := by
  have hwell : ∀ tok ∈ looseTokens str, WellFormed tok :=
    wellFormed_of_createTokens (by rwa [← createLoop_eq _ str _ le_rfl])
  have htallied := tallied_createLoop _ str _ _ tallied_hostlistNew h
  have hpushes := hostlistCreate_pushes h
  have hcounts : ∀ hr ∈ pushedRanges str, hr.Proper → hostrangeCount hr = hr.hosts.length :=
    fun hr _ hproper ↦ hproper.sized.count_eq hproper.lo_le_hi
  constructor
  · intro hcounted
    have hall : ∀ tok ∈ looseTokens str, ∀ ranges, Bracketed tok ranges → ∀ range ∈ ranges,
        ¬ (range.lo = 0 ∧ range.hi = ulongMax) := by
      rintro tok htok ranges hbracketed range hrange ⟨hlo, hhi⟩
      have hparsed := (hcounted.parsed tok htok ranges hbracketed range hrange).1
      rw [hlo, hhi] at hparsed
      exact absurd hparsed (by decide)
    have hproper := proper_pushedRanges hwell hall
    have hsum := sum_counts_eq fun hr hmem ↦ hcounts hr hmem (hproper hr hmem)
    have hsmall : (hostsOf (pushedRanges str)).length < 2147483648 := by
      have htotal := hcounted.total
      have hlt := toInt_lt ((hl.ranges.map hostrangeCount).sum : ℕ)
      rw [hostlistCount, htallied.nhosts_eq, hsum] at htotal
      omega
    refine ⟨hall, hsmall, ?_⟩
    by_contra hwraps
    have hruns := runs_pushes hproper (by omega)
    rw [← hpushes] at hruns
    obtain ⟨hr, hmem, hlt⟩ := hruns.wrapped.mpr hwraps
    have hsized := hruns.sized hr hmem
    have hpos := hsized.count_pos
    have hsingle : hr.singlehost = false := by
      by_contra hkind
      have hzero := hsized.single (by simpa using hkind)
      omega
    rw [hcounted.sizes hr hmem, HostRange.hosts_of_lt hsingle hlt] at hpos
    exact absurd hpos (by decide)
  · rintro ⟨hall, hsmall, hchain⟩
    have hproper := proper_pushedRanges hwell hall
    have hsum := sum_counts_eq fun hr hmem ↦ hcounts hr hmem (hproper hr hmem)
    have hruns := runs_pushes hproper (by omega)
    rw [← hpushes] at hruns
    have hsizes : ∀ hr ∈ hl.ranges, hostrangeCount hr = hr.hosts.length := fun hr hmem ↦
      (hruns.sized hr hmem).count_eq (not_lt.mp fun hlt ↦ hruns.wrapped.mp ⟨hr, hmem, hlt⟩ hchain)
    have htotal : hostlistCount hl = ((pushedRanges str).map hostrangeCount).sum := by
      rw [hostlistCount, htallied.nhosts_eq, hruns.sum_eq, toInt_eq_self (by omega) (by omega)]
    refine ⟨?_, hsizes, htotal, ?_⟩
    · intro tok htok ranges hbracketed range hrange
      obtain ⟨horder, hmax, hsize⟩ :=
        parseRangeList_forall (fun _ _ h ↦ parseSingleRange_size h) _ _ _ hbracketed.2.2
          range hrange
      have hless := hsize.resolve_right (hall tok htok ranges hbracketed range hrange)
      rw [ulongSub_eq_sub horder, ulongAdd]
      unfold maxRange ulongMax at *
      omega
    · rw [htotal, ← hruns.sum_eq, sum_counts_eq hsizes]
      rfl

/-- The text `n[1-3],n5`, and the list of it. -/
theorem counted_iff_short :
    ∃ hl, hostlistCreate "n[1-3],n5".toList = .ok hl ∧
      (Counted "n[1-3],n5".toList hl ↔
        (∀ tok ∈ looseTokens "n[1-3],n5".toList, ∀ ranges, Bracketed tok ranges → ∀ range ∈ ranges,
          ¬ (range.lo = 0 ∧ range.hi = ulongMax)) ∧
        (hostsOf (pushedRanges "n[1-3],n5".toList)).length < 2147483648 ∧
        (pushedRanges "n[1-3],n5".toList).IsChain fun h1 h2 ↦ ¬ WrapsAround h1 h2) := by
  obtain ⟨hl, hcreate⟩ : ∃ hl, hostlistCreate "n[1-3],n5".toList = .ok hl := ⟨_, rfl⟩
  exact ⟨hl, hcreate, counted_iff hcreate⟩

/-- The text `n[0-18446744073709551615]`. -/
def allNumbers : List Char :=
  "n[0-18446744073709551615]".toList

/-- The text is accepted with a range of all numbers, whose size wraps to 0: its hosts are not
counted. -/
theorem not_counted_allNumbers : ∃ hl, hostlistCreate allNumbers = .ok hl ∧
    ¬ Counted allNumbers hl := by
  obtain ⟨hl, hcreate⟩ : ∃ hl, hostlistCreate allNumbers = .ok hl := ⟨_, rfl⟩
  refine ⟨hl, hcreate, fun hcounted ↦ ?_⟩
  have htokens : allNumbers ∈ looseTokens allNumbers := by decide
  have hbracketed : Bracketed allNumbers [⟨0, ulongMax, 1⟩] := ⟨by decide, by decide, rfl⟩
  obtain ⟨hsize, -⟩ := hcounted.parsed allNumbers htokens _ hbracketed _ (List.mem_singleton_self _)
  exact absurd hsize (by decide)

end Whatsup
