import Whatsup.Hostlist.NodeList

/-!
# Taking hosts out of a hostlist

`hostrange_delete_host` takes a host out of a range: it moves a bound, or splits the range in two.
The calls that take hosts out of a list are made of it: `hostlist_delete_nth`,
`hostlist_delete_host`, `hostlist_delete`, and `hostlist_pop` and `hostlist_shift` at the ends.
`hostlistDeleteNth_spec`, `hostlistPop_spec` and `hostlistShift_spec` say what they do to the names
of a canonical list.
-/

set_option autoImplicit false
set_option relaxedAutoImplicit false

namespace Whatsup

open CLib

/-! ### Ranges -/

/-- `hostrange_delete_host`: what is left of the range, and the part above the host if it is split;
`none` if the assertion fails. -/
def hostrangeDeleteHost (ndebug : Bool) (hr : HostRange) (n : ℕ) :
    Option (HostRange × Option HostRange) :=
  if ndebug = false ∧ ¬(hr.lo ≤ n ∧ n ≤ hr.hi) then none
  else if n = hr.lo then some ({ hr with lo := ulongAdd hr.lo 1 }, none)
  else if n = hr.hi then some ({ hr with hi := ulongSub hr.hi 1 }, none)
  else some ({ hr with hi := ulongSub n 1 }, some { hostrangeCopy hr with lo := ulongAdd n 1 })

/-- `hostrange_pop`. -/
def hostrangePop (hr : HostRange) : Option (List Char) × HostRange :=
  if hr.singlehost then (some hr.pfx, { hr with lo := ulongAdd hr.lo 1 })
  else if 0 < hostrangeCount hr then
    (some ((hr.pfx ++ padded hr.width hr.hi).take (hr.pfx.length + hr.width + 15)),
      { hr with hi := ulongSub hr.hi 1 })
  else (none, hr)

/-- `hostrange_shift`. -/
def hostrangeShift (hr : HostRange) : Option (List Char) × HostRange :=
  if hr.singlehost then (some hr.pfx, { hr with lo := ulongAdd hr.lo 1 })
  else if 0 < hostrangeCount hr then
    (some ((hr.pfx ++ padded hr.width hr.lo).take (hr.pfx.length + hr.width + 15)),
      { hr with lo := ulongAdd hr.lo 1 })
  else (none, hr)

/-- `_hostrange_string`, with a buffer for 78 characters and the terminator; `none` if it writes
behind the buffer. -/
def hostrangeString (hr : HostRange) (depth : ℤ) : Option (List Char) :=
  if hr.singlehost then some (hr.pfx.take 78)
  else if 79 < hr.pfx.length then none
  else some (hr.pfx.take 78 ++
    (padded hr.width (ulongAdd hr.lo (toUlong depth))).take (78 - hr.pfx.length))

/-! ### Lists -/

/-- `hostlist_insert_range`, on the array. -/
def hostlistInsertRange (hl : Hostlist) (hr : HostRange) (n : ℕ) : Hostlist :=
  if hl.ranges.length < n then hl
  else { hl with ranges := hl.ranges.take n ++ hostrangeCopy hr :: hl.ranges.drop n }

/-- `hostlist_delete_range`, on the array. -/
def hostlistDeleteRange (hl : Hostlist) (n : ℕ) : Hostlist :=
  { hl with ranges := hl.ranges.eraseIdx n }

/-- The body of the loop of `hostlist_delete_nth` for the range that has the host. -/
def deleteFrom (ndebug : Bool) (hl : Hostlist) (i : ℕ) (hr : HostRange) (num : ℕ) :
    Option Hostlist :=
  if hr.singlehost then some (hostlistDeleteRange hl i)
  else
    match hostrangeDeleteHost ndebug hr num with
    | none => none
    | some (hr, some new) =>
      some (hostlistInsertRange { hl with ranges := hl.ranges.set i hr } new (i + 1))
    | some (hr, none) =>
      if hostrangeEmpty hr
        then some (hostlistDeleteRange { hl with ranges := hl.ranges.set i hr } i)
      else some { hl with ranges := hl.ranges.set i hr }

/-- The loop of `hostlist_delete_nth` over the ranges from one on. -/
def deleteNthLoop (ndebug : Bool) (hl : Hostlist) (n : ℤ) : List HostRange → ℕ → ℤ → Option Hostlist
  | [], _, _ => some hl
  | hr :: rest, i, count =>
    if n ≤ toInt (toInt (toInt (hostrangeCount hr) - 1) + count) then
      deleteFrom ndebug hl i hr (ulongSub (ulongAdd hr.lo (toUlong n)) (toUlong count))
    else deleteNthLoop ndebug hl n rest (i + 1) (toInt (count + toInt (hostrangeCount hr)))

/-- `hostlist_delete_nth`; `none` if an assertion fails. -/
def hostlistDeleteNth (ndebug : Bool) (hl : Hostlist) (n : ℤ) : Option Hostlist :=
  if ndebug = false ∧ ¬(0 ≤ n ∧ n ≤ hl.nhosts) then none
  else (deleteNthLoop ndebug hl n hl.ranges 0 0).map fun hl ↦
    { hl with nhosts := toInt (hl.nhosts - 1) }

/-- `hostlist_delete_host`. -/
def hostlistDeleteHost (ndebug : Bool) (hl : Hostlist) (hostname : List Char) :
    Option (ℤ × Hostlist) :=
  let (n, hl) := hostlistFind hl hostname
  if 0 ≤ n then (hostlistDeleteNth ndebug hl n).map fun hl ↦ (1, hl) else some (0, hl)

/-- The loop of `hostlist_nth` over the ranges from one on: the name, if there is one; `none` if a
name is written behind the buffer. -/
def nthLoop (n : ℤ) : List HostRange → ℤ → Option (Option (List Char))
  | [], _ => some none
  | hr :: rest, count =>
    if n ≤ toInt (toInt (toInt (hostrangeCount hr) - 1) + count)
      then (hostrangeString hr (toInt (n - count))).map some
    else nthLoop n rest (toInt (count + toInt (hostrangeCount hr)))

/-- `hostlist_nth`. -/
def hostlistNth (hl : Hostlist) (n : ℤ) : Option (Option (List Char)) :=
  nthLoop n hl.ranges 0

/-- `hostlist_pop`; `none` if there is no range to take a host from. -/
def hostlistPop (hl : Hostlist) : Option (Option (List Char) × Hostlist) :=
  if 0 < hl.nhosts then
    match hl.ranges.getLast? with
    | none => none
    | some hr =>
      let (host, hr) := hostrangePop hr
      some (host, { ranges := if hostrangeEmpty hr then hl.ranges.dropLast
        else hl.ranges.dropLast ++ [hr]
                    nhosts := toInt (hl.nhosts - 1) })
  else some (none, hl)

/-- `hostlist_shift`; `none` if there is no range to take a host from. -/
def hostlistShift (hl : Hostlist) : Option (Option (List Char) × Hostlist) :=
  if 0 < hl.nhosts then
    match hl.ranges with
    | [] => none
    | hr :: rest =>
      let (host, hr) := hostrangeShift hr
      some (host, { ranges := if hostrangeEmpty hr then rest
        else hr :: rest, nhosts := toInt (hl.nhosts - 1) })
  else some (none, hl)

/-- The loop of `hostlist_delete`. Without rounds left it does not end. -/
def deleteLoop (ndebug : Bool) : ℕ → Hostlist → Hostlist → ℤ → Option (ℤ × Hostlist)
  | 0, _, _, _ => none
  | rounds + 1, hltmp, hl, n =>
    match hostlistPop hltmp with
    | none => none
    | some (none, _) => some (n, hl)
    | some (some hostname, hltmp) =>
      match hostlistDeleteHost ndebug hl hostname with
      | none => none
      | some (deleted, hl) => deleteLoop ndebug rounds hltmp hl (toInt (n + deleted))

/-- `hostlist_delete`; `none` if it does not return. -/
def hostlistDelete (ndebug : Bool) (hl : Hostlist) (hosts : List Char) : Option (ℤ × Hostlist) :=
  match hostlistCreate hosts with
  | .error .diverges => none
  | .error _ => some (0, hl)
  | .ok hltmp => deleteLoop ndebug (hltmp.hosts.length + 1) hltmp hl 0

/-! ### A range without a host -/

/-- A valid range denotes as many hosts as there are numbers in it. -/
theorem HostRange.Valid.length_hosts {hr : HostRange} (h : hr.Valid) : hr.hosts.length =
    hr.hi - hr.lo + 1 := by
  have hle := h.lo_le_hi
  cases hsingle : hr.singlehost with
  | true =>
    obtain ⟨hlo, hhi⟩ := h.single hsingle
    rw [HostRange.hosts_single hsingle, hlo, hhi]
    rfl
  | false =>
    rw [HostRange.length_hosts hsingle]
    omega

/-- The ranges that are left of a range without the host at a depth. -/
def HostRange.without (hr : HostRange) (depth : ℕ) : List HostRange :=
  (if 0 < depth then [{ hr with hi := hr.lo + depth - 1 }] else []) ++
    if hr.lo + depth < hr.hi then [{ hr with lo := hr.lo + depth + 1 }] else []

/-- Assumes: a canonical range. With other bounds in between it is canonical, if there is more than
one host. -/
theorem HostRange.Canonical.setBounds {hr : HostRange} (h : hr.Canonical) {lo hi : ℕ}
    (hle : lo ≤ hi) (hhi : hi ≤ hr.hi)
    (hmany : hr.lo < hr.hi) : HostRange.Canonical { hr with lo := lo, hi := hi } := by
  have hsingle : hr.singlehost = false := by
    by_contra hsingle
    have hbounds := h.single (by simpa using hsingle)
    omega
  exact ⟨⟨hle, hhi.trans_lt h.hi_lt, fun hyes ↦ absurd (hsingle.symm.trans hyes) (by decide)⟩,
    hhi.trans h.hi_le, h.pfx_end,
    h.single_width⟩

/-- Assumes: a canonical range and a depth in it. The ranges that are left without the host are
canonical, and have the other hosts. -/
theorem HostRange.Canonical.without_spec {hr : HostRange} (h : hr.Canonical) {depth : ℕ}
    (hdepth : depth ≤ hr.hi - hr.lo) :
    hostsOf (hr.without depth) = hr.hosts.eraseIdx depth ∧ ∀ other ∈ hr.without depth,
      other.Canonical := by
  have hle := h.lo_le_hi
  constructor
  · cases hsingle : hr.singlehost with
    | true =>
      obtain ⟨hlo, hhi⟩ := h.single hsingle
      obtain rfl : depth = 0 := by omega
      unfold HostRange.without HostRange.hosts
      rw [if_neg (by omega), if_neg (by omega), if_pos hsingle]
      rfl
    | false =>
      have hhosts : ∀ lo hi : ℕ, HostRange.hosts { hr with lo := lo, hi := hi } =
          (List.range' lo (hi + 1 - lo)).map fun number ↦ hr.pfx ++ padded hr.width number :=
              fun lo hi ↦ by
        unfold HostRange.hosts
        rw [if_neg (by simp [hsingle])]
      have hall := hhosts hr.lo hr.hi
      rw [show ({ hr with lo := hr.lo, hi := hr.hi } : HostRange) = hr from rfl] at hall
      rw [hall, List.eraseIdx_eq_take_drop_succ, ← List.map_take, ← List.map_drop,
        List.take_range'_of_length_ge (by omega), List.drop_range']
      unfold HostRange.without
      rw [hostsOf_append]
      congr 1
      · split_ifs with hpos
        · rw [hostsOf_cons, hostsOf_nil, List.append_nil, hhosts]
          congr 2
          omega
        · rw [show depth = 0 by omega]
          rfl
      · split_ifs with hlast
        · rw [hostsOf_cons, hostsOf_nil, List.append_nil, hhosts]
          congr 2
          · omega
          · omega
        · rw [show hr.hi + 1 - hr.lo - (depth + 1) = 0 by omega]
          rfl
  · intro other hmem
    unfold HostRange.without at hmem
    rcases List.mem_append.mp hmem with hmem | hmem
    · split_ifs at hmem with hpos
      · rw [List.mem_singleton.mp hmem]
        exact h.setBounds (by omega) (by omega) (by omega)
      · exact absurd hmem List.not_mem_nil
    · split_ifs at hmem with hlast
      · rw [List.mem_singleton.mp hmem]
        exact h.setBounds (by omega) le_rfl (by omega)
      · exact absurd hmem List.not_mem_nil

/-- Assumes: bounds in order below `ULONG_MAX`. The range is not empty. -/
theorem hostrangeEmpty_eq_false {hr : HostRange} (hle : hr.lo ≤ hr.hi) (hlt : hr.hi < ulongMax) :
    hostrangeEmpty hr = false :=
  Bool.or_eq_false_iff.mpr ⟨decide_eq_false (not_lt.mpr hle), decide_eq_false hlt.ne⟩

/-- Assumes: a range that is not a single host. The copy of it is the same. -/
theorem hostrangeCopy_eq {hr : HostRange} (hsingle : hr.singlehost = false) :
    hostrangeCopy hr = hr := by
  unfold hostrangeCopy hostrangeCreate
  rw [if_neg (by simp [hsingle]), ← hsingle]

/-- Assumes: a canonical range and a depth in it. The host there is taken out in one of three ways:
it is the only one, it is the first or the last one, or the range is split. -/
theorem hostrangeDeleteHost_cases {hr : HostRange} (h : hr.Canonical) {depth : ℕ}
    (hdepth : depth ≤ hr.hi - hr.lo) (ndebug : Bool) :
    ∃ hr' new, hostrangeDeleteHost ndebug hr (hr.lo + depth) = some (hr', new) ∧
      ((new = none ∧ hostrangeEmpty hr' = true ∧ hr.lo = hr.hi ∧ hr.without depth = []) ∨
        (new = none ∧ hostrangeEmpty hr' = false ∧ (depth = 0 ∨ depth = hr.hi - hr.lo) ∧
          hr.without depth = [hr']) ∨
        ∃ above, new = some above ∧ hostrangeCopy above = above ∧ hr.without depth =
          [hr', above]) := by
  have hle := h.lo_le_hi
  have hmax := h.hi_le
  unfold maxHostSuffix at hmax
  have hadd : ∀ n, n ≤ hr.hi → ulongAdd n 1 = n + 1 := fun n hn ↦ Nat.mod_eq_of_lt (by omega)
  unfold hostrangeDeleteHost HostRange.without
  rw [if_neg (by omega)]
  by_cases hfirst : depth = 0
  · subst hfirst
    refine ⟨_, _, if_pos (Nat.add_zero _), ?_⟩
    rw [hadd _ hle]
    by_cases honly : hr.lo = hr.hi
    · refine Or.inl ⟨rfl, ?_, honly, ?_⟩
      · simp [hostrangeEmpty, honly]
      · rw [if_neg (by omega), if_neg (by omega)]
        rfl
    · refine Or.inr (Or.inl ⟨rfl, ?_, Or.inl rfl, ?_⟩)
      · exact hostrangeEmpty_eq_false (show hr.lo + 1 ≤ hr.hi by omega) h.hi_lt
      · rw [if_neg (by omega), if_pos (by omega)]
        rfl
  · rw [if_neg (by omega)]
    by_cases hlast : depth = hr.hi - hr.lo
    · refine ⟨_, _, if_pos (by omega), Or.inr (Or.inl ⟨rfl, ?_, Or.inr hlast, ?_⟩)⟩
      · rw [ulongSub_eq_sub (by omega)]
        exact hostrangeEmpty_eq_false (show hr.lo ≤ hr.hi - 1 by omega)
          ((Nat.sub_le _ _).trans_lt h.hi_lt)
      · rw [if_pos (by omega), if_neg (by omega), ulongSub_eq_sub (by omega), List.append_nil]
        congr 2
        omega
    · have hsingle : hr.singlehost = false := by
        by_contra hsingle
        have hbounds := h.single (by simpa using hsingle)
        omega
      rw [hostrangeCopy_eq hsingle]
      refine ⟨_, _, if_neg (by omega), Or.inr (Or.inr ⟨_, rfl, hostrangeCopy_eq hsingle, ?_⟩)⟩
      rw [if_pos (by omega), if_pos (by omega), ulongSub_eq_sub (by omega), hadd _ (by omega)]
      rfl

/-! ### One host by its number -/

/-- An entry behind others is replaced. -/
theorem set_at (front back : List HostRange) (hr hr' : HostRange) :
    (front ++ hr :: back).set front.length hr' = front ++ hr' :: back := by
  rw [List.set_append_right _ _ le_rfl, Nat.sub_self, List.set_cons_zero]

/-- An entry behind others is taken out. -/
theorem eraseIdx_at (front back : List HostRange) (hr : HostRange) :
    (front ++ hr :: back).eraseIdx front.length = front ++ back := by
  rw [List.eraseIdx_append_of_length_le le_rfl, Nat.sub_self, List.eraseIdx_cons_zero]

/-- Assumes: a range that is the same if it is copied. It is inserted behind others. -/
theorem hostlistInsertRange_at {hl : Hostlist} {front back : List HostRange} {hr above : HostRange}
    (hranges : hl.ranges = front ++ hr :: back) (hcopy : hostrangeCopy above = above) :
    hostlistInsertRange hl above (front.length + 1) =
      { hl with ranges := front ++ hr :: above :: back } := by
  have htake : (front ++ hr :: back).take (front.length + 1) = front ++ [hr] := by
    rw [List.take_append, List.take_of_length_le (by omega), Nat.add_sub_cancel_left]
    rfl
  have hdrop : (front ++ hr :: back).drop (front.length + 1) = back := by
    rw [List.drop_append, List.drop_eq_nil_of_le (by omega), Nat.add_sub_cancel_left]
    rfl
  unfold hostlistInsertRange
  rw [hranges, if_neg (by simp), htake, hdrop, hcopy, List.append_assoc, List.singleton_append]

/-- Assumes: the ranges of a list, one of which is canonical, and a depth in it. Without the host
there, that range is in pieces and the others are as they were. -/
theorem deleteFrom_spec {hl : Hostlist} {front back : List HostRange} {hr : HostRange}
    (hranges : hl.ranges = front ++ hr :: back)
    (h : hr.Canonical) {depth : ℕ} (hdepth : depth ≤ hr.hi - hr.lo) (ndebug : Bool) :
    deleteFrom ndebug hl front.length hr (hr.lo + depth) =
      some { hl with ranges := front ++ (hr.without depth ++ back) } := by
  obtain ⟨hr', new, hdelete, hcases⟩ := hostrangeDeleteHost_cases h hdepth ndebug
  unfold deleteFrom hostlistDeleteRange
  rw [hranges, hdelete]
  by_cases hsingle : hr.singlehost = true
  · obtain ⟨hlo, hhi⟩ := h.single hsingle
    rw [if_pos hsingle, eraseIdx_at, HostRange.without, if_neg (by omega), if_neg (by omega)]
    rfl
  · rw [if_neg hsingle]
    rcases hcases with ⟨rfl, hempty, -, hpieces⟩ | ⟨rfl, hempty, -, hpieces⟩ | ⟨above, rfl,
      hcopy, hpieces⟩
    · simp only [hempty, if_true, set_at, eraseIdx_at, hpieces, List.nil_append]
    · simp only [hempty, Bool.false_eq_true, if_false, set_at, hpieces, List.singleton_append]
    · simp only [set_at, hpieces]
      rw [hostlistInsertRange_at rfl hcopy]
      rfl

/-- Assumes: canonical ranges, of which some are passed, and the number of a host behind these. The
loop takes that host out. -/
theorem deleteNthLoop_spec (ndebug : Bool) {hl : Hostlist} {n : ℕ} (rest : List HostRange) :
    ∀ (front : List HostRange) (count : ℕ), hl.ranges = front ++ rest →
      (∀ hr ∈ hl.ranges, hr.Canonical) →
      count + (hostsOf rest).length < 2147483648 → count ≤ n → n < count + (hostsOf rest).length →
      ∃ ranges, deleteNthLoop ndebug hl n rest front.length count =
        some { hl with ranges := ranges } ∧
        hostsOf ranges = hostsOf front ++ (hostsOf rest).eraseIdx (n - count) ∧
            ∀ hr ∈ ranges, hr.Canonical := by
  induction rest with
  | nil =>
    intro front count _ _ _ hle hlt
    rw [hostsOf_nil, List.length_nil] at hlt
    omega
  | cons hr rest ih =>
    intro front count hranges hcanonical hsmall hle hlt
    have hr_canonical : hr.Canonical := hcanonical hr (by rw [hranges]; simp)
    have hlength : hr.hosts.length = hr.hi - hr.lo + 1 := hr_canonical.toValid.length_hosts
    have hlo := hr_canonical.lo_le_hi
    have hmax := hr_canonical.hi_le
    unfold maxHostSuffix at hmax
    rw [hostsOf_cons, List.length_append] at hsmall hlt
    have hcount : toInt (hostrangeCount hr) = hr.hosts.length := by
      rw [hr_canonical.toValid.hostrangeCount_eq]
      exact toInt_eq_self (by omega) (by omega)
    rw [deleteNthLoop, hcount, toInt_eq_self (show -2147483648 ≤ (hr.hosts.length : ℤ) - 1 by
      omega) (by omega),
      toInt_eq_self (show -2147483648 ≤ (hr.hosts.length : ℤ) - 1 + count by omega) (by omega)]
    by_cases hhere : n < count + hr.hosts.length
    · have hnum : ulongSub (ulongAdd hr.lo (toUlong n)) (toUlong count) = hr.lo + (n - count) := by
        rw [toUlong_natCast (by omega), toUlong_natCast (by omega), ulongAdd,
          Nat.mod_eq_of_lt (by omega),
          ulongSub_eq_sub (by omega)]
        omega
      obtain ⟨hhosts, hpieces⟩ :=
        hr_canonical.without_spec (show n - count ≤ hr.hi - hr.lo by omega)
      refine ⟨front ++ (hr.without (n - count) ++ rest), ?_, ?_, ?_⟩
      · rw [if_pos (by omega), hnum]
        exact deleteFrom_spec hranges hr_canonical (by omega) ndebug
      · rw [hostsOf_append, hostsOf_append, hhosts, hostsOf_cons,
          List.eraseIdx_append_of_lt_length (by omega)]
      · intro other hmem
        rw [hranges] at hcanonical
        simp only [List.mem_append] at hmem
        rcases hmem with hmem | hmem | hmem
        · exact hcanonical other (List.mem_append_left _ hmem)
        · exact hpieces other hmem
        · exact hcanonical other (List.mem_append_right _ (List.mem_cons_of_mem _ hmem))
    · obtain ⟨ranges, hrun, hhosts, hcanonical'⟩ := ih (front ++ [hr]) (count + hr.hosts.length)
        (by rw [hranges]; simp)
        hcanonical (by omega) (by omega) (by omega)
      refine ⟨ranges, ?_, ?_, hcanonical'⟩
      · rw [if_neg (by omega), toInt_eq_self (by omega) (by omega), ← hrun, List.length_append,
          List.length_singleton]
        push_cast
        rfl
      · rw [hhosts, hostsOf_append, hostsOf_cons, hostsOf_cons, hostsOf_nil, List.append_nil,
          List.append_assoc,
          List.eraseIdx_append_of_length_le (by omega), Nat.sub_sub]

/-- Assumes: a canonical list of less than `2 ^ 31` names. The count of it is right. -/
theorem Hostlist.Canonical.nhosts_eq_length {hl : Hostlist} (h : hl.Canonical)
    (hsmall : hl.hosts.length < 2147483648) :
    hl.nhosts = hl.hosts.length := by
  rw [h.nhosts_eq]
  exact toInt_eq_self (by omega) (by omega)

/-- Assumes: a canonical list, and canonical ranges that denote one name less. With the count
decremented they are a canonical list. -/
theorem Hostlist.Canonical.decrement {hl : Hostlist} (h : hl.Canonical) {ranges : List HostRange}
    (hcanonical : ∀ hr ∈ ranges, hr.Canonical)
    (hlength : (hostsOf ranges).length + 1 = hl.hosts.length) :
    Hostlist.Canonical { ranges := ranges, nhosts := toInt (hl.nhosts - 1) } := by
  refine ⟨⟨fun hr hmem ↦ (hcanonical hr hmem).toValid, ?_⟩, hcanonical⟩
  change toInt (hl.nhosts - 1) = toInt ((hostsOf ranges).length : ℤ)
  rw [h.nhosts_eq, sub_eq_add_neg, toInt_toInt_add]
  congr 1
  omega

/-- The names before, in and behind a range. -/
theorem hosts_eq_append {hl : Hostlist} {front back : List HostRange} {hr : HostRange}
    (hranges : hl.ranges = front ++ hr :: back) :
    hl.hosts = hostsOf front ++ (hr.hosts ++ hostsOf back) := by
  rw [Hostlist.hosts, hranges, hostsOf_append, hostsOf_cons]

/-- Assumes: a canonical list, one of its ranges, and a depth in it. Without the host there, and
with the count decremented, the list has one name less, and is canonical. -/
theorem Hostlist.Canonical.without {hl : Hostlist} (h : hl.Canonical) {front back : List HostRange}
    {hr : HostRange}
    (hranges : hl.ranges = front ++ hr :: back) {depth : ℕ} (hdepth : depth ≤ hr.hi - hr.lo) :
    hostsOf (front ++ (hr.without depth ++ back)) =
      hl.hosts.eraseIdx ((hostsOf front).length + depth) ∧
      Hostlist.Canonical
        { ranges := front ++ (hr.without depth ++ back), nhosts := toInt (hl.nhosts - 1) } := by
  have hr_canonical : hr.Canonical := h.ranges_canonical hr (by rw [hranges]; simp)
  have hlength := hr_canonical.toValid.length_hosts
  obtain ⟨hpieces, hpieces_canonical⟩ := hr_canonical.without_spec hdepth
  have hnames : hostsOf (front ++ (hr.without depth ++ back)) =
      hl.hosts.eraseIdx ((hostsOf front).length + depth) := by
    rw [hosts_eq_append hranges, hostsOf_append, hostsOf_append, hpieces,
      List.eraseIdx_append_of_length_le (Nat.le_add_right _ _),
      Nat.add_sub_cancel_left, List.eraseIdx_append_of_lt_length (by omega)]
  refine ⟨hnames, h.decrement (fun other hmem ↦ ?_) ?_⟩
  · rcases List.mem_append.mp hmem with hmem | hmem
    · exact h.ranges_canonical other (by rw [hranges]; exact List.mem_append_left _ hmem)
    · rcases List.mem_append.mp hmem with hmem | hmem
      · exact hpieces_canonical other hmem
      · exact h.ranges_canonical other (by
          rw [hranges]; exact List.mem_append_right _ (List.mem_cons_of_mem _ hmem))
  · have htotal := congrArg List.length (hosts_eq_append hranges)
    rw [List.length_append, List.length_append] at htotal
    rw [hnames, List.length_eraseIdx_of_lt (by omega)]
    omega

/-- Assumes: a canonical list of less than `2 ^ 31` names, and the number of one of them. The call
takes that name out. -/
theorem hostlistDeleteNth_spec {hl : Hostlist} (hcanonical : hl.Canonical)
    (hsmall : hl.hosts.length < 2147483648) {n : ℕ}
    (hn : n < hl.hosts.length) (ndebug : Bool) :
    ∃ hl', hostlistDeleteNth ndebug hl n = some hl' ∧ hl'.hosts = hl.hosts.eraseIdx n ∧
      hl'.Canonical := by
  have hnhosts := hcanonical.nhosts_eq_length hsmall
  obtain ⟨ranges, hrun, hhosts, hcanonical'⟩ :=
    deleteNthLoop_spec ndebug hl.ranges [] 0 rfl hcanonical.ranges_canonical
    (by rw [Nat.zero_add]; exact hsmall) (Nat.zero_le n) (by rw [Nat.zero_add]; exact hn)
  rw [hostsOf_nil, List.nil_append, Nat.sub_zero] at hhosts
  refine ⟨{ ranges := ranges, nhosts := toInt (hl.nhosts - 1) }, ?_, hhosts,
    hcanonical.decrement hcanonical' ?_⟩
  · unfold hostlistDeleteNth
    rw [if_neg (by omega)]
    exact congrArg (Option.map _) hrun
  · rw [hhosts, show (hostsOf hl.ranges).eraseIdx n = hl.hosts.eraseIdx n from rfl,
      List.length_eraseIdx_of_lt hn]
    exact Nat.sub_add_cancel (by omega)

/-- Assumes: a canonical list of less than `2 ^ 31` names. The assertion lets their number pass as
the number of one: then no name is taken out, and the count is wrong. -/
theorem hostlistDeleteNth_end {hl : Hostlist} (hcanonical : hl.Canonical)
    (hsmall : hl.hosts.length < 2147483648) (ndebug : Bool) :
    hostlistDeleteNth ndebug hl hl.hosts.length =
      some { hl with nhosts := (hl.hosts.length : ℤ) - 1 } := by
  have hnhosts := hcanonical.nhosts_eq_length hsmall
  have hloop : ∀ (rest : List HostRange) (i count : ℕ), (∀ hr ∈ rest, hr.Canonical) →
      count + (hostsOf rest).length = hl.hosts.length →
          deleteNthLoop ndebug hl hl.hosts.length rest i count = some hl := by
    intro rest
    induction rest with
    | nil => exact fun i count _ _ ↦ rfl
    | cons hr rest ih =>
      intro i count hrest hlength
      obtain ⟨hr_canonical, hrest⟩ := List.forall_mem_cons.mp hrest
      rw [hostsOf_cons, List.length_append] at hlength
      have hcount : toInt (hostrangeCount hr) = hr.hosts.length := by
        rw [hr_canonical.toValid.hostrangeCount_eq]
        exact toInt_eq_self (by omega) (by omega)
      rw [deleteNthLoop, hcount, toInt_eq_self (show -2147483648 ≤ (hr.hosts.length : ℤ) - 1 by
        omega) (by omega),
        toInt_eq_self (show -2147483648 ≤ (hr.hosts.length : ℤ) - 1 + count by omega) (by omega),
          if_neg (by omega),
        toInt_eq_self (by omega) (by omega)]
      exact_mod_cast ih (i + 1) (count + hr.hosts.length) hrest (by omega)
  have hrun := hloop hl.ranges 0 0 hcanonical.ranges_canonical (by rw [Nat.zero_add]; rfl)
  unfold hostlistDeleteNth
  rw [if_neg (by omega), show (0 : ℤ) = ((0 : ℕ) : ℤ) from rfl, hrun, Option.map_some, hnhosts,
    toInt_eq_self (by omega) (by omega)]

/-- Assumes: a canonical list of less than `2 ^ 31` names. The call takes the first name that is
equal out, if there is one. -/
theorem hostlistDeleteHost_spec {hl : Hostlist} (hcanonical : hl.Canonical)
    (hsmall : hl.hosts.length < 2147483648)
    (hostname : List Char) (ndebug : Bool) :
    ∃ hl', hostlistDeleteHost ndebug hl hostname =
      some (if hostname ∈ hl.hosts then 1 else 0, hl') ∧
      hl'.hosts = hl.hosts.erase hostname ∧ hl'.Canonical := by
  obtain ⟨hfound, hhosts, hcanonical'⟩ := hostlistFind_spec hcanonical hostname
  unfold hostlistDeleteHost
  by_cases hmem : hostname ∈ hl.hosts
  · have hidx := List.idxOf_lt_length_iff.mpr hmem
    obtain ⟨hl', hdelete, hnames, hl'_canonical⟩ :=
      hostlistDeleteNth_spec hcanonical' (hhosts.symm ▸ hsmall)
      (n := hl.hosts.idxOf hostname) (hhosts.symm ▸ hidx) ndebug
    rw [if_pos hmem, toInt_eq_self (by omega) (by omega)] at hfound
    refine ⟨hl', ?_, ?_, hl'_canonical⟩
    · simp only [hfound, Int.natCast_nonneg, if_true, hdelete, if_pos hmem]
      rfl
    · rw [hnames, hhosts, List.erase_eq_eraseIdx_of_idxOf rfl]
  · rw [if_neg hmem] at hfound
    refine ⟨_, ?_, ?_, hcanonical'⟩
    · simp only [hfound, Int.reduceNeg, Int.reduceLE, if_false, if_neg hmem]
    · rw [hhosts, List.erase_of_not_mem hmem]

/-! ### The name of a number -/

/-- Assumes: a valid range, a depth in it, and a name there of at most 78 characters. It is made as
it is. -/
theorem hostrangeString_eq {hr : HostRange} (h : hr.Valid) {depth : ℕ} {name : List Char}
    (hname : hr.hosts[depth]? = some name)
    (hfits : name.length ≤ 78) : hostrangeString hr depth = some name := by
  have hmax := h.hi_lt
  have hlt := (List.getElem?_eq_some_iff.mp hname).1
  have hlength := h.length_hosts
  have hle := h.lo_le_hi
  unfold ulongMax at hmax
  unfold HostRange.hosts at hname
  unfold hostrangeString
  split_ifs at hname ⊢ with hsingle hlong
  · obtain ⟨hlo, hhi⟩ := h.single hsingle
    obtain rfl : depth = 0 := by omega
    obtain rfl := Option.some.inj hname
    rw [List.take_of_length_le hfits]
  · rw [List.getElem?_map, List.getElem?_range' (by omega)] at hname
    obtain rfl := Option.some.inj hname
    rw [List.length_append] at hfits
    omega
  · rw [List.getElem?_map, List.getElem?_range' (by omega), Nat.one_mul] at hname
    obtain rfl := Option.some.inj hname
    rw [List.length_append] at hfits
    rw [toUlong_natCast (by omega), ulongAdd, Nat.mod_eq_of_lt (by omega),
      List.take_of_length_le (by omega),
      List.take_of_length_le (by omega)]

/-- Assumes: a canonical list of less than `2 ^ 31` names, none of more than 78 characters. The call
gives the name of a number, and `NULL` behind the last one. -/
theorem hostlistNth_spec {hl : Hostlist} (hcanonical : hl.Canonical)
    (hsmall : hl.hosts.length < 2147483648)
    (hfits : ∀ name ∈ hl.hosts, name.length ≤ 78) {n : ℕ} (hn : n < 2147483648) : hostlistNth hl n =
      some hl.hosts[n]? := by
  have hloop : ∀ (rest : List HostRange) (count : ℕ), (∀ hr ∈ rest, hr.Canonical) →
    (∀ name ∈ hostsOf rest, name.length ≤ 78) →
      count + (hostsOf rest).length < 2147483648 → count ≤ n →
          nthLoop n rest count = some (hostsOf rest)[n - count]? := by
    intro rest
    induction rest with
    | nil => exact fun count _ _ _ _ ↦ rfl
    | cons hr rest ih =>
      intro count hrest hshort hlength hle
      obtain ⟨hr_canonical, hrest⟩ := List.forall_mem_cons.mp hrest
      rw [hostsOf_cons] at hshort
      rw [hostsOf_cons, List.length_append] at hlength
      have hcount : toInt (hostrangeCount hr) = hr.hosts.length := by
        rw [hr_canonical.toValid.hostrangeCount_eq]
        exact toInt_eq_self (by omega) (by omega)
      rw [nthLoop, hcount, toInt_eq_self (show -2147483648 ≤ (hr.hosts.length : ℤ) - 1 by
        omega) (by omega),
        toInt_eq_self (show -2147483648 ≤ (hr.hosts.length : ℤ) - 1 + count by omega) (by omega),
          hostsOf_cons]
      by_cases hhere : n < count + hr.hosts.length
      · obtain ⟨name, hname⟩ : ∃ name, hr.hosts[n - count]? = some name :=
          ⟨_, List.getElem?_eq_getElem (by omega)⟩
        have hstring := hostrangeString_eq hr_canonical.toValid hname
          (hshort name (List.mem_append_left _ (List.mem_of_getElem? hname)))
        rw [if_pos (by omega), toInt_eq_self (by omega) (by omega),
          List.getElem?_append_left (by omega), hname,
          show (n : ℤ) - count = (n - count : ℕ) by omega, hstring]
        rfl
      · have hlater :=
          ih (count + hr.hosts.length) hrest (fun name hname ↦
          hshort name (List.mem_append_right _ hname))
          (by omega) (by omega)
        rw [if_neg (by omega), toInt_eq_self (by omega) (by omega),
          List.getElem?_append_right (by omega), Nat.sub_sub]
        exact_mod_cast hlater
  have hrun :=
    hloop hl.ranges 0 hcanonical.ranges_canonical hfits (by rw [Nat.zero_add]; exact hsmall)
    (Nat.zero_le n)
  rwa [Nat.sub_zero] at hrun

/-! ### The ends -/

/-- Assumes: a canonical range. The name that is printed of a number of it is not cut. -/
theorem HostRange.Canonical.take_name {hr : HostRange} (h : hr.Canonical) {number : ℕ}
    (hnumber : number ≤ hr.hi) :
    (hr.pfx ++ padded hr.width number).take (hr.pfx.length + hr.width + 15) = hr.pfx ++
      padded hr.width number := by
  have hmax := h.hi_le
  have hdigits : numDigits number ≤ 14 :=
    (numDigits_le_iff (by decide)).mpr (by unfold maxHostSuffix at hmax; omega)
  rw [List.take_of_length_le]
  rw [List.length_append, length_padded]
  omega

/-- A range that is empty behind a change is dropped, and any other is kept. -/
def HostRange.left (hr : HostRange) : List HostRange :=
  if hostrangeEmpty hr then [] else [hr]

/-- Assumes: a canonical range. The range behind a shift has its lower bound moved, and is empty if
it had one host. -/
theorem HostRange.Canonical.shifted {hr : HostRange} (h : hr.Canonical) :
    ulongAdd hr.lo 1 = hr.lo + 1 ∧ hostrangeEmpty { hr with lo := ulongAdd hr.lo 1 } =
      decide (hr.lo = hr.hi) := by
  have hle := h.lo_le_hi
  have hmax := h.hi_lt
  have hadd : ulongAdd hr.lo 1 = hr.lo + 1 := Nat.mod_eq_of_lt (by unfold ulongMax at hmax; omega)
  refine ⟨hadd, ?_⟩
  rw [hadd]
  by_cases honly : hr.lo = hr.hi
  · rw [decide_eq_true honly]
    exact Bool.or_eq_true_iff.mpr (Or.inl (decide_eq_true (show hr.hi < hr.lo + 1 by omega)))
  · rw [decide_eq_false honly]
    exact hostrangeEmpty_eq_false (show hr.lo + 1 ≤ hr.hi by omega) hmax

/-- Assumes: a canonical range. What `hostrange_shift` leaves of it is the range without its first
host. -/
theorem HostRange.Canonical.left_lo {hr : HostRange} (h : hr.Canonical) :
    HostRange.left { hr with lo := ulongAdd hr.lo 1 } = hr.without 0 := by
  have hle := h.lo_le_hi
  obtain ⟨hadd, hempty⟩ := h.shifted
  unfold HostRange.left HostRange.without
  rw [hempty, hadd, if_neg (Nat.lt_irrefl 0), List.nil_append, Nat.add_zero]
  by_cases honly : hr.lo = hr.hi
  · rw [decide_eq_true honly, if_pos rfl, if_neg (by omega)]
  · rw [decide_eq_false honly, if_neg Bool.false_ne_true, if_pos (by omega)]

/-- Assumes: a canonical range. What `hostrange_pop` leaves of it, if it is not a single host, is
the range without its last host. -/
theorem HostRange.Canonical.left_hi {hr : HostRange} (h : hr.Canonical) :
    HostRange.left { hr with hi := ulongSub hr.hi 1 } = hr.without (hr.hi - hr.lo) := by
  have hle := h.lo_le_hi
  have hmax := h.hi_lt
  unfold HostRange.left HostRange.without
  by_cases honly : hr.lo = hr.hi
  · have hempty : hostrangeEmpty { hr with hi := ulongSub hr.hi 1 } = true := by
      by_cases hzero : hr.hi = 0
      · exact Bool.or_eq_true_iff.mpr
          (Or.inr (decide_eq_true (show ulongSub hr.hi 1 = ulongMax by rw [hzero]; rfl)))
      · rw [ulongSub_eq_sub (by omega)]
        exact Bool.or_eq_true_iff.mpr (Or.inl (decide_eq_true (show hr.hi - 1 < hr.lo by omega)))
    rw [if_pos hempty, if_neg (by omega), if_neg (by omega), List.nil_append]
  · have hnot : hostrangeEmpty { hr with hi := ulongSub hr.hi 1 } = false := by
      rw [ulongSub_eq_sub (by omega)]
      exact hostrangeEmpty_eq_false (show hr.lo ≤ hr.hi - 1 by omega)
        ((Nat.sub_le _ _).trans_lt hmax)
    rw [hnot, if_neg Bool.false_ne_true, if_pos (by omega), if_neg (by omega),
      ulongSub_eq_sub (by omega), List.append_nil]
    congr 2
    omega

/-- Assumes: a canonical range. `hostrange_pop` gives its last name, and leaves the range without
it. -/
theorem hostrangePop_spec {hr : HostRange} (h : hr.Canonical) :
    ∃ hr', hostrangePop hr = (hr.hosts.getLast?, hr') ∧ hr'.left = hr.without (hr.hi - hr.lo) := by
  have hle := h.lo_le_hi
  unfold hostrangePop
  by_cases hsingle : hr.singlehost = true
  · obtain ⟨hlo, hhi⟩ := h.single hsingle
    refine ⟨{ hr with lo := ulongAdd hr.lo 1 }, ?_, ?_⟩
    · unfold HostRange.hosts
      rw [if_pos hsingle, if_pos hsingle]
      rfl
    · rw [h.left_lo, show hr.hi - hr.lo = 0 by omega]
  · have hcount := h.toValid.hostrangeCount_eq
    have hlength := h.toValid.length_hosts
    have hlast : hr.hosts.getLast? = some (hr.pfx ++ padded hr.width hr.hi) := by
      unfold HostRange.hosts
      rw [if_neg hsingle, List.getLast?_map, List.getLast?_range', if_neg (by omega)]
      simp only [Option.map_some]
      congr 3
      omega
    refine ⟨{ hr with hi := ulongSub hr.hi 1 }, ?_, h.left_hi⟩
    rw [if_neg hsingle, if_pos (by omega), h.take_name le_rfl, hlast]

/-- Assumes: a canonical range. `hostrange_shift` gives its first name, and moves the lower
bound. -/
theorem hostrangeShift_spec {hr : HostRange} (h : hr.Canonical) :
    hostrangeShift hr = (hr.hosts.head?, { hr with lo := ulongAdd hr.lo 1 }) := by
  have hle := h.lo_le_hi
  unfold hostrangeShift
  by_cases hsingle : hr.singlehost = true
  · unfold HostRange.hosts
    rw [if_pos hsingle, if_pos hsingle]
    rfl
  · have hcount := h.toValid.hostrangeCount_eq
    have hlength := h.toValid.length_hosts
    have hfirst : hr.hosts.head? = some (hr.pfx ++ padded hr.width hr.lo) := by
      unfold HostRange.hosts
      rw [if_neg hsingle, show hr.hi + 1 - hr.lo = hr.hi - hr.lo + 1 by omega, List.range'_succ]
      rfl
    rw [if_neg hsingle, if_pos (by omega), h.take_name hle, hfirst]

/-- Assumes: a canonical list of less than `2 ^ 31` names, and its last range. `hostlist_pop` gives
the last name, and leaves that range without it. -/
theorem hostlistPop_ranges {hl : Hostlist} (h : hl.Canonical)
    (hsmall : hl.hosts.length < 2147483648) {front : List HostRange}
    {hr : HostRange} (hranges : hl.ranges = front ++ [hr]) :
    hostlistPop hl =
      some (hl.hosts.getLast?, {
        ranges := front ++ hr.without (hr.hi - hr.lo), nhosts := toInt (hl.nhosts - 1) }) := by
  have hnhosts := h.nhosts_eq_length hsmall
  have hr_canonical : hr.Canonical := h.ranges_canonical hr (by rw [hranges]; simp)
  have hlength := hr_canonical.toValid.length_hosts
  have hhosts : hl.hosts = hostsOf front ++ hr.hosts := by
    rw [Hostlist.hosts, hranges, hostsOf_append, hostsOf_cons, hostsOf_nil, List.append_nil]
  have hne : hr.hosts ≠ [] := List.ne_nil_of_length_pos (by omega)
  have hpositive : 0 < hl.nhosts := by
    rw [hnhosts, hhosts, List.length_append]
    omega
  obtain ⟨hr', hpop, hleft⟩ := hostrangePop_spec hr_canonical
  unfold hostlistPop
  rw [if_pos hpositive, hranges, List.getLast?_concat, List.dropLast_concat]
  simp only [hpop, hhosts, List.getLast?_append_of_ne_nil _ hne, ← hleft, HostRange.left]
  split_ifs <;> simp

/-- Assumes: a canonical list, and its last range. Without the last name it has one name less, and
is canonical. -/
theorem Hostlist.Canonical.without_last {hl : Hostlist} (h : hl.Canonical) {front : List HostRange}
    {hr : HostRange}
    (hranges : hl.ranges = front ++ [hr]) :
    hostsOf (front ++ hr.without (hr.hi - hr.lo)) = hl.hosts.dropLast ∧
      Hostlist.Canonical
        { ranges := front ++ hr.without (hr.hi - hr.lo), nhosts := toInt (hl.nhosts - 1) } := by
  have hlength := (h.ranges_canonical hr (by rw [hranges]; simp)).toValid.length_hosts
  have htotal : hl.hosts.length = (hostsOf front).length + (hr.hi - hr.lo) + 1 := by
    rw [Hostlist.hosts, hranges, hostsOf_append, hostsOf_cons, hostsOf_nil, List.append_nil,
      List.length_append, hlength]
    omega
  obtain ⟨hnames, hcanonical⟩ := h.without hranges le_rfl
  rw [List.append_nil] at hnames hcanonical
  rw [List.eraseIdx_eq_dropLast (by omega)] at hnames
  exact ⟨hnames, hcanonical⟩

/-- Assumes: a canonical list of less than `2 ^ 31` names. `hostlist_pop` takes the last name, if
there is one. -/
theorem hostlistPop_spec {hl : Hostlist} (h : hl.Canonical)
    (hsmall : hl.hosts.length < 2147483648) :
    ∃ hl', hostlistPop hl = some (hl.hosts.getLast?, hl') ∧ hl'.hosts = hl.hosts.dropLast ∧
      hl'.Canonical := by
  rcases List.eq_nil_or_concat hl.ranges with hempty | ⟨front, hr, hranges⟩
  · have hnone : hl.hosts = [] := by rw [Hostlist.hosts, hempty, hostsOf_nil]
    have hnhosts := h.nhosts_eq_length hsmall
    unfold hostlistPop
    rw [if_neg (by rw [hnhosts, hnone]; decide)]
    exact ⟨hl, by rw [hnone]; rfl, by rw [hnone]; rfl, h⟩
  · rw [List.concat_eq_append] at hranges
    obtain ⟨hnames, hcanonical⟩ := h.without_last hranges
    exact ⟨_, hostlistPop_ranges h hsmall hranges, hnames, hcanonical⟩

/-- Assumes: a canonical list, and its first range. Without the first name it has one name less, and
is canonical. -/
theorem Hostlist.Canonical.without_first {hl : Hostlist} (h : hl.Canonical) {hr : HostRange}
    {back : List HostRange}
    (hranges : hl.ranges = hr :: back) :
    hostsOf (hr.without 0 ++ back) = hl.hosts.tail ∧
      Hostlist.Canonical { ranges := hr.without 0 ++ back, nhosts := toInt (hl.nhosts - 1) } := by
  obtain ⟨hnames, hcanonical⟩ := h.without (show hl.ranges = [] ++ hr :: back from hranges)
    (Nat.zero_le _)
  rw [hostsOf_nil, List.length_nil, Nat.add_zero, List.eraseIdx_zero] at hnames
  exact ⟨hnames, hcanonical⟩

/-- Assumes: a canonical list of less than `2 ^ 31` names. `hostlist_shift` takes the first name, if
there is one. -/
theorem hostlistShift_spec {hl : Hostlist} (h : hl.Canonical)
    (hsmall : hl.hosts.length < 2147483648) :
    ∃ hl', hostlistShift
      hl = some (hl.hosts.head?, hl') ∧ hl'.hosts = hl.hosts.tail ∧ hl'.Canonical := by
  have hnhosts := h.nhosts_eq_length hsmall
  unfold hostlistShift
  cases hranges : hl.ranges with
  | nil =>
    have hnone : hl.hosts = [] := by rw [Hostlist.hosts, hranges, hostsOf_nil]
    rw [if_neg (by rw [hnhosts, hnone]; decide)]
    exact ⟨hl, by rw [hnone]; rfl, by rw [hnone]; rfl, h⟩
  | cons hr back =>
    have hr_canonical : hr.Canonical := h.ranges_canonical hr (by rw [hranges]; simp)
    have hlength := hr_canonical.toValid.length_hosts
    have hhosts : hl.hosts = hr.hosts ++ hostsOf back := by
      rw [Hostlist.hosts, hranges, hostsOf_cons]
    have hne : hr.hosts ≠ [] := List.ne_nil_of_length_pos (by omega)
    have hpositive : 0 < hl.nhosts := by
      rw [hnhosts, hhosts, List.length_append]
      omega
    obtain ⟨hnames, hcanonical⟩ := h.without_first hranges
    refine ⟨{ ranges := hr.without 0 ++ back, nhosts := toInt (hl.nhosts - 1) }, ?_,
      hnames, hcanonical⟩
    rw [if_pos hpositive]
    simp only [hostrangeShift_spec hr_canonical, hhosts, List.head?_append_of_ne_nil _ hne,
      ← hr_canonical.left_lo, HostRange.left]
    split_ifs <;> simp

/-! ### Many hosts -/

/-- What becomes of names when others are taken out one by one, from the last one on: how many were
there, and what is left. -/
def eraseNames (hosts names : List (List Char)) : ℕ × List (List Char) :=
  hosts.foldr (fun host state ↦
    (if host ∈ state.2 then state.1 + 1 else state.1, state.2.erase host)) (0, names)

/-- No more names are left than there were, and those that are gone are counted. -/
theorem eraseNames_count (hosts names : List (List Char)) :
    (eraseNames hosts names).1 + (eraseNames hosts names).2.length = names.length := by
  induction hosts with
  | nil => exact Nat.zero_add _
  | cons host hosts ih =>
    change (if host ∈ (eraseNames hosts names).2 then (eraseNames hosts names).1 +
      1 else (eraseNames hosts names).1) +
      ((eraseNames hosts names).2.erase host).length = names.length
    split_ifs with hmem
    · have hlength := List.length_erase_of_mem hmem
      have hpositive := List.length_pos_of_mem hmem
      omega
    · rw [List.erase_of_not_mem hmem]
      exact ih

/-- The last of the names is the first to be taken out. -/
theorem eraseNames_concat (init names : List (List Char)) (host : List Char) :
    eraseNames (init ++ [host]) names =
      ((eraseNames init (names.erase host)).1 + (if host ∈ names then 1 else 0),
        (eraseNames init (names.erase host)).2) := by
  have hshift : ∀ (hosts names : List (List Char)) (m : ℕ),
      hosts.foldr (fun host state ↦
        (if host ∈ state.2 then state.1 + 1 else state.1, state.2.erase host)) (m, names) =
        ((eraseNames hosts names).1 + m, (eraseNames hosts names).2) := by
    intro hosts names m
    unfold eraseNames
    induction hosts with
    | nil => simp
    | cons host hosts ih =>
      rw [List.foldr_cons, List.foldr_cons, ih]
      simp only
      split_ifs
      · rw [Nat.add_right_comm]
      · rfl
  rw [eraseNames, List.foldr_append, List.foldr_cons, List.foldr_nil, hshift, Nat.zero_add]

/-- Assumes: canonical lists of less than `2 ^ 31` names, and enough rounds. The loop takes the
names of the one out of the other, from the last one on. -/
theorem deleteLoop_spec (ndebug : Bool) (rounds : ℕ) :
    ∀ (hltmp hl : Hostlist) (n : ℕ), hltmp.Canonical → hltmp.hosts.length < 2147483648 →
      hl.Canonical →
      n + hl.hosts.length < 2147483648 → hltmp.hosts.length < rounds →
      ∃ hl', deleteLoop ndebug rounds hltmp hl n =
        some (((n + (eraseNames hltmp.hosts hl.hosts).1 : ℕ) : ℤ), hl') ∧
        hl'.hosts = (eraseNames hltmp.hosts hl.hosts).2 ∧ hl'.Canonical := by
  induction rounds with
  | zero => exact fun _ _ _ _ _ _ _ h ↦ absurd h (Nat.not_lt_zero _)
  | succ rounds ih =>
    intro hltmp hl n htmp htmp_small hcanonical hsmall hrounds
    obtain ⟨hltmp', hpop, hinit, htmp'⟩ := hostlistPop_spec htmp htmp_small
    rw [deleteLoop, hpop]
    rcases List.eq_nil_or_concat hltmp.hosts with hnil | ⟨init, host, hhosts⟩
    · rw [hnil]
      exact ⟨hl, rfl, rfl, hcanonical⟩
    · rw [List.concat_eq_append] at hhosts
      rw [hhosts, List.dropLast_concat] at hinit
      rw [hhosts, List.length_append, List.length_singleton] at htmp_small hrounds
      obtain ⟨hl1, hdelete, hnames, hcanonical1⟩ :=
        hostlistDeleteHost_spec hcanonical (by omega) host ndebug
      have hlength : (n + if host ∈ hl.hosts then 1 else 0) + hl1.hosts.length < 2147483648 := by
        rw [hnames]
        split_ifs with hmem
        · have hgone := List.length_erase_of_mem hmem
          have hpositive := List.length_pos_of_mem hmem
          omega
        · rw [List.erase_of_not_mem hmem]
          omega
      obtain ⟨hl', hrun, hleft, hcanonical'⟩ :=
        ih hltmp' hl1 _ htmp' (by rw [hinit]; omega) hcanonical1 hlength
        (by rw [hinit]; omega)
      refine ⟨hl', ?_, ?_, hcanonical'⟩
      · rw [hhosts, List.getLast?_concat]
        simp only [hdelete]
        rw [toInt_eq_self (by split_ifs <;> omega) (by split_ifs at hlength ⊢ <;> omega),
          eraseNames_concat]
        rw [hinit, hnames] at hrun
        rw [show (n : ℤ) + (if host ∈ hl.hosts then 1 else 0) =
            ((n + if host ∈ hl.hosts then 1 else 0 : ℕ) : ℤ) by
          push_cast; rfl, hrun]
        congr 3
        omega
      · rw [hleft, hhosts, eraseNames_concat, hinit, hnames]

/-- Assumes: a canonical list of less than `2 ^ 31` names, and a host expression whose list is one,
too. The call takes the names of the expression out, and says how many were there. -/
theorem hostlistDelete_spec {hl hltmp : Hostlist} (hcanonical : hl.Canonical)
    (hsmall : hl.hosts.length < 2147483648)
    {hosts : List Char} (hcreate : hostlistCreate hosts = .ok hltmp) (htmp : hltmp.Canonical)
    (htmp_small : hltmp.hosts.length < 2147483648) (ndebug : Bool) :
    ∃ hl', hostlistDelete ndebug hl hosts = some (((eraseNames hltmp.hosts hl.hosts).1 : ℤ), hl') ∧
      hl'.hosts = (eraseNames hltmp.hosts hl.hosts).2 ∧ hl'.Canonical := by
  obtain ⟨hl', hrun, hleft, hcanonical'⟩ :=
    deleteLoop_spec ndebug (hltmp.hosts.length + 1) hltmp hl 0 htmp htmp_small hcanonical
    (by omega) (Nat.lt_succ_self _)
  rw [Nat.zero_add] at hrun
  refine ⟨hl', ?_, hleft, hcanonical'⟩
  unfold hostlistDelete
  rw [hcreate]
  exact hrun

end Whatsup
