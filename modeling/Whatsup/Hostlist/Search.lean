import Mathlib.Data.List.DropRight
import Whatsup.Hostlist.Range

/-!
# Host names and the search for one in a range

`hostname_create` cuts a name before its trailing digits and keeps them as a numeric suffix unless
their value is above `MAX_HOST_SUFFIX`. `hostnameCreate_cases` states the two outcomes.

`hostrange_hn_within` looks a name up in one range and may overwrite the width of the range on the
way. For the ranges that insertion of bracket-free names builds (`HostRange.Canonical`), the search
answers by the names alone: `hostrangeHnWithin_eq` gives the position of the name among the hosts
of the range, or `-1`, and says that the range denotes the same hosts afterwards.
-/

set_option autoImplicit false
set_option relaxedAutoImplicit false

namespace Whatsup

open CLib

/-! ### `hostname_t` -/

/-- `struct hostname_components`; `suffix` is the numeric suffix, if the name has a valid one. -/
structure Hostname where
  hostname : List Char
  pfx : List Char
  num : ℕ
  suffix : Option (List Char)

/-- `host_prefix_end`: the index of the last character that is not a trailing digit, or `-1`. -/
def hostPrefixEnd (hostname : List Char) : ℤ :=
  (hostname.rdropWhile Char.isDigit).length - 1

/-- `hostname_create_with_suffix`: the name cut behind index `idx`. -/
def hostnameCreateWithSuffix (hostname : List Char) (idx : ℤ) : Hostname :=
  if idx = hostname.length - 1 then
    { hostname := hostname, pfx := hostname, num := 0, suffix := none }
  else
    let suffix := hostname.drop (idx + 1).toNat
    let (num, p) := strtoul suffix
    if p = [] ∧ num ≤ maxHostSuffix then
      { hostname := hostname, pfx := hostname.take (idx + 1).toNat, num := num,
        suffix := some suffix }
    else { hostname := hostname, pfx := hostname, num := num, suffix := none }

/-- `hostname_create`. -/
def hostnameCreate (hostname : List Char) : Hostname :=
  hostnameCreateWithSuffix hostname (hostPrefixEnd hostname)

/-- A text that does not end in a digit. -/
def NoTrailingDigit (text : List Char) : Prop :=
  text.rdropWhile Char.isDigit = text

/-- Assumes: a text that does not end in a digit, followed by digits. Dropping the trailing digits
gives the text back. -/
theorem rdropWhile_append_digits {text digits : List Char} (htext : NoTrailingDigit text)
    (hdigits : ∀ c ∈ digits, c.isDigit = true) :
    (text ++ digits).rdropWhile Char.isDigit = text := by
  rw [List.rdropWhile, List.reverse_append, List.dropWhile_append_of_pos
    (fun c hc ↦ hdigits c (List.mem_reverse.mp hc))]
  exact htext

/-- Assumes: two texts that do not end in a digit, each followed by digits. If the wholes agree, so
do the texts and the digits. -/
theorem append_digits_inj {text text' digits digits' : List Char}
    (htext : NoTrailingDigit text) (htext' : NoTrailingDigit text')
    (hdigits : ∀ c ∈ digits, c.isDigit = true) (hdigits' : ∀ c ∈ digits', c.isDigit = true)
    (h : text ++ digits = text' ++ digits') : text = text' ∧ digits = digits' := by
  have hcut := congrArg (List.rdropWhile Char.isDigit) h
  rw [rdropWhile_append_digits htext hdigits, rdropWhile_append_digits htext' hdigits'] at hcut
  exact ⟨hcut, List.append_cancel_left (hcut ▸ h)⟩

/-- The two outcomes of `hostname_create`: the whole name is the prefix, or the name is a prefix
that does not end in a digit, followed by a nonempty suffix of digits whose value is at most
`MAX_HOST_SUFFIX`. -/
theorem hostnameCreate_cases (hostname : List Char) :
    ((hostnameCreate hostname).pfx = hostname ∧ (hostnameCreate hostname).suffix = none ∧
      ∀ pfx digits, hostname = pfx ++ digits → NoTrailingDigit pfx → digits ≠ [] →
        (∀ c ∈ digits, c.isDigit = true) → maxHostSuffix < Nat.ofDigitChars 10 digits 0) ∨
    ∃ pfx suffix, hostname = pfx ++ suffix ∧ NoTrailingDigit pfx ∧ suffix ≠ [] ∧
      (∀ c ∈ suffix, c.isDigit = true) ∧ Nat.ofDigitChars 10 suffix 0 ≤ maxHostSuffix ∧
      hostnameCreate hostname =
        { hostname := hostname, pfx := pfx, num := Nat.ofDigitChars 10 suffix 0,
          suffix := some suffix } := by
  have hsplit : hostname.rdropWhile Char.isDigit ++ hostname.rtakeWhile Char.isDigit = hostname :=
    List.rdropWhile_append_rtakeWhile ..
  have hpfx : NoTrailingDigit (hostname.rdropWhile Char.isDigit) :=
    List.rdropWhile_idempotent ..
  have hdigits : ∀ c ∈ hostname.rtakeWhile Char.isDigit, c.isDigit = true :=
    fun c hc ↦ List.mem_rtakeWhile_imp hc
  have hunique : ∀ pfx digits, hostname = pfx ++ digits → NoTrailingDigit pfx →
      (∀ c ∈ digits, c.isDigit = true) → digits = hostname.rtakeWhile Char.isDigit :=
    fun pfx digits heq htext hdig ↦
      (append_digits_inj htext hpfx hdig hdigits (heq.symm.trans hsplit.symm)).2
  have hlength := congrArg List.length hsplit
  rw [List.length_append] at hlength
  have hcut : ((hostPrefixEnd hostname) + 1).toNat =
      (hostname.rdropWhile Char.isDigit).length := by
    unfold hostPrefixEnd
    omega
  have hdrop : hostname.drop (hostname.rdropWhile Char.isDigit).length =
      hostname.rtakeWhile Char.isDigit :=
    calc _ = (hostname.rdropWhile Char.isDigit ++ hostname.rtakeWhile Char.isDigit).drop
          (hostname.rdropWhile Char.isDigit).length := by rw [hsplit]
      _ = _ := List.drop_left
  have htake : hostname.take (hostname.rdropWhile Char.isDigit).length =
      hostname.rdropWhile Char.isDigit :=
    calc _ = (hostname.rdropWhile Char.isDigit ++ hostname.rtakeWhile Char.isDigit).take
          (hostname.rdropWhile Char.isDigit).length := by rw [hsplit]
      _ = _ := List.take_left
  by_cases hnone : hostname.rtakeWhile Char.isDigit = []
  · left
    have hidx : hostPrefixEnd hostname = hostname.length - 1 := by
      rw [hnone, List.length_nil] at hlength
      unfold hostPrefixEnd
      omega
    refine ⟨?_, ?_, fun pfx digits heq htext hne hdig ↦ ?_⟩
    · rw [hostnameCreate, hostnameCreateWithSuffix, if_pos hidx]
    · rw [hostnameCreate, hostnameCreateWithSuffix, if_pos hidx]
    · exact absurd ((hunique pfx digits heq htext hdig).trans hnone) hne
  · have hidx : hostPrefixEnd hostname ≠ hostname.length - 1 := by
      have hpositive := List.length_pos_iff.mpr hnone
      unfold hostPrefixEnd
      omega
    have hread := strtoul_digits hdigits hnone
    by_cases hmax : Nat.ofDigitChars 10 (hostname.rtakeWhile Char.isDigit) 0 ≤ maxHostSuffix
    · right
      have hmin : min (Nat.ofDigitChars 10 (hostname.rtakeWhile Char.isDigit) 0) ulongMax =
          Nat.ofDigitChars 10 (hostname.rtakeWhile Char.isDigit) 0 :=
        min_eq_left (hmax.trans (by decide))
      refine ⟨_, _, hsplit.symm, hpfx, hnone, hdigits, hmax, ?_⟩
      rw [hmin] at hread
      simp only [hostnameCreate, hostnameCreateWithSuffix, if_neg hidx, hcut, hdrop, htake, hread,
        hmax, and_self, if_true]
    · left
      have hlarge : maxHostSuffix <
          min (Nat.ofDigitChars 10 (hostname.rtakeWhile Char.isDigit) 0) ulongMax :=
        lt_min (not_le.mp hmax) (by decide)
      have hresult : hostnameCreate hostname =
          { hostname := hostname, pfx := hostname,
            num := min (Nat.ofDigitChars 10 (hostname.rtakeWhile Char.isDigit) 0) ulongMax,
            suffix := none } := by
        simp only [hostnameCreate, hostnameCreateWithSuffix, if_neg hidx, hcut, hdrop, htake,
          hread, true_and, if_neg (not_le.mpr hlarge)]
      refine ⟨by rw [hresult], by rw [hresult], fun pfx digits heq htext _ hdig ↦ ?_⟩
      rw [hunique pfx digits heq htext hdig]
      exact not_le.mp hmax

/-- Assumes: a text that does not end in a digit, and a number up to `MAX_HOST_SUFFIX`. Its numeral
is the suffix of the name of both. -/
theorem hostnameCreate_numeral {pfx : List Char} (hpfx : NoTrailingDigit pfx)
    {number : ℕ} (width : ℕ)
    (hnumber : number ≤ maxHostSuffix) :
    hostnameCreate (pfx ++ padded width number) =
      { hostname := pfx ++ padded width number, pfx := pfx, num := number,
        suffix := some (padded width number) } := by
  have hdigits : ∀ c ∈ padded width number, c.isDigit = true := fun c hc ↦ isDigit_of_mem_padded hc
  rcases hostnameCreate_cases (pfx ++ padded width number) with ⟨-, -, hlarge⟩ | ⟨pfx', suffix,
    hname, hpfx', -,
    hdigits', -, hcreate⟩
  · have habove := hlarge pfx (padded width number) rfl hpfx (padded_ne_nil width number) hdigits
    rw [ofDigitChars_padded] at habove
    omega
  · obtain ⟨rfl, rfl⟩ := append_digits_inj hpfx hpfx' hdigits hdigits' hname
    rw [hcreate, ofDigitChars_padded]

/-- The name a `hostname_t` was created from is kept. -/
theorem hostname_hostnameCreate (hostname : List Char) :
    (hostnameCreate hostname).hostname = hostname := by
  unfold hostnameCreate hostnameCreateWithSuffix
  split_ifs
  · rfl
  · simp only
    split_ifs <;> rfl

/-! ### The search in one range -/

/-- The rounds of `hostrange_hn_within`: it calls itself with a name whose prefix is one character
longer, as long as that prefix is shorter than the prefix of the range. The answer comes with the
range as the call leaves it. -/
def hnWithinRounds : ℕ → HostRange → Hostname → ℤ × HostRange
  | 0, hr, _ => (-1, hr)
  | rounds + 1, hr, hn =>
    if hr.singlehost then (if hn.hostname = hr.pfx then 0 else -1, hr)
    else
      match hn.suffix with
      | none => (-1, hr)
      | some suffix =>
        let lenHn := hn.pfx.length
        let lenHr := hr.pfx.length
        if hr.pfx.take lenHn ≠ hn.pfx then (-1, hr)
        else if lenHn < lenHr ∧ 1 < suffix.length ∧ (hr.pfx.getLast?.any Char.isDigit) = true ∧
            hr.pfx[lenHn]? = suffix.head? then
          hnWithinRounds rounds hr (hostnameCreateWithSuffix hn.hostname lenHn)
        else if lenHr = lenHn ∧ hn.pfx = hr.pfx ∧ hn.num ≤ hr.hi ∧ hr.lo ≤ hn.num then
          let (equiv, width, _) := widthEquiv hr.lo hr.width hn.num suffix.length
          if equiv then (toInt (ulongSub hn.num hr.lo), { hr with width := width })
          else (-1, { hr with width := width })
        else (-1, hr)

/-- `hostrange_hn_within`: the offset of a name in a range, or `-1`. -/
def hostrangeHnWithin (hr : HostRange) (hn : Hostname) : ℤ × HostRange :=
  hnWithinRounds (hr.pfx.length + 1) hr hn

/-- The ranges that insertion of bracket-free names builds: valid, with suffixes up to
`MAX_HOST_SUFFIX`, with a prefix that does not end in a digit unless the range is a single host, and
without a width if it is one. -/
structure HostRange.Canonical (hr : HostRange) : Prop extends hr.Valid where
  hi_le : hr.hi ≤ maxHostSuffix
  pfx_end : hr.singlehost = false → NoTrailingDigit hr.pfx
  single_width : hr.singlehost = true → hr.width = 0

/-- Assumes: a canonical range that is not a single host. With another width it is canonical. -/
theorem HostRange.Canonical.setWidth {hr : HostRange} (hcanonical : hr.Canonical)
    (hsingle : hr.singlehost = false) (width : ℕ) :
    HostRange.Canonical { hr with width := width } :=
  ⟨hcanonical.toValid.setWidth width, hcanonical.hi_le, hcanonical.pfx_end,
    fun h ↦ absurd (hsingle.symm.trans h) (by decide)⟩

/-- A single host is a canonical range. -/
theorem canonical_hostrangeCreateSingle (pfx : List Char) :
    (hostrangeCreateSingle pfx).Canonical :=
  ⟨⟨le_rfl, by change 0 < ulongMax; decide, fun _ ↦ ⟨rfl, rfl⟩⟩, Nat.zero_le _,
    fun h ↦ Bool.noConfusion h, fun _ ↦ rfl⟩

/-- Assumes: bounds in order and up to `MAX_HOST_SUFFIX`, and a prefix that does not end in a digit.
The range of them is canonical. -/
theorem canonical_hostrangeCreate {pfx : List Char} {lo hi : ℕ} (width : ℕ) (hle : lo ≤ hi)
    (hmax : hi ≤ maxHostSuffix) (hpfx : NoTrailingDigit pfx) :
    (hostrangeCreate pfx lo hi width).Canonical :=
  ⟨⟨hle, lt_of_le_of_lt hmax (by decide), fun h ↦ Bool.noConfusion h⟩, hmax, fun _ ↦ hpfx,
    fun h ↦ Bool.noConfusion h⟩

/-- A copy of a canonical range is canonical. -/
theorem HostRange.Canonical.copy {hr : HostRange} (hcanonical : hr.Canonical) :
    (hostrangeCopy hr).Canonical := by
  unfold hostrangeCopy
  split_ifs with hsingle
  · exact canonical_hostrangeCreateSingle hr.pfx
  · exact canonical_hostrangeCreate hr.width hcanonical.lo_le_hi hcanonical.hi_le
      (hcanonical.pfx_end (by simpa using hsingle))

/-- Assumes: a list of numerals of consecutive numbers behind one prefix. The position of one of
them is its distance from the first. -/
theorem idxOf_map_padded {pfx : List Char} {width lo count number : ℕ} (hlo : lo ≤ number)
    (hhi : number < lo + count) :
    ((List.range' lo count).map fun i ↦ pfx ++ padded width i).idxOf (pfx ++ padded width number) =
      number - lo := by
  induction count generalizing lo with
  | zero => omega
  | succ count ih =>
    rw [List.range'_succ, List.map_cons]
    by_cases heq : lo = number
    · rw [heq, List.idxOf_cons_self, Nat.sub_self]
    · rw [List.idxOf_cons_ne _ (fun h ↦ heq (padded_inj (List.append_cancel_left h))),
        ih (by omega) (by omega)]
      omega

/-- Assumes: a range that is not a single host. A name is one of its hosts exactly when it is its
prefix followed by the numeral of one of its numbers. -/
theorem HostRange.mem_hosts_iff {hr : HostRange} (hsingle : hr.singlehost = false)
    {name : List Char} :
    name ∈ hr.hosts ↔
      ∃ number, hr.lo ≤ number ∧ number ≤ hr.hi ∧ name = hr.pfx ++ padded hr.width number := by
  unfold HostRange.hosts
  rw [if_neg (by simp [hsingle]), List.mem_map]
  constructor
  · rintro ⟨number, hnumber, rfl⟩
    have hbounds := List.mem_range'_1.mp hnumber
    exact ⟨number, hbounds.1, by omega, rfl⟩
  · rintro ⟨number, hlo, hhi, rfl⟩
    exact ⟨number, List.mem_range'_1.mpr ⟨hlo, by omega⟩, rfl⟩

/-- Assumes: a range that is not a single host, and one of its numbers. The position of its name
is the distance from the first number. -/
theorem HostRange.idxOf_hosts {hr : HostRange} (hsingle : hr.singlehost = false) {number : ℕ}
    (hlo : hr.lo ≤ number) (hhi : number ≤ hr.hi) :
    hr.hosts.idxOf (hr.pfx ++ padded hr.width number) = number - hr.lo := by
  unfold HostRange.hosts
  rw [if_neg (by simp [hsingle])]
  exact idxOf_map_padded hlo (by omega)

/-- A name that a search finds: that of a single host, or one that `hostname_create` gives a
suffix. -/
def searchable (mark : List Char × Bool) : Bool :=
  mark.2 || (hostnameCreate mark.1).suffix.isSome

/-- The names that a search finds, of names and whether they are single hosts. -/
def foundNames (marks : List (List Char × Bool)) : List (List Char) :=
  (marks.filter searchable).map Prod.fst

@[simp]
theorem foundNames_nil : foundNames [] = [] := rfl

@[simp]
theorem foundNames_append (front back : List (List Char × Bool)) :
    foundNames (front ++ back) = foundNames front ++ foundNames back := by
  unfold foundNames
  rw [List.filter_append, List.map_append]

/-- A search finds a single host. -/
theorem foundNames_marks_single {hr : HostRange} (hsingle : hr.singlehost = true) :
    foundNames hr.marks = [hr.pfx] := by
  unfold foundNames HostRange.marks
  rw [HostRange.hosts_single hsingle, hsingle]
  rfl

/-- Assumes: a range that is not a single host. A search finds those of its hosts that have a
suffix. -/
theorem mem_foundNames_marks {hr : HostRange} (hsingle : hr.singlehost = false) {name : List Char} :
    name ∈ foundNames hr.marks ↔ name ∈ hr.hosts ∧ (hostnameCreate name).suffix.isSome = true := by
  unfold foundNames HostRange.marks searchable
  simp [hsingle]

/-- A range with a width that writes its hosts as they were written. -/
structure HostRange.Rewrites (hr hr' : HostRange) : Prop where
  eq_setWidth : hr' = { hr with width := hr'.width }
  single_width : hr.singlehost = true → hr'.width = hr.width
  padded_eq : ∀ number, hr.lo ≤ number → padded hr'.width number = padded hr.width number

theorem HostRange.Rewrites.refl (hr : HostRange) : hr.Rewrites hr :=
  ⟨rfl, fun _ ↦ rfl, fun _ _ ↦ rfl⟩

/-- The range denotes the same hosts. -/
theorem HostRange.Rewrites.hosts_eq {hr hr' : HostRange} (h : hr.Rewrites hr') : hr'.hosts =
    hr.hosts := by
  rw [h.eq_setWidth]
  exact HostRange.hosts_setWidth h.padded_eq

/-- A canonical range stays canonical. -/
theorem HostRange.Rewrites.canonical {hr hr' : HostRange} (h : hr.Rewrites hr')
    (hcanonical : hr.Canonical) :
    hr'.Canonical := by
  rw [h.eq_setWidth]
  exact ⟨hcanonical.toValid.setWidth _, hcanonical.hi_le, hcanonical.pfx_end,
    fun hsingle ↦ (h.single_width hsingle).trans (hcanonical.single_width hsingle)⟩

/-- Assumes: a name cut in front of digits whose first one does not end it. One character further on
it is cut in front of the others. -/
theorem hostnameCreateWithSuffix_next {pfx rest : List Char} {c : Char} (hne : rest ≠ [])
    (hdigits : ∀ d ∈ rest, d.isDigit = true) (hmax : Nat.ofDigitChars 10 rest 0 ≤ maxHostSuffix) :
    hostnameCreateWithSuffix (pfx ++ c :: rest) pfx.length =
      { hostname := pfx ++ c :: rest, pfx := pfx ++ [c], num := Nat.ofDigitChars 10 rest 0,
        suffix := some rest } := by
  have hpositive := List.length_pos_of_ne_nil hne
  have hlength : ((pfx.length : ℤ) + 1).toNat = (pfx ++ [c]).length := by
    rw [List.length_append, List.length_singleton]
    omega
  have hsplit : pfx ++ c :: rest = (pfx ++ [c]) ++ rest := by simp
  have hread := strtoul_digits hdigits hne
  rw [min_eq_left (hmax.trans (by decide))] at hread
  unfold hostnameCreateWithSuffix
  rw [if_neg (by rw [List.length_append, List.length_cons]; push_cast; omega), hlength, hsplit,
    List.drop_left, List.take_left]
  simp only [hread, true_and, if_pos hmax]

/-- Assumes: the value of digits with one in front. The value of the others is not larger. -/
theorem ofDigitChars_tail_le (c : Char) (rest : List Char) :
    Nat.ofDigitChars 10 rest 0 ≤ Nat.ofDigitChars 10 (c :: rest) 0 := by
  have hsplit : Nat.ofDigitChars 10 (c :: rest) 0 =
      10 ^ rest.length * (10 * 0 + (c.toNat - '0'.toNat)) + Nat.ofDigitChars 10 rest 0 := by
    rw [Nat.ofDigitChars_cons, Nat.ofDigitChars_eq_ofDigitChars_zero]
  omega

/-- Assumes: a range that is not a single host, and a name with the prefix of the range, cut behind
it. The last test of the search finds the name exactly if it is a host of the range. -/
theorem hostrangeHnWithin_last {hr : HostRange} (hsingle : hr.singlehost = false)
    {suffix : List Char}
    (hne : suffix ≠ []) (hdigits : ∀ c ∈ suffix, c.isDigit = true)
    (hmax : Nat.ofDigitChars 10 suffix 0 ≤ maxHostSuffix)
    (hhi : Nat.ofDigitChars 10 suffix 0 ≤ hr.hi)
    (hlo : hr.lo ≤ Nat.ofDigitChars 10 suffix 0) :
    let equiv := widthEquiv hr.lo hr.width (Nat.ofDigitChars 10 suffix 0) suffix.length
    (if equiv.1 then toInt (ulongSub (Nat.ofDigitChars 10 suffix 0) hr.lo) else -1) =
        (if hr.pfx ++ suffix ∈ hr.hosts then (hr.hosts.idxOf (hr.pfx ++ suffix) : ℤ) else -1) ∧
      hr.Rewrites { hr with width := equiv.2.1 } := by
  intro equiv
  have hown := padded_ofDigitChars hdigits hne
  cases hequiv : equiv.1 with
  | false =>
    have hsame := widthEquiv_of_eq_false hequiv
    have hnot : hr.pfx ++ suffix ∉ hr.hosts := by
      intro hmem
      obtain ⟨number, -, -, heq⟩ := (HostRange.mem_hosts_iff hsingle).mp hmem
      have hnumeral := List.append_cancel_left heq
      have htrue : equiv.1 = true := by
        refine widthEquiv_eq_true_iff.mpr (Or.inr ?_)
        rw [hown, hnumeral, ofDigitChars_padded]
      exact absurd (htrue.symm.trans hequiv) (by decide)
    refine ⟨by rw [if_neg (by decide), if_neg hnot], ?_⟩
    have hwidth : equiv.2.1 = hr.width := congrArg (fun result ↦ result.2.1) hsame
    rw [hwidth]
    exact .refl hr
  | true =>
    obtain ⟨width, hresult, hrange, hnumber⟩ := widthEquiv_of_eq_true hequiv
    have hwidth : equiv.2.1 = width := congrArg (fun result ↦ result.2.1) hresult
    have hnumeral : suffix = padded hr.width (Nat.ofDigitChars 10 suffix 0) := by
      rw [← hrange _ hlo, hnumber _ le_rfl, hown]
    have hfound : hr.pfx ++ suffix ∈ hr.hosts :=
      (HostRange.mem_hosts_iff hsingle).mpr ⟨_, hlo, hhi, by rw [← hnumeral]⟩
    have hposition : hr.hosts.idxOf (hr.pfx ++ suffix) = Nat.ofDigitChars 10 suffix 0 - hr.lo := by
      rw [← HostRange.idxOf_hosts hsingle hlo hhi, ← hnumeral]
    have hint : toInt (ulongSub (Nat.ofDigitChars 10 suffix 0) hr.lo) =
        ((Nat.ofDigitChars 10 suffix 0 - hr.lo : ℕ) : ℤ) := by
      unfold maxHostSuffix at hmax
      rw [ulongSub_eq_sub hlo, toInt_eq_self (by omega) (by omega)]
    rw [if_pos rfl, if_pos hfound, hposition, ← hint, hwidth]
    exact ⟨rfl, rfl, fun h ↦ absurd (hsingle.symm.trans h) (by decide), hrange⟩

/-- Assumes: a host of a range, cut in front of digits, with the front of the prefix of the range.
The prefix goes on with digits of the host, or it is the front and the digits are within the bounds
of the range. -/
theorem further_or_within {hr : HostRange} (hsingle : hr.singlehost = false)
    {pfx between suffix : List Char} (hbetween : pfx ++ between = hr.pfx)
    (hdigits : ∀ c ∈ suffix, c.isDigit = true) (hmem : pfx ++ suffix ∈ hr.hosts) :
    (pfx.length < hr.pfx.length ∧ 1 < suffix.length ∧
        (hr.pfx.getLast?.any Char.isDigit) = true ∧ hr.pfx[pfx.length]? = suffix.head?) ∨
      (hr.pfx.length = pfx.length ∧ pfx = hr.pfx ∧ Nat.ofDigitChars 10 suffix 0 ≤ hr.hi ∧
        hr.lo ≤ Nat.ofDigitChars 10 suffix 0) := by
  obtain ⟨number, hlo, hhi, heq⟩ := (HostRange.mem_hosts_iff hsingle).mp hmem
  rw [← hbetween, List.append_assoc] at heq
  have hsuffix := List.append_cancel_left heq
  cases between with
  | nil =>
    rw [List.append_nil] at hbetween
    rw [List.nil_append] at hsuffix
    rw [hsuffix, ofDigitChars_padded]
    exact Or.inr ⟨by rw [hbetween], hbetween, hhi, hlo⟩
  | cons c more =>
    have hlength := List.length_pos_of_ne_nil (padded_ne_nil hr.width number)
    refine Or.inl ⟨?_, ?_, ?_, ?_⟩
    · rw [← hbetween, List.length_append, List.length_cons]
      omega
    · rw [hsuffix, List.length_append, List.length_cons]
      omega
    · obtain ⟨front, last, hlast⟩ : ∃ front last, c :: more = front ++ [last] :=
        ⟨_, _, (List.dropLast_append_getLast (List.cons_ne_nil c more)).symm⟩
      have hdigit := hdigits last (by rw [hsuffix, hlast]; simp)
      rw [← hbetween, hlast, ← List.append_assoc, List.getLast?_concat]
      exact hdigit
    · rw [← hbetween, hsuffix, List.getElem?_append_right le_rfl, Nat.sub_self]
      rfl

/-- Assumes: a range that is not a single host, a name cut in front of digits that are a suffix, in
front of the end of the prefix of the range if it is one of its hosts, and enough rounds. The search
gives the position of the name among the hosts, or `-1`. -/
theorem hnWithinRounds_spec {hr : HostRange} (hsingle : hr.singlehost = false) {name : List Char}
    (rounds : ℕ) :
    ∀ pfx suffix : List Char, name = pfx ++ suffix → suffix ≠ [] →
      (∀ c ∈ suffix, c.isDigit = true) →
      Nat.ofDigitChars 10 suffix 0 ≤ maxHostSuffix → (name ∈ hr.hosts → pfx <+: hr.pfx) →
      hr.pfx.length < pfx.length + rounds →
      (hnWithinRounds rounds hr ⟨name, pfx, Nat.ofDigitChars 10 suffix 0, some suffix⟩).1 =
          (if name ∈ hr.hosts then (hr.hosts.idxOf name : ℤ) else -1) ∧
        hr.Rewrites (hnWithinRounds rounds hr ⟨name, pfx, Nat.ofDigitChars 10 suffix 0,
          some suffix⟩).2 := by
  induction rounds with
  | zero =>
    intro pfx suffix _ _ _ _ hstart hrounds
    have hnot : name ∉ hr.hosts := fun hmem ↦ by
      have hle := (hstart hmem).length_le
      omega
    exact ⟨(if_neg hnot).symm, .refl hr⟩
  | succ rounds ih =>
    intro pfx suffix hname hne hdigits hmax hstart hrounds
    rw [hnWithinRounds, if_neg (by rw [hsingle]; decide)]
    simp only
    by_cases htake : hr.pfx.take pfx.length = pfx
    · have hprefix : pfx <+: hr.pfx := List.prefix_iff_eq_take.mpr htake.symm
      obtain ⟨between, hbetween⟩ := hprefix
      rw [if_neg (not_not.mpr htake)]
      by_cases hfurther : pfx.length < hr.pfx.length ∧ 1 < suffix.length ∧
        (hr.pfx.getLast?.any Char.isDigit) = true ∧
          hr.pfx[pfx.length]? = suffix.head?
      · -- the prefix of the range goes on with digits of the name
        rw [if_pos hfurther]
        obtain ⟨hless, hlong, -, hnext⟩ := hfurther
        obtain ⟨c, rest, rfl⟩ := List.exists_cons_of_ne_nil hne
        have hrest : rest ≠ [] := fun h ↦ by simp [h] at hlong
        have hdigits' : ∀ d ∈ rest, d.isDigit = true :=
          fun d hd ↦ hdigits d (List.mem_cons_of_mem c hd)
        have hmax' := (ofDigitChars_tail_le c rest).trans hmax
        have hprefix' : pfx ++ [c] <+: hr.pfx := by
          rw [List.head?_cons, ← hbetween, List.getElem?_append_right le_rfl, Nat.sub_self] at hnext
          obtain ⟨more, hmore⟩ : ∃ more, between = c :: more := by
            cases between with
            | nil => exact absurd hnext (by simp)
            | cons d more => exact ⟨more, by rw [Option.some.inj hnext]⟩
          exact ⟨more, by rw [← hbetween, hmore, List.append_assoc, List.singleton_append]⟩
        have hcreate : hostnameCreateWithSuffix (pfx ++ c :: rest) pfx.length = _ :=
          hostnameCreateWithSuffix_next hrest hdigits' hmax'
        rw [← hname] at hcreate
        rw [hcreate]
        refine ih (pfx ++ [c]) rest (by rw [hname]; simp) hrest hdigits' hmax' (fun _ ↦ hprefix') ?_
        rw [List.length_append, List.length_singleton]
        omega
      rw [if_neg hfurther]
      by_cases hwithin : hr.pfx.length = pfx.length ∧ pfx = hr.pfx ∧
        Nat.ofDigitChars 10 suffix 0 ≤ hr.hi ∧
          hr.lo ≤ Nat.ofDigitChars 10 suffix 0
      · rw [if_pos hwithin]
        obtain ⟨-, rfl, hhi, hlo⟩ := hwithin
        have hlast := hostrangeHnWithin_last hsingle hne hdigits hmax hhi hlo
        rw [← hname] at hlast
        cases hequiv :
            (widthEquiv hr.lo hr.width (Nat.ofDigitChars 10 suffix 0) suffix.length).1 with
        | false => simpa [hequiv] using hlast
        | true => simpa [hequiv] using hlast
      · -- a host of the range would go on with digits of its prefix, or be within its bounds
        rw [if_neg hwithin]
        have hnot : name ∉ hr.hosts := fun hmem ↦
          (further_or_within hsingle hbetween hdigits (hname ▸ hmem)).elim hfurther hwithin
        exact ⟨(if_neg hnot).symm, .refl hr⟩
    · rw [if_pos htake]
      have hnot : name ∉ hr.hosts := fun hmem ↦
        htake (List.prefix_iff_eq_take.mp (hstart hmem)).symm
      exact ⟨(if_neg hnot).symm, .refl hr⟩

/-- The search gives the position of a name among the hosts of a range if it finds the name, and
`-1` if it does not; the range is written as before. -/
theorem hostrangeHnWithin_spec (hr : HostRange) (name : List Char) :
    (hostrangeHnWithin hr (hostnameCreate name)).1 =
        (if name ∈ foundNames hr.marks then (hr.hosts.idxOf name : ℤ) else -1) ∧
      hr.Rewrites (hostrangeHnWithin hr (hostnameCreate name)).2 := by
  rw [hostrangeHnWithin]
  rcases Bool.eq_false_or_eq_true hr.singlehost with hsingle | hsingle
  · rw [hnWithinRounds, if_pos hsingle, foundNames_marks_single hsingle,
      HostRange.hosts_single hsingle,
      hostname_hostnameCreate]
    refine ⟨?_, .refl hr⟩
    by_cases hname : name = hr.pfx
    · simp [hname]
    · simp [hname]
  · simp only [mem_foundNames_marks hsingle]
    rcases hostnameCreate_cases name with ⟨-, hsuffix, -⟩ | ⟨pfx, suffix, hname, hpfx, hne, hdigits,
      hmax, hcreate⟩
    · rw [hnWithinRounds, if_neg (by rw [hsingle]; decide), hsuffix]
      exact ⟨(if_neg (by simp)).symm, .refl hr⟩
    · have hsearch :=
        hnWithinRounds_spec hsingle (hr.pfx.length + 1) pfx suffix hname hne hdigits hmax
        (fun hmem ↦ ?_) (by omega)
      · simpa [hcreate] using hsearch
      · obtain ⟨number, -, -, heq⟩ := (HostRange.mem_hosts_iff hsingle).mp hmem
        -- the digits behind the prefix of the range are digits of the name
        have hcut := congrArg (List.rdropWhile Char.isDigit) (hname.symm.trans heq)
        rw [rdropWhile_append_digits hpfx hdigits, List.rdropWhile, List.reverse_append,
          List.dropWhile_append_of_pos
          (fun c hc ↦ isDigit_of_mem_padded (List.mem_reverse.mp hc))] at hcut
        rw [hcut]
        exact List.rdropWhile_prefix Char.isDigit hr.pfx

/-- A search finds every host of a canonical range. -/
theorem HostRange.Canonical.foundNames_marks {hr : HostRange} (hcanonical : hr.Canonical) :
    foundNames hr.marks = hr.hosts := by
  rcases Bool.eq_false_or_eq_true hr.singlehost with hsingle | hsingle
  · rw [foundNames_marks_single hsingle, HostRange.hosts_single hsingle]
  · unfold foundNames HostRange.marks
    rw [List.filter_eq_self.mpr, List.map_map]
    · exact List.map_id _
    · intro mark hmark
      obtain ⟨name, hname, rfl⟩ := List.mem_map.mp hmark
      obtain ⟨number, -, hhi, rfl⟩ := (HostRange.mem_hosts_iff hsingle).mp hname
      have hcreate :=
        hostnameCreate_numeral (hcanonical.pfx_end hsingle) hr.width (hhi.trans hcanonical.hi_le)
      rw [searchable, hcreate]
      exact Bool.or_true _

/-- Assumes: a canonical range. The search gives the position of the name among the hosts of the
range, or `-1`; the range denotes the same hosts afterwards and is canonical still. -/
theorem hostrangeHnWithin_eq {hr : HostRange} (hcanonical : hr.Canonical) (name : List Char) :
    (hostrangeHnWithin hr (hostnameCreate name)).1 =
        (if name ∈ hr.hosts then (hr.hosts.idxOf name : ℤ) else -1) ∧
      (hostrangeHnWithin hr (hostnameCreate name)).2.hosts = hr.hosts ∧
      (hostrangeHnWithin hr (hostnameCreate name)).2.Canonical := by
  obtain ⟨hanswer, hrewrites⟩ := hostrangeHnWithin_spec hr name
  rw [hcanonical.foundNames_marks] at hanswer
  exact ⟨hanswer, hrewrites.hosts_eq, hrewrites.canonical hcanonical⟩

end Whatsup
